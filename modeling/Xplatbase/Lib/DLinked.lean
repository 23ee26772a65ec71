import Mathlib.Data.List.Nodup
import Mathlib.Data.List.Basic
import Mathlib.Logic.Function.Basic

/-! Doubly linked lists in two memories of link words. -/
namespace Xplatbase.Lib

variable {K : Type*} {next prev next' prev' : K → Option K} {p n : Option K} {k : K}
  {l l₁ l₂ : List K}

/-- The words of `l` lead from one element to the next and back; the first one leads back to `p`
and the last one on to `n`. -/
def DLinked (next prev : K → Option K) : Option K → List K → Option K → Prop
  | _, [], _ => True
  | p, k :: l, n => prev k = p ∧ next k = l.head?.or n ∧ DLinked next prev (some k) l n

/-- `if (o) o->word = v`. -/
def setAt [DecidableEq K] (o : Option K) (v : Option K) (f : K → Option K) : K → Option K :=
  match o with
  | some k => Function.update f k v
  | none => f

section setAt
variable [DecidableEq K]

theorem setAt_of_ne {o v : Option K} (f : K → Option K) (h : o ≠ some k) : setAt o v f k = f k := by
  cases o with
  | none => rfl
  | some j => exact Function.update_of_ne (fun hkj => h (congrArg some hkj.symm)) ..

theorem setAt_self (v : Option K) (f : K → Option K) : setAt (some k) v f k = v :=
  Function.update_self ..

end setAt

namespace DLinked

theorem congr (h : DLinked next prev p l n) (hn : ∀ k ∈ l, next' k = next k)
    (hp : ∀ k ∈ l, prev' k = prev k) : DLinked next' prev' p l n := by
  induction l generalizing p with
  | nil => trivial
  | cons k l ih =>
    obtain ⟨hk, hnext, ht⟩ := h
    refine ⟨(hp k List.mem_cons_self).trans hk, (hn k List.mem_cons_self).trans hnext, ?_⟩
    exact ih ht (fun j hj => hn j (List.mem_cons_of_mem _ hj))
      fun j hj => hp j (List.mem_cons_of_mem _ hj)

theorem append :
    DLinked next prev p (l₁ ++ l₂) n ↔
      DLinked next prev p l₁ (l₂.head?.or n) ∧ DLinked next prev (l₁.getLast?.or p) l₂ n := by
  induction l₁ generalizing p with
  | nil => simp [DLinked]
  | cons k l ih =>
    rw [List.cons_append, DLinked, DLinked, ih, List.head?_append, List.getLast?_cons,
      Option.or_assoc, and_assoc, and_assoc]
    cases h : l.getLast? <;> simp

variable [DecidableEq K]

theorem setHead (h : DLinked next prev p l n) (hl : l.Nodup) (p' : Option K) :
    DLinked next (setAt l.head? p' prev) p' l n := by
  cases l with
  | nil => trivial
  | cons k l =>
    obtain ⟨-, hnext, ht⟩ := h
    refine ⟨setAt_self .., hnext, ht.congr (fun _ _ => rfl) fun j hj => ?_⟩
    have hne : k ≠ j := fun hkj => (List.nodup_cons.mp hl).1 (hkj ▸ hj)
    exact setAt_of_ne _ fun he => hne (Option.some.inj he)

theorem setLast (h : DLinked next prev p l n) (hl : l.Nodup) (n' : Option K) :
    DLinked (setAt l.getLast? n' next) prev p l n' := by
  induction l generalizing p with
  | nil => trivial
  | cons k l ih =>
    obtain ⟨hk, hnext, ht⟩ := h
    obtain ⟨hkl, hl⟩ := List.nodup_cons.mp hl
    cases l with
    | nil => exact ⟨hk, setAt_self .., trivial⟩
    | cons j l =>
      have hlast : (k :: j :: l).getLast? = (j :: l).getLast? := List.getLast?_cons_cons
      rw [hlast]
      refine ⟨hk, ?_, ih ht hl⟩
      rw [setAt_of_ne _ fun he => hkl (List.mem_of_getLast? he), hnext]
      rfl

theorem insertHead (h : DLinked next prev none l none) (hl : l.Nodup) (hk : k ∉ l) :
    DLinked (Function.update next k l.head?) (setAt l.head? (some k) (Function.update prev k none))
      none (k :: l) none := by
  have hne : ∀ j ∈ l, j ≠ k := fun j hj hjk => hk (hjk ▸ hj)
  refine ⟨?_, ?_, ?_⟩
  · rw [setAt_of_ne _ fun he => hk (List.mem_of_head? he), Function.update_self]
  · rw [Function.update_self, Option.or_none]
  · have hsame : DLinked (Function.update next k l.head?) (Function.update prev k none) none l none :=
      h.congr (fun j hj => Function.update_of_ne (hne j hj) ..)
        fun j hj => Function.update_of_ne (hne j hj) ..
    exact hsame.setHead hl _

theorem pushTail (h : DLinked next prev none l none) (hl : l.Nodup) (hk : k ∉ l) :
    DLinked (setAt l.getLast? (some k) (Function.update next k none))
      (Function.update prev k l.getLast?) none (l ++ [k]) none := by
  have hne : ∀ j ∈ l, j ≠ k := fun j hj hjk => hk (hjk ▸ hj)
  rw [append]
  constructor
  · have hsame : DLinked (Function.update next k none) (Function.update prev k l.getLast?) none l
        none :=
      h.congr (fun j hj => Function.update_of_ne (hne j hj) ..)
        fun j hj => Function.update_of_ne (hne j hj) ..
    exact hsame.setLast hl _
  · refine ⟨?_, ?_, trivial⟩
    · rw [Function.update_self, Option.or_none]
    · rw [setAt_of_ne _ fun he => hk (List.mem_of_getLast? he), Function.update_self]
      rfl

omit [DecidableEq K] in
theorem neighbours (h : DLinked next prev none (l₁ ++ k :: l₂) none) :
    prev k = l₁.getLast? ∧ next k = l₂.head? := by
  obtain ⟨-, hp, hn, -⟩ := append.mp h
  rw [Option.or_none] at hp hn
  exact ⟨hp, hn⟩

/-- An element is taken out: its neighbours lead to each other. -/
theorem unlink (h : DLinked next prev none (l₁ ++ k :: l₂) none) (hl : (l₁ ++ k :: l₂).Nodup) :
    DLinked (Function.update (setAt l₁.getLast? l₂.head? next) k none)
      (Function.update (setAt l₂.head? l₁.getLast? prev) k none) none (l₁ ++ l₂) none := by
  obtain ⟨h₁, -, -, h₂⟩ := append.mp h
  obtain ⟨hl₁, hkl₂, hdisj⟩ := List.nodup_append.mp hl
  obtain ⟨hk₂, hl₂⟩ := List.nodup_cons.mp hkl₂
  have hk₁ : k ∉ l₁ := fun hk => hdisj k hk k List.mem_cons_self rfl
  have hne : ∀ j ∈ l₁ ++ l₂, j ≠ k := by
    rintro j hj rfl
    rcases List.mem_append.mp hj with hj | hj
    · exact hk₁ hj
    · exact hk₂ hj
  have hlinked : DLinked (setAt l₁.getLast? l₂.head? next) (setAt l₂.head? l₁.getLast? prev) none
      (l₁ ++ l₂) none := by
    rw [append, Option.or_none, Option.or_none]
    constructor
    · apply (h₁.setLast hl₁ l₂.head?).congr (fun _ _ => rfl)
      intro j hj
      exact setAt_of_ne _ fun he => hdisj j hj j
        (List.mem_cons_of_mem _ (List.mem_of_head? he)) rfl
    · apply (h₂.setHead hl₂ l₁.getLast?).congr _ fun _ _ => rfl
      intro j hj
      exact setAt_of_ne _ fun he => hdisj j (List.mem_of_getLast? he) j
        (List.mem_cons_of_mem _ hj) rfl
  exact hlinked.congr (fun j hj => Function.update_of_ne (hne j hj) ..)
    fun j hj => Function.update_of_ne (hne j hj) ..

end DLinked

/-- A family of doubly linked lists over the same words; no element is in two of them. -/
structure DLists {ι : Type*} (next prev : K → Option K) (ls : ι → List K) : Prop where
  linked : ∀ i, DLinked next prev none (ls i) none
  nodup : ∀ i, (ls i).Nodup
  disjoint : ∀ i j k, k ∈ ls i → k ∈ ls j → i = j

namespace DLists

variable {ι : Type*} {ls : ι → List K} {i j : ι}

theorem split (h : DLists next prev ls) (hk : k ∈ ls i) :
    ∃ l₁ l₂, ls i = l₁ ++ k :: l₂ ∧ prev k = l₁.getLast? ∧ next k = l₂.head? := by
  obtain ⟨l₁, l₂, hl⟩ := List.append_of_mem hk
  have hi := h.linked i
  rw [hl] at hi
  exact ⟨l₁, l₂, hl, hi.neighbours⟩

theorem next_mem (h : DLists next prev ls) (hk : k ∈ ls i) {a : K} (ha : next k = some a) :
    a ∈ ls i := by
  obtain ⟨l₁, l₂, hl, -, hn⟩ := h.split hk
  rw [hl]
  exact List.mem_append_right _ (List.mem_cons_of_mem _ (List.mem_of_head? (hn ▸ ha)))

theorem prev_mem (h : DLists next prev ls) (hk : k ∈ ls i) {a : K} (ha : prev k = some a) :
    a ∈ ls i := by
  obtain ⟨l₁, l₂, hl, hp, -⟩ := h.split hk
  rw [hl]
  exact List.mem_append_left _ (List.mem_of_getLast? (hp ▸ ha))

theorem exists_other (h : DLists next prev ls) (hk : k ∈ ls i) (hne : prev k ≠ none ∨ next k ≠ none) :
    ∃ a ∈ ls i, a ≠ k := by
  obtain ⟨l₁, l₂, hl, hp, hn⟩ := h.split hk
  have hnd := h.nodup i
  rw [hl] at hnd
  obtain ⟨-, hkl₂, hdisj⟩ := List.nodup_append.mp hnd
  rw [hp, hn] at hne
  rw [hl]
  rcases hne with hne | hne
  · obtain ⟨a, ha⟩ := Option.ne_none_iff_exists'.mp hne
    have ha₁ := List.mem_of_getLast? ha
    exact ⟨a, List.mem_append_left _ ha₁, hdisj a ha₁ k List.mem_cons_self⟩
  · obtain ⟨a, ha⟩ := Option.ne_none_iff_exists'.mp hne
    have ha₂ := List.mem_of_head? ha
    refine ⟨a, List.mem_append_right _ (List.mem_cons_of_mem _ ha₂), ?_⟩
    rintro rfl
    exact (List.nodup_cons.mp hkl₂).1 ha₂

/-- The first element, after `k` is taken out. -/
theorem head?_erase [DecidableEq K] (h : DLists next prev ls) (hk : k ∈ ls i) :
    ((ls i).erase k).head? = if prev k = none then next k else (ls i).head? := by
  obtain ⟨l₁, l₂, hl, hp, hn⟩ := h.split hk
  have hnd := h.nodup i
  rw [hl] at hnd
  have hk₁ : k ∉ l₁ := fun hkl => (List.nodup_append.mp hnd).2.2 k hkl k List.mem_cons_self rfl
  rw [hl, List.erase_append_right _ hk₁, List.erase_cons_head, hp, hn]
  cases l₁ with
  | nil => rfl
  | cons a l => simp

/-- The last element, after `k` is taken out. -/
theorem getLast?_erase [DecidableEq K] (h : DLists next prev ls) (hk : k ∈ ls i) :
    ((ls i).erase k).getLast? = if next k = none then prev k else (ls i).getLast? := by
  obtain ⟨l₁, l₂, hl, hp, hn⟩ := h.split hk
  have hnd := h.nodup i
  rw [hl] at hnd
  have hk₁ : k ∉ l₁ := fun hkl => (List.nodup_append.mp hnd).2.2 k hkl k List.mem_cons_self rfl
  rw [hl, List.erase_append_right _ hk₁, List.erase_cons_head, hp, hn]
  cases l₂ with
  | nil => simp
  | cons a l => simp [List.getLast?_append, List.getLast?_cons_cons]

variable [DecidableEq ι]

/-- One list is replaced by a list of its own elements and of a new one. -/
theorem replace (h : DLists next prev ls) {l : List K} (hl : DLinked next' prev' none l none)
    (hd : l.Nodup) (hmem : ∀ a ∈ l, a ∈ ls i ∨ ∀ j, a ∉ ls j)
    (hn : ∀ j ≠ i, ∀ a ∈ ls j, next' a = next a) (hp : ∀ j ≠ i, ∀ a ∈ ls j, prev' a = prev a) :
    DLists next' prev' (Function.update ls i l) := by
  constructor
  · intro j
    by_cases hj : j = i
    · rw [hj, Function.update_self]
      exact hl
    · rw [Function.update_of_ne hj]
      exact (h.linked j).congr (hn j hj) (hp j hj)
  · intro j
    by_cases hj : j = i
    · rw [hj, Function.update_self]
      exact hd
    · rw [Function.update_of_ne hj]
      exact h.nodup j
  · have hother : ∀ j ≠ i, ∀ a ∈ l, a ∉ ls j := by
      intro j hj a ha haj
      rcases hmem a ha with hi | hno
      · exact hj (h.disjoint j i a haj hi)
      · exact hno j haj
    intro j j' a ha ha'
    by_cases hj : j = i <;> by_cases hj' : j' = i
    · rw [hj, hj']
    · rw [hj, Function.update_self] at ha
      rw [Function.update_of_ne hj'] at ha'
      exact absurd ha' (hother j' hj' a ha)
    · rw [Function.update_of_ne hj] at ha
      rw [hj', Function.update_self] at ha'
      exact absurd ha (hother j hj a ha')
    · rw [Function.update_of_ne hj] at ha
      rw [Function.update_of_ne hj'] at ha'
      exact h.disjoint j j' a ha ha'

variable [DecidableEq K]

theorem insertHead (h : DLists next prev ls) (hk : ∀ j, k ∉ ls j) (i : ι) :
    DLists (Function.update next k (ls i).head?)
      (setAt (ls i).head? (some k) (Function.update prev k none))
      (Function.update ls i (k :: ls i)) := by
  have hne : ∀ j, ∀ a ∈ ls j, a ≠ k := by
    rintro j a ha rfl
    exact hk j ha
  apply h.replace ((h.linked i).insertHead (h.nodup i) (hk i))
  · exact List.nodup_cons.mpr ⟨hk i, h.nodup i⟩
  · intro a ha
    rcases List.mem_cons.mp ha with rfl | ha
    · exact Or.inr hk
    · exact Or.inl ha
  · intro j _ a ha
    exact Function.update_of_ne (hne j a ha) ..
  · intro j hj a ha
    rw [setAt_of_ne _ fun he => hj (h.disjoint j i a ha (List.mem_of_head? he))]
    exact Function.update_of_ne (hne j a ha) ..

theorem pushTail (h : DLists next prev ls) (hk : ∀ j, k ∉ ls j) (i : ι) :
    DLists (setAt (ls i).getLast? (some k) (Function.update next k none))
      (Function.update prev k (ls i).getLast?) (Function.update ls i (ls i ++ [k])) := by
  have hne : ∀ j, ∀ a ∈ ls j, a ≠ k := by
    rintro j a ha rfl
    exact hk j ha
  apply h.replace ((h.linked i).pushTail (h.nodup i) (hk i))
  · apply List.Nodup.append (h.nodup i) (List.nodup_singleton k)
    exact List.disjoint_singleton.mpr (hk i)
  · intro a ha
    rcases List.mem_append.mp ha with ha | ha
    · exact Or.inl ha
    · rw [List.mem_singleton.mp ha]
      exact Or.inr hk
  · intro j hj a ha
    rw [setAt_of_ne _ fun he => hj (h.disjoint j i a ha (List.mem_of_getLast? he))]
    exact Function.update_of_ne (hne j a ha) ..
  · intro j _ a ha
    exact Function.update_of_ne (hne j a ha) ..

theorem unlink (h : DLists next prev ls) (hk : k ∈ ls i) :
    DLists (Function.update (setAt (prev k) (next k) next) k none)
      (Function.update (setAt (next k) (prev k) prev) k none)
      (Function.update ls i ((ls i).erase k)) := by
  obtain ⟨l₁, l₂, hl, hp, hn⟩ := h.split hk
  have hnd := h.nodup i
  have hi := h.linked i
  rw [hl] at hnd hi
  have hk₁ : k ∉ l₁ := fun hkl => (List.nodup_append.mp hnd).2.2 k hkl k List.mem_cons_self rfl
  have herase : (ls i).erase k = l₁ ++ l₂ := by
    rw [hl, List.erase_append_right _ hk₁, List.erase_cons_head]
  have hne : ∀ j ≠ i, ∀ a ∈ ls j, a ≠ k := by
    rintro j hj a ha rfl
    exact hj (h.disjoint j i a ha hk)
  apply h.replace
  · rw [herase, hp, hn]
    exact hi.unlink hnd
  · exact (h.nodup i).erase k
  · intro a ha
    exact Or.inl (List.mem_of_mem_erase ha)
  · intro j hj a ha
    rw [Function.update_of_ne (hne j hj a ha)]
    exact setAt_of_ne _ fun he => hj (h.disjoint j i a ha (h.prev_mem hk he))
  · intro j hj a ha
    rw [Function.update_of_ne (hne j hj a ha)]
    exact setAt_of_ne _ fun he => hj (h.disjoint j i a ha (h.next_mem hk he))

end DLists
end Xplatbase.Lib
