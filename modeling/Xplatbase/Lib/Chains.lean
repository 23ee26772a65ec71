import Xplatbase.Lib.DLinked
import Xplatbase.Lib.LinkedList
import Xplatbase.Lib.Shelves

/-! Linked lists that share a memory of link words, each with a root of its own. -/
namespace Xplatbase.Lib

variable {J K : Type*} {next next' : K → Option K} {root : J → Option K} {v : J → List K}
  {D : Set K} {a : K} {j : J}

/-- The links from each root run through its list, and the lists hold `D` between them. -/
structure Chained (next : K → Option K) (root : J → Option K) (v : J → List K) (D : Set K) :
    Prop where
  linked : ∀ j, Linked next (root j) (v j)
  shelved : Shelved v D

theorem Linked.append [DecidableEq K] {head : Option K} {l : List K} (h : Linked next head l)
    (hnodup : l.Nodup) (ha : a ∉ l) :
    Linked (setAt l.getLast? (some a) (Function.update next a none))
      (if l = [] then some a else head) (l ++ [a]) := by
  induction l generalizing head with
  | nil => exact ⟨rfl, Function.update_self ..⟩
  | cons k t ih =>
    obtain ⟨rfl, ht⟩ := h
    obtain ⟨hk, hnodup⟩ := List.nodup_cons.mp hnodup
    have hat : a ∉ t := fun hat => ha (List.mem_cons_of_mem k hat)
    have hne : k ≠ a := fun he => ha (he ▸ List.mem_cons_self)
    rw [if_neg (List.cons_ne_nil k t)]
    refine ⟨rfl, ?_⟩
    have hrest := ih ht hnodup hat
    cases t with
    | nil =>
      rw [List.getLast?_singleton, setAt_self]
      refine ⟨rfl, ?_⟩
      rw [setAt_of_ne _ fun he => hne (Option.some.inj he), Function.update_self]
      rfl
    | cons m t =>
      have hlast : (k :: m :: t).getLast? = (m :: t).getLast? := List.getLast?_cons_cons
      rw [if_neg (List.cons_ne_nil m t)] at hrest
      rw [hlast]
      have hk' : (m :: t).getLast? ≠ some k := by
        intro he
        exact hk (List.mem_of_getLast? he)
      rw [setAt_of_ne _ hk', Function.update_of_ne hne]
      exact hrest

namespace Chained

theorem eq_nil (h : Chained next root v D) (hj : root j = none) : v j = [] := by
  have hlinked := h.linked j
  rw [hj] at hlinked
  exact hlinked.eq_nil

variable [DecidableEq J] [DecidableEq K]

theorem pop (h : Chained next root v D) (j : J) (ha : root j = some a) :
    a ∈ D ∧ ∃ v', Chained next (Function.update root j (next a)) v' (D \ {a}) ∧
      ∀ i ≠ j, v' i = v i := by
  have hlinked := h.linked j
  rw [ha] at hlinked
  obtain ⟨t, ht, hrest⟩ := hlinked.eq_cons
  have hmem : a ∈ v j := ht ▸ List.mem_cons_self
  refine ⟨h.shelved.mem hmem, Function.update v j t, ?_, fun i hi => Function.update_of_ne hi ..⟩
  constructor
  · intro i
    by_cases hi : i = j
    · rw [hi, Function.update_self, Function.update_self]
      exact hrest
    · rw [Function.update_of_ne hi, Function.update_of_ne hi]
      exact h.linked i
  · apply h.shelved.take hmem
    · rw [Function.update_self, ht, List.erase_cons_head]
    · exact fun i hi => Function.update_of_ne hi ..

theorem push (h : Chained next root v D) (ha : a ∉ D) (j : J) :
    Chained (Function.update next a (root j)) (Function.update root j (some a))
      (Function.update v j (a :: v j)) (insert a D) where
  linked := by
    have hout (i : J) : a ∉ v i := fun hi => ha (h.shelved.mem hi)
    intro i
    by_cases hi : i = j
    · rw [hi, Function.update_self, Function.update_self]
      exact (h.linked j).push (hout j)
    · rw [Function.update_of_ne hi, Function.update_of_ne hi]
      exact (h.linked i).update (hout i) _
  shelved := by
    apply h.shelved.add ha
    · exact Function.update_self ..
    · exact fun i hi => Function.update_of_ne hi ..

theorem append (h : Chained next root v D) (ha : a ∉ D) (j : J) :
    Chained (setAt (v j).getLast? (some a) (Function.update next a none))
      (Function.update root j (if (v j).getLast? = none then some a else root j))
      (Function.update v j (v j ++ [a])) (insert a D) where
  linked := by
    have hout (i : J) : a ∉ v i := fun hi => ha (h.shelved.mem hi)
    intro i
    by_cases hi : i = j
    · rw [hi, Function.update_self, Function.update_self]
      simp only [List.getLast?_eq_none_iff]
      exact (h.linked j).append (h.shelved.nodup j) (hout j)
    · rw [Function.update_of_ne hi, Function.update_of_ne hi]
      apply (h.linked i).congr
      intro k hk
      rw [setAt_of_ne, Function.update_of_ne]
      · rintro rfl
        exact hout i hk
      · intro hlast
        exact h.shelved.not_mem hk hi (List.mem_of_getLast? hlast)
  shelved := by
    have hadd : Shelved (Function.update v j (a :: v j)) (insert a D) :=
      h.shelved.add ha (Function.update_self ..) fun i hi => Function.update_of_ne hi ..
    apply hadd.perm
    intro i
    by_cases hi : i = j
    · rw [hi, Function.update_self, Function.update_self]
      exact List.perm_append_singleton a (v j)
    · rw [Function.update_of_ne hi, Function.update_of_ne hi]

theorem clear (h : Chained next root v D) (j : J) :
    Chained next (Function.update root j none) (Function.update v j [])
      {k | k ∈ D ∧ decide (k ∉ v j) = true} where
  linked := by
    intro i
    by_cases hi : i = j
    · rw [hi, Function.update_self, Function.update_self]
      rfl
    · rw [Function.update_of_ne hi, Function.update_of_ne hi]
      exact h.linked i
  shelved := by
    apply h.shelved.discard
    · rw [Function.update_self]
      symm
      rw [List.filter_eq_nil_iff]
      intro k hk hout
      exact of_decide_eq_true hout hk
    · exact fun i hi => Function.update_of_ne hi ..
    · intro k _ hout
      exact not_not.mp (of_decide_eq_false hout)

end Chained

/-! ### Going through one list -/

/-- One list is gone through: what is left of it, then the roots, with what has been kept of it. -/
def opened {α : Type*} [DecidableEq J] (root : J → α) (j : J) (rest kept : α) : Option J → α
  | none => rest
  | some i => Function.update root j kept i

section
variable {α : Type*} [DecidableEq J] (f : J → α) (j : J) (x y z : α)

theorem opened_self : opened f j x y (some j) = y := by
  simp only [opened, Function.update_self]

theorem opened_rest : Function.update (opened f j x y) none z = opened f j z y := by
  funext i
  cases i with
  | none => exact Function.update_self ..
  | some i => exact Function.update_of_ne (Option.some_ne_none i) ..

theorem opened_kept : Function.update (opened f j x y) (some j) z = opened f j x z := by
  funext i
  cases i with
  | none => exact Function.update_of_ne (Option.some_ne_none j).symm ..
  | some i =>
    by_cases hi : i = j
    · rw [hi, Function.update_self]
      exact (Function.update_self j z f).symm
    · have hne : some i ≠ some j := fun he => hi (Option.some.inj he)
      rw [Function.update_of_ne hne]
      exact (Function.update_of_ne hi y f).trans (Function.update_of_ne hi z f).symm

theorem opened_update : opened (Function.update f j z) j x y = opened f j x y := by
  funext i
  cases i with
  | none => rfl
  | some i => exact congrFun (Function.update_idem z y f) i

end

namespace Chained

variable [DecidableEq J]

theorem enter (h : Chained next root v D) (j : J) :
    Chained next (opened root j (root j) none) (opened v j (v j) []) D where
  linked := by
    intro i
    cases i with
    | none => exact h.linked j
    | some i =>
      by_cases hi : i = j
      · rw [hi]
        simp only [opened, Function.update_self]
        rfl
      · simp only [opened, Function.update_of_ne hi]
        exact h.linked i
  shelved := by
    have hat (i : J) (k : K) : k ∈ opened v j (v j) [] (some i) ↔ i ≠ j ∧ k ∈ v i := by
      by_cases hi : i = j
      · rw [hi]
        simp only [opened, Function.update_self]
        exact iff_of_false List.not_mem_nil fun hk => hk.1 rfl
      · simp only [opened, Function.update_of_ne hi]
        exact (and_iff_right hi).symm
    constructor
    · intro i
      cases i with
      | none => exact h.shelved.nodup j
      | some i =>
        by_cases hi : i = j
        · rw [hi]
          simp only [opened, Function.update_self]
          exact List.nodup_nil
        · simp only [opened, Function.update_of_ne hi]
          exact h.shelved.nodup i
    · intro i i' k hk hk'
      cases i with
      | none =>
        cases i' with
        | none => rfl
        | some i' =>
          rw [hat] at hk'
          exact absurd (h.shelved.once j i' k hk hk'.2).symm hk'.1
      | some i =>
        rw [hat] at hk
        cases i' with
        | none => exact absurd (h.shelved.once i j k hk.2 hk') hk.1
        | some i' =>
          rw [hat] at hk'
          exact congrArg some (h.shelved.once i i' k hk.2 hk'.2)
    · intro k
      rw [h.shelved.mem_iff]
      constructor
      · rintro ⟨i, hi⟩
        by_cases hij : i = j
        · exact ⟨none, hij ▸ hi⟩
        · exact ⟨some i, (hat i k).mpr ⟨hij, hi⟩⟩
      · rintro ⟨i, hi⟩
        cases i with
        | none => exact ⟨j, hi⟩
        | some i => exact ⟨i, ((hat i k).mp hi).2⟩

/-- The walk has come to the end: what was kept is the list. -/
theorem leave {kept : Option K} {w : Option J → List K}
    (h : Chained next (opened root j none kept) w D) :
    Chained next (Function.update root j kept) (fun i => w (some i)) D where
  linked := fun i => h.linked (some i)
  shelved := by
    have hnil : w none = [] := h.eq_nil rfl
    constructor
    · exact fun i => h.shelved.nodup (some i)
    · exact fun i i' k hk hk' => Option.some.inj (h.shelved.once _ _ k hk hk')
    · intro k
      rw [h.shelved.mem_iff]
      constructor
      · rintro ⟨i, hi⟩
        cases i with
        | none =>
          rw [hnil] at hi
          cases hi
        | some i => exact ⟨i, hi⟩
      · exact fun ⟨i, hi⟩ => ⟨some i, hi⟩

/-- In the middle of the walk the other lists are as they were. -/
theorem others [DecidableEq K] {rest kept : Option K} {w : Option J → List K}
    (h : Chained next (opened root j rest kept) w D) (hj : root j = none) :
    ∃ v E, Chained next root v E ∧ E ⊆ D := by
  have hclear := (h.clear none).clear (some j)
  rw [opened_rest, opened_kept] at hclear
  have hlists := hclear.leave
  rw [Function.update_eq_self_iff.mpr hj.symm] at hlists
  exact ⟨_, _, hlists, fun k hk => hk.1.1⟩

end Chained
end Xplatbase.Lib
