import Mathlib.Data.Finset.Basic
import Xplatbase.Memory.Heap

/-! The span lists of a heap: which span is in which list, and what each list operation does. -/
namespace Xplatbase.Memory.Heap
open Xplatbase.Lib

theorem MemHeap.setHead_self (h : MemHeap) (a : ℕ) (x : SpanHead) : (h.setHead a x).head a = x :=
  Function.update_self ..

theorem MemHeap.setHead_of_ne (h : MemHeap) {a b : ℕ} (x : SpanHead) (hb : b ≠ a) :
    (h.setHead a x).head b = h.head b :=
  Function.update_of_ne hb ..

/-- The list that a span belongs to, `none` for the full list. -/
def SpanHead.home (x : SpanHead) : Option ℕ :=
  if x.state = .full then none else some x.classId

theorem SpanHead.home_full {x : SpanHead} (hx : x.state = .full) : x.home = none :=
  if_pos hx

theorem SpanHead.home_available {x : SpanHead} (hx : x.state = .available) :
    x.home = some x.classId := by
  unfold SpanHead.home
  rw [hx]
  exact if_neg SpanStatus.noConfusion

theorem SpanHead.home_eq_some {x : SpanHead} {c : ℕ} :
    x.home = some c ↔ x.state = .available ∧ x.classId = c := by
  unfold SpanHead.home
  cases x.state <;> simp

theorem SpanHead.home_eq_none {x : SpanHead} : x.home = none ↔ x.state = .full := by
  unfold SpanHead.home
  cases x.state <;> simp

/-- The spans of `D` are in the lists `ls`, each in its own one, and the heap leads to the ends. -/
structure SpanLists (h : MemHeap) (D : Finset ℕ) (ls : Option ℕ → List ℕ) : Prop where
  lists : DLists h.next h.prev ls
  first : ∀ c, h.spans c = (ls (some c)).head?
  fullFirst : h.fullHead = (ls none).head?
  fullLast : h.fullTail = (ls none).getLast?
  mem : ∀ a i, a ∈ ls i ↔ a ∈ D ∧ (h.head a).home = i

namespace SpanLists

variable {h : MemHeap} {D : Finset ℕ} {ls : Option ℕ → List ℕ} {a c : ℕ} {x : SpanHead}

theorem notMem (hl : SpanLists h D ls) (ha : a ∉ D) (i : Option ℕ) : a ∉ ls i :=
  fun hi => ha ((hl.mem a i).mp hi).1

theorem records (hl : SpanLists h D ls) (owned : Finset ℕ) (pc : HeapPc)
    (given : List (Option (ℕ × ℕ))) (spanAllocs : ℕ) :
    SpanLists { h with owned := owned, pc := pc, given := given, spanAllocs := spanAllocs } D ls :=
  ⟨hl.lists, hl.first, hl.fullFirst, hl.fullLast, hl.mem⟩

/-- A write to the header of a span that keeps its list. -/
theorem setHead (hl : SpanLists h D ls) (hx : a ∈ D → x.home = (h.head a).home) :
    SpanLists (h.setHead a x) D ls where
  lists := hl.lists
  first := hl.first
  fullFirst := hl.fullFirst
  fullLast := hl.fullLast
  mem := by
    intro b i
    rw [hl.mem b i]
    by_cases hb : b = a
    · rw [hb, MemHeap.setHead_self]
      apply and_congr_right
      intro ha
      rw [hx ha]
    · rw [MemHeap.setHead_of_ne h x hb]

theorem mem_of_first (hl : SpanLists h D ls) (ha : h.spans c = some a) :
    a ∈ D ∧ (h.head a).home = some c := by
  rw [hl.first] at ha
  exact (hl.mem a (some c)).mp (List.mem_of_head? ha)

theorem mem_of_fullFirst (hl : SpanLists h D ls) (ha : h.fullHead = some a) :
    a ∈ D ∧ (h.head a).home = none := by
  rw [hl.fullFirst] at ha
  exact (hl.mem a none).mp (List.mem_of_head? ha)

theorem mem_insert (hl : SpanLists h D ls) {head' : ℕ → SpanHead} {i : Option ℕ} {l : List ℕ}
    (ha : a ∉ D) (hi : (head' a).home = i) (hsame : ∀ b ≠ a, head' b = h.head b)
    (hmem : ∀ b, b ∈ l ↔ b = a ∨ b ∈ ls i) (b : ℕ) (j : Option ℕ) :
    b ∈ Function.update ls i l j ↔ b ∈ insert a D ∧ (head' b).home = j := by
  rw [Finset.mem_insert]
  by_cases hj : j = i
  · rw [hj, Function.update_self, hmem, hl.mem]
    by_cases hb : b = a
    · rw [hb]
      exact iff_of_true (Or.inl rfl) ⟨Or.inl rfl, hi⟩
    · rw [hsame b hb, or_iff_right hb, or_iff_right hb]
  · rw [Function.update_of_ne hj, hl.mem]
    by_cases hb : b = a
    · rw [hb, hi]
      exact iff_of_false (fun hab => ha hab.1) fun hab => hj hab.2.symm
    · rw [hsame b hb, or_iff_right hb]

theorem mem_erase (hl : SpanLists h D ls) {head' : ℕ → SpanHead} {i : Option ℕ}
    (hi : (h.head a).home = i) (hsame : ∀ b ≠ a, head' b = h.head b) (b : ℕ) (j : Option ℕ) :
    b ∈ Function.update ls i ((ls i).erase a) j ↔ b ∈ D.erase a ∧ (head' b).home = j := by
  have hin : b ∈ ls j ↔ b ∈ D ∧ (h.head b).home = j := hl.mem b j
  rw [Finset.mem_erase]
  by_cases hj : j = i
  · subst hj
    rw [Function.update_self, (hl.lists.nodup j).mem_erase_iff, hin]
    by_cases hb : b = a
    · exact iff_of_false (fun hba => hba.1 hb) fun hba => hba.1.1 hb
    · rw [hsame b hb, and_assoc]
  · rw [Function.update_of_ne hj, hin]
    by_cases hb : b = a
    · rw [hb, hi]
      exact iff_of_false (fun hba => hj hba.2.symm) fun hba => hba.1.1 rfl
    · rw [hsame b hb, and_iff_right hb]

theorem insertHead (hl : SpanLists h D ls) (ha : a ∉ D) (hc : (h.head a).home = some c) :
    SpanLists (heapListInsertHead h c a) (insert a D)
      (Function.update ls (some c) (a :: ls (some c))) where
  lists := by
    have hnew := hl.lists.insertHead (hl.notMem ha) (some c)
    rw [← hl.first c] at hnew
    exact hnew
  first := by
    intro d
    unfold heapListInsertHead
    by_cases hd : d = c
    · rw [hd, Function.update_self]
      exact Function.update_self ..
    · rw [Function.update_of_ne fun he => hd (Option.some.inj he), ← hl.first d]
      exact Function.update_of_ne hd ..
  fullFirst := by
    rw [Function.update_of_ne (Option.some_ne_none c).symm]
    exact hl.fullFirst
  fullLast := by
    rw [Function.update_of_ne (Option.some_ne_none c).symm]
    exact hl.fullLast
  mem := hl.mem_insert ha hc (fun _ _ => rfl) fun _ => List.mem_cons

theorem unlink (hl : SpanLists h D ls) (ha : a ∈ D) (hc : (h.head a).home = some c) :
    SpanLists (heapListUnlink h c a) (D.erase a)
      (Function.update ls (some c) ((ls (some c)).erase a)) where
  lists := hl.lists.unlink ((hl.mem a (some c)).mpr ⟨ha, hc⟩)
  first := by
    intro d
    have hin : a ∈ ls (some c) := (hl.mem a (some c)).mpr ⟨ha, hc⟩
    unfold heapListUnlink
    by_cases hd : d = c
    · rw [hd, Function.update_self, hl.lists.head?_erase hin, ← hl.first c]
      by_cases hp : h.prev a = none
      · simp only [if_pos hp, Function.update_self]
      · simp only [if_neg hp]
    · rw [Function.update_of_ne fun he => hd (Option.some.inj he), ← hl.first d]
      by_cases hp : h.prev a = none
      · simp only [if_pos hp, Function.update_of_ne hd]
      · simp only [if_neg hp]
  fullFirst := by
    rw [Function.update_of_ne (Option.some_ne_none c).symm]
    exact hl.fullFirst
  fullLast := by
    rw [Function.update_of_ne (Option.some_ne_none c).symm]
    exact hl.fullLast
  mem := hl.mem_erase hc fun _ _ => rfl

theorem fullPushTail (hl : SpanLists h D ls) (ha : a ∉ D) :
    SpanLists (heapFullPushTail h a) (insert a D)
      (Function.update ls none (ls none ++ [a])) where
  lists := by
    have hnew := hl.lists.pushTail (hl.notMem ha) none
    rw [← hl.fullLast] at hnew
    exact hnew
  first := by
    intro d
    rw [Function.update_of_ne (Option.some_ne_none d)]
    exact hl.first d
  fullFirst := by
    have hends : h.fullTail = none ↔ ls none = [] := by
      rw [hl.fullLast, List.getLast?_eq_none_iff]
    unfold heapFullPushTail
    rw [Function.update_self, List.head?_append, ← hl.fullFirst]
    by_cases ht : h.fullTail = none
    · rw [if_pos ht, hl.fullFirst, hends.mp ht]
      rfl
    · rw [if_neg ht, hl.fullFirst, List.head?_eq_some_head (hends.not.mp ht)]
      rfl
  fullLast := by
    rw [Function.update_self, List.getLast?_concat]
    rfl
  mem := by
    apply hl.mem_insert ha
    · exact SpanHead.home_full (by simp only [heapFullPushTail, Function.update_self])
    · intro b hb
      exact Function.update_of_ne hb ..
    · intro b
      rw [List.mem_append, List.mem_singleton, or_comm]

theorem fullUnlink (hl : SpanLists h D ls) (ha : a ∈ D) (hn : (h.head a).home = none) :
    SpanLists (heapFullUnlink h a) (D.erase a)
      (Function.update ls none ((ls none).erase a)) where
  lists := hl.lists.unlink ((hl.mem a none).mpr ⟨ha, hn⟩)
  first := by
    intro d
    rw [Function.update_of_ne (Option.some_ne_none d)]
    exact hl.first d
  fullFirst := by
    rw [Function.update_self, hl.lists.head?_erase ((hl.mem a none).mpr ⟨ha, hn⟩), ← hl.fullFirst]
    rfl
  fullLast := by
    rw [Function.update_self, hl.lists.getLast?_erase ((hl.mem a none).mpr ⟨ha, hn⟩),
      ← hl.fullLast]
    rfl
  mem := by
    apply hl.mem_erase hn
    intro b hb
    exact Function.update_of_ne hb ..

end SpanLists

/-- The lists after span `a`, first of class `c`, is parked behind the full ones. -/
def retire (ls : Option ℕ → List ℕ) (c a : ℕ) : Option ℕ → List ℕ :=
  Function.update (Function.update ls (some c) ((ls (some c)).erase a)) none (ls none ++ [a])

/-- The lists after the full span `a` goes behind the others. -/
def rotate (ls : Option ℕ → List ℕ) (a : ℕ) : Option ℕ → List ℕ :=
  Function.update ls none ((ls none).erase a ++ [a])

/-- The lists after the full span `a` is put back in front of its class. -/
def reactivate (ls : Option ℕ → List ℕ) (c a : ℕ) : Option ℕ → List ℕ :=
  Function.update (Function.update ls none ((ls none).erase a)) (some c) (a :: ls (some c))

namespace SpanLists

variable {h : MemHeap} {D : Finset ℕ} {ls : Option ℕ → List ℕ} {a c : ℕ}

theorem retire (hl : SpanLists h D ls) (ha : a ∈ D) (hc : (h.head a).home = some c) :
    SpanLists (heapFullPushTail (heapListUnlink h c a) a) D (retire ls c a) := by
  have hnew := (hl.unlink ha hc).fullPushTail (Finset.notMem_erase a D)
  rw [Finset.insert_erase ha, Function.update_of_ne (Option.some_ne_none c).symm] at hnew
  exact hnew

theorem rotate (hl : SpanLists h D ls) (ha : a ∈ D) (hn : (h.head a).home = none) :
    SpanLists (heapFullPushTail (heapFullUnlink h a) a) D (rotate ls a) := by
  have hnew := (hl.fullUnlink ha hn).fullPushTail (Finset.notMem_erase a D)
  rw [Finset.insert_erase ha, Function.update_self, Function.update_idem] at hnew
  exact hnew

theorem reactivate (hl : SpanLists h D ls) (ha : a ∈ D) (hn : (h.head a).home = none) :
    SpanLists (heapListInsertHead (heapFullUnlink h a) (h.head a).classId a) D
      (reactivate ls (h.head a).classId a) := by
  have hhome : ((heapFullUnlink h a).head a).home = some (h.head a).classId := by
    simp only [heapFullUnlink, Function.update_self]
    exact SpanHead.home_available rfl
  have hnew := (hl.fullUnlink ha hn).insertHead (Finset.notMem_erase a D) hhome
  rw [Finset.insert_erase ha, Function.update_of_ne (Option.some_ne_none _)] at hnew
  exact hnew

end SpanLists
end Xplatbase.Memory.Heap
