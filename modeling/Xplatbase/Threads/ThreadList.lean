import Mathlib.Logic.Function.Basic
import Mathlib.Tactic.Common

/-! The array of registered threads of `thread_handler.c`. An entry holds nothing until the first
store to it. -/
namespace Xplatbase.Threads

variable {ι : Type*}

structure ThreadList (ι : Type*) where
  Max : ℕ
  Count : ℕ
  Items : ℕ → Option ι

/-- `static ThreadList Threads = { 0 }`. -/
def ThreadList.zero : ThreadList ι where
  Max := 0
  Count := 0
  Items := fun _ => none

def THR_LIST_INIT_COUNT : ℕ := 16

def createList : ThreadList ι where
  Max := THR_LIST_INIT_COUNT
  Count := 0
  Items := fun _ => none

def addList (l : ThreadList ι) (thr : ι) : ThreadList ι where
  Max := if l.Max ≤ l.Count + 1 then l.Max * 2 else l.Max
  Count := l.Count + 1
  Items := Function.update l.Items l.Count (some thr)

/-- `Items[ix] = Items[ix + 1]`, `left` times. -/
def shiftItems (Items : ℕ → Option ι) : ℕ → ℕ → ℕ → Option ι
  | 0, _ => Items
  | left + 1, ix => shiftItems (Function.update Items ix (Items (ix + 1))) left (ix + 1)

theorem shiftItems_apply (Items : ℕ → Option ι) (left ix i : ℕ) :
    shiftItems Items left ix i = if ix ≤ i ∧ i < ix + left then Items (i + 1) else Items i := by
  induction left generalizing Items ix with
  | zero => rw [shiftItems, if_neg (by omega)]
  | succ left ih =>
    rw [shiftItems, ih]
    by_cases hi : i = ix
    · subst hi
      rw [if_neg (by omega), if_pos (by omega), Function.update_self]
    · rw [Function.update_of_ne hi]
      by_cases hin : ix + 1 ≤ i ∧ i < ix + 1 + left
      · rw [if_pos hin, if_pos (by omega), Function.update_of_ne (by omega)]
      · rw [if_neg hin, if_neg (by omega)]

namespace ThreadList

def Has (l : ThreadList ι) (thr : ι) : Prop := ∃ i < l.Count, l.Items i = some thr

structure WellFormed (l : ThreadList ι) : Prop where
  filled : ∀ i < l.Count, ∃ thr, l.Items i = some thr
  distinct : ∀ i < l.Count, ∀ j < l.Count, l.Items i = l.Items j → i = j

variable {l : ThreadList ι} {thr : ι}

theorem wellFormed_of_empty (h : l.Count = 0) : l.WellFormed := by
  constructor
  · intro i hi
    omega
  · intro i hi
    omega

theorem not_has_of_empty (h : l.Count = 0) (t : ι) : ¬l.Has t := by
  rintro ⟨i, hi, _⟩
  omega

theorem addList_has (l : ThreadList ι) (thr t : ι) :
    (addList l thr).Has t ↔ t = thr ∨ l.Has t := by
  unfold Has addList
  dsimp only
  constructor
  · rintro ⟨i, hi, ht⟩
    by_cases hc : i = l.Count
    · rw [hc, Function.update_self] at ht
      exact Or.inl (Option.some.inj ht).symm
    · rw [Function.update_of_ne hc] at ht
      exact Or.inr ⟨i, by omega, ht⟩
  · rintro (rfl | ⟨i, hi, ht⟩)
    · exact ⟨l.Count, by omega, Function.update_self ..⟩
    · exact ⟨i, by omega, by rw [Function.update_of_ne (by omega)]; exact ht⟩

theorem addList_wellFormed (h : l.WellFormed) (hnew : ¬l.Has thr) :
    (addList l thr).WellFormed := by
  have hold : ∀ i < l.Count, (addList l thr).Items i = l.Items i := fun i hi =>
    Function.update_of_ne (by omega) ..
  have hlast : (addList l thr).Items l.Count = some thr := Function.update_self ..
  have hne : ∀ i < l.Count, (addList l thr).Items i ≠ some thr := by
    intro i hi he
    rw [hold i hi] at he
    exact hnew ⟨i, hi, he⟩
  have hcount : (addList l thr).Count = l.Count + 1 := rfl
  constructor
  · intro i hi
    by_cases hc : i = l.Count
    · rw [hc]
      exact ⟨thr, hlast⟩
    · rw [hold i (by omega)]
      exact h.filled i (by omega)
  · intro i hi j hj he
    rcases Nat.lt_or_ge i l.Count with hic | hic
    · rcases Nat.lt_or_ge j l.Count with hjc | hjc
      · rw [hold i hic, hold j hjc] at he
        exact h.distinct i hic j hjc he
      · have hjl : j = l.Count := by omega
        rw [hjl, hlast] at he
        exact absurd he (hne i hic)
    · have hil : i = l.Count := by omega
      rcases Nat.lt_or_ge j l.Count with hjc | hjc
      · rw [hil, hlast] at he
        exact absurd he.symm (hne j hjc)
      · omega

/-- The store of `add_list` is inside the array. -/
theorem addList_room (h : l.Count < l.Max) : (addList l thr).Count < (addList l thr).Max := by
  unfold addList
  dsimp only
  split <;> omega

end ThreadList

variable [DecidableEq ι]

/-- The search of `remove_list`, with `left` entries to look at from `ix` on. -/
def removeFrom (l : ThreadList ι) (thr : ι) : ℕ → ℕ → ThreadList ι
  | 0, _ => l
  | left + 1, ix =>
    if l.Items ix = some thr then
      { l with Items := shiftItems l.Items (l.Count - 1 - ix) ix, Count := l.Count - 1 }
    else removeFrom l thr left (ix + 1)

def removeList (l : ThreadList ι) (thr : ι) : ThreadList ι :=
  removeFrom l thr l.Count 0

namespace ThreadList

variable {l : ThreadList ι}

theorem removeFrom_cases (l : ThreadList ι) (thr : ι) (left ix : ℕ) (hleft : ix + left = l.Count) :
    ((∀ i, ix ≤ i → i < l.Count → l.Items i ≠ some thr) ∧ removeFrom l thr left ix = l) ∨
    ∃ k, ix ≤ k ∧ k < l.Count ∧ l.Items k = some thr ∧ removeFrom l thr left ix =
      { l with Items := shiftItems l.Items (l.Count - 1 - k) k, Count := l.Count - 1 } := by
  induction left generalizing ix with
  | zero => exact Or.inl ⟨fun i _ _ => by omega, rfl⟩
  | succ left ih =>
    unfold removeFrom
    by_cases hix : l.Items ix = some thr
    · exact Or.inr ⟨ix, Nat.le_refl ix, by omega, hix, if_pos hix⟩
    · rw [if_neg hix]
      rcases ih (ix + 1) (by omega) with ⟨hnone, he⟩ | ⟨k, hk, hkc, hthr, he⟩
      · refine Or.inl ⟨?_, he⟩
        intro i hi hic
        by_cases hii : i = ix
        · rw [hii]
          exact hix
        · exact hnone i (by omega) hic
      · exact Or.inr ⟨k, by omega, hkc, hthr, he⟩

/-- What `remove_list` does: nothing when the thread is not entered, and otherwise the entries
after it move down by one. -/
theorem removeList_cases (l : ThreadList ι) (thr : ι) :
    (¬l.Has thr ∧ removeList l thr = l) ∨
    ∃ k < l.Count, l.Items k = some thr ∧ (removeList l thr).Count = l.Count - 1 ∧
      (removeList l thr).Max = l.Max ∧ ∀ i < l.Count - 1,
        (removeList l thr).Items i = l.Items (if k ≤ i then i + 1 else i) := by
  rcases removeFrom_cases l thr l.Count 0 (by omega) with ⟨hnone, he⟩ | ⟨k, -, hk, hthr, he⟩
  · refine Or.inl ⟨?_, he⟩
    rintro ⟨i, hi, ht⟩
    exact hnone i (Nat.zero_le i) hi ht
  · refine Or.inr ⟨k, hk, hthr, ?_, ?_, ?_⟩
    · rw [removeList, he]
    · rw [removeList, he]
    · intro i hi
      rw [removeList, he]
      dsimp only
      rw [shiftItems_apply]
      by_cases hki : k ≤ i
      · rw [if_pos (by omega), if_pos hki]
      · rw [if_neg (by omega), if_neg hki]

theorem removeList_has (h : l.WellFormed) (thr t : ι) :
    (removeList l thr).Has t ↔ t ≠ thr ∧ l.Has t := by
  rcases removeList_cases l thr with ⟨hnot, he⟩ | ⟨k, hk, hthr, hcount, -, hitems⟩
  · rw [he]
    constructor
    · intro ht
      refine ⟨?_, ht⟩
      rintro rfl
      exact hnot ht
    · intro ht
      exact ht.2
  · constructor
    · rintro ⟨i, hi, ht⟩
      rw [hcount] at hi
      rw [hitems i hi] at ht
      have hlt : (if k ≤ i then i + 1 else i) < l.Count := by split <;> omega
      refine ⟨?_, _, hlt, ht⟩
      rintro rfl
      -- the entry that was removed is at no index that is left
      have hk' := h.distinct _ hlt k hk (ht.trans hthr.symm)
      split at hk' <;> omega
    · rintro ⟨hne, i, hi, ht⟩
      have hik : i ≠ k := by
        rintro rfl
        exact hne (Option.some.inj (ht.symm.trans hthr))
      rcases Nat.lt_or_gt_of_ne hik with hlt | hgt
      · refine ⟨i, by omega, ?_⟩
        rw [hitems i (by omega), if_neg (by omega)]
        exact ht
      · refine ⟨i - 1, by omega, ?_⟩
        rw [hitems (i - 1) (by omega), if_pos (by omega), Nat.sub_add_cancel (by omega)]
        exact ht

theorem removeList_wellFormed (h : l.WellFormed) (thr : ι) : (removeList l thr).WellFormed := by
  rcases removeList_cases l thr with ⟨-, he⟩ | ⟨k, hk, hthr, hcount, -, hitems⟩
  · rw [he]
    exact h
  · constructor
    · intro i hi
      rw [hcount] at hi
      rw [hitems i hi]
      exact h.filled _ (by split <;> omega)
    · intro i hi j hj he
      rw [hcount] at hi hj
      rw [hitems i hi, hitems j hj] at he
      have hij := h.distinct _ (by split <;> omega) _ (by split <;> omega) he
      split at hij <;> split at hij <;> omega

theorem removeList_room (h : l.Count < l.Max) (thr : ι) :
    (removeList l thr).Count < (removeList l thr).Max := by
  rcases removeList_cases l thr with ⟨-, he⟩ | ⟨k, hk, -, hcount, hmax, -⟩
  · rw [he]
    exact h
  · omega

end ThreadList

end Xplatbase.Threads
