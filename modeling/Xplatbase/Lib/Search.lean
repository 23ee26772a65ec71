import Mathlib.Order.Fin.Basic
import Mathlib.Tactic.Common

/-! Binary search by a three-way comparison with the key. -/
namespace Xplatbase.Lib

variable {n : ℕ}

/-- `cmp i` places the key: `.lt` below entry `i`, `.gt` above it, `.eq` at it. -/
def bsearch (cmp : Fin n → Ordering) (lo hi : ℕ) (h : hi ≤ n) : Option (Fin n) :=
  if hlt : lo < hi then
    match cmp ⟨lo + (hi - lo) / 2, by omega⟩ with
    | .lt => bsearch cmp lo (lo + (hi - lo) / 2) (by omega)
    | .gt => bsearch cmp (lo + (hi - lo) / 2 + 1) hi h
    | .eq => some ⟨lo + (hi - lo) / 2, by omega⟩
  else
    none
termination_by hi - lo

/-- Of two entries, the key is above the lower one or below the higher one. -/
def KeyOrdered (cmp : Fin n → Ordering) : Prop :=
  ∀ i j, i < j → cmp i = .gt ∨ cmp j = .lt

theorem KeyOrdered.lt_of_lt {cmp : Fin n → Ordering} (h : KeyOrdered cmp) {i m : Fin n}
    (hi : cmp i = .eq) (hm : cmp m = .lt) : i < m := by
  rcases lt_trichotomy i m with hlt | heq | hgt
  · exact hlt
  · rw [heq, hm] at hi
    exact absurd hi (by decide)
  · rcases h m i hgt with h' | h'
    · rw [hm] at h'
      exact absurd h' (by decide)
    · rw [hi] at h'
      exact absurd h' (by decide)

theorem KeyOrdered.gt_of_gt {cmp : Fin n → Ordering} (h : KeyOrdered cmp) {i m : Fin n}
    (hi : cmp i = .eq) (hm : cmp m = .gt) : m < i := by
  rcases lt_trichotomy m i with hlt | heq | hgt
  · exact hlt
  · rw [← heq, hm] at hi
    exact absurd hi (by decide)
  · rcases h i m hgt with h' | h'
    · rw [hi] at h'
      exact absurd h' (by decide)
    · rw [hm] at h'
      exact absurd h' (by decide)

theorem KeyOrdered.unique {cmp : Fin n → Ordering} (h : KeyOrdered cmp) {i m : Fin n}
    (hi : cmp i = .eq) (hm : cmp m = .eq) : i = m := by
  rcases lt_trichotomy i m with hlt | heq | hgt
  · rcases h i m hlt with h' | h'
    · rw [hi] at h'
      exact absurd h' (by decide)
    · rw [hm] at h'
      exact absurd h' (by decide)
  · exact heq
  · rcases h m i hgt with h' | h'
    · rw [hm] at h'
      exact absurd h' (by decide)
    · rw [hi] at h'
      exact absurd h' (by decide)

theorem bsearch_eq_some (cmp : Fin n → Ordering) (hcmp : KeyOrdered cmp) (lo hi : ℕ) (h : hi ≤ n)
    (i : Fin n) :
    bsearch cmp lo hi h = some i ↔ (lo ≤ i.val ∧ i.val < hi) ∧ cmp i = .eq := by
  induction hd : hi - lo using Nat.strong_induction_on generalizing lo hi with
  | h d ih =>
    unfold bsearch
    by_cases hlt : lo < hi
    · rw [dif_pos hlt]
      have hmid : lo + (hi - lo) / 2 < n := by omega
      cases hm : cmp ⟨lo + (hi - lo) / 2, hmid⟩ with
      | lt =>
        dsimp only
        rw [ih _ (by omega) lo (lo + (hi - lo) / 2) (by omega) rfl]
        constructor
        · intro hr
          exact ⟨by omega, hr.2⟩
        · intro hr
          exact ⟨⟨hr.1.1, hcmp.lt_of_lt hr.2 hm⟩, hr.2⟩
      | gt =>
        dsimp only
        rw [ih _ (by omega) (lo + (hi - lo) / 2 + 1) hi h rfl]
        constructor
        · intro hr
          exact ⟨by omega, hr.2⟩
        · intro hr
          exact ⟨⟨hcmp.gt_of_gt hr.2 hm, hr.1.2⟩, hr.2⟩
      | eq =>
        dsimp only
        constructor
        · intro hs
          cases hs
          exact ⟨⟨by dsimp only; omega, by dsimp only; omega⟩, hm⟩
        · intro hr
          exact congrArg some (hcmp.unique hm hr.2)
    · rw [dif_neg hlt]
      constructor
      · intro hs
        exact absurd hs (by simp)
      · intro hr
        omega

theorem bsearch_all (cmp : Fin n → Ordering) (hcmp : KeyOrdered cmp) (i : Fin n) :
    bsearch cmp 0 n (le_refl n) = some i ↔ cmp i = .eq := by
  rw [bsearch_eq_some cmp hcmp]
  constructor
  · intro h
    exact h.2
  · intro h
    exact ⟨⟨Nat.zero_le _, i.isLt⟩, h⟩

end Xplatbase.Lib
