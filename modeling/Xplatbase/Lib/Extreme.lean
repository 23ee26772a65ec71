import Mathlib.Data.Int.Order.Basic
import Mathlib.Order.Basic

/-! The first or the last position with a property, as searches answer it: -1 when there is none. -/
namespace Xplatbase.Lib

/-- `r` is a position with `P` that `R` puts before every other, or -1 when no position has `P`. -/
def ExtremeOf (R : ℕ → ℕ → Prop) (P : ℕ → Prop) (r : ℤ) : Prop :=
  (r = -1 ∧ ∀ p, ¬P p) ∨ ∃ p : ℕ, r = p ∧ P p ∧ ∀ q, P q → R p q

def FirstOf (P : ℕ → Prop) (r : ℤ) : Prop := ExtremeOf (· ≤ ·) P r

def LastOf (P : ℕ → Prop) (r : ℤ) : Prop := ExtremeOf (· ≥ ·) P r

variable {R : ℕ → ℕ → Prop} {P Q : ℕ → Prop} {r r' : ℤ}

namespace ExtremeOf

theorem none (h : ∀ p, ¬P p) : ExtremeOf R P (-1) :=
  Or.inl ⟨rfl, h⟩

theorem some {p : ℕ} (hp : P p) (h : ∀ q, P q → R p q) : ExtremeOf R P p :=
  Or.inr ⟨p, rfl, hp, h⟩

theorem congr (h : ExtremeOf R P r) (hPQ : ∀ p, P p ↔ Q p) : ExtremeOf R Q r := by
  obtain rfl : P = Q := funext fun p => propext (hPQ p)
  exact h

theorem eq_neg_one_iff (h : ExtremeOf R P r) : r = -1 ↔ ∀ p, ¬P p := by
  rcases h with ⟨hr, hno⟩ | ⟨p, hr, hp, -⟩
  · exact iff_of_true hr hno
  · apply iff_of_false
    · omega
    · intro hno
      exact hno p hp

/-- Of two answers, the one that is there or comes before the other. -/
theorem or (h : ExtremeOf R P r) (h' : ExtremeOf R Q r') (htrans : ∀ i j k, R i j → R j k → R i k)
    {better : Prop} [Decidable better] (hone : 0 ≤ r' → r = -1 → better)
    (hnone : r' = -1 → 0 ≤ r → ¬better)
    (htwo : ∀ p p' : ℕ, r = p → r' = p' → (better → R p' p) ∧ (¬better → R p p')) :
    ExtremeOf R (fun p => P p ∨ Q p) (if better then r' else r) := by
  rcases h with ⟨rfl, hP⟩ | ⟨p, rfl, hp, hmin⟩ <;> rcases h' with ⟨rfl, hQ⟩ | ⟨p', rfl, hp', hmin'⟩
  · rw [ite_self]
    exact none fun q hq => hq.elim (hP q) (hQ q)
  · rw [if_pos (hone (Int.natCast_nonneg p') rfl)]
    exact some (Or.inr hp') fun q hq => hmin' q (hq.resolve_left (hP q))
  · rw [if_neg (hnone rfl (Int.natCast_nonneg p))]
    exact some (Or.inl hp) fun q hq => hmin q (hq.resolve_right (hQ q))
  · obtain ⟨hyes, hno⟩ := htwo p p' rfl rfl
    split_ifs with hb
    · apply some (Or.inr hp')
      intro q hq
      rcases hq with hq | hq
      · exact htrans p' p q (hyes hb) (hmin q hq)
      · exact hmin' q hq
    · apply some (Or.inl hp)
      intro q hq
      rcases hq with hq | hq
      · exact hmin q hq
      · exact htrans p p' q (hno hb) (hmin' q hq)

end ExtremeOf

/-- `if (idx >= 0 && (best < 0 || idx < best)) best = idx;` -/
theorem FirstOf.or (h : FirstOf P r) (h' : FirstOf Q r') :
    FirstOf (fun p => P p ∨ Q p) (if 0 ≤ r' ∧ (r < 0 ∨ r' < r) then r' else r) := by
  apply ExtremeOf.or h h'
  · intro i j k hij hjk
    exact Nat.le_trans hij hjk
  · omega
  · omega
  · intro p p' hp hp'
    constructor <;> omega

/-- `if (idx > best) best = idx;` -/
theorem LastOf.or (h : LastOf P r) (h' : LastOf Q r') :
    LastOf (fun p => P p ∨ Q p) (if r < r' then r' else r) := by
  apply ExtremeOf.or h h'
  · intro i j k hij hjk
    exact Nat.le_trans hjk hij
  · omega
  · omega
  · intro p p' hp hp'
    constructor <;> omega

end Xplatbase.Lib
