import Mathlib.Algebra.Order.Group.Unbundled.Int
import Mathlib.Tactic.NormNum

/-! C integers as mathematical ones: what 32-bit signed arithmetic and a cast to 64 unsigned
bits leave of a value. -/
namespace Xplatbase.Lib

/-- The value an `int` keeps of `x`: wrapping modulo 2^32. -/
def toInt32 (x : ℤ) : ℤ := (x + 2 ^ 31) % 2 ^ 32 - 2 ^ 31

/-- The cast `(uint64)x`. -/
def toUInt64 (x : ℤ) : ℕ := (x % 2 ^ 64).toNat

/-- `x` is the value of some `int`. -/
def IsInt32 (x : ℤ) : Prop := -2 ^ 31 ≤ x ∧ x < 2 ^ 31

instance (x : ℤ) : Decidable (IsInt32 x) :=
  inferInstanceAs (Decidable (_ ∧ _))

theorem toInt32_isInt32 (x : ℤ) : IsInt32 (toInt32 x) := by
  unfold toInt32 IsInt32
  omega

theorem toInt32_eq {x : ℤ} (hx : IsInt32 x) : toInt32 x = x := by
  unfold toInt32
  unfold IsInt32 at hx
  omega

/-- Past the top a sum of two nonnegative ints comes out negative. -/
theorem toInt32_wrapped {x : ℤ} (h0 : 2 ^ 31 ≤ x) (h1 : x < 2 ^ 32) :
    toInt32 x = x - 2 ^ 32 := by
  unfold toInt32
  omega

theorem toInt32_le {x : ℤ} (hx : -2 ^ 31 ≤ x) :
    toInt32 x ≤ x := by
  unfold toInt32
  omega

/-- The positions `a + i` an int loop of `n` passes touches stay in `[0, len)` exactly when the
unbounded range does and none of them wraps. -/
theorem toInt32_range {a : ℤ} {n : ℕ} (len : ℤ) (h0 : 0 ≤ a) (h1 : a < 2 ^ 31) (hn : 0 < n)
    (hn31 : n < 2 ^ 31) :
    (∀ i : ℕ, i < n → 0 ≤ toInt32 (a + i) ∧ toInt32 (a + i) < len) ↔
      a + n ≤ len ∧ a + n ≤ 2 ^ 31 := by
  constructor
  · intro h
    have hlast := h (n - 1) (by omega)
    have hcast : ((n - 1 : ℕ) : ℤ) = n - 1 := by omega
    rw [hcast] at hlast
    by_cases htop : a + (n - 1) < 2 ^ 31
    · rw [toInt32_eq ⟨by omega, htop⟩] at hlast
      omega
    · rw [toInt32_wrapped (by omega) (by omega)] at hlast
      omega
  · rintro ⟨hlen, htop⟩ i hi
    rw [toInt32_eq ⟨by omega, by omega⟩]
    omega

theorem toInt32_nat {i : ℕ} (hi : i < 2 ^ 31) : toInt32 i = i :=
  toInt32_eq ⟨by omega, by omega⟩

theorem toInt32_add {i j : ℕ} (h : i + j < 2 ^ 31) : toInt32 ((i : ℤ) + j) = ((i + j : ℕ) : ℤ) := by
  rw [Nat.cast_add]
  exact toInt32_eq ⟨by omega, by omega⟩

theorem toInt32_succ {i : ℕ} (h : i + 1 < 2 ^ 31) : toInt32 ((i : ℤ) + 1) = ((i + 1 : ℕ) : ℤ) := by
  rw [Nat.cast_add, Nat.cast_one]
  exact toInt32_eq ⟨by omega, by omega⟩

theorem toInt32_sub {i j : ℕ} (hij : j ≤ i) (hi : i < 2 ^ 31) :
    toInt32 ((i : ℤ) - j) = ((i - j : ℕ) : ℤ) := by
  rw [Nat.cast_sub hij]
  exact toInt32_eq ⟨by omega, by omega⟩

theorem toUInt64_eq {x : ℤ} (h0 : 0 ≤ x) (h1 : x < 2 ^ 64) : (toUInt64 x : ℤ) = x := by
  unfold toUInt64
  omega

end Xplatbase.Lib
