import Mathlib.Data.Nat.Bitwise
import Mathlib.Data.Int.ModEq

/-! Power-of-two sizes, their masks, and circular slots. -/
namespace Xplatbase.Lib

structure Pow2 where
  exp : ℕ

namespace Pow2

def size (c : Pow2) : ℕ := 2 ^ c.exp

def mask (c : Pow2) : ℕ := c.size - 1

theorem size_pos (c : Pow2) : 0 < c.size := Nat.two_pow_pos _

/-- The cell of a wrapped 32-bit position: `cells[pos & mask]`. -/
def cell (c : Pow2) (pos : BitVec 32) : ℕ := (pos &&& BitVec.ofNat 32 c.mask).toNat

@[simp] theorem and_mask (c : Pow2) (i : ℕ) : i &&& c.mask = i % c.size :=
  Nat.and_two_pow_sub_one_eq_mod i c.exp

end Pow2

/-- Two indices less than one turn apart share a slot only if they are equal. -/
theorem slot_inj {n i j : ℕ} (h : i % n = j % n) (hij : i < j + n) (hji : j < i + n) :
    i = j := by
  rcases Nat.lt_trichotomy i j with hlt | heq | hgt
  · have hd : n ∣ j - i := (Nat.modEq_iff_dvd' hlt.le).mp h
    have := Nat.le_of_dvd (by omega) hd
    omega
  · exact heq
  · have hd : n ∣ i - j := (Nat.modEq_iff_dvd' hgt.le).mp h.symm
    have := Nat.le_of_dvd (by omega) hd
    omega

/-- Two counters less than one wrap apart agree on `w` bits only if they are equal. -/
theorem ofNat_inj_near {w a b : ℕ} (h : BitVec.ofNat w a = BitVec.ofNat w b)
    (hab : a < b + 2 ^ w) (hba : b < a + 2 ^ w) : a = b := by
  have hn := congrArg BitVec.toNat h
  rw [BitVec.toNat_ofNat, BitVec.toNat_ofNat] at hn
  exact slot_inj hn hab hba

/-- Masking a wrapped counter gives the slot of the unwrapped one. -/
theorem Pow2.ofNat_and_mask (c : Pow2) {w : ℕ} (hw : c.exp ≤ w) (i : ℕ) :
    (BitVec.ofNat w i &&& BitVec.ofNat w c.mask).toNat = i % c.size := by
  have hle : c.size ≤ 2 ^ w := Nat.pow_le_pow_right Nat.two_pos hw
  have hmask : c.mask < 2 ^ w := lt_of_lt_of_le (Nat.sub_lt c.size_pos Nat.one_pos) hle
  have hdvd : c.size ∣ 2 ^ w := Nat.pow_dvd_pow 2 hw
  rw [BitVec.toNat_and, BitVec.toNat_ofNat, BitVec.toNat_ofNat, Nat.mod_eq_of_lt hmask,
    Pow2.and_mask, Nat.mod_mod_of_dvd _ hdvd]

end Xplatbase.Lib
