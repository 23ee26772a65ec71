import Mathlib.Data.List.Basic
import Mathlib.Tactic.Ring

/-! Unsigned integers as bytes, least significant first. -/
namespace Xplatbase.Lib

def leBytes : ℕ → ℕ → List UInt8
  | 0, _ => []
  | n + 1, x => UInt8.ofNat x :: leBytes n (x / 256)

def ofLeBytes : List UInt8 → ℕ
  | [] => 0
  | b :: bs => b.toNat + 256 * ofLeBytes bs

@[simp] theorem length_leBytes (n x : ℕ) :
    (leBytes n x).length = n := by
  induction n generalizing x with
  | zero => rfl
  | succ n ih => rw [leBytes, List.length_cons, ih]

theorem ofLeBytes_leBytes (n x : ℕ) :
    ofLeBytes (leBytes n x) = x % 256 ^ n := by
  induction n generalizing x with
  | zero => rw [leBytes, ofLeBytes, pow_zero, Nat.mod_one]
  | succ n ih =>
    have hx : (UInt8.ofNat x).toNat = x % 256 := UInt8.toNat_ofNat'
    rw [leBytes, ofLeBytes, ih, hx, pow_succ, mul_comm (256 ^ n), Nat.mod_mul]

theorem ofLeBytes_uint64 (x : UInt64) :
    UInt64.ofNat (ofLeBytes (leBytes 8 x.toNat)) = x := by
  have hx : x.toNat < 256 ^ 8 := x.toNat_lt
  rw [ofLeBytes_leBytes, Nat.mod_eq_of_lt hx, UInt64.ofNat_toNat]

theorem ofLeBytes_uint32 (x : UInt32) :
    UInt32.ofNat (ofLeBytes (leBytes 4 x.toNat)) = x := by
  have hx : x.toNat < 256 ^ 4 := x.toNat_lt
  rw [ofLeBytes_leBytes, Nat.mod_eq_of_lt hx, UInt32.ofNat_toNat]

end Xplatbase.Lib
