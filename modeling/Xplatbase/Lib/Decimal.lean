import Mathlib.Data.Nat.Digits.Lemmas
import Mathlib.Tactic.Ring
import Xplatbase.Lib.CInt

/-! Decimal numerals as bytes: the value they denote, the numeral of a number, and an `int` that is
built up digit by digit. -/
namespace Xplatbase.Lib

/-- One of `'0'` to `'9'`. -/
def IsDigit (c : UInt8) : Prop := 48 ≤ c.toNat ∧ c.toNat ≤ 57

instance (c : UInt8) : Decidable (IsDigit c) :=
  inferInstanceAs (Decidable (_ ∧ _))

/-- The value after the digits `s` were read behind a number of value `v`. -/
def decimalFrom (v : ℕ) (s : List UInt8) : ℕ :=
  s.foldl (fun v c => v * 10 + (c.toNat - 48)) v

def decimalValue (s : List UInt8) : ℕ := decimalFrom 0 s

theorem decimalFrom_cons (v : ℕ) (c : UInt8) (s : List UInt8) :
    decimalFrom v (c :: s) = decimalFrom (v * 10 + (c.toNat - 48)) s := by
  unfold decimalFrom
  rw [List.foldl_cons]

theorem decimalFrom_append (v : ℕ) (s t : List UInt8) :
    decimalFrom v (s ++ t) = decimalFrom (decimalFrom v s) t :=
  List.foldl_append

/-- The digits read later add to what was there, shifted by their number. -/
theorem decimalFrom_eq (v : ℕ) (s : List UInt8) :
    decimalFrom v s = v * 10 ^ s.length + decimalValue s := by
  induction s generalizing v with
  | nil =>
    have h : decimalValue [] = 0 := rfl
    rw [h, List.length_nil, pow_zero, mul_one, Nat.add_zero]
    rfl
  | cons c s ih =>
    have hv := ih (v * 10 + (c.toNat - 48))
    have h0 := ih (0 * 10 + (c.toNat - 48))
    unfold decimalValue at h0 ⊢
    rw [decimalFrom_cons, decimalFrom_cons, hv, h0, List.length_cons, pow_succ]
    unfold decimalValue
    ring

theorem decimalValue_append (s t : List UInt8) :
    decimalValue (s ++ t) = decimalValue s * 10 ^ t.length + decimalValue t := by
  unfold decimalValue
  rw [decimalFrom_append, decimalFrom_eq]
  rfl

theorem le_decimalFrom (v : ℕ) (s : List UInt8) : v ≤ decimalFrom v s := by
  have hpow : 1 ≤ 10 ^ s.length := Nat.one_le_pow _ _ (by omega)
  rw [decimalFrom_eq]
  have hmul : v * 1 ≤ v * 10 ^ s.length := Nat.mul_le_mul_left v hpow
  omega

/-- A numeral cut short by some digits denotes its value only when that is 0. -/
theorem decimalValue_prefix {s t : List UInt8} (ht : t ≠ []) :
    decimalValue s = decimalValue (s ++ t) ↔ decimalValue (s ++ t) = 0 := by
  have hlen : 0 < t.length := List.length_pos_iff.mpr ht
  have hpow : 10 ≤ 10 ^ t.length := Nat.le_self_pow (by omega) 10
  rw [decimalValue_append]
  have hmul : decimalValue s * 10 ≤ decimalValue s * 10 ^ t.length := Nat.mul_le_mul_left _ hpow
  constructor
  · intro h
    omega
  · intro h
    omega

/-- The digit of value `d`. -/
def digitByte (d : ℕ) : UInt8 := UInt8.ofNat (48 + d)

theorem digitByte_toNat {d : ℕ} (hd : d < 10) : (digitByte d).toNat = 48 + d := by
  have h : (digitByte d).toNat = (48 + d) % 256 := UInt8.toNat_ofNat'
  omega

theorem digitByte_isDigit {d : ℕ} (hd : d < 10) : IsDigit (digitByte d) := by
  have h := digitByte_toNat hd
  unfold IsDigit
  omega

/-- The digits of `n`, the highest first, and none before it but in `"0"`. -/
def decimalDigits (n : ℕ) : List UInt8 :=
  if n < 10 then [digitByte n] else decimalDigits (n / 10) ++ [digitByte (n % 10)]

theorem decimalDigits_ne_nil (n : ℕ) : decimalDigits n ≠ [] := by
  unfold decimalDigits
  split_ifs with h
  · simp
  · simp

theorem decimalDigits_isDigit (n : ℕ) : ∀ c ∈ decimalDigits n, IsDigit c := by
  induction n using Nat.strong_induction_on with
  | h n ih =>
    intro c hc
    unfold decimalDigits at hc
    split_ifs at hc with h
    · rw [List.mem_singleton] at hc
      rw [hc]
      exact digitByte_isDigit h
    · rcases List.mem_append.mp hc with hc | hc
      · exact ih (n / 10) (by omega) c hc
      · rw [List.mem_singleton] at hc
        rw [hc]
        exact digitByte_isDigit (by omega)

theorem decimalValue_decimalDigits (n : ℕ) : decimalValue (decimalDigits n) = n := by
  induction n using Nat.strong_induction_on with
  | h n ih =>
    unfold decimalDigits
    split_ifs with h
    · have hd := digitByte_toNat h
      unfold decimalValue
      rw [decimalFrom_cons, hd]
      change 0 * 10 + (48 + n - 48) = n
      omega
    · have hd := digitByte_toNat (Nat.mod_lt n (by omega : 10 > 0))
      have hrec := ih (n / 10) (by omega)
      have hlast : decimalValue [digitByte (n % 10)] = n % 10 := by
        unfold decimalValue
        rw [decimalFrom_cons, hd]
        change 0 * 10 + (48 + n % 10 - 48) = n % 10
        omega
      rw [decimalValue_append, hrec, hlast, List.length_singleton, pow_one]
      omega

theorem decimalDigits_length {n k : ℕ} (hk : 0 < k) (h : n < 10 ^ k) :
    (decimalDigits n).length ≤ k := by
  induction k generalizing n with
  | zero => exact absurd hk (by omega)
  | succ k ih =>
    unfold decimalDigits
    split_ifs with hlt
    · simp
    · have hpos : 0 < k := by
        apply Nat.pos_of_ne_zero
        intro h0
        rw [h0] at h
        omega
      have hdiv : n / 10 < 10 ^ k := by
        rw [pow_succ] at h
        omega
      have hrec := ih hpos hdiv
      rw [List.length_append, List.length_singleton]
      omega

/-- An `int` variable, with whether some operation on it left the range of `int`. -/
structure IntVar where
  value : ℤ
  overflow : Bool
  deriving DecidableEq

namespace IntVar

/-- `x = (x * 10) + (c - '0')`. -/
def accumulate (x : IntVar) (c : UInt8) : IntVar :=
  let product := x.value * 10
  let sum := toInt32 product + ((c.toNat : ℤ) - 48)
  ⟨toInt32 sum, x.overflow || !decide (IsInt32 product) || !decide (IsInt32 sum)⟩

/-- `x = -x`. -/
def neg (x : IntVar) : IntVar :=
  ⟨toInt32 (-x.value), x.overflow || !decide (IsInt32 (-x.value))⟩

theorem accumulate_exact {v : ℕ} {c : UInt8} (hc : IsDigit c)
    (h : v * 10 + (c.toNat - 48) < 2 ^ 31) :
    accumulate ⟨v, false⟩ c = ⟨(v * 10 + (c.toNat - 48) : ℕ), false⟩ := by
  unfold IsDigit at hc
  have hp : IsInt32 ((v : ℤ) * 10) := by
    unfold IsInt32
    omega
  have hsum : (v : ℤ) * 10 + ((c.toNat : ℤ) - 48) = ((v * 10 + (c.toNat - 48) : ℕ) : ℤ) := by
    omega
  have hs : IsInt32 ((v * 10 + (c.toNat - 48) : ℕ) : ℤ) := by
    unfold IsInt32
    omega
  unfold accumulate
  dsimp only
  rw [toInt32_eq hp, hsum, toInt32_eq hs, decide_eq_true hp, decide_eq_true hs]
  rfl

theorem accumulate_overflow {v : ℕ} {c : UInt8} (hc : IsDigit c)
    (h : 2 ^ 31 ≤ v * 10 + (c.toNat - 48)) : (accumulate ⟨v, false⟩ c).overflow = true := by
  unfold IsDigit at hc
  unfold accumulate
  dsimp only
  by_cases hp : IsInt32 ((v : ℤ) * 10)
  · have hs : ¬ IsInt32 ((v : ℤ) * 10 + ((c.toNat : ℤ) - 48)) := by
      unfold IsInt32
      omega
    rw [toInt32_eq hp, decide_eq_false hs]
    simp
  · rw [decide_eq_false hp]
    simp

theorem foldl_overflow (s : List UInt8) {x : IntVar} (h : x.overflow = true) :
    (s.foldl accumulate x).overflow = true := by
  induction s generalizing x with
  | nil => exact h
  | cons c s ih =>
    apply ih
    unfold accumulate
    simp [h]

/-- Read digit by digit, a numeral whose value is an `int` is read exactly. -/
theorem foldl_exact {s : List UInt8} (hs : ∀ c ∈ s, IsDigit c) {v : ℕ}
    (h : decimalFrom v s < 2 ^ 31) :
    s.foldl accumulate ⟨v, false⟩ = ⟨decimalFrom v s, false⟩ := by
  induction s generalizing v with
  | nil => rfl
  | cons c s ih =>
    rw [decimalFrom_cons] at h ⊢
    have hle := le_decimalFrom (v * 10 + (c.toNat - 48)) s
    rw [List.foldl_cons, accumulate_exact (hs c (by simp)) (by omega)]
    exact ih (fun d hd => hs d (by simp [hd])) h

theorem foldl_value {s : List UInt8} (hs : ∀ c ∈ s, IsDigit c) (h : decimalValue s < 2 ^ 31) :
    s.foldl accumulate ⟨0, false⟩ = ⟨decimalValue s, false⟩ :=
  foldl_exact hs h

/-- The overflow is noticed at the digit where the value leaves the range of `int`. -/
theorem foldl_overflow_iff {s : List UInt8} (hs : ∀ c ∈ s, IsDigit c) {v : ℕ} (hv : v < 2 ^ 31) :
    (s.foldl accumulate ⟨v, false⟩).overflow = false ↔ decimalFrom v s < 2 ^ 31 := by
  constructor
  · intro h
    induction s generalizing v with
    | nil => exact hv
    | cons c s ih =>
      have hc := hs c (by simp)
      by_cases hlt : v * 10 + (c.toNat - 48) < 2 ^ 31
      · rw [List.foldl_cons, accumulate_exact hc hlt] at h
        exact ih (fun d hd => hs d (by simp [hd])) hlt h
      · have ho := foldl_overflow s (accumulate_overflow hc (Nat.le_of_not_lt hlt))
        rw [List.foldl_cons, ho] at h
        exact absurd h (by decide)
  · intro h
    rw [foldl_exact hs h]

end IntVar
end Xplatbase.Lib
