import Mathlib.Data.List.GetD
import Xplatbase.Lib.Decimal

/-! Model of `numeric_int_to_string` and `numeric_parse_int`. -/
namespace Xplatbase.Numeric
open Xplatbase.Lib

structure CString where
  chars : List UInt8
  nonzero : ∀ c ∈ chars, c ≠ 0

/-- `data[ix]`, up to the NUL. -/
def CString.at (data : CString) (ix : ℕ) : UInt8 := data.chars.getD ix 0

/-- `int LENG = 22`. -/
def LENG : ℕ := 22

/-- `'-'` -/
def minus : UInt8 := 45

/-- The locals of `numeric_parse_int`, and what `check_error` points to, if it is not null. -/
structure ParseInt where
  result : IntVar
  ix : ℕ
  checkError : Option ℤ
  deriving DecidableEq

/-- The `while` loop; the count is `LENG - ix`. -/
def parseIntLoop (data : CString) : ℕ → ParseInt → ParseInt
  | 0, s => s
  | n + 1, s =>
    let c := data.at s.ix
    if c = 0 then s
    else if IsDigit c then
      parseIntLoop data n { s with result := s.result.accumulate c, ix := s.ix + 1 }
    else { s with checkError := s.checkError.map fun _ => 1 }

def isNegative (data : CString) : Bool := data.at 0 = minus

/-- `ix` before the loop. -/
def firstIx (data : CString) : ℕ := if isNegative data then 1 else 0

def numericParseInt (data : CString) (checkError : Option ℤ) : ParseInt :=
  let s := parseIntLoop data (LENG - firstIx data) ⟨⟨0, false⟩, firstIx data, checkError⟩
  if isNegative data then { s with result := s.result.neg } else s

/-- What `sprintf("%d")` writes. -/
def numericIntToString (value : ℤ) : List UInt8 :=
  if value < 0 then minus :: decimalDigits value.natAbs else decimalDigits value.natAbs

theorem IsDigit.ne_zero {c : UInt8} (hc : IsDigit c) : c ≠ 0 := by
  intro h
  rw [h] at hc
  exact absurd hc (by decide)

theorem numericIntToString_nonzero (value : ℤ) : ∀ c ∈ numericIntToString value, c ≠ 0 := by
  intro c hc
  unfold numericIntToString at hc
  split_ifs at hc with hneg
  · rcases List.mem_cons.mp hc with hc | hc
    · rw [hc]
      decide
    · exact IsDigit.ne_zero (decimalDigits_isDigit _ c hc)
  · exact IsDigit.ne_zero (decimalDigits_isDigit _ c hc)

/-- The string that `numeric_int_to_string` returns. -/
def intString (value : ℤ) : CString :=
  ⟨numericIntToString value, numericIntToString_nonzero value⟩

/-- A sign, or none, and digits: `-?[0-9]*`. -/
def signed (neg : Bool) (digits : List UInt8) : List UInt8 :=
  if neg then minus :: digits else digits

def signedValue (neg : Bool) (v : ℕ) : ℤ := if neg then -v else v

/-- The string has the form `-?[0-9]+` and denotes `v`. -/
def Denotes (data : CString) (v : ℤ) : Prop :=
  ∃ neg digits, data.chars = signed neg digits ∧ digits ≠ [] ∧ (∀ c ∈ digits, IsDigit c) ∧
    v = signedValue neg (decimalValue digits)

/-- The parse accepts the string exactly when it denotes an `int`, and then returns it, with no
operation out of the range of `int`. -/
def ParsesExactly (data : CString) : Prop :=
  ∀ checkError : Option ℤ,
    (∀ v, Denotes data v → IsInt32 v →
      (numericParseInt data checkError).result = ⟨v, false⟩ ∧
        (numericParseInt data checkError).checkError = checkError) ∧
    ((∀ v, Denotes data v → ¬ IsInt32 v) →
      (numericParseInt data checkError).checkError = checkError.map fun _ => 1)

/-- A character that is neither a digit nor the sign in front, among those that the loop reaches. -/
def ReachesNonDigit (data : CString) : Prop :=
  ∃ ix, firstIx data ≤ ix ∧ ix < LENG ∧ ix < data.chars.length ∧ ¬ IsDigit (data.at ix)

/-- The characters that the loop reads, from `ix` on, if all are digits. -/
def window (data : CString) (ix n : ℕ) : List UInt8 := (data.chars.drop ix).take n

theorem CString.at_lt (data : CString) {ix : ℕ} (h : ix < data.chars.length) :
    data.at ix = data.chars[ix] := by
  unfold CString.at
  rw [List.getD_eq_getElem _ _ h]

theorem CString.at_ge (data : CString) {ix : ℕ} (h : data.chars.length ≤ ix) : data.at ix = 0 := by
  unfold CString.at
  exact List.getD_eq_default _ _ h

theorem window_end (data : CString) {ix : ℕ} (n : ℕ) (h : data.chars.length ≤ ix) :
    window data ix n = [] := by
  unfold window
  rw [List.drop_eq_nil_of_le h, List.take_nil]

theorem window_succ (data : CString) {ix : ℕ} (n : ℕ) (h : ix < data.chars.length) :
    window data ix (n + 1) = data.at ix :: window data (ix + 1) n := by
  unfold window
  rw [List.drop_eq_getElem_cons h, List.take_succ_cons, CString.at_lt data h]

theorem CString.at_ne_zero (data : CString) {ix : ℕ} (h : ix < data.chars.length) :
    data.at ix ≠ 0 := by
  rw [CString.at_lt data h]
  exact data.nonzero _ (List.getElem_mem h)

/-- On digits alone the loop accumulates them and leaves the flag alone. -/
theorem parseIntLoop_digits (data : CString) (n : ℕ) (s : ParseInt)
    (h : ∀ c ∈ window data s.ix n, IsDigit c) :
    (parseIntLoop data n s).result = (window data s.ix n).foldl IntVar.accumulate s.result ∧
      (parseIntLoop data n s).checkError = s.checkError := by
  induction n generalizing s with
  | zero =>
    have hw : window data s.ix 0 = [] := List.take_zero
    rw [hw]
    exact ⟨rfl, rfl⟩
  | succ n ih =>
    unfold parseIntLoop
    dsimp only
    by_cases hlt : s.ix < data.chars.length
    · have hw := window_succ data n hlt
      rw [hw] at h ⊢
      have hc : IsDigit (data.at s.ix) := h _ (by simp)
      rw [if_neg (data.at_ne_zero hlt), if_pos hc, List.foldl_cons]
      exact ih { s with result := s.result.accumulate (data.at s.ix), ix := s.ix + 1 }
        fun c hc => h c (by simp [hc])
    · rw [if_pos (data.at_ge (Nat.le_of_not_lt hlt)), window_end data _ (Nat.le_of_not_lt hlt)]
      exact ⟨rfl, rfl⟩

/-- The loop ends with the flag set when it reaches another character. -/
theorem parseIntLoop_nonDigit (data : CString) (n : ℕ) (s : ParseInt)
    (h : ∃ c ∈ window data s.ix n, ¬ IsDigit c) :
    (parseIntLoop data n s).checkError = s.checkError.map fun _ => 1 := by
  induction n generalizing s with
  | zero =>
    obtain ⟨c, hc, -⟩ := h
    exact absurd hc (by simp [window])
  | succ n ih =>
    obtain ⟨c, hc, hd⟩ := h
    by_cases hlt : s.ix < data.chars.length
    · unfold parseIntLoop
      dsimp only
      rw [if_neg (data.at_ne_zero hlt)]
      by_cases hat : IsDigit (data.at s.ix)
      · rw [if_pos hat]
        rw [window_succ data n hlt] at hc
        rcases List.mem_cons.mp hc with hc | hc
        · rw [hc] at hd
          exact absurd hat hd
        · exact ih { s with result := s.result.accumulate (data.at s.ix), ix := s.ix + 1 }
            ⟨c, hc, hd⟩
      · rw [if_neg hat]
    · rw [window_end data _ (Nat.le_of_not_lt hlt)] at hc
      exact absurd hc (by simp)

def reached (data : CString) : List UInt8 :=
  window data (firstIx data) (LENG - firstIx data)

theorem reachesNonDigit_iff (data : CString) :
    ReachesNonDigit data ↔ ∃ c ∈ reached data, ¬ IsDigit c := by
  unfold reached window ReachesNonDigit
  constructor
  · rintro ⟨ix, h0, h1, hlen, hd⟩
    refine ⟨data.at ix, ?_, hd⟩
    rw [CString.at_lt data hlen, List.mem_iff_getElem]
    have hget : ix - firstIx data < ((data.chars.drop (firstIx data)).take
        (LENG - firstIx data)).length := by
      rw [List.length_take, List.length_drop]
      omega
    refine ⟨ix - firstIx data, hget, ?_⟩
    rw [List.getElem_take, List.getElem_drop]
    congr 1
    omega
  · rintro ⟨c, hc, hd⟩
    obtain ⟨k, hk, rfl⟩ := List.mem_iff_getElem.mp hc
    have hlen := hk
    rw [List.length_take, List.length_drop] at hlen
    refine ⟨firstIx data + k, by omega, by omega, by omega, ?_⟩
    rw [List.getElem_take, List.getElem_drop] at hd
    rw [CString.at_lt data (by omega)]
    exact hd

theorem numericParseInt_digits (data : CString) (checkError : Option ℤ)
    (h : ∀ c ∈ reached data, IsDigit c) :
    (numericParseInt data checkError).checkError = checkError ∧
      (numericParseInt data checkError).result =
        (let x := (reached data).foldl IntVar.accumulate ⟨0, false⟩
         if isNegative data then x.neg else x) := by
  have hloop := parseIntLoop_digits data (LENG - firstIx data)
    ⟨⟨0, false⟩, firstIx data, checkError⟩ h
  unfold numericParseInt reached
  dsimp only at hloop ⊢
  split_ifs with hneg
  · exact ⟨hloop.2, by rw [hloop.1]⟩
  · exact ⟨hloop.2, hloop.1⟩

theorem numericParseInt_nonDigit (data : CString) (checkError : Option ℤ)
    (h : ∃ c ∈ reached data, ¬ IsDigit c) :
    (numericParseInt data checkError).checkError = checkError.map fun _ => 1 := by
  have hloop := parseIntLoop_nonDigit data (LENG - firstIx data)
    ⟨⟨0, false⟩, firstIx data, checkError⟩ h
  unfold numericParseInt
  dsimp only
  split_ifs with hneg
  · exact hloop
  · exact hloop

theorem head_ne_minus {digits : List UInt8} (hd : ∀ c ∈ digits, IsDigit c) :
    digits.head? ≠ some minus := by
  intro h
  have hc := hd minus (List.mem_of_head? h)
  exact absurd hc (by decide)

theorem firstIx_signed {data : CString} {neg : Bool} {rest : List UInt8}
    (hs : data.chars = signed neg rest) (hrest : rest.head? ≠ some minus) :
    isNegative data = neg ∧ data.chars.drop (firstIx data) = rest := by
  have hneg : isNegative data = neg := by
    unfold isNegative CString.at
    rw [hs]
    cases neg with
    | true => rfl
    | false =>
      cases rest with
      | nil => rfl
      | cons c cs =>
        have hne : c ≠ minus := by
          intro h
          rw [h] at hrest
          exact hrest rfl
        unfold signed
        simp [hne]
  refine ⟨hneg, ?_⟩
  unfold firstIx
  rw [hneg, hs]
  cases neg with
  | true => rfl
  | false => rfl

end Xplatbase.Numeric
