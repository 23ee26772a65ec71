import Mathlib.Data.Rat.Defs
import Mathlib.Tactic.FieldSimp
import Xplatbase.Numeric.ParseInt

/-! Model of `numeric_parse_double`, up to its floating-point division and addition. -/
namespace Xplatbase.Numeric
open Xplatbase.Lib

/-- `'.'` -/
def point : UInt8 := 46

/-- The locals of `numeric_parse_double`, and what `check_error` points to, if it is not null. -/
structure ParseDouble where
  result : IntVar
  ix : ℕ
  isDecimal : Bool
  frac : IntVar
  mult : ℕ
  checkError : Option ℤ
  deriving DecidableEq

/-- The `while` loop; the count is `LENG - ix`. -/
def parseDoubleLoop (data : CString) : ℕ → ParseDouble → ParseDouble
  | 0, s => s
  | n + 1, s =>
    let c := data.at s.ix
    if c = 0 then s
    else if s.isDecimal then
      let s := { s with mult := s.mult + 1 }
      if IsDigit c then
        parseDoubleLoop data n { s with frac := s.frac.accumulate c, ix := s.ix + 1 }
      else { s with checkError := s.checkError.map fun _ => 1 }
    else if c = point then
      parseDoubleLoop data n { s with isDecimal := true, ix := s.ix + 1 }
    else if IsDigit c then
      parseDoubleLoop data n { s with result := s.result.accumulate c, ix := s.ix + 1 }
    else { s with checkError := s.checkError.map fun _ => 1 }

/-- `numeric_parse_double` before `pow`. -/
def numericParseDouble (data : CString) (checkError : Option ℤ) : ParseDouble :=
  parseDoubleLoop data (LENG - firstIx data)
    ⟨⟨0, false⟩, firstIx data, false, ⟨0, false⟩, 0, checkError⟩

/-- `-?[0-9]+(.[0-9]+)?` in at most 22 characters; without digits behind it there is no point. -/
structure DecimalNumeral where
  neg : Bool
  whole : List UInt8
  fraction : List UInt8
  whole_ne_nil : whole ≠ []
  whole_digits : ∀ c ∈ whole, IsDigit c
  fraction_digits : ∀ c ∈ fraction, IsDigit c
  fits : (signed neg whole ++ if fraction = [] then [] else point :: fraction).length ≤ LENG

namespace DecimalNumeral

def pointed (x : DecimalNumeral) : List UInt8 :=
  if x.fraction = [] then [] else point :: x.fraction

def chars (x : DecimalNumeral) : List UInt8 := signed x.neg x.whole ++ x.pointed

theorem nonzero (x : DecimalNumeral) : ∀ c ∈ x.chars, c ≠ 0 := by
  intro c hc
  unfold chars pointed signed at hc
  rcases List.mem_append.mp hc with hc | hc
  · split_ifs at hc with hneg
    · rcases List.mem_cons.mp hc with hc | hc
      · rw [hc]
        decide
      · exact IsDigit.ne_zero (x.whole_digits c hc)
    · exact IsDigit.ne_zero (x.whole_digits c hc)
  · split_ifs at hc with hf
    · exact absurd hc (by simp)
    · rcases List.mem_cons.mp hc with hc | hc
      · rw [hc]
        decide
      · exact IsDigit.ne_zero (x.fraction_digits c hc)

def text (x : DecimalNumeral) : CString := ⟨x.chars, x.nonzero⟩

def magnitude (x : DecimalNumeral) : ℚ :=
  decimalValue (x.whole ++ x.fraction) / 10 ^ x.fraction.length

end DecimalNumeral

/-- The loop ends without setting the flag, its accumulators hold the number written, and neither
left the range of `int`. -/
def PartsExact (x : DecimalNumeral) : Prop :=
  ∀ checkError : Option ℤ,
    let s := numericParseDouble x.text checkError
    s.checkError = checkError ∧ s.result.overflow = false ∧ s.frac.overflow = false ∧
      (s.result.value : ℚ) + s.frac.value / 10 ^ s.mult = x.magnitude

theorem window_cons {data : CString} {ix n : ℕ} {c : UInt8} {t : List UInt8}
    (h : window data ix n = c :: t) :
    ∃ m, n = m + 1 ∧ ix < data.chars.length ∧ data.at ix = c ∧ window data (ix + 1) m = t := by
  cases n with
  | zero => exact absurd h (by simp [window])
  | succ m =>
    have hlt : ix < data.chars.length := by
      by_contra hge
      rw [window_end data _ (Nat.le_of_not_lt hge)] at h
      exact absurd h (by simp)
    rw [window_succ data m hlt] at h
    exact ⟨m, rfl, hlt, (List.cons.inj h).1, (List.cons.inj h).2⟩

theorem parseDoubleLoop_end {data : CString} {n : ℕ} {s : ParseDouble}
    (h : window data s.ix n = []) : parseDoubleLoop data n s = s := by
  cases n with
  | zero => rfl
  | succ n =>
    have hge : data.chars.length ≤ s.ix := by
      by_contra hlt
      rw [window_succ data n (Nat.lt_of_not_le hlt)] at h
      exact absurd h (by simp)
    unfold parseDoubleLoop
    dsimp only
    rw [if_pos (data.at_ge hge)]

/-- Before the point, digits go to `result`. -/
theorem parseDoubleLoop_whole {data : CString} {w rest : List UInt8} (hw : ∀ c ∈ w, IsDigit c)
    {n : ℕ} {s : ParseDouble} (hs : s.isDecimal = false) (h : window data s.ix n = w ++ rest) :
    ∃ m, window data (s.ix + w.length) m = rest ∧
      parseDoubleLoop data n s = parseDoubleLoop data m
        { s with result := w.foldl IntVar.accumulate s.result, ix := s.ix + w.length } := by
  induction w generalizing n s with
  | nil => exact ⟨n, h, rfl⟩
  | cons c w ih =>
    obtain ⟨n', rfl, hlt, hat, hrest⟩ := window_cons h
    have hc : IsDigit c := hw c (by simp)
    have hne : c ≠ point := by
      intro hp
      rw [hp] at hc
      exact absurd hc (by decide)
    obtain ⟨m, hm, hloop⟩ := ih (fun d hd => hw d (by simp [hd]))
      (s := { s with result := s.result.accumulate c, ix := s.ix + 1 }) hs hrest
    have hlen : s.ix + (c :: w).length = s.ix + 1 + w.length := by
      rw [List.length_cons]
      omega
    refine ⟨m, by rw [hlen]; exact hm, ?_⟩
    have hstep : parseDoubleLoop data (n' + 1) s = parseDoubleLoop data n'
        { s with result := s.result.accumulate c, ix := s.ix + 1 } := by
      rw [parseDoubleLoop]
      dsimp only
      rw [if_neg (data.at_ne_zero hlt), hs, if_neg (by decide), hat, if_neg hne, if_pos hc]
    rw [hstep, hloop, hlen]
    rfl

/-- Behind the point, digits go to `frac` and are counted. -/
theorem parseDoubleLoop_fraction {data : CString} {w : List UInt8} (hw : ∀ c ∈ w, IsDigit c)
    {n : ℕ} {s : ParseDouble} (hs : s.isDecimal = true) (h : window data s.ix n = w) :
    parseDoubleLoop data n s =
      { s with
        frac := w.foldl IntVar.accumulate s.frac
        mult := s.mult + w.length
        ix := s.ix + w.length } := by
  induction w generalizing n s with
  | nil => exact parseDoubleLoop_end h
  | cons c w ih =>
    obtain ⟨n', rfl, hlt, hat, hrest⟩ := window_cons h
    have hc : IsDigit c := hw c (by simp)
    have hstep : parseDoubleLoop data (n' + 1) s = parseDoubleLoop data n'
        { s with mult := s.mult + 1, frac := s.frac.accumulate c, ix := s.ix + 1 } := by
      rw [parseDoubleLoop]
      dsimp only
      rw [if_neg (data.at_ne_zero hlt), if_pos hs, hat, if_pos hc]
    rw [hstep, ih (fun d hd => hw d (by simp [hd]))
      (s := { s with mult := s.mult + 1, frac := s.frac.accumulate c, ix := s.ix + 1 }) hs hrest]
    simp only [List.foldl_cons, List.length_cons, ParseDouble.mk.injEq, true_and, and_true]
    omega

theorem window_text (x : DecimalNumeral) :
    window x.text (firstIx x.text) (LENG - firstIx x.text) = x.whole ++ x.pointed := by
  have hchars : x.text.chars = signed x.neg (x.whole ++ x.pointed) := by
    change signed x.neg x.whole ++ x.pointed = _
    unfold signed
    split_ifs
    · rfl
    · rfl
  have hhead : (x.whole ++ x.pointed).head? ≠ some minus := by
    rw [List.head?_append_of_ne_nil _ x.whole_ne_nil]
    exact head_ne_minus x.whole_digits
  have hdrop := (firstIx_signed hchars hhead).2
  have hlen : x.text.chars.length ≤ LENG := x.fits
  unfold window
  rw [List.take_of_length_le, hdrop]
  rw [List.length_drop]
  omega

/-- What the loop leaves of a numeral: each part accumulated on its own. -/
theorem numericParseDouble_text (x : DecimalNumeral) (checkError : Option ℤ) :
    let s := numericParseDouble x.text checkError
    s.checkError = checkError ∧ s.result = x.whole.foldl IntVar.accumulate ⟨0, false⟩ ∧
      s.frac = x.fraction.foldl IntVar.accumulate ⟨0, false⟩ ∧ s.mult = x.fraction.length := by
  obtain ⟨m, hm, hloop⟩ := parseDoubleLoop_whole x.whole_digits
    (s := ⟨⟨0, false⟩, firstIx x.text, false, ⟨0, false⟩, 0, checkError⟩) rfl (window_text x)
  unfold numericParseDouble
  rw [hloop]
  dsimp only at hm ⊢
  unfold DecimalNumeral.pointed at hm
  by_cases hf : x.fraction = []
  · rw [if_pos hf] at hm
    rw [parseDoubleLoop_end hm, hf]
    exact ⟨rfl, rfl, rfl, rfl⟩
  · rw [if_neg hf] at hm
    obtain ⟨k, rfl, hlt, hat, hrest⟩ := window_cons hm
    rw [parseDoubleLoop]
    dsimp only
    rw [if_neg (x.text.at_ne_zero hlt), if_neg (by decide), if_pos hat,
      parseDoubleLoop_fraction x.fraction_digits rfl hrest]
    exact ⟨rfl, rfl, rfl, Nat.zero_add _⟩

theorem magnitude_eq (x : DecimalNumeral) :
    x.magnitude = decimalValue x.whole + decimalValue x.fraction / 10 ^ x.fraction.length := by
  unfold DecimalNumeral.magnitude
  rw [decimalValue_append]
  push_cast
  field_simp

/-- The parts are exact when each of them, without the point, is below `2^31`. -/
theorem numericParseDouble_exact (x : DecimalNumeral) :
    PartsExact x ↔ decimalValue x.whole < 2 ^ 31 ∧ decimalValue x.fraction < 2 ^ 31 := by
  constructor
  · intro h
    obtain ⟨-, hresult, hfrac, -⟩ := h none
    obtain ⟨-, hr, hf, -⟩ := numericParseDouble_text x none
    rw [hr] at hresult
    rw [hf] at hfrac
    constructor
    · exact (IntVar.foldl_overflow_iff x.whole_digits (by norm_num)).mp hresult
    · exact (IntVar.foldl_overflow_iff x.fraction_digits (by norm_num)).mp hfrac
  · rintro ⟨hwhole, hfraction⟩
    intro checkError
    obtain ⟨he, hr, hf, hm⟩ := numericParseDouble_text x checkError
    rw [IntVar.foldl_value x.whole_digits hwhole] at hr
    rw [IntVar.foldl_value x.fraction_digits hfraction] at hf
    dsimp only
    rw [hr, hf, hm, magnitude_eq]
    exact ⟨he, rfl, rfl, by simp⟩

/-- `"2147483648"` -/
def wholeTooLarge : DecimalNumeral where
  neg := false
  whole := [50, 49, 52, 55, 52, 56, 51, 54, 52, 56]
  fraction := []
  whole_ne_nil := by decide
  whole_digits := by simp [IsDigit]
  fraction_digits := by simp
  fits := by decide

/-- Its accumulator leaves the range of `int`. -/
theorem numericParseDouble_exact_not : ¬ ∀ x : DecimalNumeral, PartsExact x := by
  intro h
  have hover : (numericParseDouble wholeTooLarge.text none).result.overflow = true := by decide
  have hexact := (h wholeTooLarge none).2.1
  rw [hover] at hexact
  exact absurd hexact (by decide)

end Xplatbase.Numeric
