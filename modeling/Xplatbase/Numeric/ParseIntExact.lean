import Xplatbase.Numeric.ParseInt

/-! Which strings `numeric_parse_int` parses exactly. -/
namespace Xplatbase.Numeric
open Xplatbase.Lib

def body (data : CString) : List UInt8 := data.chars.drop (firstIx data)

theorem signed_body (data : CString) : data.chars = signed (isNegative data) (body data) := by
  unfold body firstIx
  by_cases hneg : isNegative data = true
  · rw [if_pos hneg, hneg]
    unfold isNegative CString.at at hneg
    cases hs : data.chars with
    | nil =>
      rw [hs] at hneg
      exact absurd hneg (by decide)
    | cons c cs =>
      rw [hs] at hneg
      have hc : c = minus := of_decide_eq_true hneg
      rw [hc]
      rfl
  · have hf : isNegative data = false := Bool.eq_false_of_not_eq_true hneg
    rw [if_neg hneg, hf]
    rfl

theorem denotes_iff (data : CString) (v : ℤ) :
    Denotes data v ↔ body data ≠ [] ∧ (∀ c ∈ body data, IsDigit c) ∧
      v = signedValue (isNegative data) (decimalValue (body data)) := by
  constructor
  · rintro ⟨neg, digits, hs, hne, hd, hv⟩
    obtain ⟨hneg, hbody⟩ := firstIx_signed hs (head_ne_minus hd)
    have hb : body data = digits := hbody
    rw [hb, hneg]
    exact ⟨hne, hd, hv⟩
  · rintro ⟨hne, hd, hv⟩
    exact ⟨isNegative data, body data, signed_body data, hne, hd, hv⟩

theorem reached_eq (data : CString) : reached data = (body data).take (LENG - firstIx data) := rfl

theorem body_length (data : CString) :
    (body data).length ≤ LENG - firstIx data ↔ data.chars.length ≤ LENG := by
  have hf : firstIx data ≤ 1 := by
    unfold firstIx
    split_ifs
    · exact le_refl 1
    · exact Nat.zero_le 1
  unfold body LENG
  rw [List.length_drop]
  omega

/-- What the loop reads denotes the whole number, when the string fits or denotes 0. -/
theorem reached_value {data : CString} :
    decimalValue (reached data) = decimalValue (body data) ↔
      data.chars.length ≤ LENG ∨ decimalValue (body data) = 0 := by
  rw [← body_length, reached_eq]
  by_cases hfit : (body data).length ≤ LENG - firstIx data
  · rw [List.take_of_length_le hfit]
    constructor
    · intro _
      exact Or.inl hfit
    · intro _
      rfl
  · have hdrop : (body data).drop (LENG - firstIx data) ≠ [] := by
      intro h
      exact hfit (List.drop_eq_nil_iff.mp h)
    have hcut := decimalValue_prefix (s := (body data).take (LENG - firstIx data)) hdrop
    rw [List.take_append_drop] at hcut
    rw [hcut]
    constructor
    · intro h
      exact Or.inr h
    · intro h
      exact h.resolve_left hfit

theorem natAbs_signedValue (neg : Bool) (m : ℕ) : (signedValue neg m).natAbs = m := by
  unfold signedValue
  cases neg with
  | true => exact (Int.natAbs_neg _).trans (Int.natAbs_natCast m)
  | false => exact Int.natAbs_natCast m

theorem signedValue_inj {neg : Bool} {m n : ℕ} (h : signedValue neg m = signedValue neg n) :
    m = n := by
  rw [← natAbs_signedValue neg m, h, natAbs_signedValue]

theorem signedValue_eq_zero (neg : Bool) {m : ℕ} : signedValue neg m = 0 ↔ m = 0 := by
  rw [← Int.natAbs_eq_zero, natAbs_signedValue]

/-- Of the 32-bit integers, the magnitude fits an `int` for all but the least. -/
theorem magnitude_lt (neg : Bool) {m : ℕ} :
    m < 2 ^ 31 ↔ -2 ^ 31 < signedValue neg m ∧ signedValue neg m < 2 ^ 31 := by
  have habs := natAbs_signedValue neg m
  omega

/-- The sign is put in front of an accumulated value without an overflow. -/
theorem neg_exact (neg : Bool) {m : ℕ} (h : m < 2 ^ 31) :
    (if neg then IntVar.neg ⟨m, false⟩ else ⟨m, false⟩) = ⟨signedValue neg m, false⟩ := by
  cases neg with
  | false => rfl
  | true =>
    have hm : IsInt32 (-(m : ℤ)) := by
      unfold IsInt32
      omega
    simp only [if_true, IntVar.neg, signedValue]
    rw [toInt32_eq hm, decide_eq_true hm]
    rfl

theorem overflow_of_neg (neg : Bool) {x : IntVar}
    (h : (if neg then x.neg else x).overflow = false) : x.overflow = false := by
  cases neg with
  | false => exact h
  | true =>
    simp only [if_true, IntVar.neg, Bool.or_eq_false_iff] at h
    exact h.1

theorem reached_isDigit {data : CString} (hd : ∀ c ∈ body data, IsDigit c) :
    ∀ c ∈ reached data, IsDigit c := by
  intro c hc
  exact hd c (List.mem_of_mem_take hc)

/-- The value of the parse is right, and computed within the range of `int`, exactly when the
digits read have the value of all of them and that is below `2^31`. -/
theorem numericParseInt_value {data : CString} (checkError : Option ℤ)
    (hd : ∀ c ∈ body data, IsDigit c) :
    (numericParseInt data checkError).result =
        ⟨signedValue (isNegative data) (decimalValue (body data)), false⟩ ↔
      decimalValue (body data) < 2 ^ 31 ∧
        decimalValue (reached data) = decimalValue (body data) := by
  have hr := reached_isDigit hd
  rw [(numericParseInt_digits data checkError hr).2]
  dsimp only
  constructor
  · intro h
    have ho : ((reached data).foldl IntVar.accumulate ⟨0, false⟩).overflow = false := by
      apply overflow_of_neg (isNegative data)
      rw [h]
    have hlt : decimalValue (reached data) < 2 ^ 31 :=
      (IntVar.foldl_overflow_iff hr (by norm_num)).mp ho
    rw [IntVar.foldl_value hr hlt, neg_exact _ hlt] at h
    have heq := signedValue_inj (congrArg IntVar.value h)
    exact ⟨by omega, heq⟩
  · rintro ⟨hlt, heq⟩
    rw [← heq] at hlt
    rw [IntVar.foldl_value hr hlt, neg_exact _ hlt, heq]

/-- The strings that `numeric_parse_int` handles as it should. -/
def ParsedRight (data : CString) : Prop :=
  (∃ v, Denotes data v ∧ (-2 ^ 31 < v ∧ v < 2 ^ 31) ∧ (data.chars.length ≤ LENG ∨ v = 0)) ∨
    ReachesNonDigit data

theorem not_reachesNonDigit {data : CString} (hd : ∀ c ∈ body data, IsDigit c) :
    ¬ ReachesNonDigit data := by
  rw [reachesNonDigit_iff]
  rintro ⟨c, hc, hn⟩
  exact hn (hd c (List.mem_of_mem_take hc))

/-- The flag after the parse of a string that denotes no `int`. -/
theorem checkError_iff (data : CString) :
    (∀ checkError : Option ℤ,
      (numericParseInt data checkError).checkError = checkError.map fun _ => 1) ↔
      ReachesNonDigit data := by
  rw [reachesNonDigit_iff]
  constructor
  · intro h
    by_contra hn
    have hr : ∀ c ∈ reached data, IsDigit c := by
      intro c hc
      by_contra hd
      exact hn ⟨c, hc, hd⟩
    have h0 := h (some 0)
    rw [(numericParseInt_digits data (some 0) hr).1] at h0
    exact absurd h0 (by decide)
  · intro h checkError
    exact numericParseInt_nonDigit data checkError h

theorem parsesExactly_iff (data : CString) : ParsesExactly data ↔ ParsedRight data := by
  by_cases hden : ∃ v, Denotes data v ∧ IsInt32 v
  · obtain ⟨v, hv, hint⟩ := hden
    obtain ⟨hne, hd, rfl⟩ := (denotes_iff data v).mp hv
    have hr := reached_isDigit hd
    constructor
    · intro h
      have hval := ((h (some 0)).1 _ hv hint).1
      rw [numericParseInt_value _ hd, reached_value, magnitude_lt (isNegative data)] at hval
      rw [← signedValue_eq_zero (isNegative data)] at hval
      exact Or.inl ⟨_, hv, hval⟩
    · intro h
      obtain ⟨w, hw, hrange, hfit⟩ := h.resolve_right (not_reachesNonDigit hd)
      obtain ⟨-, -, rfl⟩ := (denotes_iff data w).mp hw
      intro checkError
      constructor
      · intro u hu _
        obtain ⟨-, -, rfl⟩ := (denotes_iff data u).mp hu
        rw [signedValue_eq_zero] at hfit
        have hval := (numericParseInt_value checkError hd).mpr
          ⟨(magnitude_lt _).mpr hrange, reached_value.mpr hfit⟩
        exact ⟨hval, (numericParseInt_digits data checkError hr).1⟩
      · intro hno
        exact absurd hint (hno _ hv)
  · have hno : ∀ v, Denotes data v → ¬ IsInt32 v := fun v hv hint => hden ⟨v, hv, hint⟩
    constructor
    · intro h
      exact Or.inr ((checkError_iff data).mp fun checkError => (h checkError).2 hno)
    · rintro (⟨v, hv, hrange, -⟩ | h)
      · exact absurd ⟨hrange.1.le, hrange.2⟩ (hno v hv)
      · intro checkError
        constructor
        · intro v hv hint
          exact absurd hint (hno v hv)
        · intro _
          exact (checkError_iff data).mpr h checkError

theorem intString_denotes (value : ℤ) : Denotes (intString value) value := by
  refine ⟨decide (value < 0), decimalDigits value.natAbs, ?_, decimalDigits_ne_nil _,
    decimalDigits_isDigit _, ?_⟩
  · unfold intString numericIntToString signed
    by_cases h : value < 0
    · simp [h]
    · simp [h]
  · rw [decimalValue_decimalDigits]
    unfold signedValue
    by_cases h : value < 0
    · rw [decide_eq_true h, if_pos rfl]
      omega
    · rw [decide_eq_false h, if_neg (by decide)]
      omega

theorem intString_length {value : ℤ} (h : IsInt32 value) :
    (intString value).chars.length ≤ LENG := by
  have hlt : value.natAbs < 10 ^ 10 := by
    unfold IsInt32 at h
    omega
  have hlen := decimalDigits_length (by omega : 0 < 10) hlt
  unfold intString numericIntToString LENG
  dsimp only
  split_ifs with hneg
  · rw [List.length_cons]
    omega
  · omega

/-- What the parse makes of the string that `numeric_int_to_string` gives. -/
def RoundTrips (value : ℤ) : Prop :=
  ∀ checkError : Option ℤ,
    (numericParseInt (intString value) checkError).result = ⟨value, false⟩ ∧
      (numericParseInt (intString value) checkError).checkError = checkError

theorem roundTrips_iff {value : ℤ} (h : IsInt32 value) : RoundTrips value ↔ value ≠ -2 ^ 31 := by
  have hden := intString_denotes value
  constructor
  · intro hr hmin
    have hex : ParsesExactly (intString value) := by
      intro checkError
      constructor
      · intro v hv _
        obtain ⟨-, -, rfl⟩ := (denotes_iff _ v).mp hv
        obtain ⟨-, -, hval⟩ := (denotes_iff _ value).mp hden
        rw [← hval]
        exact hr checkError
      · intro hno
        exact absurd h (hno value hden)
    obtain ⟨-, hd, hval⟩ := (denotes_iff _ value).mp hden
    rcases (parsesExactly_iff _).mp hex with ⟨v, hv, hrange, -⟩ | hn
    · obtain ⟨-, -, rfl⟩ := (denotes_iff _ v).mp hv
      rw [← hval, hmin] at hrange
      exact absurd hrange.1 (lt_irrefl _)
    · exact not_reachesNonDigit hd hn
  · intro hmin checkError
    have hrange : -2 ^ 31 < value ∧ value < 2 ^ 31 := by
      unfold IsInt32 at h
      omega
    have hex := (parsesExactly_iff (intString value)).mpr
      (Or.inl ⟨value, hden, hrange, Or.inl (intString_length h)⟩)
    exact (hex checkError).1 value hden h

/-- The parse is exact on the numbers of magnitude below `2^31` that fit its 22 characters or are
0, and where it reaches a character that is no digit; and it reads back every int but the least. -/
theorem numericParseInt_exact (data : CString) (value : BitVec 32) :
    (ParsesExactly data ↔ ParsedRight data) ∧
      (RoundTrips value.toInt ↔ value.toInt ≠ -2 ^ 31) := by
  constructor
  · exact parsesExactly_iff data
  · have hlo := BitVec.le_toInt value
    have hhi := BitVec.toInt_lt (x := value)
    exact roundTrips_iff ⟨by omega, by omega⟩

/-- `"4294967297"` -/
def tooLarge : CString := ⟨[52, 50, 57, 52, 57, 54, 55, 50, 57, 55], by simp⟩

/-- It is parsed as 1, without an error. -/
theorem numericParseInt_exact_not : ¬ ∀ data : CString, ParsesExactly data := by
  intro h
  have hno : ∀ v, Denotes tooLarge v → ¬ IsInt32 v := by
    intro v hv
    obtain ⟨-, -, rfl⟩ := (denotes_iff _ v).mp hv
    decide
  have herr := (h tooLarge (some 0)).2 hno
  have hrun : (numericParseInt tooLarge (some 0)).checkError = some 0 := by decide
  rw [hrun] at herr
  exact absurd herr (by decide)

end Xplatbase.Numeric
