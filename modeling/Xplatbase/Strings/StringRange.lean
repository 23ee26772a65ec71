import Xplatbase.Strings.StringRuns
import Xplatbase.Strings.StringSearch

/-! Out-of-range arguments of `StringX` operations: for which argument combinations the wrapping
int sums of the range checks let a call leave its source or its destination. -/
namespace Xplatbase.Strings
open Xplatbase.Lib

/-- The range `[a, a + n)` without any wrapping lies in a source of `len` positions. -/
def RangeInside (a n len : ℤ) : Prop :=
  0 ≤ a ∧ 0 ≤ n ∧ a + n ≤ len

/-- A copy into a string of `w`: no position outside source or destination is touched, and a
range that is not in the source changes no string. -/
def CopyUnharmed (srcStart length srcLen : ℤ) (w : World) (r : Run World) : Prop :=
  r ≠ .error .outOfBounds ∧
    (¬RangeInside srcStart length srcLen → ∀ w', r = .ok w' →
      w'.str = w.str ∧ w'.blocks.live = w.blocks.live)

variable {w : World} {x b : ℕ} {s : StringX} {bytes : List UInt8}

theorem World.Held.withGrants (h : w.Held x s b bytes)
    (grants : List (Option (ℕ × List UInt8))) :
    (w.withGrants grants).Held x s b bytes :=
  ⟨h.str, h.content, h.live, h.alone⟩

/-- Some allocator grants the room: the block may grow where it is. -/
theorem shEnsureCapacity_possible (hv : w.Valid) (h : w.Held x s b bytes) (hr : s.Rep bytes)
    (required : ℕ) (hreq : required ≤ 2 ^ 32) :
    ∃ grants w' s' b' bytes',
      shEnsureCapacity x s required (w.withGrants grants) = .ok (true, w') ∧
        Roomy x (w.withGrants grants) s bytes required w' s' b' bytes' := by
  have hspec : ∀ grants w', shEnsureCapacity x s required (w.withGrants grants) = .ok (true, w') →
      ∃ s' b' bytes', Roomy x (w.withGrants grants) s bytes required w' s' b' bytes' := by
    intro grants w' hrun
    rcases shEnsureCapacity_spec (hv.withGrants grants) (h.withGrants grants) hr _
      (le_trans hreq (by norm_num)) with
      ⟨w1, s1, b1, bytes1, he, ho⟩ | ⟨-, he⟩ | ⟨-, w1, he, -⟩
    · rw [hrun] at he
      obtain rfl := (Prod.mk.inj (Except.ok.inj he)).2
      exact ⟨s1, b1, bytes1, ho⟩
    · rw [hrun] at he
      cases he
    · rw [hrun] at he
      cases he
  by_cases hfits : required ≤ s.max
  · have hrun : shEnsureCapacity x s required (w.withGrants []) = .ok (true, w.withGrants []) := by
      rw [shEnsureCapacity, if_pos hfits]
    obtain ⟨s', b', bytes', ho⟩ := hspec _ _ hrun
    exact ⟨[], _, s', b', bytes', hrun, ho⟩
  · obtain ⟨n, hn, hreach, -, hn64, hbound⟩ := growTo_firstMax hr (le_trans hreq (by norm_num))
    have hfirst := firstMax_le s
    have hroom : n + 1 ≤ maxBlock := by
      have : 2 ^ 34 ≤ maxBlock := by decide
      rcases hbound with rfl | hb <;> omega
    have hre : ∃ w1, memopReallocRaw s.content (n + 1)
        (w.withGrants [some (b, List.replicate (n + 1) 0)]) = .ok (some b, w1) := by
      have hlive : (w.withGrants [some (b, List.replicate (n + 1) 0)]).blocks.live b =
          some bytes := h.live
      have hg : (w.withGrants [some (b, List.replicate (n + 1) 0)]).blocks.granted (some b)
          (n + 1) = some (b, List.replicate (n + 1) 0) := by
        simp [Blocks.granted, World.withGrants, hroom]
      have hreal : ∃ bs, (w.withGrants [some (b, List.replicate (n + 1) 0)]).blocks.realloc
          (some b) (n + 1) maxBlock = .ok (some b, bs) := by
        simp only [Blocks.realloc, hlive, if_neg (Nat.succ_ne_zero n), hg]
        exact ⟨_, rfl⟩
      obtain ⟨bs, hreal⟩ := hreal
      exact ⟨{ w.withGrants [some (b, List.replicate (n + 1) 0)] with blocks := bs }, by
        rw [memopReallocRaw, h.content, hreal]
        rfl⟩
    obtain ⟨w1, hre⟩ := hre
    have hrun := shEnsureCapacity_granted (x := x) hfits hn hn64 hre
    obtain ⟨s', b', bytes', ho⟩ := hspec _ _ hrun
    exact ⟨_, _, s', b', bytes', hrun, ho⟩

section copy
variable {contLength srcStart length dstStart : ℤ}

/-- `string_copy` is unharmed by its arguments exactly when what passes its checks is a range of
the source whose positions, and those of the destination, are ints. -/
theorem stringCopy_range (contLength : ℤ) (hv : w.Valid) (hs : w.str x = some s)
    (hb : s.content = some b) (src : Source) (his : IsInt32 srcStart) (hil : IsInt32 length)
    (hid : IsInt32 dstStart) :
    (∀ grants, CopyUnharmed srcStart length src.len (w.withGrants grants)
        (stringCopy x (some src) contLength srcStart length dstStart (w.withGrants grants))) ↔
      (CopyPasses contLength srcStart length dstStart →
        srcStart + length ≤ src.len ∧ srcStart + length ≤ 2 ^ 31 ∧ dstStart + length ≤ 2 ^ 31) := by
  obtain ⟨bytes, hh, hr⟩ := hv.held hs hb
  constructor
  · intro hall hp
    obtain ⟨hlen, hs0, hd0, -⟩ := id hp
    obtain ⟨grants, w1, s1, b1, bytes1, he, ho⟩ := shEnsureCapacity_possible hv hh hr
      (dstStart + length).toNat (by unfold IsInt32 at hil hid; omega)
    have hrun := stringCopy_passes src (hh.withGrants grants) hp hil hid
    have hin : ∀ i < length.toNat, CopyInside src s1 srcStart dstStart i := by
      intro i hi
      by_contra hout
      refine (hall grants).1 ?_
      rw [hrun, he]
      simp only [bind, Except.bind, if_true]
      rw [copyLoop_outside ho.held ho.rep.room hi hout]
    unfold IsInt32 at his hil hid
    have hread := (toInt32_range src.len hs0 his.2 (n := length.toNat) (by omega)
      (by omega)).mp fun i hi => (hin i hi).1
    have hwrite := (toInt32_range ((s1.max : ℤ) + 1) hd0 hid.2 (n := length.toNat)
      (by omega) (by omega)).mp fun i hi => (hin i hi).2
    omega
  · intro hcond grants
    by_cases hp : CopyPasses contLength srcStart length dstStart
    · obtain ⟨hsrc, hsrc31, hdst31⟩ := hcond hp
      have hinside : RangeInside srcStart length src.len := ⟨hp.2.1, hp.1.le, hsrc⟩
      refine ⟨?_, fun hnot => absurd hinside hnot⟩
      rcases stringCopy_inside src (hv.withGrants grants) (hh.withGrants grants) hr hp his
        hil hid hsrc hsrc31 hdst31 with ⟨w', hrun, -⟩ | ⟨-, hrun⟩ | ⟨-, w', hrun, -⟩
      all_goals
        rw [hrun]
        simp
    · rw [stringCopy_stopped _ hp]
      refine ⟨by simp, fun _ w' hw' => ?_⟩
      obtain rfl := Except.ok.inj hw'
      exact ⟨rfl, rfl⟩

/-- The destination may be any string, the source one with a `Content`. -/
theorem stringCopys_range {src dst : ℕ} {d : StringX} {c : ℕ} (hv : w.Valid)
    (hs : w.str src = some s) (hb : s.content = some b) (hd : w.str dst = some d)
    (hc : d.content = some c) (his : IsInt32 srcStart) (hil : IsInt32 length)
    (hid : IsInt32 dstStart) :
    (∀ grants, CopyUnharmed srcStart length s.length (w.withGrants grants)
        (stringCopys src dst srcStart length dstStart (w.withGrants grants))) ↔
      (CopyPasses (toInt32 s.length) srcStart length dstStart →
        srcStart + length ≤ s.length ∧ srcStart + length ≤ 2 ^ 31 ∧
          dstStart + length ≤ 2 ^ 31) := by
  have hrun : ∀ grants, stringCopys src dst srcStart length dstStart (w.withGrants grants) =
      stringCopy dst (some (.block b s.length)) (toInt32 s.length) srcStart length dstStart
        (w.withGrants grants) := by
    intro grants
    simp only [stringCopys, World.withGrants, hs, hb]
  simp only [hrun]
  exact stringCopy_range _ hv hd hc (.block b s.length) his hil hid

theorem stringAppends_range (contLength : ℤ) (hv : w.Valid) (hs : w.str x = some s)
    (hb : s.content = some b) (src : Source) (his : IsInt32 srcStart) (hil : IsInt32 length) :
    (∀ grants, CopyUnharmed srcStart length src.len (w.withGrants grants)
        (stringAppends x (some src) contLength srcStart length (w.withGrants grants))) ↔
      (CopyPasses contLength srcStart length (toInt32 s.length) →
        srcStart + length ≤ src.len ∧ srcStart + length ≤ 2 ^ 31 ∧
          toInt32 s.length + length ≤ 2 ^ 31) := by
  have hrun : ∀ grants, stringAppends x (some src) contLength srcStart length
      (w.withGrants grants) = stringCopy x (some src) contLength srcStart length
        (toInt32 s.length) (w.withGrants grants) := by
    intro grants
    simp only [stringAppends, World.withGrants, hs]
  simp only [hrun]
  exact stringCopy_range _ hv hs hb src his hil (toInt32_isInt32 _)

/-- A wrapped sum cast to 64 bits is longer than any string. -/
theorem sum_of_passes {a n : ℤ} (hr : s.Rep bytes) (h0 : 0 ≤ a) (hn : 0 ≤ n) (ha : a < 2 ^ 31)
    (hn31 : n < 2 ^ 31) :
    toUInt64 (toInt32 (a + n)) ≤ s.length ↔ a + n ≤ s.length ∧ a + n < 2 ^ 31 := by
  have hlen : s.length < 2 ^ 48 := by
    have := hr.room
    have := hr.bound
    have := hr.length_le
    have : maxBlock < 2 ^ 48 := by decide
    omega
  by_cases htop : a + n < 2 ^ 31
  · rw [toInt32_eq ⟨by omega, htop⟩]
    have := toUInt64_eq (x := a + n) (by omega) (by omega)
    omega
  · rw [toInt32_wrapped (by omega) (by omega)]
    unfold toUInt64
    omega

/-- `string_append` has a 64-bit check of its own, so only its destination can fail. -/
theorem stringAppend_range {src dst : ℕ} {d : StringX} {c : ℕ} (hv : w.Valid)
    (hs : w.str src = some s) (hb : s.content = some b) (hd : w.str dst = some d)
    (hc : d.content = some c) (his : IsInt32 srcStart) (hil : IsInt32 length) :
    (∀ grants, CopyUnharmed srcStart length s.length (w.withGrants grants)
        (stringAppend src dst srcStart length (w.withGrants grants))) ↔
      (srcStart + length ≤ s.length → srcStart + length < 2 ^ 31 →
        CopyPasses (toInt32 s.length) srcStart length (toInt32 d.length) →
          toInt32 d.length + length ≤ 2 ^ 31) := by
  obtain ⟨bytes, -, hr⟩ := hv.held hs hb
  unfold IsInt32 at his hil
  have hstop : (∀ grants, stringAppend src dst srcStart length (w.withGrants grants) =
      .ok (w.withGrants grants)) → ∀ grants, CopyUnharmed srcStart length s.length
        (w.withGrants grants) (stringAppend src dst srcStart length (w.withGrants grants)) := by
    intro hrun grants
    rw [hrun grants]
    refine ⟨by simp, fun _ w' hw' => ?_⟩
    obtain rfl := Except.ok.inj hw'
    exact ⟨rfl, rfl⟩
  by_cases hneg : length ≤ 0 ∨ srcStart < 0
  · have hrun : ∀ grants, stringAppend src dst srcStart length (w.withGrants grants) =
        .ok (w.withGrants grants) := by
      intro grants
      simp only [stringAppend, World.withGrants, hs, hd, hb, if_pos hneg]
    refine iff_of_true (hstop hrun) fun _ _ hp => ?_
    obtain ⟨hlen, hs0, -⟩ := hp
    omega
  have hsum := sum_of_passes (a := srcStart) (n := length) hr (by omega) (by omega) his.2 hil.2
  by_cases hfit : s.length < toUInt64 (toInt32 (srcStart + length))
  · have hrun : ∀ grants, stringAppend src dst srcStart length (w.withGrants grants) =
        .ok (w.withGrants grants) := by
      intro grants
      simp only [stringAppend, World.withGrants, hs, hd, hb, if_neg hneg, if_pos hfit]
    refine iff_of_true (hstop hrun) fun hle hlt _ => ?_
    have := hsum.mpr ⟨hle, hlt⟩
    omega
  · have hrun : ∀ grants, stringAppend src dst srcStart length (w.withGrants grants) =
        stringCopy dst (some (.block b s.length)) (toInt32 s.length) srcStart length
          (toInt32 d.length) (w.withGrants grants) := by
      intro grants
      simp only [stringAppend, World.withGrants, hs, hd, hb, if_neg hneg, if_neg hfit]
    obtain ⟨hle, hlt⟩ := hsum.mp (by omega)
    have hcopy := stringCopy_range (toInt32 s.length) hv hd hc
      (.block b s.length) his hil (toInt32_isInt32 d.length)
    simp only [hrun]
    refine hcopy.trans ⟨fun h _ _ hp => (h hp).2.2, fun h hp => ⟨hle, hlt.le, h hle hlt hp⟩⟩

end copy

/-- `string_substring` never leaves the string, and out of range it answers NULL. -/
theorem stringSubstring_range {out : ℕ} {index length : ℤ} (hv : w.Valid) (hs : w.str x = some s)
    (hb : s.content = some b) (hout : w.str out = none) (hi : IsInt32 index)
    (hl : IsInt32 length) :
    stringSubstring out x index length w ≠ .error .outOfBounds ∧
      (¬RangeInside index length s.length →
        stringSubstring out x index length w = .ok (false, w)) := by
  obtain ⟨bytes, -, hr⟩ := hv.held hs hb
  by_cases hp : SubstringPasses s index length
  · obtain ⟨h0, hl0, hpass⟩ := id hp
    obtain ⟨hle, hlt⟩ := (sum_of_passes hr h0 hl0 hi.2 hl.2).mp hpass
    refine ⟨?_, fun hnot => absurd ⟨h0, hl0, hle⟩ hnot⟩
    rcases stringSubstring_inside hv hs hout hp hi hl hle hlt.le with
      ⟨ok, w', hrun, -⟩ | ⟨-, hrun⟩
    all_goals
      rw [hrun]
      simp
  · rw [stringSubstring_stopped hs hp]
    exact ⟨by simp, fun _ => rfl⟩

/-! Reading: the comparison and the two searches. -/

theorem equalLoop_inside (s1 s2 : Source) (start : ℤ) (left i : ℕ)
    (h : ∀ k, i ≤ k → k < i + left → (0 ≤ toInt32 (start + k) ∧ toInt32 (start + k) < s1.len) ∧
      (k : ℤ) < s2.len) :
    ∃ r, equalLoop s1 s2 start w left i = .ok r := by
  induction left generalizing i with
  | zero => exact ⟨true, rfl⟩
  | succ left ih =>
    obtain ⟨⟨h0, h1⟩, h2⟩ := h i (le_refl i) (by omega)
    simp only [equalLoop, Source.read_inside h0 h1, Source.read_inside (Int.natCast_nonneg i) h2,
      bind, Except.bind]
    split_ifs
    · exact ⟨false, rfl⟩
    · exact ih _ fun k hk hk' => h k (by omega) (by omega)

/-- `string_equal_part` never leaves the string, and out of range it answers false. -/
theorem stringEqualPart_range {s1Start s2Length : ℤ} (hv : w.Valid) (hs : w.str x = some s)
    (hb : s.content = some b) (s2 : Source) (hlen : s2Length ≤ s2.len) (hi : IsInt32 s1Start)
    (hl : IsInt32 s2Length) :
    stringEqualPart x s1Start (some s2) s2Length w ≠ .error .outOfBounds ∧
      (¬RangeInside s1Start s2Length s.length →
        stringEqualPart x s1Start (some s2) s2Length w = .ok false) := by
  obtain ⟨bytes, -, hr⟩ := hv.held hs hb
  simp only [stringEqualPart, hs, hb]
  unfold IsInt32 at hi hl
  by_cases hneg : s1Start < 0 ∨ s2Length < 0
  · rw [if_pos hneg]
    exact ⟨by simp, fun _ => rfl⟩
  rw [if_neg hneg]
  have hsum := sum_of_passes (a := s1Start) (n := s2Length) hr (by omega) (by omega) hi.2 hl.2
  by_cases hfit : s.length < toUInt64 (toInt32 (s1Start + s2Length))
  · rw [if_pos hfit]
    exact ⟨by simp, fun _ => rfl⟩
  rw [if_neg hfit]
  obtain ⟨hle, hlt⟩ := hsum.mp (by omega)
  refine ⟨?_, fun hnot => absurd ⟨by omega, by omega, hle⟩ hnot⟩
  obtain ⟨r, hrun⟩ := equalLoop_inside (.block b s.length) s2 s1Start s2Length.toNat 0
    (w := w) (by
      intro k _ hk
      have hread : s1Start + (k : ℤ) < (Source.block b s.length).len := by
        change s1Start + (k : ℤ) < s.length
        omega
      rw [toInt32_eq ⟨by omega, by omega⟩]
      exact ⟨⟨by omega, hread⟩, by omega⟩)
  rw [hrun]
  simp

/-- The cut end lies in the string, unless it is negative. -/
theorem searchEnd_le (hr : s.Rep bytes) {posStart posLength : ℤ} (h0 : 0 ≤ posStart)
    (hl0 : 0 ≤ posLength) (hi : IsInt32 posStart) (hl : IsInt32 posLength) :
    s.searchEnd posStart posLength < 2 ^ 31 ∧ s.searchEnd posStart posLength ≤ s.length ∧
      (s.searchEnd posStart posLength < 0 → ∃ k : ℤ, 1 ≤ k ∧
        s.searchEnd posStart posLength + k * 2 ^ 32 = s.length) := by
  have hlen : s.length < 2 ^ 48 := by
    have := hr.room
    have := hr.bound
    have := hr.length_le
    have : maxBlock < 2 ^ 48 := by decide
    omega
  unfold IsInt32 at hi hl
  unfold StringX.searchEnd
  have hlong : toInt32 (s.length : ℤ) < 2 ^ 31 ∧ toInt32 (s.length : ℤ) ≤ s.length ∧
      (toInt32 (s.length : ℤ) < 0 →
        ∃ k : ℤ, 1 ≤ k ∧ toInt32 (s.length : ℤ) + k * 2 ^ 32 = s.length) := by
    unfold toInt32
    refine ⟨by omega, by omega, fun hneg => ⟨(s.length + 2 ^ 31) / 2 ^ 32, by omega, by omega⟩⟩
  have hsum := sum_of_passes (a := posStart) (n := posLength) hr h0 hl0 hi.2 hl.2
  dsimp only
  split_ifs with hcut
  · exact hlong
  · obtain ⟨hle, hlt⟩ := hsum.mp (by omega)
    rw [toInt32_eq ⟨by omega, hlt⟩]
    exact ⟨hlt, hle, fun hneg => by omega⟩

/-- A search over `[pos, pos + n)` of a string of `len` characters touches nothing else, and out
of range it looks only at the part inside: what it finds is there, and if `here` holds nowhere
in that part it answers -1. -/
def SearchUnharmed (pos n len : ℤ) (width : ℤ) (here : ℕ → Prop) (r : Run ℤ) : Prop :=
  r ≠ .error .outOfBounds ∧
    (¬RangeInside pos n len →
      (∀ p, r = .ok p → p = -1 ∨ (pos ≤ p ∧ p + width ≤ len ∧ here p.toNat)) ∧
        ((∀ i : ℕ, pos ≤ i → i + width ≤ len → ¬here i) → r = .ok (-1)))

theorem indexofLoop_spec {str : Source} (token : UInt8) {left : ℕ} {i : ℤ} (h0 : 0 ≤ i)
    (hin : i + left ≤ str.len) :
    indexofLoop str token w left i = .ok (-1) ∨
      ∃ p : ℤ, i ≤ p ∧ p + 1 ≤ i + left ∧ str.byte w p.toNat = token ∧
        indexofLoop str token w left i = .ok p := by
  induction left generalizing i with
  | zero => exact Or.inl rfl
  | succ left ih =>
    simp only [indexofLoop, Source.read_inside h0 (show i < str.len by omega), bind, Except.bind]
    split_ifs with hv
    · exact Or.inr ⟨i, le_refl i, by omega, hv, rfl⟩
    · rcases ih (i := i + 1) (by omega) (by omega) with hn | ⟨p, hp0, hp1, hpb, hp⟩
      · exact Or.inl hn
      · exact Or.inr ⟨p, by omega, by omega, hpb, hp⟩

theorem stringIndexof_range {posStart posLength : ℤ} (hv : w.Valid) (hs : w.str x = some s)
    (hb : s.content = some b) (token : UInt8) (hi : IsInt32 posStart) (hl : IsInt32 posLength) :
    SearchUnharmed posStart posLength s.length 1
      (fun i => (Source.block b s.length).byte w i = token)
      (stringIndexof x token posStart posLength w) := by
  obtain ⟨bytes, -, hr⟩ := hv.held hs hb
  simp only [stringIndexof, hs, hb]
  by_cases hneg : posStart < 0 ∨ posLength < 0
  · rw [if_pos hneg]
    exact ⟨by simp, fun _ => ⟨fun p hp => Or.inl (Except.ok.inj hp).symm, fun _ => rfl⟩⟩
  rw [if_neg hneg]
  obtain ⟨-, hend, -⟩ := searchEnd_le hr (by omega) (by omega) hi hl
  by_cases hempty : s.searchEnd posStart posLength ≤ posStart
  · have hzero : (s.searchEnd posStart posLength - posStart).toNat = 0 := by omega
    rw [hzero]
    refine ⟨by simp [indexofLoop], fun _ => ⟨fun p hp => Or.inl ?_, fun _ => rfl⟩⟩
    exact (Except.ok.inj hp).symm
  have hlen : posStart + ((s.searchEnd posStart posLength - posStart).toNat : ℤ) ≤
      (Source.block b s.length).len := by
    change posStart + ((s.searchEnd posStart posLength - posStart).toNat : ℤ) ≤ s.length
    omega
  rcases indexofLoop_spec token (w := w) (by omega) hlen with
    hn | ⟨p, hp0, hp1, hpb, hp⟩
  · rw [hn]
    exact ⟨by simp, fun _ => ⟨fun p hp => Or.inl (Except.ok.inj hp).symm, fun _ => rfl⟩⟩
  · rw [hp]
    refine ⟨by simp, fun _ => ⟨fun q hq => ?_, fun hnone => ?_⟩⟩
    · obtain rfl := Except.ok.inj hq
      exact Or.inr ⟨hp0, by omega, hpb⟩
    · exact absurd hpb (hnone p.toNat (by omega) (by omega))

section indexofs
variable {str tokens : Source} {length stop : ℤ}

theorem memcmpEqual_inside {n : ℕ} {i : ℤ} (h0 : 0 ≤ i) (h1 : i + n ≤ str.len)
    (h2 : n ≤ tokens.len) :
    memcmpEqual str tokens n i w = .ok (decide (str.Matches tokens n w i.toNat)) :=
  if_pos ⟨h0, h1, h2⟩

/-- Until its test fails, the loop has only compared positions inside, and stops at the first
match. `go` bounds what the test lets through. -/
theorem indexofsLoop_inside {fuel : ℕ} {i : ℤ} (hlen : 0 < length) (htok : length ≤ tokens.len)
    (hl : IsInt32 length) (h0 : 0 ≤ i) (hi : i < 2 ^ 31) (hfuel : 2 ^ 31 < i + fuel)
    (hgo : ∀ k : ℤ, i ≤ k → k < 2 ^ 31 → toInt32 (k + length) ≤ stop →
      (∀ j : ℤ, i ≤ j → j < k → toInt32 (j + length) ≤ stop ∧
        ¬str.Matches tokens length.toNat w j.toNat) → k + length ≤ str.len)
    (htop : (∀ j : ℤ, i ≤ j → j < 2 ^ 31 → toInt32 (j + length) ≤ stop ∧
      ¬str.Matches tokens length.toNat w j.toNat) → stop < length - 2 ^ 31) :
    (indexofsLoop str tokens length stop w fuel i = .ok (-1)) ∨
      ∃ p : ℤ, i ≤ p ∧ p + length ≤ str.len ∧ str.Matches tokens length.toNat w p.toNat ∧
        indexofsLoop str tokens length stop w fuel i = .ok p := by
  have hn : toUInt64 length = length.toNat := by
    unfold IsInt32 at hl
    unfold toUInt64
    omega
  induction fuel generalizing i with
  | zero => omega
  | succ fuel ih =>
    rw [indexofsLoop]
    by_cases htest : toInt32 (i + length) ≤ stop
    swap
    · exact Or.inl (if_neg htest)
    have hin := hgo i (le_refl i) hi htest fun j hj hji => by omega
    rw [if_pos htest, hn, memcmpEqual_inside h0 (by omega) (by omega)]
    simp only [bind, Except.bind]
    by_cases hmatch : str.Matches tokens length.toNat w i.toNat
    · refine Or.inr ⟨i, le_refl i, hin, hmatch, ?_⟩
      simp [hmatch]
    simp only [hmatch, decide_false, Bool.false_eq_true, if_false]
    by_cases hlast : i + 1 < 2 ^ 31
    · rw [toInt32_eq ⟨by omega, hlast⟩]
      rcases ih (by omega) hlast (by omega)
        (fun k hk hk31 hkt hno => hgo k (by omega) hk31 hkt fun j hj hjk => by
          rcases eq_or_lt_of_le hj with rfl | hj
          · exact ⟨htest, hmatch⟩
          · exact hno j (by omega) hjk)
        (fun hall => htop fun j hj hj31 => by
          rcases eq_or_lt_of_le hj with rfl | hj
          · exact ⟨htest, hmatch⟩
          · exact hall j (by omega) hj31) with hnone | ⟨p, hp0, hp1, hpm, hp⟩
      · exact Or.inl hnone
      · exact Or.inr ⟨p, by omega, hp1, hpm, hp⟩
    · -- the index wraps; the test has to fail there
      have hstop := htop fun j hj hj31 => by
        obtain rfl : j = i := by omega
        exact ⟨htest, hmatch⟩
      obtain ⟨fuel, rfl⟩ : ∃ k, fuel = k + 1 := ⟨fuel - 1, by omega⟩
      rw [toInt32_wrapped (by omega) (by omega), indexofsLoop, if_neg]
      · exact Or.inl rfl
      · unfold IsInt32 at hl
        rw [toInt32_eq ⟨by omega, by omega⟩]
        omega

/-- With no match on the way and a test that always passes, the loop runs off the string. -/
theorem indexofsLoop_outside {fuel : ℕ} {i : ℤ} (hl : IsInt32 length) (h0 : 0 ≤ i)
    (hi : i < 2 ^ 31) (hfuel : 2 ^ 31 < i + fuel) (hlen : 0 < length)
    (hgo : ∀ k : ℤ, i ≤ k → k < 2 ^ 31 → toInt32 (k + length) ≤ stop)
    (hno : ∀ k : ℤ, i ≤ k → k < 2 ^ 31 → k + length ≤ str.len →
      ¬str.Matches tokens length.toNat w k.toNat)
    (htop : length - 2 ^ 31 ≤ stop) :
    indexofsLoop str tokens length stop w fuel i = .error .outOfBounds := by
  have hn : toUInt64 length = length.toNat := by
    unfold IsInt32 at hl
    unfold toUInt64
    omega
  induction fuel generalizing i with
  | zero => omega
  | succ fuel ih =>
    rw [indexofsLoop, if_pos (hgo i (le_refl i) hi), hn]
    by_cases hin : 0 ≤ i ∧ i + length.toNat ≤ str.len ∧ length.toNat ≤ tokens.len
    swap
    · rw [memcmpEqual, if_neg hin]
      rfl
    have hmatch := hno i (le_refl i) hi (by omega)
    rw [memcmpEqual_inside hin.1 hin.2.1 hin.2.2]
    simp only [bind, Except.bind, hmatch, decide_false, Bool.false_eq_true, if_false]
    by_cases hlast : i + 1 < 2 ^ 31
    · rw [toInt32_eq ⟨by omega, hlast⟩]
      exact ih (by omega) hlast (by omega) (fun k hk => hgo k (by omega))
        fun k hk => hno k (by omega)
    · obtain ⟨fuel, rfl⟩ : ∃ k, fuel = k + 1 := ⟨fuel - 1, by omega⟩
      have hpass : toInt32 (i + 1 - 2 ^ 32 + length) ≤ stop := by
        unfold IsInt32 at hl
        rw [toInt32_eq ⟨by omega, by omega⟩]
        omega
      rw [toInt32_wrapped (by omega) (by omega), indexofsLoop, if_pos hpass, memcmpEqual,
        if_neg (by omega)]
      rfl

end indexofs

/-- The loop of `string_indexofs` ends inside the string: its test `i + length <= end` fails before
the sum or the index wraps, or the tokens are found. -/
def IndexofsEnds (s : StringX) (str tokens : Source) (w : World)
    (length posStart posLength : ℤ) : Prop :=
  (posStart + length < 2 ^ 31 ∧ s.searchEnd posStart posLength < 2 ^ 31 - 1) ∨
    (2 ^ 31 ≤ posStart + length ∧ s.searchEnd posStart posLength < length - 2 ^ 31) ∨
    ∃ i : ℕ, posStart ≤ i ∧ i < 2 ^ 31 ∧ i + length ≤ s.length ∧
      str.Matches tokens length.toNat w i

theorem stringIndexofs_ends {length posStart posLength : ℤ} (hv : w.Valid)
    (hs : w.str x = some s) (hb : s.content = some b) (tokens : Source)
    (htok : tokens.len = length) (hlen : 0 < length) (h0 : 0 ≤ posStart) (hl0 : 0 ≤ posLength)
    (hl : IsInt32 length) (hi : IsInt32 posStart) (hpl : IsInt32 posLength) :
    SearchUnharmed posStart posLength s.length length
        ((Source.block b s.length).Matches tokens length.toNat w)
        (stringIndexofs x (some tokens) length posStart posLength w) ↔
      IndexofsEnds s (.block b s.length) tokens w length posStart posLength := by
  unfold IndexofsEnds
  obtain ⟨bytes, -, hr⟩ := hv.held hs hb
  obtain ⟨hend31, hend, hwrap⟩ := searchEnd_le hr h0 hl0 hi hpl
  set stop := s.searchEnd posStart posLength with hstop
  set str : Source := .block b s.length with hstr
  have hstrlen : str.len = s.length := rfl
  have hrun : stringIndexofs x (some tokens) length posStart posLength w =
      indexofsLoop str tokens length stop w (2 ^ 32) posStart := by
    simp only [stringIndexofs, hs, hb,
      if_neg (show ¬(length ≤ 0 ∨ posStart < 0 ∨ posLength < 0) by omega)]
    rfl
  have hi' : posStart < 2 ^ 31 := hi.2
  have hl' : length < 2 ^ 31 := hl.2
  rw [hrun]
  constructor
  · rintro ⟨hsafe, -⟩
    by_contra hcond
    simp only [not_or, not_and, not_lt, not_exists] at hcond
    obtain ⟨hA, hB, hC⟩ := hcond
    refine hsafe (indexofsLoop_outside hl h0 hi' (by norm_num; omega) hlen ?_ ?_ ?_)
    · intro k hk hk31
      have := toInt32_isInt32 (k + length)
      unfold IsInt32 at this
      by_cases hsum : posStart + length < 2 ^ 31
      · have := hA hsum
        omega
      · rw [toInt32_wrapped (by omega) (by omega)]
        have := hB (by omega)
        omega
    · intro k hk hk31 hin
      have := hC k.toNat (by omega) (by omega) (by rw [hstrlen] at hin; omega)
      exact this
    · by_cases hsum : posStart + length < 2 ^ 31
      · have := hA hsum
        omega
      · exact hB (by omega)
  · intro hcond
    have hloop : indexofsLoop str tokens length stop w (2 ^ 32) posStart = .ok (-1) ∨
        ∃ p : ℤ, posStart ≤ p ∧ p + length ≤ str.len ∧
          str.Matches tokens length.toNat w p.toNat ∧
          indexofsLoop str tokens length stop w (2 ^ 32) posStart = .ok p := by
      refine indexofsLoop_inside hlen htok.ge hl h0 hi' (by norm_num; omega) ?_ ?_
      · intro k hk hk31 htest hno
        rw [hstrlen]
        rcases hcond with ⟨hsum, hmax⟩ | ⟨hsum, hmax⟩ | ⟨m, hm0, hm31, hmin, hmatch⟩
        · by_cases htop : k + length < 2 ^ 31
          · rw [toInt32_eq ⟨by omega, htop⟩] at htest
            omega
          · have := (hno (2 ^ 31 - 1 - length) (by omega) (by omega)).1
            rw [toInt32_eq ⟨by omega, by omega⟩] at this
            omega
        · rw [toInt32_wrapped (by omega) (by omega)] at htest
          obtain ⟨q, hq, hqe⟩ := hwrap (by omega)
          omega
        · by_contra hout
          exact (hno m hm0 (by omega)).2 (by simpa using hmatch)
      · intro hall
        rcases hcond with ⟨hsum, hmax⟩ | ⟨-, hmax⟩ | ⟨m, hm0, hm31, hmin, hmatch⟩
        · have := (hall (2 ^ 31 - 1 - length) (by omega) (by omega)).1
          rw [toInt32_eq ⟨by omega, by omega⟩] at this
          omega
        · exact hmax
        · exact absurd (by simpa using hmatch) (hall m hm0 (by omega)).2
    rcases hloop with hn | ⟨p, hp0, hp1, hpm, hp⟩
    · rw [hn]
      exact ⟨by simp, fun _ => ⟨fun p hp => Or.inl (Except.ok.inj hp).symm, fun _ => rfl⟩⟩
    · rw [hp]
      refine ⟨by simp, fun _ => ⟨fun q hq => ?_, fun hnone => ?_⟩⟩
      · obtain rfl := Except.ok.inj hq
        exact Or.inr ⟨hp0, hp1, hpm⟩
      · exact absurd hpm (hnone p.toNat (by omega) (by rw [hstrlen] at hp1; omega))

theorem stringIndexofs_range {length posStart posLength : ℤ} (hv : w.Valid)
    (hs : w.str x = some s) (hb : s.content = some b) (tokens : Source)
    (htok : tokens.len = length) (hl : IsInt32 length) (hi : IsInt32 posStart)
    (hpl : IsInt32 posLength) :
    SearchUnharmed posStart posLength s.length length
        ((Source.block b s.length).Matches tokens length.toNat w)
        (stringIndexofs x (some tokens) length posStart posLength w) ↔
      (0 < length → 0 ≤ posStart → 0 ≤ posLength →
        IndexofsEnds s (.block b s.length) tokens w length posStart posLength) := by
  by_cases hneg : length ≤ 0 ∨ posStart < 0 ∨ posLength < 0
  · have hrun : stringIndexofs x (some tokens) length posStart posLength w = .ok (-1) := by
      simp only [stringIndexofs, hs, hb, if_pos hneg]
    rw [hrun]
    refine iff_of_true ⟨by simp, fun _ => ⟨fun p hp => Or.inl (Except.ok.inj hp).symm,
      fun _ => rfl⟩⟩ fun hlen h0 hl0 => ?_
    omega
  · have hpos : 0 < length ∧ 0 ≤ posStart ∧ 0 ≤ posLength := by omega
    rw [stringIndexofs_ends hv hs hb tokens htok hpos.1 hpos.2.1 hpos.2.2 hl hi hpl]
    exact ⟨fun h _ _ _ => h, fun h => h hpos.1 hpos.2.1 hpos.2.2⟩

/-- The out-of-range contract of the eight operations, for strings `x` and `y` with a `Content` and
any int arguments. The four copies and `string_indexofs` meet it under a condition on the
arguments, `string_substring`, `string_equal_part` and `string_indexof` always. -/
theorem stringX_out_of_range {y : ℕ} {d : StringX} {c : ℕ} (hv : w.Valid)
    (hs : w.str x = some s) (hb : s.content = some b) (hd : w.str y = some d)
    (hc : d.content = some c) :
    (∀ (content : Content) (contLength srcStart length dstStart : ℤ), IsInt32 contLength →
      IsInt32 srcStart → IsInt32 length → IsInt32 dstStart →
      ((∀ grants, CopyUnharmed srcStart length contLength (w.withGrants grants)
          (stringCopy y (some (content.source contLength)) contLength srcStart length dstStart
            (w.withGrants grants))) ↔
        (CopyPasses contLength srcStart length dstStart →
          srcStart + length ≤ contLength ∧ dstStart + length ≤ 2 ^ 31))) ∧
    (∀ srcStart length dstStart : ℤ, IsInt32 srcStart → IsInt32 length → IsInt32 dstStart →
      ((∀ grants, CopyUnharmed srcStart length s.length (w.withGrants grants)
          (stringCopys x y srcStart length dstStart (w.withGrants grants))) ↔
        (CopyPasses (toInt32 s.length) srcStart length dstStart →
          srcStart + length ≤ s.length ∧ srcStart + length ≤ 2 ^ 31 ∧
            dstStart + length ≤ 2 ^ 31))) ∧
    (∀ srcStart length : ℤ, IsInt32 srcStart → IsInt32 length →
      ((∀ grants, CopyUnharmed srcStart length s.length (w.withGrants grants)
          (stringAppend x y srcStart length (w.withGrants grants))) ↔
        (srcStart + length ≤ s.length → srcStart + length < 2 ^ 31 →
          CopyPasses (toInt32 s.length) srcStart length (toInt32 d.length) →
            toInt32 d.length + length ≤ 2 ^ 31))) ∧
    (∀ (content : Content) (conLength srcStart srcLength : ℤ), IsInt32 conLength →
      IsInt32 srcStart → IsInt32 srcLength →
      ((∀ grants, CopyUnharmed srcStart srcLength conLength (w.withGrants grants)
          (stringAppends y (some (content.source conLength)) conLength srcStart srcLength
            (w.withGrants grants))) ↔
        (CopyPasses conLength srcStart srcLength (toInt32 d.length) →
          srcStart + srcLength ≤ conLength ∧ toInt32 d.length + srcLength ≤ 2 ^ 31))) ∧
    (∀ (out : ℕ) (index length : ℤ), w.str out = none → IsInt32 index → IsInt32 length →
      stringSubstring out x index length w ≠ .error .outOfBounds ∧
        (¬RangeInside index length s.length →
          stringSubstring out x index length w = .ok (false, w))) ∧
    (∀ (s2 : Content) (s1Start s2Length : ℤ), IsInt32 s1Start → IsInt32 s2Length →
      stringEqualPart x s1Start (some (s2.source s2Length)) s2Length w ≠ .error .outOfBounds ∧
        (¬RangeInside s1Start s2Length s.length →
          stringEqualPart x s1Start (some (s2.source s2Length)) s2Length w = .ok false)) ∧
    (∀ (token : UInt8) (posStart posLength : ℤ), IsInt32 posStart → IsInt32 posLength →
      SearchUnharmed posStart posLength s.length 1
        (fun i => (Source.block b s.length).byte w i = token)
        (stringIndexof x token posStart posLength w)) ∧
    ∀ (tokens : Content) (length posStart posLength : ℤ), IsInt32 length → IsInt32 posStart →
      IsInt32 posLength →
      (SearchUnharmed posStart posLength s.length length
          ((Source.block b s.length).Matches (tokens.source length) length.toNat w)
          (stringIndexofs x (some (tokens.source length)) length posStart posLength w) ↔
        (0 < length → 0 ≤ posStart → 0 ≤ posLength →
          IndexofsEnds s (.block b s.length) (tokens.source length) w length posStart
            posLength)) := by
  have hlen : ∀ (content : Content) (n : ℤ), (content.source n).len = n := by
    intro content n
    cases content <;> rfl
  refine ⟨?_, ?_, ?_, ?_, ?_, ?_, ?_, ?_⟩
  · intro content contLength srcStart length dstStart hic his hil hid
    have h := stringCopy_range contLength hv hd hc (content.source contLength)
      his hil hid
    rw [hlen] at h
    refine h.trans (forall_congr' fun _ => ?_)
    have := hic.2
    omega
  · intro srcStart length dstStart his hil hid
    exact stringCopys_range hv hs hb hd hc his hil hid
  · intro srcStart length his hil
    exact stringAppend_range hv hs hb hd hc his hil
  · intro content conLength srcStart srcLength hic his hil
    have h := stringAppends_range conLength hv hd hc (content.source conLength)
      his hil
    rw [hlen] at h
    refine h.trans (forall_congr' fun _ => ?_)
    have := hic.2
    omega
  · intro out index length hout hi hl
    exact stringSubstring_range hv hs hb hout hi hl
  · intro s2 s1Start s2Length hi hl
    exact stringEqualPart_range hv hs hb _ (hlen s2 s2Length).ge hi hl
  · intro token posStart posLength hi hl
    exact stringIndexof_range hv hs hb token hi hl
  · intro tokens length posStart posLength hl hi hpl
    exact stringIndexofs_range hv hs hb _ (hlen tokens length) hl hi hpl

def Run.isOutOfBounds : Run World → Bool
  | .error .outOfBounds => true
  | _ => false

/-- A fresh string, and a copy of one character from position 2^31 - 1 of one. -/
theorem emptyString_copy :
    ∃ w : World, w.Valid ∧ w.str 0 = some ⟨true, 50, 0, some 7⟩ ∧ w.str 1 = none ∧
      stringCopy 0 (some ((Content.caller fun _ => 97).source 1)) 1 (2 ^ 31 - 1) 1 0
        (w.withGrants []) = .error .outOfBounds := by
  have hout : (stringRuns.execWhen (fun w l => l.1.SumsFit w) noStrings
      [(.init 0, [some (7, List.replicate 51 1)])]).map (fun w => (w.str 0, w.str 1,
        (stringCopy 0 (some ((Content.caller fun _ => 97).source 1)) 1 (2 ^ 31 - 1) 1 0
          (w.withGrants [])).isOutOfBounds)) = some (some ⟨true, 50, 0, some 7⟩, none, true) := by
    decide +kernel
  obtain ⟨w, hrun, hw⟩ := Option.map_eq_some_iff.mp hout
  obtain ⟨hstr, hw⟩ := Prod.mk.inj hw
  obtain ⟨hnone, hfault⟩ := Prod.mk.inj hw
  refine ⟨w, (stringRuns_valid (.exec (.init ⟨fun _ => rfl, rfl⟩) hrun)).1, hstr, hnone, ?_⟩
  cases hr : stringCopy 0 (some ((Content.caller fun _ => 97).source 1)) 1 (2 ^ 31 - 1) 1 0
      (w.withGrants []) with
  | ok w' => rw [hr] at hfault; cases hfault
  | error e => cases e <;> first | rfl | (rw [hr] at hfault; cases hfault)

/-- Ranges that go past the end: five bytes from position 2 of three, and a substring of an empty
string. -/
theorem stringX_out_of_range_refused :
    ∃ w : World, w.str 0 = some ⟨true, 50, 0, some 7⟩ ∧
      (∀ grants, CopyUnharmed 2 5 3 (w.withGrants grants)
        (stringCopy 0 (some ((Content.caller fun _ => 97).source 3)) 3 2 5 0
          (w.withGrants grants))) ∧
      stringSubstring 1 0 0 1 w = .ok (false, w) := by
  obtain ⟨w, hv, hs, hnone, -⟩ := emptyString_copy
  obtain ⟨hcopy, -, -, -, hsubstring, -⟩ := stringX_out_of_range hv hs rfl hs rfl
  refine ⟨w, hs, ?_, ?_⟩
  · apply (hcopy (.caller fun _ => 97) 3 2 5 0 (by decide) (by decide) (by decide)
      (by decide)).mpr
    rintro ⟨-, -, -, hpass⟩
    exact absurd hpass (by decide)
  · exact (hsubstring 1 0 1 hnone (by decide) (by decide)).2 fun hin => absurd hin.2.2 (by decide)

/-- The check `src_start + length > cont_length` wraps and lets the read through. -/
theorem stringCopy_wrapped_read :
    ¬∀ (w : World) (x b : ℕ) (s : StringX), w.Valid → w.str x = some s → s.content = some b →
      ∀ (content : Content) (contLength srcStart length dstStart : ℤ), IsInt32 contLength →
        IsInt32 srcStart → IsInt32 length → IsInt32 dstStart →
        ∀ grants, CopyUnharmed srcStart length contLength (w.withGrants grants)
          (stringCopy x (some (content.source contLength)) contLength srcStart length dstStart
            (w.withGrants grants)) := by
  intro hall
  obtain ⟨w, hv, hs, -, hfault⟩ := emptyString_copy
  exact (hall w 0 7 _ hv hs rfl (.caller fun _ => 97) 1 (2 ^ 31 - 1) 1 0 (by decide) (by decide)
    (by decide) (by decide) []).1 hfault

end Xplatbase.Strings
