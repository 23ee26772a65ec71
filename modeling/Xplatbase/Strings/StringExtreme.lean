import Xplatbase.Lib.Extreme
import Xplatbase.Strings.StringSplit

/-! The searches of `StringX` answer the first or the last position at which the token begins in
the text, in the window or in the whole string, and those over a token array the extreme of the
tokens' answers. -/
namespace Xplatbase.Strings
open Xplatbase.Lib

variable {w : World} {x b : ℕ} {s : StringX} {bytes d : List UInt8} {tokens : Source}

theorem searchEnd_eq (hlen : s.length < 2 ^ 31) {posStart posLength : ℤ} (h0 : 0 ≤ posStart)
    (hstart : posStart ≤ s.length) (hl0 : 0 ≤ posLength) (hl : posLength < 2 ^ 31) :
    s.searchEnd posStart posLength = min (posStart + posLength) s.length := by
  have hnat : toInt32 (s.length : ℤ) = s.length := toInt32_nat hlen
  unfold StringX.searchEnd
  dsimp only
  by_cases hsum : posStart + posLength < 2 ^ 31
  · rw [toInt32_eq ⟨by omega, hsum⟩]
    have hcast := toUInt64_eq (x := posStart + posLength) (by omega) (by omega)
    split_ifs with hcut
    · rw [hnat]
      omega
    · omega
  · have hwrap := toInt32_wrapped (x := posStart + posLength) (by omega) (by omega)
    have hcut : s.length < toUInt64 (toInt32 (posStart + posLength)) := by
      rw [hwrap]
      unfold toUInt64
      omega
    rw [if_pos hcut, hnat]
    omega

section loops
variable (hheld : w.Held x s b bytes) (hrep : s.Rep bytes)
include hheld hrep

theorem read_text {i : ℕ} (hi : i < s.length) :
    ∃ v, (Source.block b s.length).read i w = .ok v ∧ (splitText s bytes)[i]? = some v := by
  refine ⟨_, ?_, splitText_byte hheld hrep hi⟩
  exact Source.read_inside (Int.natCast_nonneg i) (by change (i : ℤ) < s.length; omega) w

theorem indexofLoop_first (token : UInt8) (left : ℕ) {i : ℕ} (hin : i + left ≤ s.length) :
    ∃ r, indexofLoop (.block b s.length) token w left i = .ok r ∧
      FirstOf (fun p => i ≤ p ∧ p < i + left ∧ [token] <+: (splitText s bytes).drop p) r := by
  induction left generalizing i with
  | zero =>
    refine ⟨-1, rfl, ExtremeOf.none ?_⟩
    intro p hp
    omega
  | succ left ih =>
    obtain ⟨v, hread, hbyte⟩ := read_text hheld hrep (i := i) (by omega)
    simp only [indexofLoop, hread, bind, Except.bind]
    by_cases hv : v = token
    · rw [if_pos hv]
      refine ⟨i, rfl, ExtremeOf.some ⟨le_refl i, by omega, ?_⟩ fun q hq => hq.1⟩
      rw [singleton_begins, hbyte, hv]
    · rw [if_neg hv]
      obtain ⟨r, hrun, hr⟩ := ih (i := i + 1) (by omega)
      rw [Nat.cast_add, Nat.cast_one] at hrun
      refine ⟨r, hrun, hr.congr fun p => ?_⟩
      constructor
      · rintro ⟨hip, hpl, hp⟩
        exact ⟨by omega, by omega, hp⟩
      · rintro ⟨hip, hpl, hp⟩
        have hne : p ≠ i := by
          rintro rfl
          rw [singleton_begins, hbyte] at hp
          exact hv (Option.some.inj hp)
        exact ⟨by omega, by omega, hp⟩

omit hheld in
/-- `memcmp` inside the string tells whether the token begins there. -/
theorem memcmpEqual_text (ht : tokens.Holds w d) {i : ℕ} (hi : i + d.length ≤ s.length) :
    memcmpEqual (.block b s.length) tokens (toUInt64 d.length) i w =
      .ok (decide ((Source.block b s.length).Matches tokens d.length w i)) := by
  have hlen : toUInt64 (d.length : ℤ) = d.length := by
    have hroom := hrep.room
    have hbound := hrep.bound
    have hle := hrep.length_le
    have hmax : maxBlock < 2 ^ 48 := by decide
    unfold toUInt64
    omega
  rw [hlen]
  have hsize := ht.size
  exact memcmpEqual_inside (Int.natCast_nonneg i) (by change (i : ℤ) + d.length ≤ s.length; omega)
    (by omega)

theorem indexofsLoop_first (ht : tokens.Holds w d) (hd : d ≠ []) (stop : ℤ) (fuel : ℕ) {i : ℕ}
    (hstop : stop ≤ s.length) (hfits : s.length + d.length < 2 ^ 31) (hi : i ≤ s.length)
    (hfuel : stop < i + fuel) (hpos : 0 < fuel) :
    ∃ r, indexofsLoop (.block b s.length) tokens d.length stop w fuel i = .ok r ∧
      FirstOf (fun p => i ≤ p ∧ (p : ℤ) + d.length ≤ stop ∧ d <+: (splitText s bytes).drop p)
        r := by
  have hlen := List.length_pos_of_ne_nil hd
  induction fuel generalizing i with
  | zero => omega
  | succ fuel ih =>
    rw [indexofsLoop, toInt32_add (by omega)]
    by_cases hpass : ((i + d.length : ℕ) : ℤ) ≤ stop
    · rw [if_pos hpass, memcmpEqual_text hrep ht (by omega)]
      simp only [bind, Except.bind]
      have hiff := matches_iff_begins ht hheld hrep (i := i) (by omega)
      by_cases hm : (Source.block b s.length).Matches tokens d.length w i
      · refine ⟨i, ?_, ExtremeOf.some ⟨le_refl i, by omega, hiff.mp hm⟩ fun q hq => hq.1⟩
        rw [decide_eq_true hm]
        rfl
      · rw [decide_eq_false hm, toInt32_succ (by omega)]
        obtain ⟨r, hrun, hr⟩ := ih (i := i + 1) (by omega) (by omega) (by omega)
        refine ⟨r, hrun, hr.congr fun p => ?_⟩
        constructor
        · rintro ⟨hip, hps, hp⟩
          exact ⟨by omega, hps, hp⟩
        · rintro ⟨hip, hps, hp⟩
          have hne : p ≠ i := by
            rintro rfl
            exact hm (hiff.mpr hp)
          exact ⟨by omega, hps, hp⟩
    · rw [if_neg hpass]
      refine ⟨-1, rfl, ExtremeOf.none ?_⟩
      intro p hp
      omega

theorem indexEndLoop_last (token : UInt8) {n : ℕ} (hn : n ≤ s.length) :
    ∃ r, indexEndLoop (.block b s.length) token w n = .ok r ∧
      LastOf (fun p => p < n ∧ [token] <+: (splitText s bytes).drop p) r := by
  induction n with
  | zero =>
    refine ⟨-1, rfl, ExtremeOf.none ?_⟩
    intro p hp
    exact Nat.not_lt_zero p hp.1
  | succ n ih =>
    obtain ⟨v, hread, hbyte⟩ := read_text hheld hrep (i := n) (by omega)
    simp only [indexEndLoop, hread, bind, Except.bind]
    by_cases hv : v = token
    · rw [if_pos hv]
      refine ⟨n, rfl, ExtremeOf.some ⟨Nat.lt_succ_self n, ?_⟩ fun q hq => Nat.le_of_lt_succ hq.1⟩
      rw [singleton_begins, hbyte, hv]
    · rw [if_neg hv]
      obtain ⟨r, hrun, hr⟩ := ih (by omega)
      refine ⟨r, hrun, hr.congr fun p => ?_⟩
      constructor
      · rintro ⟨hpn, hp⟩
        exact ⟨by omega, hp⟩
      · rintro ⟨hpn, hp⟩
        have hne : p ≠ n := by
          rintro rfl
          rw [singleton_begins, hbyte] at hp
          exact hv (Option.some.inj hp)
        exact ⟨by omega, hp⟩

theorem indexEndsLoop_last (ht : tokens.Holds w d) {n : ℕ}
    (hn : 0 < n → n + d.length ≤ s.length + 1) :
    ∃ r, indexEndsLoop (.block b s.length) tokens d.length w n = .ok r ∧
      LastOf (fun p => p < n ∧ d <+: (splitText s bytes).drop p) r := by
  induction n with
  | zero =>
    refine ⟨-1, rfl, ExtremeOf.none ?_⟩
    intro p hp
    exact Nat.not_lt_zero p hp.1
  | succ n ih =>
    have hin : n + d.length ≤ s.length := by
      have hn' := hn (Nat.succ_pos n)
      omega
    simp only [indexEndsLoop, memcmpEqual_text hrep ht hin, bind, Except.bind]
    have hiff := matches_iff_begins ht hheld hrep hin
    by_cases hm : (Source.block b s.length).Matches tokens d.length w n
    · refine ⟨n, ?_, ExtremeOf.some ⟨Nat.lt_succ_self n, hiff.mp hm⟩
        fun q hq => Nat.le_of_lt_succ hq.1⟩
      rw [decide_eq_true hm]
      rfl
    · rw [decide_eq_false hm]
      obtain ⟨r, hrun, hr⟩ := ih (by omega)
      refine ⟨r, hrun, hr.congr fun p => ?_⟩
      constructor
      · rintro ⟨hpn, hp⟩
        exact ⟨by omega, hp⟩
      · rintro ⟨hpn, hp⟩
        have hne : p ≠ n := by
          rintro rfl
          exact hm (hiff.mpr hp)
        exact ⟨by omega, hp⟩

end loops

/-- The loop over the tokens keeps the extreme of the answers. -/
theorem stopLoop_extreme {R : ℕ → ℕ → Prop} {one : List UInt8 → Run ℤ} {better : ℤ → ℤ → Bool}
    {P : List UInt8 → ℕ → Prop} {arr : List (List UInt8)} (hsize : arr.length < 2 ^ 31)
    (hone : ∀ d ∈ arr, ∃ r, one d = .ok r ∧ ExtremeOf R (P d) r)
    (hor : ∀ {A B : ℕ → Prop} {r r' : ℤ}, ExtremeOf R A r → ExtremeOf R B r' →
      ExtremeOf R (fun p => A p ∨ B p) (if better r' r then r' else r))
    {fuel t : ℕ} (ht : t ≤ arr.length) (hfuel : arr.length < t + fuel) {best : ℤ}
    (hbest : ExtremeOf R (fun p => ∃ d ∈ arr.take t, P d p) best) :
    ∃ r, stopLoop one better arr fuel t best = .ok r ∧
      ExtremeOf R (fun p => ∃ d ∈ arr, P d p) r := by
  induction fuel generalizing t best with
  | zero => omega
  | succ fuel ih =>
    rw [stopLoop, if_neg (by omega), Int.toNat_natCast]
    by_cases hend : t < arr.length
    · obtain ⟨r, hrun, hr⟩ := hone arr[t] (List.getElem_mem hend)
      simp only [List.getElem?_eq_getElem hend, hrun, bind, Except.bind]
      rw [toInt32_succ (by omega)]
      apply ih (by omega) (by omega)
      apply (hor hbest hr).congr
      intro p
      rw [← List.take_concat_get' arr t hend]
      simp only [List.mem_append, List.mem_singleton, or_and_right, exists_or, exists_eq_left]
    · obtain rfl : t = arr.length := by omega
      rw [List.getElem?_eq_none (le_refl _)]
      rw [List.take_length] at hbest
      exact ⟨best, rfl, hbest⟩

/-- With more tokens than an `int` counts, the index wraps and the loop leaves the array. -/
theorem stopLoop_giant {one : List UInt8 → Run ℤ} {better : ℤ → ℤ → Bool}
    {arr : List (List UInt8)} (hsize : 2 ^ 31 ≤ arr.length)
    (hone : ∀ d ∈ arr, ∃ r, one d = .ok r) {fuel t : ℕ} (ht : t < 2 ^ 31)
    (hfuel : 2 ^ 31 < t + fuel) (best : ℤ) :
    stopLoop one better arr fuel t best = .error .outOfBounds := by
  induction fuel generalizing t best with
  | zero => omega
  | succ fuel ih =>
    have hlt : t < arr.length := by omega
    obtain ⟨r, hrun⟩ := hone arr[t] (List.getElem_mem hlt)
    rw [stopLoop, if_neg (by omega), Int.toNat_natCast]
    simp only [List.getElem?_eq_getElem hlt, hrun, bind, Except.bind]
    by_cases hlast : t + 1 < 2 ^ 31
    · rw [toInt32_succ hlast]
      exact ih hlast (by omega) _
    · obtain ⟨fuel, rfl⟩ : ∃ k, fuel = k + 1 := ⟨fuel - 1, by omega⟩
      rw [toInt32_wrapped (by omega) (by omega), stopLoop, if_pos (by omega)]

section search
variable {text : List UInt8}

/-- A string is without a block and empty, or its text is in its block. -/
theorem World.Valid.text_cases (hv : w.Valid) (hs : w.str x = some s) (ht : w.text x = some text) :
    (s.content = none ∧ text = []) ∨
      ∃ b bytes, s.content = some b ∧ w.Held x s b bytes ∧ s.Rep bytes ∧
        text = splitText s bytes := by
  cases hb : s.content with
  | none =>
    left
    simp only [World.text, hs, hb, Option.bind_some, Option.some.injEq] at ht
    exact ⟨rfl, ht.symm⟩
  | some b =>
    right
    obtain ⟨bytes, hheld, hrep⟩ := hv.held hs hb
    rw [hheld.text] at ht
    exact ⟨b, bytes, rfl, hheld, hrep, (Option.some.inj ht).symm⟩

theorem not_begins_nil (hd : d ≠ []) (p : ℕ) : ¬d <+: ([] : List UInt8).drop p := by
  rw [List.drop_nil, List.prefix_nil]
  exact hd

theorem begins_lt {p : ℕ} (hd : d ≠ []) (h : d <+: text.drop p) :
    p + d.length ≤ text.length := by
  have hlen := h.length_le
  have hpos := List.length_pos_of_ne_nil hd
  rw [List.length_drop] at hlen
  omega

theorem stringIndexof_first (hv : w.Valid) (hs : w.str x = some s) (ht : w.text x = some text)
    (token : UInt8) (hfits : s.length + 1 < 2 ^ 31) {posStart posLength : ℤ} (h0 : 0 ≤ posStart)
    (hstart : posStart ≤ s.length) (hl0 : 0 ≤ posLength) (hl : posLength < 2 ^ 31) :
    ∃ r, stringIndexof x token posStart posLength w = .ok r ∧
      FirstOf (fun p => posStart ≤ p ∧ (p : ℤ) + 1 ≤ min (posStart + posLength) s.length ∧
        [token] <+: text.drop p) r := by
  have hneg : ¬(posStart < 0 ∨ posLength < 0) := by omega
  rcases hv.text_cases hs ht with ⟨hb, rfl⟩ | ⟨b, bytes, hb, hheld, hrep, rfl⟩
  · refine ⟨-1, by simp only [stringIndexof, hs, hb], ExtremeOf.none ?_⟩
    intro p hp
    exact not_begins_nil (List.cons_ne_nil token []) p hp.2.2
  · simp only [stringIndexof, hs, hb, if_neg hneg,
      searchEnd_eq (by omega) h0 hstart hl0 hl]
    obtain ⟨i, rfl⟩ := Int.eq_ofNat_of_zero_le h0
    obtain ⟨r, hrun, hr⟩ := indexofLoop_first hheld hrep token
      (min ((i : ℤ) + posLength) s.length - i).toNat (i := i) (by omega)
    refine ⟨r, hrun, hr.congr fun p => ?_⟩
    constructor
    · rintro ⟨hip, hpl, hp⟩
      exact ⟨by omega, by omega, hp⟩
    · rintro ⟨hip, hpl, hp⟩
      exact ⟨by omega, by omega, hp⟩

theorem stringIndexofs_first (hv : w.Valid) (hs : w.str x = some s) (ht : w.text x = some text)
    (htok : tokens.Holds w d) (hd : d ≠ []) (hfits : s.length + d.length < 2 ^ 31)
    {posStart posLength : ℤ} (h0 : 0 ≤ posStart) (hstart : posStart ≤ s.length)
    (hl0 : 0 ≤ posLength) (hl : posLength < 2 ^ 31) :
    ∃ r, stringIndexofs x (some tokens) d.length posStart posLength w = .ok r ∧
      FirstOf (fun p => posStart ≤ p ∧
        (p : ℤ) + d.length ≤ min (posStart + posLength) s.length ∧ d <+: text.drop p) r := by
  have hlen := List.length_pos_of_ne_nil hd
  have hneg : ¬((d.length : ℤ) ≤ 0 ∨ posStart < 0 ∨ posLength < 0) := by omega
  rcases hv.text_cases hs ht with ⟨hb, rfl⟩ | ⟨b, bytes, hb, hheld, hrep, rfl⟩
  · refine ⟨-1, by simp only [stringIndexofs, hs, hb], ExtremeOf.none ?_⟩
    intro p hp
    exact not_begins_nil hd p hp.2.2
  · simp only [stringIndexofs, hs, hb, if_neg hneg, searchEnd_eq (by omega) h0 hstart hl0 hl]
    obtain ⟨i, rfl⟩ := Int.eq_ofNat_of_zero_le h0
    obtain ⟨r, hrun, hr⟩ := indexofsLoop_first hheld hrep htok hd
      (min ((i : ℤ) + posLength) s.length) (2 ^ 32) (i := i) (by omega) hfits (by omega)
      (by omega) (by omega)
    refine ⟨r, hrun, hr.congr fun p => ?_⟩
    constructor
    · rintro ⟨hip, hpl, hp⟩
      exact ⟨by omega, hpl, hp⟩
    · rintro ⟨hip, hpl, hp⟩
      exact ⟨by omega, hpl, hp⟩

theorem stringIndexEnd_last (hv : w.Valid) (hs : w.str x = some s) (ht : w.text x = some text)
    (token : UInt8) (hfits : s.length + 1 < 2 ^ 31) :
    ∃ r, stringIndexEnd x token w = .ok r ∧ LastOf (fun p => [token] <+: text.drop p) r := by
  rcases hv.text_cases hs ht with ⟨hb, rfl⟩ | ⟨b, bytes, hb, hheld, hrep, rfl⟩
  · refine ⟨-1, by simp only [stringIndexEnd, hs, hb], ExtremeOf.none ?_⟩
    exact not_begins_nil (List.cons_ne_nil token [])
  · have hstart : (toInt32 (toInt32 s.length - 1) + 1).toNat = s.length := by
      rw [toInt32_nat (by omega), toInt32_eq ⟨by omega, by omega⟩]
      omega
    simp only [stringIndexEnd, hs, hb, hstart]
    obtain ⟨r, hrun, hr⟩ := indexEndLoop_last hheld hrep token (le_refl s.length)
    refine ⟨r, hrun, hr.congr fun p => ⟨And.right, fun hp => ⟨?_, hp⟩⟩⟩
    have hlt := begins_lt (List.cons_ne_nil token []) hp
    rw [hrep.text_length, List.length_singleton] at hlt
    exact hlt

theorem stringIndexEnds_last (hv : w.Valid) (hs : w.str x = some s) (ht : w.text x = some text)
    (htok : tokens.Holds w d) (hd : d ≠ []) (hfits : s.length + d.length < 2 ^ 31) :
    ∃ r, stringIndexEnds x (some tokens) d.length w = .ok r ∧
      LastOf (fun p => d <+: text.drop p) r := by
  have hlen := List.length_pos_of_ne_nil hd
  have hneg : ¬(d.length : ℤ) ≤ 0 := by omega
  rcases hv.text_cases hs ht with ⟨hb, rfl⟩ | ⟨b, bytes, hb, hheld, hrep, rfl⟩
  · refine ⟨-1, by simp only [stringIndexEnds, hs, hb], ExtremeOf.none ?_⟩
    exact not_begins_nil hd
  · have hstart : (toInt32 (toInt32 s.length - d.length) + 1).toNat =
        s.length + 1 - d.length := by
      rw [toInt32_nat (by omega), toInt32_eq ⟨by omega, by omega⟩]
      omega
    simp only [stringIndexEnds, hs, hb, if_neg hneg, hstart]
    obtain ⟨r, hrun, hr⟩ := indexEndsLoop_last hheld hrep htok (n := s.length + 1 - d.length)
      (by omega)
    refine ⟨r, hrun, hr.congr fun p => ⟨And.right, fun hp => ⟨?_, hp⟩⟩⟩
    have hlt := begins_lt hd hp
    rw [hrep.text_length] at hlt
    omega

theorem cString_holds (d : List UInt8) (w : World) : (cString d).Holds w d where
  size := by
    change (d.length : ℤ) ≤ d.length + 1
    omega
  byte := fun _ _ => rfl
  backed := nofun

theorem stringStopRigthToken_first (hv : w.Valid) (hs : w.str x = some s)
    (ht : w.text x = some text) (hfits : s.length + d.length < 2 ^ 31) :
    ∃ r, stringStopRigthToken x (some d) w = .ok r ∧
      FirstOf (fun p => d ≠ [] ∧ d <+: text.drop p) r := by
  unfold stringStopRigthToken
  rw [hs]
  dsimp only
  rw [toInt32_nat (by omega), toInt32_nat (by omega)]
  by_cases hd : d = []
  · have hempty := List.length_eq_zero_iff.mpr hd
    rw [if_pos (by omega)]
    exact ⟨-1, rfl, ExtremeOf.none fun p hp => hp.1 hd⟩
  · have hlen := List.length_pos_of_ne_nil hd
    rw [if_neg (by omega)]
    obtain ⟨r, hrun, hr⟩ := stringIndexofs_first hv hs ht (cString_holds d w) hd hfits
      (le_refl 0) (Int.natCast_nonneg _) (Int.natCast_nonneg s.length) (by omega)
    refine ⟨r, hrun, hr.congr fun p => ⟨fun hp => ⟨hd, hp.2.2⟩, fun hp => ⟨?_, ?_, hp.2⟩⟩⟩
    · omega
    · have hlt := begins_lt hd hp.2
      obtain ⟨l, hl, hlen'⟩ := hv.length_text hs
      rw [ht] at hl
      obtain rfl := Option.some.inj hl
      omega

theorem stringStopLeftToken_last (hv : w.Valid) (hs : w.str x = some s)
    (ht : w.text x = some text) (hfits : s.length + d.length < 2 ^ 31) :
    ∃ r, stringStopLeftToken x (some d) w = .ok r ∧
      LastOf (fun p => d ≠ [] ∧ d <+: text.drop p) r := by
  unfold stringStopLeftToken
  rw [hs]
  dsimp only
  rw [toInt32_nat (by omega)]
  by_cases hd : d = []
  · have hempty := List.length_eq_zero_iff.mpr hd
    rw [if_pos (by omega)]
    exact ⟨-1, rfl, ExtremeOf.none fun p hp => hp.1 hd⟩
  · have hlen := List.length_pos_of_ne_nil hd
    rw [if_neg (by omega)]
    obtain ⟨r, hrun, hr⟩ := stringIndexEnds_last hv hs ht (cString_holds d w) hd hfits
    exact ⟨r, hrun, hr.congr fun p => ⟨fun hp => ⟨hd, hp⟩, And.right⟩⟩

theorem stringStopTokens_extreme (hv : w.Valid) (hs : w.str x = some s)
    (ht : w.text x = some text) {arr : List (List UInt8)} (hsize : arr.length < 2 ^ 31)
    (hfits : ∀ d ∈ arr, s.length + d.length < 2 ^ 31) :
    (∃ r, stringStopRigthTokens x (some arr) w = .ok r ∧
      FirstOf (fun p => ∃ d ∈ arr, d ≠ [] ∧ d <+: text.drop p) r) ∧
      ∃ r, stringStopLeftTokens x (some arr) w = .ok r ∧
        LastOf (fun p => ∃ d ∈ arr, d ≠ [] ∧ d <+: text.drop p) r := by
  have hstart : ∀ R : ℕ → ℕ → Prop, ExtremeOf R
      (fun p => ∃ d ∈ arr.take 0, d ≠ [] ∧ d <+: text.drop p) (-1) := by
    intro R
    apply ExtremeOf.none
    rintro p ⟨d, hd, -⟩
    exact absurd hd List.not_mem_nil
  constructor
  · simp only [stringStopRigthTokens, hs]
    apply stopLoop_extreme hsize _ _ (Nat.zero_le _) (by omega) (hstart _)
    · intro d hd
      exact stringStopRigthToken_first hv hs ht (hfits d hd)
    · intro A B r r' hA hB
      have h := FirstOf.or hA hB
      unfold FirstOf at h
      simpa only [Bool.and_eq_true, Bool.or_eq_true, decide_eq_true_eq] using h
  · simp only [stringStopLeftTokens, hs]
    apply stopLoop_extreme hsize _ _ (Nat.zero_le _) (by omega) (hstart _)
    · intro d hd
      exact stringStopLeftToken_last hv hs ht (hfits d hd)
    · intro A B r r' hA hB
      have h := LastOf.or hA hB
      unfold LastOf at h
      simpa only [decide_eq_true_eq] using h

/-- Every search answers the extreme position of a match: of a byte, of a token that is not empty,
and over an array of tokens. -/
theorem stringSearch_extreme (hv : w.Valid) (hs : w.str x = some s) (ht : w.text x = some text) :
    (s.length + 1 < 2 ^ 31 → ∀ token : UInt8,
      (∀ posStart posLength : ℤ, 0 ≤ posStart → posStart ≤ s.length → 0 ≤ posLength →
        posLength < 2 ^ 31 → ∃ r, stringIndexof x token posStart posLength w = .ok r ∧
          FirstOf (fun p => posStart ≤ p ∧ (p : ℤ) + 1 ≤ min (posStart + posLength) s.length ∧
            [token] <+: text.drop p) r) ∧
      ∃ r, stringIndexEnd x token w = .ok r ∧ LastOf (fun p => [token] <+: text.drop p) r) ∧
    (∀ (tokens : Source) (d : List UInt8), tokens.Holds w d → d ≠ [] →
      s.length + d.length < 2 ^ 31 →
      (∀ posStart posLength : ℤ, 0 ≤ posStart → posStart ≤ s.length → 0 ≤ posLength →
        posLength < 2 ^ 31 →
        ∃ r, stringIndexofs x (some tokens) d.length posStart posLength w = .ok r ∧
          FirstOf (fun p => posStart ≤ p ∧
            (p : ℤ) + d.length ≤ min (posStart + posLength) s.length ∧ d <+: text.drop p) r) ∧
      ∃ r, stringIndexEnds x (some tokens) d.length w = .ok r ∧
        LastOf (fun p => d <+: text.drop p) r) ∧
    ∀ arr : List (List UInt8), arr.length < 2 ^ 31 →
      (∀ d ∈ arr, s.length + d.length < 2 ^ 31) →
      (∃ r, stringStopRigthTokens x (some arr) w = .ok r ∧
        FirstOf (fun p => ∃ d ∈ arr, d ≠ [] ∧ d <+: text.drop p) r) ∧
      ∃ r, stringStopLeftTokens x (some arr) w = .ok r ∧
        LastOf (fun p => ∃ d ∈ arr, d ≠ [] ∧ d <+: text.drop p) r := by
  refine ⟨fun hfits token => ⟨?_, ?_⟩, fun tokens d htok hd hfits => ⟨?_, ?_⟩, ?_⟩
  · intro posStart posLength h0 hstart hl0 hl
    exact stringIndexof_first hv hs ht token hfits h0 hstart hl0 hl
  · exact stringIndexEnd_last hv hs ht token hfits
  · intro posStart posLength h0 hstart hl0 hl
    exact stringIndexofs_first hv hs ht htok hd hfits h0 hstart hl0 hl
  · exact stringIndexEnds_last hv hs ht htok hd hfits
  · intro arr hsize hfits
    exact stringStopTokens_extreme hv hs ht hsize hfits

end search

/-- A string with the text "ab", which two calls build. -/
theorem pair_reachable :
    ∃ (w : World) (s : StringX), w.Valid ∧ w.str 0 = some s ∧ w.text 0 = some [97, 98] ∧
      s.length = 2 := by
  have hout : (stringRuns.execWhen (fun w l => l.1.SumsFit w) noStrings
      [(.init 0, [some (7, List.replicate 51 1)]),
        (.appends 0 (some (.caller fun i => UInt8.ofNat (97 + i))) 2 0 2, [])]).map
      (fun w => (w.text 0, (w.str 0).map (·.length))) = some (some [97, 98], some 2) := by
    decide +kernel
  obtain ⟨w, hrun, hw⟩ := Option.map_eq_some_iff.mp hout
  have hreach : stringRuns.ReachableWhen (fun w l => l.1.SumsFit w) w :=
    .exec (.init ⟨fun _ => rfl, rfl⟩) hrun
  obtain ⟨htext, hlen⟩ := Prod.mk.inj hw
  obtain ⟨s, hs, hlen⟩ := Option.map_eq_some_iff.mp hlen
  exact ⟨w, s, (stringRuns_valid hreach).1, hs, htext, hlen⟩

theorem stringSearch_extreme_pair :
    ∃ w : World, w.text 0 = some [97, 98] ∧
      (∃ r, stringIndexof 0 98 1 5 w = .ok r ∧
        FirstOf (fun p => 1 ≤ (p : ℤ) ∧ (p : ℤ) + 1 ≤ min (1 + 5) (2 : ℕ) ∧
          [(98 : UInt8)] <+: [97, 98].drop p) r) ∧
      (∃ r, stringIndexEnds 0 (some (cString [97])) ([97] : List UInt8).length w = .ok r ∧
        LastOf (fun p => [(97 : UInt8)] <+: [97, 98].drop p) r) ∧
      ∃ r, stringStopRigthTokens 0 (some [[98], [97, 98]]) w = .ok r ∧
        FirstOf (fun p => ∃ d ∈ [[98], [(97 : UInt8), 98]], d ≠ [] ∧ d <+: [97, 98].drop p) r := by
  obtain ⟨w, s, hv, hs, ht, hlen⟩ := pair_reachable
  obtain ⟨hbyte, htoken, harray⟩ := stringSearch_extreme hv hs ht
  rw [hlen] at hbyte htoken harray
  refine ⟨w, ht, ?_, ?_, ?_⟩
  · have hwindow := (hbyte (by decide) 98).1 1 5
    exact hwindow (by decide) (by decide) (by decide) (by decide)
  · exact (htoken _ _ (cString_holds [97] w) (List.cons_ne_nil 97 []) (by decide)).2
  · have hall := harray [[98], [97, 98]] (by decide) (by decide)
    exact hall.1

/-- The empty token begins at every position, and the searches answer that it is absent; in an
array of 2^31 tokens the index wraps. -/
theorem stringSearch_extreme_not :
    ∃ (w : World) (s : StringX), w.Valid ∧ w.str 0 = some s ∧ w.text 0 = some [97, 98] ∧
      (cString []).Holds w [] ∧
      stringIndexofs 0 (some (cString [])) 0 0 2 w = .ok (-1) ∧
      ¬FirstOf (fun p => (0 : ℤ) ≤ p ∧ (p : ℤ) + 0 ≤ min (0 + 2) s.length ∧
        [] <+: [(97 : UInt8), 98].drop p) (-1) ∧
      stringStopRigthTokens 0 (some (List.replicate (2 ^ 31) [97])) w = .error .outOfBounds := by
  obtain ⟨w, s, hv, hs, ht, hlen⟩ := pair_reachable
  refine ⟨w, s, hv, hs, ht, cString_holds [] w, ?_, ?_, ?_⟩
  · unfold stringIndexofs
    rw [hs]
    cases hb : s.content with
    | none => simp only [hb]
    | some b => simp only [hb, le_refl, true_or, if_true]
  · intro hfirst
    apply hfirst.eq_neg_one_iff.mp rfl 0
    rw [hlen]
    exact ⟨le_refl _, by decide, List.nil_prefix⟩
  · have hone : ∀ d ∈ List.replicate (2 ^ 31) [(97 : UInt8)],
        ∃ r, stringStopRigthToken 0 (some d) w = .ok r := by
      intro d hd
      rw [List.eq_of_mem_replicate hd]
      have hfits : s.length + [(97 : UInt8)].length < 2 ^ 31 := by
        rw [hlen]
        decide
      obtain ⟨r, hrun, -⟩ := stringStopRigthToken_first hv hs ht hfits
      exact ⟨r, hrun⟩
    unfold stringStopRigthTokens
    rw [hs]
    exact stopLoop_giant (List.length_replicate.symm.le) hone (t := 0) (by omega) (by omega) (-1)

end Xplatbase.Strings
