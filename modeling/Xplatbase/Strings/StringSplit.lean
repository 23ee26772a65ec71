import Xplatbase.Lib.Split
import Xplatbase.Strings.StringPieces
import Xplatbase.Strings.StringSearch

/-! `string_split` and `string_splits` cut a string at the leftmost non-overlapping occurrences of
the delimiter, as long as the test `i + length <= n` of the second does not wrap. -/
namespace Xplatbase.Strings
open Xplatbase.Lib

/-- One segment into the list; the new strings are at `out 0`, `out 1`, … and `k` of them are
there. -/
def splitPiece (list x : ℕ) (out : ℕ → ℕ) (start length : ℤ) (k : ℕ) (w : World) :
    Run (ℕ × World) := do
  let (ok, w) ← stringSubstring (out k) x start length w
  if ok then do
    let (_, w) ← listAdd list (out k) 32 w
    .ok (k + 1, w)
  else .ok (k, w)

/-- `for (i = 0; i <= n; i++)`, at most `fuel` passes. -/
def splitLoop (list x : ℕ) (out : ℕ → ℕ) (str : Source) (token : UInt8) (n : ℤ) :
    ℕ → ℤ → ℤ → ℕ → World → Run World
  | 0, _, _, _, _ => .error .endless
  | fuel + 1, i, start, k, w =>
    if i ≤ n then do
      let cut ← if i = n then .ok true else (str.read i w).map fun v => decide (v = token)
      if cut then do
        let (k, w) ← splitPiece list x out start (toInt32 (i - start)) k w
        splitLoop list x out str token n fuel (toInt32 (i + 1)) (toInt32 (i + 1)) k w
      else splitLoop list x out str token n fuel (toInt32 (i + 1)) start k w
    else .ok w

/-- `true` stands for the new list, at `list`; `node` is the memory for its struct. -/
def stringSplit (x : ℕ) (token : UInt8) (list : ℕ) (node : Option ListX) (out : ℕ → ℕ)
    (w : World) : Run (Bool × World) :=
  match w.str x with
  | none => .ok (false, w)
  | some s =>
    match s.content with
    | none => .ok (false, w)
    | some b => do
      let (ok, w) ← listCreate list (-1) 32 node w
      if ok then do
        let w ← splitLoop list x out (.block b s.length) token (toInt32 s.length) (2 ^ 32) 0 0 0 w
        .ok (true, w)
      else .ok (false, w)

/-- `while (i + length <= n)`, at most `fuel` passes; `start` and `k` are left for the tail. -/
def splitsLoop (list x : ℕ) (out : ℕ → ℕ) (str tokens : Source) (length n : ℤ) :
    ℕ → ℤ → ℤ → ℕ → World → Run ((ℤ × ℕ) × World)
  | 0, _, _, _, _ => .error .endless
  | fuel + 1, i, start, k, w =>
    if toInt32 (i + length) ≤ n then do
      let found ← memcmpEqual str tokens (toUInt64 length) i w
      if found then do
        let (k, w) ← splitPiece list x out start (toInt32 (i - start)) k w
        splitsLoop list x out str tokens length n fuel (toInt32 (i + length))
          (toInt32 (i + length)) k w
      else splitsLoop list x out str tokens length n fuel (toInt32 (i + 1)) start k w
    else .ok ((start, k), w)

def stringSplits (x : ℕ) (tokens : Option Source) (length : ℤ) (list : ℕ) (node : Option ListX)
    (out : ℕ → ℕ) (w : World) : Run (Bool × World) :=
  match w.str x, tokens with
  | some s, some tokens =>
    match s.content with
    | none => .ok (false, w)
    | some b =>
      if length ≤ 0 then .ok (false, w)
      else do
        let (ok, w) ← listCreate list (-1) 32 node w
        if ok then do
          let n := toInt32 s.length
          let ((start, k), w) ←
            splitsLoop list x out (.block b s.length) tokens length n (2 ^ 32) 0 0 0 w
          let (_, w) ← splitPiece list x out start (toInt32 (n - start)) k w
          .ok (true, w)
        else .ok (false, w)
  | _, _ => .ok (false, w)

/-- `d` is what `tokens` holds, in the caller's memory or in a live block. -/
structure Source.Holds (tokens : Source) (w : World) (d : List UInt8) : Prop where
  size : d.length ≤ tokens.len
  byte : ∀ k < d.length, tokens.byte w k = d.getD k 0
  backed : ∀ b len, tokens = .block b len → w.blocks.live b ≠ none

/-! ### The state between two segments -/

variable {w0 w : World} {list x b k : ℕ} {out : ℕ → ℕ} {s : StringX} {bytes : List UInt8}
  {segs : List (List UInt8)}

/-- `entries` are the first `k` of the new strings; beyond what is copied whole, some are lost. -/
structure SplitEntries (w0 : World) (out : ℕ → ℕ) (k : ℕ) (entries : List ℕ) : Prop where
  length : entries.length = k
  whole : k ≤ copiedLimit → entries = (List.range k).map out
  lost : copiedLimit < k → w0.MappedZeroed → 0 ∈ entries

/-- The segments so far are in the list, or an event has told of a failure. -/
structure Splitting (w0 : World) (list : ℕ) (out : ℕ → ℕ) (segs : List (List UInt8)) (k : ℕ)
    (w : World) : Prop where
  valid : w.Valid
  others : ∀ y, (∀ j, out j ≠ y) → w.str y = w0.str y
  kept : LiveKept w0 w
  cut : (w.reports = w0.reports ∧ k = segs.length ∧ (w0.MappedZeroed → w.MappedZeroed) ∧
      (∃ entries, GrowingList w list entries ∧ SplitEntries w0 out k entries) ∧
        ∀ j < k, w.text (out j) = segs[j]?) ∨
    (w0.reports.length < w.reports.length ∧
      (BarrenList w list ∨ ∃ entries, entries.length ≤ segs.length ∧ GrowingList w list entries))

structure SplitSource (w0 : World) (x : ℕ) (out : ℕ → ℕ) (s : StringX) (b : ℕ)
    (bytes : List UInt8) : Prop where
  str : w0.str x = some s
  content : s.content = some b
  live : w0.blocks.live b = some bytes
  small : s.length < 2 ^ 31 - 1
  inj : Function.Injective out
  apart : ∀ j, out j ≠ x

theorem Splitting.held (h : Splitting w0 list out segs k w)
    (hsrc : SplitSource w0 x out s b bytes) :
    w.Held x s b bytes ∧ s.Rep bytes := by
  obtain ⟨bytes', hheld, hrep⟩ := h.valid.held ((h.others x hsrc.apart).trans hsrc.str) hsrc.content
  have hlive := h.kept b (by rw [hsrc.live]; nofun)
  rw [hheld.live, hsrc.live] at hlive
  obtain rfl := Option.some.inj hlive
  exact ⟨hheld, hrep⟩

/-- An event has told of a failure, and the strings and blocks are as before. -/
theorem Splitting.lost {w1 w2 : World} (hv : w1.Valid)
    (hothers : ∀ y, (∀ j, out j ≠ y) → w1.str y = w0.str y)
    (hkept : LiveKept w0 w1) (hstr : w2.str = w1.str)
    (hlive : w2.blocks.live = w1.blocks.live)
    (hevent : w0.reports.length < w2.reports.length) {entries : List ℕ}
    (hlen : entries.length ≤ segs.length) (hg : GrowingList w2 list entries) :
    Splitting w0 list out segs k w2 := by
  refine ⟨hv.of_same hstr hlive, ?_, ?_, .inr ⟨hevent, .inr ⟨entries, hlen, hg⟩⟩⟩
  · rw [hstr]
    exact hothers
  · apply hkept.trans
    intro c _
    rw [hlive]

theorem SplitEntries.add {entries before : List ℕ} (h : SplitEntries w0 out k entries)
    (hlen : before.length = entries.length)
    (hfew : entries.length < copiedLimit → before = entries)
    (hnull : w0.MappedZeroed → entries.length = copiedLimit ∨ 0 ∈ entries → 0 ∈ before) :
    SplitEntries w0 out (k + 1) (before ++ [out k]) := by
  have hk := h.length
  refine ⟨?_, fun hle => ?_, fun hlt hzero => ?_⟩
  · rw [List.length_append, List.length_singleton, hlen, hk]
  · rw [hfew (by omega), h.whole (by omega), List.range_succ, List.map_append]
    rfl
  · apply List.mem_append_left
    apply hnull hzero
    rcases Nat.lt_succ_iff_lt_or_eq.mp hlt with hmore | heq
    · exact .inr (h.lost hmore hzero)
    · exact .inl (by omega)

/-- One more segment: its string is made and goes to the end of the list. -/
theorem splitPiece_spec (h : Splitting w0 list out segs k w)
    (hsrc : SplitSource w0 x out s b bytes) {start : ℕ} (length : ℕ)
    (hin : start + length ≤ s.length) (hsegs : segs.length ≤ start) :
    splitPiece list x out start length k w = .error .nullDeref ∨
      ∃ k' w', splitPiece list x out start length k w = .ok (k', w') ∧
        Splitting w0 list out (segs ++ [(bytes.drop start).take length]) k' w' := by
  obtain ⟨hheld, hrep⟩ := h.held hsrc
  have hsmall := hsrc.small
  unfold splitPiece
  rcases stringSubstring_text (out k) h.valid hheld hrep hin (by omega) with
    hnull | ⟨w1, hrun, hsame⟩ | ⟨w1, hrun, hv1, htouch, hkept1, hitems1, hlist1, hrep1, htext1⟩
  · exact .inl (by rw [hnull]; rfl)
  · -- an event: the list stays as it is
    refine .inr ⟨k, w1, by rw [hrun]; rfl, ?_⟩
    refine ⟨h.valid.of_same hsame.str hsame.live, ?_, ?_, ?_⟩
    · rw [hsame.str]
      exact h.others
    · apply h.kept.trans
      intro c _
      rw [hsame.live]
    · have hmore := hsame.reports
      have hgrow := fun entries (hg : GrowingList w list entries) =>
        hg.of_same hsame.list hsame.items
      rcases h.cut with ⟨hrepk, hk, -, ⟨entries, hg, hentries⟩, -⟩ |
        ⟨hrepk, hbar | ⟨entries, hlen, hg⟩⟩
      · have hlen := hentries.length
        refine .inr ⟨by rw [← hrepk]; exact hmore, .inr ⟨_, ?_, hgrow _ hg⟩⟩
        rw [List.length_append]
        omega
      · exact .inr ⟨by omega, .inl (hbar.of_same hsame.list)⟩
      · refine .inr ⟨by omega, .inr ⟨entries, ?_, hgrow _ hg⟩⟩
        rw [List.length_append]
        omega
  · simp only [hrun, bind, Except.bind, if_true]
    have hlive1 : w1.items.live = w.items.live := congrArg Blocks.live hitems1
    have hothers1 : ∀ y, (∀ j, out j ≠ y) → w1.str y = w0.str y := by
      intro y hy
      rw [htouch.str y (hy k).symm]
      exact h.others y hy
    have hkept : LiveKept w0 w1 := h.kept.trans hkept1
    -- what `list_add` leaves once the list is known
    have hadd := fun entries (hlen : entries.length ≤ segs.length)
        (hg : GrowingList w list entries) =>
      listAdd_growing (hg.of_same hlist1 hlive1) (out k) (show entries.length < 2 ^ 31 - 1 by omega)
    rcases h.cut with ⟨hrepk, hk, hzero, ⟨entries, hg, hentries⟩, htexts⟩ |
      ⟨hrepk, hbar | ⟨entries, hlen, hg⟩⟩
    · have hlenk := hentries.length
      have hzero1 : w0.MappedZeroed → w1.MappedZeroed := by
        unfold World.MappedZeroed
        rw [hitems1]
        exact hzero
      rcases hadd entries (by omega) hg with
        hnull | ⟨w2, hrun2, hsame⟩ | ⟨w2, before, hrun2, honly, hg2, hlen2, hfew, hlost⟩
      · exact .inl (by rw [hnull])
      · have hmore : w0.reports.length < w2.reports.length := by
          rw [← hrepk, ← hrep1]
          exact hsame.reports
        refine .inr ⟨k + 1, w2, by rw [hrun2], Splitting.lost hv1 hothers1 hkept
          hsame.str hsame.live hmore ?_
          ((hg.of_same hlist1 hlive1).of_same hsame.list hsame.items)⟩
        rw [List.length_append]
        omega
      · refine .inr ⟨k + 1, w2, by rw [hrun2],
          hv1.of_same honly.str (congrArg Blocks.live honly.blocks), ?_, ?_,
          .inl ⟨?_, ?_, fun hzero => honly.mappedZeroed (hzero1 hzero), ⟨_, hg2, ?_⟩, ?_⟩⟩
        · rw [honly.str]
          exact hothers1
        · apply hkept.trans
          intro c _
          rw [honly.blocks]
        · rw [honly.reports, hrep1, hrepk]
        · rw [List.length_append, List.length_singleton, hk]
        · exact hentries.add hlen2 hfew fun hzero => hlost (hzero1 hzero)
        · intro j hj
          rw [text_of_same honly.str (congrArg Blocks.live honly.blocks)]
          rcases Nat.lt_succ_iff_lt_or_eq.mp hj with hlt | rfl
          · rw [htouch.text fun he => Nat.ne_of_lt hlt (hsrc.inj he), htexts j hlt,
              List.getElem?_append_left (by omega)]
          · rw [htext1, hk, List.getElem?_concat_length]
    · -- without a vector the store goes through a null pointer
      have hnull := listAdd_barren (hbar.of_same hlist1) (out k)
      exact .inl (by rw [hnull])
    · have hmore : w0.reports.length < w1.reports.length := by
        rw [hrep1]
        exact hrepk
      rcases hadd entries hlen hg with
        hnull | ⟨w2, hrun2, hsame⟩ | ⟨w2, before, hrun2, honly, hg2, hlen2, -⟩
      · exact .inl (by rw [hnull])
      · have hmore2 := hsame.reports
        refine .inr ⟨k + 1, w2, by rw [hrun2], Splitting.lost hv1 hothers1 hkept
          hsame.str hsame.live (by omega) ?_
          ((hg.of_same hlist1 hlive1).of_same hsame.list hsame.items)⟩
        rw [List.length_append]
        omega
      · rw [← honly.reports] at hmore
        refine .inr ⟨k + 1, w2, by rw [hrun2], Splitting.lost hv1 hothers1 hkept
          honly.str (congrArg Blocks.live honly.blocks) hmore ?_ hg2⟩
        rw [List.length_append, List.length_append, List.length_singleton, List.length_singleton]
        omega

/-! ### The two loops -/

def splitText (s : StringX) (bytes : List UInt8) : List UInt8 := bytes.take s.length

theorem StringX.Rep.text_length (hrep : s.Rep bytes) :
    (splitText s bytes).length = s.length := by
  have hroom := hrep.room
  have hle := hrep.length_le
  rw [splitText, List.length_take]
  omega

/-- What `string_substring` copies is that part of the text. -/
theorem splitText_piece {start i : ℕ} (hi : i ≤ s.length) :
    ((splitText s bytes).drop start).take (i - start) = (bytes.drop start).take (i - start) := by
  rw [splitText, List.drop_take, List.take_take]
  congr 1
  omega

theorem splitText_tail {start : ℕ} :
    (splitText s bytes).drop start = (bytes.drop start).take (s.length - start) := by
  rw [splitText, List.drop_take]

theorem splitText_byte (hheld : w.Held x s b bytes) (hrep : s.Rep bytes) {i : ℕ}
    (hi : i < s.length) :
    (splitText s bytes)[i]? = some ((Source.block b s.length).byte w i) := by
  have hroom := hrep.room
  have hle := hrep.length_le
  rw [splitText, List.getElem?_take_of_lt hi, List.getElem?_eq_getElem (by omega)]
  simp only [Source.byte, hheld.live, List.getD_eq_getElem?_getD,
    List.getElem?_eq_getElem (show i < bytes.length by omega), Option.getD_some]

theorem singleton_begins {token : UInt8} {xs : List UInt8} {i : ℕ} :
    [token] <+: xs.drop i ↔ xs[i]? = some token := by
  constructor
  · rintro ⟨r, hr⟩
    have hhead : (xs.drop i)[0]? = some token := by rw [← hr]; rfl
    rwa [List.getElem?_drop, Nat.add_zero] at hhead
  · intro h
    obtain ⟨hlt, rfl⟩ := List.getElem?_eq_some_iff.mp h
    rw [List.drop_eq_getElem_cons hlt]
    exact ⟨_, rfl⟩

/-- From any pass on, the loop of `string_split` ends with the split in the list. -/
theorem splitLoop_spec (hsrc : SplitSource w0 x out s b bytes) (token : UInt8) (fuel : ℕ)
    {i start : ℕ} (h : Splitting w0 list out segs k w)
    (hscan : Scan [token] (splitText s bytes) start i segs) (hsegs : segs.length ≤ start)
    (hfuel : s.length + 1 < i + fuel) :
    splitLoop list x out (.block b s.length) token s.length fuel i start k w =
        .error .nullDeref ∨
      ∃ segs' k' w',
        splitLoop list x out (.block b s.length) token s.length fuel i start k w = .ok w' ∧
          Splitting w0 list out segs' k' w' ∧ Split [token] (splitText s bytes) segs' := by
  induction fuel generalizing i start k w segs with
  | zero =>
    obtain ⟨-, hrep⟩ := h.held hsrc
    have hlen := hrep.text_length
    have hle := hscan.le_length
    omega
  | succ fuel ih =>
    obtain ⟨hheld, hrep⟩ := h.held hsrc
    have hlen := hrep.text_length
    have hle := hscan.le_length
    have hstart := hscan.start_le
    have hsmall := hsrc.small
    have hnext : toInt32 ((i : ℤ) + 1) = ((i + 1 : ℕ) : ℤ) := toInt32_succ (by omega)
    have hsub := toInt32_sub hstart (show i < 2 ^ 31 by omega)
    rw [splitLoop, if_pos (by omega), hnext, hsub]
    have hpiece := splitPiece_spec h hsrc (i - start) (by omega) hsegs
    by_cases hn : i = s.length
    · -- the sentinel pass
      rw [if_pos (by omega)]
      simp only [bind, Except.bind, if_true]
      rcases hpiece with hnull | ⟨k', w', hrun, hsplit⟩
      · exact .inl (by rw [hnull])
      · simp only [hrun]
        obtain ⟨fuel, rfl⟩ : ∃ f, fuel = f + 1 := ⟨fuel - 1, by omega⟩
        refine .inr ⟨_, k', w', ?_, hsplit, ?_⟩
        · rw [splitLoop, if_neg (by omega)]
        · have hfin := hscan.finish (List.cons_ne_nil _ _)
            (by rw [hlen, hn]; exact Nat.lt_succ_self _)
          rwa [splitText_tail, ← hn] at hfin
    · have hread : (Source.block b s.length).read i w =
          .ok ((Source.block b s.length).byte w i) := by
        rw [Source.read_inside (Int.natCast_nonneg i), Int.toNat_natCast]
        change (i : ℤ) < s.length
        omega
      have hbyte := splitText_byte hheld hrep (i := i) (by omega)
      rw [if_neg (by omega), hread]
      simp only [bind, Except.bind, Except.map, decide_eq_true_eq]
      by_cases hv : (Source.block b s.length).byte w i = token
      · rw [if_pos hv]
        rcases hpiece with hnull | ⟨k', w', hrun, hsplit⟩
        · exact .inl (by rw [hnull])
        · simp only [hrun]
          have hhit : [token] <+: (splitText s bytes).drop i := by
            rw [singleton_begins, hbyte, hv]
          have hscan' := hscan.hit (List.cons_ne_nil _ _) hhit
          rw [splitText_piece (by omega)] at hscan'
          apply ih hsplit hscan'
          · rw [List.length_append, List.length_singleton, List.length_singleton]
            omega
          · rw [List.length_singleton]
            omega
      · rw [if_neg hv]
        apply ih h _ hsegs (by omega)
        apply hscan.miss (by omega)
        rw [singleton_begins, hbyte, Option.some.injEq]
        exact hv

section splits
variable {tokens : Source} {d : List UInt8}

theorem Source.Holds.kept (ht : tokens.Holds w0 d) (hk : LiveKept w0 w) : tokens.Holds w d := by
  cases tokens with
  | caller get len => exact ⟨ht.size, ht.byte, nofun⟩
  | block c len =>
    have hlive := hk c (ht.backed c len rfl)
    refine ⟨ht.size, fun j hj => ?_, fun c' len' hc => ?_⟩
    · rw [← ht.byte j hj]
      have hnone := ht.backed c len rfl
      simp only [Source.byte, hlive]
      cases hc : w0.blocks.live c with
      | none => exact absurd hc hnone
      | some v => rfl
    · obtain ⟨rfl, -⟩ := Source.block.inj hc
      rw [hlive]
      exact ht.backed c len rfl

/-- `memcmp` finds the delimiter exactly where it begins in the text. -/
theorem matches_iff_begins (ht : tokens.Holds w d) (hheld : w.Held x s b bytes)
    (hrep : s.Rep bytes) {i : ℕ} (hi : i + d.length ≤ s.length) :
    (Source.block b s.length).Matches tokens d.length w i ↔ d <+: (splitText s bytes).drop i := by
  have hlen := hrep.text_length
  have hget : ∀ j < d.length,
      ((splitText s bytes).drop i)[j]? = some ((Source.block b s.length).byte w (i + j)) := by
    intro j hj
    rw [List.getElem?_drop]
    exact splitText_byte hheld hrep (by omega)
  have htok : ∀ j < d.length, d[j]? = some (tokens.byte w j) := by
    intro j hj
    rw [ht.byte j hj, List.getD_eq_getElem?_getD, List.getElem?_eq_getElem hj, Option.getD_some]
  constructor
  · intro hm
    rw [List.prefix_iff_eq_take]
    apply List.ext_getElem?
    intro j
    by_cases hj : j < d.length
    · rw [List.getElem?_take_of_lt hj, hget j hj, htok j hj, hm j hj]
    · rw [List.getElem?_eq_none (by omega), List.getElem?_eq_none]
      rw [List.length_take]
      omega
  · intro hp j hj
    have hsame : ((splitText s bytes).drop i)[j]? = d[j]? := by
      rw [List.prefix_iff_eq_take] at hp
      conv_rhs => rw [hp]
      rw [List.getElem?_take_of_lt hj]
    rw [hget j hj, htok j hj] at hsame
    exact Option.some.inj hsame

/-- Once the sum is negative the comparison starts inside the string and runs off it. -/
theorem splitsLoop_wrapped (list x b : ℕ) (out : ℕ → ℕ) (tokens : Source) (fuel start k : ℕ)
    (w : World) {i length : ℕ} (hlen : s.length < 2 ^ 31) (h31 : 2 ^ 31 ≤ i + length)
    (hl : length < 2 ^ 31) (hi : i ≤ s.length) :
    splitsLoop list x out (.block b s.length) tokens length s.length (fuel + 1) i start k w =
      .error .outOfBounds := by
  have hwrap : toInt32 ((i : ℤ) + length) = i + length - 2 ^ 32 :=
    toInt32_wrapped (by omega) (by omega)
  have hout : memcmpEqual (.block b s.length) tokens (toUInt64 length) i w =
      .error .outOfBounds := by
    apply if_neg
    change ¬(_ ∧ _ ≤ (s.length : ℤ) ∧ _)
    have h64 := toUInt64_eq (x := (length : ℤ)) (by omega) (by omega)
    omega
  rw [splitsLoop, if_pos (by omega), hout]
  rfl

theorem splitsLoop_hit (list : ℕ) (out : ℕ → ℕ) (fuel k : ℕ) (ht : tokens.Holds w d)
    (hheld : w.Held x s b bytes) (hrep : s.Rep bytes) (hlen : s.length < 2 ^ 31) {i start : ℕ}
    (hstart : start ≤ i)
    (hi : i + d.length ≤ s.length) (hhit : d <+: (splitText s bytes).drop i) :
    splitsLoop list x out (.block b s.length) tokens d.length s.length (fuel + 1) i start k w =
      (do
        let q ← splitPiece list x out start ((i - start : ℕ) : ℤ) k w
        splitsLoop list x out (.block b s.length) tokens d.length s.length fuel
          ((i + d.length : ℕ) : ℤ) ((i + d.length : ℕ) : ℤ) q.1 q.2) := by
  have h64 : toUInt64 (d.length : ℤ) = d.length := by
    unfold toUInt64
    omega
  have hmem : memcmpEqual (.block b s.length) tokens d.length i w = .ok true := by
    rw [memcmpEqual_inside (Int.natCast_nonneg i) (show _ ≤ (s.length : ℤ) by omega) ht.size,
      Int.toNat_natCast, decide_eq_true ((matches_iff_begins ht hheld hrep hi).mpr hhit)]
  rw [splitsLoop, toInt32_add (by omega), if_pos (by omega), h64, hmem,
    toInt32_sub hstart (by omega)]
  rfl

/-- From any pass on, the loop of `string_splits` either ends before the tail, or meets an
occurrence from which two lengths of the delimiter go past the last `int`. -/
theorem splitsLoop_spec (hsrc : SplitSource w0 x out s b bytes) (ht : tokens.Holds w0 d)
    (hd : d ≠ []) (fuel : ℕ) {i start : ℕ} (h : Splitting w0 list out segs k w)
    (hscan : Scan d (splitText s bytes) start i segs) (hsegs : segs.length ≤ start)
    {l : List ℕ}
    (hl : occurrences d (splitText s bytes) =
      l ++ occurrencesFrom d 0 i ((splitText s bytes).drop i))
    (hok : ∀ p ∈ l, p + 2 * d.length < 2 ^ 31) (hsum : i + d.length < 2 ^ 31)
    (hfuel : s.length + 1 < i + fuel) :
    splitsLoop list x out (.block b s.length) tokens d.length s.length fuel i start k w =
        .error .nullDeref ∨
      (splitsLoop list x out (.block b s.length) tokens d.length s.length fuel i start k w =
          .error .outOfBounds ∧
        ∃ p ∈ occurrences d (splitText s bytes), 2 ^ 31 ≤ p + 2 * d.length) ∨
      (∀ p ∈ occurrences d (splitText s bytes), p + 2 * d.length < 2 ^ 31) ∧
        ∃ (start' : ℕ) (segs' : List (List UInt8)) (k' : ℕ) (w' : World),
          splitsLoop list x out (.block b s.length) tokens d.length s.length fuel i start k w =
              .ok ((start', k'), w') ∧
            Splitting w0 list out segs' k' w' ∧ start' ≤ s.length ∧ segs'.length ≤ start' ∧
            Split d (splitText s bytes) (segs' ++ [(splitText s bytes).drop start']) := by
  have hpos := List.length_pos_iff.mpr hd
  induction fuel generalizing i start k w segs l with
  | zero =>
    obtain ⟨-, hrep⟩ := h.held hsrc
    have hlen := hrep.text_length
    have hle := hscan.le_length
    omega
  | succ fuel ih =>
    obtain ⟨hheld, hrep⟩ := h.held hsrc
    have hlen := hrep.text_length
    have hle := hscan.le_length
    have hstart := hscan.start_le
    have hsmall := hsrc.small
    have h64 : toUInt64 (d.length : ℤ) = d.length := by
      unfold toUInt64
      omega
    by_cases htest : s.length < i + d.length
    · -- no room for another occurrence
      rw [splitsLoop, toInt32_add hsum, if_neg (by omega)]
      refine .inr (.inr ⟨?_, start, segs, k, w, rfl, h, by omega, hsegs,
        hscan.finish hd (by omega)⟩)
      have hnone : occurrencesFrom d 0 i ((splitText s bytes).drop i) = [] := by
        apply occurrencesFrom_eq_nil
        intro hin
        have hshort := hin.length_le
        rw [List.length_drop] at hshort
        omega
      rw [hl, hnone, List.append_nil]
      exact hok
    · by_cases hhit : d <+: (splitText s bytes).drop i
      · rw [splitsLoop_hit list out fuel k (ht.kept h.kept) hheld hrep (by omega) hstart
          (by omega) hhit]
        rcases splitPiece_spec h hsrc (i - start) (by omega) hsegs with
          hnull | ⟨k', w', hrun, hsplit⟩
        · exact .inl (by rw [hnull]; rfl)
        · simp only [hrun, bind, Except.bind]
          have hin := hscan.mem_occurrences hd hhit
          by_cases hover : i + 2 * d.length < 2 ^ 31
          · have hscan' := hscan.hit hd hhit
            rw [splitText_piece (by omega)] at hscan'
            apply ih hsplit hscan' (l := l ++ [i])
            · rw [List.length_append, List.length_singleton]
              omega
            · rw [hl, occurrencesFrom_hit hd i hhit, List.drop_drop, List.append_assoc]
              rfl
            · intro p hp
              rcases List.mem_append.mp hp with hp | hp
              · exact hok p hp
              · rw [List.mem_singleton.mp hp]
                exact hover
            · omega
            · omega
          · obtain ⟨fuel, rfl⟩ : ∃ f, fuel = f + 1 := ⟨fuel - 1, by omega⟩
            refine .inr (.inl ⟨?_, i, hin, by omega⟩)
            exact splitsLoop_wrapped _ _ _ _ _ _ _ _ _ (by omega) (by omega) (by omega) (by omega)
      · have hmem : memcmpEqual (.block b s.length) tokens d.length i w = .ok false := by
          rw [memcmpEqual_inside (Int.natCast_nonneg i) (show _ ≤ (s.length : ℤ) by omega) ht.size,
            Int.toNat_natCast, decide_eq_false]
          exact mt (matches_iff_begins (ht.kept h.kept) hheld hrep (by omega)).mp hhit
        rw [splitsLoop, toInt32_add hsum, if_pos (by omega), h64, hmem,
          toInt32_succ (show i + 1 < 2 ^ 31 by omega)]
        have hlt : i < (splitText s bytes).length := by omega
        apply ih h (hscan.miss hlt hhit) hsegs (l := l)
        · rw [hl, occurrencesFrom_miss i hhit, List.drop_drop]
        · exact hok
        · omega
        · omega

end splits

/-! ### The lists that are returned -/

/-- No allocation failed: one that fails raises an event, or ends in a null pointer, which the
default handler reads and a list without a vector writes through. -/
def Unrefused (w : World) (r : Run (Bool × World)) : Prop :=
  r ≠ .error .nullDeref ∧ ∀ ok w', r = .ok (ok, w') → w'.reports = w.reports

/-- The run returns the list, with the strings `segs` in it. -/
def Lists (list : ℕ) (segs : List (List UInt8)) (r : Run (Bool × World)) : Prop :=
  ∃ w' l c v, r = .ok (true, w') ∧ w'.list list = some l ∧ l.items = some c ∧
    w'.items.live c = some v ∧ l.count = segs.length ∧
    (v.take l.count).map w'.text = segs.map some

/-- What a split of `text` at `d` has to be; `leftmost` says which one it is. -/
structure SplitsBy (d text : List UInt8) (segs : List (List UInt8)) : Prop where
  join : d.intercalate segs = text
  clean : ∀ seg ∈ segs, ¬d <:+: seg
  count : segs.length = (occurrences d text).length + 1
  leftmost : Split d text segs

theorem splitsBy_of_split {d text : List UInt8} (hd : d ≠ []) (h : Split d text segs) :
    SplitsBy d text segs :=
  ⟨h.intercalate, h.not_infix hd, h.length_eq hd 0, h⟩

theorem splitting_start (out : ℕ → ℕ) (hv : w.Valid) {w1 : World} (hstr : w1.str = w.str)
    (hblocks : w1.blocks = w.blocks) (hgrants : w1.items.grants ⊆ w.items.grants)
    (h : w1.reports = w.reports ∧ GrowingList w1 list [] ∨
      w.reports.length < w1.reports.length ∧ BarrenList w1 list) :
    Splitting w list out [] 0 w1 where
  valid := hv.of_same hstr (congrArg Blocks.live hblocks)
  others := by
    intro y _
    rw [hstr]
  kept := by
    intro c _
    rw [hblocks]
  cut := by
    rcases h with ⟨hrep, hg⟩ | ⟨hrep, hbar⟩
    · refine .inl ⟨hrep, rfl, fun hzero b v hmem => hzero b v (hgrants hmem),
        ⟨[], hg, rfl, fun _ => rfl, fun hlt => ?_⟩,
        fun j hj => absurd hj (Nat.not_lt_zero j)⟩
      exact absurd hlt (Nat.not_lt_zero _)
    · exact .inr ⟨hrep, .inl hbar⟩

/-- The list of the run `r` from `w` has the strings `segs`, or so many were to be in it that a part
of its vector was not copied. -/
structure ListsUpTo (w : World) (out : ℕ → ℕ) (list : ℕ) (segs : List (List UInt8))
    (r : Run (Bool × World)) : Prop where
  lists : segs.length ≤ copiedLimit → Lists list segs r
  lost : copiedLimit < segs.length → w.MappedZeroed → w.str 0 = none → (∀ j, out j ≠ 0) →
    ∀ segs', ¬Lists list segs' r

/-- With no event the strings are in the list, up to what is copied whole. -/
theorem Splitting.lists (h : Splitting w0 list out segs k w) (hrep : w.reports = w0.reports) :
    ListsUpTo w0 out list segs (.ok (true, w)) := by
  rcases h.cut with ⟨-, hk, -, ⟨entries, ⟨l, n, hholds, -, hitems, -⟩, hentries⟩, htexts⟩ |
    ⟨hmore, -⟩
  · have hcount := hholds.count
    have hlen := hentries.length
    rcases hholds.vector with ⟨hnone, -⟩ | ⟨c, v, hc, hlive, htake, -⟩
    · exact absurd hnone hitems
    · refine ⟨fun hle => ?_, fun hlt hzero hnull hout segs' hlists => ?_⟩
      · refine ⟨w, l, c, v, rfl, hholds.list, hc, hlive, by omega, ?_⟩
        rw [htake, hentries.whole (by omega), List.map_map]
        apply List.ext_getElem?
        intro j
        by_cases hj : j < k
        · rw [List.getElem?_map, List.getElem?_range hj, List.getElem?_map, Option.map_some,
            Function.comp_apply, htexts j hj, List.getElem?_eq_getElem (by omega), Option.map_some]
        · rw [List.getElem?_eq_none, List.getElem?_eq_none]
          · rw [List.length_map]
            omega
          · rw [List.length_map, List.length_range]
            omega
      · -- the null pointer in the list has no string
        obtain ⟨w', l', c', v', hw', hl', hc', hv', -, hmap⟩ := hlists
        obtain rfl : w = w' := (Prod.mk.inj (Except.ok.inj hw')).2
        obtain rfl := Option.some.inj (hholds.list.symm.trans hl')
        obtain rfl := Option.some.inj (hc.symm.trans hc')
        obtain rfl := Option.some.inj (hlive.symm.trans hv')
        rw [htake] at hmap
        have hmem := List.mem_map_of_mem (f := w.text) (hentries.lost (by omega) hzero)
        have htext : w.text 0 = none := by
          unfold World.text
          rw [h.others 0 hout, hnull]
          rfl
        rw [hmap, htext] at hmem
        obtain ⟨seg, -, hseg⟩ := List.mem_map.mp hmem
        cases hseg
  · rw [hrep] at hmore
    exact absurd hmore (Nat.lt_irrefl _)

variable {text d : List UInt8} {tokens : Source} {node : Option ListX}

/-- `string_split` on a string with a block. -/
theorem stringSplit_splits (hv : w.Valid) (hs : w.str x = some s) (hb : s.content ≠ none)
    (hlen : s.length < 2 ^ 31 - 1) (ht : w.text x = some text) (token : UInt8)
    (hinj : Function.Injective out) (hapart : ∀ j, out j ≠ x)
    (hu : Unrefused w (stringSplit x token list node out w)) :
    ∃ segs, ListsUpTo w out list segs (stringSplit x token list node out w) ∧
      Split [token] text segs := by
  obtain ⟨b, hb⟩ := Option.ne_none_iff_exists'.mp hb
  obtain ⟨bytes, hheld, hrep⟩ := hv.held hs hb
  obtain rfl : bytes.take s.length = text := Option.some.inj (hheld.text.symm.trans ht)
  have hsrc : SplitSource w x out s b bytes := ⟨hs, hb, hheld.live, hlen, hinj, hapart⟩
  unfold Unrefused at hu
  simp only [stringSplit, hs, hb, toInt32_nat (show s.length < 2 ^ 31 by omega)] at hu ⊢
  rcases listCreate_growing list node w with
    hnull | ⟨w1, hrun, hmore⟩ | ⟨w1, hrun, hstr, hblocks, -, hgrants, hlist⟩
  · exact absurd (by rw [hnull]; rfl) hu.1
  · have hsame := hu.2 false w1 (by rw [hrun]; rfl)
    rw [hsame] at hmore
    exact absurd hmore (Nat.lt_irrefl _)
  · simp only [hrun, bind, Except.bind, if_true] at hu ⊢
    have hstart := splitting_start out hv hstr hblocks hgrants hlist
    rcases splitLoop_spec hsrc token (2 ^ 32) hstart (Scan.init _ _) (Nat.zero_le _)
        (by omega) with hnull | ⟨segs, k, w', hloop, hsplit, hcut⟩
    · rw [Nat.cast_zero] at hnull
      exact absurd (by rw [hnull]) hu.1
    · rw [Nat.cast_zero] at hloop
      have hsame := hu.2 true w' (by rw [hloop])
      refine ⟨segs, ?_, hcut⟩
      rw [hloop]
      exact hsplit.lists hsame

/-- `string_split` returns its split of the text just when the vector is copied whole. -/
theorem stringSplit_exact (hv : w.Valid) (hs : w.str x = some s) (hlen : s.length < 2 ^ 31 - 1)
    (ht : w.text x = some text) (hnull : w.str 0 = none) (hzero : w.MappedZeroed)
    (token : UInt8) (hinj : Function.Injective out) (hapart : ∀ j, out j ≠ x)
    (hout : ∀ j, out j ≠ 0) (hu : Unrefused w (stringSplit x token list node out w)) :
    (∃ segs, Lists list segs (stringSplit x token list node out w) ∧
        SplitsBy [token] text segs) ↔
      s.content ≠ none ∧ (occurrences [token] text).length < copiedLimit := by
  by_cases hb : s.content = none
  · have hrun : stringSplit x token list node out w = .ok (false, w) := by
      simp only [stringSplit, hs, hb]
    rw [hrun]
    constructor
    · rintro ⟨segs, ⟨w', l, c, v, hlist, -⟩, -⟩
      cases hlist
    · rintro ⟨hsome, -⟩
      exact absurd hb hsome
  · obtain ⟨segs, hupto, hcut⟩ := stringSplit_splits hv hs hb hlen ht token hinj hapart hu
    have hcount := hcut.length_eq (List.cons_ne_nil _ _) 0
    constructor
    · rintro ⟨segs', hlists, -⟩
      refine ⟨hb, ?_⟩
      by_contra hmany
      exact hupto.lost (by unfold occurrences at hmany; omega) hzero hnull hout segs' hlists
    · rintro ⟨-, hfew⟩
      refine ⟨segs, hupto.lists ?_, splitsBy_of_split (List.cons_ne_nil _ _) hcut⟩
      unfold occurrences at hfew
      omega

/-- Both splitters cut the text of `x` at its leftmost non-overlapping delimiters: `string_splits`
in the run `r`, and for a delimiter of one byte `string_split` in any run on the same strings. -/
def SplittersAgree (w : World) (x : ℕ) (text d : List UInt8) (list : ℕ)
    (r : Run (Bool × World)) : Prop :=
  ∃ segs, Lists list segs r ∧ SplitsBy d text segs ∧
    ∀ (v : World) (token : UInt8) (list' : ℕ) (node' : Option ListX) (out' : ℕ → ℕ),
      d = [token] → v.str = w.str → v.blocks.live = w.blocks.live → Function.Injective out' →
      (∀ j, out' j ≠ x) → Unrefused v (stringSplit x token list' node' out' v) →
      Lists list' segs (stringSplit x token list' node' out' v)

theorem stringSplits_unlisted {b : ℕ} {length : ℤ} (hs : w.str x = some s)
    (hb : s.content = some b) (hl : 0 < length)
    (hrun : listCreate list (-1) 32 node w = .error .nullDeref) :
    stringSplits x (some tokens) length list node out w = .error .nullDeref := by
  simp only [stringSplits, hs, hb, if_neg (not_le.mpr hl), hrun]
  rfl

theorem stringSplits_refused {b : ℕ} {length : ℤ} {w1 : World} (hs : w.str x = some s)
    (hb : s.content = some b) (hl : 0 < length)
    (hrun : listCreate list (-1) 32 node w = .ok (false, w1)) :
    stringSplits x (some tokens) length list node out w = .ok (false, w1) := by
  simp only [stringSplits, hs, hb, if_neg (not_le.mpr hl), hrun]
  rfl

theorem stringSplits_listed {b : ℕ} {length : ℤ} {w1 : World} (hs : w.str x = some s)
    (hb : s.content = some b) (hlen : s.length < 2 ^ 31) (hl : 0 < length)
    (hrun : listCreate list (-1) 32 node w = .ok (true, w1)) :
    stringSplits x (some tokens) length list node out w = (do
      let r ← splitsLoop list x out (.block b s.length) tokens length s.length (2 ^ 32) 0 0 0 w1
      let q ← splitPiece list x out r.1.1 (toInt32 (s.length - r.1.1)) r.1.2 r.2
      .ok (true, q.2)) := by
  simp only [stringSplits, hs, hb, toInt32_nat hlen, if_neg (not_le.mpr hl), hrun]
  rfl

/-- `string_splits` splits the text, or runs off the string behind an occurrence that is too far
up. -/
theorem stringSplits_splits (hv : w.Valid) (hs : w.str x = some s) (hb : s.content ≠ none)
    (hlen : s.length < 2 ^ 31 - 1) (ht : w.text x = some text) (htok : tokens.Holds w d)
    (hd : d ≠ []) (hd31 : d.length < 2 ^ 31) (hinj : Function.Injective out)
    (hapart : ∀ j, out j ≠ x)
    (hu : Unrefused w (stringSplits x (some tokens) d.length list node out w)) :
    (stringSplits x (some tokens) d.length list node out w = .error .outOfBounds ∧
        ∃ p ∈ occurrences d text, 2 ^ 31 ≤ p + 2 * d.length) ∨
      (∀ p ∈ occurrences d text, p + 2 * d.length < 2 ^ 31) ∧
        ∃ segs, ListsUpTo w out list segs
            (stringSplits x (some tokens) d.length list node out w) ∧ Split d text segs := by
  obtain ⟨b, hb⟩ := Option.ne_none_iff_exists'.mp hb
  obtain ⟨bytes, hheld, hrep⟩ := hv.held hs hb
  obtain rfl : bytes.take s.length = text := Option.some.inj (hheld.text.symm.trans ht)
  have hsrc : SplitSource w x out s b bytes := ⟨hs, hb, hheld.live, hlen, hinj, hapart⟩
  have hpos := List.length_pos_iff.mpr hd
  rcases listCreate_growing list node w with
    hnull | ⟨w1, hrun, hmore⟩ | ⟨w1, hrun, hstr, hblocks, -, hgrants, hlist⟩
  · exact absurd (stringSplits_unlisted hs hb (by omega) hnull) hu.1
  · have hsame := hu.2 false w1 (stringSplits_refused hs hb (by omega) hrun)
    rw [hsame] at hmore
    exact absurd hmore (Nat.lt_irrefl _)
  · rw [stringSplits_listed hs hb (by omega) (by omega) hrun] at hu ⊢
    have hstart := splitting_start out hv hstr hblocks hgrants hlist
    rcases splitsLoop_spec hsrc htok hd (2 ^ 32) hstart (Scan.init _ _) (Nat.zero_le _)
        (l := []) rfl (fun p hp => absurd hp List.not_mem_nil) (by omega) (by omega) with
      hnull | ⟨hout, hfar⟩ | ⟨hnear, start, segs, k, w', hloop, hsplit, hle, hsegs, hcut⟩
    · rw [Nat.cast_zero] at hnull
      rw [hnull] at hu
      exact absurd rfl hu.1
    · rw [Nat.cast_zero] at hout
      rw [hout]
      exact .inl ⟨rfl, hfar⟩
    · rw [Nat.cast_zero] at hloop
      rw [hloop] at hu ⊢
      simp only [bind, Except.bind, toInt32_sub hle (show s.length < 2 ^ 31 by omega)] at hu ⊢
      rcases splitPiece_spec hsplit hsrc (s.length - start) (by omega) hsegs with
        hnull | ⟨k', w2, hrun2, hsplit2⟩
      · rw [hnull] at hu
        exact absurd rfl hu.1
      · rw [hrun2] at hu ⊢
        have hsame := hu.2 true w2 rfl
        rw [← splitText_tail] at hsplit2
        exact .inr ⟨hnear, _, hsplit2.lists hsame, hcut⟩

/-- Which runs split: the sums stay in the `int`, and the vector of the list is copied whole. -/
theorem stringSplits_agree (hv : w.Valid) (hs : w.str x = some s) (hlen : s.length < 2 ^ 31 - 1)
    (ht : w.text x = some text) (hnull : w.str 0 = none) (hzero : w.MappedZeroed)
    (hinj : Function.Injective out) (hapart : ∀ j, out j ≠ x) (hout : ∀ j, out j ≠ 0) :
    (∀ d tokens, tokens.Holds w d → d ≠ [] → d.length < 2 ^ 31 →
      Unrefused w (stringSplits x (some tokens) d.length list node out w) →
      (SplittersAgree w x text d list (stringSplits x (some tokens) d.length list node out w) ↔
        s.content ≠ none ∧ (∀ p ∈ occurrences d text, p + 2 * d.length < 2 ^ 31) ∧
          (occurrences d text).length < copiedLimit)) ∧
      ∀ token, Unrefused w (stringSplit x token list node out w) →
        ((∃ segs, Lists list segs (stringSplit x token list node out w) ∧
            SplitsBy [token] text segs) ↔
          s.content ≠ none ∧ (occurrences [token] text).length < copiedLimit) := by
  refine ⟨fun d tokens htok hd hd31 hu => ?_, fun token hu =>
    stringSplit_exact hv hs hlen ht hnull hzero token hinj hapart hout hu⟩
  by_cases hb : s.content = none
  · -- a string without a block gets no list
    have hrun : stringSplits x (some tokens) d.length list node out w = .ok (false, w) := by
      simp only [stringSplits, hs, hb]
    rw [hrun]
    constructor
    · rintro ⟨segs, ⟨w', l, c, v, hlist, -⟩, -⟩
      cases hlist
    · rintro ⟨hsome, -⟩
      exact absurd hb hsome
  · rcases stringSplits_splits hv hs hb hlen ht htok hd hd31 hinj hapart hu with
      ⟨hrun, p, hp, hfar⟩ | ⟨hnear, segs, hupto, hcut⟩
    · constructor
      · rintro ⟨segs, ⟨w', l, c, v, hlist, -⟩, -⟩
        rw [hrun] at hlist
        cases hlist
      · rintro ⟨-, hall, -⟩
        exact absurd (hall p hp) (not_lt.mpr hfar)
    · have hcount : segs.length = (occurrences d text).length + 1 := hcut.length_eq hd 0
      constructor
      · rintro ⟨segs', hlists, -⟩
        refine ⟨hb, hnear, ?_⟩
        by_contra hmany
        exact hupto.lost (by omega) hzero hnull hout segs' hlists
      · rintro ⟨-, -, hfew⟩
        refine ⟨segs, hupto.lists (by omega), splitsBy_of_split hd hcut, ?_⟩
        rintro v token list' node' out' rfl hstr hlive hinj' hapart' hu'
        obtain ⟨segs', hupto', hcut'⟩ := stringSplit_splits (hv.of_same hstr hlive)
          (by rw [hstr]; exact hs) hb hlen (by rw [text_of_same hstr hlive]; exact ht) token hinj'
          hapart' hu'
        obtain rfl := hcut'.unique hcut
        exact hupto'.lists (by omega)

/-! ### A text that is split, and a delimiter of 2^30 bytes -/

/-- A string of `n` bytes at 1, with blocks to come for `pieces` segments. -/
def splitWorld (text : List UInt8) (n pieces : ℕ) : World where
  blocks :=
    { live := fun b => if b = 0 then some (text ++ [0]) else none
      grants := (List.range (2 * pieces)).map fun i => some (i + 1, List.replicate 32 0) }
  items := { live := fun _ => none, grants := [some (0, List.replicate 100 0)] }
  str := fun x => if x = 1 then some ⟨true, n, n, some 0⟩ else none
  list := fun _ => none
  stale := fun _ _ => 0
  handler := .application
  reports := []

def splitNode : Option ListX := some ⟨false, 0, 0, 0, none⟩

section splitWorld
variable {n pieces : ℕ}

theorem splitWorld_str (hs : (splitWorld text n pieces).str x = some s) :
    x = 1 ∧ s = ⟨true, n, n, some 0⟩ := by
  unfold splitWorld at hs
  dsimp only at hs
  split_ifs at hs with hx
  exact ⟨hx, (Option.some.inj hs).symm⟩

theorem splitWorld_valid (hn : text.length = n) (h : n < 2 ^ 31) :
    (splitWorld text n pieces).Valid where
  content := by
    intro x s b hs hb
    obtain ⟨-, rfl⟩ := splitWorld_str hs
    obtain rfl := Option.some.inj hb
    refine ⟨text ++ [0], rfl, ?_, ?_, le_rfl, ?_⟩
    · rw [List.length_append, List.length_singleton, hn]
    · rw [List.length_append, List.length_singleton, hn]
      unfold maxBlock
      omega
    · rw [← hn]
      exact List.getElem?_concat_length
  apart := by
    intro x y s t b hs ht _ _
    rw [(splitWorld_str hs).1, (splitWorld_str ht).1]
  empty := by
    intro x s hs hb
    obtain ⟨-, rfl⟩ := splitWorld_str hs
    cases hb

theorem splitWorld_text (hn : text.length = n) :
    (splitWorld text n pieces).text 1 = some text :=
  congrArg some (List.take_left' hn)

theorem holds_replicate (w : World) (n : ℕ) (v : UInt8) :
    (Source.caller (fun _ => v) n).Holds w (List.replicate n v) where
  size := by rw [List.length_replicate]; exact le_rfl
  byte := by
    intro k hk
    rw [List.length_replicate] at hk
    rw [List.getD_eq_getElem?_getD, List.getElem?_replicate, if_pos hk]
    rfl
  backed := by
    intro b len h
    cases h

end splitWorld

theorem splitWorld_mappedZeroed (text : List UInt8) (n pieces : ℕ) :
    (splitWorld text n pieces).MappedZeroed := by
  intro b v hmem hlarge
  obtain ⟨rfl, rfl⟩ := Prod.mk.inj (Option.some.inj (List.mem_singleton.mp hmem))
  exact absurd hlarge (by decide)

theorem stringSplits_agree_comma :
    SplittersAgree (splitWorld [97, 44, 98, 44] 4 3) 1 [97, 44, 98, 44] [44] 0
      (stringSplits 1 (some (.caller (fun _ => 44) 1)) 1 0 splitNode (· + 2)
        (splitWorld [97, 44, 98, 44] 4 3)) := by
  have hrun : (stringSplits 1 (some (.caller (fun _ => 44) 1)) 1 0 splitNode (· + 2)
      (splitWorld [97, 44, 98, 44] 4 3)).toOption.map (fun r => r.2.reports) = some [] := by
    decide +kernel
  obtain ⟨r, hr, hrep⟩ := Option.map_eq_some_iff.mp hrun
  have hu : Unrefused (splitWorld [97, 44, 98, 44] 4 3)
      (stringSplits 1 (some (.caller (fun _ => 44) 1)) ([44] : List UInt8).length 0 splitNode (· + 2)
        (splitWorld [97, 44, 98, 44] 4 3)) := by
    constructor
    · intro hnull
      change stringSplits 1 (some (.caller (fun _ => 44) 1)) 1 0 splitNode (· + 2)
        (splitWorld [97, 44, 98, 44] 4 3) = _ at hnull
      rw [hnull] at hr
      cases hr
    · intro ok w' hok
      change stringSplits 1 (some (.caller (fun _ => 44) 1)) 1 0 splitNode (· + 2)
        (splitWorld [97, 44, 98, 44] 4 3) = _ at hok
      rw [hok] at hr
      obtain rfl := Option.some.inj hr
      exact hrep
  have hv : (splitWorld [97, 44, 98, 44] 4 3).Valid := splitWorld_valid rfl (by decide)
  have ht : (splitWorld [97, 44, 98, 44] 4 3).text 1 = some [97, 44, 98, 44] := splitWorld_text rfl
  exact ((stringSplits_agree hv (s := ⟨true, 4, 4, some 0⟩) rfl (by decide) ht rfl
    (splitWorld_mappedZeroed _ _ _) (add_left_injective 2) (fun j => by simp)
    (fun j => by simp)).1 [44] (.caller (fun _ => 44) 1) (holds_replicate _ 1 44)
    (List.cons_ne_nil _ _) (by decide) hu).mpr ⟨nofun, by decide, by decide⟩

def giantText : List UInt8 := List.replicate (2 ^ 30) 97

theorem giantText_length : giantText.length = 2 ^ 30 := List.length_replicate

theorem splitPiece_giant :
    ((listCreate 0 (-1) 32 splitNode (splitWorld giantText (2 ^ 30) 1)) >>= fun r =>
      splitPiece 0 1 (· + 2) 0 0 0 r.2).toOption.map Prod.fst = some 1 := by
  decide +kernel

/-- Behind the occurrence at 0 the sum `i + length` is 2^31. -/
theorem stringSplits_giant :
    stringSplits 1 (some (.caller (fun _ => 97) (2 ^ 30 : ℕ))) (2 ^ 30 : ℕ) 0 splitNode (· + 2)
      (splitWorld giantText (2 ^ 30) 1) = .error .outOfBounds := by
  have hfirst := splitPiece_giant
  have hlen := giantText_length
  have hv : (splitWorld giantText (2 ^ 30) 1).Valid := splitWorld_valid hlen (by norm_num)
  rcases listCreate_growing 0 splitNode (splitWorld giantText (2 ^ 30) 1) with
    hnull | ⟨w1, hrun, hmore⟩ | ⟨w1, hrun, hstr, hblocks, -⟩
  · rw [hnull] at hfirst
    cases hfirst
  · rw [splitNode, listCreate] at hrun
    cases hitems : listItems 0 (ListX.start ⟨false, 0, 0, 0, none⟩ (-1) 32)
        (splitWorld giantText (2 ^ 30) 1) with
    | error e =>
      rw [hitems] at hrun
      cases hrun
    | ok w' =>
      rw [hitems] at hrun
      cases hrun
  · rw [hrun] at hfirst
    obtain ⟨⟨k, w2⟩, hq, -⟩ := Option.map_eq_some_iff.mp hfirst
    have hpiece : splitPiece 0 1 (· + 2) 0 0 0 w1 = .ok (k, w2) := by
      simp only [bind, Except.bind] at hq
      cases hp : splitPiece 0 1 (· + 2) 0 0 0 w1 with
      | error e =>
        rw [hp] at hq
        cases hq
      | ok r =>
        rw [hp] at hq
        rw [Option.some.inj hq]
    obtain ⟨bytes, hheld, hrep⟩ := (hv.of_same hstr (congrArg Blocks.live hblocks)).held (x := 1)
      (s := ⟨true, 2 ^ 30, 2 ^ 30, some 0⟩) (b := 0) (by rw [hstr]; rfl) rfl
    have hsame : splitText ⟨true, 2 ^ 30, 2 ^ 30, some 0⟩ bytes = giantText := by
      have htext := hheld.text
      rw [text_of_same hstr (congrArg Blocks.live hblocks), splitWorld_text hlen] at htext
      exact (Option.some.inj htext).symm
    have hholds := holds_replicate w1 (2 ^ 30) 97
    obtain ⟨fuel, hfuel⟩ : ∃ fuel : ℕ, 2 ^ 32 = fuel + 1 + 1 := ⟨2 ^ 32 - 2, by norm_num⟩
    have hloop := splitsLoop_hit 0 (· + 2) (fuel + 1) 0 hholds hheld hrep (by norm_num)
      (le_refl 0)
      (by rw [List.length_replicate]; norm_num) (by rw [hsame]; exact List.prefix_rfl)
    rw [List.length_replicate, Nat.sub_self, Nat.cast_zero, hpiece] at hloop
    have hwrapped := splitsLoop_wrapped (s := ⟨true, 2 ^ 30, 2 ^ 30, some 0⟩) 0 1 0 (· + 2)
      (.caller (fun _ => 97) (2 ^ 30 : ℕ)) fuel (0 + 2 ^ 30) k w2 (by norm_num)
      (show 2 ^ 31 ≤ 0 + 2 ^ 30 + 2 ^ 30 by norm_num) (by norm_num) (by norm_num)
    rw [stringSplits_listed (b := 0) (s := ⟨true, 2 ^ 30, 2 ^ 30, some 0⟩) rfl rfl (by norm_num)
      (by norm_num) hrun, hfuel, hloop]
    simp only [bind, Except.bind, hwrapped]

/-- The delimiter is the whole text, of 2^30 bytes. -/
theorem stringSplits_agree_giant :
    ¬∀ (w : World) (x : ℕ) (s : StringX) (text d : List UInt8) (tokens : Source) (list : ℕ)
      (node : Option ListX) (out : ℕ → ℕ), w.Valid → w.str x = some s → s.content ≠ none →
      s.length < 2 ^ 31 - 1 → w.text x = some text → tokens.Holds w d → d ≠ [] →
      d.length < 2 ^ 31 → Function.Injective out → (∀ j, out j ≠ x) → (∀ j, out j ≠ 0) →
      Unrefused w (stringSplits x (some tokens) d.length list node out w) →
      SplittersAgree w x text d list
        (stringSplits x (some tokens) d.length list node out w) := by
  intro hall
  have hrun := stringSplits_giant
  have hd : (List.replicate (2 ^ 30) (97 : UInt8)).length = 2 ^ 30 := List.length_replicate
  have hagree := hall (splitWorld giantText (2 ^ 30) 1) 1 ⟨true, 2 ^ 30, 2 ^ 30, some 0⟩ giantText
    (List.replicate (2 ^ 30) 97) (.caller (fun _ => 97) (2 ^ 30 : ℕ)) 0 splitNode (· + 2)
    (splitWorld_valid giantText_length (by norm_num)) rfl nofun (by norm_num)
    (splitWorld_text giantText_length) (holds_replicate _ _ _)
    (List.ne_nil_of_length_pos (by rw [hd]; norm_num)) (by rw [hd]; norm_num)
    (add_left_injective 2) (fun j => by simp) fun j => by simp
  rw [hd, hrun] at hagree
  obtain ⟨segs, ⟨w', l, c, v, hlist, -⟩, -⟩ := hagree ⟨nofun, nofun⟩
  cases hlist

end Xplatbase.Strings
