import Xplatbase.Strings.StringContent

/-! `string_append` is concatenation, unless the string appended to is the source and its block
moves: then the passes read freed memory. -/
namespace Xplatbase.Strings
open Xplatbase.Lib

variable {w w' w1 : World} {x b b1 : ℕ} {s s1 : StringX} {bytes bytes1 : List UInt8}

def World.withStale (w : World) (stale : ℕ → ℕ → UInt8) : World :=
  { w with stale := stale }

theorem World.Valid.withStale (h : w.Valid) (stale : ℕ → ℕ → UInt8) :
    (w.withStale stale).Valid :=
  ⟨h.content, h.apart, h.empty⟩

theorem memopReallocRaw_withStale (p : Option ℕ) (n : ℕ) (stale : ℕ → ℕ → UInt8) :
    memopReallocRaw p n (w.withStale stale) =
      (memopReallocRaw p n w).map fun r => (r.1, r.2.withStale stale) := by
  unfold memopReallocRaw World.withStale
  dsimp only
  cases w.blocks.realloc p n maxBlock <;> rfl

theorem HasRoom.withStale {required : ℕ} (h : HasRoom x s required w) (stale : ℕ → ℕ → UInt8) :
    HasRoom x s required (w.withStale stale) := by
  obtain ⟨w1, he⟩ := h
  refine ⟨w1.withStale stale, ?_⟩
  unfold shEnsureCapacity at he ⊢
  by_cases hfits : required ≤ s.max
  · rw [if_pos hfits] at he ⊢
    obtain ⟨-, rfl⟩ := Prod.mk.inj (Except.ok.inj he)
    rfl
  · rw [if_neg hfits] at he ⊢
    cases hg : growTo 64 s.firstMax required with
    | none =>
      rw [hg] at he
      cases he
    | some newMax =>
      rw [hg] at he
      dsimp only at he ⊢
      rw [memopReallocRaw_withStale]
      cases hre : memopReallocRaw s.content ((newMax + 1) % 2 ^ 64) w with
      | error e =>
        rw [hre] at he
        cases he
      | ok r =>
        obtain ⟨nc, w2⟩ := r
        rw [hre] at he
        cases nc with
        | none =>
          simp only [bind, Except.bind] at he
          split at he
          · cases he
          · cases he
        | some c =>
          obtain ⟨-, rfl⟩ := Prod.mk.inj (Except.ok.inj he)
          rfl

/-- After the call the destination holds its old content and then the bytes of the source, and a
source other than the destination holds what it held. -/
def AppendConcatenates (src dst : ℕ) (srcStart length : ℤ) (w : World) : Prop :=
  ∃ w' t u, stringAppend src dst srcStart length w = .ok w' ∧ w.text src = some t ∧
    w.text dst = some u ∧
    w'.text dst = some (u ++ (t.drop srcStart.toNat).take length.toNat) ∧
    (src ≠ dst → w'.text src = some t)

section append
variable {src dst c : ℕ} {d : StringX} {bytesD : List UInt8} {srcStart length : ℤ}

/-- The text that an accepted append makes, when pass `i` reads `f i`. -/
theorem stringAppend_text (h : w.Held src s b bytes) (hr : s.Rep bytes)
    (hd : w.Held dst d c bytesD) (hrd : d.Rep bytesD) (h0 : 0 ≤ srcStart) (hn : 0 < length)
    (hfit : srcStart + length ≤ toInt32 s.length) (hin : srcStart + length ≤ s.length)
    (htotal : d.length + length < 2 ^ 31) {required : ℕ}
    (hreq : required = (d.length + length).toNat)
    (he : shEnsureCapacity dst d required w = .ok (true, w1))
    (ho : Roomy dst w d bytesD required w1 s1 b1 bytes1) (f : ℕ → UInt8)
    (hf : ∀ i < length.toNat, ∀ bytes', (∀ j, j < d.length ∨ d.length + i ≤ j →
        bytes'[j]? = bytes1[j]?) →
      (Source.block b s.length).byte (w1.withBlock b1 bytes') (srcStart.toNat + i) = f i) :
    ∃ w', stringAppend src dst srcStart length w = .ok w' ∧ Touches dst w w' ∧
      w'.text dst = some (bytesD.take d.length ++ (List.range length.toNat).map f) := by
  subst hreq
  have htop := (toInt32_isInt32 s.length).2
  have hdint : IsInt32 d.length := ⟨by omega, by omega⟩
  have hd32 : toInt32 d.length = d.length := toInt32_eq hdint
  have hpass : CopyPasses (toInt32 s.length) srcStart length d.length := by
    refine ⟨hn, h0, by omega, ?_⟩
    rw [toInt32_eq (x := srcStart + length) ⟨by omega, by omega⟩]
    exact hfit
  have hsum := (sum_of_passes hr h0 hn.le (by omega) (by omega)).mpr ⟨hin, by omega⟩
  have hrun : stringAppend src dst srcStart length w =
      stringCopy dst (some (.block b s.length)) (toInt32 s.length) srcStart length d.length w := by
    simp only [stringAppend, h.str, hd.str, h.content,
      if_neg (show ¬(length ≤ 0 ∨ srcStart < 0) by omega), if_neg (not_lt.mpr hsum), hd32]
  obtain ⟨w', t, bytes', hcopy, hheld, hrep, ht, -, hsize, hall⟩ := stringCopy_content
    (.block b s.length) hd hpass hin (by omega) (by omega) ⟨by omega, by omega⟩ hdint he ho f
    (by simpa only [Int.toNat_natCast] using hf)
  refine ⟨w', by rw [hrun, hcopy], ht, ?_⟩
  have hroomD := hrd.room
  have hlenD := hrd.length_le
  have hroom' := hrep.room
  have hlen' := hrep.length_le
  have hsize' : t.length = d.length + length.toNat := by
    rw [hsize]
    omega
  have hold : (bytesD.take d.length).length = d.length := by
    rw [List.length_take]
    omega
  rw [hheld.text, Option.some.injEq]
  apply List.ext_getElem?
  intro j
  by_cases hj : j < t.length
  · rw [List.getElem?_take_of_lt hj, hall j hj]
    by_cases hjd : j < d.length
    · rw [if_neg (by omega), ho.same j (by omega), List.getElem?_append_left (by omega),
        List.getElem?_take_of_lt hjd]
    · rw [if_pos (by omega), List.getElem?_append_right (by omega), hold,
        List.getElem?_map, List.getElem?_range (by omega)]
      simp
  · rw [List.getElem?_eq_none (by rw [List.length_take]; omega), List.getElem?_eq_none (by
      rw [List.length_append, hold, List.length_map, List.length_range]
      omega)]

/-- What the passes read: the source as it was, or, once growth has moved the block of a string
that is appended to itself, freed memory. -/
theorem stringAppend_reads (h : w.Held src s b bytes) (hr : s.Rep bytes)
    (hd : w.Held dst d c bytesD) (h0 : 0 ≤ srcStart)
    (hin : srcStart + length ≤ s.length) {required : ℕ}
    (ho : Roomy dst w d bytesD required w1 s1 b1 bytes1) (hg : Grown w d c required w1 b1)
    (i : ℕ) (hi : i < length.toNat) (bytes' : List UInt8)
    (hsame : ∀ j, j < d.length ∨ d.length + i ≤ j → bytes'[j]? = bytes1[j]?) :
    (Source.block b s.length).byte (w1.withBlock b1 bytes') (srcStart.toNat + i) =
      if src = dst ∧ b1 ≠ c then w.stale b (srcStart.toNat + i)
      else bytes.getD (srcStart.toNat + i) 0 := by
  by_cases hsd : src = dst
  · subst hsd
    obtain rfl : s = d := Option.some.inj (h.str.symm.trans hd.str)
    obtain rfl : b = c := Option.some.inj (h.content.symm.trans hd.content)
    obtain rfl : bytes = bytesD := Option.some.inj (h.live.symm.trans hd.live)
    by_cases hmove : b1 = b
    · subst hmove
      rw [if_neg (by simp)]
      have hlen := hr.length_le
      have hbyte := hsame (srcStart.toNat + i) (.inl (by omega))
      rw [ho.same _ (by omega)] at hbyte
      simp only [Source.byte, World.withBlock, Function.update_self, List.getD_eq_getElem?_getD,
        hbyte]
    · rw [if_pos ⟨rfl, hmove⟩]
      simp only [Source.byte, World.withBlock, Function.update_of_ne (Ne.symm hmove),
        hg.freed hmove, hg.stale]
  · rw [if_neg (fun hc => hsd hc.1)]
    have hbc : b ≠ c := by
      rintro rfl
      exact hd.alone src s hsd h.str h.content
    have hapart : (Source.block b s.length).ApartFrom w c := ⟨hbc, by simp [h.live]⟩
    rw [hapart.byte hg bytes']
    simp only [Source.byte, h.live]

theorem range_map_getD {a n m : ℕ} (hm : a + n ≤ m) (hb : m ≤ bytes.length) :
    (List.range n).map (fun i => bytes.getD (a + i) 0) = ((bytes.take m).drop a).take n := by
  apply List.ext_getElem?
  intro i
  by_cases hi : i < n
  · rw [List.getElem?_map, List.getElem?_range hi, List.getElem?_take_of_lt hi, List.getElem?_drop,
      List.getElem?_take_of_lt (by omega), List.getElem?_eq_getElem (by omega), Option.map_some,
      List.getD_eq_getElem?_getD, List.getElem?_eq_getElem (by omega)]
    rfl
  · rw [List.getElem?_eq_none (by rw [List.length_map, List.length_range]; omega),
      List.getElem?_eq_none (by rw [List.length_take]; omega)]

theorem World.Held.withStale (h : w.Held x s b bytes) (stale : ℕ → ℕ → UInt8) :
    (w.withStale stale).Held x s b bytes :=
  ⟨h.str, h.content, h.live, h.alone⟩

theorem not_concatenates (hn : 0 < length) (hin : srcStart + length ≤ (s.length : ℤ))
    (h0 : 0 ≤ srcStart) (h : w.Held src s b bytes) (hr : s.Rep bytes)
    (hrun : stringAppend src dst srcStart length w = .ok w) :
    ¬AppendConcatenates src dst srcStart length w := by
  rintro ⟨w', t, u, hrun', ht, hu, hafter, -⟩
  obtain rfl := Except.ok.inj (hrun.symm.trans hrun')
  rw [hu, Option.some.injEq] at hafter
  obtain rfl := Option.some.inj (h.text.symm.trans ht)
  have hlen := congrArg List.length hafter
  have hroom := hr.room
  have hle := hr.length_le
  simp only [List.length_append, List.length_take, List.length_drop] at hlen
  omega

/-- `string_append` concatenates whatever freed memory holds, exactly when the destination has a
block, the range is inside the length as an `int`, and no growth moves a block that is source and
destination at once. -/
theorem stringAppend_concatenates (hv : w.Valid) (hs : w.str src = some s)
    (hd : w.str dst = some d) (his : IsInt32 srcStart) (h0 : 0 ≤ srcStart) (hn : 0 < length)
    (hin : srcStart + length ≤ s.length) (htotal : d.length + length < 2 ^ 31)
    (hroom : d.content ≠ none → HasRoom dst d (d.length + length).toNat w) :
    (∀ stale, AppendConcatenates src dst srcStart length (w.withStale stale)) ↔
      d.content ≠ none ∧ srcStart + length ≤ toInt32 s.length ∧
        (src ≠ dst ∨ d.length + length ≤ d.max ∨
          ∃ c, d.content = some c ∧ GrowsInPlace w c) := by
  obtain ⟨b, hb⟩ : ∃ b, s.content = some b := by
    cases hb : s.content with
    | none =>
      have := (hv.empty src s hs hb).1
      omega
    | some b => exact ⟨b, rfl⟩
  obtain ⟨bytes, hh, hr⟩ := hv.held hs hb
  cases hc : d.content with
  | none =>
    refine iff_of_false (fun hall => ?_) (fun hcond => hcond.1 rfl)
    apply not_concatenates hn hin h0 (hh.withStale w.stale) hr _ (hall w.stale)
    have hsd : (w.withStale w.stale).str dst = some d := hd
    have hss : (w.withStale w.stale).str src = some s := hs
    simp only [stringAppend, hss, hsd, hb]
    split_ifs
    · rfl
    · rfl
    · apply stringCopy_null
      right
      intro t ht
      rw [hsd] at ht
      rw [← Option.some.inj ht, hc]
  | some c =>
    obtain ⟨bytesD, hhd, hrd⟩ := hv.held hd hc
    obtain ⟨w1, s1, b1, bytes1, he, ho, hg⟩ := (hroom (by simp [hc])).grown hv hhd hrd (by omega)
    by_cases hfit : srcStart + length ≤ toInt32 s.length
    · have hmove : (src = dst ∧ b1 ≠ c) ↔ ¬(src ≠ dst ∨ d.length + length ≤ d.max ∨
          ∃ c', some c = some c' ∧ GrowsInPlace w c') := by
        have hstays := hg.stays
        have hle : (d.length + length).toNat ≤ d.max ↔ (d.length : ℤ) + length ≤ d.max := by omega
        rw [hle] at hstays
        simp only [Option.some.injEq, exists_eq_left', ← hstays, not_or, not_not, ne_eq]
      have hrun (stale : ℕ → ℕ → UInt8) : ∃ w', stringAppend src dst srcStart length
          (w.withStale stale) = .ok w' ∧ Touches dst (w.withStale stale) w' ∧
          w'.text dst = some (bytesD.take d.length ++ (List.range length.toNat).map fun i =>
            if src = dst ∧ b1 ≠ c then stale b (srcStart.toNat + i)
            else bytes.getD (srcStart.toNat + i) 0) := by
        obtain ⟨w2, s2, b2, bytes2, he2, ho2, hg2⟩ := ((hroom (by simp [hc])).withStale stale).grown
          (hv.withStale stale) (hhd.withStale stale) hrd (by omega)
        have hplace : b2 = c ↔ b1 = c := hg2.stays.trans hg.stays.symm
        apply stringAppend_text (hh.withStale stale) hr (hhd.withStale stale) hrd h0 hn hfit hin
          htotal rfl he2 ho2
        intro i hi bytes' hsame
        rw [stringAppend_reads (hh.withStale stale) hr (hhd.withStale stale) h0 hin ho2 hg2 i hi
          bytes' hsame]
        simp only [World.withStale, ne_eq, hplace]
      have hlen := hr.length_le
      have hlroom := hr.room
      have hcopied : (List.range length.toNat).map (fun i => bytes.getD (srcStart.toNat + i) 0) =
          ((bytes.take s.length).drop srcStart.toNat).take length.toNat :=
        range_map_getD (by omega) (by omega)
      constructor
      · intro hall
        refine ⟨by simp, hfit, ?_⟩
        by_contra hnot
        have hbad := hmove.mpr hnot
        -- freed memory that differs from the first byte of the range
        obtain ⟨w', t, u, hrun', ht, hu, hafter, -⟩ :=
          hall fun _ _ => bytes.getD srcStart.toNat 0 + 1
        obtain ⟨w2, hrun2, -, htext⟩ := hrun fun _ _ => bytes.getD srcStart.toNat 0 + 1
        obtain rfl := Except.ok.inj (hrun2.symm.trans hrun')
        obtain rfl := Option.some.inj ((hh.withStale _).text.symm.trans ht)
        obtain rfl := Option.some.inj ((hhd.withStale _).text.symm.trans hu)
        rw [htext, Option.some.injEq, ← hcopied] at hafter
        have hmap := List.append_cancel_left hafter
        have hhead := congrArg (fun l : List UInt8 => l[0]?) hmap
        simp only [List.getElem?_map, List.getElem?_range (show 0 < length.toNat by omega),
          Option.map_some, if_pos hbad, Nat.add_zero, Option.some.injEq] at hhead
        simp at hhead
      · rintro ⟨-, -, hcond⟩ stale
        obtain ⟨w', hrun', ht, htext⟩ := hrun stale
        have hno : ¬(src = dst ∧ b1 ≠ c) := fun hm => hmove.mp hm hcond
        simp only [if_neg hno] at htext
        rw [hcopied] at htext
        refine ⟨w', _, _, hrun', (hh.withStale stale).text, (hhd.withStale stale).text, htext,
          fun hne => ?_⟩
        rw [ht.text hne]
        exact (hh.withStale stale).text
    · refine iff_of_false (fun hall => ?_) (fun hcond => hfit hcond.2.1)
      apply not_concatenates hn hin h0 (hh.withStale w.stale) hr _ (hall w.stale)
      have hsd : (w.withStale w.stale).str dst = some d := hd
      have hss : (w.withStale w.stale).str src = some s := hs
      simp only [stringAppend, hss, hsd, hb]
      split_ifs with h1 h2
      · rfl
      · rfl
      · apply stringCopy_stopped
        rintro ⟨-, -, -, hpass⟩
        unfold IsInt32 at his
        have hsum := (sum_of_passes hr h0 hn.le his.2 (by omega)).mp (by omega)
        rw [toInt32_eq (x := srcStart + length) ⟨by omega, hsum.2⟩] at hpass
        exact hfit hpass

/-- A string of 16 characters and, as string 1, its first 15 in a block of 16 bytes. -/
def appendRun : List (StringOp × List (Option (ℕ × List UInt8))) :=
  [(.init 0, [some (7, List.replicate 51 1)]),
    (.appends 0 (some (.caller fun i => UInt8.ofNat (97 + i))) 16 0 16, []),
    (.substring 1 0 0 15, [some (8, List.replicate 32 1), some (9, List.replicate 16 1)])]

def movingGrant : List (Option (ℕ × List UInt8)) := [some (10, List.replicate 31 1)]

/-- The last character of string 1 after its first was appended to it. -/
def selfAppended (w : World) : Option (List UInt8) :=
  (stringAppend 1 1 0 1 (w.withGrants movingGrant)).toOption.bind fun w' =>
    (w'.text 1).map (·.drop 15)

def roomGranted (w : World) : Bool :=
  ((shEnsureCapacity 1 ⟨true, 15, 15, some 9⟩ 16 (w.withGrants movingGrant)).toOption.map
    Prod.fst).getD false

theorem appendRun_world :
    ∃ w : World, w.Valid ∧ w.str 0 = some ⟨true, 50, 16, some 7⟩ ∧
      w.str 1 = some ⟨true, 15, 15, some 9⟩ ∧ (w.text 1).map (·.take 1) = some [97] ∧
      selfAppended w = some [0] ∧ roomGranted w = true := by
  have hout : (stringRuns.execWhen (fun w l => l.1.SumsFit w) noStrings appendRun).map
      (fun w => ((w.str 0, w.str 1), ((w.text 1).map (·.take 1), selfAppended w), roomGranted w)) =
      some ((some ⟨true, 50, 16, some 7⟩, some ⟨true, 15, 15, some 9⟩), (some [97], some [0]),
        true) := by
    decide +kernel
  obtain ⟨w, hrun, hw⟩ := Option.map_eq_some_iff.mp hout
  simp only [Prod.mk.injEq] at hw
  obtain ⟨⟨h0, h1⟩, ⟨hfirst, hself⟩, hroom⟩ := hw
  have hreach : stringRuns.ReachableWhen (fun w l => l.1.SumsFit w) w :=
    .exec (.init ⟨fun _ => rfl, rfl⟩) hrun
  exact ⟨w, (stringRuns_valid hreach).1, h0, h1, hfirst, hself, hroom⟩

theorem stringAppend_concatenates_prefix :
    ∃ w : World, w.str 1 = some ⟨true, 15, 15, some 9⟩ ∧
      ∀ stale, AppendConcatenates 1 0 0 15 (w.withStale stale) := by
  obtain ⟨w, hv, h0, h1, -⟩ := appendRun_world
  refine ⟨w, h1, (stringAppend_concatenates hv h1 h0 (by decide) (by decide) (by decide)
    (by decide) (by decide) fun _ => ⟨w, ?_⟩).mpr ⟨by simp, by decide, .inl (by decide)⟩⟩
  rw [shEnsureCapacity, if_pos (by decide)]

/-- The first character of a string appended to itself: the growth moves the block, and the pass
reads what is left of the old one. -/
theorem stringAppend_self_moved :
    ¬∀ (w : World) (src dst : ℕ) (s d : StringX) (srcStart length : ℤ), w.Valid →
      w.str src = some s → w.str dst = some d → IsInt32 srcStart → 0 ≤ srcStart → 0 < length →
      srcStart + length ≤ s.length → d.length + length < 2 ^ 31 →
      (d.content ≠ none → HasRoom dst d (d.length + length).toNat w) →
      AppendConcatenates src dst srcStart length w := by
  intro hall
  obtain ⟨w, hv, -, h1, hfirst, hself, hgranted⟩ := appendRun_world
  have hroom : HasRoom 1 ⟨true, 15, 15, some 9⟩ 16 (w.withGrants movingGrant) := by
    unfold roomGranted at hgranted
    cases hr : shEnsureCapacity 1 ⟨true, 15, 15, some 9⟩ 16 (w.withGrants movingGrant) with
    | error e =>
      rw [hr] at hgranted
      cases hgranted
    | ok r =>
      obtain ⟨ok, w1⟩ := r
      rw [hr] at hgranted
      obtain rfl : ok = true := hgranted
      exact ⟨w1, hr⟩
  obtain ⟨w', t, u, hrun, ht, hu, hafter, -⟩ := hall (w.withGrants movingGrant) 1 1 _ _ 0 1
    (hv.withGrants movingGrant) h1 h1 (by decide) (by decide) (by decide) (by decide) (by decide)
    fun _ => hroom
  have hsame : w.text 1 = some t := ht
  obtain rfl := Option.some.inj (ht.symm.trans hu)
  obtain ⟨t', ht', hlen⟩ := hv.length_text h1
  obtain rfl := Option.some.inj (hsame.symm.trans ht')
  unfold selfAppended at hself
  rw [hrun] at hself
  simp only [Except.toOption, Option.bind_some, hafter, Option.map_some, Option.some.injEq] at hself
  rw [hsame, Option.map_some, Option.some.injEq] at hfirst
  rw [List.drop_left' hlen] at hself
  have hbyte := hself.symm.trans hfirst
  cases hbyte

end append

end Xplatbase.Strings
