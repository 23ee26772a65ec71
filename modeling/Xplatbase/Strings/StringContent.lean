import Xplatbase.Strings.StringRange

/-! What `string_copy` leaves in a string, byte by byte, and when its arguments determine it. -/
namespace Xplatbase.Strings
open Xplatbase.Lib

variable {w w' w1 : World} {x b b1 : ℕ} {s s1 : StringX} {bytes bytes1 : List UInt8}

/-! ### The copy loop -/

theorem copyByte_content (h : w.Held x s b bytes) (hroom : s.max + 1 ≤ bytes.length)
    {src : Source} {srcStart dstStart i : ℕ} (hi : CopyInside src s srcStart dstStart i)
    (hs : srcStart + i < 2 ^ 31) (hd : dstStart + i < 2 ^ 31) :
    copyByte x src srcStart dstStart i w =
      .ok (w.withBlock b (bytes.set (dstStart + i) (src.byte w (srcStart + i)))) := by
  have hrd : toInt32 ((srcStart : ℤ) + i) = ((srcStart + i : ℕ) : ℤ) := by
    rw [Nat.cast_add]
    apply toInt32_eq
    unfold IsInt32
    omega
  have hwr : toInt32 ((dstStart : ℤ) + i) = ((dstStart + i : ℕ) : ℤ) := by
    rw [Nat.cast_add]
    apply toInt32_eq
    unfold IsInt32
    omega
  obtain ⟨⟨hr0, hr1⟩, hw0, hw1⟩ := hi
  rw [hrd] at hr0 hr1
  rw [hwr] at hw0 hw1
  have hset := setContent_held h hroom hw0 (by omega) (src.byte w (srcStart + i))
  rw [Int.toNat_natCast] at hset
  rw [copyByte, hrd, hwr, Source.read_inside hr0 hr1, Int.toNat_natCast]
  exact hset

/-- The bytes after the loop, when pass `i` reads `f i` from whatever the earlier passes left. -/
theorem copyLoop_content (h : w.Held x s b bytes) (hroom : s.max + 1 ≤ bytes.length)
    {src : Source} {srcStart dstStart n : ℕ}
    (hin : ∀ i < n, CopyInside src s srcStart dstStart i) (hs : srcStart + n ≤ 2 ^ 31)
    (hd : dstStart + n ≤ 2 ^ 31) (hfit : dstStart + n ≤ bytes.length) (f : ℕ → UInt8)
    (hf : ∀ i < n, ∀ bytes', (∀ j, j < dstStart ∨ dstStart + i ≤ j → bytes'[j]? = bytes[j]?) →
      src.byte (w.withBlock b bytes') (srcStart + i) = f i) :
    ∃ bytes', forUpTo (copyByte x src srcStart dstStart) n w = .ok (w.withBlock b bytes') ∧
      bytes'.length = bytes.length ∧
      ∀ j, bytes'[j]? =
        if dstStart ≤ j ∧ j < dstStart + n then some (f (j - dstStart)) else bytes[j]? := by
  obtain ⟨w', hw', bytes', rfl, hlen, hall⟩ := forUpTo_ok
    (fun i w' => ∃ bytes', w' = w.withBlock b bytes' ∧ bytes'.length = bytes.length ∧
      ∀ j, bytes'[j]? =
        if dstStart ≤ j ∧ j < dstStart + i then some (f (j - dstStart)) else bytes[j]?)
    (s := w) ⟨bytes, h.withBlock_self.symm, rfl, fun j => by rw [if_neg (by omega)]⟩ (by
      rintro i _ hi ⟨bytes', rfl, hlen, hall⟩
      have hread : src.byte (w.withBlock b bytes') (srcStart + i) = f i := by
        apply hf i hi
        intro j hj
        rw [hall, if_neg (by omega)]
      refine ⟨_, copyByte_content (h.withBlock bytes') (by omega) (hin i hi) (by omega)
        (by omega), bytes'.set (dstStart + i) (f i), ?_, by rw [List.length_set, hlen], ?_⟩
      · rw [withBlock_withBlock, hread]
      · intro j
        by_cases hj : j = dstStart + i
        · rw [hj, List.getElem?_set_self (by omega), if_pos (by omega), Nat.add_sub_cancel_left]
        · rw [List.getElem?_set_ne (Ne.symm hj), hall]
          by_cases hlt : dstStart ≤ j ∧ j < dstStart + i
          · rw [if_pos hlt, if_pos (by omega)]
          · rw [if_neg hlt, if_neg (by omega)])
  exact ⟨bytes', hw', hlen, hall⟩

/-! ### `string_copy` with room -/

section copy
variable {contLength srcStart length dstStart : ℤ}

/-- The bytes below the new length: the source inside the window, the old block around it. -/
theorem stringCopy_content (src : Source) (h : w.Held x s b bytes)
    (hp : CopyPasses contLength srcStart length dstStart) (hsrc : srcStart + length ≤ src.len)
    (hsrc31 : srcStart + length ≤ 2 ^ 31) (hdst31 : dstStart + length ≤ 2 ^ 31)
    (hl : IsInt32 length) (hd : IsInt32 dstStart)
    (he : shEnsureCapacity x s (dstStart + length).toNat w = .ok (true, w1))
    (ho : Roomy x w s bytes (dstStart + length).toNat w1 s1 b1 bytes1) (f : ℕ → UInt8)
    (hf : ∀ i < length.toNat, ∀ bytes',
      (∀ j, j < dstStart.toNat ∨ dstStart.toNat + i ≤ j → bytes'[j]? = bytes1[j]?) →
        src.byte (w1.withBlock b1 bytes') (srcStart.toNat + i) = f i) :
    ∃ w' t bytes', stringCopy x (some src) contLength srcStart length dstStart w = .ok w' ∧
      w'.Held x t b1 bytes' ∧ t.Rep bytes' ∧ Touches x w w' ∧ w'.reports = w.reports ∧
      t.length = max s.length (dstStart + length).toNat ∧
      ∀ j < t.length, bytes'[j]? =
        if dstStart.toNat ≤ j ∧ j < (dstStart + length).toNat then some (f (j - dstStart.toNat))
        else bytes1[j]? := by
  obtain ⟨hlen, hs0, hd0, -⟩ := id hp
  have hmax := ho.required_le
  have hin : ∀ i < length.toNat,
      CopyInside src s1 (srcStart.toNat : ℤ) (dstStart.toNat : ℤ) i := by
    intro i hi
    unfold CopyInside
    rw [toInt32_eq (x := (srcStart.toNat : ℤ) + i) ⟨by omega, by omega⟩,
      toInt32_eq (x := (dstStart.toNat : ℤ) + i) ⟨by omega, by omega⟩]
    omega
  obtain ⟨bytes2, hloop, hlen2, hall⟩ := copyLoop_content ho.held ho.rep.room hin (by omega)
    (by omega) (by have := ho.rep.room; omega) f hf
  rw [Int.toNat_of_nonneg hs0, Int.toNat_of_nonneg hd0] at hloop
  have hheld2 := ho.held.withBlock bytes2
  have hn : max s1.length (dstStart + length).toNat ≤ s1.max :=
    max_le ho.rep.length_le ho.required_le
  obtain ⟨w', hw', hheld', hrep', ht', hrep⟩ := terminate hheld2 (hlen2 ▸ ho.rep.room)
    (hlen2 ▸ ho.rep.bound) hn
  refine ⟨w', _, _, ?_, hheld', hrep', ?_, hrep.trans ho.reports, ?_, ?_⟩
  · rw [stringCopy_passes src h hp hl hd]
    simp only [he, hloop, bind, Except.bind, if_true, hheld2.str, Option.getD_some]
    exact hw'
  · exact (ho.touches.trans (ho.held.touches_withBlock bytes2)).trans ht'
  · dsimp only
    rw [ho.length]
  · intro j hj
    dsimp only at hj
    rw [List.getElem?_set_ne (by omega), hall,
      show dstStart.toNat + length.toNat = (dstStart + length).toNat by omega]

end copy

/-! ### Where growth leaves the block -/

def GrowsInPlace (w : World) (b : ℕ) : Prop :=
  ∃ bytes, w.blocks.grants.head? = some (some (b, bytes))

theorem realloc_moved {α : Type} {h h' : Blocks α} {n copied c : ℕ} (hn : 0 < n)
    (hr : h.realloc (some b) n copied = .ok (some c, h')) :
    (∃ bytes, h.grants.head? = some (some (c, bytes))) ∧ (c = b ∨ h.live c = none) ∧
      (∀ d, d ≠ b → d ≠ c → h'.live d = h.live d) ∧ (c ≠ b → h'.live b = none) := by
  unfold Blocks.realloc at hr
  dsimp only at hr
  split at hr
  · cases hr
  · rw [if_neg (Nat.ne_of_gt hn)] at hr
    split at hr
    · rename_i g bytes hg
      obtain ⟨hc, rfl⟩ := Prod.mk.inj (Except.ok.inj hr)
      obtain rfl := Option.some.inj hc
      refine ⟨?_, ?_, fun d hdb hdc => ?_, fun hcb => ?_⟩
      · unfold Blocks.granted at hg
        split at hg
        · rename_i c' bytes' rest hgr
          split_ifs at hg
          obtain ⟨rfl, rfl⟩ := Prod.mk.inj (Option.some.inj hg)
          exact ⟨bytes', by rw [hgr]; rfl⟩
        · cases hg
      · rcases (Blocks.granted_spec hg).1 with hfree | hown
        · exact .inr hfree
        · exact .inl (Option.some.inj hown).symm
      · simp only [Function.update_of_ne hdc, Function.update_of_ne hdb]
      · simp only [Function.update_of_ne (Ne.symm hcb), Function.update_self]
    · cases hr

structure Grown (w : World) (s : StringX) (b required : ℕ) (w1 : World) (b1 : ℕ) : Prop where
  stale : w1.stale = w.stale
  place : b1 = b ∨ w.blocks.live b1 = none
  other : ∀ d, d ≠ b → d ≠ b1 → w1.blocks.live d = w.blocks.live d
  freed : b1 ≠ b → w1.blocks.live b = none
  stays : b1 = b ↔ required ≤ s.max ∨ GrowsInPlace w b

theorem shEnsureCapacity_grown (h : w.Held x s b bytes) {required : ℕ}
    (he : shEnsureCapacity x s required w = .ok (true, w1)) (hw1 : w1.str x = some s1)
    (hs1 : s1.content = some b1) :
    Grown w s b required w1 b1 := by
  unfold shEnsureCapacity at he
  by_cases hfits : required ≤ s.max
  · rw [if_pos hfits] at he
    obtain ⟨-, rfl⟩ := Prod.mk.inj (Except.ok.inj he)
    rw [h.str] at hw1
    obtain rfl := Option.some.inj hw1
    obtain rfl : b = b1 := Option.some.inj (h.content.symm.trans hs1)
    exact ⟨rfl, .inl rfl, fun _ _ _ => rfl, fun hne => absurd rfl hne,
      iff_of_true rfl (.inl hfits)⟩
  · rw [if_neg hfits] at he
    split at he
    · cases he
    · rename_i newMax hn
      cases hre : memopReallocRaw s.content ((newMax + 1) % 2 ^ 64) w with
      | error e =>
        rw [hre] at he
        cases he
      | ok r =>
        obtain ⟨nc, w2⟩ := r
        rw [hre] at he
        simp only [bind, Except.bind] at he
        cases nc with
        | none =>
          dsimp only at he
          split at he
          · cases he
          · cases he
        | some c =>
          obtain ⟨-, rfl⟩ := Prod.mk.inj (Except.ok.inj he)
          obtain rfl : c = b1 := by
            simp only [World.setStr, Function.update_self] at hw1
            obtain rfl := Option.some.inj hw1
            exact Option.some.inj hs1
          rw [memopReallocRaw, h.content] at hre
          cases hblocks : w.blocks.realloc (some b) ((newMax + 1) % 2 ^ 64) maxBlock with
          | error e =>
            rw [hblocks] at hre
            cases hre
          | ok q =>
            rw [hblocks] at hre
            obtain ⟨hq, rfl⟩ := Prod.mk.inj (Except.ok.inj hre)
            have hpos : 0 < (newMax + 1) % 2 ^ 64 := by
              by_contra h0
              rw [show (newMax + 1) % 2 ^ 64 = 0 by omega] at hblocks
              simp only [Blocks.realloc, h.live, if_true] at hblocks
              rw [← Except.ok.inj hblocks] at hq
              cases hq
            have hrun : w.blocks.realloc (some b) ((newMax + 1) % 2 ^ 64) maxBlock =
                .ok (some c, q.2) := by
              rw [hblocks, ← hq]
            obtain ⟨⟨bs, hhead⟩, hplace, hother, hfreed⟩ := realloc_moved hpos hrun
            refine ⟨rfl, hplace, hother, hfreed, ?_⟩
            constructor
            · rintro rfl
              exact .inr ⟨bs, hhead⟩
            · rintro (hf | ⟨bs', hb⟩)
              · exact absurd hf hfits
              · rw [hhead] at hb
                exact (Prod.mk.inj (Option.some.inj (Option.some.inj hb))).1

/-- The room for `required` characters is there or is granted. -/
def HasRoom (x : ℕ) (s : StringX) (required : ℕ) (w : World) : Prop :=
  ∃ w1, shEnsureCapacity x s required w = .ok (true, w1)

theorem HasRoom.grown (hv : w.Valid) (h : w.Held x s b bytes) (hr : s.Rep bytes) {required : ℕ}
    (hreq : required ≤ 2 ^ 62) (hroom : HasRoom x s required w) :
    ∃ w1 s1 b1 bytes1, shEnsureCapacity x s required w = .ok (true, w1) ∧
      Roomy x w s bytes required w1 s1 b1 bytes1 ∧ Grown w s b required w1 b1 := by
  obtain ⟨w1, he⟩ := hroom
  rcases shEnsureCapacity_spec hv h hr required hreq with
    ⟨w2, s1, b1, bytes1, he2, ho⟩ | ⟨-, he2⟩ | ⟨-, w2, he2, -⟩
  · rw [he] at he2
    obtain ⟨-, rfl⟩ := Prod.mk.inj (Except.ok.inj he2)
    exact ⟨w1, s1, b1, bytes1, he, ho, shEnsureCapacity_grown h he ho.held.str ho.held.content⟩
  · rw [he] at he2
    cases he2
  · rw [he] at he2
    cases he2

/-! ### A source apart from the destination -/

/-- The source is the caller's, or a live block other than `b`. -/
def Source.ApartFrom (w : World) (b : ℕ) : Source → Prop
  | .caller _ _ => True
  | .block c _ => c ≠ b ∧ w.blocks.live c ≠ none

theorem Source.ApartFrom.byte {src : Source} {required : ℕ} (ha : src.ApartFrom w b)
    (hg : Grown w s b required w1 b1) (bytes' : List UInt8) (i : ℕ) :
    src.byte (w1.withBlock b1 bytes') i = src.byte w i := by
  cases src with
  | caller get len => rfl
  | block c len =>
    obtain ⟨hcb, hlive⟩ := ha
    have hc1 : c ≠ b1 := by
      rintro rfl
      rcases hg.place with rfl | hnone
      · exact hcb rfl
      · exact hlive hnone
    simp only [Source.byte, World.withBlock, Function.update_of_ne hc1, hg.other c hcb hc1]
    cases hc : w.blocks.live c with
    | none => exact absurd hc hlive
    | some _ => rfl

section copy
variable {contLength srcStart length dstStart : ℤ}

/-- The visible text of `x` after the copy, from the text before and the bytes of the source. -/
structure CopyShows (x : ℕ) (src : Source) (srcStart length dstStart : ℤ) (w w' : World)
    (old : List UInt8) (text : List UInt8) : Prop where
  before : w.text x = some old
  after : w'.text x = some text
  size : text.length = max old.length (dstStart + length).toNat
  window : ∀ i, dstStart.toNat ≤ i → i < (dstStart + length).toNat →
    text[i]? = some (src.byte w (srcStart.toNat + (i - dstStart.toNat)))
  outside : ∀ i < text.length, ¬(dstStart.toNat ≤ i ∧ i < (dstStart + length).toNat) →
    i < old.length ∧ text[i]? = old[i]?

theorem stringCopy_apart (src : Source) (hv : w.Valid) (h : w.Held x s b bytes) (hr : s.Rep bytes)
    (hp : CopyPasses contLength srcStart length dstStart) (hsrc : srcStart + length ≤ src.len)
    (hsrc31 : srcStart + length ≤ 2 ^ 31) (hdst31 : dstStart + length ≤ 2 ^ 31)
    (hl : IsInt32 length) (hd : IsInt32 dstStart) (ha : src.ApartFrom w b)
    (hroom : HasRoom x s (dstStart + length).toNat w) :
    ∃ w' t b1 bytes', stringCopy x (some src) contLength srcStart length dstStart w = .ok w' ∧
      w'.Held x t b1 bytes' ∧ t.Rep bytes' ∧
      t.length = max s.length (dstStart + length).toNat ∧
      (∀ j < t.length, dstStart.toNat ≤ j → j < (dstStart + length).toNat →
        bytes'[j]? = some (src.byte w (srcStart.toNat + (j - dstStart.toNat)))) ∧
      ∀ j < s.length, ¬(dstStart.toNat ≤ j ∧ j < (dstStart + length).toNat) →
        bytes'[j]? = bytes[j]? := by
  obtain ⟨hlen, hs0, hd0, -⟩ := id hp
  unfold IsInt32 at hl hd
  obtain ⟨w1, s1, b1, bytes1, he, ho, hg⟩ := hroom.grown hv h hr (by omega)
  obtain ⟨w', t, bytes', hrun, hheld, hrep, -, -, hlength, hall⟩ := stringCopy_content src h hp hsrc
    hsrc31 hdst31 hl hd he ho (fun i => src.byte w (srcStart.toNat + i))
    fun i _ bytes' _ => ha.byte hg bytes' _
  refine ⟨w', t, b1, bytes', hrun, hheld, hrep, hlength, fun j hj h1 h2 => ?_, fun j hj hout => ?_⟩
  · rw [hall j hj, if_pos ⟨h1, h2⟩]
  · rw [hall j (by rw [hlength]; exact lt_max_of_lt_left hj), if_neg hout]
    exact ho.same j (le_trans hj.le hr.length_le)

/-- An accepted call on string `x` with block `b`: the source holds the `contLength` bytes the
caller says and lies apart, and no int overflows. -/
structure CopyCall (w : World) (x : ℕ) (s : StringX) (b : ℕ) (src : Source)
    (contLength srcStart length dstStart : ℤ) : Prop where
  valid : w.Valid
  str : w.str x = some s
  content : s.content = some b
  apart : src.ApartFrom w b
  source : contLength ≤ src.len
  passes : CopyPasses contLength srcStart length dstStart
  lengthInt : IsInt32 length
  startInt : IsInt32 dstStart
  srcFits : srcStart + length < 2 ^ 31
  dstFits : dstStart + length ≤ 2 ^ 31

theorem CopyShows.unique {src src2 : Source} {w2 w2' : World} {y : ℕ} {old text text2 : List UInt8}
    (h : CopyShows x src srcStart length dstStart w w' old text)
    (h2 : CopyShows y src2 srcStart length dstStart w2 w2' old text2)
    (hd : 0 ≤ dstStart)
    (hsame : ∀ i < length.toNat,
      src2.byte w2 (srcStart.toNat + i) = src.byte w (srcStart.toNat + i)) :
    text2 = text := by
  apply List.ext_getElem?
  intro i
  by_cases hi : i < text.length
  · by_cases hin : dstStart.toNat ≤ i ∧ i < (dstStart + length).toNat
    · rw [h.window i hin.1 hin.2, h2.window i hin.1 hin.2, hsame _ (by omega)]
    · have hi2 : i < text2.length := by rw [h2.size, ← h.size]; exact hi
      rw [(h.outside i hi hin).2, (h2.outside i hi2 hin).2]
  · have hi2 : ¬i < text2.length := by rw [h2.size, ← h.size]; exact hi
    rw [List.getElem?_eq_none (by omega), List.getElem?_eq_none (by omega)]

theorem CopyCall.shows {src : Source} (h : CopyCall w x s b src contLength srcStart length dstStart)
    (hle : dstStart ≤ s.length) (hgranted : HasRoom x s (dstStart + length).toNat w) :
    ∃ w' old text, stringCopy x (some src) contLength srcStart length dstStart w = .ok w' ∧
      CopyShows x src srcStart length dstStart w w' old text := by
  obtain ⟨bytes, hh, hr⟩ := h.valid.held h.str h.content
  obtain ⟨hlen, hs0, hd0, hfit⟩ := id h.passes
  have hsum : toInt32 (srcStart + length) = srcStart + length :=
    toInt32_eq ⟨by omega, h.srcFits⟩
  have hsource := h.source
  obtain ⟨w', t, b1, bytes', hrun, hheld, hrep, hsize, hin, hout⟩ := stringCopy_apart src h.valid hh
    hr h.passes (by omega) h.srcFits.le h.dstFits h.lengthInt h.startInt h.apart hgranted
  have hrl := hr.length_le
  have hroom := hr.room
  have hrl' := hrep.length_le
  have hroom' := hrep.room
  have htake (i : ℕ) (hi : i < t.length) : (bytes'.take t.length)[i]? = bytes'[i]? :=
    List.getElem?_take_of_lt hi
  have hsizeold : (bytes.take s.length).length = s.length := by
    rw [List.length_take]
    omega
  have hsizenew : (bytes'.take t.length).length = t.length := by
    rw [List.length_take]
    omega
  refine ⟨w', bytes.take s.length, bytes'.take t.length, hrun, hh.text, hheld.text, ?_, ?_, ?_⟩
  · rw [hsizeold, hsizenew, hsize]
  · intro i h1 h2
    have hit : i < t.length := by omega
    rw [htake i hit, hin i hit h1 h2]
  · intro i hi hno
    rw [hsizenew] at hi
    have his : i < s.length := by omega
    refine ⟨hsizeold.symm ▸ his, ?_⟩
    rw [htake i hi, hout i his hno, List.getElem?_take_of_lt his]

/-- The text after the copy is determined by the text before and the arguments, and the same as
after any accepted call that has its room and sees the same text and the same bytes. -/
def CopyDetermined (x : ℕ) (src : Source) (contLength srcStart length dstStart : ℤ) (w : World) :
    Prop :=
  ∃ w' old text, stringCopy x (some src) contLength srcStart length dstStart w = .ok w' ∧
    CopyShows x src srcStart length dstStart w w' old text ∧
    ∀ w2 y s2 b2 src2, CopyCall w2 y s2 b2 src2 contLength srcStart length dstStart →
      HasRoom y s2 (dstStart + length).toNat w2 → w2.text y = some old →
      (∀ i < length.toNat,
        src2.byte w2 (srcStart.toNat + i) = src.byte w (srcStart.toNat + i)) →
      ∃ w2', stringCopy y (some src2) contLength srcStart length dstStart w2 = .ok w2' ∧
        w2'.text y = some text

theorem text_length (hh : w.Held x s b bytes) (hr : s.Rep bytes) {old : List UInt8}
    (hold : w.text x = some old) : old.length = s.length := by
  have hsame := Option.some.inj (hold.symm.trans hh.text)
  have hroom := hr.room
  have hle := hr.length_le
  rw [hsame, List.length_take]
  omega

/-- A copy whose text is written had its room: a refused one leaves the text as it was. -/
theorem CopyCall.hasRoom {src : Source} (h : CopyCall w x s b src contLength srcStart length dstStart)
    {w' : World} {old text : List UInt8}
    (hrun : stringCopy x (some src) contLength srcStart length dstStart w = .ok w')
    (hshow : CopyShows x src srcStart length dstStart w w' old text) :
    HasRoom x s (dstStart + length).toNat w := by
  obtain ⟨bytes, hh, hr⟩ := h.valid.held h.str h.content
  have hfits := h.dstFits
  rw [stringCopy_passes src hh h.passes h.lengthInt h.startInt] at hrun
  rcases shEnsureCapacity_spec h.valid hh hr (dstStart + length).toNat (by omega) with
    ⟨w1, s1, b1, bytes1, he, -⟩ | ⟨-, he⟩ | ⟨-, w1, he, hstr, hlive, -⟩
  · exact ⟨w1, he⟩
  · rw [he] at hrun
    cases hrun
  · have hfull : ¬(dstStart + length).toNat ≤ s.max := by
      intro hle
      rw [shEnsureCapacity, if_pos hle] at he
      cases he
    rw [he] at hrun
    obtain rfl : w1 = w' := Except.ok.inj hrun
    have hkept := hshow.after
    rw [text_of_same hstr hlive, hshow.before] at hkept
    obtain rfl := Option.some.inj hkept
    have hold := text_length hh hr hshow.before
    have hsize := hshow.size
    have hle := hr.length_le
    omega

/-- Behind the end of the string the copy leaves a gap of bytes that nothing determines, and where
the growth is refused nothing is copied. -/
theorem stringCopy_determined (src : Source)
    (h : CopyCall w x s b src contLength srcStart length dstStart) :
    CopyDetermined x src contLength srcStart length dstStart w ↔
      dstStart ≤ s.length ∧ HasRoom x s (dstStart + length).toNat w := by
  obtain ⟨bytes, hh, hr⟩ := h.valid.held h.str h.content
  constructor
  · rintro ⟨w', old, text, hrun, hshow, -⟩
    refine ⟨?_, h.hasRoom hrun hshow⟩
    have hold := text_length hh hr hshow.before
    have hsize := hshow.size
    have hlen := h.passes.1
    by_contra hgap
    have hbad := (hshow.outside old.length (by omega) (by omega)).1
    omega
  · rintro ⟨hle, hgranted⟩
    obtain ⟨w', old, text, hrun, hshow⟩ := h.shows hle hgranted
    refine ⟨w', old, text, hrun, hshow, fun w2 y s2 b2 src2 h2 hgranted2 hold hbytes => ?_⟩
    obtain ⟨bytes2, hh2, hr2⟩ := h2.valid.held h2.str h2.content
    have hsame := text_length hh hr hshow.before
    have hsame2 := text_length hh2 hr2 hold
    obtain ⟨w2', old2, text2, hrun2, hshow2⟩ := h2.shows (by omega) hgranted2
    obtain rfl := Option.some.inj (hshow2.before.symm.trans hold)
    refine ⟨w2', hrun2, ?_⟩
    rw [hshow2.after, hshow.unique hshow2 h.passes.2.2.1 hbytes]

end copy

/-! ### A gap behind the end -/

/-- A fresh string whose block held bytes `v`. -/
def freshString (v : UInt8) : List (StringOp × List (Option (ℕ × List UInt8))) :=
  [(.init 0, [some (7, List.replicate 51 v)])]

def gapCopied (w : World) : Option (List UInt8) :=
  (stringCopy 0 (some (.caller (fun _ => 97) 1)) 1 0 1 2 w).toOption.bind fun w' => w'.text 0

theorem freshString_call (v : UInt8) {d : ℤ} (h0 : 0 ≤ d) (h1 : d ≤ 2) {w : World}
    (hrun : stringRuns.execWhen (fun w l => l.1.SumsFit w) noStrings (freshString v) = some w)
    (hs : w.str 0 = some ⟨true, 50, 0, some 7⟩) :
    CopyCall w 0 ⟨true, 50, 0, some 7⟩ 7 (.caller (fun _ => 97) 1) 1 0 1 d := by
  have hreach : stringRuns.ReachableWhen (fun w l => l.1.SumsFit w) w :=
    .exec (.init ⟨fun _ => rfl, rfl⟩) hrun
  exact
    { valid := (stringRuns_valid hreach).1
      str := hs
      content := rfl
      apart := trivial
      source := le_refl 1
      passes := ⟨by decide, by decide, h0, by decide⟩
      lengthInt := by decide
      startInt := ⟨by omega, by omega⟩
      srcFits := by decide
      dstFits := by omega }

theorem freshString_room {d : ℤ} (h1 : d ≤ 2) (w : World) :
    HasRoom 0 ⟨true, 50, 0, some 7⟩ (d + 1).toNat w :=
  ⟨w, by rw [shEnsureCapacity, if_pos (by dsimp only; omega)]⟩

theorem stringCopy_determined_start :
    ∃ w : World, w.str 0 = some ⟨true, 50, 0, some 7⟩ ∧
      CopyDetermined 0 (.caller (fun _ => 97) 1) 1 0 1 0 w := by
  have hout : (stringRuns.execWhen (fun w l => l.1.SumsFit w) noStrings (freshString 5)).map
      (fun w => w.str 0) = some (some ⟨true, 50, 0, some 7⟩) := by
    decide +kernel
  obtain ⟨w, hrun, hs⟩ := Option.map_eq_some_iff.mp hout
  have hcall := freshString_call 5 (d := 0) (by decide) (by decide) hrun hs
  exact ⟨w, hs, (stringCopy_determined (.caller (fun _ => 97) 1) hcall).mpr
    ⟨by decide, freshString_room (by decide) w⟩⟩

/-- Two empty strings, and the same copy to position 2 of each: the byte at position 1 is whatever
the block held before the string was made. -/
theorem stringCopy_gap :
    ∃ w w2 : World, CopyCall w 0 ⟨true, 50, 0, some 7⟩ 7 (.caller (fun _ => 97) 1) 1 0 1 2 ∧
      CopyCall w2 0 ⟨true, 50, 0, some 7⟩ 7 (.caller (fun _ => 97) 1) 1 0 1 2 ∧
      w.text 0 = some [] ∧ w2.text 0 = some [] ∧ gapCopied w = some [0, 5, 97] ∧
      gapCopied w2 = some [0, 6, 97] ∧
      ¬CopyDetermined 0 (.caller (fun _ => 97) 1) 1 0 1 2 w := by
  have hout (v : UInt8) (hv : v = 5 ∨ v = 6) :
      (stringRuns.execWhen (fun w l => l.1.SumsFit w) noStrings (freshString v)).map
        (fun w => (w.str 0, w.text 0, gapCopied w)) =
      some (some ⟨true, 50, 0, some 7⟩, some [], some [0, v, 97]) := by
    rcases hv with rfl | rfl <;> decide +kernel
  obtain ⟨w, hrun, hw⟩ := Option.map_eq_some_iff.mp (hout 5 (.inl rfl))
  obtain ⟨w2, hrun2, hw2⟩ := Option.map_eq_some_iff.mp (hout 6 (.inr rfl))
  simp only [Prod.mk.injEq] at hw hw2
  have hcall := freshString_call 5 (d := 2) (by decide) (by decide) hrun hw.1
  have hcall2 := freshString_call 6 (d := 2) (by decide) (by decide) hrun2 hw2.1
  refine ⟨w, w2, hcall, hcall2, hw.2.1, hw2.2.1, hw.2.2, hw2.2.2, ?_⟩
  rintro ⟨w', old, text, hcopy, hshow, hsecond⟩
  obtain ⟨w2', hcopy2, htext2⟩ := hsecond w2 0 _ 7 (.caller (fun _ => 97) 1) hcall2
    (freshString_room (le_refl 2) w2)
    (by rw [hw2.2.1, ← hw.2.1, hshow.before]) fun _ _ => rfl
  have h5 := hw.2.2
  have h6 := hw2.2.2
  unfold gapCopied at h5 h6
  rw [hcopy, Except.toOption, Option.bind_some, hshow.after] at h5
  rw [hcopy2, Except.toOption, Option.bind_some, htext2, h5] at h6
  cases h6

end Xplatbase.Strings
