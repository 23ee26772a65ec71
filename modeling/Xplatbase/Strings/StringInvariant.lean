import Xplatbase.Lib.System
import Xplatbase.Strings.StringX

/-! The representation of a `StringX`: room for `Max` characters and the terminator in a block of
its own, `Length` of them used, and a zero behind the last. Every public operation keeps it, and
one that fails keeps the text. -/
namespace Xplatbase.Strings
open Xplatbase.Lib

/-- `bytes` is the block a string with these fields may point to. -/
structure StringX.Rep (s : StringX) (bytes : List UInt8) : Prop where
  room : s.max + 1 ≤ bytes.length
  bound : bytes.length ≤ maxBlock
  length_le : s.length ≤ s.max
  nul : bytes[s.length]? = some 0

structure World.Valid (w : World) : Prop where
  content : ∀ x s b, w.str x = some s → s.content = some b →
    ∃ bytes, w.blocks.live b = some bytes ∧ s.Rep bytes
  apart : ∀ x y s t b, w.str x = some s → w.str y = some t → s.content = some b →
    t.content = some b → x = y
  empty : ∀ x s, w.str x = some s → s.content = none → s.length = 0 ∧ s.max = 0

/-- The first `Length` bytes. -/
def World.text (w : World) (x : ℕ) : Option (List UInt8) :=
  (w.str x).bind fun s =>
    match s.content with
    | none => some []
    | some b => (w.blocks.live b).map (·.take s.length)

/-- String `x` of `w`, its block and what the block holds. -/
structure World.Held (w : World) (x : ℕ) (s : StringX) (b : ℕ) (bytes : List UInt8) : Prop where
  str : w.str x = some s
  content : s.content = some b
  live : w.blocks.live b = some bytes
  alone : ∀ y t, y ≠ x → w.str y = some t → t.content ≠ some b

/-- Every string but `x` is as it was, its block included. -/
structure Touches (x : ℕ) (w w' : World) : Prop where
  str : ∀ y, y ≠ x → w'.str y = w.str y
  live : ∀ y t b, y ≠ x → w.str y = some t → t.content = some b →
    w'.blocks.live b = w.blocks.live b
  handler : w'.handler = w.handler

def World.withBlock (w : World) (b : ℕ) (bytes : List UInt8) : World :=
  { w with blocks := { w.blocks with live := Function.update w.blocks.live b (some bytes) } }

variable {w w' w'' : World} {x y b : ℕ} {s t : StringX} {bytes : List UInt8}

theorem World.Valid.held (h : w.Valid) (hs : w.str x = some s) (hb : s.content = some b) :
    ∃ bytes, w.Held x s b bytes ∧ s.Rep bytes := by
  obtain ⟨bytes, hlive, hrep⟩ := h.content x s b hs hb
  exact ⟨bytes, ⟨hs, hb, hlive, fun y t hy ht htb => hy (h.apart y x t s b ht hs htb hb)⟩, hrep⟩

theorem Touches.refl (x : ℕ) (w : World) :
    Touches x w w :=
  ⟨fun _ _ => rfl, fun _ _ _ _ _ _ => rfl, rfl⟩

theorem Touches.trans (h : Touches x w w') (h' : Touches x w' w'') :
    Touches x w w'' where
  str := fun y hy => (h'.str y hy).trans (h.str y hy)
  live := fun y t b hy ht hb => by
    rw [h'.live y t b hy ((h.str y hy).trans ht) hb, h.live y t b hy ht hb]
  handler := h'.handler.trans h.handler

theorem Touches.text (h : Touches x w w') (hy : y ≠ x) :
    w'.text y = w.text y := by
  unfold World.text
  rw [h.str y hy]
  cases ht : w.str y with
  | none => rfl
  | some t =>
    cases hb : t.content with
    | none => simp [hb]
    | some b => simp [hb, h.live y t b hy ht hb]

theorem text_of_same (hstr : w'.str = w.str) (hlive : w'.blocks.live = w.blocks.live) (y : ℕ) :
    w'.text y = w.text y := by
  simp only [World.text, hstr, hlive]

theorem World.Valid.of_same (h : w.Valid) (hstr : w'.str = w.str)
    (hlive : w'.blocks.live = w.blocks.live) :
    w'.Valid where
  content := by rw [hstr, hlive]; exact h.content
  apart := by rw [hstr]; exact h.apart
  empty := by rw [hstr]; exact h.empty

/-- What an operation on `x` has to show in the end. -/
theorem World.Valid.touch_of (h : w.Valid) (ht : Touches x w w')
    (hx : ∀ s, w'.str x = some s → (s.content = none ∧ s.length = 0 ∧ s.max = 0) ∨
      ∃ b bytes, w'.Held x s b bytes ∧ s.Rep bytes) :
    w'.Valid where
  content := by
    intro y t c hy hc
    by_cases hyx : y = x
    · subst hyx
      rcases hx t hy with ⟨hn, -⟩ | ⟨b, bytes, hh, hr⟩
      · rw [hn] at hc
        cases hc
      · obtain rfl : b = c := Option.some.inj (hh.content.symm.trans hc)
        exact ⟨bytes, hh.live, hr⟩
    · have hyw : w.str y = some t := (ht.str y hyx) ▸ hy
      rw [ht.live y t c hyx hyw hc]
      exact h.content y t c hyw hc
  apart := by
    have hother : ∀ y z t u c, y ≠ x → z = x → w'.str y = some t → w'.str z = some u →
        t.content = some c → u.content = some c → False := by
      rintro y z t u c hyx rfl hy hz hyc hzc
      rcases hx u hz with ⟨hn, -⟩ | ⟨b, bytes, hh, -⟩
      · rw [hn] at hzc
        cases hzc
      · obtain rfl : b = c := Option.some.inj (hh.content.symm.trans hzc)
        exact hh.alone y t hyx hy hyc
    intro y z t u c hy hz hyc hzc
    by_cases hyx : y = x
    · by_cases hzx : z = x
      · rw [hyx, hzx]
      · exact (hother z y u t c hzx hyx hz hy hzc hyc).elim
    · by_cases hzx : z = x
      · exact (hother y z t u c hyx hzx hy hz hyc hzc).elim
      · exact h.apart y z t u c ((ht.str y hyx) ▸ hy) ((ht.str z hzx) ▸ hz) hyc hzc
  empty := by
    intro y t hy hc
    by_cases hyx : y = x
    · subst hyx
      rcases hx t hy with ⟨-, h0⟩ | ⟨b, bytes, hh, -⟩
      · exact h0
      · rw [hh.content] at hc
        cases hc
    · exact h.empty y t ((ht.str y hyx) ▸ hy) hc

theorem World.Valid.touch (h : w.Valid) (ht : Touches x w w') (hh : w'.Held x s b bytes)
    (hr : s.Rep bytes) :
    w'.Valid :=
  h.touch_of ht fun _ hy => Or.inr ⟨b, bytes, (Option.some.inj (hh.str.symm.trans hy)) ▸ hh,
    (Option.some.inj (hh.str.symm.trans hy)) ▸ hr⟩

theorem World.Held.text (h : w.Held x s b bytes) :
    w.text x = some (bytes.take s.length) := by
  simp [World.text, h.str, h.content, h.live]

theorem World.Held.withBlock (h : w.Held x s b bytes) (bytes' : List UInt8) :
    (w.withBlock b bytes').Held x s b bytes' :=
  ⟨h.str, h.content, by simp [World.withBlock], h.alone⟩

theorem World.Held.touches_withBlock (h : w.Held x s b bytes) (bytes' : List UInt8) :
    Touches x w (w.withBlock b bytes') where
  str := fun _ _ => rfl
  live := fun y t c hy ht hc => by
    have hcb : c ≠ b := fun he => h.alone y t hy ht (he ▸ hc)
    simp [World.withBlock, Function.update_of_ne hcb]
  handler := rfl

theorem withBlock_withBlock (w : World) (b : ℕ) (bytes bytes' : List UInt8) :
    (w.withBlock b bytes).withBlock b bytes' = w.withBlock b bytes' := by
  simp [World.withBlock]

theorem World.Held.withBlock_self (h : w.Held x s b bytes) :
    w.withBlock b bytes = w := by
  have hup : Function.update w.blocks.live b (some bytes) = w.blocks.live := by
    rw [← h.live, Function.update_eq_self]
  rw [World.withBlock, hup]

/-- A field update of `x` that leaves its block alone. -/
theorem World.Held.setStr (h : w.Held x s b bytes) (ht : t.content = some b) :
    (w.setStr x t).Held x t b bytes :=
  ⟨by simp [World.setStr], ht, h.live, fun y u hy hu => by
    apply h.alone y u hy
    simpa [World.setStr, Function.update_of_ne hy] using hu⟩

theorem touches_setStr (w : World) (x : ℕ) (t : StringX) :
    Touches x w (w.setStr x t) :=
  ⟨fun y hy => by simp [World.setStr, Function.update_of_ne hy], fun _ _ _ _ _ _ => rfl, rfl⟩

theorem setContent_held (h : w.Held x s b bytes) (hroom : s.max + 1 ≤ bytes.length) {i : ℤ}
    (h0 : 0 ≤ i) (h1 : i ≤ s.max) (v : UInt8) :
    setContent x i v w = .ok (w.withBlock b (bytes.set i.toNat v)) := by
  have hlt : i.toNat < bytes.length := by omega
  simp only [setContent, h.str, h.content, h0, h1, and_self, if_true, Blocks.set, h.live, hlt,
    Except.map, World.withBlock]

theorem setContent_outside (h : w.Held x s b bytes) {i : ℤ} (hi : ¬(0 ≤ i ∧ i ≤ s.max))
    (v : UInt8) :
    setContent x i v w = .error .outOfBounds := by
  simp only [setContent, h.str, h.content, if_neg hi]

/-- Doubling reaches what it must before it could wrap. -/
theorem growTo_spec (fuel : ℕ) {m required : ℕ} (hfuel : required ≤ m * 2 ^ fuel)
    (hm : m < 2 ^ 63) (hreq : required ≤ 2 ^ 62) :
    ∃ n, growTo fuel m required = some n ∧ required ≤ n ∧ m ≤ n ∧ (n = m ∨ n < 2 * required) := by
  induction fuel generalizing m with
  | zero =>
    rw [pow_zero, mul_one] at hfuel
    exact ⟨m, by rw [growTo, if_neg (by omega)], hfuel, le_refl m, Or.inl rfl⟩
  | succ fuel ih =>
    by_cases hlt : m < required
    · have hmod : m * 2 % 2 ^ 64 = m * 2 := Nat.mod_eq_of_lt (by omega)
      have hstep : required ≤ m * 2 * 2 ^ fuel := by
        rw [pow_succ, mul_comm (2 ^ fuel), ← mul_assoc] at hfuel
        exact hfuel
      obtain ⟨n, hn, hreach, hle, hbound⟩ := ih hstep (by omega)
      refine ⟨n, by rw [growTo, if_pos hlt, hmod, hn], hreach, by omega, Or.inr ?_⟩
      rcases hbound with rfl | hb
      · omega
      · exact hb
    · exact ⟨m, by rw [growTo, if_neg hlt], by omega, le_refl m, Or.inl rfl⟩

/-- Capacity was there or has been made: same text, `required` characters of room. -/
structure Roomy (x : ℕ) (w : World) (s : StringX) (bytes : List UInt8) (required : ℕ)
    (w' : World) (s' : StringX) (b' : ℕ) (bytes' : List UInt8) : Prop where
  held : w'.Held x s' b' bytes'
  rep : s'.Rep bytes'
  length : s'.length = s.length
  max_le : s.max ≤ s'.max
  required_le : required ≤ s'.max
  same : ∀ i ≤ s.max, bytes'[i]? = bytes[i]?
  touches : Touches x w w'
  reports : w'.reports = w.reports

theorem firstMax_pos (s : StringX) :
    1 ≤ s.firstMax := by
  unfold StringX.firstMax initialStringLength
  split_ifs <;> omega

theorem firstMax_le (s : StringX) :
    s.max ≤ s.firstMax ∧ s.firstMax ≤ s.max + 50 := by
  unfold StringX.firstMax initialStringLength
  split_ifs <;> omega

/-- The doubling of a string that fits its block ends, and well below 2^64. -/
theorem growTo_firstMax (hr : s.Rep bytes) {required : ℕ} (hreq : required ≤ 2 ^ 62) :
    ∃ n, growTo 64 s.firstMax required = some n ∧ required ≤ n ∧ s.max ≤ n ∧ n < 2 ^ 63 ∧
      (n = s.firstMax ∨ n < 2 * required) := by
  have hmax : s.max + 1 ≤ maxBlock := le_trans hr.room hr.bound
  have hblock : maxBlock < 2 ^ 62 := by decide
  have hfirst := firstMax_le s
  obtain ⟨n, hn, hreach, hle, hbound⟩ := growTo_spec 64 (m := s.firstMax)
    (by
      calc required ≤ 2 ^ 62 := hreq
        _ ≤ 1 * 2 ^ 64 := by norm_num
        _ ≤ _ := Nat.mul_le_mul_right _ (firstMax_pos s))
    (by omega) hreq
  refine ⟨n, hn, hreach, by omega, ?_, hbound⟩
  rcases hbound with rfl | hb <;> omega

theorem shEnsureCapacity_granted {required n c : ℕ} (hfits : ¬required ≤ s.max)
    (hn : growTo 64 s.firstMax required = some n) (hn64 : n < 2 ^ 63)
    (hre : memopReallocRaw s.content (n + 1) w = .ok (some c, w')) :
    shEnsureCapacity x s required w =
      .ok (true, w'.setStr x { s with content := some c, max := n }) := by
  have hmod : (n + 1) % 2 ^ 64 = n + 1 := Nat.mod_eq_of_lt (by omega)
  rw [shEnsureCapacity, if_neg hfits, hn]
  simp only [hmod, hre, bind, Except.bind]

theorem shEnsureCapacity_denied {required n : ℕ} (hfits : ¬required ≤ s.max)
    (hn : growTo 64 s.firstMax required = some n) (hn64 : n < 2 ^ 63)
    (hre : memopReallocRaw s.content (n + 1) w = .ok (none, w')) :
    shEnsureCapacity x s required w =
      (xpbEventTriggerError none "Falha ao realocar %zu caracteres para a string." [n + 1]
        w').map fun w => (false, w) := by
  have hmod : (n + 1) % 2 ^ 64 = n + 1 := Nat.mod_eq_of_lt (by omega)
  rw [shEnsureCapacity, if_neg hfits, hn]
  simp only [hmod, hre, bind, Except.bind, Except.map]

theorem memopReallocRaw_spec (h : w.Held x s b bytes) {n : ℕ} (hn : 0 < n) :
    ∃ r w', memopReallocRaw s.content n w = .ok (r, w') ∧ w'.str = w.str ∧
      w'.handler = w.handler ∧ w'.reports = w.reports ∧
      ((r = none ∧ w'.blocks.live = w.blocks.live) ∨
        ∃ c bytes', r = some c ∧ (c = b ∨ w.blocks.live c = none) ∧ n ≤ bytes'.length ∧
          bytes'.length ≤ maxBlock ∧ (∀ i < n, i < bytes.length → bytes'[i]? = bytes[i]?) ∧
          w'.blocks.live =
            Function.update (Function.update w.blocks.live b none) c (some bytes')) := by
  obtain ⟨r, h', hre, hcases⟩ := Blocks.realloc_spec h.live hn maxBlock
  refine ⟨r, { w with blocks := h' }, ?_, rfl, rfl, rfl, ?_⟩
  · rw [memopReallocRaw, h.content, hre]
    rfl
  · rcases hcases with hrefused | ⟨c, bytes', hc, hplace, hlen, hmax, hkept, hlive⟩
    · exact Or.inl hrefused
    · exact Or.inr ⟨c, bytes', hc, hplace, hlen, hmax,
        fun i hi => hkept i hi (by omega), hlive⟩

theorem shEnsureCapacity_spec (hv : w.Valid) (h : w.Held x s b bytes) (hr : s.Rep bytes)
    (required : ℕ) (hreq : required ≤ 2 ^ 62) :
    (∃ w' s' b' bytes', shEnsureCapacity x s required w = .ok (true, w') ∧
        Roomy x w s bytes required w' s' b' bytes') ∨
      (w.handler = .default ∧ shEnsureCapacity x s required w = .error .nullDeref) ∨
      w.handler = .application ∧ ∃ w', shEnsureCapacity x s required w = .ok (false, w') ∧
        w'.str = w.str ∧ w'.blocks.live = w.blocks.live ∧ w'.handler = w.handler ∧
        w'.reports ≠ w.reports := by
  by_cases hfits : required ≤ s.max
  · exact Or.inl ⟨w, s, b, bytes, by rw [shEnsureCapacity, if_pos hfits], h, hr, rfl, le_refl _,
      hfits, fun _ _ => rfl, .refl x w, rfl⟩
  obtain ⟨n, hn, hreach, hle, hn64, -⟩ := growTo_firstMax hr hreq
  obtain ⟨r, w1, hre, hstr, hhandler, hreports, hcases⟩ :=
    memopReallocRaw_spec h (n := n + 1) (Nat.succ_pos n)
  rcases hcases with ⟨rfl, hlive⟩ | ⟨c, bytes', rfl, hc, hlen, hbd, hkept, hlive⟩
  · rw [shEnsureCapacity_denied hfits hn hn64 hre]
    rcases handler_cases w with hh | hh
    · exact Or.inr (Or.inl ⟨hh, by rw [xpbEventTriggerError_default (hhandler.trans hh)]; rfl⟩)
    · refine Or.inr (Or.inr ⟨hh, { w1 with reports :=
        ("Falha ao realocar %zu caracteres para a string.", [n + 1]) :: w1.reports }, ?_, hstr,
        hlive, hhandler, ?_⟩)
      · rw [xpbEventTriggerError_application (hhandler.trans hh)]
        rfl
      · simp [hreports]
  · refine Or.inl ⟨_, { s with content := some c, max := n }, c, bytes',
      shEnsureCapacity_granted hfits hn hn64 hre, ?_⟩
    have hroom := hr.room
    have hfree : ∀ y t, y ≠ x → w.str y = some t → t.content ≠ some c := by
      intro y t hy ht hcon
      rcases hc with rfl | hc
      · exact h.alone y t hy ht hcon
      · obtain ⟨old, hold, -⟩ := hv.content y t c ht hcon
        rw [hc] at hold
        cases hold
    have hsame : ∀ i ≤ s.max, bytes'[i]? = bytes[i]? := by
      intro i hi
      exact hkept i (by omega) (by omega)
    exact
      { held := ⟨by simp [World.setStr], rfl, by simp [World.setStr, hlive], fun y t hy ht => by
          apply hfree y t hy
          simpa [World.setStr, hstr, Function.update_of_ne hy] using ht⟩
        rep := ⟨hlen, hbd, by have := hr.length_le; dsimp only; omega, by
          rw [hsame s.length hr.length_le]
          exact hr.nul⟩
        length := rfl
        max_le := by dsimp only; omega
        required_le := hreach
        same := hsame
        touches := ⟨fun y hy => by simp [World.setStr, hstr, Function.update_of_ne hy],
          fun y t d hy ht hd => by
            have hdc : d ≠ c := fun he => hfree y t hy ht (he ▸ hd)
            have hdb : d ≠ b := fun he => h.alone y t hy ht (he ▸ hd)
            simp [World.setStr, hlive, Function.update_of_ne hdc, Function.update_of_ne hdb],
          hhandler⟩
        reports := hreports }

theorem Source.read_inside {src : Source} {i : ℤ} (h0 : 0 ≤ i) (h1 : i < src.len) (w : World) :
    src.read i w = .ok (src.byte w i.toNat) :=
  if_pos ⟨h0, h1⟩

/-- Pass `i` of the copy reads inside the source and writes inside the capacity. -/
def CopyInside (src : Source) (s : StringX) (srcStart dstStart : ℤ) (i : ℕ) : Prop :=
  (0 ≤ toInt32 (srcStart + i) ∧ toInt32 (srcStart + i) < src.len) ∧
    0 ≤ toInt32 (dstStart + i) ∧ toInt32 (dstStart + i) < (s.max : ℤ) + 1

theorem copyByte_inside (h : w.Held x s b bytes) (hroom : s.max + 1 ≤ bytes.length)
    {src : Source} {srcStart dstStart : ℤ} {i : ℕ} (hi : CopyInside src s srcStart dstStart i) :
    ∃ v, copyByte x src srcStart dstStart i w =
      .ok (w.withBlock b (bytes.set (toInt32 (dstStart + i)).toNat v)) := by
  obtain ⟨⟨hr0, hr1⟩, hw0, hw1⟩ := hi
  refine ⟨src.byte w (toInt32 (srcStart + i)).toNat, ?_⟩
  simp only [copyByte, Source.read_inside hr0 hr1, bind, Except.bind]
  exact setContent_held h hroom hw0 (by omega) _

theorem copyByte_outside (h : w.Held x s b bytes) {src : Source} {srcStart dstStart : ℤ} {i : ℕ}
    (hi : ¬CopyInside src s srcStart dstStart i) :
    copyByte x src srcStart dstStart i w = .error .outOfBounds := by
  by_cases hr : 0 ≤ toInt32 (srcStart + i) ∧ toInt32 (srcStart + i) < src.len
  · simp only [copyByte, Source.read_inside hr.1 hr.2, bind, Except.bind]
    exact setContent_outside h (fun hw => hi ⟨hr, hw.1, by omega⟩) _
  · simp only [copyByte, Source.read, if_neg hr, bind, Except.bind]

/-- The copy loop rewrites bytes of the one block and nothing else. -/
theorem copyLoop_inside (h : w.Held x s b bytes) (hroom : s.max + 1 ≤ bytes.length)
    {src : Source} {srcStart dstStart : ℤ} {n : ℕ}
    (hin : ∀ i < n, CopyInside src s srcStart dstStart i) :
    ∃ bytes', forUpTo (copyByte x src srcStart dstStart) n w = .ok (w.withBlock b bytes') ∧
      bytes'.length = bytes.length := by
  obtain ⟨w', hw', bytes', rfl, hlen⟩ := forUpTo_ok
    (fun _ w' => ∃ bytes', w' = w.withBlock b bytes' ∧ bytes'.length = bytes.length)
    (s := w) ⟨bytes, h.withBlock_self.symm, rfl⟩ (by
      rintro i _ hi ⟨bytes', rfl, hlen⟩
      obtain ⟨v, hv⟩ := copyByte_inside (h.withBlock bytes') (by omega) (hin i hi)
      refine ⟨_, hv, _, withBlock_withBlock w b bytes' _, ?_⟩
      rw [List.length_set, hlen])
  exact ⟨bytes', hw', hlen⟩

/-- A pass outside is reached, whatever the earlier passes did. -/
theorem copyLoop_outside (h : w.Held x s b bytes) (hroom : s.max + 1 ≤ bytes.length)
    {src : Source} {srcStart dstStart : ℤ} {n k : ℕ} (hk : k < n)
    (hout : ¬CopyInside src s srcStart dstStart k) :
    forUpTo (copyByte x src srcStart dstStart) n w = .error .outOfBounds := by
  rcases forUpTo_ok_or (e := CFault.outOfBounds) (n := n)
    (fun i w' => (∃ bytes', w' = w.withBlock b bytes' ∧ bytes'.length = bytes.length) ∧
      ∀ j < i, CopyInside src s srcStart dstStart j)
    (s := w) ⟨⟨bytes, h.withBlock_self.symm, rfl⟩, by omega⟩ (by
      rintro i _ hi ⟨⟨bytes', rfl, hlen⟩, hall⟩
      by_cases hin : CopyInside src s srcStart dstStart i
      · obtain ⟨v, hv⟩ := copyByte_inside (h.withBlock bytes') (by omega) hin
        refine Or.inr ⟨_, hv, ⟨_, withBlock_withBlock w b bytes' _, ?_⟩, fun j hj => ?_⟩
        · rw [List.length_set, hlen]
        · rcases Nat.lt_succ_iff_lt_or_eq.mp hj with hj | rfl
          · exact hall j hj
          · exact hin
      · exact Or.inl (copyByte_outside (h.withBlock bytes') hin)) with herr | ⟨w', -, -, hall⟩
  · exact herr
  · exact absurd (hall k hk) hout

/-- The last store of an operation: the new length and the terminator behind it. -/
theorem terminate (h : w.Held x s b bytes) (hr0 : s.max + 1 ≤ bytes.length)
    (hr1 : bytes.length ≤ maxBlock) {n : ℕ} (hn : n ≤ s.max) :
    ∃ w', setContent x n 0 (w.setStr x { s with length := n }) = .ok w' ∧
      w'.Held x { s with length := n } b (bytes.set n 0) ∧
      StringX.Rep { s with length := n } (bytes.set n 0) ∧ Touches x w w' ∧
      w'.reports = w.reports := by
  have hset := h.setStr (t := { s with length := n }) h.content
  refine ⟨_, setContent_held hset hr0 (by omega) (by exact_mod_cast hn) 0, ?_, ?_, ?_, rfl⟩
  · exact hset.withBlock _
  · refine ⟨?_, ?_, hn, ?_⟩
    · rw [List.length_set]
      exact hr0
    · rw [List.length_set]
      exact hr1
    · exact List.getElem?_set_self (by omega)
  · exact (touches_setStr w x _).trans (hset.touches_withBlock _)

/-- The checks of `string_copy` before it asks for room. -/
def CopyPasses (contLength srcStart length dstStart : ℤ) : Prop :=
  0 < length ∧ 0 ≤ srcStart ∧ 0 ≤ dstStart ∧ toInt32 (srcStart + length) ≤ contLength

theorem stringCopy_stopped {contLength srcStart length dstStart : ℤ} (content : Option Source)
    (hp : ¬CopyPasses contLength srcStart length dstStart) :
    stringCopy x content contLength srcStart length dstStart w = .ok w := by
  unfold stringCopy
  split
  · split_ifs with h1 h2 h3
    · rfl
    · rfl
    · rfl
    · exact absurd ⟨by omega, by omega, by omega, by omega⟩ hp
  · rfl

theorem stringCopy_null {contLength srcStart length dstStart : ℤ} {content : Option Source}
    (hn : content = none ∨ ∀ s, w.str x = some s → s.content = none) :
    stringCopy x content contLength srcStart length dstStart w = .ok w := by
  unfold stringCopy
  split
  · rename_i s src hs
    rcases hn with hn | hn
    · cases hn
    · rw [if_pos (hn s hs)]
  · rfl

section copy
variable {contLength srcStart length dstStart : ℤ}

theorem stringCopy_passes (src : Source) (h : w.Held x s b bytes)
    (hp : CopyPasses contLength srcStart length dstStart) (hl : IsInt32 length)
    (hd : IsInt32 dstStart) :
    stringCopy x (some src) contLength srcStart length dstStart w =
      (shEnsureCapacity x s (dstStart + length).toNat w >>= fun (ok, w) =>
        if ok then
          forUpTo (copyByte x src srcStart dstStart) length.toNat w >>= fun w =>
            let s := (w.str x).getD s
            let s := { s with length := max s.length (dstStart + length).toNat }
            setContent x s.length 0 (w.setStr x s)
        else .ok w) := by
  obtain ⟨hlen, hs0, hd0, hfit⟩ := hp
  have hstop : (toUInt64 dstStart + toUInt64 length) % 2 ^ 64 = (dstStart + length).toNat := by
    unfold IsInt32 at hl hd
    unfold toUInt64
    omega
  have hnull : s.content ≠ none := by simp [h.content]
  simp only [stringCopy, h.str, if_neg hnull, if_neg (show ¬(length ≤ 0 ∨ srcStart < 0 ∨
    dstStart < 0) by omega), if_neg (not_lt.mpr hfit), hstop]

/-- With every pass inside, the copy succeeds as soon as there is room. -/
theorem stringCopy_inside (src : Source) (hv : w.Valid) (h : w.Held x s b bytes) (hr : s.Rep bytes)
    (hp : CopyPasses contLength srcStart length dstStart) (hs : IsInt32 srcStart)
    (hl : IsInt32 length) (hd : IsInt32 dstStart) (hsrc : srcStart + length ≤ src.len)
    (hsrc31 : srcStart + length ≤ 2 ^ 31) (hdst31 : dstStart + length ≤ 2 ^ 31) :
    (∃ w', stringCopy x (some src) contLength srcStart length dstStart w = .ok w' ∧ w'.Valid ∧
        Touches x w w' ∧ w'.reports = w.reports) ∨
      (w.handler = .default ∧
        stringCopy x (some src) contLength srcStart length dstStart w = .error .nullDeref) ∨
      w.handler = .application ∧
        ∃ w', stringCopy x (some src) contLength srcStart length dstStart w = .ok w' ∧
          w'.str = w.str ∧ w'.blocks.live = w.blocks.live ∧ w'.handler = w.handler ∧
          w'.reports ≠ w.reports := by
  obtain ⟨hlen, hs0, hd0, -⟩ := id hp
  rw [stringCopy_passes src h hp hl hd]
  unfold IsInt32 at hs hl hd
  rcases shEnsureCapacity_spec hv h hr (dstStart + length).toNat (by omega) with
    ⟨w1, s1, b1, bytes1, he, ho⟩ | ⟨hh, he⟩ | ⟨hh, w1, he, hsame⟩
  · apply Or.inl
    have hin : ∀ i < length.toNat, CopyInside src s1 srcStart dstStart i := by
      intro i hi
      have hmax := ho.required_le
      have hread := (toInt32_range src.len hs0 hs.2 (n := length.toNat) (by omega) (by omega)).mpr
        ⟨by omega, by omega⟩ i hi
      have hwrite := (toInt32_range ((s1.max : ℤ) + 1) hd0 hd.2 (n := length.toNat)
        (by omega) (by omega)).mpr ⟨by omega, by omega⟩ i hi
      exact ⟨hread, hwrite⟩
    obtain ⟨bytes2, hloop, hlen2⟩ := copyLoop_inside ho.held ho.rep.room hin
    have hheld2 := ho.held.withBlock bytes2
    have hn : max s1.length (dstStart + length).toNat ≤ s1.max :=
      max_le ho.rep.length_le ho.required_le
    obtain ⟨w', hw', hheld', hrep', ht', hrep⟩ := terminate hheld2
      (hlen2 ▸ ho.rep.room) (hlen2 ▸ ho.rep.bound) hn
    have ht : Touches x w w' :=
      (ho.touches.trans (ho.held.touches_withBlock bytes2)).trans ht'
    refine ⟨w', ?_, hv.touch ht hheld' hrep', ht, hrep.trans ho.reports⟩
    simp only [he, hloop, bind, Except.bind, if_true, hheld2.str, Option.getD_some]
    exact hw'
  · exact Or.inr (Or.inl ⟨hh, by rw [he]; rfl⟩)
  · exact Or.inr (Or.inr ⟨hh, w1, by rw [he]; rfl, hsame⟩)

end copy

/-- The string `string_release` leaves, and a refused `string_init`. -/
def StringX.released : StringX := ⟨false, 0, 0, none⟩

theorem World.Valid.released (h : w.Valid) (ht : Touches x w w')
    (hx : w'.str x = some StringX.released) :
    w'.Valid :=
  h.touch_of ht fun s hs => by
    obtain rfl : StringX.released = s := Option.some.inj (hx.symm.trans hs)
    exact Or.inl ⟨rfl, rfl, rfl⟩

/-- A block fresh from the allocator belongs to no string. -/
theorem World.Valid.fresh (h : w.Valid) (hb : w.blocks.live b = none) (hy : w.str y = some t) :
    t.content ≠ some b := by
  intro hc
  obtain ⟨bytes, hlive, -⟩ := h.content y t b hy hc
  rw [hb] at hlive
  cases hlive

theorem memopAllocRaw_spec (n : ℕ) (w : World) :
    (∃ w', memopAllocRaw n w = (none, w') ∧ w'.str = w.str ∧ w'.blocks.live = w.blocks.live ∧
        w'.handler = w.handler ∧ w'.reports = w.reports) ∨
      ∃ b bytes w', memopAllocRaw n w = (some b, w') ∧ w.blocks.live b = none ∧
        n ≤ bytes.length ∧ bytes.length ≤ maxBlock ∧ w'.str = w.str ∧
        w'.blocks.live = Function.update w.blocks.live b (some bytes) ∧
        w'.handler = w.handler ∧ w'.reports = w.reports := by
  rcases Blocks.alloc_spec w.blocks n with ⟨hn, hlive⟩ | ⟨b, bytes, hb, hfree, hlen, hmax, hlive⟩
  · exact Or.inl ⟨_, Prod.ext hn rfl, rfl, hlive, rfl, rfl⟩
  · exact Or.inr ⟨b, bytes, _, Prod.ext hb rfl, hfree, hlen, hmax, rfl, hlive, rfl, rfl⟩

theorem stringInit_spec (hv : w.Valid) (x : ℕ) :
    (∃ w' s b bytes, stringInit x w = .ok w' ∧ w'.Valid ∧ w'.Held x s b bytes ∧
        Touches x w w' ∧ w'.reports = w.reports) ∨
      (w.handler = .default ∧ stringInit x w = .error .nullDeref) ∨
      w.handler = .application ∧ ∃ w', stringInit x w = .ok w' ∧ w'.Valid ∧ Touches x w w' ∧
        w'.str x = some StringX.released := by
  rcases memopAllocRaw_spec (initialStringLength + 1) w with
    ⟨w1, ha, hstr, hlive, hh, -⟩ | ⟨b, bytes, w1, ha, hfree, hlen, hmax, hstr, hlive, hh, hrep⟩
  · apply Or.inr
    simp only [stringInit, ha]
    rcases handler_cases w with hw | hw
    · exact Or.inl ⟨hw, by rw [xpbEventTriggerError_default (hh.trans hw)]; rfl⟩
    · rw [xpbEventTriggerError_application (hh.trans hw)]
      have ht : Touches x w ({ w1 with reports :=
          ("Falha ao alocar %zu caracteres para a string.", [initialStringLength + 1]) ::
            w1.reports }.setStr x StringX.released) :=
        ⟨fun y hy => by simp [World.setStr, Function.update_of_ne hy, hstr],
          fun y t c hy hty hc => congrFun hlive c, hh⟩
      have hx : ({ w1 with reports :=
          ("Falha ao alocar %zu caracteres para a string.", [initialStringLength + 1]) ::
            w1.reports }.setStr x StringX.released).str x = some StringX.released := by
        simp [World.setStr]
      exact Or.inr ⟨hw, _, rfl, hv.released ht hx, ht, hx⟩
  · apply Or.inl
    have hheld : (w1.setStr x ⟨true, initialStringLength, 0, some b⟩).Held x
        ⟨true, initialStringLength, 0, some b⟩ b bytes :=
      ⟨by simp [World.setStr], rfl, by simp [World.setStr, hlive], fun y t hy ht => by
        apply hv.fresh hfree (y := y)
        simpa [World.setStr, Function.update_of_ne hy, hstr] using ht⟩
    have ht1 : Touches x w (w1.setStr x ⟨true, initialStringLength, 0, some b⟩) :=
      ⟨fun y hy => by simp [World.setStr, Function.update_of_ne hy, hstr],
        fun y t c hy hty hc => by
          have hcb : c ≠ b := fun he => hv.fresh hfree hty (he ▸ hc)
          simp [World.setStr, hlive, Function.update_of_ne hcb], hh⟩
    have hset := setContent_held hheld (i := 0) hlen (le_refl 0) (by simp) 0
    have ht := ht1.trans (hheld.touches_withBlock (bytes.set 0 0))
    refine ⟨_, _, b, _, ?_, hv.touch ht (hheld.withBlock _) ⟨?_, ?_, Nat.zero_le _, ?_⟩,
      hheld.withBlock _, ht, hrep⟩
    · simp only [stringInit, ha]
      exact hset
    · rw [List.length_set]
      exact hlen
    · rw [List.length_set]
      exact hmax
    · exact List.getElem?_set_self (by omega)

theorem stringRelease_spec (hv : w.Valid) (x : ℕ) :
    ∃ w', stringRelease x w = .ok w' ∧ w'.Valid ∧ Touches x w w' ∧ w'.reports = w.reports := by
  cases hs : w.str x with
  | none => exact ⟨w, by simp [stringRelease, hs], hv, .refl x w, rfl⟩
  | some s =>
    cases hb : s.content with
    | none =>
      have ht := touches_setStr w x StringX.released
      refine ⟨w.setStr x StringX.released, ?_, hv.released ht (by simp [World.setStr]), ht, rfl⟩
      simp only [stringRelease, hs, hb, memopFreeRaw, Blocks.free, Except.map]
      rfl
    | some b =>
      obtain ⟨bytes, hh, -⟩ := hv.held hs hb
      set w1 : World := { w with
        blocks := { w.blocks with live := Function.update w.blocks.live b none } } with hw1
      have ht : Touches x w (w1.setStr x StringX.released) :=
        ⟨fun y hy => by simp [World.setStr, hw1, Function.update_of_ne hy],
          fun y t c hy hty hc => by
            have hcb : c ≠ b := fun he => hh.alone y t hy hty (he ▸ hc)
            simp [World.setStr, hw1, Function.update_of_ne hcb], rfl⟩
      refine ⟨w1.setStr x StringX.released, ?_, hv.released ht (by simp [World.setStr]), ht, rfl⟩
      simp only [stringRelease, hs, hb, memopFreeRaw, Blocks.free, hh.live, Except.map]
      rfl

theorem trimmedLength_le (bytes : List UInt8) (n : ℕ) :
    trimmedLength bytes n ≤ n := by
  induction n with
  | zero => exact le_refl 0
  | succ n ih =>
    unfold trimmedLength
    split_ifs
    · omega
    · exact le_refl _

theorem firstText_le (bytes : List UInt8) (left i : ℕ) :
    firstText bytes left i ≤ i + left := by
  induction left generalizing i with
  | zero => exact le_refl i
  | succ left ih =>
    unfold firstText
    split_ifs
    · have := ih (i + 1)
      omega
    · omega

theorem length_moveDown {start n : ℕ} {bytes : List UInt8} (h : start + n ≤ bytes.length) :
    (moveDown start n bytes).length = bytes.length := by
  rw [moveDown, List.length_append, List.length_take, List.length_drop, List.length_drop]
  omega

theorem stringTrimRight_spec (hv : w.Valid) (x : ℕ) :
    ∃ w', stringTrimRight x w = .ok w' ∧ w'.Valid ∧ Touches x w w' ∧ w'.reports = w.reports := by
  cases hs : w.str x with
  | none => exact ⟨w, by simp [stringTrimRight, hs], hv, .refl x w, rfl⟩
  | some s =>
    cases hb : s.content with
    | none => exact ⟨w, by simp [stringTrimRight, hs, hb], hv, .refl x w, rfl⟩
    | some b =>
      obtain ⟨bytes, hh, hr⟩ := hv.held hs hb
      obtain ⟨w', hw', hh', hr', ht, hrep⟩ := terminate hh hr.room hr.bound
        ((trimmedLength_le bytes s.length).trans hr.length_le)
      refine ⟨w', ?_, hv.touch ht hh' hr', ht, hrep⟩
      simp only [hb] at hw'
      simp only [stringTrimRight, hs, hb, hh.live]
      exact hw'

theorem stringTrimLeft_spec (hv : w.Valid) (x : ℕ) :
    ∃ w', stringTrimLeft x w = .ok w' ∧ w'.Valid ∧ Touches x w w' ∧ w'.reports = w.reports := by
  cases hs : w.str x with
  | none => exact ⟨w, by simp [stringTrimLeft, hs], hv, .refl x w, rfl⟩
  | some s =>
    cases hb : s.content with
    | none => exact ⟨w, by simp [stringTrimLeft, hs, hb], hv, .refl x w, rfl⟩
    | some b =>
      obtain ⟨bytes, hh, hr⟩ := hv.held hs hb
      have hstart := firstText_le bytes s.length 0
      by_cases h0 : 0 < firstText bytes s.length 0
      · have hmove : (moveDown (firstText bytes s.length 0)
            (s.length - firstText bytes s.length 0) bytes).length = bytes.length :=
          length_moveDown (by have := hr.room; have := hr.length_le; omega)
        have hle := hr.length_le
        obtain ⟨w', hw', hh', hr', ht, hrep⟩ := terminate
          (hh.withBlock (moveDown (firstText bytes s.length 0)
            (s.length - firstText bytes s.length 0) bytes))
          (hmove ▸ hr.room) (hmove ▸ hr.bound)
          (n := s.length - firstText bytes s.length 0) (by omega)
        have ht' := (hh.touches_withBlock _).trans ht
        refine ⟨w', ?_, hv.touch ht' hh' hr', ht', hrep⟩
        simp only [World.withBlock, hb] at hw'
        simp only [stringTrimLeft, hs, hb, hh.live, if_pos h0]
        exact hw'
      · exact ⟨w, by simp only [stringTrimLeft, hs, hb, hh.live, if_neg h0], hv, .refl x w, rfl⟩

theorem stringTrim_spec (hv : w.Valid) (x : ℕ) :
    ∃ w', stringTrim x w = .ok w' ∧ w'.Valid ∧ Touches x w w' ∧ w'.reports = w.reports := by
  obtain ⟨w1, h1, hv1, ht1, hr1⟩ := stringTrimRight_spec hv x
  obtain ⟨w2, h2, hv2, ht2, hr2⟩ := stringTrimLeft_spec hv1 x
  exact ⟨w2, by rw [stringTrim, h1]; exact h2, hv2, ht1.trans ht2, hr2.trans hr1⟩

theorem setContents_held (vs : List UInt8) {i : ℕ} (h : w.Held x s b bytes)
    (hroom : s.max + 1 ≤ bytes.length) (hi : i + vs.length ≤ s.max + 1) :
    ∃ bytes', setContents x i vs w = .ok (w.withBlock b bytes') ∧
      bytes'.length = bytes.length ∧ (∀ j < i, bytes'[j]? = bytes[j]?) ∧
      ∀ k < vs.length, bytes'[i + k]? = vs[k]? := by
  induction vs generalizing i w bytes with
  | nil =>
    exact ⟨bytes, by rw [setContents, h.withBlock_self], rfl, fun _ _ => rfl, by simp⟩
  | cons v vs ih =>
    rw [List.length_cons] at hi
    have hstep := setContent_held h hroom (i := (i : ℤ)) (by omega) (by omega) v
    rw [Int.toNat_natCast] at hstep
    obtain ⟨bytes', hrun, hlen, hbefore, hafter⟩ := ih (i := i + 1)
      (h.withBlock (bytes.set i v)) (by rw [List.length_set]; exact hroom) (by omega)
    refine ⟨bytes', ?_, ?_, fun j hj => ?_, fun k hk => ?_⟩
    · rw [setContents, hstep, ← withBlock_withBlock w b (bytes.set i v) bytes', ← hrun]
      rfl
    · rw [hlen, List.length_set]
    · rw [hbefore j (by omega), List.getElem?_set_ne (by omega)]
    · cases k with
      | zero =>
        rw [Nat.add_zero, hbefore i (by omega), List.getElem?_set_self (by omega)]
        rfl
      | succ k =>
        have hk' : k < vs.length := by simpa using hk
        have := hafter k hk'
        rw [show i + (k + 1) = i + 1 + k by omega, this]
        rfl

theorem take_eq_of_getElem? {l l' : List UInt8} {n : ℕ} (h : ∀ i < n, l'[i]? = l[i]?) :
    l'.take n = l.take n := by
  refine List.ext_getElem? fun i => ?_
  by_cases hi : i < n
  · rw [List.getElem?_take_of_lt hi, List.getElem?_take_of_lt hi, h i hi]
  · rw [List.getElem?_eq_none (by rw [List.length_take]; omega),
      List.getElem?_eq_none (by rw [List.length_take]; omega)]

/-- A complete `vsnprintf` leaves its text and the terminator. -/
theorem VsnAnswer.output_complete {a : VsnAnswer} {n : ℕ} (h0 : 0 ≤ a.count)
    (hn : a.count.toNat < n) :
    (a.output n).length = a.count.toNat + 1 ∧ (a.output n)[a.count.toNat]? = some 0 := by
  cases a with
  | failed out => simp [VsnAnswer.count] at h0
  | text t =>
    unfold VsnAnswer.count at h0 hn ⊢
    dsimp only at h0 hn ⊢
    by_cases hlt : t.length < 2 ^ 31
    · rw [if_pos hlt, Int.toNat_natCast] at hn ⊢
      have hout : VsnAnswer.output n (.text t) = t ++ [0] := by
        have htake : t.take (n - 1) = t := List.take_of_length_le (by omega)
        rw [VsnAnswer.output, htake,
          List.take_of_length_le (by rw [List.length_append, List.length_singleton]; omega)]
      rw [hout]
      exact ⟨by rw [List.length_append, List.length_singleton], by simp⟩
    · rw [if_neg hlt] at h0
      omega

theorem VsnAnswer.length_output_le (a : VsnAnswer) (n : ℕ) :
    (a.output n).length ≤ n := by
  cases a <;> simp [VsnAnswer.output]

theorem VsnAnswer.count_lt (a : VsnAnswer) :
    a.count < 2 ^ 31 := by
  unfold VsnAnswer.count
  cases a with
  | text t =>
    dsimp only
    split_ifs <;> omega
  | failed out => norm_num

structure Outcome (w w' : World) (failed : Prop) : Prop where
  valid : w'.Valid
  handler : w'.handler = w.handler
  kept : failed → ∀ y, w'.text y = w.text y

theorem Outcome.of_same {P : Prop} (hv : w.Valid) (hstr : w'.str = w.str)
    (hlive : w'.blocks.live = w.blocks.live) (hh : w'.handler = w.handler) :
    Outcome w w' P :=
  ⟨hv.of_same hstr hlive, hh, fun _ => text_of_same hstr hlive⟩

theorem Outcome.of_touch {P : Prop} (hv : w'.Valid) (ht : Touches x w w') (hp : ¬P) :
    Outcome w w' P :=
  ⟨hv, ht.handler, fun h => absurd h hp⟩

/-- Both ends of `string_append_formatv`: a complete write moves `Length`, a short one puts the
terminator back. -/
theorem stringAppendFormatv_spec (hv : w.Valid) (x : ℕ) (counted printed : VsnAnswer) :
    (∃ ret w', stringAppendFormatv x counted printed w = .ok (ret, w') ∧
        Outcome w w' (ret = -1) ∧ (w'.reports ≠ w.reports → ret = -1)) ∨
      w.handler = .default ∧ stringAppendFormatv x counted printed w = .error .nullDeref := by
  have hsame : Outcome w w ((-1 : ℤ) = -1) := .of_same hv rfl rfl rfl
  cases hs : w.str x with
  | none => exact Or.inl ⟨-1, w, by simp [stringAppendFormatv, hs], hsame, fun _ => rfl⟩
  | some s =>
    cases hb : s.content with
    | none => exact Or.inl ⟨-1, w, by simp [stringAppendFormatv, hs, hb], hsame, fun _ => rfl⟩
    | some b =>
      obtain ⟨bytes, hh, hr⟩ := hv.held hs hb
      have hnull : s.content ≠ none := by simp [hb]
      by_cases hneg : counted.count < 0
      · refine Or.inl ⟨-1, w, ?_, hsame, fun _ => rfl⟩
        simp only [stringAppendFormatv, hs, if_neg hnull, if_pos hneg]
      have hcount := counted.count_lt
      have hblock : maxBlock < 2 ^ 62 := by decide
      have hroom := hr.room
      have hbound := hr.bound
      have hle := hr.length_le
      have hreq : (s.length + toUInt64 counted.count) % 2 ^ 64 =
          s.length + counted.count.toNat := by
        unfold toUInt64
        omega
      have hmax31 : s.length + counted.count.toNat ≤ 2 ^ 62 := by
        have : maxBlock ≤ 2 ^ 61 := by decide
        omega
      have hrun : stringAppendFormatv x counted printed w =
          (shEnsureCapacity x s (s.length + counted.count.toNat) w >>= fun (ok, w) =>
            if ok then
              let t := (w.str x).getD s
              setContents x s.length (printed.output (t.max - s.length + 1)) w >>= fun w =>
                if printed.count ≠ counted.count then
                  setContent x s.length 0 w >>= fun w => .ok (-1, w)
                else .ok (printed.count,
                  w.setStr x { t with length := s.length + counted.count.toNat })
            else .ok (-1, w)) := by
        simp only [stringAppendFormatv, hs, if_neg hnull, if_neg hneg, hreq,
          if_neg (show ¬s.length + counted.count.toNat < s.length by omega)]
      rw [hrun]
      rcases shEnsureCapacity_spec hv hh hr _ hmax31 with
        ⟨w1, s1, b1, bytes1, he, ho⟩ | ⟨hd, he⟩ | ⟨-, w1, he, hstr, hlive, hhan, -⟩
      · apply Or.inl
        have hn1 := ho.length
        have hmax1 := ho.required_le
        have hle1 := ho.rep.length_le
        have hroom1 := ho.rep.room
        have hout := printed.length_output_le (s1.max - s.length + 1)
        obtain ⟨bytes2, hset, hlen2, hbefore, hafter⟩ := setContents_held
          (printed.output (s1.max - s.length + 1)) (i := s.length) ho.held hroom1 (by omega)
        have hheld2 := ho.held.withBlock bytes2
        by_cases hshort : printed.count ≠ counted.count
        · have hterm := setContent_held hheld2 (i := (s.length : ℤ)) (by omega) (by omega)
            (by omega) 0
          rw [Int.toNat_natCast] at hterm
          have hheld3 := hheld2.withBlock (bytes2.set s.length 0)
          have hrep3 : s1.Rep (bytes2.set s.length 0) := by
            refine ⟨?_, ?_, hle1, ?_⟩
            · rw [List.length_set]
              omega
            · rw [List.length_set, hlen2]
              exact ho.rep.bound
            · rw [hn1]
              exact List.getElem?_set_self (by omega)
          have ht := (ho.touches.trans (ho.held.touches_withBlock bytes2)).trans
            (hheld2.touches_withBlock (bytes2.set s.length 0))
          refine ⟨-1, _, ?_, ⟨hv.touch ht hheld3 hrep3, ht.handler, fun _ y => ?_⟩, fun _ => rfl⟩
          · simp only [he, bind, Except.bind, if_true, ho.held.str, Option.getD_some, hset,
              if_pos hshort, hterm]
          · by_cases hy : y = x
            · rw [hy, hheld3.text, hh.text, hn1]
              refine congrArg some (take_eq_of_getElem? fun i hi => ?_)
              rw [List.getElem?_set_ne (by omega), hbefore i hi, ho.same i (by omega)]
            · exact ht.text hy
        · have heq : printed.count = counted.count := not_not.mp hshort
          obtain ⟨hlenout, hnul⟩ := printed.output_complete (n := s1.max - s.length + 1)
            (by omega) (by omega)
          have hheld3 := hheld2.setStr
            (t := { s1 with length := s.length + counted.count.toNat }) ho.held.content
          have hrep3 : StringX.Rep { s1 with length := s.length + counted.count.toNat } bytes2 := by
            refine ⟨?_, ?_, hmax1, ?_⟩
            · rw [hlen2]
              exact hroom1
            · rw [hlen2]
              exact ho.rep.bound
            · dsimp only
              rw [← heq, hafter _ (by omega), hnul]
          have ht := (ho.touches.trans (ho.held.touches_withBlock bytes2)).trans
            (touches_setStr _ x { s1 with length := s.length + counted.count.toNat })
          refine ⟨printed.count, _, ?_, .of_touch (hv.touch ht hheld3 hrep3) ht (by omega),
            fun hne => absurd ho.reports hne⟩
          simp only [he, bind, Except.bind, if_true, ho.held.str, Option.getD_some, hset,
            if_neg hshort]
      · exact Or.inr ⟨hd, by rw [he]; rfl⟩
      · exact Or.inl ⟨-1, w1, by rw [he]; rfl, .of_same hv hstr hlive hhan, fun _ => rfl⟩

/-- The checks of `string_substring`. -/
def SubstringPasses (s : StringX) (index length : ℤ) : Prop :=
  0 ≤ index ∧ 0 ≤ length ∧ toUInt64 (toInt32 (index + length)) ≤ s.length

theorem stringSubstring_stopped {out : ℕ} {index length : ℤ} (hs : w.str x = some s)
    (hp : ¬SubstringPasses s index length) :
    stringSubstring out x index length w = .ok (false, w) := by
  simp only [stringSubstring, hs]
  cases s.content with
  | none => rfl
  | some b =>
    dsimp only
    split_ifs with h1 h2
    · rfl
    · rfl
    · exact absurd ⟨by omega, by omega, by omega⟩ hp

/-- With every position inside, `string_substring` makes the string at `out` or reports. -/
theorem stringSubstring_inside (hv : w.Valid) {out : ℕ} {index length : ℤ}
    (hs : w.str x = some s) (hout : w.str out = none) (hp : SubstringPasses s index length)
    (hi : IsInt32 index) (hl : IsInt32 length) (hin : index + length ≤ s.length)
    (h31 : index + length ≤ 2 ^ 31) :
    (∃ ok w', stringSubstring out x index length w = .ok (ok, w') ∧ w'.Valid ∧
        Touches out w w' ∧ (w'.reports ≠ w.reports → w'.text out = none)) ∨
      w.handler = .default ∧ stringSubstring out x index length w = .error .nullDeref := by
  obtain ⟨h0, hl0, hpass⟩ := hp
  cases hb : s.content with
  | none =>
    refine Or.inl ⟨false, w, by simp only [stringSubstring, hs, hb], hv, .refl out w, ?_⟩
    exact fun hne => absurd rfl hne
  | some b =>
    have hlen64 : toUInt64 length = length.toNat := by
      unfold IsInt32 at hl
      unfold toUInt64
      omega
    have houtx : out ≠ x := by
      rintro rfl
      rw [hs] at hout
      cases hout
    have htext : ∀ w' : World, w'.str = w.str → w'.text out = none := by
      intro w' hstr
      simp [World.text, hstr, hout]
    simp only [stringSubstring, hs, hb, if_neg (show ¬(index < 0 ∨ length < 0) by omega),
      if_neg (not_lt.mpr hpass), hlen64]
    rcases memopAllocRaw_spec 32 w with
      ⟨w1, ha, hstr, hlive, hh, -⟩ |
        ⟨node, nbytes, w1, ha, hfree1, -, -, hstr1, hlive1, hh1, hrep1⟩
    · simp only [ha]
      rcases handler_cases w with hd | hd
      · exact Or.inr ⟨hd, by rw [xpbEventTriggerError_default (hh.trans hd)]; rfl⟩
      · rw [xpbEventTriggerError_application (hh.trans hd)]
        exact Or.inl ⟨false, _, rfl, hv.of_same hstr hlive,
          ⟨fun y _ => congrFun hstr y, fun y t c _ _ _ => congrFun hlive c, hh⟩,
          fun _ => htext _ hstr⟩
    simp only [ha]
    have hnode : ∀ y t, w.str y = some t → t.content ≠ some node := fun y t hy =>
      hv.fresh hfree1 hy
    rcases memopAllocRaw_spec (length.toNat + 1) w1 with
      ⟨w2, ha2, hstr2, hlive2, hh2, -⟩ |
        ⟨c, bytes, w2, ha2, hfree2, hroom, hmax, hstr2, hlive2, hh2, hrep2⟩
    · -- the struct goes back
      simp only [ha2]
      rcases handler_cases w with hd | hd
      · exact Or.inr ⟨hd, by rw [xpbEventTriggerError_default ((hh2.trans hh1).trans hd)]; rfl⟩
      · rw [xpbEventTriggerError_application ((hh2.trans hh1).trans hd)]
        have hnlive : w2.blocks.live node = some nbytes := by simp [hlive2, hlive1]
        refine Or.inl ⟨false, { w2 with
            blocks := { w2.blocks with live := Function.update w2.blocks.live node none }
            reports := ("Falha ao alocar %zu caracteres para a substring.",
              [toUInt64 (toInt32 (length + 1))]) :: w2.reports }, by
          simp only [bind, Except.bind, memopFreeRaw, Blocks.free, hnlive, Except.map],
          hv.of_same (hstr2.trans hstr1) ?_, ⟨fun y _ => congrFun (hstr2.trans hstr1) y,
            fun y t d _ hy hd' => ?_, hh2.trans hh1⟩, fun _ => htext _ (hstr2.trans hstr1)⟩
        · funext d
          by_cases hdn : d = node
          · simp [hdn, hfree1]
          · simp [Function.update_of_ne hdn, hlive2, hlive1]
        · have hdn : d ≠ node := fun he => hnode y t hy (he ▸ hd')
          simp [Function.update_of_ne hdn, hlive2, hlive1]
    · simp only [ha2]
      set s' : StringX := ⟨true, length.toNat, length.toNat, some c⟩ with hs'
      have hcfree : w.blocks.live c = none := by
        by_cases hcn : c = node
        · rw [hcn, hfree1]
        · simpa [hlive1, Function.update_of_ne hcn] using hfree2
      have hheld : (w2.setStr out s').Held out s' c bytes :=
        ⟨by simp [World.setStr], rfl, by simp [World.setStr, hlive2], fun y t hy ht => by
          apply hv.fresh hcfree (y := y)
          simpa [World.setStr, Function.update_of_ne hy, hstr2, hstr1] using ht⟩
      have ht1 : Touches out w (w2.setStr out s') :=
        ⟨fun y hy => by simp [World.setStr, Function.update_of_ne hy, hstr2, hstr1],
          fun y t d hy hty hd => by
            have hdc : d ≠ c := fun he => hv.fresh hcfree hty (he ▸ hd)
            have hdn : d ≠ node := fun he => hnode y t hty (he ▸ hd)
            simp [World.setStr, hlive2, hlive1, Function.update_of_ne hdc,
              Function.update_of_ne hdn], hh2.trans hh1⟩
      unfold IsInt32 at hi hl
      have hinside : ∀ i < length.toNat, CopyInside (.block b s.length) s' index 0 i := by
        intro i hi'
        have hread := (toInt32_range (s.length : ℤ) h0 hi.2 (n := length.toNat)
          (by omega) (by omega)).mpr ⟨by omega, by omega⟩ i hi'
        have hwrite := (toInt32_range (a := 0) ((s'.max : ℤ) + 1) (le_refl 0) (by norm_num)
          (n := length.toNat) (by omega) (by omega)).mpr
            ⟨by simp only [hs']; omega, by omega⟩ i hi'
        exact ⟨hread, hwrite⟩
      obtain ⟨bytes2, hloop, hlen2⟩ := copyLoop_inside hheld hroom hinside
      have hheld2 := hheld.withBlock bytes2
      have hterm := setContent_held hheld2 (i := length) (hlen2 ▸ hroom) hl0
        (by simp only [hs']; omega) 0
      have hheld3 := hheld2.withBlock (bytes2.set length.toNat 0)
      have ht := (ht1.trans (hheld.touches_withBlock bytes2)).trans
        (hheld2.touches_withBlock (bytes2.set length.toNat 0))
      have hrep3 : s'.Rep (bytes2.set length.toNat 0) := by
        refine ⟨?_, ?_, le_refl _, ?_⟩
        · rw [List.length_set, hlen2]
          exact hroom
        · rw [List.length_set, hlen2]
          exact hmax
        · exact List.getElem?_set_self (by omega)
      refine Or.inl ⟨true, _, ?_, hv.touch ht hheld3 hrep3, ht, fun hne => ?_⟩
      · simp only [hloop, bind, Except.bind, hterm]
      · exact absurd (hrep2.trans hrep1) hne

end Xplatbase.Strings
