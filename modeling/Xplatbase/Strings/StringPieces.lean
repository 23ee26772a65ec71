import Xplatbase.Strings.ListRuns
import Xplatbase.Strings.StringContent

/-! The pieces of a split: one more substring, one more entry in a list that grows, and what stays
as it was around them. -/
namespace Xplatbase.Strings
open Xplatbase.Lib

variable {w w' w'' : World} {x b r : ℕ} {s : StringX} {bytes : List UInt8}

def LiveKept (w w' : World) : Prop :=
  ∀ c, w.blocks.live c ≠ none → w'.blocks.live c = w.blocks.live c

theorem LiveKept.trans (h : LiveKept w w') (h' : LiveKept w' w'') : LiveKept w w'' := by
  intro c hc
  rw [h' c (by rwa [h c hc]), h c hc]

/-! ### One substring -/

structure BlocksOnly (w w' : World) : Prop where
  str : w'.str = w.str
  items : w'.items = w.items
  list : w'.list = w.list
  handler : w'.handler = w.handler
  reports : w'.reports = w.reports

theorem BlocksOnly.trans (h : BlocksOnly w w') (h' : BlocksOnly w' w'') : BlocksOnly w w'' :=
  ⟨h'.str.trans h.str, h'.items.trans h.items, h'.list.trans h.list,
    h'.handler.trans h.handler, h'.reports.trans h.reports⟩

theorem memopAllocRaw_only {n : ℕ} {p : Option ℕ} (h : memopAllocRaw n w = (p, w')) :
    BlocksOnly w w' := by
  obtain ⟨-, rfl⟩ := Prod.mk.inj h
  exact ⟨rfl, rfl, rfl, rfl, rfl⟩

theorem BlocksOnly.reported (h : BlocksOnly w w') {w1 : World}
    (hlive : w1.blocks.live = w.blocks.live) (hstr : w1.str = w'.str) (hitems : w1.items = w'.items)
    (hlist : w1.list = w'.list) (hhandler : w1.handler = w'.handler)
    (hreports : w'.reports.length < w1.reports.length) : Reported w w1 := by
  refine ⟨hstr.trans h.str, hlive, ?_, hlist.trans h.list, hhandler.trans h.handler, ?_⟩
  · rw [hitems, h.items]
  · rw [← h.reports]
    exact hreports

/-- The struct and the block of a substring: one of them is refused, and what there was is left, or
both were free. -/
theorem substring_requests (n : ℕ) (w : World) :
    (∃ w1, memopAllocRaw 32 w = (none, w1) ∧ w1.blocks.live = w.blocks.live) ∨
      (∃ node bytes w1 w2, memopAllocRaw 32 w = (some node, w1) ∧
        memopAllocRaw n w1 = (none, w2) ∧ w.blocks.live node = none ∧
        w2.blocks.live = Function.update w.blocks.live node (some bytes)) ∨
      ∃ node c bytes w1 w2, memopAllocRaw 32 w = (some node, w1) ∧
        memopAllocRaw n w1 = (some c, w2) ∧ w.blocks.live c = none ∧ LiveKept w w2 ∧
        w2.blocks.live c = some bytes ∧ n ≤ bytes.length ∧ bytes.length ≤ maxBlock := by
  rcases memopAllocRaw_spec 32 w with
    ⟨w1, ha, -, hlive, -⟩ | ⟨node, nbytes, w1, ha, hfree1, -, -, -, hlive1, -⟩
  · exact .inl ⟨w1, ha, hlive⟩
  rcases memopAllocRaw_spec n w1 with
    ⟨w2, ha2, -, hlive2, -⟩ | ⟨c, cbytes, w2, ha2, hfree2, hroom, hmax, -, hlive2, -⟩
  · exact .inr (.inl ⟨node, nbytes, w1, w2, ha, ha2, hfree1, hlive2.trans hlive1⟩)
  · have hcfree : w.blocks.live c = none := by
      by_cases hcn : c = node
      · rw [hcn, hfree1]
      · simpa only [hlive1, Function.update_of_ne hcn] using hfree2
    refine .inr (.inr ⟨node, c, cbytes, w1, w2, ha, ha2, hcfree, fun e he => ?_, ?_, hroom, hmax⟩)
    · have hec : e ≠ c := fun hec => he (hec ▸ hcfree)
      have hen : e ≠ node := fun hen => he (hen ▸ hfree1)
      rw [hlive2, hlive1, Function.update_of_ne hec, Function.update_of_ne hen]
    · rw [hlive2, Function.update_self]

/-- The range goes into a fresh block, behind it a NUL. -/
theorem substring_copied (out : ℕ) (hv : w.Valid) (h : w.Held x s b bytes) (hr : s.Rep bytes)
    {index length : ℕ} (hin : index + length ≤ s.length) (h31 : index + length < 2 ^ 31)
    {c : ℕ} {cbytes : List UInt8} {w2 : World} (honly : BlocksOnly w w2)
    (hcfree : w.blocks.live c = none) (hkept : LiveKept w w2)
    (hclive : w2.blocks.live c = some cbytes) (hroom : length + 1 ≤ cbytes.length)
    (hmax : cbytes.length ≤ maxBlock) :
    ∃ w', (do
        let w ← forUpTo (copyByte out (.block b s.length) index 0) length
          (w2.setStr out ⟨true, length, length, some c⟩)
        let w ← setContent out length 0 w
        .ok (true, w)) = Except.ok (true, w') ∧ w'.Valid ∧ Touches out w w' ∧ LiveKept w w' ∧
      w'.items = w.items ∧ w'.list = w.list ∧ w'.reports = w.reports ∧
      w'.text out = some ((bytes.drop index).take length) := by
  have hbc : b ≠ c := by
    rintro rfl
    rw [h.live] at hcfree
    cases hcfree
  set s' : StringX := ⟨true, length, length, some c⟩ with hs'
  have hheld : (w2.setStr out s').Held out s' c cbytes := by
    refine ⟨Function.update_self .., rfl, hclive, fun y t hy ht => ?_⟩
    apply hv.fresh hcfree (y := y)
    rw [← honly.str, ← ht]
    exact (Function.update_of_ne hy ..).symm
  have ht1 : Touches out w (w2.setStr out s') := by
    refine ⟨fun y hy => ?_, fun y t e hy hty he => ?_, honly.handler⟩
    · rw [← honly.str]
      exact Function.update_of_ne hy ..
    · obtain ⟨ebytes, helive, -⟩ := hv.content y t e hty he
      apply hkept e
      rw [helive]
      exact Option.some_ne_none ebytes
  have hinside : ∀ i < length, CopyInside (.block b s.length) s' (index : ℤ) ((0 : ℕ) : ℤ) i := by
    intro i hi
    unfold CopyInside
    rw [toInt32_eq (x := (index : ℤ) + i) ⟨by omega, by omega⟩,
      toInt32_eq (x := ((0 : ℕ) : ℤ) + i) ⟨by omega, by omega⟩]
    simp only [Source.len, hs']
    omega
  -- the source is another block
  have hsource : ∀ i < length, ∀ bytes' : List UInt8,
      (∀ j, j < 0 ∨ 0 + i ≤ j → bytes'[j]? = cbytes[j]?) →
      (Source.block b s.length).byte ((w2.setStr out s').withBlock c bytes') (index + i) =
        bytes.getD (index + i) 0 := by
    intro i _ bytes' _
    have hblive : w2.blocks.live b = some bytes := by
      rw [← h.live]
      apply hkept b
      rw [h.live]
      exact Option.some_ne_none bytes
    simp only [Source.byte, World.withBlock, Function.update_of_ne hbc]
    rw [show (w2.setStr out s').blocks.live b = some bytes from hblive]
  obtain ⟨bytes2, hloop, hlen2, hall⟩ := copyLoop_content hheld hroom hinside (by omega)
    (by omega) (by omega) (fun i => bytes.getD (index + i) 0) hsource
  have hheld2 := hheld.withBlock bytes2
  have hterm := setContent_held hheld2 (i := length) (hlen2 ▸ hroom) (by omega)
    (by simp only [hs']; omega) 0
  rw [Int.toNat_natCast] at hterm
  have hheld3 := hheld2.withBlock (bytes2.set length 0)
  have ht := (ht1.trans (hheld.touches_withBlock bytes2)).trans
    (hheld2.touches_withBlock (bytes2.set length 0))
  have hrep3 : s'.Rep (bytes2.set length 0) := by
    refine ⟨?_, ?_, le_refl _, ?_⟩
    · rw [List.length_set, hlen2]
      exact hroom
    · rw [List.length_set, hlen2]
      exact hmax
    · exact List.getElem?_set_self (by omega)
  refine ⟨((w2.setStr out s').withBlock c bytes2).withBlock c (bytes2.set length 0), ?_,
    hv.touch ht hheld3 hrep3, ht, fun e he => ?_, honly.items, honly.list, honly.reports, ?_⟩
  · rw [Nat.cast_zero] at hloop
    simp only [hloop, bind, Except.bind, hterm]
  · have hec : e ≠ c := fun hec => he (hec ▸ hcfree)
    simp only [World.withBlock, Function.update_of_ne hec]
    exact hkept e he
  · refine hheld3.text.trans (congrArg some ?_)
    apply List.ext_getElem?
    intro j
    have hroomx := hr.room
    have hle := hr.length_le
    by_cases hj : j < length
    · have hget : bytes[index + j]? = some (bytes.getD (index + j) 0) := by
        rw [List.getD_eq_getElem?_getD, List.getElem?_eq_getElem (by omega), Option.getD_some]
      rw [List.getElem?_take_of_lt hj, List.getElem?_take_of_lt hj, List.getElem?_drop, hget,
        List.getElem?_set_ne (Nat.ne_of_gt hj), hall j, Nat.zero_add, if_pos ⟨Nat.zero_le j, hj⟩,
        Nat.sub_zero]
    · have hself : s'.length = length := rfl
      rw [List.getElem?_eq_none (by rw [List.length_take, hself]; omega),
        List.getElem?_eq_none (by rw [List.length_take]; omega)]

/-- `string_substring` inside the string: a copy of the range, or an event. -/
theorem stringSubstring_text (out : ℕ) (hv : w.Valid) (h : w.Held x s b bytes)
    (hr : s.Rep bytes) {index length : ℕ} (hin : index + length ≤ s.length)
    (h31 : index + length < 2 ^ 31) :
    stringSubstring out x index length w = .error .nullDeref ∨
      (∃ w', stringSubstring out x index length w = .ok (false, w') ∧ Reported w w') ∨
      ∃ w', stringSubstring out x index length w = .ok (true, w') ∧ w'.Valid ∧
        Touches out w w' ∧ LiveKept w w' ∧ w'.items = w.items ∧ w'.list = w.list ∧
        w'.reports = w.reports ∧ w'.text out = some ((bytes.drop index).take length) := by
  have hsum : toInt32 ((index : ℤ) + length) = ((index + length : ℕ) : ℤ) := by
    rw [Nat.cast_add]
    apply toInt32_eq
    unfold IsInt32
    omega
  have hsum64 : toUInt64 ((index + length : ℕ) : ℤ) = index + length := by
    unfold toUInt64
    omega
  have hlen64 : toUInt64 (length : ℤ) = length := by
    unfold toUInt64
    omega
  simp only [stringSubstring, h.str, h.content, hsum, hsum64, hlen64, Int.toNat_natCast,
    if_neg (show ¬((index : ℤ) < 0 ∨ (length : ℤ) < 0) by omega), if_neg (not_lt.mpr hin)]
  rcases substring_requests (length + 1) w with
    ⟨w1, ha, hlive⟩ | ⟨node, nbytes, w1, w2, ha, ha2, hfree, hlive⟩ |
      ⟨node, c, cbytes, w1, w2, ha, ha2, hcfree, hkept, hclive, hroom, hmax⟩
  · have honly := memopAllocRaw_only ha
    simp only [ha]
    rcases handler_cases w with hd | hd
    · exact .inl (by rw [xpbEventTriggerError_default (honly.handler.trans hd)]; rfl)
    · rw [xpbEventTriggerError_application (honly.handler.trans hd)]
      exact .inr (.inl ⟨_, rfl, honly.reported hlive rfl rfl rfl rfl (Nat.lt_succ_self _)⟩)
  · -- the struct goes back
    have honly := (memopAllocRaw_only ha).trans (memopAllocRaw_only ha2)
    simp only [ha, ha2]
    rcases handler_cases w with hd | hd
    · exact .inl (by rw [xpbEventTriggerError_default (honly.handler.trans hd)]; rfl)
    · rw [xpbEventTriggerError_application (honly.handler.trans hd)]
      have hnlive : w2.blocks.live node = some nbytes := by rw [hlive, Function.update_self]
      refine .inr (.inl ⟨{ w2 with
          blocks := { w2.blocks with live := Function.update w2.blocks.live node none }
          reports := ("Falha ao alocar %zu caracteres para a substring.",
            [toUInt64 (toInt32 (length + 1))]) :: w2.reports }, ?_,
        honly.reported ?_ rfl rfl rfl rfl (Nat.lt_succ_self _)⟩)
      · simp only [bind, Except.bind, memopFreeRaw, Blocks.free, hnlive, Except.map]
      · dsimp only
        rw [hlive, Function.update_idem, ← hfree, Function.update_eq_self]
  · have honly := (memopAllocRaw_only ha).trans (memopAllocRaw_only ha2)
    simp only [ha, ha2]
    exact .inr (.inr (substring_copied out hv h hr hin h31 honly hcfree hkept hclive hroom hmax))

/-! ### A list that grows -/

/-- List `r`, made for 100 pointers, holds `entries`. -/
def GrowingList (w : World) (r : ℕ) (entries : List ℕ) : Prop :=
  ∃ l k, w.HoldsList r l entries ∧ l.typeSize = 32 ∧ l.items ≠ none ∧ l.max = 100 * 2 ^ k ∧
    (k = 0 ∨ l.max ≤ 2 * l.count)

/-- List `r` got no vector. -/
def BarrenList (w : World) (r : ℕ) : Prop :=
  ∃ l, w.list r = some l ∧ l.typeSize = 32 ∧ l.items = none ∧ l.count = 0 ∧ l.max = 100

/-- So many pointers are the most that a list made for 100 of them has had copied whole each time it
grew. -/
def copiedLimit : ℕ := 838860799

theorem GrowingList.of_same {entries : List ℕ} (h : GrowingList w r entries)
    (hlist : w'.list = w.list) (hitems : w'.items.live = w.items.live) :
    GrowingList w' r entries := by
  obtain ⟨l, k, hholds, hrest⟩ := h
  exact ⟨l, k, hholds.of_same hlist hitems, hrest⟩

theorem BarrenList.of_same (h : BarrenList w r) (hlist : w'.list = w.list) : BarrenList w' r := by
  unfold BarrenList
  rw [hlist]
  exact h

/-- Below the limit the vector is small enough for `stride` when it grows, at the limit it is not. -/
theorem copiedWhole_of_growing {l : ListX} {k : ℕ} (hmax : l.max = 100 * 2 ^ k)
    (hgrown : k = 0 ∨ l.max ≤ 2 * l.count) (hlt : l.count < l.max) (hcount : l.count < 2 ^ 31 - 1) :
    (l.count < copiedLimit → l.Full → l.CopiedWhole) ∧
      (l.count = copiedLimit → l.Full ∧ ¬l.CopiedWhole) := by
  rw [full_iff_of_small (by omega)]
  unfold ListX.CopiedWhole copiedLimit
  rcases Nat.lt_trichotomy k 23 with hk | rfl | hk
  · have hpow : 2 ^ k ≤ 2 ^ 22 := Nat.pow_le_pow_right (by decide) (by omega)
    omega
  · omega
  · have hpow : 2 ^ 24 ≤ 2 ^ k := Nat.pow_le_pow_right (by decide) hk
    omega

/-- One more pointer. The vector that is not copied whole has a null pointer in it from then on. -/
theorem listAdd_growing {entries : List ℕ} (h : GrowingList w r entries) (item : ℕ)
    (h31 : entries.length < 2 ^ 31 - 1) :
    listAdd r item 32 w = .error .nullDeref ∨
      (∃ w', listAdd r item 32 w = .ok (false, w') ∧ Reported w w') ∨
      ∃ w' before, listAdd r item 32 w = .ok (true, w') ∧ ListsOnly w w' ∧
        GrowingList w' r (before ++ [item]) ∧ before.length = entries.length ∧
        (entries.length < copiedLimit → before = entries) ∧
        (w.MappedZeroed → entries.length = copiedLimit ∨ 0 ∈ entries → 0 ∈ before) := by
  obtain ⟨l, k, hholds, htype, hitems, hmax, hgrown⟩ := h
  have hcount := hholds.count
  have hpos : 0 < l.max := by
    rw [hmax]
    exact Nat.mul_pos (by decide) (Nat.two_pow_pos k)
  have hlt := hholds.count_lt hpos
  obtain ⟨hbelow, hat⟩ := copiedWhole_of_growing hmax hgrown hlt (by omega)
  have hspec := listAdd_spec hholds item
  rw [htype] at hspec
  generalize listAdd r item 32 w = res at hspec ⊢
  cases hspec with
  | faults => exact .inl rfl
  | @refused w' hreport => exact .inr (.inl ⟨w', rfl, hreport⟩)
  | @adds w' l' before honly hholds' hlen hkept hlost hnew =>
    refine .inr (.inr ⟨w', before, rfl, honly, ?_, hlen, fun hfew => ?_, fun hzero hnull => ?_⟩)
    · have hcount' := hholds'.count
      rw [List.length_append, List.length_singleton] at hcount'
      have hsome : l'.items ≠ none := by
        rcases hholds'.vector with ⟨-, hempty, -⟩ | ⟨b, v, hb, -⟩
        · exact absurd hempty (List.append_ne_nil_of_right_ne_nil _ (List.cons_ne_nil _ _))
        · rw [hb]
          exact Option.some_ne_none b
      rcases hnew.max with hsame | ⟨hfull, hdouble⟩
      · refine ⟨l', k, hholds', hnew.typeSize.trans htype, hsome, hsame.trans hmax, ?_⟩
        omega
      · rw [full_iff_of_small (by omega)] at hfull
        refine ⟨l', k + 1, hholds', hnew.typeSize.trans htype, hsome, ?_, Or.inr (by omega)⟩
        rw [hdouble, hmax, Nat.pow_succ, Nat.mul_assoc]
    · exact hkept (hbelow (by omega))
    · by_cases hwhole : l.Full → l.CopiedWhole
      · obtain rfl := hkept hwhole
        rcases hnull with hlimit | hmem
        · obtain ⟨hfull, hnot⟩ := hat (by omega)
          exact absurd (hwhole hfull) hnot
        · exact hmem
      · obtain ⟨hfull, hnot⟩ := Classical.not_imp.mp hwhole
        exact hlost hfull hnot hzero

theorem listAdd_barren (h : BarrenList w r) (item : ℕ) :
    listAdd r item 32 w = .error .nullDeref := by
  obtain ⟨l, hl, htype, hitems, hcount, hmax⟩ := h
  have hne : ¬32 ≠ l.typeSize := fun hn => hn htype.symm
  have hroom : toUInt64 (toInt32 (l.count + 1)) < l.max := by
    rw [hcount, hmax]
    decide
  simp only [listAdd, hl, if_neg hne, if_pos hroom, listStore, hitems, Except.map]

/-- `list_create` for pointers to `StringX`. -/
theorem listCreate_growing (r : ℕ) (node : Option ListX) (w : World) :
    listCreate r (-1) 32 node w = .error .nullDeref ∨
      (∃ w', listCreate r (-1) 32 node w = .ok (false, w') ∧
        w.reports.length < w'.reports.length) ∨
      ∃ w', listCreate r (-1) 32 node w = .ok (true, w') ∧ w'.str = w.str ∧
        w'.blocks = w.blocks ∧ w'.handler = w.handler ∧ w'.items.grants ⊆ w.items.grants ∧
        (w'.reports = w.reports ∧ GrowingList w' r [] ∨
          w.reports.length < w'.reports.length ∧ BarrenList w' r) := by
  cases node with
  | none =>
    simp only [listCreate]
    rcases handler_cases w with hd | hd
    · exact .inl (by rw [xpbEventTriggerError_default hd]; rfl)
    · rw [xpbEventTriggerError_application hd]
      exact .inr (.inl ⟨_, rfl, Nat.lt_succ_self _⟩)
  | some l =>
    have hstart : l.start (-1) 32 = { l with typeSize := 32, max := 100, count := 0 } := rfl
    simp only [listCreate, listItems, hstart, itemsAllocRaw]
    have hbytes : ¬100 * 8 % 2 ^ 64 = 0 := by norm_num
    have hitems : 100 * 8 % 2 ^ 64 / 8 = 100 := by norm_num
    rw [if_neg hbytes, hitems]
    rcases w.items.alloc_spec 100 with ⟨hnone, -⟩ | ⟨c, v, hsome, -, hlen, hblock, hlive⟩
    · dsimp only
      rw [hnone, if_pos rfl]
      rcases handler_cases w with hd | hd
      · exact .inl (by rw [xpbEventTriggerError_default (by exact hd)]; rfl)
      · rw [xpbEventTriggerError_application (by exact hd)]
        refine .inr (.inr ⟨_, rfl, rfl, rfl, rfl, w.items.alloc_grants 100,
          .inr ⟨Nat.lt_succ_self _, ?_⟩⟩)
        exact ⟨_, Function.update_self .., rfl, rfl, rfl, rfl⟩
    · dsimp only
      rw [hsome, if_neg (Option.some_ne_none c)]
      refine .inr (.inr ⟨_, rfl, rfl, rfl, rfl, w.items.alloc_grants 100, .inl ⟨rfl, ?_⟩⟩)
      refine ⟨_, 0, ⟨Function.update_self .., rfl, Or.inr ⟨c, v, rfl, ?_, ?_⟩⟩, rfl,
        Option.some_ne_none c, rfl, Or.inl rfl⟩
      · simp only [World.setList, hlive, Function.update_self]
      · exact ⟨rfl, by norm_num, hlen, hblock, fun hlarge => absurd hlarge (by norm_num)⟩

end Xplatbase.Strings
