import Xplatbase.Memory.HeapInvariant

/-! The size that `memop_alloc` and `memop_calloc_raw` were asked for, and what they return. -/
namespace Xplatbase.Memory.Heap
open Xplatbase.Lib

/-- The rounded mapping of `memop_alloc_large`. -/
def largeTotal (size : BitVec 64) : BitVec 64 := (size + 64 + 65535) &&& ~~~65535

/-- The header fields that `memop_alloc_large` writes, and the bytes it has got. -/
structure LargeSpan where
  stride : BitVec 32
  blockCount : BitVec 32
  mapping : ℕ

/-- The header is written at the start of the memory: a mapping of no bytes faults. -/
inductive LargeResult
  | null
  | fault
  | block (x : LargeSpan)

/-- `granted`: the chunk or the mapping has been acquired. -/
def memopAllocLarge (size : BitVec 64) (granted : Bool) : LargeResult :=
  let total := largeTotal size
  let units := total / 65536
  let mapping := if units = 1 then memopSpanSize else total.toNat
  if !granted then .null
  else if mapping < memopSpanHeader then .fault
  else .block ⟨(total - 64).setWidth 32, units.setWidth 32, mapping⟩

/-- What an allocation returns: the `Size` of its `MemBuffer`, and how many bytes from the pointer on
belong to the block. -/
structure Returned where
  size : BitVec 64
  capacity : ℕ

def HeapPc.classId : HeapPc → Option ℕ
  | .idle => none
  | .drain c _ _ => some c
  | .take c _ _ => some c
  | .create c => some c

/-- The step belongs to an allocation of class `c`. -/
def Allocating (h : MemHeap) (c : ℕ) : HeapLabel → Prop
  | .alloc d => d = c
  | .owner _ => h.pc.classId = some c
  | _ => False

/-- `memop_alloc` of `size` returns `r` in some reachable state of the pool: a step of a heap gives
the block, or the large path does. -/
inductive AllocReturns (size : BitVec 64) : Returned → Prop
  | small {h h' : MemHeap} {l : HeapLabel} {a b c : ℕ} :
      memopClassIndex size = some c → heapSystem.Reachable h → heapStep h l = some h' →
      Allocating h c l → h'.given = some (a, b) :: h.given →
      AllocReturns size
        ⟨(classStride (h'.head a).classId).setWidth 64, (classStride (h'.head a).classId).toNat⟩
  | large {x : LargeSpan} :
      size ≠ 0 → memopClassIndex size = none → memopAllocLarge size true = .block x →
      AllocReturns size ⟨x.stride.setWidth 64, x.mapping - memopSpanHeader⟩

/-- The lower half of the address space: no process has more bytes. -/
def addressSpace : ℕ := 2 ^ 63

/-- `memset(ptr, 0, total)` ends. It may pass the end of the block where more memory follows, but
with more bytes than a process has it comes to an address without memory and faults. -/
def MemsetEnds (total : BitVec 64) : Prop := total.toNat < addressSpace

/-- `memop_calloc_raw` hands a product that did not overflow to `memop_alloc_raw` and returns the
block once it is zeroed. -/
def CallocReturns (count size : BitVec 64) (r : Returned) : Prop :=
  ¬ (size ≠ 0 ∧ BitVec.allOnes 64 / size < count) ∧ AllocReturns (count * size) r ∧
    MemsetEnds (count * size)

/-- What the owner returns in a step of an allocation of class `c` is of that class. -/
def GivesClass (c : ℕ) (given : List (Option (ℕ × ℕ))) (h' : MemHeap) : Prop :=
  ∀ a b, h'.given = some (a, b) :: given → (h'.head a).classId = c

section givesClass
variable {h : MemHeap} {ls : Option ℕ → List ℕ} {a b c : ℕ} {x : SpanHead}

theorem givesClass_of_given {h' : MemHeap} {given : List (Option (ℕ × ℕ))}
    (hg : h'.given = given) : GivesClass c given h' := by
  intro a b hab
  rw [hg] at hab
  exact absurd hab.symm (List.cons_ne_self _ given)

theorem givesClass_give (hx : x.classId = c) :
    GivesClass c h.given ((h.setHead a x).give a b) := by
  intro a' b' hab
  obtain ⟨rfl, rfl⟩ : a = a' ∧ b = b' := by
    have hhead := (List.cons.inj hab).1
    exact Prod.mk.inj (Option.some.inj hhead)
  simp only [MemHeap.give, MemHeap.setHead, Function.update_self]
  exact hx

theorem HeapGood.class_first (hg : HeapGood h ls) (ha : h.spans c = some a) :
    (h.head a).classId = c :=
  (SpanHead.home_eq_some.mp (hg.lists.mem_of_first ha).2).2

theorem HeapGood.givesClass_local (hg : HeapGood h ls) (ha : h.spans c = some a) :
    GivesClass c h.given (Heap.refillLocal h c a) := by
  cases hb : (h.head a).localFree with
  | nil =>
    apply givesClass_of_given
    unfold Heap.refillLocal
    simp only [hb]
  | cons b rest =>
    rw [refillLocal_first ha hb]
    exact givesClass_give (hg.class_first ha)

theorem givesClass_probe (h : MemHeap) (c d k : ℕ) (start : Option ℕ) :
    GivesClass c h.given (Heap.refillProbe h d k start) := by
  apply givesClass_of_given
  rcases refillProbe_cases h d k start with hp | ⟨fs, -, hp⟩
  · rw [hp]
  · rw [hp]

theorem HeapGood.givesClass_from (hg : HeapGood h ls) :
    GivesClass c h.given (Heap.refillFrom h c (h.spans c)) := by
  cases ha : h.spans c with
  | none => exact givesClass_probe h c c 0 none
  | some a =>
    simp only [Heap.refillFrom]
    split_ifs with hne hlt
    · exact hg.givesClass_local ha
    · rw [refillGot_first (by exact ha)]
      exact givesClass_give (hg.class_first ha)
    · exact givesClass_of_given rfl

theorem HeapGood.givesClass_alloc (hg : HeapGood h ls) :
    GivesClass c h.given (Heap.memopAllocRaw h c) := by
  have hfrom := hg.givesClass_from (c := c)
  unfold Heap.memopAllocRaw
  cases ha : h.spans c with
  | none =>
    rw [ha] at hfrom
    exact hfrom
  | some a =>
    rw [ha] at hfrom
    simp only
    split
    · exact givesClass_give (hg.class_first ha)
    · split_ifs with hlt
      · exact givesClass_give (hg.class_first ha)
      · exact hfrom

theorem HeapGood.givesClass_empty (hg : HeapGood h ls) {site : RefillSite}
    (hpc : PcOk h (.drain c site a)) : GivesClass c h.given (Heap.refillEmpty h c a site) := by
  cases site with
  | classList =>
    obtain ⟨-, ha, hs⟩ := hpc
    unfold Heap.refillEmpty
    rw [← hg.lists.next_first ha]
    exact (hg.retire ha hs).givesClass_from
  | full k start =>
    unfold Heap.refillEmpty
    split_ifs with hlast
    · exact givesClass_probe h c c (k + 1) (some start)
    · exact givesClass_probe (heapFullPushTail (heapFullUnlink h a) a) c c (k + 1) (some start)

theorem HeapGood.givesClass_drained (hg : HeapGood h ls) {site : RefillSite}
    (hpc : PcOk h (.take c site a)) :
    GivesClass c h.given (Heap.refillDrained (spanTakeRemote h a) c a site) := by
  cases site with
  | classList => exact (hg.takeFirst hpc.2.1).givesClass_local hpc.2.1
  | full k start =>
    change GivesClass c h.given (if ((Heap.reviveFull h a).head a).classId = c then
      Heap.refillLocal (Heap.reviveFull h a) c a
      else Heap.refillProbe (Heap.reviveFull h a) c (k + 1) (some start))
    split_ifs with hclass
    · apply (hg.reviveFull hpc.2.1).givesClass_local
      rw [← hclass]
      exact reviveFull_spans h a
    · exact givesClass_probe (Heap.reviveFull h a) c c (k + 1) (some start)

/-- A block that a step of an allocation gives lies in a span of its class. -/
theorem HeapInv.givesClass (hi : HeapInv h) {l : HeapLabel} {h' : MemHeap}
    (hs : heapStep h l = some h') (hl : Allocating h c l) : GivesClass c h.given h' := by
  obtain ⟨⟨ls, hg⟩, hpc⟩ := hi
  cases l with
  | alloc d =>
    obtain rfl : d = c := hl
    simp only [heapStep] at hs
    split_ifs at hs with hok
    rw [← Option.some.inj hs]
    exact hg.givesClass_alloc
  | free a b => cases hl
  | remoteFree a b => cases hl
  | owner chunk =>
    simp only [heapStep, memopRefill] at hs
    unfold Allocating at hl
    cases hat : h.pc with
    | idle => simp only [hat, reduceCtorEq] at hs
    | drain d site a =>
      rw [hat] at hpc hl
      obtain rfl : d = c := Option.some.inj hl
      simp only [hat, Option.some.injEq] at hs
      split_ifs at hs with hr
      · rw [← hs]
        exact hg.givesClass_empty hpc
      · exact givesClass_of_given (by rw [← hs])
    | take d site a =>
      rw [hat] at hpc hl
      obtain rfl : d = c := Option.some.inj hl
      simp only [hat, Option.some.injEq] at hs
      rw [← hs]
      exact hg.givesClass_drained hpc
    | create d =>
      rw [hat] at hl
      obtain rfl : d = c := Option.some.inj hl
      simp only [hat] at hs
      cases chunk with
      | none =>
        rw [← Option.some.inj hs]
        intro a b hab
        exact absurd (List.cons.inj hab).1.symm (Option.some_ne_none _)
      | some m =>
        simp only at hs
        split_ifs at hs with hm
        rw [← Option.some.inj hs]
        unfold Heap.refillCreate
        rw [refillGot_first (by exact heapListInsertHead_spans _ d m)]
        exact givesClass_give rfl

end givesClass

theorem classStride_getElem : ∀ c, (hc : c < memClassSizes.length) →
    (memClassSizes[c]).toNat ≤ (classStride c).toNat := by
  decide +kernel

/-- The class of a bucket of eight sizes fits the largest of them. -/
theorem size2class_fits (idx : ℕ) (hidx : idx < 2048) :
    size2class idx < memopClassCount ∧ (idx + 1) * 8 ≤ (classStride (size2class idx)).toNat := by
  have hsome : ∃ v ∈ memClassSizes, (!decide (v < BitVec.ofNat 32 ((idx + 1) * 8))) = true := by
    refine ⟨16384, by decide, ?_⟩
    rw [Bool.not_eq_true', decide_eq_false_iff_not, BitVec.lt_def, BitVec.toNat_ofNat]
    change ¬ 16384 < _
    omega
  have hlt := List.findIdx_lt_length_of_exists hsome
  have hfound := List.findIdx_getElem (w := hlt)
  rw [Bool.not_eq_true', decide_eq_false_iff_not, BitVec.lt_def, BitVec.toNat_ofNat] at hfound
  have hstride := classStride_getElem _ hlt
  refine ⟨hlt, ?_⟩
  unfold size2class
  omega

theorem memopClassIndex_spec {size : BitVec 64} {c : ℕ} (hc : memopClassIndex size = some c) :
    c < memopClassCount ∧ size.toNat ≤ 16384 ∧ size.toNat ≤ (classStride c).toNat := by
  unfold memopClassIndex at hc
  split_ifs at hc with hlarge
  obtain ⟨hne, hle⟩ := not_or.mp hlarge
  have hpos : size.toNat ≠ 0 := fun h0 => hne (BitVec.eq_of_toNat_eq h0)
  have hsmall : size.toNat ≤ 16384 := Nat.le_of_not_lt hle
  have hpred : (size - 1).toNat = size.toNat - 1 := by
    have hone : (1 : BitVec 64) ≤ size := by
      rw [BitVec.le_def]
      exact Nat.pos_of_ne_zero hpos
    exact BitVec.toNat_sub_of_le hone
  have hidx : ((size - 1) >>> 3).toNat = (size.toNat - 1) / 8 := by
    rw [BitVec.toNat_ushiftRight, hpred, Nat.shiftRight_eq_div_pow]
  have hfits := size2class_fits ((size - 1) >>> 3).toNat (by omega)
  rw [Option.some.inj hc] at hfits
  refine ⟨hfits.1, hsmall, ?_⟩
  omega

theorem memopClassIndex_fits {size : BitVec 64} {c : ℕ} (hc : memopClassIndex size = some c) :
    size.toNat ≤ 16384 ∧ size.toNat ≤ (classStride c).toNat :=
  (memopClassIndex_spec hc).2

theorem memopClassIndex_none {size : BitVec 64} (hbig : 16384 < size.toNat) :
    memopClassIndex size = none :=
  if_pos (Or.inr hbig)

theorem and_not_spanMask (x : BitVec 64) :
    (x &&& ~~~65535#64).toNat = x.toNat / 65536 * 65536 := by
  have hshift : x &&& ~~~65535#64 = (x >>> 16) <<< 16 := by
    ext i hi
    have hmask : (65535#64)[i] = decide (i < 16) := by
      rw [BitVec.getElem_eq_testBit_toNat]
      exact Nat.testBit_two_pow_sub_one 16 i
    rw [BitVec.getElem_and, BitVec.getElem_not, hmask, BitVec.getElem_shiftLeft]
    by_cases hlt : i < 16
    · simp [hlt]
    · simp [hlt, BitVec.getLsbD_eq_getElem hi,
        Nat.add_sub_cancel' (Nat.le_of_not_lt hlt)]
  rw [hshift, BitVec.toNat_shiftLeft, BitVec.toNat_ushiftRight, Nat.shiftRight_eq_div_pow,
    Nat.shiftLeft_eq]
  have := x.isLt
  omega

theorem largeTotal_toNat (size : BitVec 64) :
    (largeTotal size).toNat = (size.toNat + 65599) % 2 ^ 64 / 65536 * 65536 := by
  unfold largeTotal
  rw [show ~~~(65535 : BitVec 64) = ~~~65535#64 from rfl, and_not_spanMask, BitVec.add_assoc,
    BitVec.toNat_add]
  rfl

theorem memopAllocLarge_eq (size : BitVec 64) :
    memopAllocLarge size true =
      if (largeTotal size).toNat < 64 then .fault
      else .block ⟨(largeTotal size - 64).setWidth 32, (largeTotal size / 65536).setWidth 32,
        (largeTotal size).toNat⟩ := by
  have hmapping : (if largeTotal size / 65536 = 1 then memopSpanSize
      else (largeTotal size).toNat) = (largeTotal size).toNat := by
    split_ifs with hone
    · have hdiv : (largeTotal size).toNat / 65536 = 1 := congrArg BitVec.toNat hone
      have htotal := largeTotal_toNat size
      unfold memopSpanSize
      omega
    · rfl
  unfold memopAllocLarge
  simp only [hmapping, Bool.not_true, Bool.false_eq_true, if_false]
  rfl

theorem allocReturns_large {size : BitVec 64} (hbig : 16384 < size.toNat) (r : Returned) :
    AllocReturns size r ↔ 64 ≤ (largeTotal size).toNat ∧
      r = ⟨((largeTotal size - 64).setWidth 32).setWidth 64, (largeTotal size).toNat - 64⟩ := by
  constructor
  · intro hr
    cases hr with
    | small hc => exact absurd hbig (Nat.not_lt_of_le (memopClassIndex_fits hc).1)
    | large _ _ hx =>
      rw [memopAllocLarge_eq] at hx
      split_ifs at hx with hlt
      obtain rfl := LargeResult.block.inj hx
      exact ⟨Nat.le_of_not_lt hlt, rfl⟩
  · rintro ⟨hle, rfl⟩
    have hne : size ≠ 0 := by
      rintro rfl
      exact absurd hbig (by decide)
    have hx := memopAllocLarge_eq size
    rw [if_neg (Nat.not_lt_of_le hle)] at hx
    exact AllocReturns.large hne (memopClassIndex_none hbig) hx

theorem largeSize_toNat {total : BitVec 64} (hle : 64 ≤ total.toNat) :
    (((total - 64).setWidth 32).setWidth 64 : BitVec 64).toNat = (total.toNat - 64) % 2 ^ 32 := by
  have hsub : (total - 64).toNat = total.toNat - 64 := by
    apply BitVec.toNat_sub_of_le
    rw [BitVec.le_def]
    exact hle
  rw [BitVec.toNat_setWidth, BitVec.toNat_setWidth, hsub]
  omega

theorem AllocReturns.small_spec {size : BitVec 64} (hsmall : size.toNat ≤ 16384) {r : Returned}
    (hr : AllocReturns size r) :
    size.toNat ≤ r.capacity ∧ size.toNat ≤ r.size.toNat ∧ r.size.toNat ≤ r.capacity := by
  cases hr with
  | small hc hreach hs hl hgiven =>
    have hclass := (heapSystem_inv hreach).givesClass hs hl _ _ hgiven
    have hfits := (memopClassIndex_fits hc).2
    dsimp only
    rw [hclass, BitVec.toNat_setWidth_of_le (by omega)]
    exact ⟨hfits, hfits, Nat.le_refl _⟩
  | large hne hnone hx =>
    unfold memopClassIndex at hnone
    split_ifs at hnone with hlarge
    rcases hlarge with h0 | hlt
    · exact absurd h0 hne
    · exact absurd hsmall (Nat.not_le_of_lt hlt)

/-- The block has the bytes asked for, and so has the `Size` of the buffer. -/
def AllocHonoured (size : BitVec 64) : Prop :=
  ∀ r, AllocReturns size r →
    size.toNat ≤ r.capacity ∧ size.toNat ≤ r.size.toNat ∧ r.size.toNat ≤ r.capacity

def CallocHonoured (count size : BitVec 64) : Prop :=
  ∀ r, CallocReturns count size r → count.toNat * size.toNat ≤ r.capacity

theorem allocHonoured_iff (size : BitVec 64) :
    AllocHonoured size ↔ size.toNat ≤ 2 ^ 32 - 64 ∨
      2 ^ 64 - 65600 < size.toNat ∧ size.toNat ≤ 2 ^ 64 - 64 := by
  have hlt := size.isLt
  by_cases hsmall : size.toNat ≤ 16384
  · exact iff_of_true (fun r hr => hr.small_spec hsmall) (Or.inl (by omega))
  have hbig : 16384 < size.toNat := Nat.lt_of_not_le hsmall
  have htotal := largeTotal_toNat size
  constructor
  · intro hall
    by_contra hout
    have hle : 64 ≤ (largeTotal size).toNat := by omega
    have hr := hall _ ((allocReturns_large hbig _).mpr ⟨hle, rfl⟩)
    rw [largeSize_toNat hle] at hr
    dsimp only at hr
    omega
  · intro hok r hr
    obtain ⟨hle, rfl⟩ := (allocReturns_large hbig r).mp hr
    rw [largeSize_toNat hle]
    dsimp only
    omega

/-- Without the `Size` of the buffer. -/
theorem allocCapacity_iff (size : BitVec 64) :
    (∀ r, AllocReturns size r → size.toNat ≤ r.capacity) ↔ size.toNat ≤ 2 ^ 64 - 64 := by
  have hlt := size.isLt
  by_cases hsmall : size.toNat ≤ 16384
  · exact iff_of_true (fun r hr => (hr.small_spec hsmall).1) (by omega)
  have hbig : 16384 < size.toNat := Nat.lt_of_not_le hsmall
  have htotal := largeTotal_toNat size
  constructor
  · intro hall
    by_contra hout
    have hle : 64 ≤ (largeTotal size).toNat := by omega
    have hr := hall _ ((allocReturns_large hbig _).mpr ⟨hle, rfl⟩)
    dsimp only at hr
    omega
  · intro hok r hr
    obtain ⟨hle, rfl⟩ := (allocReturns_large hbig r).mp hr
    dsimp only
    omega

/-- `memop_calloc_raw` refuses just the products that overflow. -/
theorem calloc_accepts (count size : BitVec 64) :
    ¬ (size ≠ 0 ∧ BitVec.allOnes 64 / size < count) ↔ count.toNat * size.toNat < 2 ^ 64 := by
  by_cases h0 : size = 0
  · rw [h0]
    apply iff_of_true fun h => h.1 rfl
    have hzero : BitVec.toNat (0 : BitVec 64) = 0 := rfl
    rw [hzero, Nat.mul_zero]
    exact Nat.two_pow_pos 64
  have hpos : 0 < size.toNat := by
    apply Nat.pos_of_ne_zero
    intro hz
    exact h0 (BitVec.eq_of_toNat_eq hz)
  rw [and_iff_right h0, BitVec.lt_def, BitVec.toNat_udiv, BitVec.toNat_allOnes,
    Nat.div_lt_iff_lt_mul hpos]
  omega

/-- The products for which the rounding wraps are too large for the `memset`. -/
theorem callocHonoured (count size : BitVec 64) : CallocHonoured count size := by
  rintro r ⟨haccepted, hr, hends⟩
  have hfits := (calloc_accepts count size).mp haccepted
  have htotal : (count * size).toNat = count.toNat * size.toNat := by
    rw [BitVec.toNat_mul, Nat.mod_eq_of_lt hfits]
  unfold MemsetEnds addressSpace at hends
  have hcapacity := (allocCapacity_iff (count * size)).mpr (by omega) r hr
  rwa [htotal] at hcapacity

end Xplatbase.Memory.Heap
