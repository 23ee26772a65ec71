import Xplatbase.MemoryPool.PoolPlaces

/-! `memop_realloc_raw` and `memop_realloc` over the bytes of the memory. A call runs to its end while
the other threads stand where they are. Memory that is not mapped holds anything. -/
namespace Xplatbase.MemoryPool
open Xplatbase.Lib Xplatbase.Memory

variable {ι : Type*}

def memcpy (mem : ℕ → UInt8) (dst src n : ℕ) : ℕ → UInt8 := fun a =>
  if dst ≤ a ∧ a < dst + n then mem (src + (a - dst)) else mem a

/-- A free block of chunk `c` has its `next` at `offset`. -/
def PoolState.FreeLink (s : PoolState ι) (c offset : ℕ) : Prop :=
  match s.header c with
  | .small k =>
    let x := (s.heap k).lists.head c
    let stride := (classStride x.classId).toNat
    c ∈ (s.heap k).lists.owned ∧ memopSpanHeader ≤ offset ∧
      (offset - memopSpanHeader) % stride < 8 ∧
      (offset - memopSpanHeader) / stride ∈ x.waiting
  | .large _ => False

/-- The bytes that the pool has for itself: the headers of spans, the first chunks of segments and
the chunks in no use, and the links of free blocks. -/
def PoolState.Records (s : PoolState ι) (a : ℕ) : Prop :=
  let c := a / memopSpanSize
  let offset := a % memopSpanSize
  (offset < memopSpanHeader ∧ (c ∈ s.chunks.used ∨ ∃ x ∈ s.mappings, x.1 = c)) ∨
    (memopSegOf c ∈ s.chunks.pool.mapped ∧ (c % memopSegSpans = 0 ∨ c ∉ s.chunks.used)) ∨
    s.FreeLink c offset

instance (s : PoolState ι) (c offset : ℕ) : Decidable (s.FreeLink c offset) :=
  match h : s.header c with
  | .small k => decidable_of_iff
      (let x := (s.heap k).lists.head c
       let stride := (classStride x.classId).toNat
       c ∈ (s.heap k).lists.owned ∧ memopSpanHeader ≤ offset ∧
        (offset - memopSpanHeader) % stride < 8 ∧
        (offset - memopSpanHeader) / stride ∈ x.waiting)
      (by unfold PoolState.FreeLink; rw [h])
  | .large x => .isFalse (by unfold PoolState.FreeLink; rw [h]; exact id)

instance (s : PoolState ι) (a : ℕ) : Decidable (s.Records a) :=
  inferInstanceAs (Decidable (_ ∨ _ ∨ _))

/-- What a step from `s` to `s'` leaves in the memory: any bytes in what the pool has for itself. -/
def writeRecords (s s' : PoolState ι) (junk mem : ℕ → UInt8) : ℕ → UInt8 := fun a =>
  if s.Records a ∨ s'.Records a then junk a else mem a

/-- `copy = (size < old_usable) ? size : old_usable;` -/
def copyLength (s : PoolState ι) (old : Ptr) (size : BitVec 64) : ℕ :=
  if size < memopUsableSize s old then size.toNat else (memopUsableSize s old).toNat

/-- The memory after the copy of a `memop_realloc_raw` that has its new block. -/
def copied (s : PoolState ι) (i : ι) (size : BitVec 64) (mem : ℕ → UInt8) : ℕ → UInt8 :=
  match s.pcs i with
  | .release old new => memcpy mem (s.address new) (s.address old) (copyLength s old size)
  | _ => mem

/-- What a step of a call meets: the answer to its request for memory, the time, and the bytes that
it writes into what the pool has for itself. -/
structure StepInput where
  answer : Option ℕ
  now : BitVec 64
  junk : ℕ → UInt8

section
variable [DecidableEq ι]

/-- The steps of a `memop_realloc_raw` of thread `i` that is under way. -/
def reallocSteps (i : ι) (size : BitVec 64) :
    List StepInput → PoolState ι → (ℕ → UInt8) → Option (PoolState ι × (ℕ → UInt8))
  | [], s, mem => some (s, mem)
  | x :: rest, s, mem =>
    if s.pcs i = .idle ∨ ¬ InUserSpace s (.step i x.answer x.now) then none
    else
      match poolStep s (.step i x.answer x.now) with
      | none => none
      | some s' => reallocSteps i size rest s' (writeRecords s s' x.junk (copied s i size mem))

/-- `memop_realloc_raw(p, size)` by thread `i`: its first step, with the answer of `calloc` if the
thread has no heap, and the ones after it. -/
def reallocRun (s : PoolState ι) (mem : ℕ → UInt8) (i : ι) (p : Ptr) (size : BitVec 64)
    (first : StepInput) (rest : List StepInput) : Option (PoolState ι × (ℕ → UInt8)) :=
  match poolStep s (.realloc i (some p) size first.answer first.now) with
  | none => none
  | some s' => reallocSteps i size rest s' (writeRecords s s' first.junk mem)

end

/-- What the last call, a `memop_realloc_raw` of `p`, returned. -/
def reallocReturned (s : PoolState ι) (p : Ptr) : Option Ptr :=
  match s.calls.head? with
  | some .moved => s.live.head?
  | some .inPlace => some p
  | _ => none

structure MemBuffer where
  ptr : Option Ptr
  size : BitVec 64

/-- `memop_realloc`, once `memop_realloc_raw` has returned `np`: what it returns, and its caller's
buffer. -/
def memopRealloc (s : PoolState ι) (buffer : Option MemBuffer) (size : BitVec 64)
    (np : Option Ptr) : MemBuffer × Option MemBuffer :=
  let out : MemBuffer :=
    match np with
    | none => ⟨none, 0⟩
    | some p => ⟨some p, memopUsableSize s p⟩
  (out, if np.isSome ∨ size = 0 then buffer.map fun _ => out else buffer)

/-- A block and its bytes are as they were. -/
structure Unchanged (s s' : PoolState ι) (mem mem' : ℕ → UInt8) (p : Ptr) : Prop where
  address : s'.address p = s.address p
  usable : s'.usable p = s.usable p
  bytes : ∀ a ∈ s.bytes p, mem' a = mem a

/-- What `memop_realloc_raw(p, size)` promises for a block of `oldSize` bytes, and `memop_realloc`
behind it. -/
structure ReallocContract (s s' : PoolState ι) (mem mem' : ℕ → UInt8) (p : Ptr) (oldSize : ℕ)
    (size : BitVec 64) : Prop where
  refused : reallocReturned s' p = none →
    s'.live.Perm s.live ∧ ∀ q ∈ s.live, Unchanged s s' mem mem' q
  returned : ∀ r, reallocReturned s' p = some r →
    r ∈ s'.live ∧ size.toNat ≤ s'.usable r ∧
      (∀ n < min oldSize size.toNat, mem' (s'.address r + n) = mem (s.address p + n)) ∧
      (∀ q ∈ s.live, q ≠ p → q ∈ s'.live ∧ Unchanged s s' mem mem' q) ∧
      (r ≠ p → p ∉ s'.live)
  buffer : ∀ b : MemBuffer,
    (reallocReturned s' p = none →
      (memopRealloc s' (some b) size (reallocReturned s' p)).2 = some b) ∧
    ∀ r, reallocReturned s' p = some r →
      (memopRealloc s' (some b) size (reallocReturned s' p)).2 =
        some ⟨some r, memopUsableSize s' r⟩

/-! ### What a step writes -/

section
variable {s s' : PoolState ι} {v v' : Option ι → List Ptr} {D D' : Set Ptr} {p q : Ptr} {a k : ℕ}

theorem Stored.byte_chunk (h : Stored s v D) (hp : p ∈ D) (ha : a ∈ s.bytes p) :
    ∃ n, s.Span p.span n ∧ p.span ≤ a / memopSpanSize ∧ a / memopSpanSize < p.span + n := by
  obtain ⟨n, hn, hlow, hhigh⟩ := h.bytes_span hp
  have hmem : s.address p ≤ a ∧ a < s.address p + s.usable p := ha
  refine ⟨n, hn, ?_, ?_⟩
  · apply (Nat.le_div_iff_mul_le (by decide)).mpr
    omega
  · apply (Nat.div_lt_iff_lt_mul (by decide)).mpr
    omega

theorem byte_block (hx : s.header p.span = .small k) (ha : a ∈ s.bytes p)
    (hc : a / memopSpanSize = p.span) :
    (a % memopSpanSize - memopSpanHeader) /
      (classStride ((s.heap k).lists.head p.span).classId).toNat = p.block := by
  have hmem : s.address p ≤ a ∧ a < s.address p + s.usable p := ha
  unfold PoolState.address PoolState.usable at hmem
  rw [hx] at hmem
  dsimp only at hmem
  have hdiv := Nat.div_add_mod a memopSpanSize
  rw [hc] at hdiv
  generalize (classStride ((s.heap k).lists.head p.span).classId).toNat = stride at hmem ⊢
  have hcomm : memopSpanSize * p.span = p.span * memopSpanSize := Nat.mul_comm ..
  rw [Nat.div_eq_of_lt_le]
  · omega
  · rw [Nat.add_mul]
    omega

/-- What the pool has for itself is in no block that is held. -/
theorem Stored.not_records (h : Stored s v D) (hp : p ∈ D) (ha : a ∈ s.bytes p) :
    ¬ s.Records a := by
  obtain ⟨n, hn, hlow, hhigh⟩ := h.byte_chunk hp ha
  have hdiv := Nat.div_add_mod a memopSpanSize
  have hmod : a % memopSpanSize < memopSpanSize := Nat.mod_lt a (by decide)
  generalize hchunk : a / memopSpanSize = c at hlow hhigh hdiv
  have hcomm : memopSpanSize * c = c * memopSpanSize := Nat.mul_comm ..
  unfold PoolState.Records
  dsimp only
  rw [hchunk]
  rintro (⟨hoffset, hspan⟩ | ⟨hseg, hfree⟩ | hlink)
  · have hheader : a ∈ spanHeaderBytes c := by
      unfold spanHeaderBytes
      exact ⟨by omega, by omega⟩
    have hc : ∃ n, s.Span c n := by
      rcases hspan with hu | ⟨x, hx, rfl⟩
      · exact ⟨1, .inl ⟨rfl, hu⟩⟩
      · exact ⟨x.2, .inr hx⟩
    obtain ⟨n', hn'⟩ := hc
    exact Set.disjoint_left.mp (h.header_disjoint hp hn') ha hheader
  · have hsegment := h.span_segment hn hseg
    have hsegMod := memopSegOf_mod c
    have hsegLt := memopSegOf_mod_lt c
    rcases hfree with hzero | hunused
    · omega
    · rcases hn with ⟨rfl, hu⟩ | hmap
      · obtain rfl : c = p.span := by omega
        exact hunused hu
      · have hapart := h.apart.segments _ hseg _ hmap
        rw [Nat.add_mul] at hapart
        dsimp only at hapart
        omega
  · unfold PoolState.FreeLink at hlink
    cases hx : s.header c with
    | large x =>
      rw [hx] at hlink
      exact hlink
    | small k =>
      rw [hx] at hlink
      obtain ⟨howned, -, -, hwait⟩ := hlink
      by_cases hpc : p.span = c
      · subst hpc
        obtain ⟨-, hlive⟩ := (home_small hx).mp (h.home p hp)
        rw [byte_block hx ha hchunk] at hwait
        have hparted := (h.spans k _ howned).parted
        exact (List.nodup_append.mp hparted.nodup).2.2 _ hwait _ hlive rfl
      · have hapart := h.spans_apart hn (.inl ⟨rfl, h.used k c howned⟩) hpc
        omega

end

section
variable {s₀ s s' t : PoolState ι} {mem₀ mem mem' : ℕ → UInt8} {i : ι} {p q : Ptr}
  {size : BitVec 64} {oldSize a : ℕ}

/-- A step leaves the bytes of a block that is held before it and after it. -/
theorem PoolOk.block_kept (h : PoolOk s) (h' : PoolOk s') {r r' : Option ι} (hq : q ∈ s.holds r)
    (hq' : q ∈ s'.holds r') (hplace : PlaceKept s s' q.span) (junk mem : ℕ → UInt8)
    (ha : a ∈ s.bytes q) : writeRecords s s' junk mem a = mem a := by
  obtain ⟨D, hD⟩ := h.stored
  obtain ⟨D', hD'⟩ := h'.stored
  unfold writeRecords
  apply if_neg
  rintro (hr | hr)
  · exact hD.not_records (hD.shelved.mem hq) ha hr
  · rw [← hplace.bytes] at ha
    exact hD'.not_records (hD'.shelved.mem hq') ha hr

/-- So are those of a block that callers hold before it and after it. -/
theorem PoolOk.live_kept (h : PoolOk s) (h' : PoolOk s') (hq : q ∈ s.live) (hq' : q ∈ s'.live)
    (hplace : PlaceKept s s' q.span) (junk mem : ℕ → UInt8) (ha : a ∈ s.bytes q) :
    writeRecords s s' junk mem a = mem a := by
  have hheld : q ∈ s'.holds none := hq'
  exact h.block_kept h' (r := none) hq hheld hplace junk mem ha

/-! ### Usable sizes -/

theorem classStride_mono : ∀ d < memopClassCount, ∀ c ≤ d,
    (classStride c).toNat ≤ (classStride d).toNat := by
  decide +kernel

/-- The 32-bit size is never above the bytes of the block. -/
theorem LargeWritten.usableSize_le (h : LargeWritten s) (p : Ptr) :
    (memopUsableSize s p).toNat ≤ s.usable p := by
  unfold memopUsableSize PoolState.usable
  cases hx : s.header p.span with
  | small k =>
    dsimp only
    rw [BitVec.toNat_setWidth]
    exact Nat.mod_le ..
  | large x =>
    obtain ⟨asked, hlarge⟩ := h p.span x hx
    rw [Heap.memopAllocLarge_eq] at hlarge
    split_ifs at hlarge with hlt
    obtain rfl := Heap.LargeResult.block.inj hlarge
    dsimp only
    rw [Heap.largeSize_toNat (Nat.le_of_not_lt hlt)]
    exact Nat.mod_le ..

theorem PoolOk.keepsBlock_fits [DecidableEq ι] (h : PoolOk s) (hl : LargeWritten s) (hp : p ∈ s.live)
    (hkeep : keepsBlock s p size = true) : size.toNat ≤ s.usable p := by
  obtain ⟨D, hD⟩ := h.stored
  have hle := hl.usableSize_le p
  unfold keepsBlock at hkeep
  split at hkeep
  · rename_i k c hx hc
    have hmem : p ∈ D := hD.shelved.mem (p := none) hp
    obtain ⟨howned, -⟩ := (home_small hx).mp (hD.home p hmem)
    have hknown := (hD.spans k _ howned).wf.known
    have hfits := (Heap.memopClassIndex_fits hc).2
    have hstride := classStride_mono _ hknown c (of_decide_eq_true hkeep)
    unfold PoolState.usable
    rw [hx]
    exact hfits.trans hstride
  · rename_i x hx _
    have hsize : size ≤ memopUsableSize s p := by
      unfold memopUsableSize
      rw [hx]
      exact of_decide_eq_true hkeep
    rw [BitVec.le_def] at hsize
    exact hsize.trans hle
  · cases hkeep

/-- The 32-bit size of the block covers the bytes that are to be preserved. -/
def Covered (s : PoolState ι) (p : Ptr) (oldSize : ℕ) (size : BitVec 64) : Prop :=
  size ≤ memopUsableSize s p ∨ oldSize ≤ (memopUsableSize s p).toNat

theorem le_copyLength (hcopy : Covered s p oldSize size) :
    min oldSize size.toNat ≤ copyLength s p size := by
  unfold copyLength
  split_ifs with hlt
  · exact Nat.min_le_right ..
  · rcases hcopy with hle | hle
    · rw [BitVec.le_def] at hle
      exact (Nat.min_le_right ..).trans hle
    · exact (Nat.min_le_left ..).trans hle

theorem copyLength_le_size : copyLength s p size ≤ size.toNat := by
  unfold copyLength
  split_ifs with hlt
  · exact Nat.le_refl _
  · rw [BitVec.lt_def] at hlt
    exact Nat.le_of_not_lt hlt

theorem copyLength_le_usable : copyLength s p size ≤ (memopUsableSize s p).toNat := by
  unfold copyLength
  split_ifs with hlt
  · exact Nat.le_of_lt hlt
  · exact Nat.le_refl _

theorem PlaceKept.copyLength (h : PlaceKept s s' p.span) :
    copyLength s' p size = copyLength s p size := by
  unfold MemoryPool.copyLength
  rw [h.usableSize]

theorem LargeWritten.copyLength_le (h : LargeWritten s) (p : Ptr) (size : BitVec 64) :
    copyLength s p size ≤ s.usable p :=
  copyLength_le_usable.trans (h.usableSize_le p)

theorem memcpy_of_lt (mem : ℕ → UInt8) (dst src : ℕ) {n k : ℕ} (hk : k < n) :
    memcpy mem dst src n (dst + k) = mem (src + k) := by
  unfold memcpy
  rw [if_pos ⟨Nat.le_add_right .., Nat.add_lt_add_left hk dst⟩, Nat.add_sub_cancel_left]

theorem memcpy_of_not_mem (mem : ℕ → UInt8) (dst src n : ℕ) (ha : ¬ (dst ≤ a ∧ a < dst + n)) :
    memcpy mem dst src n a = mem a :=
  if_neg ha

/-! ### The steps of a call -/

/-- The call of thread `i` has the block `p`, and what callers held when it began is as it was. -/
structure Replacing (s₀ : PoolState ι) (mem₀ : ℕ → UInt8) (i : ι) (p : Ptr) (size : BitVec 64)
    (s : PoolState ι) (mem : ℕ → UInt8) : Prop where
  ok : PoolOk s
  live : s.live = s₀.live.erase p
  place : ∀ q ∈ s₀.live, PlaceKept s₀ s q.span
  bytes : ∀ q ∈ s₀.live, ∀ a ∈ s₀.bytes q, mem a = mem₀ a
  stage : Awaiting s i size (some p) ∨ ∃ new, s.pcs i = .release p new ∧ size.toNat ≤ s.usable new

theorem Awaiting.held (h : Awaiting s i size (some p)) : p ∈ s.holds (some i) := by
  unfold PoolState.holds
  dsimp only
  cases h with
  | large hpc _ =>
    rw [hpc]
    exact List.mem_cons_self
  | refill k c hpc _ _ _ =>
    rw [hpc]
    exact List.mem_cons_self

theorem held_erase {live : List Ptr} (hlive : s.live = live.erase p) (hp : p ∈ s.holds (some i))
    (hq : q ∈ live) : ∃ r, q ∈ s.holds r := by
  by_cases hqp : q = p
  · exact ⟨some i, hqp ▸ hp⟩
  · refine ⟨none, ?_⟩
    have hmem : q ∈ live.erase p := (List.mem_erase_of_ne hqp).mpr hq
    rw [← hlive] at hmem
    exact hmem

theorem holds_release {new : Ptr} (hpc : s.pcs i = .release p new) :
    s.holds (some i) = [new, p] := by
  unfold PoolState.holds
  dsimp only
  rw [hpc]
  rfl

theorem AllocOutcome.held (h : AllocOutcome t s' i size (some p)) (hlive : t.live = s₀.live.erase p)
    (hp : p ∈ s₀.live) (hq : q ∈ s₀.live) : ∃ r, q ∈ s'.holds r := by
  cases h with
  | awaits hat hl _ => exact held_erase (hl.trans hlive) hat.held hq
  | failed _ hl _ =>
    refine ⟨none, ?_⟩
    change q ∈ s'.live
    rw [hl, hlive]
    exact (List.perm_cons_erase hp).subset hq
  | got new hpc hl _ _ =>
    apply held_erase (hl.trans hlive) (i := i) _ hq
    rw [holds_release hpc]
    exact List.mem_cons_of_mem new List.mem_cons_self

theorem Replacing.held (h : Replacing s₀ mem₀ i p size s mem) (hq : q ∈ s₀.live) :
    ∃ r, q ∈ s.holds r := by
  rcases h.stage with hat | ⟨new, hpc, -⟩
  · exact held_erase h.live hat.held hq
  · apply held_erase h.live (i := i) _ hq
    rw [holds_release hpc]
    exact List.mem_cons_of_mem new List.mem_cons_self

/-- The buffer of `memop_realloc` follows what `memop_realloc_raw` returned. -/
theorem memopRealloc_buffer (hsize : size ≠ 0) (o : Option Ptr) (b : MemBuffer) :
    (o = none → (memopRealloc s (some b) size o).2 = some b) ∧
      ∀ r, o = some r → (memopRealloc s (some b) size o).2 = some ⟨some r, memopUsableSize s r⟩ := by
  unfold memopRealloc
  constructor
  · rintro rfl
    exact if_neg (not_or.mpr ⟨Bool.false_ne_true, hsize⟩)
  · rintro r rfl
    dsimp only
    exact if_pos (Or.inl Option.isSome_some)

/-- The call goes on, or has returned; and that as it should, if the copy covers what is to be
preserved. -/
def GoesWell (s₀ : PoolState ι) (mem₀ : ℕ → UInt8) (i : ι) (p : Ptr) (oldSize : ℕ)
    (size : BitVec 64) (s : PoolState ι) (mem : ℕ → UInt8) : Prop :=
  Replacing s₀ mem₀ i p size s mem ∨
    s.pcs i = .idle ∧
      (Covered s₀ p oldSize size → ReallocContract s₀ s mem₀ mem p oldSize size)

/-- A step of the call without a block: it goes on, or fails as it should. -/
theorem AllocOutcome.replacing (h : AllocOutcome t s' i size (some p))
    (hlive : t.live = s₀.live.erase p)
    (hsize : size ≠ 0) (hrounds : Rounds size) (hp : p ∈ s₀.live) (hok : PoolOk s')
    (hplace : ∀ q ∈ s₀.live, PlaceKept s₀ s' q.span)
    (hbytes : ∀ q ∈ s₀.live, ∀ a ∈ s₀.bytes q, mem' a = mem₀ a) :
    GoesWell s₀ mem₀ i p oldSize size s' mem' := by
  cases h with
  | awaits hat hl _ => exact .inl ⟨hok, hl.trans hlive, hplace, hbytes, .inl hat⟩
  | got new hpc hl _ hroom =>
    exact .inl ⟨hok, hl.trans hlive, hplace, hbytes, .inr ⟨new, hpc, hroom _ hrounds.room⟩⟩
  | failed hpc hl hcalls =>
    have hnone : reallocReturned s' p = none := by
      unfold reallocReturned
      rw [hcalls]
      rfl
    refine Or.inr ⟨hpc, fun _ => ⟨?_, ?_, ?_⟩⟩
    · intro _
      constructor
      · rw [hl, hlive]
        exact (List.perm_cons_erase hp).symm
      · exact fun q hq => ⟨(hplace q hq).address, (hplace q hq).usable, hbytes q hq⟩
    · intro r hr
      rw [hnone] at hr
      cases hr
    · exact memopRealloc_buffer hsize _

theorem copied_release {new : Ptr} (hpc : s.pcs i = .release p new) (mem : ℕ → UInt8) :
    copied s i size mem = memcpy mem (s.address new) (s.address p) (copyLength s p size) := by
  unfold copied
  rw [hpc]

/-- The last step leaves the blocks of the callers but the old one alone. -/
theorem Replacing.released_other [DecidableEq ι] (h : Replacing s₀ mem₀ i p size s mem)
    {new : Ptr} (hpc : s.pcs i = .release p new) (hfits : size.toNat ≤ s.usable new)
    (hlive : s'.live = new :: s₀.live.erase p) (hstep : ∀ c, PlaceKept s s' c) (hok : PoolOk s')
    (junk : ℕ → UInt8) (hq : q ∈ s₀.live) (hqp : q ≠ p) :
    q ∈ s'.live ∧ Unchanged s₀ s' mem₀ (writeRecords s s' junk (copied s i size mem)) q := by
  obtain ⟨D, hD⟩ := h.ok.stored
  have hnewHeld : new ∈ s.holds (some i) := holds_release hpc ▸ List.mem_cons_self
  have hqLive : q ∈ s.live := by
    rw [h.live]
    exact (List.mem_erase_of_ne hqp).mpr hq
  have hqLive' : q ∈ s'.live := by
    rw [hlive, ← h.live]
    exact List.mem_cons_of_mem new hqLive
  have hqPlace := (h.place q hq).trans (hstep q.span)
  refine ⟨hqLive', hqPlace.address, hqPlace.usable, ?_⟩
  intro a ha
  have haq : a ∈ s.bytes q := by
    rw [(h.place q hq).bytes]
    exact ha
  have hqnew : q ≠ new := by
    rintro rfl
    exact Option.some_ne_none i (hD.shelved.once (some i) none q hnewHeld hqLive)
  have hapart := hD.bytes_disjoint (hD.shelved.mem (p := none) hqLive) (hD.shelved.mem hnewHeld)
    hqnew
  rw [h.ok.live_kept hok hqLive hqLive' (hstep q.span) _ _ haq, copied_release hpc,
    memcpy_of_not_mem, h.bytes q hq a ha]
  rintro ⟨hlow, hhigh⟩
  have hlen : copyLength s p size ≤ s.usable new := copyLength_le_size.trans hfits
  have hin := Nat.lt_of_lt_of_le hhigh (Nat.add_le_add_left hlen _)
  exact Set.disjoint_left.mp hapart haq ⟨hlow, hin⟩

/-- The new block has what the copy covers of the old one. -/
theorem Replacing.released_bytes [DecidableEq ι] (h : Replacing s₀ mem₀ i p size s mem)
    (hp : p ∈ s₀.live) (hold : oldSize ≤ s₀.usable p) {new : Ptr}
    (hpc : s.pcs i = .release p new) (hfits : size.toNat ≤ s.usable new)
    (hlive : new ∈ s'.live) (hstep : PlaceKept s s' new.span) (hok : PoolOk s')
    (junk : ℕ → UInt8) (hcopy : Covered s₀ p oldSize size) {n : ℕ}
    (hn : n < min oldSize size.toNat) :
    writeRecords s s' junk (copied s i size mem) (s'.address new + n) =
      mem₀ (s₀.address p + n) := by
  have hnewHeld : new ∈ s.holds (some i) := holds_release hpc ▸ List.mem_cons_self
  have hnewLive : new ∈ s'.holds none := hlive
  have hplace := h.place p hp
  have hlen : copyLength s p size ≤ s.usable new := copyLength_le_size.trans hfits
  have hmin : min oldSize size.toNat ≤ copyLength s p size := by
    apply le_copyLength
    unfold Covered
    rw [hplace.usableSize]
    exact hcopy
  have hlt : n < copyLength s p size := Nat.lt_of_lt_of_le hn hmin
  have hin : s.address new + n ∈ s.bytes new :=
    ⟨Nat.le_add_right .., Nat.add_lt_add_left (Nat.lt_of_lt_of_le hlt hlen) _⟩
  have hold' : s₀.address p + n ∈ s₀.bytes p :=
    ⟨Nat.le_add_right .., Nat.add_lt_add_left
      (Nat.lt_of_lt_of_le (Nat.lt_of_lt_of_le hn (Nat.min_le_left ..)) hold) _⟩
  rw [hstep.address, h.ok.block_kept hok hnewHeld hnewLive hstep _ _ hin, copied_release hpc,
    memcpy_of_lt _ _ _ hlt, hplace.address]
  exact h.bytes p hp _ hold'

theorem Replacing.released [DecidableEq ι] (h : Replacing s₀ mem₀ i p size s mem)
    (hp : p ∈ s₀.live) (hsize : size ≠ 0) (hold : oldSize ≤ s₀.usable p)
    {new : Ptr} (hpc : s.pcs i = .release p new) (hfits : size.toNat ≤ s.usable new)
    {now : BitVec 64} (junk : ℕ → UInt8)
    (hs : s' = { memopFreeRaw s i p now with
      live := new :: (memopFreeRaw s i p now).live }.ret i .moved) (hok : PoolOk s') :
    GoesWell s₀ mem₀ i p oldSize size s' (writeRecords s s' junk (copied s i size mem)) := by
  obtain ⟨-, hlive, -⟩ := memopFreeRaw_rest s i p now
  have hlive' : s'.live = new :: s₀.live.erase p := by
    rw [hs]
    change new :: (memopFreeRaw s i p now).live = _
    rw [hlive, h.live]
  have hreturned : reallocReturned s' p = some new := by
    unfold reallocReturned
    rw [hlive', hs]
    rfl
  have hstep (c : ℕ) : PlaceKept s s' c := by
    have hfree := placeKept_memopFreeRaw s i p now c
    rw [hs]
    exact ⟨hfree.header, hfree.classId⟩
  obtain ⟨D, hD⟩ := h.ok.stored
  have hhands := holds_release hpc
  have hpHeld : p ∈ s.holds (some i) := hhands ▸ List.mem_cons_of_mem new List.mem_cons_self
  have hnewLive : new ∈ s'.live := hlive' ▸ List.mem_cons_self
  have hne : new ≠ p := by
    have hnodup := hD.shelved.nodup (some i)
    rw [hhands] at hnodup
    exact fun he => (List.nodup_cons.mp hnodup).1 (List.mem_singleton.mpr he)
  have hnotLive : p ∉ s.live := fun hmem =>
    Option.some_ne_none i (hD.shelved.once (some i) none p hpHeld hmem)
  have hidle : s'.pcs i = .idle := by
    rw [hs]
    exact Function.update_self ..
  refine Or.inr ⟨hidle, fun hcopy => ⟨?_, ?_, ?_⟩⟩
  · intro hnone
    rw [hreturned] at hnone
    cases hnone
  · intro r hr
    obtain rfl := Option.some.inj (hreturned.symm.trans hr)
    refine ⟨hnewLive, ?_, ?_, ?_, ?_⟩
    · rw [(hstep new.span).usable]
      exact hfits
    · intro n hn
      exact h.released_bytes hp hold hpc hfits hnewLive (hstep new.span) hok junk hcopy hn
    · intro q hq hqp
      exact h.released_other hpc hfits hlive' hstep hok junk hq hqp
    · intro _
      rw [hlive', ← h.live]
      exact List.not_mem_cons_of_ne_of_not_mem hne.symm hnotLive
  · exact memopRealloc_buffer hsize _

variable [DecidableEq ι]

omit [DecidableEq ι] in
theorem Replacing.outcome (h : Replacing s₀ mem₀ i p size s mem) (hp : p ∈ s₀.live)
    (hsize : size ≠ 0) (hrounds : Rounds size) (hat : Awaiting s i size (some p))
    (hout : AllocOutcome s s' i size (some p))
    (hkept : PlacesKept s s') (hok : PoolOk s') (junk : ℕ → UInt8) :
    GoesWell s₀ mem₀ i p oldSize size s' (writeRecords s s' junk (copied s i size mem)) := by
  have hcopied : copied s i size mem = mem := by
    unfold copied
    cases hat with
    | large hpc _ => rw [hpc]
    | refill k c hpc _ _ _ => rw [hpc]
  rw [hcopied]
  apply hout.replacing h.live hsize hrounds hp hok
  · intro q hq
    obtain ⟨r, hr⟩ := h.held hq
    exact (h.place q hq).trans (hkept r q hr)
  · intro q hq a ha
    obtain ⟨r, hr⟩ := h.held hq
    obtain ⟨r', hr'⟩ := hout.held h.live hp hq
    rw [← (h.place q hq).bytes] at ha
    rw [h.ok.block_kept hok hr hr' (hkept r q hr) junk mem ha]
    rw [(h.place q hq).bytes] at ha
    exact h.bytes q hq a ha

theorem Replacing.step (h : Replacing s₀ mem₀ i p size s mem) (hp : p ∈ s₀.live)
    (hsize : size ≠ 0) (hold : oldSize ≤ s₀.usable p)
    (hrounds : Rounds size) {x : StepInput} (huser : InUserSpace s (.step i x.answer x.now))
    (hs : poolStep s (.step i x.answer x.now) = some s') :
    GoesWell s₀ mem₀ i p oldSize size s' (writeRecords s s' x.junk (copied s i size mem)) := by
  have hok := h.ok.step huser hs
  simp only [poolStep] at hs
  split at hs
  · cases hs
  rename_i k hk
  unfold callStep at hs
  rcases h.stage with hat | ⟨new, hpc, hfits⟩
  · cases hat with
    | large hpc hclass =>
      rw [hpc] at hs
      obtain ⟨hout, hkept⟩ := h.ok.largeStep_outcome hpc hclass hs
      exact h.outcome hp hsize hrounds (.large hpc hclass) hout hkept hok x.junk
    | refill k' c hpc hg hclass hat =>
      obtain rfl : k' = k := Option.some.inj (hg.symm.trans hk)
      rw [hpc] at hs
      obtain ⟨hout, hkept⟩ := h.ok.refillStep_outcome hg hpc hclass hat hs
      exact h.outcome hp hsize hrounds (.refill k' c hpc hg hclass hat) hout hkept hok x.junk
  · rw [hpc] at hs
    exact h.released hp hsize hold hpc hfits x.junk (Option.some.inj hs).symm hok

theorem GoesWell.run (hp : p ∈ s₀.live) (hsize : size ≠ 0) (hold : oldSize ≤ s₀.usable p)
    (hrounds : Rounds size) (rest : List StepInput)
    (h : GoesWell s₀ mem₀ i p oldSize size s mem)
    (hs : reallocSteps i size rest s mem = some (s', mem')) :
    GoesWell s₀ mem₀ i p oldSize size s' mem' := by
  induction rest generalizing s mem with
  | nil =>
    obtain ⟨rfl, rfl⟩ := Prod.mk.inj (Option.some.inj hs)
    exact h
  | cons x rest ih =>
    unfold reallocSteps at hs
    split_ifs at hs with hno
    obtain ⟨hne, huser⟩ := not_or.mp hno
    split at hs
    · cases hs
    · rename_i t ht
      rcases h with hreplacing | ⟨hidle, -⟩
      · exact ih (hreplacing.step hp hsize hold hrounds (not_not.mp huser) ht) hs
      · exact absurd hidle hne

theorem PoolOk.reallocBegins (h : PoolOk s) (hl : LargeWritten s) (hidle : s.pcs i = .idle)
    (hp : p ∈ s.live) (hsize : size ≠ 0) (hold : oldSize ≤ s.usable p) (hrounds : Rounds size)
    {first : StepInput} (hs : poolStep s (.realloc i (some p) size first.answer first.now) = some s') :
    GoesWell s mem i p oldSize size s' (writeRecords s s' first.junk mem) := by
  have hok : PoolOk s' := h.step (l := .realloc i (some p) size first.answer first.now)
    (fun x hx => by cases hx) hs
  simp only [poolStep, if_pos hidle, if_pos hp] at hs
  unfold MemoryPool.memopReallocRaw at hs
  rw [if_neg hsize] at hs
  split_ifs at hs with hkeep
  · have hret : s' = s.ret i .inPlace := (Option.some.inj hs).symm
    have hsame : SameStorage s (s.ret i .inPlace) := ⟨rfl, rfl, fun _ => rfl, rfl, rfl⟩
    have hplace (c : ℕ) : PlaceKept s s' c := by
      rw [hret]
      exact .of_same hsame c
    have hlive : s'.live = s.live := by
      rw [hret]
      rfl
    have hheld : ∀ q ∈ s.live, q ∈ s'.live := by
      rw [hlive]
      exact fun _ hq => hq
    have hreturned : reallocReturned s' p = some p := by
      unfold reallocReturned
      rw [hret]
      rfl
    have hbytes : ∀ q ∈ s.live, ∀ a ∈ s.bytes q, writeRecords s s' first.junk mem a = mem a :=
      fun q hq a ha => h.live_kept hok hq (hheld q hq) (hplace _) _ _ ha
    have hidle' : s'.pcs i = .idle := by
      rw [hret]
      exact Function.update_self ..
    refine Or.inr ⟨hidle', fun _ => ⟨?_, ?_, memopRealloc_buffer hsize _⟩⟩
    · intro hnone
      rw [hreturned] at hnone
      cases hnone
    · intro r hr
      obtain rfl := Option.some.inj (hreturned.symm.trans hr)
      refine ⟨hheld p hp, ?_, ?_, ?_, fun hne => absurd rfl hne⟩
      · rw [(hplace p.span).usable]
        exact h.keepsBlock_fits hl hp hkeep
      · intro n hn
        rw [(hplace p.span).address]
        apply hbytes p hp
        exact ⟨Nat.le_add_right .., Nat.add_lt_add_left
          (Nat.lt_of_lt_of_le (Nat.lt_of_lt_of_le hn (Nat.min_le_left ..)) hold) _⟩
      · intro q hq _
        exact ⟨hheld q hq, (hplace q.span).address, (hplace q.span).usable, hbytes q hq⟩
  · obtain ⟨hout, hkept⟩ := h.memopAllocRaw_outcome hidle hp hs
    apply hout.replacing rfl hsize hrounds hp hok
    · intro q hq
      exact hkept none q hq
    · intro q hq a ha
      obtain ⟨r, hr⟩ := hout.held rfl hp hq
      exact h.block_kept hok (r := none) hq hr (hkept none q hq) _ _ ha

theorem PoolOk.reallocRun_goesWell (h : PoolOk s) (hl : LargeWritten s) (hidle : s.pcs i = .idle)
    (hp : p ∈ s.live) (hsize : size ≠ 0) (hold : oldSize ≤ s.usable p) (hrounds : Rounds size)
    {first : StepInput} {rest : List StepInput}
    (hs : reallocRun s mem i p size first rest = some (s', mem')) :
    GoesWell s mem i p oldSize size s' mem' := by
  unfold reallocRun at hs
  split at hs
  · cases hs
  · rename_i t ht
    exact GoesWell.run hp hsize hold hrounds rest
      (h.reallocBegins hl hidle hp hsize hold hrounds ht) hs

end
end Xplatbase.MemoryPool
