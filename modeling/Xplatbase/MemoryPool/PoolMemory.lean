import Xplatbase.Lib.BlockStore
import Xplatbase.MemoryPool.PoolTurns

/-! The pool and the bytes of the memory, while any number of threads allocate, free, reallocate and
end, and callers write to the blocks that they hold: what becomes of the contents of the blocks, and
of the records of the pool where a copy passes the end of its block. -/
namespace Xplatbase.MemoryPool
open Xplatbase.Lib Xplatbase.Memory

variable {ι : Type*}

/-- `mem` is the memory. `asked` is what the last allocating call of a thread was for, and `clears`
whether that was `memop_calloc_raw`. `spilling` says of a thread whose `memcpy` or `memset` passes the
end of its block over the starts of which chunks it has yet to write: the first, and their end. -/
structure MemoryState (ι : Type*) where
  pool : PoolState ι
  mem : ℕ → UInt8
  asked : ι → BitVec 64
  clears : ι → Bool
  spilling : ι → Option (ℕ × ℕ)

/-- What is written over the start of a chunk, as each of the records that the pool may have there:
the `MemSpan` of a span, the link of a cached chunk with the chunks that it leads to, and the
`MemSegment` of a segment. -/
structure ChunkRecord where
  owner : SpanOwner
  next : Option ℕ
  prev : Option ℕ
  head : Heap.SpanHead
  cached : List ℕ
  segment : MemSegment
  segments : List ℕ

inductive MemoryLabel (ι : Type*)
  /-- A step of the pool, with the bytes that it writes into what it has for itself. -/
  | call (l : PoolCall ι) (junk : ℕ → UInt8)
  /-- A copy goes on over the start of the next chunk; callers may have put any bytes there. -/
  | spill (i : ι) (r : ChunkRecord)
  /-- A caller writes a byte to a block. -/
  | store (p : Ptr) (offset : ℕ) (byte : UInt8)
  | copy (dst : MemBuffer) (dstOffset : BitVec 64) (src : MemBuffer) (size offset : BitVec 64)
  | append (dst : MemBuffer) (src : ℕ) (size offset : BitVec 64)

def PoolCall.thread : PoolCall ι → Option ι
  | .calloc i _ _ _ => some i
  | .pool (.createdThread i _) | .pool (.endedThread i) | .pool (.alloc i _ _)
  | .pool (.free i _ _) | .pool (.realloc i _ _ _ _) | .pool (.step i _ _) => some i
  | .pool (.purge _) => none

def PoolCall.ptr : PoolCall ι → Option Ptr
  | .pool (.free _ ptr _) | .pool (.realloc _ ptr _ _ _) => ptr
  | _ => none

/-- The size that the call is for, and whether the block is to be cleared. -/
def PoolCall.asks : PoolCall ι → Option (ι × BitVec 64 × Bool)
  | .calloc i count size _ =>
    if size ≠ 0 ∧ BitVec.allOnes 64 / size < count then none else some (i, count * size, true)
  | .pool (.alloc i size _) => some (i, size, false)
  | .pool (.realloc i _ size _ _) => some (i, size, false)
  | _ => none

def memset (mem : ℕ → UInt8) (dst n : ℕ) (v : UInt8) : ℕ → UInt8 := fun a =>
  if dst ≤ a ∧ a < dst + n then v else mem a

/-- `memop_copy`: what it returns, and the memory behind it. -/
def memopCopy (s : PoolState ι) (mem : ℕ → UInt8) (dst : MemBuffer) (dstOffset : BitVec 64)
    (src : MemBuffer) (size offset : BitVec 64) : BitVec 64 × (ℕ → UInt8) :=
  match dst.ptr, src.ptr with
  | some d, some p =>
    if size = 0 then (0, mem)
    else if src.size < offset ∨ src.size - offset < size then (0, mem)
    else if dst.size < dstOffset ∨ dst.size - dstOffset < size then (0, mem)
    else (size,
      memcpy mem (s.address d + dstOffset.toNat) (s.address p + offset.toNat) size.toNat)
  | _, _ => (0, mem)

/-- `memop_append`, of the bytes at the address `src`. -/
def memopAppend (s : PoolState ι) (mem : ℕ → UInt8) (dst : MemBuffer) (src : ℕ)
    (size offset : BitVec 64) : BitVec 64 × (ℕ → UInt8) :=
  match dst.ptr with
  | some d =>
    if size = 0 then (0, mem)
    else if dst.size < offset ∨ dst.size - offset < size then (0, mem)
    else (size, memcpy mem (s.address d + offset.toNat) src size.toNat)
  | none => (0, mem)

/-- The buffer is one of a block that callers hold, and no longer than that. -/
def PoolState.HasBuffer (s : PoolState ι) (b : MemBuffer) : Prop :=
  ∀ p ∈ b.ptr, p ∈ s.live ∧ b.size.toNat ≤ s.usable p

instance (s : PoolState ι) (b : MemBuffer) : Decidable (s.HasBuffer b) :=
  inferInstanceAs (Decidable (∀ p ∈ b.ptr, _))

/-- The elements of the memory from `start` on. -/
def readBytes (mem : ℕ → UInt8) (start n : ℕ) : List UInt8 :=
  (List.range n).map fun j => mem (start + j)

def MemoryState.content (s : MemoryState ι) (p : Ptr) : List UInt8 :=
  readBytes s.mem (s.pool.address p) (s.pool.usable p)

/-! ### Beyond the end of a block -/

def memopClassLarge : ℕ := 0xFFFFFFFF

/-- The 32 bits at `a`. -/
def word (mem : ℕ → UInt8) (a : ℕ) : ℕ :=
  (mem a).toNat + 2 ^ 8 * (mem (a + 1)).toNat + 2 ^ 16 * (mem (a + 2)).toNat +
    2 ^ 24 * (mem (a + 3)).toNat

/-- The pointer at `a` is `NULL`. -/
def Null (mem : ℕ → UInt8) (a : ℕ) : Prop := word mem a = 0 ∧ word mem (a + 4) = 0

instance (mem : ℕ → UInt8) (a : ℕ) : Decidable (Null mem a) := inferInstanceAs (Decidable (_ ∧ _))

/-- The bytes at `a` say so of the owner of a span. -/
def SpanOwner.Reads (heaps : List ℕ) (mem : ℕ → UInt8) (a : ℕ) : SpanOwner → Prop
  | .small k => word mem (a + 40) ≠ memopClassLarge ∧ (Null mem a → k ∉ heaps)
  | .large x => word mem (a + 40) = memopClassLarge ∧ x.stride.toNat = word mem (a + 44) ∧
      x.blockCount.toNat = word mem (a + 48)

instance (heaps : List ℕ) (mem : ℕ → UInt8) (a : ℕ) :
    (o : SpanOwner) → Decidable (o.Reads heaps mem a)
  | .small _ => inferInstanceAs (Decidable (_ ∧ _))
  | .large _ => inferInstanceAs (Decidable (_ ∧ _))

/-- The bytes at `a` say what the record does. A pointer that is not `NULL` may lead anywhere. -/
def ChunkRecord.Reads (heaps : List ℕ) (mem : ℕ → UInt8) (a : ℕ) (r : ChunkRecord) : Prop :=
  r.owner.Reads heaps mem a ∧
  (r.next = none ↔ Null mem (a + 8)) ∧ (r.prev = none ↔ Null mem (a + 16)) ∧
  (r.head.localFree = [] ↔ Null mem (a + 24)) ∧ (r.head.remoteFree = [] ↔ Null mem (a + 32)) ∧
  r.head.classId = word mem (a + 40) ∧ r.head.blockCount = word mem (a + 48) ∧
  r.head.used.toNat = word mem (a + 52) ∧ r.head.bumpIdx = word mem (a + 56) ∧
  (r.head.state = .full ↔ word mem (a + 60) = 1) ∧
  (Null mem a → r.cached = [] ∧ r.segments = []) ∧
  r.segment.nextChunk = word mem (a + 8) ∧ r.segment.live = word mem (a + 12) ∧
  r.segment.idleSince.toNat = word mem (a + 16) + 2 ^ 32 * word mem (a + 20)

instance (heaps : List ℕ) (mem : ℕ → UInt8) (a : ℕ) (r : ChunkRecord) :
    Decidable (r.Reads heaps mem a) :=
  inferInstanceAs (Decidable (_ ∧ _))

def SpanOwner.rewritten (old : SpanOwner) : SpanOwner → SpanOwner
  | .small k => .small k
  | .large y =>
    match old with
    | .small _ => .large { y with mapping := memopSpanSize }
    | .large x => .large { y with mapping := x.mapping }

/-- A list of links in which that of `c` leads to `rest`. -/
def relinked (c : ℕ) (rest l : List ℕ) : List ℕ :=
  if c ∈ l then l.takeWhile (· ≠ c) ++ c :: rest else l

/-- The records at the start of chunk `c` are written over, whichever of them are there. -/
def PoolState.overwritten (s : PoolState ι) (c : ℕ) (r : ChunkRecord) : PoolState ι :=
  let pool := { s.chunks.pool with spanCache := relinked c r.cached s.chunks.pool.spanCache }
  { s with
    header := Function.update s.header c ((s.header c).rewritten r.owner)
    heap := fun k =>
      let lists := (s.heap k).lists
      { s.heap k with lists := { lists with
        head := Function.update lists.head c { r.head with live := (lists.head c).live }
        next := Function.update lists.next c r.next
        prev := Function.update lists.prev c r.prev } }
    chunks := { s.chunks with
      pool :=
        if c % memopSegSpans = 0 then
          { pool.setHeader (memopSegOf c) r.segment with
            segments := relinked (memopSegOf c) r.segments pool.segments }
        else pool
      heaps := fun i =>
        let h := s.chunks.heaps i
        { h with localCache := relinked c r.cached h.localCache }
      pcs := fun i =>
        match s.chunks.pcs i with
        | .draining l => .draining (relinked c r.cached l)
        | pc => pc } }

/-- Chunk `c` is in memory that the OS has given and not got back. -/
def PoolState.Mapped (s : PoolState ι) (c : ℕ) : Prop :=
  memopSegOf c ∈ s.chunks.pool.mapped ∨ ∃ x ∈ s.mappings, x.1 ≤ c ∧ c < x.1 + x.2

instance (s : PoolState ι) (c : ℕ) : Decidable (s.Mapped c) :=
  inferInstanceAs (Decidable (_ ∨ ∃ x ∈ s.mappings, _))

/-- The chunks whose starts `n` bytes from the start of `p` on reach, past the end of the block. -/
def PoolState.beyond (s : PoolState ι) (p : Ptr) (n : ℕ) : Option (ℕ × ℕ) :=
  if n ≤ s.usable p then none
  else some ((s.address p + s.usable p + memopSpanSize - 1) / memopSpanSize,
    (s.address p + n + memopSpanSize - 1) / memopSpanSize)

/-- What thread `i` comes to write over by a step of the pool to `t`: it is about to copy in
`memop_realloc_raw`, or to clear in `memop_calloc_raw`. -/
def spills (s t : PoolState ι) (i : ι) (size : BitVec 64) (clear : Bool) : Option (ℕ × ℕ) :=
  match t.pcs i with
  | .release old new => t.beyond new (copyLength t old size)
  | _ =>
    if clear = true ∧ t.calls = .allocated :: s.calls then
      t.live.head?.bind fun p => t.beyond p size.toNat
    else none

section
variable [DecidableEq ι]

def MemoryState.asking (s : MemoryState ι) (l : PoolCall ι) : MemoryState ι :=
  match l.asks with
  | none => s
  | some (i, size, clear) =>
    { s with
      asked := Function.update s.asked i size
      clears := Function.update s.clears i clear }

theorem asking_pool (s : MemoryState ι) (l : PoolCall ι) : (s.asking l).pool = s.pool := by
  unfold MemoryState.asking
  cases l.asks with
  | none => rfl
  | some x => rfl

theorem asking_asked {s : MemoryState ι} {l : PoolCall ι} {x : ι × BitVec 64 × Bool}
    (hx : x ∈ l.asks) : (s.asking l).asked x.1 = x.2.1 := by
  unfold MemoryState.asking
  rw [Option.mem_def.mp hx]
  exact Function.update_self ..

/-- The memory behind a step to `t` that gives a block of `memop_calloc_raw`. -/
def cleared (s t : PoolState ι) (clear : Bool) (size : BitVec 64) (mem : ℕ → UInt8) : ℕ → UInt8 :=
  if clear = true ∧ t.calls = .allocated :: s.calls then
    match t.live.head? with
    | some p => memset mem (t.address p) size.toNat 0
    | none => mem
  else mem

/-- The memory behind a step of the pool to `t`: a `memop_realloc_raw` that has its new block copies
first, and a `memop_calloc_raw` that returns clears last. -/
def MemoryState.memAfter (s : MemoryState ι) (l : PoolCall ι) (t : PoolState ι)
    (junk : ℕ → UInt8) : ℕ → UInt8 :=
  match l.thread with
  | none => writeRecords s.pool t junk s.mem
  | some i =>
    cleared s.pool t (s.clears i) (s.asked i)
      (writeRecords s.pool t junk (copied s.pool i (s.asked i) s.mem))

def MemoryState.spillingAfter (s : MemoryState ι) (l : PoolCall ι) (t : PoolState ι) :
    ι → Option (ℕ × ℕ) :=
  match l.thread with
  | none => s.spilling
  | some i => Function.update s.spilling i (spills s.pool t i (s.asked i) (s.clears i))

/-- The state behind a step of the pool to `t`. -/
def MemoryState.after (s : MemoryState ι) (l : PoolCall ι) (t : PoolState ι) (junk : ℕ → UInt8) :
    MemoryState ι :=
  { s with pool := t, mem := s.memAfter l t junk, spilling := s.spillingAfter l t }

/-- The bytes that thread `i` writes past its block. -/
def MemoryState.spilled (s : MemoryState ι) (i : ι) : ℕ → UInt8 :=
  match s.pool.pcs i with
  | .release _ _ => copied s.pool i (s.asked i) s.mem
  | _ => fun _ => 0

/-- The copy of thread `i` writes over the start of the next chunk. Memory that is not mapped
faults. -/
def MemoryState.spill (s : MemoryState ι) (i : ι) (r : ChunkRecord) : Option (MemoryState ι) :=
  match s.spilling i with
  | none => none
  | some (c, last) =>
    if s.pool.Mapped c ∧ r.Reads s.pool.heaps (s.spilled i) (c * memopSpanSize) then
      some { s with
        pool := s.pool.overwritten c r
        spilling := Function.update s.spilling i (if c + 1 < last then some (c + 1, last) else none) }
    else none

/-- What `memcpy` is given does not overlap. -/
def NoOverlap (dst src n : ℕ) : Prop := dst + n ≤ src ∨ src + n ≤ dst

instance (dst src n : ℕ) : Decidable (NoOverlap dst src n) := inferInstanceAs (Decidable (_ ∨ _))

/-- Callers write to blocks that they hold only. -/
def memoryStep (s : MemoryState ι) : MemoryLabel ι → Option (MemoryState ι)
  | .call l junk =>
    -- a thread that copies past its block does that first
    if (l.thread.bind s.spilling).isSome then none
    else (poolCallStep s.pool l).map fun t => (s.asking l).after l t junk
  | .spill i r => s.spill i r
  | .store p offset byte =>
    if p ∈ s.pool.live ∧ offset < s.pool.usable p then
      some { s with mem := Function.update s.mem (s.pool.address p + offset) byte }
    else none
  | .copy dst dstOffset src size offset =>
    if s.pool.HasBuffer dst ∧ s.pool.HasBuffer src then
      some { s with mem := (memopCopy s.pool s.mem dst dstOffset src size offset).2 }
    else none
  | .append dst src size offset =>
    if s.pool.HasBuffer dst then
      some { s with mem := (memopAppend s.pool s.mem dst src size offset).2 }
    else none

/-- The pool after `memop_init`, over a memory that holds anything. -/
def memoryNew (ι : Type*) (mem : ℕ → UInt8) : MemoryState ι :=
  ⟨poolNew ι, mem, fun _ => 0, fun _ => false, fun _ => none⟩

def memorySystem (ι : Type*) [DecidableEq ι] : System (MemoryState ι) (MemoryLabel ι) where
  init := fun s => ∃ mem, s = memoryNew ι mem
  step := memoryStep

/-- What a step of the pool to `t` does to the blocks of the callers. -/
def MemoryState.callEvent (s : MemoryState ι) (l : PoolCall ι) (t : PoolState ι) :
    Option (StoreEvent Ptr UInt8) :=
  if t.calls = s.pool.calls then none
  else
    match t.calls.head?, l.thread with
    | some .allocated, some i =>
      t.live.head?.map fun p => .given p (s.asked i).toNat (if s.clears i then some 0 else none)
    | some .freed, _ => l.ptr.map .freed
    | some .moved, some i =>
      match s.pool.pcs i with
      | .release p new =>
        some (.moved p new (s.asked i).toNat (copyLength s.pool p (s.asked i)))
      | _ => none
    | some .inPlace, some i => l.ptr.map fun p => .kept p (s.asked i).toNat
    | _, _ => none

def MemoryState.event (s : MemoryState ι) : MemoryLabel ι → MemoryState ι →
    Option (StoreEvent Ptr UInt8)
  | .call l _, t => (s.asking l).callEvent l t.pool
  | .spill .., _ => none
  | .store p offset byte, _ => some (.written p offset [byte])
  | .copy dst dstOffset src size offset, _ =>
    if (memopCopy s.pool s.mem dst dstOffset src size offset).1 = 0 then none
    else
      match dst.ptr, src.ptr with
      | some d, some p =>
        some (.written d dstOffset.toNat
          (readBytes s.mem (s.pool.address p + offset.toNat) size.toNat))
      | _, _ => none
  | .append dst src size offset, _ =>
    if (memopAppend s.pool s.mem dst src size offset).1 = 0 then none
    else dst.ptr.map fun d => .written d offset.toNat (readBytes s.mem src size.toNat)

/-- The OS maps memory that a process can address, sizes are rounded up without wrapping, and what is
copied does not overlap. -/
def Sound (s : MemoryState ι) : MemoryLabel ι → Prop
  | .call l _ => MapsUserSpace s.pool l ∧ ∀ x ∈ l.asks, Rounds x.2.1
  | .copy dst dstOffset src size offset =>
    (memopCopy s.pool s.mem dst dstOffset src size offset).1 ≠ 0 →
      ∀ d ∈ dst.ptr, ∀ p ∈ src.ptr, NoOverlap (s.pool.address d + dstOffset.toNat)
        (s.pool.address p + offset.toNat) size.toNat
  | .append dst src size offset =>
    (memopAppend s.pool s.mem dst src size offset).1 ≠ 0 →
      ∀ d ∈ dst.ptr, NoOverlap (s.pool.address d + offset.toNat) src size.toNat
  | .store .. | .spill .. => True

instance (s : MemoryState ι) : (l : MemoryLabel ι) → Decidable (Sound s l)
  | .call l _ => inferInstanceAs (Decidable (MapsUserSpace s.pool l ∧ ∀ x ∈ l.asks, _))
  | .copy .. => inferInstanceAs (Decidable (_ → _))
  | .append .. => inferInstanceAs (Decidable (_ → _))
  | .store .. | .spill .. => .isTrue trivial

/-- What a call copies or clears fits in its block. A size from `2^64 - 63` on wraps to one chunk: no
block that is longer is reallocated to it, and none is cleared of it. -/
def PoolCall.Fits (s : PoolState ι) : PoolCall ι → Prop
  | .calloc _ count size _ =>
    size ≠ 0 ∧ BitVec.allOnes 64 / size < count ∨ (count * size).toNat < 2 ^ 64 - 63
  | .pool (.realloc _ (some p) size _ _) =>
    size.toNat < 2 ^ 64 - 63 ∨ (memopUsableSize s p).toNat ≤ memopSpanSize - memopSpanHeader
  | _ => True

instance (s : PoolState ι) : (l : PoolCall ι) → Decidable (l.Fits s)
  | .calloc .. => inferInstanceAs (Decidable (_ ∨ _))
  | .pool (.realloc _ (some _) ..) => inferInstanceAs (Decidable (_ ∨ _))
  | .pool (.realloc _ none ..) => .isTrue trivial
  | .pool (.createdThread ..) | .pool (.endedThread _) | .pool (.alloc ..) | .pool (.free ..)
  | .pool (.step ..) | .pool (.purge _) => .isTrue trivial

/-- The OS maps memory that a process can address. -/
def MemoryInUserSpace (s : MemoryState ι) : MemoryLabel ι → Prop
  | .call l _ => MapsUserSpace s.pool l
  | _ => True

instance (s : MemoryState ι) : (l : MemoryLabel ι) → Decidable (MemoryInUserSpace s l)
  | .call l _ => inferInstanceAs (Decidable (MapsUserSpace s.pool l))
  | .spill .. | .store .. | .copy .. | .append .. => .isTrue trivial

/-- Beside that, every call fits. -/
def CallsFit (s : MemoryState ι) : MemoryLabel ι → Prop
  | .call l _ => MapsUserSpace s.pool l ∧ l.Fits s.pool
  | _ => True

instance (s : MemoryState ι) : (l : MemoryLabel ι) → Decidable (CallsFit s l)
  | .call l _ => inferInstanceAs (Decidable (MapsUserSpace s.pool l ∧ l.Fits s.pool))
  | .spill .. | .store .. | .copy .. | .append .. => .isTrue trivial

end
end Xplatbase.MemoryPool
