import Mathlib.Data.BitVec
import Xplatbase.Memory.Chunks
import Xplatbase.Memory.HonouredSize

/-! Model of `memory_pool.c` as its callers see it: any number of threads that allocate, free,
reallocate and end, over the heaps of `Memory.Heap` and the chunks of `Memory.Chunks`. Between two
steps of a thread the others may move; what only the owner of a heap touches is done with the step
before it. Memory is counted in chunks of 64 KB. -/
namespace Xplatbase.MemoryPool
open Xplatbase.Lib Xplatbase.Memory

/-- Block `block` of the span at `span`; a LARGE block is block 0 of its own. -/
structure Ptr where
  span : ℕ
  block : ℕ
  deriving DecidableEq

/-- What the header of a span says of its owner: a heap, or `MEMOP_CLASS_LARGE`. -/
inductive SpanOwner
  | small (heap : ℕ)
  | large (x : Heap.LargeSpan)

/-- A `MemHeap`: its lists of spans, `s_span_allocs` among them, and its other statistics. -/
structure PoolHeap where
  lists : Heap.MemHeap
  active : Bool
  sAlloc : BitVec 64
  sFree : BitVec 64
  sRemoteFrees : BitVec 64

/-- Where a thread stands; `old` is the block that a `memop_realloc_raw` is about to replace. -/
inductive PoolPc
  | idle
  /-- In `memop_refill`. -/
  | refill (old : Option Ptr)
  /-- In `memop_alloc_large`, before it has its memory. -/
  | large (size : BitVec 64) (old : Option Ptr)
  /-- In `memop_realloc_raw`, with the new block, before the old one is freed. -/
  | release (old new : Ptr)
  /-- In `memop_on_ended_thread`: the list of class `c`, from `span` on. -/
  | endClass (c : ℕ) (span kept : Option ℕ)
  /-- The list of full spans. -/
  | endFull (span kept keptTail : Option ℕ)
  /-- In `chunk_local_to_global`. -/
  | endCache
  deriving DecidableEq

inductive CallEnd
  /-- A new block. -/
  | allocated
  /-- The block is freed. -/
  | freed
  /-- `memop_realloc_raw` with another block than it was given. -/
  | moved
  /-- `memop_realloc_raw` with the block it was given. -/
  | inPlace
  /-- `NULL`, nothing changed. -/
  | failed
  deriving DecidableEq

/-- `heaps` is the list `G.heaps`; `header` what the spans' headers say; `mappings` are the mappings
of `span_os_alloc` still held, by first chunk and length. `live` are the blocks that callers hold,
`calls` the calls that returned, newest first. -/
structure PoolState (ι : Type*) where
  chunks : ChunkState ι
  heaps : List ℕ
  heap : ℕ → PoolHeap
  gHeap : ι → Option ℕ
  lanesCreated : BitVec 64
  lanesDestroyed : BitVec 64
  header : ℕ → SpanOwner
  mappings : List (ℕ × ℕ)
  pcs : ι → PoolPc
  live : List Ptr
  calls : List CallEnd

/-- `heap` is the answer of `calloc` to a thread without a heap, `os` that of the OS to a request
for memory, and `now` the time that a release of a chunk reads. -/
inductive PoolLabel (ι : Type*)
  | createdThread (i : ι) (heap : Option ℕ)
  | endedThread (i : ι)
  | alloc (i : ι) (size : BitVec 64) (heap : Option ℕ)
  | free (i : ι) (ptr : Option Ptr) (now : BitVec 64)
  | realloc (i : ι) (ptr : Option Ptr) (size : BitVec 64) (heap : Option ℕ) (now : BitVec 64)
  | step (i : ι) (os : Option ℕ) (now : BitVec 64)
  | purge (now : BitVec 64)

variable {ι : Type*} [DecidableEq ι]

namespace PoolState

def setPc (s : PoolState ι) (i : ι) (pc : PoolPc) : PoolState ι :=
  { s with pcs := Function.update s.pcs i pc }

def setHeap (s : PoolState ι) (k : ℕ) (h : PoolHeap) : PoolState ι :=
  { s with heap := Function.update s.heap k h }

def setLists (s : PoolState ι) (k : ℕ) (lists : Heap.MemHeap) : PoolState ι :=
  s.setHeap k { s.heap k with lists := lists }

/-- `MEMOP_STAT(heap->s_alloc++)` -/
def countAlloc (s : PoolState ι) (k : ℕ) : PoolState ι :=
  s.setHeap k { s.heap k with sAlloc := (s.heap k).sAlloc + 1 }

/-- `MEMOP_STAT(if (g_heap) g_heap->s_free++)` -/
def countFree (s : PoolState ι) (i : ι) : PoolState ι :=
  match s.gHeap i with
  | none => s
  | some k => s.setHeap k { s.heap k with sFree := (s.heap k).sFree + 1 }

/-- `MEMOP_STAT(if (g_heap) { g_heap->s_free++; g_heap->s_remote_frees++; })` -/
def countRemoteFree (s : PoolState ι) (i : ι) : PoolState ι :=
  match s.gHeap i with
  | none => s
  | some k =>
    s.setHeap k { s.heap k with
      sFree := (s.heap k).sFree + 1
      sRemoteFrees := (s.heap k).sRemoteFrees + 1 }

def ret (s : PoolState ι) (i : ι) (call : CallEnd) : PoolState ι :=
  { s.setPc i .idle with calls := call :: s.calls }

end PoolState

/-- `heap_create_locked`, its memory cleared by `calloc`; the chunks of its spans hold anything. -/
def heapCreate (s : PoolState ι) (i : ι) (k : ℕ) : PoolState ι :=
  { s with
    chunks := s.chunks.setHeap i ⟨true, [], 0⟩
    heaps := k :: s.heaps
    heap := Function.update s.heap k ⟨Heap.heapNew, true, 0, 0, 0⟩
    gHeap := Function.update s.gHeap i (some k)
    lanesCreated := s.lanesCreated + 1 }

/-- `get_heap`, and the heap it returns. -/
def getHeap (s : PoolState ι) (i : ι) (heap : Option ℕ) : Option (PoolState ι × Option ℕ) :=
  match s.gHeap i with
  | some k => some (s, some k)
  | none =>
    match heap with
    | none => some (s, none)
    -- a heap is not freed before the shutdown
    | some k => if k ∈ s.heaps then none else some (heapCreate s i k, some k)

/-- One step of `chunk_acquire`, and what it returns when it does. -/
def acquireStep (c : ChunkState ι) (i : ι) (os : Option ℕ) :
    Option (ChunkState ι × Option (Option ℕ)) :=
  match c.pcs i with
  | .idle =>
    let c := chunkAcquire c i
    some (c, if c.pcs i = .mapping then none else some c.used.head?)
  | .mapping =>
    match os with
    | none => some (c.setPc i .idle, some none)
    | some b => if b ∈ c.pool.mapped then none else some (segOsAlloc c i b, none)
  | .linking b =>
    let c := segLink c i b
    some (c, some c.used.head?)
  | _ => none

/-- A segment at `b` is in no mapping of `span_os_alloc` that the pool holds. -/
def SegmentFree (s : PoolState ι) (b : ℕ) : Prop :=
  ∀ x ∈ s.mappings, (b + 1) * memopSegSpans ≤ x.1 ∨ x.1 + x.2 ≤ b * memopSegSpans

instance (s : PoolState ι) (b : ℕ) : Decidable (SegmentFree s b) :=
  inferInstanceAs (Decidable (∀ x ∈ s.mappings, _))

/-- One step of `chunk_acquire` in the pool; the OS maps no memory that is still held. -/
def poolAcquire (s : PoolState ι) (i : ι) (os : Option ℕ) :
    Option (PoolState ι × Option (Option ℕ)) :=
  match acquireStep s.chunks i os with
  | none => none
  | some (chunks, chunk) =>
    match s.chunks.pcs i, os with
    | .mapping, some b =>
      if SegmentFree s b then some ({ s with chunks := chunks }, chunk) else none
    | _, _ => some ({ s with chunks := chunks }, chunk)

/-- The chunks `m .. m + n - 1` are in no mapping that the pool holds. -/
def Unmapped (s : PoolState ι) (m n : ℕ) : Prop :=
  (∀ b ∈ s.chunks.pool.mapped, m + n ≤ b * memopSegSpans ∨ (b + 1) * memopSegSpans ≤ m) ∧
    ∀ x ∈ s.mappings, m + n ≤ x.1 ∨ x.1 + x.2 ≤ m

instance (s : PoolState ι) (m n : ℕ) : Decidable (Unmapped s m n) :=
  inferInstanceAs (Decidable (_ ∧ _))

/-- `munmap` of the first `n` chunks of the mapping at `m`. -/
def unmap (mappings : List (ℕ × ℕ)) (m n : ℕ) : List (ℕ × ℕ) :=
  mappings.flatMap fun x =>
    if x.1 = m then (if x.2 ≤ n then [] else [(m + n, x.2 - n)]) else [x]

/-! ### Allocation -/

/-- `memop_alloc_raw` has the block `p`. -/
def allocated (s : PoolState ι) (i : ι) (k : ℕ) (p : Ptr) (old : Option Ptr) : PoolState ι :=
  let s := s.countAlloc k
  match old with
  | none => { s with live := p :: s.live }.ret i .allocated
  | some q => s.setPc i (.release q p)

/-- `memop_alloc_raw` returns `NULL`; a block that was to be replaced stays as it is. -/
def allocFailed (s : PoolState ι) (i : ι) (old : Option Ptr) : PoolState ι :=
  { s with live := old.toList ++ s.live }.ret i .failed

/-- The heap has moved on in an allocation: it has returned, or is in `memop_refill`. -/
def afterAlloc (s : PoolState ι) (i : ι) (k : ℕ) (lists : Heap.MemHeap) (old : Option Ptr) :
    PoolState ι :=
  let s := s.setLists k lists
  if lists.pc = .idle then
    match lists.given with
    | some (a, b) :: _ => allocated s i k ⟨a, b⟩ old
    | _ => allocFailed s i old
  else s.setPc i (.refill old)

def memopAllocRaw (s : PoolState ι) (i : ι) (size : BitVec 64) (heap : Option ℕ)
    (old : Option Ptr) : Option (PoolState ι) :=
  if size = 0 then some (allocFailed s i old)
  else
    (getHeap s i heap).map fun (s, heap) =>
      match heap with
      | none => allocFailed s i old
      | some k =>
        match memopClassIndex size with
        | none => s.setPc i (.large size old)
        | some c => afterAlloc s i k (Heap.memopAllocRaw (s.heap k).lists c) old

/-- The next step of `memop_refill`. -/
def refillStep (s : PoolState ι) (i : ι) (k : ℕ) (os : Option ℕ) (old : Option Ptr) :
    Option (PoolState ι) :=
  match (s.heap k).lists.pc with
  | .create _ =>
    match poolAcquire s i os with
    | none => none
    | some (s, none) => some s
    | some (s, some chunk) =>
      let header := match chunk with
        | none => s.header
        | some m => Function.update s.header m (.small k)
      let s := { s with header := header }
      (Heap.memopRefill (s.heap k).lists chunk).map fun lists => afterAlloc s i k lists old
  | _ => (Heap.memopRefill (s.heap k).lists none).map fun lists => afterAlloc s i k lists old

/-- `memop_alloc_large` with the memory at `mem`, if it has any. -/
def largeGot (s : PoolState ι) (i : ι) (k : ℕ) (size : BitVec 64) (mem : Option ℕ)
    (old : Option Ptr) : Option (PoolState ι) :=
  match mem, Heap.memopAllocLarge size mem.isSome with
  | some m, .block x =>
    let lists := { (s.heap k).lists with spanAllocs := (s.heap k).lists.spanAllocs + 1 }
    let s := { s with header := Function.update s.header m (.large x) }
    some (allocated (s.setLists k lists) i k ⟨m, 0⟩ old)
  | _, .fault => none
  | _, _ => some (allocFailed s i old)

/-- How many chunks `memop_alloc_large` asks for. -/
def largeUnits (size : BitVec 64) : ℕ := (Heap.largeTotal size / 65536).toNat

/-- The next step of `memop_alloc_large`: one unit comes from the chunks, more from the OS. -/
def largeStep (s : PoolState ι) (i : ι) (k : ℕ) (size : BitVec 64) (os : Option ℕ)
    (old : Option Ptr) : Option (PoolState ι) :=
  if largeUnits size = 1 then
    match poolAcquire s i os with
    | none => none
    | some (s, none) => some s
    | some (s, some mem) => largeGot s i k size mem old
  else
    match os with
    | none => largeGot s i k size none old
    | some m =>
      if Unmapped s m (largeUnits size) then
        largeGot { s with mappings := (m, largeUnits size) :: s.mappings } i k size (some m) old
      else none

/-! ### Free and reallocation -/

/-- `memop_free_raw` of a block that is no longer in its caller's hands. -/
def memopFreeRaw (s : PoolState ι) (i : ι) (p : Ptr) (now : BitVec 64) : PoolState ι :=
  let own := (s.gHeap i).map fun _ => i
  match s.header p.span with
  | .large x =>
    let s := s.countFree i
    if x.blockCount = 1 then { s with chunks := chunkRelease s.chunks own p.span now }
    else { s with mappings := unmap s.mappings p.span x.blockCount.toNat }
  | .small k =>
    let lists := (s.heap k).lists
    if s.gHeap i = some k then
      let lists := Heap.memopFreeRaw lists p.span p.block
      let s := (s.setLists k lists).countFree i
      -- an empty span that is not the last of its class goes back to the chunks
      if p.span ∈ lists.owned then s
      else { s with chunks := chunkRelease s.chunks own p.span now }
    else (s.setLists k (Heap.remotePush lists p.span p.block)).countRemoteFree i

/-- Whether `memop_realloc_raw` keeps the block: its class is no smaller, or it is LARGE and has
room for a size of the large path. -/
def keepsBlock (s : PoolState ι) (p : Ptr) (size : BitVec 64) : Bool :=
  match s.header p.span, memopClassIndex size with
  | .small k, some c => c ≤ ((s.heap k).lists.head p.span).classId
  | .large x, none => size ≤ x.stride.setWidth 64
  | _, _ => false

def memopReallocRaw (s : PoolState ι) (i : ι) (p : Ptr) (size : BitVec 64) (heap : Option ℕ)
    (now : BitVec 64) : Option (PoolState ι) :=
  if size = 0 then some ((memopFreeRaw { s with live := s.live.erase p } i p now).ret i .freed)
  else if keepsBlock s p size then some (s.ret i .inPlace)
  else memopAllocRaw { s with live := s.live.erase p } i size heap (some p)

/-! ### The end of a thread -/

/-- The loop over the list of class `c` begins. -/
def endClassStart (s : PoolState ι) (i : ι) (k c : ℕ) : PoolState ι :=
  let lists := (s.heap k).lists
  (s.setLists k { lists with spans := Function.update lists.spans c none }).setPc i
    (.endClass c (lists.spans c) none)

/-- One pass of that loop: the span is drained, and released when it is empty. -/
def endClassStep (s : PoolState ι) (i : ι) (k c a : ℕ) (kept : Option ℕ) (now : BitVec 64) :
    PoolState ι :=
  let next := (s.heap k).lists.next a
  let lists := Heap.spanTakeRemote (s.heap k).lists a
  if (lists.head a).used = 0 then
    let lists := { lists with owned := lists.owned.erase a }
    let s := { s with chunks := chunkRelease s.chunks none a now }
    (s.setLists k lists).setPc i (.endClass c next kept)
  else
    let lists := { lists with
      prev := setAt kept (some a) (Function.update lists.prev a none)
      next := Function.update lists.next a kept }
    (s.setLists k lists).setPc i (.endClass c next (some a))

def endFullStart (s : PoolState ι) (i : ι) (k : ℕ) : PoolState ι :=
  let lists := (s.heap k).lists
  (s.setLists k { lists with fullHead := none, fullTail := none }).setPc i
    (.endFull lists.fullHead none none)

def endFullStep (s : PoolState ι) (i : ι) (k a : ℕ) (kept keptTail : Option ℕ)
    (now : BitVec 64) : PoolState ι :=
  let next := (s.heap k).lists.next a
  let lists := Heap.spanTakeRemote (s.heap k).lists a
  if (lists.head a).used = 0 then
    let lists := { lists with owned := lists.owned.erase a }
    let s := { s with chunks := chunkRelease s.chunks none a now }
    (s.setLists k lists).setPc i (.endFull next kept keptTail)
  else
    let lists := { lists with
      next := setAt keptTail (some a) (Function.update lists.next a none)
      prev := Function.update lists.prev a keptTail }
    (s.setLists k lists).setPc i
      (.endFull next (if keptTail = none then some a else kept) (some a))

/-- `chunk_local_to_global`, and the end of `memop_on_ended_thread` behind it. -/
def endCacheStep (s : PoolState ι) (i : ι) (k : ℕ) (now : BitVec 64) : Option (PoolState ι) :=
  (chunkStep s.chunks (.drain i now)).map fun chunks =>
    let s := { s with chunks := chunks }
    if chunks.pcs i = .idle then
      { (s.setHeap k { s.heap k with active := false }).setPc i .idle with
        lanesDestroyed := s.lanesDestroyed + 1
        gHeap := Function.update s.gHeap i none }
    else s

/-- The next step of `memop_on_ended_thread`. -/
def endStep (s : PoolState ι) (i : ι) (k : ℕ) (now : BitVec 64) : PoolPc → Option (PoolState ι)
  | .endClass c (some a) kept => some (endClassStep s i k c a kept now)
  | .endClass c none kept =>
    let lists := (s.heap k).lists
    let s := s.setLists k { lists with spans := Function.update lists.spans c kept }
    some (if c + 1 < memopClassCount then endClassStart s i k (c + 1) else endFullStart s i k)
  | .endFull (some a) kept keptTail => some (endFullStep s i k a kept keptTail now)
  | .endFull none kept keptTail =>
    let lists := (s.heap k).lists
    (chunkStep s.chunks (.localToGlobal i)).map fun chunks =>
      ({ s with chunks := chunks }.setLists k
        { lists with fullHead := kept, fullTail := keptTail }).setPc i .endCache
  | .endCache => endCacheStep s i k now
  | _ => none

/-! ### The system -/

/-- The next step of a call under way; `k` is the heap of the thread. -/
def callStep (s : PoolState ι) (i : ι) (k : ℕ) (os : Option ℕ) (now : BitVec 64) :
    Option (PoolState ι) :=
  match s.pcs i with
  | .idle => none
  | .refill old => refillStep s i k os old
  | .large size old => largeStep s i k size os old
  | .release old new =>
    let s := memopFreeRaw s i old now
    some ({ s with live := new :: s.live }.ret i .moved)
  | pc => endStep s i k now pc

def poolStep (s : PoolState ι) : PoolLabel ι → Option (PoolState ι)
  | .createdThread i heap =>
    if s.pcs i = .idle then (getHeap s i heap).map Prod.fst else none
  | .endedThread i =>
    if s.pcs i = .idle then
      match s.gHeap i with
      | none => some s
      | some k => some (endClassStart { s with chunks := s.chunks.setPc i .ending } i k 0)
    else none
  | .alloc i size heap => if s.pcs i = .idle then memopAllocRaw s i size heap none else none
  | .free i ptr now =>
    if s.pcs i = .idle then
      match ptr with
      | none => some s
      | some p =>
        if p ∈ s.live then
          some ((memopFreeRaw { s with live := s.live.erase p } i p now).ret i .freed)
        else none
    else none
  | .realloc i ptr size heap now =>
    if s.pcs i = .idle then
      match ptr with
      | none => memopAllocRaw s i size heap none
      | some p => if p ∈ s.live then memopReallocRaw s i p size heap now else none
    else none
  | .step i os now =>
    match s.gHeap i with
    | none => none
    | some k => callStep s i k os now
  | .purge now => some { s with
      chunks := { s.chunks with pool := purgeApplyLocked now true 0 s.chunks.pool } }

/-- The pool after `memop_init`. -/
def poolNew (ι : Type*) : PoolState ι where
  chunks := memopInit ι
  heaps := []
  heap := fun _ => ⟨Heap.heapNew, false, 0, 0, 0⟩
  gHeap := fun _ => none
  lanesCreated := 0
  lanesDestroyed := 0
  header := fun _ => .small 0
  mappings := []
  pcs := fun _ => .idle
  live := []
  calls := []

def poolSystem (ι : Type*) [DecidableEq ι] : System (PoolState ι) (PoolLabel ι) where
  init := fun s => s = poolNew ι
  step := poolStep

/-- `MemPoolStats`, less the fields that are always 0 and the count of purges. -/
structure MemPoolStats where
  lanesCreated : BitVec 64
  lanesDestroyed : BitVec 64
  allocCount : BitVec 64
  freeCount : BitVec 64
  syncRefills : BitVec 64
  remoteFrees : BitVec 64
  osReservedBytes : BitVec 64
  cachedChunks : BitVec 64

/-- `memop_get_stats`: the sums over `G.heaps`, and the state of the chunks. -/
def memopGetStats (s : PoolState ι) : MemPoolStats where
  lanesCreated := s.lanesCreated
  lanesDestroyed := s.lanesDestroyed
  allocCount := (s.heaps.map fun k => (s.heap k).sAlloc).sum
  freeCount := (s.heaps.map fun k => (s.heap k).sFree).sum
  syncRefills := (s.heaps.map fun k => BitVec.ofNat 64 (s.heap k).lists.spanAllocs).sum
  remoteFrees := (s.heaps.map fun k => (s.heap k).sRemoteFrees).sum
  osReservedBytes :=
    BitVec.ofNat 64 s.chunks.pool.segments.length * BitVec.ofNat 64 (memopSegSpans * memopSpanSize)
  cachedChunks := BitVec.ofInt 64 s.chunks.pool.cacheCount

end Xplatbase.MemoryPool
