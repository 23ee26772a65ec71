import Mathlib.Data.BitVec
import Mathlib.Data.Int.Basic
import Mathlib.Data.Finset.Card
import Mathlib.Order.Interval.Finset.Nat
import Mathlib.Logic.Function.Basic
import Xplatbase.Lib.System

/-! Model of the chunk layer of `memory_pool.c`: segments, the two cache levels and the purge.
Addresses count chunks of 64 KB; a segment is named by its base, in units of 4 MB. One step is a
critical section of `cache_lock`, an access of the own heap, or a call of the OS. -/
namespace Xplatbase.Memory
open Xplatbase.Lib

def memopSegSpans : ℕ := 64
def memopHeapCacheMax : ℤ := 64
def memopPurgeDelayMs : BitVec 64 := 500
def memopPurgePeriodMs : BitVec 64 := 100
def memopPurgeEwmaShift : ℕ := 2
def memopMbChunks : ℤ := 16
def memopPurgeHigh : ℤ := 64 * memopMbChunks
def memopPurgeLow : ℤ := 32 * memopMbChunks

/-- `MEMOP_SEG_OF`: the mask by which a chunk finds its segment. -/
def memopSegOf (c : ℕ) : ℕ := c / memopSegSpans

/-- The header of a segment. The lists of segments stand for the `next` links and `doomed`. -/
structure MemSegment where
  nextChunk : ℕ
  live : ℕ
  idleSince : BitVec 64
  deriving DecidableEq

/-- The fields of `G` under `cache_lock`, the headers by base, and the mappings that the OS has
given and not taken back. -/
structure MemPool where
  spanCache : List ℕ
  cacheCount : ℤ
  segments : List ℕ
  cacheAvg : ℤ
  purging : Bool
  lastPurgeMs : BitVec 64
  header : ℕ → MemSegment
  mapped : List ℕ

/-- The chunk cache of a thread; `active` when `g_heap` is set. -/
structure MemHeap where
  active : Bool
  localCache : List ℕ
  localCount : ℤ
  deriving DecidableEq

def MemPool.setHeader (g : MemPool) (b : ℕ) (seg : MemSegment) : MemPool :=
  { g with header := Function.update g.header b seg }

/-! ### Purge -/

/-- First pass of `purge_apply_locked`: the segments that stay and the doomed ones. -/
def purgeDoom (header : ℕ → MemSegment) (now : BitVec 64) (force : Bool) :
    ℤ → List ℕ → List ℕ × List ℕ
  | _, [] => ([], [])
  | target, b :: rest =>
    if force = true ∨ 0 < target then
      if (header b).live = 0 ∧ (force = true ∨ memopPurgeDelayMs ≤ now - (header b).idleSince) then
        let r := purgeDoom header now force
          (if force = true then target else target - ((header b).nextChunk - 1)) rest
        (r.1, b :: r.2)
      else
        let r := purgeDoom header now force target rest
        (b :: r.1, r.2)
    else (b :: rest, [])

/-- Second pass: the chunks of doomed segments leave the global cache. -/
def purgeExtract (doomed : List ℕ) : List ℕ → ℤ → List ℕ × ℤ
  | [], n => ([], n)
  | c :: rest, n =>
    if memopSegOf c ∈ doomed then purgeExtract doomed rest (n - 1)
    else
      let r := purgeExtract doomed rest n
      (c :: r.1, r.2)

def purgeApplyLocked (now : BitVec 64) (force : Bool) (target : ℤ) (g : MemPool) : MemPool :=
  let r := purgeDoom g.header now force target g.segments
  let e := purgeExtract r.2 g.spanCache g.cacheCount
  { g with
    segments := r.1
    spanCache := e.1
    cacheCount := e.2
    mapped := g.mapped.filter (· ∉ r.2) }

def memopPurgeLocked (now : BitVec 64) (g : MemPool) : MemPool :=
  if now - g.lastPurgeMs < memopPurgePeriodMs then g
  else
    let avg := g.cacheAvg + (g.cacheCount - g.cacheAvg).tdiv (2 ^ memopPurgeEwmaShift)
    let g := { g with lastPurgeMs := now, cacheAvg := avg }
    if g.purging = false ∧ ¬ avg > memopPurgeHigh then g
    else if g.purging = true ∧ avg < memopPurgeLow then { g with purging := false }
    else
      let g := { g with purging := true }
      let target := g.cacheCount - memopPurgeLow
      if 0 < target then purgeApplyLocked now false target g else g

/-! ### The critical sections of `chunk_acquire` and `chunk_release` -/

/-- Pop of the global cache, else the next chunk of the current segment; `none` when a new segment
is needed. -/
def chunkAcquireLocked (g : MemPool) : Option (ℕ × MemPool) :=
  match g.spanCache with
  | mem :: rest =>
    let seg := g.header (memopSegOf mem)
    let g := { g with spanCache := rest, cacheCount := g.cacheCount - 1 }
    some (mem, g.setHeader (memopSegOf mem) { seg with live := seg.live + 1 })
  | [] =>
    match g.segments with
    | b :: _ =>
      let seg := g.header b
      if seg.nextChunk < memopSegSpans then
        some (b * memopSegSpans + seg.nextChunk,
          g.setHeader b { seg with nextChunk := seg.nextChunk + 1, live := seg.live + 1 })
      else none
    | [] => none

def chunkToGlobal (mem : ℕ) (now : BitVec 64) (g : MemPool) : MemPool :=
  let seg := g.header (memopSegOf mem)
  let live := if seg.live > 0 then seg.live - 1 else seg.live
  let idle := if live = 0 then now else seg.idleSince
  let g := { g with spanCache := mem :: g.spanCache, cacheCount := g.cacheCount + 1 }
  g.setHeader (memopSegOf mem) { seg with live := live, idleSince := idle }

def chunkReleaseLocked (mem : ℕ) (now : BitVec 64) (g : MemPool) : MemPool :=
  let g := chunkToGlobal mem now g
  if (g.header (memopSegOf mem)).live = 0 then memopPurgeLocked now g else g

/-! ### Threads -/

inductive ChunkPc
  | idle
  /-- In `chunk_acquire`, before `seg_os_alloc`. -/
  | mapping
  /-- In `chunk_acquire`, with a segment not yet in the list. -/
  | linking (b : ℕ)
  /-- In `memop_on_ended_thread`, releasing empty spans. -/
  | ending
  /-- In `chunk_local_to_global`, with what is left of the local cache. -/
  | draining (rest : List ℕ)
  deriving DecidableEq

/-- `used` lists the chunks that callers hold: class spans and LARGE blocks of one unit. -/
structure ChunkState (ι : Type*) where
  pool : MemPool
  heaps : ι → MemHeap
  pcs : ι → ChunkPc
  used : List ℕ

inductive ChunkLabel (ι : Type*)
  | getHeap (i : ι)
  | acquire (i : ι)
  | segOsAlloc (i : ι) (base : Option ℕ)
  | link (i : ι)
  | release (i : ι) (mem : ℕ) (now : BitVec 64)
  | endThread (i : ι)
  | endSpan (i : ι) (mem : ℕ) (now : BitVec 64)
  | localToGlobal (i : ι)
  | drain (i : ι) (now : BitVec 64)
  | purge (now : BitVec 64)

namespace ChunkState

variable {ι : Type*} [DecidableEq ι]

def setPc (s : ChunkState ι) (i : ι) (pc : ChunkPc) : ChunkState ι :=
  { s with pcs := Function.update s.pcs i pc }

def setHeap (s : ChunkState ι) (i : ι) (h : MemHeap) : ChunkState ι :=
  { s with heaps := Function.update s.heaps i h }

end ChunkState

/-- `chunk_acquire`, up to the end of its critical section. -/
def chunkAcquire {ι : Type*} [DecidableEq ι] (s : ChunkState ι) (i : ι) : ChunkState ι :=
  match (s.heaps i).active, (s.heaps i).localCache with
  | true, mem :: rest =>
    let s := s.setHeap i ⟨true, rest, (s.heaps i).localCount - 1⟩
    { s with used := mem :: s.used }
  | _, _ =>
    match chunkAcquireLocked s.pool with
    | some (mem, g) => { s with pool := g, used := mem :: s.used }
    | none => s.setPc i .mapping

/-- The mapped segment: header in chunk 0, chunk 1 for the caller. -/
def segOsAlloc {ι : Type*} [DecidableEq ι] (s : ChunkState ι) (i : ι) (b : ℕ) : ChunkState ι :=
  let g := { s.pool with mapped := b :: s.pool.mapped }
  { s.setPc i (.linking b) with pool := g.setHeader b ⟨2, 1, 0⟩ }

def segLink {ι : Type*} [DecidableEq ι] (s : ChunkState ι) (i : ι) (b : ℕ) : ChunkState ι :=
  { s.setPc i .idle with
    pool := { s.pool with segments := b :: s.pool.segments }
    used := (b * memopSegSpans + 1) :: s.used }

/-- `chunk_release` of a chunk in use, by a thread with its own heap (`none` for `NULL`). -/
def chunkRelease {ι : Type*} [DecidableEq ι] (s : ChunkState ι) (heap : Option ι) (mem : ℕ)
    (now : BitVec 64) : ChunkState ι :=
  let toGlobal := { s with pool := chunkReleaseLocked mem now s.pool, used := s.used.erase mem }
  match heap with
  | none => toGlobal
  | some i =>
    if (s.heaps i).localCount < memopHeapCacheMax then
      let h := s.heaps i
      let s := s.setHeap i ⟨h.active, mem :: h.localCache, h.localCount + 1⟩
      { s with used := s.used.erase mem }
    else toGlobal

def chunkStep {ι : Type*} [DecidableEq ι] (s : ChunkState ι) :
    ChunkLabel ι → Option (ChunkState ι)
  | .getHeap i =>
    if s.pcs i = .idle ∧ (s.heaps i).active = false then some (s.setHeap i ⟨true, [], 0⟩)
    else none
  | .acquire i => if s.pcs i = .idle then some (chunkAcquire s i) else none
  | .segOsAlloc i base =>
    if s.pcs i = .mapping then
      match base with
      | none => some (s.setPc i .idle)
      -- a fresh mapping is disjoint from those still held
      | some b => if b ∈ s.pool.mapped then none else some (segOsAlloc s i b)
    else none
  | .link i =>
    match s.pcs i with
    | .linking b => some (segLink s i b)
    | _ => none
  | .release i mem now =>
    if s.pcs i = .idle ∧ mem ∈ s.used then
      some (chunkRelease s (if (s.heaps i).active = true then some i else none) mem now)
    else none
  | .endThread i =>
    if s.pcs i = .idle ∧ (s.heaps i).active = true then some (s.setPc i .ending) else none
  | .endSpan i mem now =>
    if s.pcs i = .ending ∧ mem ∈ s.used then some (chunkRelease s none mem now) else none
  | .localToGlobal i =>
    if s.pcs i = .ending then
      let h := s.heaps i
      some ((s.setHeap i ⟨h.active, [], 0⟩).setPc i (.draining h.localCache))
    else none
  | .drain i now =>
    match s.pcs i with
    | .draining (mem :: rest) =>
      some { s.setPc i (.draining rest) with pool := chunkReleaseLocked mem now s.pool }
    | .draining [] => some ((s.setHeap i ⟨false, [], 0⟩).setPc i .idle)
    | _ => none
  | .purge now => some { s with pool := purgeApplyLocked now true 0 s.pool }

/-- Nothing mapped, no heap: the state after `memop_init`. -/
def memopInit (ι : Type*) : ChunkState ι where
  pool := ⟨[], 0, [], 0, false, 0, fun _ => ⟨0, 0, 0⟩, []⟩
  heaps := fun _ => ⟨false, [], 0⟩
  pcs := fun _ => .idle
  used := []

def chunkSystem (ι : Type*) [DecidableEq ι] : System (ChunkState ι) (ChunkLabel ι) where
  init := fun s => s = memopInit ι
  step := chunkStep

/-! ### Where a chunk lies -/

/-- The global cache, the local cache of a heap, in use by a caller, or in transit in a call. -/
inductive ChunkPlace (ι : Type*)
  | spanCache
  | localCache (i : ι)
  | used
  | transit (i : ι)
  deriving DecidableEq

def ChunkPc.transit : ChunkPc → List ℕ
  | .linking b => [b * memopSegSpans + 1]
  | .draining rest => rest
  | _ => []

def ChunkState.shelf {ι : Type*} (s : ChunkState ι) : ChunkPlace ι → List ℕ
  | .spanCache => s.pool.spanCache
  | .localCache i => (s.heaps i).localCache
  | .used => s.used
  | .transit i => (s.pcs i).transit

/-- Chunk `1 .. next_chunk - 1` of a segment that the OS has not taken back. -/
def MemPool.Carved (g : MemPool) (c : ℕ) : Prop :=
  memopSegOf c ∈ g.mapped ∧ 1 ≤ c % memopSegSpans ∧
    c % memopSegSpans < (g.header (memopSegOf c)).nextChunk

/-- How many carved chunks of a segment are not in the global cache. -/
def MemPool.outside (g : MemPool) (b : ℕ) : ℕ :=
  ((Finset.Ico 1 (g.header b).nextChunk).filter
    fun k => b * memopSegSpans + k ∉ g.spanCache).card

end Xplatbase.Memory
