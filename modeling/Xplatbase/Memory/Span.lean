import Mathlib.Logic.Function.Basic
import Xplatbase.Lib.System
import Xplatbase.Memory.SizeClass

/-! Model of one span of `memory_pool.c`: the owner allocates, frees and drains; other threads
free by a push on the remote list. One step is one access of a shared word; what only the owner
touches is done in one step. Blocks are named by their index. -/
namespace Xplatbase.Memory
open Xplatbase.Lib

/-- The fields of a span that alloc and free use, and the link words of its blocks. -/
structure MemSpan where
  localFree : Option ℕ
  remoteFree : Option ℕ
  used : BitVec 32
  bumpIdx : ℕ
  blockCount : ℕ
  next : ℕ → Option ℕ

/-- The owner: in `span_drain_remote` with the head it read, or on the drained list. -/
inductive OwnerPc
  | idle
  | drainCas (head : Option ℕ)
  | walking (b : Option ℕ) (n : BitVec 32)
  deriving DecidableEq

/-- A remote free of a block: the head it read, before and after the write of `block->next`. -/
inductive RemotePc
  | idle
  | write (block : ℕ) (head : Option ℕ)
  | cas (block : ℕ) (head : Option ℕ)
  deriving DecidableEq

/-- `live` lists the blocks that callers hold, `freeing` those of remote frees not yet published. -/
structure SpanState (ι : Type*) where
  span : MemSpan
  owner : OwnerPc
  remotes : ι → RemotePc
  live : List ℕ
  freeing : List ℕ

inductive SpanLabel (ι : Type*)
  | alloc
  | free (block : ℕ)
  | drain
  | owner
  | remoteFree (i : ι) (block : ℕ)
  | remote (i : ι)
  /-- A caller writes over the first word of a block it holds. -/
  | userWrite (block : ℕ) (w : Option ℕ)

/-- `span_create`; the words of the blocks are what the chunk held before. -/
def spanCreate (classId : ℕ) (next : ℕ → Option ℕ) : MemSpan :=
  ⟨none, none, 0, 0, spanBlockCount classId, next⟩

/-- Local list first, then the next block never given; `none` when both are exhausted. -/
def spanAlloc {ι : Type*} (s : SpanState ι) : Option (SpanState ι) :=
  match s.span.localFree with
  | some b =>
    some { s with
      span := { s.span with localFree := s.span.next b, used := s.span.used + 1 }
      live := b :: s.live }
  | none =>
    if s.span.bumpIdx < s.span.blockCount then
      some { s with
        span := { s.span with bumpIdx := s.span.bumpIdx + 1, used := s.span.used + 1 }
        live := s.span.bumpIdx :: s.live }
    else none

/-- The local branch of `memop_free_raw`. -/
def spanFree {ι : Type*} (s : SpanState ι) (b : ℕ) : SpanState ι :=
  let span := { s.span with
    next := Function.update s.span.next b s.span.localFree
    localFree := some b
    used := s.span.used - 1 }
  { s with span := span, live := s.live.erase b }

/-- One step of `span_drain_remote` after the first load. -/
def spanDrainRemote {ι : Type*} (s : SpanState ι) : Option (SpanState ι) :=
  match s.owner with
  | .idle => none
  | .drainCas head =>
    if s.span.remoteFree = head then
      some { s with span := { s.span with remoteFree := none }, owner := .walking head 0 }
    else some { s with owner := .drainCas s.span.remoteFree }
  | .walking (some b) n =>
    let span := { s.span with
      next := Function.update s.span.next b s.span.localFree
      localFree := some b }
    some { s with span := span, owner := .walking (s.span.next b) (n + 1) }
  | .walking none n =>
    some { s with span := { s.span with used := s.span.used - n }, owner := .idle }

section
variable {ι : Type*} [DecidableEq ι]

def SpanState.setRemote (s : SpanState ι) (i : ι) (pc : RemotePc) : SpanState ι :=
  { s with remotes := Function.update s.remotes i pc }

/-- One step of the remote branch of `memop_free_raw` after the first load. -/
def spanRemoteFree (s : SpanState ι) (i : ι) : Option (SpanState ι) :=
  match s.remotes i with
  | .idle => none
  | .write b head =>
    let span := { s.span with next := Function.update s.span.next b head }
    some { s.setRemote i (.cas b head) with span := span }
  | .cas b head =>
    if s.span.remoteFree = head then
      some { s.setRemote i .idle with
        span := { s.span with remoteFree := some b }
        freeing := s.freeing.erase b }
    else some (s.setRemote i (.write b s.span.remoteFree))

def spanStep (s : SpanState ι) : SpanLabel ι → Option (SpanState ι)
  | .alloc => if s.owner = .idle then spanAlloc s else none
  | .free b => if s.owner = .idle ∧ b ∈ s.live then some (spanFree s b) else none
  | .drain =>
    if s.owner = .idle then
      -- an empty remote list ends the drain
      match s.span.remoteFree with
      | none => some s
      | some b => some { s with owner := .drainCas (some b) }
    else none
  | .owner => spanDrainRemote s
  | .remoteFree i b =>
    if s.remotes i = .idle ∧ b ∈ s.live then
      some { s.setRemote i (.write b s.span.remoteFree) with
        live := s.live.erase b
        freeing := b :: s.freeing }
    else none
  | .remote i => spanRemoteFree s i
  | .userWrite b w =>
    if b ∈ s.live then
      some { s with span := { s.span with next := Function.update s.span.next b w } }
    else none

def spanSystem (ι : Type*) [DecidableEq ι] (classId : ℕ) : System (SpanState ι) (SpanLabel ι) where
  init := fun s => ∃ next, s = ⟨spanCreate classId next, .idle, fun _ => .idle, [], []⟩
  step := spanStep

end

def RemotePc.block : RemotePc → Option ℕ
  | .idle => none
  | .write b _ => some b
  | .cas b _ => some b

end Xplatbase.Memory
