import Mathlib.Data.Finset.Basic
import Xplatbase.Lib.DLinked
import Xplatbase.Lib.System
import Xplatbase.Memory.SizeClass

/-! One heap of `memory_pool.c`: the spans of a thread, in a list for each class or in the list of
full spans. The owner allocates and frees, other threads push freed blocks onto a span's remote
list. One step of the owner is one access of a remote list, with the work on its own fields that
follows it. A span's free lists are lists of block indices. -/
namespace Xplatbase.Memory.Heap
open Xplatbase.Lib

def memopFullScanK : ℕ := 2

inductive SpanStatus
  | available
  | full
  deriving DecidableEq

/-- The header of a span, less its links; `live` are the blocks that callers hold. -/
structure SpanHead where
  classId : ℕ
  localFree : List ℕ
  remoteFree : List ℕ
  live : List ℕ
  used : BitVec 32
  state : SpanStatus
  bumpIdx : ℕ
  blockCount : ℕ

/-- Where `memop_refill` drains a span: in the class list, or as probe `k` of the full list, with
the first span probed. -/
inductive RefillSite
  | classList
  | full (k start : ℕ)
  deriving DecidableEq

/-- The owner, in `memop_refill` for class `c`: about to read the remote list of span `a`, about to
take that list, or about to acquire a chunk. -/
inductive HeapPc
  | idle
  | drain (c : ℕ) (site : RefillSite) (a : ℕ)
  | take (c : ℕ) (site : RefillSite) (a : ℕ)
  | create (c : ℕ)
  deriving DecidableEq

/-- Spans are named by their address; `next`, `prev` and `head` are what memory holds there, and
`owned` are the spans of this heap. `given` lists what the allocations returned, newest first. -/
structure MemHeap where
  spans : ℕ → Option ℕ
  fullHead : Option ℕ
  fullTail : Option ℕ
  next : ℕ → Option ℕ
  prev : ℕ → Option ℕ
  head : ℕ → SpanHead
  owned : Finset ℕ
  pc : HeapPc
  given : List (Option (ℕ × ℕ))
  spanAllocs : ℕ

namespace MemHeap

def setHead (h : MemHeap) (a : ℕ) (x : SpanHead) : MemHeap :=
  { h with head := Function.update h.head a x }

end MemHeap

def heapListInsertHead (h : MemHeap) (c a : ℕ) : MemHeap :=
  { h with
    next := Function.update h.next a (h.spans c)
    prev := setAt (h.spans c) (some a) (Function.update h.prev a none)
    spans := Function.update h.spans c (some a) }

def heapListUnlink (h : MemHeap) (c a : ℕ) : MemHeap :=
  { h with
    next := Function.update (setAt (h.prev a) (h.next a) h.next) a none
    prev := Function.update (setAt (h.next a) (h.prev a) h.prev) a none
    spans := if h.prev a = none then Function.update h.spans c (h.next a) else h.spans }

def heapFullPushTail (h : MemHeap) (a : ℕ) : MemHeap :=
  { h with
    next := setAt h.fullTail (some a) (Function.update h.next a none)
    prev := Function.update h.prev a h.fullTail
    fullHead := if h.fullTail = none then some a else h.fullHead
    fullTail := some a
    head := Function.update h.head a { h.head a with state := .full } }

def heapFullUnlink (h : MemHeap) (a : ℕ) : MemHeap :=
  { h with
    next := Function.update (setAt (h.prev a) (h.next a) h.next) a none
    prev := Function.update (setAt (h.next a) (h.prev a) h.prev) a none
    fullHead := if h.prev a = none then h.next a else h.fullHead
    fullTail := if h.next a = none then h.prev a else h.fullTail
    head := Function.update h.head a { h.head a with state := .available } }

/-- `memop_alloc_raw` returns block `b` of span `a`. -/
def MemHeap.give (h : MemHeap) (a b : ℕ) : MemHeap :=
  let x := h.head a
  { h.setHead a { x with used := x.used + 1, live := b :: x.live } with
    pc := .idle
    given := some (a, b) :: h.given }

/-- From label `got` of `memop_refill` on. -/
def refillGot (h : MemHeap) (c a b : ℕ) : MemHeap :=
  if h.spans c = some a then h.give a b
  else (heapListInsertHead (heapListUnlink h c a) c a).give a b

/-- `b = span->local_free; span->local_free = b->next; goto got;` -/
def refillLocal (h : MemHeap) (c a : ℕ) : MemHeap :=
  match (h.head a).localFree with
  | b :: rest => refillGot (h.setHead a { h.head a with localFree := rest }) c a b
  | [] => h

def refillProbe (h : MemHeap) (c k : ℕ) (start : Option ℕ) : MemHeap :=
  if k < memopFullScanK then
    match h.fullHead with
    | none => { h with pc := .create c }
    | some fs =>
      if start = some fs then { h with pc := .create c }
      else { h with pc := .drain c (.full k (start.getD fs)) fs }
  else { h with pc := .create c }

/-- `while (span)` from a span of the class list on. -/
def refillFrom (h : MemHeap) (c : ℕ) : Option ℕ → MemHeap
  | none => refillProbe h c 0 none
  | some a =>
    let x := h.head a
    if x.localFree ≠ [] then refillLocal h c a
    else if x.bumpIdx < x.blockCount then
      refillGot (h.setHead a { x with bumpIdx := x.bumpIdx + 1 }) c a x.bumpIdx
    else { h with pc := .drain c .classList a }

/-- `span_drain_remote` has returned 0. -/
def refillEmpty (h : MemHeap) (c a : ℕ) : RefillSite → MemHeap
  | .classList => refillFrom (heapFullPushTail (heapListUnlink h c a) a) c (h.next a)
  | .full k start =>
    let h := if h.fullTail = some a then h else heapFullPushTail (heapFullUnlink h a) a
    refillProbe h c (k + 1) (some start)

/-- `span_drain_remote` has moved the remote list to the local one. -/
def refillDrained (h : MemHeap) (c a : ℕ) : RefillSite → MemHeap
  | .classList => refillLocal h c a
  | .full k start =>
    let h := heapListInsertHead (heapFullUnlink h a) (h.head a).classId a
    if (h.head a).classId = c then refillLocal h c a
    else refillProbe h c (k + 1) (some start)

/-- The rest of `span_drain_remote`: the remote list is taken, and its blocks are pushed onto the
local list one by one. -/
def spanTakeRemote (h : MemHeap) (a : ℕ) : MemHeap :=
  let x := h.head a
  h.setHead a { x with
    localFree := x.remoteFree.reverse ++ x.localFree
    remoteFree := []
    used := x.used - BitVec.ofNat 32 x.remoteFree.length }

/-- `span_create` in chunk `m`, and its first block. -/
def refillCreate (h : MemHeap) (c m : ℕ) : MemHeap :=
  let x : SpanHead := ⟨c, [], [], [], 0, .available, 0, spanBlockCount c⟩
  let h := { h with
    head := Function.update h.head m x
    next := Function.update h.next m none
    prev := Function.update h.prev m none
    owned := insert m h.owned }
  let h := { heapListInsertHead h c m with spanAllocs := h.spanAllocs + 1 }
  refillGot (h.setHead m { x with bumpIdx := 1 }) c m 0

/-- `memop_alloc_raw` of class `c`, up to `memop_refill`. -/
def memopAllocRaw (h : MemHeap) (c : ℕ) : MemHeap :=
  match h.spans c with
  | none => refillFrom h c none
  | some a =>
    let x := h.head a
    match x.localFree with
    | b :: rest => (h.setHead a { x with localFree := rest }).give a b
    | [] =>
      if x.bumpIdx < x.blockCount then
        (h.setHead a { x with bumpIdx := x.bumpIdx + 1 }).give a x.bumpIdx
      else refillFrom h c (some a)

/-- The local branch of `memop_free_raw` for block `b` of span `a`. -/
def memopFreeRaw (h : MemHeap) (a b : ℕ) : MemHeap :=
  let x := h.head a
  let x := { x with localFree := b :: x.localFree, used := x.used - 1, live := x.live.erase b }
  let h := h.setHead a x
  if x.state = .full then heapListInsertHead (heapFullUnlink h a) x.classId a
  else if x.used = 0 ∧ (h.prev a ≠ none ∨ h.next a ≠ none) then
    { heapListUnlink h x.classId a with owned := h.owned.erase a }
  else h

def remotePush (h : MemHeap) (a b : ℕ) : MemHeap :=
  let x := h.head a
  h.setHead a { x with remoteFree := b :: x.remoteFree, live := x.live.erase b }

/-- `owner` is a step of `memop_refill`, with the chunk it acquires, if it does. -/
inductive HeapLabel
  | alloc (c : ℕ)
  | owner (chunk : Option ℕ)
  | free (a b : ℕ)
  | remoteFree (a b : ℕ)

def memopRefill (h : MemHeap) (chunk : Option ℕ) : Option MemHeap :=
  match h.pc with
  | .idle => none
  | .drain c site a =>
    some (if (h.head a).remoteFree = [] then refillEmpty h c a site
      else { h with pc := .take c site a })
  | .take c site a => some (refillDrained (spanTakeRemote h a) c a site)
  | .create c =>
    match chunk with
    | none => some { h with pc := .idle, given := none :: h.given }
    | some m => if m ∈ h.owned then none else some (refillCreate h c m)

def heapStep (h : MemHeap) : HeapLabel → Option MemHeap
  | .alloc c => if h.pc = .idle ∧ c < memopClassCount then some (memopAllocRaw h c) else none
  | .owner chunk => memopRefill h chunk
  | .free a b =>
    if h.pc = .idle ∧ a ∈ h.owned ∧ b ∈ (h.head a).live then some (memopFreeRaw h a b) else none
  | .remoteFree a b =>
    if a ∈ h.owned ∧ b ∈ (h.head a).live then some (remotePush h a b) else none

/-- `heap_create_locked`; memory holds anything. -/
def heapSystem : System MemHeap HeapLabel where
  init := fun h => ∃ next prev head,
    h = ⟨fun _ => none, none, none, next, prev, head, ∅, .idle, [], 0⟩
  step := heapStep

end Xplatbase.Memory.Heap
