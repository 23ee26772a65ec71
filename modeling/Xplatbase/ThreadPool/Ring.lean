import Xplatbase.Lib.System
import Xplatbase.Lib.Pow2
import Mathlib.Logic.Function.Basic

/-! The typed MPMC ring of a shard: `pool_ring_push` and `pool_ring_pop_batch`, one atomic
access or one cell copy per step, with 32-bit positions and sequence numbers. -/
namespace Xplatbase.ThreadPool
open Xplatbase.Lib

structure RingCap extends Pow2 where
  one_le : 1 ≤ exp
  le_thirty : exp ≤ 30

structure PoolCell (τ : Type*) where
  seq : BitVec 32
  t : τ

structure PoolRing (τ : Type*) where
  tail : BitVec 32
  head : BitVec 32
  cells : ℕ → PoolCell τ

def PoolRing.setSeq {τ : Type*} (r : PoolRing τ) (j : ℕ) (seq : BitVec 32) : PoolRing τ :=
  { r with cells := Function.update r.cells j { r.cells j with seq } }

def PoolRing.setTask {τ : Type*} (r : PoolRing τ) (j : ℕ) (t : τ) : PoolRing τ :=
  { r with cells := Function.update r.cells j { r.cells j with t } }

namespace PoolRing

variable {τ : Type*} (r : PoolRing τ) (j k : ℕ)

@[simp] theorem setTask_seq (t : τ) : ((r.setTask j t).cells k).seq = (r.cells k).seq := by
  by_cases h : k = j <;> simp [setTask, h]

@[simp] theorem setSeq_t (q : BitVec 32) : ((r.setSeq j q).cells k).t = (r.cells k).t := by
  by_cases h : k = j <;> simp [setSeq, h]

theorem setTask_t (t : τ) :
    ((r.setTask j t).cells k).t = if k = j then t else (r.cells k).t := by
  by_cases h : k = j <;> simp [setTask, h]

theorem setSeq_seq (q : BitVec 32) :
    ((r.setSeq j q).cells k).seq = if k = j then q else (r.cells k).seq := by
  by_cases h : k = j <;> simp [setSeq, h]

end PoolRing

/-- Where a thread stands: the next access of the call it is in. In the pop, `n` counts the
cells found ready and `k` the cells already copied and recycled. -/
inductive RingThread (τ : Type*)
  | idle
  | pushSeq (t : τ) (pos : BitVec 32)
  | pushCas (t : τ) (pos : BitVec 32)
  | pushReload (t : τ)
  | pushCopy (t : τ) (pos : BitVec 32)
  | pushPublish (t : τ) (pos : BitVec 32)
  | popLoad (max : ℕ)
  | popSeq (max : ℕ) (pos : BitVec 32) (n : ℕ)
  | popCas (max : ℕ) (pos : BitVec 32) (n : ℕ)
  | popCopy (pos : BitVec 32) (n k : ℕ)
  | popRecycle (pos : BitVec 32) (n k : ℕ)

inductive RingLabel (ι τ : Type*)
  | push (i : ι) (t : τ)
  | pop (i : ι) (max : ℕ)
  | run (i : ι)

inductive RingEvent (τ : Type*)
  | none
  | loaded
  | pushClaimed (t : τ)
  | filled
  | pushed
  | pushFull
  | popClaimed (n : ℕ)
  | copied (k : ℕ) (t : τ)
  | recycled (k : ℕ)
  | popEmpty

structure RingState (ι τ : Type*) where
  ring : PoolRing τ
  thread : ι → RingThread τ

variable {ι τ : Type*}

def ringStep (c : Pow2) (r : PoolRing τ) :
    RingThread τ → Option (PoolRing τ × RingThread τ × RingEvent τ)
  | .idle => none
  | .pushSeq t pos =>
    let dif := ((r.cells (c.cell pos)).seq - pos).toInt
    if dif = 0 then some (r, .pushCas t pos, .none)
    else if dif < 0 then some (r, .idle, .pushFull)
    else some (r, .pushReload t, .none)
  | .pushCas t pos =>
    if r.tail = pos then some ({ r with tail := pos + 1 }, .pushCopy t pos, .pushClaimed t)
    else some (r, .pushReload t, .none)
  | .pushReload t => some (r, .pushSeq t r.tail, .loaded)
  | .pushCopy t pos => some (r.setTask (c.cell pos) t, .pushPublish t pos, .filled)
  | .pushPublish _ pos => some (r.setSeq (c.cell pos) (pos + 1), .idle, .pushed)
  | .popLoad max => some (r, .popSeq max r.head 0, .loaded)
  | .popSeq max pos n =>
    let next := pos + BitVec.ofNat 32 n
    if (r.cells (c.cell next)).seq - (next + 1) = 0 then
      if n + 1 < max then some (r, .popSeq max pos (n + 1), .none)
      else some (r, .popCas max pos (n + 1), .none)
    else if n = 0 then some (r, .idle, .popEmpty)
    else some (r, .popCas max pos n, .none)
  | .popCas max pos n =>
    if r.head = pos then
      some ({ r with head := pos + BitVec.ofNat 32 n }, .popCopy pos n 0, .popClaimed n)
    else some (r, .popLoad max, .none)
  | .popCopy pos n k =>
    some (r, .popRecycle pos n k, .copied k (r.cells (c.cell (pos + BitVec.ofNat 32 k))).t)
  | .popRecycle pos n k =>
    let next := pos + BitVec.ofNat 32 k
    some (r.setSeq (c.cell next) (next + BitVec.ofNat 32 c.mask + 1),
      if k + 1 < n then .popCopy pos n (k + 1) else .idle, .recycled k)

/-- What the threads have done. Claims are numbered from 0 on both sides: `claimed` lists the
values in the order in which producers won `tail`, `taken` counts the positions consumers won on
`head`, and `base i` is the number of the first position thread `i` won last. `filled`, `pushed`,
`delivered` and `recycled` number the positions by what has happened to them: the task was
stored, the push returned true, a pop copied the task out, the cell was handed on. -/
structure RingHistory (ι τ : Type*) where
  claimed : List τ
  taken : ℕ
  filled : List ℕ
  pushed : List ℕ
  delivered : List (ℕ × τ)
  recycled : List ℕ
  base : ι → ℕ
  ops : ℕ
  loadedAt : ι → ℕ

def RingHistory.record [DecidableEq ι] (h : RingHistory ι τ) (i : ι) :
    RingEvent τ → RingHistory ι τ
  | .loaded => { h with loadedAt := Function.update h.loadedAt i h.ops }
  | .pushClaimed t =>
    { h with claimed := h.claimed ++ [t], base := Function.update h.base i h.claimed.length,
             ops := h.ops + 1 }
  | .filled => { h with filled := h.base i :: h.filled }
  | .pushed => { h with pushed := h.base i :: h.pushed }
  | .popClaimed n =>
    { h with taken := h.taken + n, base := Function.update h.base i h.taken, ops := h.ops + 1 }
  | .copied k t => { h with delivered := (h.base i + k, t) :: h.delivered }
  | .recycled k => { h with recycled := (h.base i + k) :: h.recycled }
  | _ => h

/-- `pool_ring_init`: cell `i` starts with sequence number `i`; its task is whatever the
allocation held. -/
def poolRingInit (task : ℕ → τ) : RingState ι τ × RingHistory ι τ :=
  (⟨⟨0, 0, fun j => ⟨BitVec.ofNat 32 j, task j⟩⟩, fun _ => .idle⟩,
    ⟨[], 0, [], [], [], [], fun _ => 0, 0, fun _ => 0⟩)

/-- One step of thread `i`. A push starts with its load of `tail`; the `int` argument of a pop
is at least 1. -/
def ringStepAt [DecidableEq ι] (c : Pow2) (s : RingState ι τ) :
    RingLabel ι τ → Option (ι × RingState ι τ × RingEvent τ)
  | .push i t =>
    match s.thread i with
    | .idle =>
      some (i, { s with thread := Function.update s.thread i (.pushSeq t s.ring.tail) }, .loaded)
    | _ => none
  | .pop i max =>
    match s.thread i with
    | .idle =>
      if 1 ≤ max ∧ max < 2 ^ 31 then
        some (i, { s with thread := Function.update s.thread i (.popLoad max) }, .none)
      else none
    | _ => none
  | .run i =>
    (ringStep c s.ring (s.thread i)).map fun (r, p, e) =>
      (i, ⟨r, Function.update s.thread i p⟩, e)

def ringSystem [DecidableEq ι] (c : Pow2) :
    System (RingState ι τ × RingHistory ι τ) (RingLabel ι τ) where
  init := fun p => ∃ task, p = poolRingInit task
  step := fun (s, h) l => (ringStepAt c s l).map fun (i, s', e) => (s', h.record i e)

/-- The next access of the thread is a CAS on `tail` or `head`. -/
def RingThread.comparing : RingThread τ → Bool
  | .pushCas _ _ | .popCas _ _ _ => true
  | _ => false

/-- Fewer than 2^31 calls have won their CAS since the load that this CAS compares with. -/
def RecentLoad (p : RingState ι τ × RingHistory ι τ) : RingLabel ι τ → Prop
  | .run i => (p.1.thread i).comparing = true → p.2.ops - p.2.loadedAt i < 2 ^ 31
  | _ => True

instance (p : RingState ι τ × RingHistory ι τ) : (l : RingLabel ι τ) → Decidable (RecentLoad p l)
  | .run i => inferInstanceAs (Decidable ((p.1.thread i).comparing = true → _))
  | .push _ _ | .pop _ _ => .isTrue trivial

end Xplatbase.ThreadPool
