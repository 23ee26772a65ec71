import Mathlib.Algebra.Group.Nat.Defs
import Mathlib.Data.Fin.Basic
import Mathlib.Data.Int.Notation
import Mathlib.Tactic.Common
import Xplatbase.Lib.System

/-! `pool_try_get` as one worker runs it. Only the worker itself writes its LIFO slot, its streak
and its pending batch; what it reads of the rings and the deques is whatever the other threads
leave there, so each read is free. -/
namespace Xplatbase.ThreadPool.Slot
open Xplatbase.Lib

def POOL_LIFO_CAP : ℕ := 8
def POOL_BATCH : ℕ := 2
def POOL_DEQUE_CAP : ℤ := 4096

/-- The sizes of a pool, which are `int`s. -/
structure PoolSizes where
  n_shards : ℕ
  n_total : ℕ
  shards_pos : 0 < n_shards
  total_pos : 0 < n_total
  shards_int : n_shards < 2 ^ 31
  total_int : n_total < 2 ^ 31

variable {τ : Type*}

/-- What `pool_deque_take` reads: `bottom`, `top` twice, the slot, and whether its CAS succeeds. -/
structure TakeReads (τ : Type*) where
  bottom : ℤ
  top : ℤ
  topAgain : ℤ
  slot : τ
  cas : Bool

def poolDequeTake (r : TakeReads τ) : Option τ :=
  if r.bottom - r.top ≤ 0 then none
  else
    let b := r.bottom - 1
    if r.topAgain ≤ b then
      if r.topAgain = b then (if r.cas then some r.slot else none) else some r.slot
    else none

structure StealReads (τ : Type*) where
  top : ℤ
  bottom : ℤ
  slot : τ
  cas : Bool

def poolDequeSteal (r : StealReads τ) : Option τ :=
  if r.top < r.bottom then (if r.cas then some r.slot else none) else none

structure PushReads where
  bottom : ℤ
  top : ℤ

def poolDequePush (r : PushReads) : Bool := ¬POOL_DEQUE_CAP ≤ r.bottom - r.top

/-- One pass of the loop of `pool_ring_pop_batch`: which cells from `head` on are published, what
they hold, and whether the CAS of `head` succeeds. -/
structure BatchReads (τ : Type*) where
  ready : ℕ → Bool
  cell : ℕ → τ
  cas : Bool

/-- `while (n < max)`, with `left` cells to go. -/
def countReady (ready : ℕ → Bool) : ℕ → ℕ → ℕ
  | 0, n => n
  | left + 1, n => if ready n then countReady ready left (n + 1) else n

/-- `none` when the call is still in its loop after the passes given. -/
def poolRingPopBatch (max : ℕ) : List (BatchReads τ) → Option (List τ)
  | [] => none
  | r :: rs =>
    let n := countReady r.ready max 0
    if n = 0 then some []
    else if r.cas then some ((List.range n).map r.cell)
    else poolRingPopBatch max rs

/-- What a call of `pool_try_get` reads, by shard and by victim. -/
structure GetReads (d : PoolSizes) (τ : Type*) where
  take : TakeReads τ
  batch : Fin d.n_shards → List (BatchReads τ)
  steal : Fin d.n_total → StealReads τ

/-- The worker's own fields. `lifo` is `lifo_task` while `lifo_full` is set, and `pend_n` is the
length of `pending`. -/
structure PoolWorker (d : PoolSizes) (τ : Type*) where
  index : Fin d.n_total
  shard_cursor : Fin d.n_shards
  steal_cursor : Fin d.n_total
  lifo : Option τ
  lifo_streak : ℕ
  pending : List τ
  pend_i : ℕ

/-- Which `return true` a task came from. -/
inductive TaskSource (d : PoolSizes)
  | lifo
  | deque
  | pending
  | shard (s : Fin d.n_shards)
  | stolen (v : Fin d.n_total)
  /-- The LIFO task, held back by the cap and drained at the end. -/
  | drained
  deriving DecidableEq

variable {d : PoolSizes}

/-- The shard of pass `g`: `(sc + (uint32_t)g) % (uint32_t)G`. -/
def shardAt (sc : Fin d.n_shards) (g : ℕ) : Fin d.n_shards :=
  ⟨(sc.val + g) % 2 ^ 32 % d.n_shards, Nat.mod_lt _ d.shards_pos⟩

/-- The victim of pass `k`: `(s2 + (uint32_t)k) % (uint32_t)nt`. -/
def victimAt (s2 : Fin d.n_total) (k : ℕ) : Fin d.n_total :=
  ⟨(s2.val + k) % 2 ^ 32 % d.n_total, Nat.mod_lt _ d.total_pos⟩

/-- `for (g = 0; g < G; g++)`, with `left` shards to go; `none` when a pop does not return. -/
def shardScan (batch : Fin d.n_shards → List (BatchReads τ)) (sc : Fin d.n_shards) :
    ℕ → ℕ → Option (Option (Fin d.n_shards × τ × List τ))
  | 0, _ => some none
  | left + 1, g =>
    match poolRingPopBatch POOL_BATCH (batch (shardAt sc g)) with
    | none => none
    | some [] => shardScan batch sc left (g + 1)
    | some (t :: rest) => some (some (shardAt sc g, t, t :: rest))

/-- `for (k = 1; k <= nt; k++)`, with `left` victims to go. -/
def stealScan (steal : Fin d.n_total → StealReads τ) (index s2 : Fin d.n_total) :
    ℕ → ℕ → Option (Fin d.n_total × τ)
  | 0, _ => none
  | left + 1, k =>
    if victimAt s2 k = index then stealScan steal index s2 left (k + 1)
    else
      match poolDequeSteal (steal (victimAt s2 k)) with
      | some t => some (victimAt s2 k, t)
      | none => stealScan steal index s2 left (k + 1)

/-- After the LIFO slot; `none` when the call does not return with these reads. -/
def poolTryElsewhere (self : PoolWorker d τ) (r : GetReads d τ) :
    Option (Option (τ × TaskSource d) × PoolWorker d τ) :=
  match poolDequeTake r.take with
  | some t => some (some (t, .deque), { self with lifo_streak := 0 })
  | none =>
    match self.pending[self.pend_i]? with
    | some t =>
      some (some (t, .pending), { self with lifo_streak := 0, pend_i := self.pend_i + 1 })
    | none =>
      match shardScan r.batch self.shard_cursor d.n_shards 0 with
      | none => none
      | some (some (s, t, batch)) =>
        some (some (t, .shard s),
          { self with shard_cursor := s, lifo_streak := 0, pending := batch, pend_i := 1 })
      | some none =>
        match stealScan r.steal self.index self.steal_cursor d.n_total 1 with
        | some (v, t) =>
          some (some (t, .stolen v), { self with steal_cursor := v, lifo_streak := 0 })
        | none =>
          match self.lifo with
          | some t => some (some (t, .drained), { self with lifo_streak := 0, lifo := none })
          | none => some (none, self)

def poolTryGet (self : PoolWorker d τ) (r : GetReads d τ) :
    Option (Option (τ × TaskSource d) × PoolWorker d τ) :=
  match self.lifo with
  | some t =>
    if self.lifo_streak < POOL_LIFO_CAP then
      some (some (t, .lifo), { self with lifo_streak := self.lifo_streak + 1, lifo := none })
    else poolTryElsewhere self r
  | none => poolTryElsewhere self r

/-- What becomes of the task that a reentrant submit finds in the LIFO slot. -/
inductive SubmitOutcome (τ : Type*)
  | slotFree
  | pushed (old : τ)
  | ran (old : τ)

/-- `pool_submit_relative`, called by a task that the worker runs. -/
def poolSubmitReentrant (self : PoolWorker d τ) (t : τ) (r : PushReads) :
    SubmitOutcome τ × PoolWorker d τ :=
  match self.lifo with
  | none => (.slotFree, { self with lifo := some t })
  | some old => (if poolDequePush r then .pushed old else .ran old, { self with lifo := some t })

/-- A successful call: the worker before it, what it read and where its task came from. -/
structure GetRecord (d : PoolSizes) (τ : Type*) where
  before : PoolWorker d τ
  reads : GetReads d τ
  task : τ
  source : TaskSource d

structure SlotState (d : PoolSizes) (τ : Type*) where
  worker : PoolWorker d τ
  calls : List (GetRecord d τ)

inductive SlotLabel (d : PoolSizes) (τ : Type*)
  | get (r : GetReads d τ)
  | submit (t : τ) (r : PushReads)

def slotStep (s : SlotState d τ) : SlotLabel d τ → Option (SlotState d τ)
  | .get r =>
    (poolTryGet s.worker r).map fun out =>
      ⟨out.2, s.calls ++ (out.1.map fun o => ⟨s.worker, r, o.1, o.2⟩).toList⟩
  | .submit t r => some { s with worker := (poolSubmitReentrant s.worker t r).2 }

def slotSystem (d : PoolSizes) (τ : Type*) : System (SlotState d τ) (SlotLabel d τ) where
  init := fun s => s.calls = []
  step := slotStep

def TaskSource.IsLifo : TaskSource d → Prop
  | .lifo => True
  | .drained => True
  | _ => False

instance (source : TaskSource d) : Decidable source.IsLifo := by
  cases source <;> unfold TaskSource.IsLifo <;> infer_instance

/-- The call asked everywhere else first, and no place gave it a task. -/
structure GetRecord.FoundNothing (c : GetRecord d τ) : Prop where
  own : poolDequeTake c.reads.take = none
  pending : c.before.pending.length ≤ c.before.pend_i
  shards : ∀ s, poolRingPopBatch POOL_BATCH (c.reads.batch s) = some []
  others : ∀ v, v ≠ c.before.index → poolDequeSteal (c.reads.steal v) = none

end Xplatbase.ThreadPool.Slot
