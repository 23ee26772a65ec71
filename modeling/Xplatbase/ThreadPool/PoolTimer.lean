import Mathlib.Data.Int.Notation
import Mathlib.Data.List.Count
import Xplatbase.Lib.System

/-! The 1 ms timer of the system, shared by all pools: `thread_wait_init` and
`thread_wait_shutdown`, and the places of `pool_create_relative`, `pool_monitor_fn` and
`pool_destroy_relative` that call them. -/
namespace Xplatbase.ThreadPool.Timer
open Xplatbase.Lib

/-- `users` is `g_timer_users`. Every user is a pool with a thread of its own or with one creating
it, and thread ids have 32 bits, so the counter does not wrap. `begins` and `ends` count the calls
of `timeBeginPeriod` that succeeded and of `timeEndPeriod`. -/
structure SystemTimer where
  users : ℕ
  begins : ℕ
  ends : ℕ

/-- `begun` is the answer of `timeBeginPeriod`. -/
def threadWaitInit (t : SystemTimer) (begun : Bool) : Bool × SystemTimer :=
  if t.users = 0 then
    if begun then (true, { t with users := t.users + 1, begins := t.begins + 1 }) else (false, t)
  else (true, { t with users := t.users + 1 })

def threadWaitShutdown (t : SystemTimer) : SystemTimer :=
  if 0 < t.users then
    { t with users := t.users - 1, ends := if t.users - 1 = 0 then t.ends + 1 else t.ends }
  else t

/-- Where `pool_create_relative` or `pool_destroy_relative` stands for a pool. -/
inductive OwnerPc
  /-- Before the arrays of the pool are allocated. -/
  | allocating
  /-- Before `thread_wait_init`. -/
  | initing
  /-- `thread_wait_init` returned, `wait_inited` not yet written. -/
  | inited (ok : Bool)
  /-- Making the rings and deques. -/
  | building
  /-- Starting the workers and the monitor. -/
  | starting
  | live
  /-- In `pool_wait_idle_relative`. -/
  | waiting
  /-- `stop` set, before the monitor is joined. -/
  | joining
  /-- Before the test of `wait_inited`. -/
  | closing
  /-- Before `free(pool)`. -/
  | closed
  | freed
  /-- `pool_total_pending` read counters that were not allocated. -/
  | crashed
  deriving DecidableEq

inductive MonitorPc
  | absent
  /-- Before the test of `stop` at the top. -/
  | watching
  /-- Before `thread_wait_shutdown`. -/
  | releasing
  /-- `thread_wait_shutdown` returned, `wait_inited` not yet written. -/
  | released
  | sleeping
  /-- Before the test of `ocioso_desde_ms` and `wait_inited`. -/
  | rechecking
  /-- Before `thread_wait_init`. -/
  | requesting
  /-- `thread_wait_init` returned, `wait_inited` not yet written. -/
  | requested (ok : Bool)
  | exited
  deriving DecidableEq

structure TimerPool where
  wait_inited : Bool
  stop : Bool
  ocioso_desde_ms : ℤ
  ocioso_iniciadas : ℤ
  owner : OwnerPc
  monitor : MonitorPc
  deriving DecidableEq

/-- What a step of a monitor reads: the profile, the two sums of pending tasks, the sum of started
tasks, the clock, and the answer of `timeBeginPeriod`. -/
structure MonitorReads where
  economia : Bool
  pending : ℤ
  pendingAgain : ℤ
  iniciadas : ℤ
  agora : ℤ
  begun : Bool

def POOL_ECONOMIA_TIMER_SOLTA_MS : ℤ := 1000

structure TimerState where
  timer : SystemTimer
  pools : List TimerPool

inductive TimerLabel
  /-- `calloc` gives a new pool to a `pool_create_relative`. -/
  | create
  /-- The next step of the creation or the destruction of pool `i`; `ok` is the answer of the
  allocator, the OS or the test for pending tasks, and `ctrs` tells whether the counters were
  allocated. -/
  | owner (i : ℕ) (ok ctrs : Bool)
  | destroy (i : ℕ)
  | monitor (i : ℕ) (seen : MonitorReads)

/-- One pool and the timer after a step of its creation or destruction. -/
def ownerStep (t : SystemTimer) (p : TimerPool) (ok ctrs : Bool) :
    Option (SystemTimer × TimerPool) :=
  match p.owner with
  | .allocating =>
    some (t, { p with owner := if ok then .initing else if ctrs then .waiting else .crashed })
  | .initing =>
    let r := threadWaitInit t ok
    some (r.2, { p with owner := .inited r.1 })
  | .inited ok => some (t, { p with wait_inited := ok, owner := .building })
  | .building => some (t, { p with owner := if ok then .starting else .waiting })
  | .starting =>
    if ok then some (t, { p with owner := .live, monitor := .watching })
    else some (t, { p with stop := true, owner := .closing })
  | .live => none
  | .waiting => if ok then some (t, { p with stop := true, owner := .joining }) else none
  | .joining =>
    if p.monitor = .absent ∨ p.monitor = .exited then some (t, { p with owner := .closing })
    else none
  | .closing =>
    some (if p.wait_inited then threadWaitShutdown t else t, { p with owner := .closed })
  | .closed => some (t, { p with owner := .freed })
  | .freed => none
  | .crashed => none

/-- One pass of `pool_monitor_fn`, as far as the timer goes. -/
def monitorStep (t : SystemTimer) (p : TimerPool) (seen : MonitorReads) :
    Option (SystemTimer × TimerPool) :=
  match p.monitor with
  | .absent => none
  | .watching =>
    if p.stop then some (t, { p with monitor := .exited })
    else if seen.economia = true ∧ seen.pending = 0 ∧ seen.pendingAgain = 0 then
      if p.ocioso_desde_ms = 0 then
        some (t, { p with
          ocioso_desde_ms := seen.agora
          ocioso_iniciadas := seen.iniciadas
          monitor := .sleeping })
      else if p.wait_inited = true ∧
          POOL_ECONOMIA_TIMER_SOLTA_MS ≤ seen.agora - p.ocioso_desde_ms then
        some (t, { p with monitor := .releasing })
      else some (t, { p with monitor := .sleeping })
    else some (t, { p with monitor := .sleeping })
  | .releasing => some (threadWaitShutdown t, { p with monitor := .released })
  | .released => some (t, { p with wait_inited := false, monitor := .sleeping })
  | .sleeping => some (t, { p with monitor := if p.stop then .exited else .rechecking })
  | .rechecking =>
    if (p.ocioso_desde_ms ≠ 0 ∨ p.wait_inited = false) ∧
        (seen.economia = false ∨
          (p.ocioso_desde_ms ≠ 0 ∧ seen.iniciadas ≠ p.ocioso_iniciadas) ∨ 0 < seen.pending) then
      some (t, { p with
        ocioso_desde_ms := 0
        monitor := if p.wait_inited then .watching else .requesting })
    else some (t, { p with monitor := .watching })
  | .requesting =>
    let r := threadWaitInit t seen.begun
    some (r.2, { p with monitor := .requested r.1 })
  | .requested ok => some (t, { p with wait_inited := ok, monitor := .watching })
  | .exited => none

def TimerPool.new : TimerPool where
  wait_inited := false
  stop := false
  ocioso_desde_ms := 0
  ocioso_iniciadas := 0
  owner := .allocating
  monitor := .absent

def timerStep (s : TimerState) : TimerLabel → Option TimerState
  | .create => some { s with pools := s.pools ++ [.new] }
  | .owner i ok ctrs =>
    s.pools[i]?.bind fun p =>
      (ownerStep s.timer p ok ctrs).map fun r => ⟨r.1, s.pools.set i r.2⟩
  | .destroy i =>
    s.pools[i]?.bind fun p =>
      if p.owner = .live then some { s with pools := s.pools.set i { p with owner := .waiting } }
      else none
  | .monitor i seen =>
    s.pools[i]?.bind fun p =>
      (monitorStep s.timer p seen).map fun r => ⟨r.1, s.pools.set i r.2⟩

def timerSystem : System TimerState TimerLabel where
  init := fun s => s = ⟨⟨0, 0, 0⟩, []⟩
  step := timerStep

/-- `timeBeginPeriod(1)` is in effect for the process. -/
def SystemTimer.InEffect (t : SystemTimer) : Prop := t.ends < t.begins

/-- A thread is between `thread_wait_init` or `thread_wait_shutdown` and the store to
`wait_inited`. -/
def TimerPool.Unsettled (p : TimerPool) : Prop :=
  (∃ ok, p.owner = .inited ok) ∨ p.monitor = .released ∨ ∃ ok, p.monitor = .requested ok

/-- The pool has `wait_inited = 1`, and its `pool_destroy_relative` is not past
`thread_wait_shutdown`. -/
def TimerPool.inUse (p : TimerPool) : Bool :=
  p.wait_inited && p.owner ≠ .closed && p.owner ≠ .freed

/-- The pool has a use of the timer, stored or on its way to `wait_inited`. -/
def TimerPool.holds (p : TimerPool) : Bool :=
  p.inUse && p.monitor ≠ .released || p.owner = .inited true || p.monitor = .requested true

end Xplatbase.ThreadPool.Timer
