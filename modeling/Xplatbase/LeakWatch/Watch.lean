import Mathlib.Data.Fintype.Basic
import Mathlib.Logic.Function.Basic
import Xplatbase.Lib.System

/-! Model of the start and stop of `mem_leak_watch.c` and of its monitor loop. A step is one access
of the shared variables `g_running`, `g_cfg`, `g_wait`, `g_thread` and `g_leak_watch_enabled`, or a
call of the OS. `thread_wait_destroy` does nothing. -/
namespace Xplatbase.LeakWatch
open Xplatbase.Lib

/-- Where a monitor thread stands in `mlw_monitor_loop`. -/
inductive MonitorPc
  /-- Before the test of `g_running` at the top. -/
  | checking
  /-- Before `thread_wait_prepare`. -/
  | preparing
  /-- In `thread_wait_sleep_for`. -/
  | sleeping
  /-- Before the test of `g_running` after the sleep. -/
  | rechecking
  /-- Reading the statistics, and scanning when a threshold is crossed. -/
  | scanning
  | exited
  deriving DecidableEq

/-- Where a thread stands in `mem_leak_watch_start` or `mem_leak_watch_stop`. -/
inductive CallPc
  | idle
  /-- `g_running` claimed, `g_cfg` not yet written. -/
  | configuring (enabled : Bool)
  /-- Before `memop_leak_watch_enable(g_cfg.enabled)`. -/
  | enabling
  /-- Before the test of `g_cfg.enabled`. -/
  | deciding
  /-- Before `thread_wait_prepare`. -/
  | preparing
  /-- Before `thread_create`. -/
  | creating
  /-- `thread_create` returned, `g_thread` not yet written. -/
  | storing (thread : Option ℕ)
  /-- Before `g_running` is reset by a start that is not enabled. -/
  | failing
  /-- Before `g_running` is reset by a start that got no thread. -/
  | reverting
  /-- Before `memop_leak_watch_enable(false)` in that start, which then returns false. -/
  | muting
  /-- `g_running` reset by a stop, before `thread_wait_wake`. -/
  | waking
  /-- In `thread_join`, before `*t` is read. -/
  | reading
  /-- In `thread_join`, waiting for the thread. -/
  | joining (thread : ℕ)
  /-- In `thread_join`, before `*t` is reset. -/
  | clearing
  /-- Before `memop_leak_watch_enable(false)` in a stop. -/
  | silencing
  /-- Before the log is closed, under `g_log_lock`. -/
  | closing
  deriving DecidableEq

inductive WatchCall
  | start
  | stop
  deriving DecidableEq

/-- `monitors` are the threads created, by handle; `joins` counts how often each was joined, and
`last` is the call that last returned with success. `recording` is `g_leak_watch_enabled`. -/
structure WatchState (ι : Type*) where
  running : Bool
  enabled : Bool
  recording : Bool
  signal : Bool
  thread : Option ℕ
  monitors : ℕ → Option MonitorPc
  joins : ℕ → ℕ
  calls : ι → CallPc
  last : Option WatchCall

inductive WatchLabel (ι : Type*)
  | start (i : ι) (enabled : Bool)
  | stop (i : ι)
  /-- The next step of a call; `created` is the answer of the OS to a request for a thread. -/
  | call (i : ι) (created : Option ℕ)
  /-- The next step of a monitor; `timeout` ends a sleep without a signal. -/
  | monitor (m : ℕ) (timeout : Bool)

variable {ι : Type*} [DecidableEq ι]

def WatchState.setCall (s : WatchState ι) (i : ι) (pc : CallPc) : WatchState ι :=
  { s with calls := Function.update s.calls i pc }

def WatchState.setMonitor (s : WatchState ι) (m : ℕ) (pc : MonitorPc) : WatchState ι :=
  { s with monitors := Function.update s.monitors m (some pc) }

/-- One pass of `mlw_monitor_loop`, step by step. -/
def monitorLoop (s : WatchState ι) (m : ℕ) (timeout : Bool) : MonitorPc → Option (WatchState ι)
  | .checking => some (s.setMonitor m (if s.running then .preparing else .exited))
  | .preparing => some ({ s with signal := false }.setMonitor m .sleeping)
  | .sleeping =>
    if s.signal = true ∨ timeout = true then
      some ({ s with signal := false }.setMonitor m .rechecking)
    else none
  | .rechecking => some (s.setMonitor m (if s.running then .scanning else .exited))
  | .scanning => some (s.setMonitor m .checking)
  | .exited => none

/-- `mem_leak_watch_start` after its CAS, and `mem_leak_watch_stop` after its own. -/
def callStep (s : WatchState ι) (i : ι) (created : Option ℕ) : CallPc → Option (WatchState ι)
  | .idle => none
  | .configuring enabled => some ({ s with enabled := enabled }.setCall i .enabling)
  | .enabling => some ({ s with recording := s.enabled }.setCall i .deciding)
  | .deciding => some (s.setCall i (if s.enabled then .preparing else .failing))
  | .preparing => some ({ s with signal := false }.setCall i .creating)
  | .creating =>
    match created with
    | none => some (s.setCall i (.storing none))
    | some m =>
      -- the handle of a thread is not in use
      if s.monitors m = none then some ((s.setMonitor m .checking).setCall i (.storing (some m)))
      else none
  | .storing thread =>
    let s := { s with thread := thread }
    match thread with
    | none => some (s.setCall i .reverting)
    | some _ => some ({ s with last := some .start }.setCall i .idle)
  | .failing => some ({ s with running := false }.setCall i .idle)
  | .reverting => some ({ s with running := false }.setCall i .muting)
  | .muting => some ({ s with recording := false }.setCall i .idle)
  | .waking => some ({ s with signal := true }.setCall i .reading)
  | .reading =>
    match s.thread with
    | none => some (s.setCall i .silencing)
    | some m => some (s.setCall i (.joining m))
  | .joining m =>
    if s.monitors m = some .exited then
      some ({ s with joins := Function.update s.joins m (s.joins m + 1) }.setCall i .clearing)
    else none
  | .clearing => some ({ s with thread := none }.setCall i .silencing)
  | .silencing => some ({ s with recording := false }.setCall i .closing)
  | .closing => some ({ s with last := some .stop }.setCall i .idle)

def watchStep (s : WatchState ι) : WatchLabel ι → Option (WatchState ι)
  | .start i enabled =>
    if s.calls i = .idle then
      if s.running then some s
      else some ({ s with running := true }.setCall i (.configuring enabled))
    else none
  | .stop i =>
    if s.calls i = .idle then
      if s.running then some ({ s with running := false }.setCall i .waking) else some s
    else none
  | .call i created => callStep s i created (s.calls i)
  | .monitor m timeout =>
    match s.monitors m with
    | none => none
    | some pc => monitorLoop s m timeout pc

def unwatched (ι : Type*) : WatchState ι where
  running := false
  enabled := false
  recording := false
  signal := false
  thread := none
  monitors := fun _ => none
  joins := fun _ => 0
  calls := fun _ => .idle
  last := none

def watchSystem (ι : Type*) [DecidableEq ι] : System (WatchState ι) (WatchLabel ι) where
  init := fun s => s = unwatched ι
  step := watchStep

/-- A start between its CAS and the store of `g_thread`, or the reset of `g_running` where it fails. -/
def CallPc.Starting : CallPc → Prop
  | .configuring _ => True
  | .enabling => True
  | .deciding => True
  | .preparing => True
  | .creating => True
  | .storing _ => True
  | .failing => True
  | .reverting => True
  | _ => False

def CallPc.Stopping : CallPc → Prop
  | .waking => True
  | .reading => True
  | .joining _ => True
  | .clearing => True
  | .silencing => True
  | .closing => True
  | _ => False

instance (pc : CallPc) : Decidable pc.Starting := by
  cases pc <;> unfold CallPc.Starting <;> infer_instance

instance (pc : CallPc) : Decidable pc.Stopping := by
  cases pc <;> unfold CallPc.Stopping <;> infer_instance

end Xplatbase.LeakWatch
