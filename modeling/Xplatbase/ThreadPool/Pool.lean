import Xplatbase.Lib.System
import Mathlib.Data.Int.Basic
import Mathlib.Logic.Function.Basic

/-! The state of the thread pool: shard rings, workers, counters, the monitor and the threads
that call in from outside. Tasks are numbered by the submit that brought them. A shard ring and
a deque are queues whose operations take effect at once; positions do not wrap. -/
namespace Xplatbase.ThreadPool
open Xplatbase.Lib

/-- `workers[0, nCore)` are core, `[nCore, nWorkers)` reserve and `[nWorkers, nTotal)` elastic. -/
structure PoolDims where
  nCore : ℕ
  nWorkers : ℕ
  nTotal : ℕ
  nShards : ℕ
  core_pos : 0 < nCore
  core_le : nCore ≤ nWorkers
  workers_le : nWorkers ≤ nTotal
  shards_pos : 0 < nShards

namespace PoolDims

variable (d : PoolDims)

def isCore (w : ℕ) : Bool := w < d.nCore

def isElastic (w : ℕ) : Bool := d.nWorkers ≤ w

def nCtrs : ℕ := d.nShards + d.nTotal

def ctrOf (w : ℕ) : ℕ := d.nShards + w

end PoolDims

def poolShardCap : ℕ := 4096
def poolDequeCap : ℕ := 4096
def poolSpinPause : ℕ := 512
def poolSpinYield : ℕ := 64
def poolSpinSleep0 : ℕ := 8
def poolGiradoresMin : ℤ := 1
def poolStuckMin : ℕ := 2
def poolElasticRetireSpins : ℕ := 200000
def poolBatch : ℕ := 2
def poolLifoCap : ℕ := 8
def poolEconomiaGiroUs : ℤ := 20

/-- A shard ring; `cell p` holds the task published at position `p`. -/
structure TaskRing where
  tail : ℕ
  head : ℕ
  cell : ℕ → Option ℕ

/-- A worker's deque: the owner pushes and takes at `bottom`, thieves steal at `top`. -/
structure TaskDeque where
  top : ℕ
  bottom : ℕ
  task : ℕ → ℕ

inductive QueueRef
  | ring (s : ℕ)
  | deque (w : ℕ)
  deriving DecidableEq

/-- Inside `pool_wake_submit`, which runs into `pool_wake_one_core` at `parkedCore`. -/
inductive WakePc
  | parked (q : QueueRef)
  | girando (q : QueueRef)
  | girandoAgain (q : QueueRef)
  | filaTail (q : QueueRef) (g : ℤ)
  | filaHead (q : QueueRef) (g : ℤ) (tail : ℕ)
  | parkedCore
  | start
  | test (start j : ℕ)
  | claim (start j : ℕ)
  | signal (idx : ℕ)
  deriving DecidableEq

/-- Inside `pool_try_get`. In the shard scan, `g` counts shards from the cursor and `n` counts
tasks found ready from position `pos`; in the steal scan, `k` counts victims. -/
inductive GetPc
  | start
  | popLoad (g : ℕ)
  | popSeq (g pos n : ℕ)
  | popCas (g pos n : ℕ)
  | steal (k : ℕ)
  | lifo

inductive SpinLoop
  | timed (i : ℕ)
  | pause (i : ℕ)
  | yield (i : ℕ)

/-- The variables of `pool_spin`. -/
structure Spin where
  conta : Bool
  dorme0 : Bool
  loop : SpinLoop

/-- Which call of `pool_try_get` a worker is in. -/
inductive GetSite
  | loop
  | vigia (i : ℕ)
  | prepared
  | spin (sp : Spin)
  | sleep0 (i : ℕ)
  | announced
  | elastic

/-- Inside `pool_worker_fn` and what it calls, up to the task itself. -/
inductive WorkerPc
  | stopTest
  | get (site : GetSite) (p : GetPc)
  | vigiaTest
  | vigiaStop (i : ℕ)
  | prepare
  | spinStart
  | spinCount (sp : Spin)
  | spinStop (sp : Spin)
  | giraFim (sp : Spin) (t : Option ℕ)
  | giraFila (t s : ℕ)
  | giraHead (t s tail : ℕ)
  | giraWake (t : ℕ) (p : WakePc)
  | sleep0Stop (i : ℕ)
  | parkTest
  | announce
  | announceCount
  | retractCount (t : ℕ)
  | retract (t : ℕ)
  | perfil
  | sleep (eco : Bool)
  | sleepClear (eco woken : Bool)
  | wokenCount (eco woken : Bool)
  | woken (eco woken : Bool)
  | elasticStop
  | elasticPark
  | elasticPrepare
  | elasticParked
  | elasticWoken
  | elasticActive
  | elasticLoop
  | elasticGiro
  | run
  | exited

/-- Inside `pool_run`; `stopTest` to `wake` are the steps of a submit made by the task. -/
inductive FramePc
  | enter
  | count
  | user
  | stopTest (t : ℕ)
  | inc (t : ℕ)
  | place (t : ℕ)
  | nested (t : ℕ)
  | wake (t : ℕ) (p : WakePc)
  | leave
  | ctrLoad
  | ctrStore (v : ℤ)

structure Frame where
  task : ℕ
  pc : FramePc

/-- `ocioso` and `idle` are local variables of `pool_worker_fn`; `frames` are the tasks on the
worker's stack, innermost first; `monLast` belongs to the monitor. -/
structure PoolWorker where
  shardCursor : ℕ
  stealCursor : ℕ
  startCount : ℕ
  inTask : ℕ
  monLast : ℕ
  lifo : Option ℕ
  lifoStreak : ℕ
  pending : ℕ → ℕ
  pendI : ℕ
  pendN : ℕ
  deque : TaskDeque
  parked : Bool
  signal : Bool
  ocioso : ℕ
  idle : ℕ
  pc : WorkerPc
  frames : List Frame

/-- Inside `pool_submit_relative`, called from a thread that is not a worker of the pool. -/
inductive SubmitPc
  | stopTest
  | pick
  | inc (s : ℕ)
  | pushLoad (s : ℕ)
  | pushSeq (s pos : ℕ)
  | pushCas (s pos : ℕ)
  | publish (s pos : ℕ)
  | undo (s : ℕ)
  | retry
  | wake (p : WakePc)
  | mon
  | monClaim
  | monSignal
  deriving DecidableEq

/-- A call in progress in a thread that is not a worker of the pool. -/
inductive ClientPc
  | idle
  | submit (t : ℕ) (p : SubmitPc)
  | waitIdle (i : ℕ) (sum : ℤ)
  | destroyStop
  | destroyWait (i : ℕ) (sum : ℤ)
  | setStop
  | wakeMon
  | joinMon
  | wakeWorker (i : ℕ)
  | joinWorker (i : ℕ)
  | vigias (n : ℤ)
  | vigiaClaim (n : ℤ) (i : ℕ)
  | vigiaSignal (n : ℤ) (i : ℕ)
  | perfil (eco : Bool)
  | perfilGiro (eco : Bool)
  | perfilMon
  | perfilSignal
  deriving DecidableEq

/-- Inside `pool_monitor_fn`. -/
inductive MonitorPc
  | start
  | stopTest
  | perfil
  | pending (i : ℕ) (sum : ℤ)
  | prepare
  | announce
  | pendingAgain (i : ℕ) (sum : ℤ)
  | retract
  | sleep (long : Bool)
  | sleepClear
  | awake
  | awakeStop
  | stuckCount (i stuck : ℕ)
  | stuckTask (i stuck count : ℕ)
  | fila (s stuck : ℕ)
  | filaHead (s stuck tail : ℕ)
  | elastic (e toWake : ℕ)
  | claim (e toWake : ℕ)
  | signal (e toWake : ℕ)
  | exited

/-- `submitted` numbers the submit calls, and with them the tasks; `returned` records what each
submit returned and `finished` the tasks whose `pool_run` is over, both newest first. -/
structure PoolState (ι : Type*) where
  stop : Bool
  ctrs : ℕ → ℤ
  rings : ℕ → TaskRing
  workers : ℕ → PoolWorker
  submitRr : ℕ
  wakeRr : ℕ
  nParkedCore : ℤ
  nGirando : ℤ
  nVigia : ℤ
  giroUs : ℤ
  economia : Bool
  monDormindo : Bool
  monSignal : Bool
  monitor : MonitorPc
  clients : ι → ClientPc
  submitted : ℕ
  returned : List (ℕ × Bool)
  finished : List ℕ

end Xplatbase.ThreadPool
