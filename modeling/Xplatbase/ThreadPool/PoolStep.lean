import Mathlib.Algebra.Group.Nat.Defs
import Xplatbase.ThreadPool.Pool

/-! The steps of the thread pool: one atomic access of shared memory at a time, with the work on
a thread's own variables that follows it. -/
namespace Xplatbase.ThreadPool
open Xplatbase.Lib

variable {ι : Type*}

namespace PoolState

variable (s : PoolState ι)

def setWorker (w : ℕ) (x : PoolWorker) : PoolState ι :=
  { s with workers := Function.update s.workers w x }

def setRing (j : ℕ) (r : TaskRing) : PoolState ι :=
  { s with rings := Function.update s.rings j r }

def addCtr (i : ℕ) (v : ℤ) : PoolState ι :=
  { s with ctrs := Function.update s.ctrs i (s.ctrs i + v) }

def setClient [DecidableEq ι] (c : ι) (p : ClientPc) : PoolState ι :=
  { s with clients := Function.update s.clients c p }

def setPc (w : ℕ) (p : WorkerPc) : PoolState ι :=
  s.setWorker w { s.workers w with pc := p }

def setParked (w : ℕ) (b : Bool) : PoolState ι :=
  s.setWorker w { s.workers w with parked := b }

def setSignal (w : ℕ) (b : Bool) : PoolState ι :=
  s.setWorker w { s.workers w with signal := b }

def setFrames (w : ℕ) (fs : List Frame) : PoolState ι :=
  s.setWorker w { s.workers w with frames := fs }

/-- `pool_run` of a task that the worker has just got. -/
def run (w t : ℕ) : PoolState ι :=
  s.setWorker w { s.workers w with pc := .run, frames := [⟨t, .enter⟩] }

end PoolState

/-- `(uint32_t)v + 1`. -/
def incU32 (v : ℕ) : ℕ := (v + 1) % 2 ^ 32

/-- The core that the scan of `pool_wake_one_core` reaches at offset `j`. -/
def PoolDims.coreAt (d : PoolDims) (start j : ℕ) : ℕ := (start + j) % 2 ^ 32 % d.nCore

theorem PoolDims.coreAt_lt (d : PoolDims) (start j : ℕ) : d.coreAt start j < d.nCore :=
  Nat.mod_lt _ d.core_pos

/-- `pool_wake_submit` and `pool_wake_one_core`; no next place when the call returns. -/
def poolWakeSubmit (d : PoolDims) (s : PoolState ι) : WakePc → PoolState ι × Option WakePc
  | .parked q => (s, some (if 0 < s.nParkedCore then .girando q else .parkedCore))
  | .girando q =>
    (s, some (if poolGiradoresMin ≤ s.nGirando then .girandoAgain q else .parkedCore))
  | .girandoAgain q => (s, some (.filaTail q s.nGirando))
  | .filaTail q g =>
    (s, some (.filaHead q g (match q with
      | .ring j => (s.rings j).tail
      | .deque w => (s.workers w).deque.bottom)))
  | .filaHead q g tail =>
    let head := match q with
      | .ring j => (s.rings j).head
      | .deque w => (s.workers w).deque.top
    -- a negative count is 0 in `pool_ring_count` and stays below `g` for a deque
    (s, if poolGiradoresMin ≤ g ∧ ((tail - head : ℕ) : ℤ) ≤ g then none else some .parkedCore)
  | .parkedCore => (s, if s.nParkedCore ≤ 0 then none else some .start)
  | .start => ({ s with wakeRr := incU32 s.wakeRr }, some (.test s.wakeRr 0))
  | .test start j =>
    (s, if (s.workers (d.coreAt start j)).parked then some (.claim start j)
      else if j + 1 < d.nCore then some (.test start (j + 1)) else none)
  | .claim start j =>
    let idx := d.coreAt start j
    if (s.workers idx).parked then (s.setParked idx false, some (.signal idx))
    else (s, if j + 1 < d.nCore then some (.test start (j + 1)) else none)
  | .signal idx => (s.setSignal idx true, none)

/-- `pool_total_pending` reads one counter; the sum once all are read. -/
def poolTotalPending (d : PoolDims) (s : PoolState ι) (i : ℕ) (sum : ℤ) : (ℕ × ℤ) ⊕ ℤ :=
  let sum := sum + s.ctrs i
  if i + 1 < d.nCtrs then .inl (i + 1, sum) else .inr sum

/-- The shard that the scan of `pool_try_get` reaches at offset `g`. -/
def PoolDims.shardAt (d : PoolDims) (x : PoolWorker) (g : ℕ) : ℕ :=
  (x.shardCursor + g) % d.nShards

/-- A consumer reads the sequence number of position `p`: is a task published there? Below `head`
the cell may or may not have been recycled yet, as `b` says. -/
def TaskRing.ready (r : TaskRing) (b : Bool) (p : ℕ) : Bool :=
  if p < r.head then !b else (r.cell p).isSome

/-- What a step of `pool_try_get` does next: goes on, or returns with or without a task. -/
inductive GetNext
  | go (p : GetPc)
  | got (t : ℕ)
  | nothing

/-- `pool_try_get` of worker `w`. `b` also says whether the CAS of a steal is lost. -/
def poolTryGet (d : PoolDims) (s : PoolState ι) (w : ℕ) (b : Bool) :
    GetPc → PoolState ι × GetNext
  | .start =>
    let x := s.workers w
    match x.lifo.filter fun _ => x.lifoStreak < poolLifoCap with
    | some t => (s.setWorker w { x with lifo := none, lifoStreak := x.lifoStreak + 1 }, .got t)
    | none =>
      if x.deque.top < x.deque.bottom then
        let bottom := x.deque.bottom - 1
        (s.setWorker w { x with deque := { x.deque with bottom }, lifoStreak := 0 },
          .got (x.deque.task bottom))
      else if x.pendI < x.pendN then
        (s.setWorker w { x with pendI := x.pendI + 1, lifoStreak := 0 }, .got (x.pending x.pendI))
      else (s, .go (.popLoad 0))
  | .popLoad g =>
    (s, .go (.popSeq g (s.rings (d.shardAt (s.workers w) g)).head 0))
  | .popSeq g pos n =>
    if (s.rings (d.shardAt (s.workers w) g)).ready b (pos + n) then
      if n + 1 < poolBatch then (s, .go (.popSeq g pos (n + 1))) else (s, .go (.popCas g pos (n + 1)))
    else if n = 0 then (s, .go (if g + 1 < d.nShards then .popLoad (g + 1) else .steal 1))
    else (s, .go (.popCas g pos n))
  | .popCas g pos n =>
    let x := s.workers w
    let j := d.shardAt x g
    let r := s.rings j
    if r.head = pos then
      let out := fun i => if i < n then (r.cell (pos + i)).getD 0 else x.pending i
      ((s.setRing j { r with head := pos + n }).setWorker w
        { x with shardCursor := j, lifoStreak := 0, pending := out, pendI := 1, pendN := n },
        .got (out 0))
    else (s, .go (.popLoad g))
  | .steal k =>
    let x := s.workers w
    let v := (x.stealCursor + k) % d.nTotal
    let dq := (s.workers v).deque
    let next := if k + 1 ≤ d.nTotal then .steal (k + 1) else .lifo
    if v ≠ w ∧ dq.top < dq.bottom ∧ !b then
      let s := s.setWorker v { s.workers v with deque := { dq with top := dq.top + 1 } }
      (s.setWorker w { s.workers w with stealCursor := v, lifoStreak := 0 }, .got (dq.task dq.top))
    else (s, .go next)
  | .lifo =>
    let x := s.workers w
    match x.lifo with
    | some t => (s.setWorker w { x with lifo := none, lifoStreak := 0 }, .got t)
    | none => (s, .nothing)

/-- The end of the active part of `pool_spin` when no task was found. -/
def Spin.leave (sp : Spin) : WorkerPc :=
  if sp.conta then .giraFim sp none
  else if sp.dorme0 then .get (.sleep0 0) .start
  else .parkTest

/-- A `pool_try_get` made at `site` has found task `t`. -/
def PoolState.found (s : PoolState ι) (w t : ℕ) : GetSite → PoolState ι
  | .spin sp => if sp.conta then s.setPc w (.giraFim sp (some t)) else s.run w t
  | .announced => s.setPc w (.retractCount t)
  | _ => s.run w t

/-- Where a worker goes on when a `pool_try_get` made at `site` has found nothing. -/
def GetSite.missed (core : Bool) (ocioso : ℕ) : GetSite → WorkerPc
  | .loop => if core then .vigiaTest else .prepare
  | .vigia i => .vigiaStop i
  | .prepared => if core ∧ ocioso ≠ 1 then .spinStart else .parkTest
  | .spin sp => .spinStop sp
  | .sleep0 i => .sleep0Stop i
  | .announced => .perfil
  | .elastic => .elasticGiro

/-- One step of `pool_worker_fn` and the functions it calls outside a task. `b` resolves what
`pool_try_get` leaves open and, in a timed spin, says that the time is over. -/
def poolWorkerFn (d : PoolDims) (s : PoolState ι) (w : ℕ) (b : Bool) :
    WorkerPc → Option (PoolState ι)
  | .stopTest => some (s.setPc w (if s.stop then .exited else .get .loop .start))
  | .get site p =>
    some (match poolTryGet d s w b p with
      | (s, .go p) => s.setPc w (.get site p)
      | (s, .got t) => s.found w t site
      | (s, .nothing) => s.setPc w (site.missed (d.isCore w) (s.workers w).ocioso))
  | .vigiaTest =>
    some (s.setPc w (if (w : ℤ) < s.nVigia then .get (.vigia 0) .start else .prepare))
  | .vigiaStop i =>
    some (s.setPc w
      (if s.stop = false ∧ i + 1 < poolSpinPause then .get (.vigia (i + 1)) .start else .stopTest))
  | .prepare => some ((s.setSignal w false).setPc w (.get .prepared .start))
  | .spinStart =>
    let curto := (s.workers w).ocioso = 2
    some (s.setPc w
      (if s.giroUs < 0 then .spinCount ⟨true, true, if curto then .timed 0 else .pause 0⟩
      else if s.giroUs = 0 then .parkTest
      else .get (.spin ⟨false, false, .timed 0⟩) .start))
  | .spinCount sp =>
    some ({ s with nGirando := s.nGirando + 1 }.setPc w (.get (.spin sp) .start))
  | .spinStop sp =>
    some (s.setPc w (match sp.loop with
      | .timed i =>
        if s.stop ∨ i % 64 = 63 ∧ b then sp.leave
        else .get (.spin { sp with loop := .timed (i + 1) }) .start
      | .pause i =>
        if s.stop = false ∧ i + 1 < poolSpinPause then
          .get (.spin { sp with loop := .pause (i + 1) }) .start
        else .get (.spin { sp with loop := .yield 0 }) .start
      | .yield i =>
        if s.stop = false ∧ i + 1 < poolSpinYield then
          .get (.spin { sp with loop := .yield (i + 1) }) .start
        else sp.leave))
  | .giraFim sp t =>
    let antes := s.nGirando
    let s := { s with nGirando := antes - 1 }
    some (match t with
      | some t => if antes ≤ poolGiradoresMin then s.setPc w (.giraFila t 0) else s.run w t
      | none => s.setPc w (if sp.dorme0 then .get (.sleep0 0) .start else .parkTest))
  | .giraFila t j =>
    some (if j < d.nShards then s.setPc w (.giraHead t j (s.rings j).tail) else s.run w t)
  | .giraHead t j tail =>
    some (s.setPc w (if (s.rings j).head < tail then .giraWake t .parkedCore
      else .giraFila t (j + 1)))
  | .giraWake t p =>
    some (match poolWakeSubmit d s p with
      | (s, some p) => s.setPc w (.giraWake t p)
      | (s, none) => s.run w t)
  | .sleep0Stop i =>
    some (s.setPc w
      (if s.stop = false ∧ i + 1 < poolSpinSleep0 then .get (.sleep0 (i + 1)) .start
      else .parkTest))
  | .parkTest =>
    some (s.setPc w (if s.stop then .exited else if d.isCore w then .announce else .perfil))
  | .announce => some ((s.setParked w true).setPc w .announceCount)
  | .announceCount =>
    some ({ s with nParkedCore := s.nParkedCore + 1 }.setPc w (.get .announced .start))
  | .retractCount t =>
    some ({ s with nParkedCore := s.nParkedCore - 1 }.setPc w (.retract t))
  | .retract t => some ((s.setParked w false).run w t)
  | .perfil => some (s.setPc w (.sleep s.economia))
  | .sleep eco => if (s.workers w).signal then some (s.setPc w (.sleepClear eco true)) else none
  | .sleepClear eco woken =>
    some ((s.setSignal w false).setPc w
      (if d.isElastic w then .elasticWoken
      else if d.isCore w then .wokenCount eco woken else .woken eco woken))
  | .wokenCount eco woken =>
    some ({ s with nParkedCore := s.nParkedCore - 1 }.setPc w (.woken eco woken))
  | .woken eco woken =>
    let x := s.workers w
    some (s.setWorker w { x with
      pc := .stopTest
      parked := x.parked && !d.isCore w
      ocioso := if (d.isCore w ∨ eco) ∧ woken = false then 1 else 2 })
  | .elasticStop => some (s.setPc w (if s.stop then .exited else .elasticPark))
  | .elasticPark => some ((s.setParked w true).setPc w .elasticPrepare)
  | .elasticPrepare => some ((s.setSignal w false).setPc w .elasticParked)
  | .elasticParked =>
    some (s.setPc w (if (s.workers w).parked then .perfil else .elasticWoken))
  | .elasticWoken => some (s.setPc w (if s.stop then .exited else .elasticActive))
  | .elasticActive =>
    let x := s.workers w
    some (s.setWorker w (if x.parked then { x with pc := .elasticStop }
      else { x with pc := .elasticLoop, idle := 0 }))
  | .elasticLoop => some (s.setPc w (if s.stop then .elasticStop else .get .elastic .start))
  | .elasticGiro =>
    let x := s.workers w
    some (if s.giroUs = 0 then s.setPc w .elasticStop
      else s.setWorker w { x with
        idle := x.idle + 1
        pc := if (0 < s.giroUs ∧ (x.idle + 1) % 64 = 63 ∧ b) ∨
              (s.giroUs < 0 ∧ poolElasticRetireSpins < x.idle + 1)
            then .elasticStop else .elasticLoop })
  | .run | .exited => none

/-- The head of the loop that worker `w` returns to after a task. -/
def PoolDims.nextTurn (d : PoolDims) (w : ℕ) (x : PoolWorker) : PoolWorker :=
  if d.isElastic w then { x with pc := .elasticLoop, frames := [], idle := 0 }
  else { x with pc := .stopTest, frames := [], ocioso := 0 }

/-- The submit of task `t` returns `ok`. -/
def PoolState.answer (s : PoolState ι) (t : ℕ) (ok : Bool) : PoolState ι :=
  { s with returned := (t, ok) :: s.returned }

/-- One step of the innermost `pool_run` of worker `w`, or of the submit its task is making. The
decrement of the counter is a load and a store. -/
def poolRun (d : PoolDims) (s : PoolState ι) (w t : ℕ) (rest : List Frame) :
    FramePc → Option (PoolState ι)
  | .enter =>
    let x := s.workers w
    some (s.setWorker w { x with inTask := x.inTask + 1, frames := ⟨t, .count⟩ :: rest })
  | .count =>
    let x := s.workers w
    some (s.setWorker w { x with startCount := x.startCount + 1, frames := ⟨t, .user⟩ :: rest })
  | .user => none
  | .stopTest u =>
    some (if s.stop then (s.answer u false).setFrames w (⟨t, .user⟩ :: rest)
      else s.setFrames w (⟨t, .inc u⟩ :: rest))
  | .inc u => some ((s.addCtr (d.ctrOf w) 1).setFrames w (⟨t, .place u⟩ :: rest))
  | .place u =>
    let x := s.workers w
    some (match x.lifo with
      | none =>
        (s.answer u true).setWorker w { x with lifo := some u, frames := ⟨t, .user⟩ :: rest }
      | some old =>
        let dq := x.deque
        if dq.top + poolDequeCap ≤ dq.bottom then
          s.setWorker w { x with
            lifo := some u, frames := ⟨old, .enter⟩ :: ⟨t, .nested u⟩ :: rest }
        else
          s.setWorker w { x with
            lifo := some u
            deque := { dq with
              bottom := dq.bottom + 1, task := Function.update dq.task dq.bottom old }
            frames := ⟨t, .wake u (.parked (.deque w))⟩ :: rest })
  | .nested _ => none
  | .wake u p =>
    some (match poolWakeSubmit d s p with
      | (s, some p) => s.setFrames w (⟨t, .wake u p⟩ :: rest)
      | (s, none) => (s.answer u true).setFrames w (⟨t, .user⟩ :: rest))
  | .leave =>
    let x := s.workers w
    some (s.setWorker w { x with inTask := x.inTask - 1, frames := ⟨t, .ctrLoad⟩ :: rest })
  | .ctrLoad => some (s.setFrames w (⟨t, .ctrStore (s.ctrs (d.ctrOf w))⟩ :: rest))
  | .ctrStore v =>
    let s := { s with
      ctrs := Function.update s.ctrs (d.ctrOf w) (v - 1), finished := t :: s.finished }
    some (match rest with
      | ⟨t, .nested u⟩ :: rest => (s.answer u true).setFrames w (⟨t, .user⟩ :: rest)
      | _ => s.setWorker w (d.nextTurn w (s.workers w)))

section Client

variable [DecidableEq ι]

/-- One step of `pool_submit_relative` called by client `c` with task `t`. `b` tells whether the
cell at `tail` has been recycled. -/
def poolSubmitRelative (d : PoolDims) (s : PoolState ι) (c : ι) (t : ℕ) (b : Bool) :
    SubmitPc → PoolState ι
  | .stopTest =>
    if s.stop then (s.answer t false).setClient c .idle else s.setClient c (.submit t .pick)
  | .pick =>
    { s with submitRr := incU32 s.submitRr }.setClient c
      (.submit t (.inc (s.submitRr % d.nShards)))
  | .inc j => (s.addCtr j 1).setClient c (.submit t (.pushLoad j))
  | .pushLoad j => s.setClient c (.submit t (.pushSeq j (s.rings j).tail))
  | .pushSeq j pos =>
    let r := s.rings j
    s.setClient c (.submit t (
      if (r.cell pos).isSome then .pushLoad j
      else if pos < r.tail ∨ b ∧ pos < r.head + poolShardCap then .pushCas j pos
      else .undo j))
  | .pushCas j pos =>
    let r := s.rings j
    if r.tail = pos then
      (s.setRing j { r with tail := pos + 1 }).setClient c (.submit t (.publish j pos))
    else s.setClient c (.submit t (.pushLoad j))
  | .publish j pos =>
    let r := s.rings j
    (s.setRing j { r with cell := Function.update r.cell pos (some t) }).setClient c
      (.submit t (.wake (.parked (.ring j))))
  | .undo j => (s.addCtr j (-1)).setClient c (.submit t .retry)
  | .retry =>
    if s.stop then (s.answer t false).setClient c .idle else s.setClient c (.submit t .pick)
  | .wake p =>
    match poolWakeSubmit d s p with
    | (s, some p) => s.setClient c (.submit t (.wake p))
    | (s, none) => s.setClient c (.submit t .mon)
  | .mon =>
    if s.monDormindo then s.setClient c (.submit t .monClaim)
    else (s.answer t true).setClient c .idle
  | .monClaim =>
    if s.monDormindo then { s with monDormindo := false }.setClient c (.submit t .monSignal)
    else (s.answer t true).setClient c .idle
  | .monSignal => ({ s with monSignal := true }.answer t true).setClient c .idle

/-- One step of the call that client `c` is in. -/
def poolClient (d : PoolDims) (s : PoolState ι) (c : ι) (b : Bool) :
    ClientPc → Option (PoolState ι)
  | .idle => none
  | .submit t p => some (poolSubmitRelative d s c t b p)
  | .waitIdle i sum =>
    some (s.setClient c (match poolTotalPending d s i sum with
      | .inl (i, sum) => .waitIdle i sum
      | .inr sum => if 0 < sum then .waitIdle 0 0 else .idle))
  | .destroyStop => some (s.setClient c (if s.stop then .idle else .destroyWait 0 0))
  | .destroyWait i sum =>
    some (s.setClient c (match poolTotalPending d s i sum with
      | .inl (i, sum) => .destroyWait i sum
      | .inr sum => if 0 < sum then .destroyWait 0 0 else .setStop))
  | .setStop => some ({ s with stop := true }.setClient c .wakeMon)
  | .wakeMon => some ({ s with monSignal := true }.setClient c .joinMon)
  | .joinMon =>
    match s.monitor with
    | .exited => some (s.setClient c (if 0 < d.nTotal then .wakeWorker 0 else .idle))
    | _ => none
  | .wakeWorker i => some ((s.setSignal i true).setClient c (.joinWorker i))
  | .joinWorker i =>
    match (s.workers i).pc with
    | .exited => some (s.setClient c (if i + 1 < d.nTotal then .wakeWorker (i + 1) else .idle))
    | _ => none
  | .vigias n =>
    let n := min (max n 0) d.nCore
    some ({ s with nVigia := n }.setClient c (if 0 < n then .vigiaClaim n 0 else .idle))
  | .vigiaClaim n i =>
    some (if (s.workers i).parked then (s.setParked i false).setClient c (.vigiaSignal n i)
      else s.setClient c (if (i : ℤ) + 1 < n then .vigiaClaim n (i + 1) else .idle))
  | .vigiaSignal n i =>
    some ((s.setSignal i true).setClient c
      (if (i : ℤ) + 1 < n then .vigiaClaim n (i + 1) else .idle))
  | .perfil eco => some ({ s with economia := eco }.setClient c (.perfilGiro eco))
  | .perfilGiro eco =>
    some ({ s with giroUs := if eco then poolEconomiaGiroUs else -1 }.setClient c
      (if eco then .vigias 0 else .perfilMon))
  | .perfilMon =>
    some (if s.monDormindo then { s with monDormindo := false }.setClient c .perfilSignal
      else s.setClient c .idle)
  | .perfilSignal => some ({ s with monSignal := true }.setClient c .idle)

end Client

/-- One step of `pool_monitor_fn`, less its handling of the system timer. -/
def poolMonitorFn (d : PoolDims) (s : PoolState ι) : MonitorPc → Option (PoolState ι)
  | .start => some { s with monSignal := false, monitor := .stopTest }
  | .stopTest => some { s with monitor := if s.stop then .exited else .perfil }
  | .perfil => some { s with monitor := if s.economia then .pending 0 0 else .sleep false }
  | .pending i sum =>
    some { s with monitor := match poolTotalPending d s i sum with
      | .inl (i, sum) => .pending i sum
      | .inr sum => if sum = 0 then .prepare else .sleep false }
  | .prepare => some { s with monSignal := false, monitor := .announce }
  | .announce => some { s with monDormindo := true, monitor := .pendingAgain 0 0 }
  | .pendingAgain i sum =>
    some { s with monitor := match poolTotalPending d s i sum with
      | .inl (i, sum) => .pendingAgain i sum
      | .inr sum => if sum = 0 then .sleep true else .retract }
  | .retract => some { s with monDormindo := false, monitor := .sleep false }
  | .sleep _ => if s.monSignal then some { s with monitor := .sleepClear } else none
  | .sleepClear => some { s with monSignal := false, monitor := .awake }
  | .awake => some { s with monDormindo := false, monitor := .awakeStop }
  | .awakeStop => some { s with monitor := if s.stop then .exited else .stuckCount 0 0 }
  | .stuckCount i stuck =>
    some { s with monitor :=
      if i < d.nWorkers then .stuckTask i stuck (s.workers i).startCount
      else if stuck < poolStuckMin then .stopTest else .fila 0 stuck }
  | .stuckTask i stuck count =>
    let x := s.workers i
    some { s.setWorker i { x with monLast := count } with
      monitor := .stuckCount (i + 1)
        (if x.inTask ≠ 0 ∧ count = x.monLast then stuck + 1 else stuck) }
  | .fila j stuck =>
    some { s with monitor :=
      if j < d.nShards then .filaHead j stuck (s.rings j).tail else .stopTest }
  | .filaHead j stuck tail =>
    some { s with monitor :=
      if (s.rings j).head < tail then .elastic d.nWorkers stuck else .fila (j + 1) stuck }
  | .elastic e toWake =>
    some { s with monitor :=
      if e < d.nTotal ∧ 0 < toWake then
        if (s.workers e).parked then .claim e toWake else .elastic (e + 1) toWake
      else .stopTest }
  | .claim e toWake =>
    some (if (s.workers e).parked then { s.setParked e false with monitor := .signal e toWake }
      else { s with monitor := .elastic (e + 1) toWake })
  | .signal e toWake =>
    some { s.setSignal e true with monitor := .elastic (e + 1) (toWake - 1) }
  | .exited => none

inductive PoolCall
  | submit
  | waitIdle
  | destroy
  | vigias (n : ℤ)
  | perfil (eco : Bool)
  | giroMaxUs (us : ℤ)

/-- Who moves, and the choices left open. The task on top of worker `w`'s stack submits another
(`spawn`) or returns (`finish`). A wait may end unsignalled (`lapse`): by its timeout, which
leaves the signal alone on Linux and clears it on Windows, or on Windows for no reason at all. -/
inductive PoolLabel (ι : Type*)
  | call (c : ι) (k : PoolCall)
  | client (c : ι) (b : Bool)
  | worker (w : ℕ) (b : Bool)
  | spawn (w : ℕ)
  | finish (w : ℕ)
  | lapse (w : ℕ) (clear woken : Bool)
  | monitor
  | monitorLapse (clear : Bool)

def poolStep [DecidableEq ι] (d : PoolDims) (s : PoolState ι) :
    PoolLabel ι → Option (PoolState ι)
  | .call c k =>
    match s.clients c with
    | .idle => some (match k with
      | .submit =>
        { s with submitted := s.submitted + 1 }.setClient c (.submit s.submitted .stopTest)
      | .waitIdle => s.setClient c (.waitIdle 0 0)
      | .destroy => s.setClient c .destroyStop
      | .vigias n => s.setClient c (.vigias n)
      | .perfil eco => s.setClient c (.perfil eco)
      | .giroMaxUs us => { s with giroUs := max us (-1) })
    | _ => none
  | .client c b => poolClient d s c b (s.clients c)
  | .worker w b =>
    if w < d.nTotal then
      match (s.workers w).frames with
      | [] => poolWorkerFn d s w b (s.workers w).pc
      | f :: rest => poolRun d s w f.task rest f.pc
    else none
  | .spawn w =>
    match (s.workers w).frames with
    | ⟨t, .user⟩ :: rest =>
      some ({ s with submitted := s.submitted + 1 }.setFrames w
        (⟨t, .stopTest s.submitted⟩ :: rest))
    | _ => none
  | .finish w =>
    match (s.workers w).frames with
    | ⟨t, .user⟩ :: rest => some (s.setFrames w (⟨t, .leave⟩ :: rest))
    | _ => none
  | .lapse w clear woken =>
    match (s.workers w).pc with
    | .sleep eco =>
      some (s.setPc w (
        if clear then .sleepClear eco woken
        else if d.isElastic w then .elasticWoken
        else if d.isCore w then .wokenCount eco false else .woken eco false))
    | _ => none
  | .monitor => poolMonitorFn d s s.monitor
  | .monitorLapse clear =>
    match s.monitor with
    | .sleep _ => some { s with monitor := if clear then .sleepClear else .awake }
    | _ => none

/-- `pool_create_relative`, once every thread has started. -/
def poolCreateRelative (d : PoolDims) : PoolState ι where
  stop := false
  ctrs := fun _ => 0
  rings := fun _ => ⟨0, 0, fun _ => none⟩
  workers := fun w => {
    shardCursor := w % d.nShards
    stealCursor := w
    startCount := 0
    inTask := 0
    monLast := 0
    lifo := none
    lifoStreak := 0
    pending := fun _ => 0
    pendI := 0
    pendN := 0
    deque := ⟨0, 0, fun _ => 0⟩
    parked := d.isElastic w
    signal := false
    ocioso := 0
    idle := 0
    pc := if d.isElastic w then .elasticStop else .stopTest
    frames := [] }
  submitRr := 0
  wakeRr := 0
  nParkedCore := 0
  nGirando := 0
  nVigia := 0
  giroUs := -1
  economia := false
  monDormindo := false
  monSignal := false
  monitor := .start
  clients := fun _ => .idle
  submitted := 0
  returned := []
  finished := []

def poolSystem [DecidableEq ι] (d : PoolDims) : System (PoolState ι) (PoolLabel ι) where
  init := fun s => s = poolCreateRelative d
  step := poolStep d

end Xplatbase.ThreadPool
