import Mathlib.Data.Finset.Basic
import Xplatbase.Lib.System

/-! The gate `g_init_state`: `memop_init` makes the mutexes of the pool and `memop_shutdown`
destroys them, whatever threads call them at a time. One atomic access or one call on a mutex per
step; what runs under a mutex is one step. -/
namespace Xplatbase.MemoryPool
open Xplatbase.Lib

/-- `g_init_state`. -/
inductive InitState
  | uninit
  | busy
  | ready
  deriving DecidableEq

inductive PoolMutex
  | lock
  | cacheLock
  | siteLock
  deriving DecidableEq

def PoolMutex.all : Finset PoolMutex := {.lock, .cacheLock, .siteLock}

theorem PoolMutex.mem_all (m : PoolMutex) : m ∈ PoolMutex.all := by
  cases m with
  | lock => decide
  | cacheLock => decide
  | siteLock => decide

/-- What follows in the call that `memop_init` is at the head of. -/
inductive AfterInit
  | nothing
  /-- `get_heap`, and the call of the thread that needs a heap. -/
  | getHeap
  /-- `memop_get_stats`, `memop_span_count` or `memop_snapshot_spans`. -/
  | report
  deriving DecidableEq

inductive GatePc
  | idle
  | initGet (a : AfterInit)
  | initCas (a : AfterInit)
  | mutexInit (m : PoolMutex) (a : AfterInit)
  | setReady (a : AfterInit)
  /-- Before `xplat_instance_register`. -/
  | register (a : AfterInit)
  | initReturns (a : AfterInit)
  | getHeap
  /-- In a call that takes the mutexes, each any number of times. -/
  | works (ended : Bool)
  | shutdownGet
  | shutdownCas
  | takeHeaps
  | freeSegments
  | mutexDestroy (m : PoolMutex)
  | clearHeap
  | setUninit
  | purgeGet
  | purge
  /-- Before the return of `memop_shutdown` or `memop_purge`. -/
  | returns
  deriving DecidableEq

/-- `made`: the mutexes that are initialised. -/
structure Gate where
  state : InitState
  made : Finset PoolMutex
  deriving DecidableEq

/-- `heap`: who has a heap in its `g_heap`. -/
structure GateState (ι : Type*) where
  gate : Gate
  heap : ι → Bool
  pcs : ι → GatePc

inductive GateCall
  | init
  /-- An allocation, the start of a thread, or a release by a thread that has a heap. -/
  | work
  | report
  | endThread
  | purge
  | shutdown
  deriving DecidableEq

inductive GateLabel (ι : Type*)
  | call (i : ι) (c : GateCall)
  /-- `granted`: there is memory for a heap. -/
  | step (i : ι) (granted : Bool)
  /-- A call that takes the mutexes takes `m` and lets go of it. -/
  | takes (i : ι) (m : PoolMutex)

def GateCall.enter (heap : Bool) : GateCall → GatePc
  | .init => .initGet .nothing
  | .work => if heap then .works false else .initGet .getHeap
  | .report => .initGet .report
  | .endThread => if heap then .works true else .idle
  | .purge => .purgeGet
  | .shutdown => .shutdownGet

def AfterInit.next : AfterInit → GatePc
  | .nothing => .idle
  | .getHeap => .getHeap
  | .report => .works false

/-- The order in which `memop_init` makes the mutexes. -/
def initNext (a : AfterInit) : PoolMutex → GatePc
  | .lock => .mutexInit .cacheLock a
  | .cacheLock => .mutexInit .siteLock a
  | .siteLock => .setReady a

/-- The order in which `memop_shutdown` destroys the mutexes. -/
def destroyNext : PoolMutex → GatePc
  | .cacheLock => .mutexDestroy .lock
  | .lock => .mutexDestroy .siteLock
  | .siteLock => .clearHeap

/-- A step of a thread, with what it does to the gate and to its own `g_heap`. -/
def gateTurn (g : Gate) (heap granted : Bool) : GatePc → Option (Gate × Bool × GatePc)
  | .idle => none
  | .initGet a =>
    some (g, heap, match g.state with
      | .ready => .initReturns a
      -- it yields, and reads again
      | .busy => .initGet a
      | .uninit => .initCas a)
  | .initCas a =>
    if g.state = .uninit then some ({ g with state := .busy }, heap, .mutexInit .lock a)
    else some (g, heap, .initGet a)
  | .mutexInit m a => some ({ g with made := insert m g.made }, heap, initNext a m)
  | .setReady a => some ({ g with state := .ready }, heap, .register a)
  | .register a => some (g, heap, .initReturns a)
  | .initReturns a => some (g, heap, a.next)
  | .getHeap => some (g, granted, if granted then .works false else .idle)
  | .works ended => some (g, heap && !ended, .idle)
  | .shutdownGet => some (g, heap, if g.state = .ready then .shutdownCas else .returns)
  | .shutdownCas =>
    if g.state = .ready then some ({ g with state := .busy }, heap, .takeHeaps)
    else some (g, heap, .returns)
  | .takeHeaps => some (g, heap, .freeSegments)
  | .freeSegments => some (g, heap, .mutexDestroy .cacheLock)
  | .mutexDestroy m => some ({ g with made := g.made.erase m }, heap, destroyNext m)
  | .clearHeap => some (g, false, .setUninit)
  | .setUninit => some ({ g with state := .uninit }, heap, .returns)
  | .purgeGet => some (g, heap, if g.state = .ready then .purge else .returns)
  | .purge => some (g, heap, .returns)
  | .returns => some (g, heap, .idle)

section
variable {ι : Type*} [DecidableEq ι]

def GateState.turn (s : GateState ι) (i : ι) : Gate × Bool × GatePc → GateState ι
  | (gate, heap, pc) =>
    { gate, heap := Function.update s.heap i heap, pcs := Function.update s.pcs i pc }

def gateStep (s : GateState ι) : GateLabel ι → Option (GateState ι)
  | .call i c =>
    if s.pcs i = .idle then some (s.turn i (s.gate, s.heap i, c.enter (s.heap i))) else none
  | .step i granted => (gateTurn s.gate (s.heap i) granted (s.pcs i)).map (s.turn i)
  | .takes i _ =>
    match s.pcs i with
    | .works _ => some s
    | _ => none

def gateSystem (ι : Type*) [DecidableEq ι] : System (GateState ι) (GateLabel ι) where
  init := fun s => s = ⟨⟨.uninit, ∅⟩, fun _ => false, fun _ => .idle⟩
  step := gateStep

end

/-! ### What is done to a mutex -/

inductive MutexOp
  | init (m : PoolMutex)
  | lock (m : PoolMutex)
  | destroy (m : PoolMutex)
  deriving DecidableEq

def MutexOp.Meets (made : Finset PoolMutex) : MutexOp → Prop
  | .init m => m ∉ made
  | .lock m | .destroy m => m ∈ made

def GatePc.mutexOp : GatePc → Option MutexOp
  | .mutexInit m _ => some (.init m)
  | .getHeap | .takeHeaps => some (.lock .lock)
  | .mutexDestroy m => some (.destroy m)
  | .purge | .freeSegments => some (.lock .cacheLock)
  | _ => none

def GateState.mutexOp {ι : Type*} (s : GateState ι) : GateLabel ι → Option MutexOp
  | .call .. => none
  | .step i _ => (s.pcs i).mutexOp
  | .takes _ m => some (.lock m)

/-! ### One thread at a time makes or destroys them -/

def GatePc.body : GatePc → Option (Finset PoolMutex)
  | .mutexInit .lock _ => some ∅
  | .mutexInit .cacheLock _ => some {.lock}
  | .mutexInit .siteLock _ => some {.lock, .cacheLock}
  | .setReady _ | .takeHeaps | .freeSegments | .mutexDestroy .cacheLock => some PoolMutex.all
  | .mutexDestroy .lock => some {.lock, .siteLock}
  | .mutexDestroy .siteLock => some {.siteLock}
  | .clearHeap | .setUninit => some ∅
  | _ => none

inductive Gate.Free : Gate → Prop
  | ready : Free ⟨.ready, PoolMutex.all⟩
  | uninit : Free ⟨.uninit, ∅⟩

inductive OneBody {ι : Type*} (s : GateState ι) : Prop
  | free (hnone : ∀ i, (s.pcs i).body = none) (hfree : s.gate.Free)
  | held (i : ι) (made : Finset PoolMutex) (hi : (s.pcs i).body = some made)
      (hothers : ∀ j, j ≠ i → (s.pcs j).body = none) (hgate : s.gate = ⟨.busy, made⟩)

section
variable {g g' : Gate} {heap heap' granted : Bool} {pc pc' : GatePc} {made : Finset PoolMutex}

/-- The thread that is at work goes on with it, or it has done all of it. -/
theorem turn_body (hbody : pc.body = some made)
    (hs : gateTurn ⟨.busy, made⟩ heap granted pc = some (g', heap', pc')) :
    (∃ made', pc'.body = some made' ∧ g' = ⟨.busy, made'⟩) ∨ pc'.body = none ∧ g'.Free := by
  cases pc with
  | mutexInit m a =>
    cases m with
    | lock =>
      cases hbody
      cases hs
      exact .inl ⟨_, rfl, rfl⟩
    | cacheLock =>
      cases hbody
      cases hs
      exact .inl ⟨_, rfl, congrArg (Gate.mk .busy) (by decide)⟩
    | siteLock =>
      cases hbody
      cases hs
      exact .inl ⟨_, rfl, congrArg (Gate.mk .busy) (by decide)⟩
  | setReady a =>
    cases hbody
    cases hs
    exact .inr ⟨rfl, .ready⟩
  | takeHeaps | freeSegments =>
    cases hbody
    cases hs
    exact .inl ⟨_, rfl, rfl⟩
  | mutexDestroy m =>
    cases m with
    | cacheLock =>
      cases hbody
      cases hs
      exact .inl ⟨_, rfl, congrArg (Gate.mk .busy) (by decide)⟩
    | lock =>
      cases hbody
      cases hs
      exact .inl ⟨_, rfl, congrArg (Gate.mk .busy) (by decide)⟩
    | siteLock =>
      cases hbody
      cases hs
      exact .inl ⟨_, rfl, congrArg (Gate.mk .busy) (by decide)⟩
  | clearHeap =>
    cases hbody
    cases hs
    exact .inl ⟨_, rfl, rfl⟩
  | setUninit =>
    cases hbody
    cases hs
    exact .inr ⟨rfl, .uninit⟩
  | _ => cases hbody

theorem enter_body (heap : Bool) (c : GateCall) : (c.enter heap).body = none := by
  cases c <;> cases heap <;> rfl

theorem next_body (a : AfterInit) : a.next.body = none := by
  cases a <;> rfl

/-- Another thread leaves the gate as it is, or begins to work on the mutexes if nobody does. -/
theorem turn_other (hbody : pc.body = none)
    (hs : gateTurn g heap granted pc = some (g', heap', pc')) :
    g' = g ∧ pc'.body = none ∨
      g.state ≠ .busy ∧ g' = ⟨.busy, g.made⟩ ∧ (g.Free → pc'.body = some g.made) := by
  cases pc with
  | idle => cases hs
  | initGet a =>
    cases hs
    refine .inl ⟨rfl, ?_⟩
    cases g.state <;> rfl
  | initCas a =>
    simp only [gateTurn] at hs
    split_ifs at hs with hg
    · cases hs
      refine .inr ⟨hg ▸ InitState.noConfusion, rfl, ?_⟩
      intro hfree
      cases hfree with
      | ready => cases hg
      | uninit => rfl
    · cases hs
      exact .inl ⟨rfl, rfl⟩
  | initReturns a =>
    cases hs
    exact .inl ⟨rfl, next_body a⟩
  | getHeap =>
    cases hs
    refine .inl ⟨rfl, ?_⟩
    cases heap' <;> rfl
  | shutdownGet =>
    cases hs
    refine .inl ⟨rfl, ?_⟩
    split_ifs <;> rfl
  | shutdownCas =>
    simp only [gateTurn] at hs
    split_ifs at hs with hg
    · cases hs
      refine .inr ⟨hg ▸ InitState.noConfusion, rfl, ?_⟩
      intro hfree
      cases hfree with
      | ready => rfl
      | uninit => cases hg
    · cases hs
      exact .inl ⟨rfl, rfl⟩
  | purgeGet =>
    cases hs
    refine .inl ⟨rfl, ?_⟩
    split_ifs <;> rfl
  | register | works | purge | returns =>
    cases hs
    exact .inl ⟨rfl, rfl⟩
  | mutexInit m _ | mutexDestroy m => cases m <;> cases hbody
  | setReady | takeHeaps | freeSegments | clearHeap | setUninit => cases hbody

end

/-! ### The steps of all threads -/

section
variable {ι : Type*} [DecidableEq ι] {s t : GateState ι} {i : ι}

theorem turn_pcs_self (s : GateState ι) (i : ι) (r : Gate × Bool × GatePc) :
    (s.turn i r).pcs i = r.2.2 := Function.update_self ..

theorem turn_pcs_of_ne (s : GateState ι) (r : Gate × Bool × GatePc) {j : ι} (hj : j ≠ i) :
    (s.turn i r).pcs j = s.pcs j := Function.update_of_ne hj ..

theorem turn_heap_self (s : GateState ι) (i : ι) (r : Gate × Bool × GatePc) :
    (s.turn i r).heap i = r.2.1 := Function.update_self ..

theorem turn_heap_of_ne (s : GateState ι) (r : Gate × Bool × GatePc) {j : ι} (hj : j ≠ i) :
    (s.turn i r).heap j = s.heap j := Function.update_of_ne hj ..

/-- What a label does: it begins a call, it is a step of one, or it takes a mutex for a while. -/
theorem gateStep_cases {l : GateLabel ι} (hs : gateStep s l = some t) :
    (∃ i c, l = .call i c ∧ s.pcs i = .idle ∧ t = s.turn i (s.gate, s.heap i, c.enter (s.heap i))) ∨
    (∃ i granted r, l = .step i granted ∧
      gateTurn s.gate (s.heap i) granted (s.pcs i) = some r ∧ t = s.turn i r) ∨
    ∃ i m ended, l = .takes i m ∧ s.pcs i = .works ended ∧ t = s := by
  cases l with
  | call i c =>
    simp only [gateStep] at hs
    split_ifs at hs with hidle
    exact .inl ⟨i, c, rfl, hidle, (Option.some.inj hs).symm⟩
  | step i granted =>
    obtain ⟨r, hr, ht⟩ := Option.map_eq_some_iff.mp hs
    exact .inr (.inl ⟨i, granted, r, rfl, hr, ht.symm⟩)
  | takes i m =>
    cases hpc : s.pcs i with
    | works ended =>
      simp only [gateStep, hpc] at hs
      exact .inr (.inr ⟨i, m, ended, rfl, hpc, (Option.some.inj hs).symm⟩)
    | _ => simp [gateStep, hpc] at hs

/-- A thread that does not work on the mutexes, before or after, and leaves the gate alone. -/
theorem OneBody.aside (h : OneBody s) (hi : (s.pcs i).body = none) {heap : Bool} {pc : GatePc}
    (hpc : pc.body = none) : OneBody (s.turn i (s.gate, heap, pc)) := by
  have hbody (j : ι) : ((s.turn i (s.gate, heap, pc)).pcs j).body = (s.pcs j).body := by
    by_cases hj : j = i
    · rw [hj, turn_pcs_self, hpc, hi]
    · rw [turn_pcs_of_ne _ _ hj]
  cases h with
  | free hnone hfree => exact .free (fun j => (hbody j).trans (hnone j)) hfree
  | held j made hj hothers hgate =>
    refine .held j made ((hbody j).trans hj) (fun k hk => (hbody k).trans (hothers k hk)) hgate

theorem OneBody.turn (h : OneBody s) {granted : Bool} {r : Gate × Bool × GatePc}
    (hs : gateTurn s.gate (s.heap i) granted (s.pcs i) = some r) : OneBody (s.turn i r) := by
  obtain ⟨g, heap, pc⟩ := r
  cases hbody : (s.pcs i).body with
  | none =>
    rcases turn_other hbody hs with ⟨rfl, hpc⟩ | ⟨hbusy, rfl, hpc⟩
    · exact h.aside hbody hpc
    · cases h with
      | free hnone hfree =>
        refine .held i s.gate.made ?_ ?_ rfl
        · rw [turn_pcs_self]
          exact hpc hfree
        · intro j hj
          rw [turn_pcs_of_ne _ _ hj]
          exact hnone j
      | held j made _ _ hgate =>
        rw [hgate] at hbusy
        exact absurd rfl hbusy
  | some made =>
    cases h with
    | free hnone _ => exact absurd (hbody.symm.trans (hnone i)) (Option.some_ne_none _)
    | held j made' hj hothers hgate =>
      have hji : j = i := by
        by_contra hne
        exact absurd (hbody.symm.trans (hothers i fun he => hne he.symm)) (Option.some_ne_none _)
      subst hji
      obtain rfl := Option.some.inj (hbody.symm.trans hj)
      have hrest (k : ι) (hk : k ≠ j) : ((s.turn j (g, heap, pc)).pcs k).body = none := by
        rw [turn_pcs_of_ne _ _ hk]
        exact hothers k hk
      rw [hgate] at hs
      rcases turn_body hbody hs with ⟨made', hpc, rfl⟩ | ⟨hpc, hfree⟩
      · refine .held j made' ?_ hrest rfl
        rw [turn_pcs_self]
        exact hpc
      · refine .free ?_ hfree
        intro k
        by_cases hk : k = j
        · rw [hk, turn_pcs_self]
          exact hpc
        · exact hrest k hk

theorem OneBody.step (h : OneBody s) {l : GateLabel ι} (hs : gateStep s l = some t) :
    OneBody t := by
  rcases gateStep_cases hs with ⟨i, c, -, hidle, rfl⟩ | ⟨i, granted, r, -, hr, rfl⟩ |
    ⟨i, m, ended, -, -, rfl⟩
  · have hbody : (s.pcs i).body = none := by
      rw [hidle]
      rfl
    exact h.aside hbody (enter_body _ c)
  · exact h.turn hr
  · exact h

omit [DecidableEq ι] in
theorem OneBody.init : OneBody (⟨⟨.uninit, ∅⟩, fun _ => false, fun _ => .idle⟩ : GateState ι) :=
  .free (fun _ => rfl) .uninit

theorem oneBody_run (h : (gateSystem ι).Reachable s) : OneBody s := by
  refine h.invariant ?_ fun _ _ _ hs hstep => hs.step hstep
  rintro _ rfl
  exact .init

/-- The gate and the mutexes, as the thread that is at work sees them. -/
theorem OneBody.gate_eq (h : OneBody s) {made : Finset PoolMutex}
    (hi : (s.pcs i).body = some made) : s.gate = ⟨.busy, made⟩ := by
  cases h with
  | free hnone _ => exact absurd (hi.symm.trans (hnone i)) (Option.some_ne_none _)
  | held j made' hj hothers hgate =>
    by_cases hji : i = j
    · subst hji
      obtain rfl := Option.some.inj (hi.symm.trans hj)
      exact hgate
    · exact absurd (hi.symm.trans (hothers i hji)) (Option.some_ne_none _)

theorem OneBody.only (h : OneBody s) {j : ι} (hi : (s.pcs i).body ≠ none)
    (hj : (s.pcs j).body ≠ none) : i = j := by
  cases h with
  | free hnone _ => exact absurd (hnone i) hi
  | held k made _ hothers _ =>
    have hik : i = k := by
      by_contra hne
      exact hi (hothers i hne)
    have hjk : j = k := by
      by_contra hne
      exact hj (hothers j hne)
    exact hik.trans hjk.symm

theorem meets_body {pc : GatePc} {made : Finset PoolMutex} {op : MutexOp}
    (hbody : pc.body = some made) (hop : pc.mutexOp = some op) : op.Meets made := by
  cases pc with
  | mutexInit m a =>
    cases m <;> cases hbody <;> cases hop <;> simp [MutexOp.Meets]
  | mutexDestroy m =>
    cases m <;> cases hbody <;> cases hop <;> simp [MutexOp.Meets, PoolMutex.all]
  | takeHeaps | freeSegments =>
    cases hbody
    cases hop
    exact PoolMutex.mem_all _
  | setReady | clearHeap | setUninit => cases hop
  | _ => cases hbody

/-- Whatever calls overlap, one thread at a time makes the mutexes or destroys them; none is made
twice, nor destroyed before it is made again. -/
theorem mutexes_made_once (s : GateState ι) (h : (gateSystem ι).Reachable s) :
    (∀ i m, (s.pcs i).mutexOp = some (.init m) → m ∉ s.gate.made) ∧
    (∀ i m, (s.pcs i).mutexOp = some (.destroy m) → m ∈ s.gate.made) ∧
    ∀ i j, (s.pcs i).body ≠ none → (s.pcs j).body ≠ none → i = j := by
  have hone := oneBody_run h
  have hmeets {i : ι} {op : MutexOp} (hop : (s.pcs i).mutexOp = some op)
      (hbody : (s.pcs i).body ≠ none) : op.Meets s.gate.made := by
    obtain ⟨made, hmade⟩ := Option.ne_none_iff_exists'.mp hbody
    rw [hone.gate_eq hmade]
    exact meets_body hmade hop
  refine ⟨?_, ?_, fun i j => hone.only⟩
  · intro i m hop
    refine hmeets hop ?_
    cases hpc : s.pcs i with
    | mutexInit m' a => cases m' <;> exact Option.some_ne_none _
    | _ => simp [hpc, GatePc.mutexOp] at hop
  · intro i m hop
    refine hmeets hop ?_
    cases hpc : s.pcs i with
    | mutexDestroy m' => cases m' <;> exact Option.some_ne_none _
    | _ => simp [hpc, GatePc.mutexOp] at hop

/-- Two threads find no mutex; one makes them, and the other waits for it. -/
def twoInits : List (GateLabel Bool) :=
  [.call true .init, .call false .work, .step true true, .step false true, .step true true,
    .step false true, .step true true, .step false true]

theorem mutexes_made_once_two :
    ∃ s : GateState Bool, (gateSystem Bool).Reachable s ∧ s.gate.made = {.lock} ∧
      s.pcs false = .initGet .getHeap ∧
      ∀ m, (s.pcs true).mutexOp = some (.init m) → m ∉ s.gate.made := by
  have hout : ((gateSystem Bool).exec ⟨⟨.uninit, ∅⟩, fun _ => false, fun _ => .idle⟩ twoInits).map
      (fun s => decide (s.gate.made = {.lock} ∧ s.pcs false = .initGet .getHeap)) = some true := by
    decide +kernel
  obtain ⟨s, hrun, hend⟩ := Option.map_eq_some_iff.mp hout
  obtain ⟨hmade, hwaits⟩ := of_decide_eq_true hend
  have hreach : (gateSystem Bool).Reachable s := .exec (.init rfl) hrun
  exact ⟨s, hreach, hmade, hwaits, (mutexes_made_once s hreach).1 true⟩

end
end Xplatbase.MemoryPool
