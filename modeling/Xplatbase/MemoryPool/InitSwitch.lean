import Mathlib.Logic.Relation
import Xplatbase.Lib.AtomicObject
import Xplatbase.MemoryPool.InitGate

/-! What `memop_init`, `memop_shutdown` and `memop_purge` are to their callers: operations on a
switch that take effect at once, each of which returns. -/
namespace Xplatbase.MemoryPool
open Xplatbase.Lib

/-! ### A switch -/

inductive SwitchOp
  | init
  | shutdown
  | purge
  deriving DecidableEq

inductive SwitchTurn : Bool → SwitchOp → Unit → Bool → Prop
  | init {b} : SwitchTurn b .init () true
  | shutdown {b} : SwitchTurn b .shutdown () false
  | purge {b} : SwitchTurn b .purge () b

def switchObject : SeqObject Bool SwitchOp Unit where
  init := false
  step := SwitchTurn

/-- `memop_init` takes effect when it finds the pool ready or makes it so, `memop_shutdown` when it
finds it not ready or closes the gate, and `memop_purge` with its test. -/
def GatePc.phase : GatePc → CallPhase SwitchOp Unit
  | .initGet _ | .initCas _ | .mutexInit .. | .setReady _ => .called .init
  | .register _ | .initReturns _ => .answered ()
  | .shutdownGet | .shutdownCas => .called .shutdown
  | .takeHeaps | .freeSegments | .mutexDestroy _ | .clearHeap | .setUninit => .answered ()
  | .purgeGet => .called .purge
  | .purge | .returns => .answered ()
  | .idle | .getHeap | .works _ => .idle

def GateState.phase {ι : Type*} (s : GateState ι) (i : ι) : CallPhase SwitchOp Unit :=
  (s.pcs i).phase

def Gate.isReady (g : Gate) : Bool := g.state = .ready

def GateLabel.party {ι : Type*} : GateLabel ι → ι
  | .call i _ | .step i _ | .takes i _ => i

def GateState.event {ι : Type*} (s : GateState ι) (l : GateLabel ι) (t : GateState ι) :
    Option (CallEvent ι SwitchOp Unit) :=
  (s.phase l.party).event l.party (t.phase l.party)

section
variable {g g' : Gate} {heap heap' granted : Bool} {pc pc' : GatePc} {a : AfterInit}

theorem next_phase (a : AfterInit) : a.next.phase = .idle := by
  cases a <;> rfl

theorem initNext_phase (m : PoolMutex) : (initNext a m).phase = .called .init := by
  cases m <;> rfl

theorem destroyNext_phase (m : PoolMutex) : (destroyNext m).phase = .answered () := by
  cases m <;> rfl

theorem isReady_iff : g.isReady = true ↔ g.state = .ready := by
  simp [Gate.isReady]

theorem isReady_of_ne (hg : g.state ≠ .ready) : g.isReady = false := by
  simp [Gate.isReady, hg]

theorem enter_turn (c : GateCall) (b : Bool) :
    switchObject.PhaseTurn b GatePc.idle.phase b (c.enter heap).phase := by
  cases c with
  | init | report | purge | shutdown => exact .calls
  | work =>
    cases heap with
    | true => exact .stays
    | false => exact .calls
  | endThread =>
    cases heap with
    | true => exact .stays
    | false => exact .stays

theorem turn_switch (hbusy : pc.body ≠ none → g.state = .busy)
    (hs : gateTurn g heap granted pc = some (g', heap', pc')) :
    switchObject.PhaseTurn g.isReady pc.phase g'.isReady pc'.phase := by
  cases pc with
  | idle => cases hs
  | initGet a =>
    cases hs
    cases hg : g.state with
    | ready =>
      rw [isReady_iff.mpr hg]
      exact .takesEffect .init
    | busy => exact .stays
    | uninit => exact .stays
  | initCas a =>
    simp only [gateTurn] at hs
    split_ifs at hs with hg
    · cases hs
      rw [isReady_of_ne (hg ▸ InitState.noConfusion)]
      exact .stays
    · cases hs
      exact .stays
  | mutexInit m a =>
    cases hs
    rw [initNext_phase]
    exact .stays
  | setReady a =>
    cases hs
    exact .takesEffect .init
  | initReturns a =>
    cases hs
    rw [next_phase]
    exact .returns
  | getHeap =>
    cases hs
    cases heap' <;> exact .stays
  | shutdownGet =>
    cases hs
    split_ifs with hg
    · exact .stays
    · rw [isReady_of_ne hg]
      exact .takesEffect .shutdown
  | shutdownCas =>
    simp only [gateTurn] at hs
    split_ifs at hs with hg
    · cases hs
      exact .takesEffect .shutdown
    · cases hs
      rw [isReady_of_ne hg]
      exact .takesEffect .shutdown
  | mutexDestroy m =>
    cases hs
    rw [destroyNext_phase]
    exact .stays
  | setUninit =>
    cases hs
    rw [isReady_of_ne ((hbusy (Option.some_ne_none _)) ▸ InitState.noConfusion)]
    exact .stays
  | purgeGet =>
    cases hs
    split_ifs <;> exact .takesEffect .purge
  | returns =>
    cases hs
    exact .returns
  | register | works | takeHeaps | freeSegments | clearHeap | purge =>
    cases hs
    exact .stays

end

section
variable {ι : Type*} [DecidableEq ι] {s t : GateState ι}

/-- The switch is on when the pool is ready, and the calls are as far. -/
structure HoldsSwitch (s : GateState ι) (o : ObjectState ι Bool SwitchOp Unit) : Prop where
  body : OneBody s
  state : o = ⟨s.gate.isReady, s.phase⟩

/-- A step of one call, which the other calls do not see. -/
theorem HoldsSwitch.turn {o : ObjectState ι Bool SwitchOp Unit} (h : HoldsSwitch s o)
    {l : GateLabel ι} (hbody : OneBody t)
    (hothers : ∀ j, j ≠ l.party → t.pcs j = s.pcs j)
    (hturn : switchObject.PhaseTurn s.gate.isReady (s.phase l.party) t.gate.isReady
      (t.phase l.party)) :
    ∃ o', (switchObject.atomicSpec ι).Turn o (s.event l t) o' ∧ HoldsSwitch t o' := by
  obtain rfl := h.state
  refine ⟨⟨t.gate.isReady, t.phase⟩, hturn.turn ?_, hbody, rfl⟩
  exact fun j hj => congrArg GatePc.phase (hothers j hj)

theorem HoldsSwitch.step {o : ObjectState ι Bool SwitchOp Unit} (h : HoldsSwitch s o)
    {l : GateLabel ι} (hs : gateStep s l = some t) :
    ∃ o', (switchObject.atomicSpec ι).Turn o (s.event l t) o' ∧ HoldsSwitch t o' := by
  have hbody := h.body.step hs
  rcases gateStep_cases hs with ⟨i, c, rfl, hidle, rfl⟩ | ⟨i, granted, r, rfl, hr, rfl⟩ |
    ⟨i, m, ended, rfl, -, rfl⟩
  · refine h.turn hbody (fun j hj => turn_pcs_of_ne _ _ hj) ?_
    rw [GateLabel.party, GateState.phase, GateState.phase, hidle, turn_pcs_self]
    exact enter_turn c _
  · refine h.turn hbody (fun j hj => turn_pcs_of_ne _ _ hj) ?_
    rw [GateLabel.party, GateState.phase, GateState.phase, turn_pcs_self]
    refine turn_switch (fun hne => ?_) hr
    obtain ⟨made, hmade⟩ := Option.ne_none_iff_exists'.mp hne
    rw [h.body.gate_eq hmade]
  · exact h.turn hbody (fun _ _ => rfl) .stays

/-- Whatever calls overlap, the gate is a switch whose operations take effect at once. -/
theorem gate_simulates_switch (ι : Type*) [DecidableEq ι] :
    (gateSystem ι).Simulates (fun _ _ => True) GateState.event (switchObject.atomicSpec ι)
      HoldsSwitch where
  init := by
    rintro s rfl
    exact ⟨_, rfl, .init, rfl⟩
  step := fun _ _ _ _ h _ hs => h.step hs

end

/-! ### Every call returns -/

def LocalStep (x y : Gate × Bool × GatePc) : Prop :=
  ∃ granted, gateTurn x.1 x.2.1 granted x.2.2 = some y

/-- Alone, a thread gets from `x` to the end of its call, and the gate is left as `P` says. -/
def Ends (x : Gate × Bool × GatePc) (P : InitState → Prop) : Prop :=
  ∃ g heap, Relation.ReflTransGen LocalStep x (g, heap, .idle) ∧ P g.state

/-- In `memop_init`, before the pool is found ready. -/
def GatePc.seeks : GatePc → Bool
  | .initGet _ | .initCas _ | .mutexInit .. | .setReady _ => true
  | _ => false

section
variable {g : Gate} {heap : Bool} {P : InitState → Prop}

theorem Ends.step {x y : Gate × Bool × GatePc} (granted : Bool)
    (hs : gateTurn x.1 x.2.1 granted x.2.2 = some y) (h : Ends y P) : Ends x P := by
  obtain ⟨g, heap, hruns, hg⟩ := h
  exact ⟨g, heap, hruns.head ⟨granted, hs⟩, hg⟩

theorem ends_idle (hg : P g.state) : Ends (g, heap, .idle) P := ⟨g, heap, .refl, hg⟩

theorem ends_returns (hg : P g.state) : Ends (g, heap, .returns) P :=
  .step true rfl (ends_idle hg)

theorem ends_works (ended : Bool) (hg : P g.state) : Ends (g, heap, .works ended) P :=
  .step true rfl (ends_idle hg)

theorem ends_getHeap (hg : P g.state) : Ends (g, heap, .getHeap) P :=
  .step true rfl (ends_works false hg)

theorem ends_initReturns (a : AfterInit) (hg : P g.state) : Ends (g, heap, .initReturns a) P := by
  refine .step true rfl ?_
  cases a with
  | nothing => exact ends_idle hg
  | getHeap => exact ends_getHeap hg
  | report => exact ends_works false hg

theorem ends_register (a : AfterInit) (hg : P g.state) : Ends (g, heap, .register a) P :=
  .step true rfl (ends_initReturns a hg)

theorem ends_setReady (a : AfterInit) (hP : P .ready) : Ends (g, heap, .setReady a) P :=
  .step true rfl (ends_register a hP)

theorem ends_mutexInit (m : PoolMutex) (a : AfterInit) (hP : P .ready) :
    Ends (g, heap, .mutexInit m a) P := by
  have hsite {g : Gate} : Ends (g, heap, .mutexInit .siteLock a) P :=
    .step true rfl (ends_setReady a hP)
  have hcache {g : Gate} : Ends (g, heap, .mutexInit .cacheLock a) P := .step true rfl hsite
  cases m with
  | lock => exact .step true rfl hcache
  | cacheLock => exact hcache
  | siteLock => exact hsite

theorem ends_initGet (a : AfterInit) (hg : g.state ≠ .busy) (hP : P .ready) :
    Ends (g, heap, .initGet a) P := by
  obtain ⟨state, made⟩ := g
  cases state with
  | uninit => exact .step true rfl (.step true rfl (ends_mutexInit .lock a hP))
  | busy => exact absurd rfl hg
  | ready => exact .step true rfl (ends_initReturns a hP)

theorem ends_initCas (a : AfterInit) (hg : g.state ≠ .busy) (hP : P .ready) :
    Ends (g, heap, .initCas a) P := by
  by_cases huninit : g.state = .uninit
  · exact .step true (if_pos huninit) (ends_mutexInit .lock a hP)
  · exact .step true (if_neg huninit) (ends_initGet a hg hP)

theorem ends_clearHeap (hP : P .uninit) : Ends (g, heap, .clearHeap) P :=
  .step true rfl (.step true rfl (ends_returns hP))

theorem ends_mutexDestroy (m : PoolMutex) (hP : P .uninit) :
    Ends (g, heap, .mutexDestroy m) P := by
  have hsite {g : Gate} : Ends (g, heap, .mutexDestroy .siteLock) P :=
    .step true rfl (ends_clearHeap hP)
  have hlock {g : Gate} : Ends (g, heap, .mutexDestroy .lock) P := .step true rfl hsite
  cases m with
  | lock => exact hlock
  | cacheLock => exact .step true rfl hlock
  | siteLock => exact hsite

theorem ends_freeSegments (hP : P .uninit) : Ends (g, heap, .freeSegments) P :=
  .step true rfl (ends_mutexDestroy .cacheLock hP)

theorem ends_shutdownCas (hg : P g.state) (hP : P .uninit) : Ends (g, heap, .shutdownCas) P := by
  by_cases hready : g.state = .ready
  · exact .step true (if_pos hready) (.step true rfl (ends_freeSegments hP))
  · exact .step true (if_neg hready) (ends_returns hg)

/-- A thread that no other keeps waiting ends its call, and nobody works on the mutexes then. -/
theorem ends_free {pc : GatePc} (hg : g.state ≠ .busy ∨ pc.body ≠ none) :
    Ends (g, heap, pc) fun state => state ≠ .busy ∧ (pc.seeks = true → state = .ready) := by
  have hfree (hbody : pc.body = none) : g.state ≠ .busy := hg.resolve_right fun hne => hne hbody
  cases pc with
  | idle => exact ends_idle ⟨hfree rfl, fun hs => by cases hs⟩
  | initGet a => exact ends_initGet a (hfree rfl) ⟨InitState.noConfusion, fun _ => rfl⟩
  | initCas a => exact ends_initCas a (hfree rfl) ⟨InitState.noConfusion, fun _ => rfl⟩
  | mutexInit m a => exact ends_mutexInit m a ⟨InitState.noConfusion, fun _ => rfl⟩
  | setReady a => exact ends_setReady a ⟨InitState.noConfusion, fun _ => rfl⟩
  | register a => exact ends_register a ⟨hfree rfl, fun hs => by cases hs⟩
  | initReturns a => exact ends_initReturns a ⟨hfree rfl, fun hs => by cases hs⟩
  | getHeap => exact ends_getHeap ⟨hfree rfl, fun hs => by cases hs⟩
  | works ended => exact ends_works ended ⟨hfree rfl, fun hs => by cases hs⟩
  | shutdownGet =>
    refine .step true rfl ?_
    split_ifs
    · exact ends_shutdownCas ⟨hfree rfl, fun hs => by cases hs⟩
        ⟨InitState.noConfusion, fun hs => by cases hs⟩
    · exact ends_returns ⟨hfree rfl, fun hs => by cases hs⟩
  | shutdownCas =>
    exact ends_shutdownCas ⟨hfree rfl, fun hs => by cases hs⟩
      ⟨InitState.noConfusion, fun hs => by cases hs⟩
  | takeHeaps =>
    exact .step true rfl (ends_freeSegments ⟨InitState.noConfusion, fun hs => by cases hs⟩)
  | freeSegments => exact ends_freeSegments ⟨InitState.noConfusion, fun hs => by cases hs⟩
  | mutexDestroy m => exact ends_mutexDestroy m ⟨InitState.noConfusion, fun hs => by cases hs⟩
  | clearHeap => exact ends_clearHeap ⟨InitState.noConfusion, fun hs => by cases hs⟩
  | setUninit =>
    exact .step true rfl (ends_returns ⟨InitState.noConfusion, fun hs => by cases hs⟩)
  | purgeGet =>
    refine .step true rfl ?_
    split_ifs
    · exact .step true rfl (ends_returns ⟨hfree rfl, fun hs => by cases hs⟩)
    · exact ends_returns ⟨hfree rfl, fun hs => by cases hs⟩
  | purge => exact .step true rfl (ends_returns ⟨hfree rfl, fun hs => by cases hs⟩)
  | returns => exact ends_returns ⟨hfree rfl, fun hs => by cases hs⟩

end

section
variable {ι : Type*} [DecidableEq ι]

/-- Steps of the threads `i` and `j` lead from one state to the other. -/
def StepsOf (i j : ι) : GateState ι → GateState ι → Prop :=
  Relation.ReflTransGen fun s t =>
    ∃ k granted, (k = i ∨ k = j) ∧ gateStep s (.step k granted) = some t

theorem turn_turn (s : GateState ι) (i : ι) (x y : Gate × Bool × GatePc) :
    (s.turn i x).turn i y = s.turn i y := by
  simp only [GateState.turn, Function.update_idem]

theorem turn_own (s : GateState ι) (i : ι) : s.turn i (s.gate, s.heap i, s.pcs i) = s := by
  simp only [GateState.turn, Function.update_eq_self]

theorem steps_of_local {i j k : ι} (hk : k = i ∨ k = j) (s : GateState ι)
    {y : Gate × Bool × GatePc}
    (h : Relation.ReflTransGen LocalStep (s.gate, s.heap k, s.pcs k) y) :
    StepsOf i j s (s.turn k y) := by
  have hlift : StepsOf i j (s.turn k (s.gate, s.heap k, s.pcs k)) (s.turn k y) := by
    refine h.lift (s.turn k) ?_
    rintro x y ⟨granted, hxy⟩
    refine ⟨k, granted, hk, ?_⟩
    simp only [gateStep, turn_pcs_self, turn_heap_self]
    rw [← turn_turn s k x y]
    exact congrArg (Option.map ((s.turn k x).turn k)) hxy
  rwa [turn_own] at hlift

/-- No call waits for ever: once the thread that works on the mutexes has done so, the own steps of
a thread bring its call to an end, and `memop_init` returns with the pool ready. -/
theorem calls_return (s : GateState ι) (h : (gateSystem ι).Reachable s) (i : ι) :
    ∃ j t, (j = i ∨ (s.pcs j).body ≠ none) ∧ StepsOf i j s t ∧ t.pcs i = .idle ∧
      ((s.pcs i).seeks = true → t.gate.state = .ready) := by
  have halone {j : ι} (s : GateState ι) (hg : s.gate.state ≠ .busy ∨ (s.pcs i).body ≠ none) :
      ∃ t, StepsOf i j s t ∧ t.pcs i = .idle ∧
        ((s.pcs i).seeks = true → t.gate.state = .ready) := by
    have hends : Ends (s.gate, s.heap i, s.pcs i) _ := ends_free hg
    obtain ⟨g, heap, hruns, -, hseeks⟩ := hends
    exact ⟨_, steps_of_local (.inl rfl) s hruns, turn_pcs_self .., hseeks⟩
  cases oneBody_run h with
  | free _ hfree =>
    have hg : s.gate.state ≠ .busy := by
      generalize s.gate = g at hfree
      cases hfree <;> exact InitState.noConfusion
    obtain ⟨t, ht⟩ := halone s (.inl hg)
    exact ⟨i, t, .inl rfl, ht⟩
  | held j made hj hothers hgate =>
    have hbody : (s.pcs j).body ≠ none := by
      rw [hj]
      exact Option.some_ne_none _
    by_cases hij : i = j
    · subst hij
      obtain ⟨t, ht⟩ := halone s (.inr hbody)
      exact ⟨i, t, .inl rfl, ht⟩
    · -- the thread that is at work goes first
      have hends : Ends (s.gate, s.heap j, s.pcs j) _ := ends_free (.inr hbody)
      obtain ⟨g, heap, hruns, ⟨hg, -⟩⟩ := hends
      have hfirst : StepsOf i j s (s.turn j (g, heap, .idle)) :=
        steps_of_local (.inr rfl) s hruns
      obtain ⟨t, hthen, hidle, hseeks⟩ := halone (s.turn j (g, heap, .idle)) (.inl hg)
      rw [turn_pcs_of_ne _ _ hij] at hseeks
      exact ⟨j, t, .inr hbody, hfirst.trans hthen, hidle, hseeks⟩

/-- A thread that waits for the one that makes the mutexes. -/
theorem calls_return_waits :
    ∃ (s : GateState Bool) (j : Bool) (t : GateState Bool), s.gate.state = .busy ∧
      s.pcs false = .initGet .getHeap ∧ StepsOf false j s t ∧ t.pcs false = .idle ∧
      t.gate.state = .ready := by
  have hout : ((gateSystem Bool).exec ⟨⟨.uninit, ∅⟩, fun _ => false, fun _ => .idle⟩ twoInits).map
      (fun s => decide (s.gate.state = .busy ∧ s.pcs false = .initGet .getHeap)) = some true := by
    decide +kernel
  obtain ⟨s, hrun, hend⟩ := Option.map_eq_some_iff.mp hout
  obtain ⟨hbusy, hwaits⟩ := of_decide_eq_true hend
  obtain ⟨j, t, -, hsteps, hidle, hready⟩ := calls_return s (.exec (.init rfl) hrun) false
  refine ⟨s, j, t, hbusy, hwaits, hsteps, hidle, hready ?_⟩
  rw [hwaits]
  rfl

end
end Xplatbase.MemoryPool
