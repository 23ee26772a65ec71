import Mathlib.Data.Fintype.Basic
import Xplatbase.MemoryPool.InitGate

/-! The mutexes of the pool are made when they are used, if no thread shuts the pool down while
others use it. -/
namespace Xplatbase.MemoryPool
open Xplatbase.Lib

/-! ### Calls that use the mutexes -/

/-- In `memop_shutdown`. -/
def GatePc.inShutdown : GatePc → Bool
  | .shutdownGet | .shutdownCas | .takeHeaps | .freeSegments | .mutexDestroy _ | .clearHeap |
    .setUninit => true
  | _ => false

def GatePc.inUse : GatePc → Bool
  | .initGet a | .initCas a | .mutexInit _ a | .setReady a | .register a | .initReturns a =>
    a ≠ .nothing
  | .getHeap | .works _ | .purgeGet | .purge => true
  | _ => false

/-- No other thread uses the pool while one shuts it down, nor has a heap by then. -/
def UsedApart {ι : Type*} (s : GateState ι) : GateLabel ι → Prop
  | .call i .shutdown => ∀ j, j ≠ i → (s.pcs j).inUse = false ∧ s.heap j = false
  | .call _ .init => True
  | .call i _ => ∀ j, j ≠ i → (s.pcs j).inShutdown = false
  | .step .. | .takes .. => True

instance {ι : Type*} [Fintype ι] [DecidableEq ι] (s : GateState ι) :
    (l : GateLabel ι) → Decidable (UsedApart s l)
  | .call i .shutdown =>
    inferInstanceAs (Decidable (∀ j, j ≠ i → (s.pcs j).inUse = false ∧ s.heap j = false))
  | .call _ .init | .step .. | .takes .. => inferInstanceAs (Decidable True)
  | .call i .work | .call i .report | .call i .endThread | .call i .purge =>
    inferInstanceAs (Decidable (∀ j, j ≠ i → (s.pcs j).inShutdown = false))

def GatePc.past : GatePc → Bool
  | .register a | .initReturns a => a ≠ .nothing
  | .getHeap | .works _ | .purge => true
  | _ => false

/-- In `memop_shutdown`, before the own `g_heap` is cleared. -/
def GatePc.clears : GatePc → Bool
  | .takeHeaps | .freeSegments | .mutexDestroy _ | .clearHeap => true
  | _ => false

/-- The pool is ready for those that have a heap, and those that are past the gate. -/
structure GateKept {ι : Type*} (s : GateState ι) : Prop where
  body : OneBody s
  apart : ∀ i j, j ≠ i → (s.pcs i).inShutdown = true →
    (s.pcs j).inUse = false ∧ s.heap j = false
  past : ∀ i, (s.pcs i).past = true → s.gate.state = .ready
  heap : ∀ i, s.heap i = true → s.gate.state = .ready ∨ (s.pcs i).clears = true

section
variable {g g' : Gate} {heap heap' granted : Bool} {pc pc' : GatePc}

theorem inUse_of_past (h : pc.past = true) : pc.inUse = true := by
  cases pc <;> first | exact h | rfl | cases h

theorem shutdown_of_enter {c : GateCall} (h : (c.enter heap).inShutdown = true) :
    c = .shutdown := by
  cases c with
  | shutdown => rfl
  | work | endThread => cases heap <;> cases h
  | init | report | purge => cases h

theorem heap_of_enter {c : GateCall} (h : (c.enter heap).past = true) : heap = true := by
  cases c with
  | work | endThread =>
    cases heap with
    | true => rfl
    | false => cases h
  | init | report | purge | shutdown => cases h

/-- A call that uses the mutexes begins while no other thread is in a shutdown. -/
theorem UsedApart.of_inUse {ι : Type*} {s : GateState ι} {i : ι} {c : GateCall}
    (h : UsedApart s (.call i c)) (hc : (c.enter heap).inUse = true) :
    ∀ j, j ≠ i → (s.pcs j).inShutdown = false := by
  cases c with
  | init | shutdown => cases hc
  | work | report | endThread | purge => exact h

theorem turn_inShutdown (hs : gateTurn g heap granted pc = some (g', heap', pc'))
    (h : pc'.inShutdown = true) : pc.inShutdown = true := by
  cases pc with
  | idle => cases hs
  | shutdownGet | shutdownCas | takeHeaps | freeSegments | mutexDestroy | clearHeap |
    setUninit => rfl
  | initGet a =>
    cases hs
    cases hg : g.state <;> rw [hg] at h <;> cases h
  | initCas a =>
    simp only [gateTurn] at hs
    split_ifs at hs <;> cases hs <;> cases h
  | mutexInit m a =>
    cases hs
    cases m <;> cases h
  | initReturns a =>
    cases hs
    cases a <;> cases h
  | getHeap =>
    cases hs
    cases heap' <;> cases h
  | purgeGet =>
    cases hs
    split_ifs at h <;> cases h
  | setReady | register | works | purge | returns =>
    cases hs
    cases h

theorem turn_inUse (hs : gateTurn g heap granted pc = some (g', heap', pc'))
    (h : pc'.inUse = true) : pc.inUse = true := by
  cases pc with
  | idle => cases hs
  | getHeap | works | purgeGet | purge => rfl
  | initGet a =>
    cases hs
    cases hg : g.state <;> rw [hg] at h <;> exact h
  | initCas a =>
    simp only [gateTurn] at hs
    split_ifs at hs <;> cases hs <;> exact h
  | mutexInit m a =>
    cases hs
    cases m <;> exact h
  | initReturns a =>
    cases hs
    cases a with
    | nothing => cases h
    | getHeap => rfl
    | report => rfl
  | shutdownGet =>
    cases hs
    split_ifs at h <;> cases h
  | shutdownCas =>
    simp only [gateTurn] at hs
    split_ifs at hs <;> cases hs <;> cases h
  | mutexDestroy m =>
    cases hs
    cases m <;> cases h
  | setReady | register =>
    cases hs
    exact h
  | takeHeaps | freeSegments | clearHeap | setUninit | returns =>
    cases hs
    cases h

/-- Who gets past the gate has found it ready, or made it so. -/
theorem turn_past (hs : gateTurn g heap granted pc = some (g', heap', pc'))
    (hpast : pc.past = true → g.state = .ready) (h : pc'.past = true) : g'.state = .ready := by
  cases pc with
  | idle => cases hs
  | initGet a =>
    cases hs
    cases hg : g.state with
    | ready => rfl
    | busy =>
      rw [hg] at h
      cases h
    | uninit =>
      rw [hg] at h
      cases h
  | initCas a =>
    simp only [gateTurn] at hs
    split_ifs at hs <;> cases hs <;> cases h
  | mutexInit m a =>
    cases hs
    cases m <;> cases h
  | setReady a =>
    cases hs
    rfl
  | register a =>
    cases hs
    exact hpast h
  | initReturns a =>
    cases hs
    cases a with
    | nothing => cases h
    | getHeap => exact hpast rfl
    | report => exact hpast rfl
  | getHeap =>
    cases hs
    exact hpast rfl
  | shutdownGet =>
    cases hs
    split_ifs at h <;> cases h
  | shutdownCas =>
    simp only [gateTurn] at hs
    split_ifs at hs <;> cases hs <;> cases h
  | mutexDestroy m =>
    cases hs
    cases m <;> cases h
  | purgeGet =>
    cases hs
    split_ifs at h with hg
    · exact hg
    · cases h
  | works | takeHeaps | freeSegments | clearHeap | setUninit | purge | returns =>
    cases hs
    cases h

/-- Only a shutdown ends the time in which the pool is ready. -/
theorem turn_ready (hs : gateTurn g heap granted pc = some (g', heap', pc'))
    (hbody : pc.body = none) (hg : g.state = .ready) :
    g'.state = .ready ∨ pc.inShutdown = true ∧ pc'.clears = true := by
  cases pc with
  | idle => cases hs
  | initCas a =>
    simp only [gateTurn, hg] at hs
    cases hs
    exact .inl hg
  | shutdownCas =>
    simp only [gateTurn, hg] at hs
    cases hs
    exact .inr ⟨rfl, rfl⟩
  | mutexInit m _ | mutexDestroy m => cases m <;> cases hbody
  | setReady | takeHeaps | freeSegments | clearHeap | setUninit => cases hbody
  | initGet | register | initReturns | getHeap | works | shutdownGet | purgeGet | purge | returns =>
    cases hs
    exact .inl hg

/-- A heap comes to a thread that is past the gate, and goes before the shutdown ends. -/
theorem turn_heap (hs : gateTurn g heap granted pc = some (g', heap', pc')) (h : heap' = true) :
    (heap = true ∨ pc.past = true) ∧ (pc.clears = true → pc'.clears = true) := by
  cases pc with
  | idle => cases hs
  | getHeap =>
    cases hs
    exact ⟨.inr rfl, fun hc => by cases hc⟩
  | works ended =>
    cases hs
    exact ⟨.inr rfl, fun hc => by cases hc⟩
  | clearHeap =>
    cases hs
    cases h
  | initCas | shutdownCas =>
    simp only [gateTurn] at hs
    split_ifs at hs <;> cases hs <;> exact ⟨.inl h, fun hc => by cases hc⟩
  | takeHeaps | freeSegments =>
    cases hs
    exact ⟨.inl h, fun _ => rfl⟩
  | mutexDestroy m =>
    cases hs
    refine ⟨.inl h, fun _ => ?_⟩
    cases m <;> rfl
  | initGet | mutexInit | setReady | register | initReturns | shutdownGet | setUninit | purgeGet |
    purge | returns =>
    cases hs
    exact ⟨.inl h, fun hc => by cases hc⟩

end

section
variable {ι : Type*} [DecidableEq ι] {s t : GateState ι} {i : ι}

theorem OneBody.none_of_ready (h : OneBody s) (hready : s.gate.state = .ready) (i : ι) :
    (s.pcs i).body = none := by
  by_contra hbody
  obtain ⟨made, hmade⟩ := Option.ne_none_iff_exists'.mp hbody
  rw [h.gate_eq hmade] at hready
  cases hready

theorem GateKept.call (h : GateKept s) {c : GateCall} (hidle : s.pcs i = .idle)
    (hok : UsedApart s (.call i c)) :
    GateKept (s.turn i (s.gate, s.heap i, c.enter (s.heap i))) := by
  have hheap (j : ι) : (s.turn i (s.gate, s.heap i, c.enter (s.heap i))).heap j = s.heap j := by
    by_cases hj : j = i
    · rw [hj, turn_heap_self]
    · rw [turn_heap_of_ne _ _ hj]
  -- a heap that a thread has when it begins a call is of the time in which the pool is ready
  have hready (hi : s.heap i = true) : s.gate.state = .ready := by
    refine (h.heap i hi).resolve_right ?_
    rw [hidle]
    exact Bool.false_ne_true
  have hbody : (s.pcs i).body = none := by
    rw [hidle]
    rfl
  refine ⟨h.body.aside hbody (enter_body _ c), ?_, ?_, ?_⟩
  · intro j k hkj hj
    rw [hheap]
    by_cases hji : j = i
    · subst hji
      rw [turn_pcs_self] at hj
      obtain rfl := shutdown_of_enter hj
      rw [turn_pcs_of_ne _ _ hkj]
      exact hok k hkj
    · rw [turn_pcs_of_ne _ _ hji] at hj
      obtain ⟨huse, hk⟩ := h.apart j k hkj hj
      refine ⟨?_, hk⟩
      by_cases hki : k = i
      · subst hki
        rw [turn_pcs_self]
        by_contra hne
        have hcall := hok.of_inUse (Bool.eq_true_of_not_eq_false hne) j hji
        exact absurd (hcall.symm.trans hj) Bool.false_ne_true
      · rw [turn_pcs_of_ne _ _ hki]
        exact huse
  · intro j hj
    by_cases hji : j = i
    · subst hji
      rw [turn_pcs_self] at hj
      exact hready (heap_of_enter hj)
    · rw [turn_pcs_of_ne _ _ hji] at hj
      exact h.past j hj
  · intro j hj
    rw [hheap] at hj
    by_cases hji : j = i
    · subst hji
      exact .inl (hready hj)
    · rw [turn_pcs_of_ne _ _ hji]
      exact h.heap j hj

theorem GateKept.turn (h : GateKept s) {granted : Bool} {r : Gate × Bool × GatePc}
    (hs : gateTurn s.gate (s.heap i) granted (s.pcs i) = some r) : GateKept (s.turn i r) := by
  obtain ⟨g, heap, pc⟩ := r
  have hready (hg : s.gate.state = .ready) :=
    turn_ready hs (h.body.none_of_ready hg i) hg
  -- the gate stays open for another thread that is past it or has a heap
  have hothers {j : ι} (hj : j ≠ i) (hg : s.gate.state = .ready)
      (hcall : (s.pcs i).inShutdown = true → False) : g.state = .ready :=
    (hready hg).resolve_right fun hclears => hcall hclears.1
  refine ⟨h.body.turn hs, ?_, ?_, ?_⟩
  · intro j k hkj hj
    by_cases hji : j = i
    · subst hji
      rw [turn_pcs_self] at hj
      rw [turn_pcs_of_ne _ _ hkj, turn_heap_of_ne _ _ hkj]
      exact h.apart j k hkj (turn_inShutdown hs hj)
    · rw [turn_pcs_of_ne _ _ hji] at hj
      obtain ⟨huse, hheap⟩ := h.apart j k hkj hj
      by_cases hki : k = i
      · subst hki
        rw [turn_pcs_self, turn_heap_self]
        constructor
        · by_contra hne
          have hin := turn_inUse hs (Bool.eq_true_of_not_eq_false hne)
          exact absurd (huse.symm.trans hin) Bool.false_ne_true
        · by_contra hne
          rcases (turn_heap hs (Bool.eq_true_of_not_eq_false hne)).1 with hold | hpast
          · exact absurd (hheap.symm.trans hold) Bool.false_ne_true
          · exact absurd (huse.symm.trans (inUse_of_past hpast)) Bool.false_ne_true
      · rw [turn_pcs_of_ne _ _ hki, turn_heap_of_ne _ _ hki]
        exact ⟨huse, hheap⟩
  · intro j hj
    by_cases hji : j = i
    · subst hji
      rw [turn_pcs_self] at hj
      exact turn_past hs (h.past j) hj
    · rw [turn_pcs_of_ne _ _ hji] at hj
      refine hothers hji (h.past j hj) fun hshut => ?_
      exact absurd ((h.apart i j hji hshut).1.symm.trans (inUse_of_past hj)) Bool.false_ne_true
  · intro j hj
    by_cases hji : j = i
    · subst hji
      rw [turn_heap_self] at hj
      rw [turn_pcs_self]
      obtain ⟨hfrom, hclears⟩ := turn_heap hs hj
      have hopen : s.gate.state = .ready ∨ (s.pcs j).clears = true := by
        rcases hfrom with hold | hpast
        · exact h.heap j hold
        · exact .inl (h.past j hpast)
      rcases hopen with hg | hc
      · exact (hready hg).imp_right And.right
      · exact .inr (hclears hc)
    · rw [turn_heap_of_ne _ _ hji] at hj
      rw [turn_pcs_of_ne _ _ hji]
      refine (h.heap j hj).imp_left fun hg => hothers hji hg fun hshut => ?_
      exact absurd ((h.apart i j hji hshut).2.symm.trans hj) Bool.false_ne_true

theorem GateKept.step (h : GateKept s) {l : GateLabel ι} (hok : UsedApart s l)
    (hs : gateStep s l = some t) : GateKept t := by
  rcases gateStep_cases hs with ⟨i, c, rfl, hidle, rfl⟩ | ⟨i, granted, r, rfl, hr, rfl⟩ |
    ⟨i, m, ended, rfl, -, rfl⟩
  · exact h.call hidle hok
  · exact h.turn hr
  · exact h

theorem gateKept_run (h : (gateSystem ι).ReachableWhen UsedApart s) : GateKept s := by
  refine h.invariant ?_ fun _ _ _ hs hok hstep => hs.step hok hstep
  rintro _ rfl
  refine ⟨.init, ?_, ?_, ?_⟩
  · intro _ _ _ hi
    cases hi
  · intro _ hi
    cases hi
  · intro _ hi
    cases hi

omit [DecidableEq ι] in
theorem OneBody.made_of_ready (h : OneBody s) (hready : s.gate.state = .ready) (m : PoolMutex) :
    m ∈ s.gate.made := by
  cases h with
  | free _ hfree =>
    generalize s.gate = g at hfree hready
    cases hfree with
    | ready => exact m.mem_all
    | uninit => cases hready
  | held _ _ _ _ hgate =>
    rw [hgate] at hready
    cases hready

/-- A thread that does not work on the mutexes takes them past the gate only. -/
theorem past_of_mutexOp {pc : GatePc} {op : MutexOp} (hbody : pc.body = none)
    (hop : pc.mutexOp = some op) : pc.past = true ∧ ∃ m, op = .lock m := by
  cases pc with
  | getHeap | purge => exact ⟨rfl, _, (Option.some.inj hop).symm⟩
  | mutexInit m _ | mutexDestroy m => cases m <;> cases hbody
  | takeHeaps | freeSegments => cases hbody
  | _ => cases hop

/-- If no thread shuts the pool down while others use it, a mutex is made whenever one takes it, and
who has a heap finds the pool ready. -/
theorem mutexes_used_made (s t : GateState ι) (h : (gateSystem ι).ReachableWhen UsedApart s)
    (l : GateLabel ι) (hs : gateStep s l = some t) :
    (∀ op, s.mutexOp l = some op → op.Meets s.gate.made) ∧
    ∀ i, s.pcs i = .idle → s.heap i = true → s.gate.state = .ready := by
  have hkept := gateKept_run h
  constructor
  · intro op hop
    rcases gateStep_cases hs with ⟨i, c, rfl, -, -⟩ | ⟨i, granted, r, rfl, -, -⟩ |
      ⟨i, m, ended, rfl, hpc, -⟩
    · cases hop
    · have hop : (s.pcs i).mutexOp = some op := hop
      cases hbody : (s.pcs i).body with
      | some made =>
        rw [hkept.body.gate_eq hbody]
        exact meets_body hbody hop
      | none =>
        obtain ⟨hpast, m, rfl⟩ := past_of_mutexOp hbody hop
        exact hkept.body.made_of_ready (hkept.past i hpast) m
    · cases hop
      have hpast := hkept.past i
      rw [hpc] at hpast
      exact hkept.body.made_of_ready (hpast rfl) m
  · intro i hidle hi
    refine (hkept.heap i hi).resolve_right ?_
    rw [hidle]
    exact Bool.false_ne_true

/-- A thread that works while the other reports; it ends, the other shuts the pool down, and a new
call of the first makes the mutexes again. -/
def twoEpochs : List (GateLabel Bool) :=
  List.flatten [
    [.call true .work, .call false .report],
    List.replicate 9 (.step true true),
    [.takes true .cacheLock],
    List.replicate 3 (.step false true),
    [.step true true, .call true .endThread, .takes true .lock, .step true true],
    [.call false .shutdown],
    List.replicate 10 (.step false true),
    [.call true .work],
    List.replicate 8 (.step true true)]

theorem mutexes_used_made_epochs :
    ∃ s t : GateState Bool, (gateSystem Bool).ReachableWhen UsedApart s ∧
      gateStep s (.step true true) = some t ∧ (s.pcs true).mutexOp = some (.lock .lock) ∧
      .lock ∈ s.gate.made := by
  have hout : ((gateSystem Bool).execWhen UsedApart
      ⟨⟨.uninit, ∅⟩, fun _ => false, fun _ => .idle⟩ twoEpochs).map
      (fun s => decide (s.pcs true = .getHeap)) = some true := by
    decide +kernel
  obtain ⟨s, hrun, hend⟩ := Option.map_eq_some_iff.mp hout
  have hpc : s.pcs true = .getHeap := of_decide_eq_true hend
  have hop : (s.pcs true).mutexOp = some (.lock .lock) := by
    rw [hpc]
    rfl
  have hreach : (gateSystem Bool).ReachableWhen UsedApart s := .exec (.init rfl) hrun
  have hstep : gateStep s (.step true true) = some (s.turn true (s.gate, true, .works false)) := by
    simp only [gateStep, hpc]
    rfl
  exact ⟨s, _, hreach, hstep, hop, (mutexes_used_made s _ hreach _ hstep).1 _ hop⟩

end
end Xplatbase.MemoryPool
