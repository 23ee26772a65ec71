import Xplatbase.ThreadPool.Ring

/-! What an empty answer of `pool_ring_pop_batch` is worth. The pop reads `head` and then the
sequence number of that cell; any mismatch makes it return 0, also when the task has been taken
and the cell recycled in between, with another task ready at the new head. -/
namespace Xplatbase.ThreadPool
open Xplatbase.Lib

variable {ι τ : Type*}

def PoolRing.headReady (c : Pow2) (r : PoolRing τ) : Bool :=
  (r.cells (c.cell r.head)).seq = r.head + 1

/-- The ring, watched from outside: `seen i` tells whether some instant since thread `i` began
its pop had no task published at the head; `empties` keeps it for each pop that returned 0. -/
structure RingWatch (ι τ : Type*) where
  state : RingState ι τ
  seen : ι → Bool
  empties : List (ι × Bool)

/-- Thread `i` begins a pop with this label. -/
def RingLabel.begins [DecidableEq ι] (i : ι) : RingLabel ι τ → Bool
  | .pop j _ => i = j
  | _ => false

def RingEvent.empty : RingEvent τ → Bool
  | .popEmpty => true
  | _ => false

def ringWatchStep [DecidableEq ι] (c : Pow2) (g : RingWatch ι τ) (l : RingLabel ι τ) :
    Option (RingWatch ι τ) :=
  (ringStepAt c g.state l).map fun (i, s', e) =>
    { state := s'
      seen := fun j => (g.seen j && !l.begins j) || !s'.ring.headReady c
      empties := if e.empty then (i, g.seen i) :: g.empties else g.empties }

def ringWatch [DecidableEq ι] (c : Pow2) : System (RingWatch ι τ) (RingLabel ι τ) where
  init := fun g => ∃ task, g = ⟨(poolRingInit task).1, fun _ => true, []⟩
  step := ringWatchStep c

/-- A pop that finds its first cell not ready finds `head` as it loaded it. -/
def HeadStays (c : Pow2) (g : RingWatch ι τ) : RingLabel ι τ → Prop
  | .run i =>
    match g.state.thread i with
    | .popSeq _ pos 0 =>
      (g.state.ring.cells (c.cell pos)).seq = pos + 1 ∨ g.state.ring.head = pos
    | _ => True
  | _ => True

instance (c : Pow2) (g : RingWatch ι τ) : (l : RingLabel ι τ) → Decidable (HeadStays c g l)
  | .run i => by
    unfold HeadStays
    dsimp only
    split <;> infer_instance
  | .push _ _ | .pop _ _ => .isTrue trivial

theorem ringStepAt_empty [DecidableEq ι] {c : Pow2} {s s' : RingState ι τ} {l : RingLabel ι τ}
    {i : ι} {e : RingEvent τ} (hs : ringStepAt c s l = some (i, s', e)) (he : e.empty = true) :
    ∃ max pos, l = .run i ∧ s.thread i = .popSeq max pos 0 ∧
      (s.ring.cells (c.cell pos)).seq ≠ pos + 1 := by
  cases l with
  | push j t =>
    cases hpc : s.thread j <;>
      simp only [ringStepAt, hpc, Option.some.injEq, Prod.mk.injEq, reduceCtorEq] at hs
    obtain ⟨-, -, rfl⟩ := hs
    cases he
  | pop j max =>
    cases hpc : s.thread j <;> simp only [ringStepAt, hpc, reduceCtorEq] at hs
    split_ifs at hs
    simp only [Option.some.injEq, Prod.mk.injEq] at hs
    obtain ⟨-, -, rfl⟩ := hs
    cases he
  | run j =>
    obtain ⟨⟨r, p, e'⟩, hd, heq⟩ := Option.map_eq_some_iff.mp hs
    simp only [Prod.mk.injEq] at heq
    obtain ⟨rfl, -, rfl⟩ := heq
    cases hpc : s.thread j <;> rw [hpc] at hd <;> simp only [ringStep, reduceCtorEq] at hd <;>
      (try split_ifs at hd) <;> simp only [Option.some.injEq, Prod.mk.injEq] at hd <;>
      obtain ⟨-, -, rfl⟩ := hd <;> try cases he
    rename_i max pos n hseq hn
    subst hn
    refine ⟨max, pos, rfl, rfl, fun h => hseq ?_⟩
    simp [h]

/-- As long as no pop finds the cell of its first position recycled behind a head that has moved
on, a pop that returns 0 is right: at some instant of the call no task was ready at the head. -/
theorem poolRingPopBatch_empty [DecidableEq ι] (c : Pow2) {g : RingWatch ι τ}
    (hr : (ringWatch c).ReachableWhen (HeadStays c) g) : ∀ a ∈ g.empties, a.2 = true := by
  suffices h : (∀ i, g.state.ring.headReady c = false → g.seen i = true) ∧
      ∀ a ∈ g.empties, a.2 = true from h.2
  refine System.ReachableWhen.invariant
    (P := fun g : RingWatch ι τ => (∀ i, g.state.ring.headReady c = false → g.seen i = true) ∧
      ∀ a ∈ g.empties, a.2 = true) (fun g₀ hi => ?_) (fun g₀ l g₁ h hok hs => ?_) hr
  · obtain ⟨task, rfl⟩ := hi
    exact ⟨fun _ _ => rfl, fun a ha => by cases ha⟩
  · obtain ⟨⟨i, s', e⟩, hstep, rfl⟩ := Option.map_eq_some_iff.mp hs
    refine ⟨fun j hj => ?_, fun a ha => ?_⟩
    · simp only [hj, Bool.not_false, Bool.or_true]
    · dsimp only at ha
      split_ifs at ha with he
      · rcases List.mem_cons.mp ha with rfl | ha
        · obtain ⟨max, pos, rfl, hpc, hseq⟩ := ringStepAt_empty hstep he
          have hhead : g₀.state.ring.head = pos := by
            simp only [HeadStays, hpc] at hok
            exact hok.resolve_left hseq
          apply h.1 i
          rw [PoolRing.headReady, hhead]
          exact decide_eq_false hseq
        · exact h.2 a ha
      · exact h.2 a ha

/-- Two consumers find the only task; the one that loses its CAS looks again, at the new head, and
returns 0. -/
theorem poolRingPopBatch_empty_race :
    ∃ g : RingWatch Bool ℕ, (ringWatch ⟨1⟩).ReachableWhen (HeadStays ⟨1⟩) g ∧
      g.state.ring.head = 1 ∧ g.empties = [(true, true)] ∧ ∀ a ∈ g.empties, a.2 = true := by
  have hout : ((ringWatch ⟨1⟩).execWhen (HeadStays ⟨1⟩)
      ⟨(poolRingInit fun _ : ℕ => 0 : RingState Bool ℕ × RingHistory Bool ℕ).1, fun _ => true, []⟩
      (List.flatten [[.push false 7], List.replicate 4 (.run false), [.pop true 2],
        List.replicate 3 (.run true), [.pop false 1], List.replicate 5 (.run false),
        List.replicate 3 (.run true)])).map (fun g => (g.state.ring.head, g.empties)) =
      some (1, [(true, true)]) := by
    decide +kernel
  obtain ⟨g, hrun, hg⟩ := Option.map_eq_some_iff.mp hout
  obtain ⟨hhead, hempties⟩ := Prod.mk.inj hg
  have hr := System.ReachableWhen.exec (S := ringWatch ⟨1⟩) (.init ⟨_, rfl⟩) hrun
  exact ⟨g, hr, hhead, hempties, poolRingPopBatch_empty ⟨1⟩ hr⟩

/-- Two tasks are in the ring when thread `true` loads `head`; thread `false` takes the first and
recycles its cell; thread `true` reads that cell and returns 0, with the second task ready. -/
theorem poolRingPopBatch_empty_stale : ∃ g : RingWatch Bool ℕ, (ringWatch ⟨1⟩).Reachable g ∧
    g.empties = [(true, false)] := by
  have hout : ((ringWatch ⟨1⟩).exec
      ⟨(poolRingInit fun _ : ℕ => 0 : RingState Bool ℕ × RingHistory Bool ℕ).1, fun _ => true, []⟩
      (List.flatten [[.push false 7], List.replicate 4 (.run false), [.push false 8],
        List.replicate 4 (.run false), [.pop true 2, .run true, .pop false 1],
        List.replicate 5 (.run false), [.run true]])).map RingWatch.empties =
      some [(true, false)] := by decide +kernel
  obtain ⟨g, hrun, hg⟩ := Option.map_eq_some_iff.mp hout
  exact ⟨g, .exec (.init ⟨_, rfl⟩) hrun, hg⟩

end Xplatbase.ThreadPool
