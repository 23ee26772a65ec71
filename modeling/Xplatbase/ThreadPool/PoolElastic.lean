import Xplatbase.ThreadPool.PoolStuck

/-! Elastic activations. The monitor activates an elastic worker by clearing its `parked`. The
worker sets `parked` again at the top of its loop without looking at it, after it has read it once
and taken the end of its sleep for a timeout: an activation in between is overwritten. -/
namespace Xplatbase.ThreadPool
open Xplatbase.Lib

variable {ι : Type*} {d : PoolDims} {s s' : PoolState ι} {w e : ℕ}

/-- What an elastic worker has made of its last activation: nothing is left of it, or it has yet to
look for tasks, or it has called `thread_wait_sleep_for` instead. -/
inductive Activation
  | none
  | owed
  | slept
  deriving DecidableEq

/-- The elastic worker whose `parked` the step changes from 1 to 0 while `stop` is 0. -/
def PoolState.activates (s : PoolState ι) : PoolLabel ι → Option ℕ
  | .monitor => match s.monitor with
    | .claim e _ => if (s.workers e).parked ∧ s.stop = false then some e else none
    | _ => none
  | _ => none

def Activation.after (D : Activation) : WorkerPc → Activation
  | .get _ .start => .none
  | .perfil => if D = .owed then .slept else D
  | _ => D

structure ElasticWatch (ι : Type*) where
  pool : PoolState ι
  due : ℕ → Activation

def ElasticWatch.dueAfter (x : ElasticWatch ι) (l : PoolLabel ι) : ℕ → Activation :=
  match l with
  | .worker w _ => Function.update x.due w ((x.due w).after (x.pool.workers w).pc)
  | _ => match x.pool.activates l with
    | some e => Function.update x.due e .owed
    | none => x.due

def elasticWatchStep [DecidableEq ι] (d : PoolDims) (x : ElasticWatch ι) (l : PoolLabel ι) :
    Option (ElasticWatch ι) :=
  (poolStep d x.pool l).map fun s' => ⟨s', x.dueAfter l⟩

def elasticWatch [DecidableEq ι] (d : PoolDims) : System (ElasticWatch ι) (PoolLabel ι) where
  init := fun x => x = ⟨poolCreateRelative d, fun _ => .none⟩
  step := elasticWatchStep d

/-- The worker is blocked in a sleep that it began after its activation, and it has not looked for
tasks since. -/
def ElasticWatch.Lost (x : ElasticWatch ι) (e : ℕ) : Prop :=
  x.due e = .slept ∧ (x.pool.workers e).pc.asleep = true ∧ (x.pool.workers e).signal = false

/-- About to set `parked` without looking at it. -/
def WorkerPc.rearming : WorkerPc → Bool
  | .elasticStop | .elasticPark => true
  | _ => false

/-- The monitor does not clear `parked` of a worker that is about to set it again, and a worker
whose `parked` is cleared between its test and its sleep does not reach the sleep before the wake
that follows. -/
def ActivationKept (d : PoolDims) (x : ElasticWatch ι) : PoolLabel ι → Prop
  | .monitor => match x.pool.monitor with
    | .claim e _ =>
      (x.pool.workers e).parked ∧ x.pool.stop = false → (x.pool.workers e).pc.rearming = false
    | _ => True
  | .worker w _ => match (x.pool.workers w).pc with
    | .perfil => d.isElastic w = true → (x.pool.workers w).parked = false →
        (x.pool.workers w).signal = true
    | _ => True
  | _ => True

instance (x : ElasticWatch ι) : (l : PoolLabel ι) → Decidable (ActivationKept d x l)
  | .monitor => by
    unfold ActivationKept
    dsimp only
    split <;> infer_instance
  | .worker w _ => by
    unfold ActivationKept
    dsimp only
    split <;> infer_instance
  | .call _ _ | .client _ _ | .spawn _ | .finish _ | .lapse _ _ _ | .monitorLapse _ =>
    .isTrue trivial

/-! ### The activation of a worker at each place -/

/-- What holds of an elastic worker `x` with activation `D` at this place. -/
def WorkerPc.Answers (x : PoolWorker) (stop : Bool) (D : Activation) : WorkerPc → Prop
  | .elasticLoop | .run | .get _ .start | .giraFila _ _ | .giraHead _ _ _ | .giraWake _ _ =>
    x.parked = false
  | .get _ _ | .elasticGiro => x.parked = false ∧ D = .none
  | .elasticStop => D ≠ .none → stop = true
  | .elasticPark => D = .none
  | .elasticPrepare | .elasticParked | .perfil => D ≠ .none → D = .owed ∧ x.parked = false
  | .sleep _ => (D ≠ .none → x.parked = false) ∧ (D = .slept → x.signal = true)
  | .sleepClear _ _ | .elasticWoken | .elasticActive => D ≠ .none → x.parked = false
  | _ => True

theorem WorkerPc.Answers.nudged {x x' : PoolWorker} {stop stop' : Bool} {D : Activation}
    {p : WorkerPc} (h : p.Answers x stop D) (hn : x.Nudged x') (hstop : stop = true → stop' = true) :
    p.Answers x' stop' D := by
  obtain ⟨top, parked, signal, monLast, -, hpark, hsig, rfl⟩ := hn
  have hdown : x.parked = false → parked = false := by
    intro hx
    by_contra hnot
    rw [hpark (Bool.eq_true_of_not_eq_false hnot)] at hx
    cases hx
  cases p with
  | get site q =>
    cases q with
    | start => exact hdown h
    | _ => exact ⟨hdown h.1, h.2⟩
  | elasticLoop | run | giraFila | giraHead | giraWake => exact hdown h
  | elasticGiro => exact ⟨hdown h.1, h.2⟩
  | elasticStop => exact fun hD => hstop (h hD)
  | elasticPark => exact h
  | elasticPrepare | elasticParked | perfil => exact fun hD => ⟨(h hD).1, hdown (h hD).2⟩
  | sleep => exact ⟨fun hD => hdown (h.1 hD), fun hD => hsig (h.2 hD)⟩
  | sleepClear | elasticWoken | elasticActive => exact fun hD => hdown (h hD)
  | _ => trivial

/-- An activation finds the worker with nothing due and, away from its re-arming, on a way that
leads to its loop. -/
theorem WorkerPc.Answers.activate {x x' : PoolWorker} {stop stop' : Bool} {D : Activation}
    {p : WorkerPc} (h : p.Answers x stop D) (hx : x.parked = true) (hx' : x'.parked = false)
    (hp : p.rearming = false) : p.Answers x' stop' .owed := by
  cases p with
  | get site q =>
    cases q with
    | start => exact hx'
    | _ => cases hx.symm.trans h.1
  | elasticLoop | run | giraFila | giraHead | giraWake => exact hx'
  | elasticGiro => cases hx.symm.trans h.1
  | elasticStop | elasticPark => cases hp
  | elasticPrepare | elasticParked | perfil => exact fun _ => ⟨rfl, hx'⟩
  | sleep => exact ⟨fun _ => hx', nofun⟩
  | sleepClear | elasticWoken | elasticActive => exact fun _ => hx'
  | _ => trivial

theorem poolWorkerFn_answers {b : Bool} {D : Activation} (hel : d.isElastic w = true)
    (hk : (s.workers w).pc.Kind d w)
    (h : (s.workers w).pc.Answers (s.workers w) s.stop D)
    (hkept : (s.workers w).pc = .perfil → (s.workers w).parked = false →
      (s.workers w).signal = true)
    (hs : poolWorkerFn d s w b (s.workers w).pc = some s') :
    (s'.workers w).pc.Answers (s'.workers w) s'.stop (D.after (s.workers w).pc) := by
  have hcore : d.isCore w = false := by
    by_contra hc
    rw [d.not_elastic_of_core (Bool.eq_true_of_not_eq_false hc)] at hel
    cases hel
  rw [(poolWorkerFn_loop hs).stop]
  cases hpc : (s.workers w).pc <;> rw [hpc] at hs hk h <;>
    simp only [poolWorkerFn, Option.some.injEq, reduceCtorEq] at hs
  case get site p =>
    have hpark : (s.workers w).parked = false := by
      cases p <;> first | exact h | exact h.1
    have hnone : D.after (.get site p) = .none := by
      cases p <;> first | rfl | exact h.2
    rw [hnone]
    split at hs
    · rename_i q hg
      subst hs
      rw [PoolState.setPc_self]
      have hpark' := (poolTryGet_self hg).2.2.1.trans hpark
      cases q <;> first | exact hpark' | exact ⟨hpark', rfl⟩
    · rename_i t hg
      subst hs
      have hpark' := (poolTryGet_self hg).2.2.1.trans hpark
      unfold PoolState.found
      cases site <;> simp only [WorkerPc.Kind, hcore, hel, Bool.false_eq_true, reduceCtorEq] at hk
      rw [PoolState.run_self]
      exact hpark'
    · rename_i hg
      subst hs
      rw [PoolState.setPc_self, poolTryGet_nothing hg]
      cases site <;> simp only [WorkerPc.Kind, hcore, hel, Bool.false_eq_true, reduceCtorEq] at hk
      exact ⟨hpark, rfl⟩
  case giraFila t j =>
    subst hs
    split_ifs <;> simp only [PoolState.setPc_self, PoolState.run_self] <;> exact h
  case giraHead =>
    subst hs
    rw [PoolState.setPc_self]
    dsimp only
    split_ifs <;> exact h
  case giraWake t p =>
    have hn := poolWakeSubmit_nudged d s p w
    have hpark := (WorkerPc.Answers.nudged (p := .run) (D := D) h hn (id : s.stop = true → _))
    split at hs <;> rename_i hg <;> rw [hg] at hpark <;> subst hs
    · rw [PoolState.setPc_self]
      exact hpark
    · rw [PoolState.run_self]
      exact hpark
  case perfil =>
    subst hs
    rw [PoolState.setPc_self]
    refine ⟨fun hD => ?_, fun hD => ?_⟩
    all_goals
      have hD' : D ≠ .none := by
        rintro rfl
        revert hD
        simp [Activation.after]
    · exact (h hD').2
    · exact hkept hpc (h hD').2
  case sleep =>
    split_ifs at hs
    cases hs
    rw [PoolState.setPc_self]
    exact h.1
  all_goals subst hs
  case sleepClear =>
    rw [PoolState.setPc_self, PoolState.setSignal_self]
    simp only [hel, if_true]
    exact h
  case elasticStop =>
    rw [PoolState.setPc_self]
    dsimp only
    split_ifs with hstop
    · trivial
    · by_contra hD
      exact hstop (h hD)
  case elasticPark =>
    rw [PoolState.setPc_self, PoolState.setParked_self]
    exact fun hD => absurd h hD
  case elasticPrepare =>
    rw [PoolState.setPc_self, PoolState.setSignal_self]
    exact h
  case elasticParked =>
    rw [PoolState.setPc_self]
    dsimp only
    split_ifs with hpark
    · exact h
    · exact fun hD => (h hD).2
  case elasticWoken =>
    rw [PoolState.setPc_self]
    dsimp only
    split_ifs
    · trivial
    · exact h
  case elasticActive =>
    rw [PoolState.setWorker_self]
    split_ifs with hpark
    · intro hD
      rw [h hD] at hpark
      cases hpark
    · exact Bool.eq_false_iff.mpr hpark
  case elasticLoop =>
    rw [PoolState.setPc_self]
    dsimp only
    split_ifs with hstop
    · exact fun _ => hstop
    · exact h
  case elasticGiro =>
    split_ifs <;> simp only [PoolState.setPc_self, PoolState.setWorker_self] <;>
      first | exact h.1 | exact fun hD => absurd h.2 hD
  all_goals simp only [WorkerPc.Kind, hcore, hel, Bool.false_eq_true, reduceCtorEq, false_and] at hk

theorem poolRun_parked {t : ℕ} {p : FramePc} {rest : List Frame}
    (hs : poolRun d s w t rest p = some s') (h : (s.workers w).parked = false) :
    (s'.workers w).parked = false := by
  cases p <;> simp only [poolRun, Option.some.injEq, reduceCtorEq] at hs
  case place u =>
    subst hs
    split
    · rw [PoolState.setWorker_self]
      exact h
    · split_ifs <;> rw [PoolState.setWorker_self] <;> exact h
  case wake u q =>
    have hn := poolWakeSubmit_nudged d s q w
    have hpark := (WorkerPc.Answers.nudged (p := .run) (D := .none) h hn (id : s.stop = true → _))
    split at hs <;> rename_i hw <;> rw [hw] at hpark <;> subst hs <;>
      rw [PoolState.setFrames, PoolState.setWorker_self] <;> exact hpark
  case ctrStore v =>
    subst hs
    split
    · rw [PoolState.setFrames, PoolState.setWorker_self]
      exact h
    · rw [PoolState.setWorker_self]
      unfold PoolDims.nextTurn
      split_ifs <;> exact h
  case stopTest =>
    subst hs
    split <;> rw [PoolState.setFrames, PoolState.setWorker_self] <;> exact h
  all_goals
    subst hs
    first | rw [PoolState.setWorker_self] | rw [PoolState.setFrames, PoolState.setWorker_self]
    exact h

theorem poolRun_elastic {t : ℕ} {p : FramePc} {rest : List Frame} {D : Activation}
    (hel : d.isElastic w = true) (hpc : (s.workers w).pc = .run)
    (h : (s.workers w).pc.Answers (s.workers w) s.stop D)
    (hs : poolRun d s w t rest p = some s') :
    (s'.workers w).pc.Answers (s'.workers w) s'.stop D := by
  rw [hpc] at h
  have hpark := poolRun_parked hs h
  obtain ⟨-, -, hpc'⟩ := poolRun_words hs
  rcases hpc' with hpc' | ⟨hpc', -⟩ | ⟨-, hno⟩
  · rw [hpc', hpc]
    exact hpark
  · rw [hpc']
    exact hpark
  · cases hno.symm.trans hel

section Client

variable [DecidableEq ι] {x x' : ElasticWatch ι} {l : PoolLabel ι}

theorem poolStep_activates (hs : poolStep d s l = some s') (h : s.activates l = some e) :
    l = .monitor ∧ (∃ n, s.monitor = .claim e n) ∧ (s.workers e).parked = true ∧
      s.stop = false ∧ (s'.workers e).parked = false := by
  cases l <;> try cases h
  unfold PoolState.activates at h
  dsimp only at h
  split at h
  · rename_i z n hm
    split_ifs at h with hp
    obtain rfl := Option.some.inj h
    have hs : poolMonitorFn d s s.monitor = some s' := hs
    rw [hm] at hs
    simp only [poolMonitorFn, Option.some.injEq, hp.1, if_true] at hs
    subst hs
    refine ⟨rfl, ⟨n, hm⟩, hp.1, hp.2, ?_⟩
    exact congrArg PoolWorker.parked (PoolState.setParked_self s z false)
  · cases h

omit [DecidableEq ι] in
theorem ElasticWatch.dueAfter_other (hm : l.mover ≠ some w) :
    x.dueAfter l w = if x.pool.activates l = some w then .owed else x.due w := by
  unfold ElasticWatch.dueAfter
  split
  · rename_i v b
    have hv : w ≠ v := fun he => hm (by rw [he, PoolLabel.mover])
    rw [Function.update_of_ne hv, if_neg (fun h => by cases h)]
  · cases hz : x.pool.activates l with
    | none => rw [if_neg (fun h => by cases h)]
    | some z =>
      by_cases hzw : w = z
      · rw [hzw, if_pos rfl]
        exact Function.update_self ..
      · rw [if_neg fun he => hzw (Option.some.inj he).symm]
        exact Function.update_of_ne hzw ..

structure ElasticInv (d : PoolDims) (x : ElasticWatch ι) : Prop where
  wf : PoolWf d x.pool
  park : ParkInv d x.pool
  answers : ∀ w, d.isElastic w = true →
    (x.pool.workers w).pc.Answers (x.pool.workers w) x.pool.stop (x.due w)

theorem ElasticInv.step (h : ElasticInv d x) (hok : ActivationKept d x l)
    (hs : elasticWatchStep d x l = some x') : ElasticInv d x' := by
  obtain ⟨s', hp, rfl⟩ := Option.map_eq_some_iff.mp hs
  refine ⟨poolStep_wf h.wf hp, h.park.step h.wf hp, fun w hel => ?_⟩
  have hw := h.answers w hel
  have hstop : x.pool.stop = true → s'.stop = true := by
    intro ht
    by_contra hnot
    rw [poolStep_stop hp (Bool.eq_false_iff.mpr hnot)] at ht
    cases ht
  by_cases hm : l.mover = some w
  · cases l with
    | worker v b =>
      obtain rfl : v = w := Option.some.inj hm
      simp only [ElasticWatch.dueAfter, Function.update_self]
      simp only [poolStep] at hp
      split_ifs at hp
      split at hp
      · apply poolWorkerFn_answers hel (h.park.kind v) hw _ hp
        intro hpc hpark
        unfold ActivationKept at hok
        dsimp only at hok
        rw [hpc] at hok
        exact hok hel hpark
      · have hpc := (h.wf.frames_ok ‹_›).1
        have hw' := poolRun_elastic hel hpc hw hp
        rwa [hpc]
    | spawn v | finish v =>
      obtain rfl : v = w := Option.some.inj hm
      simp only [poolStep] at hp
      split at hp <;> simp only [Option.some.injEq, reduceCtorEq] at hp
      have hpc := (h.wf.frames_ok ‹_›).1
      subst hp
      rw [hpc] at hw
      rw [PoolState.setFrames_pc, PoolState.setFrames, PoolState.setWorker_self]
      dsimp only
      rw [hpc]
      exact hw
    | lapse v clear woken =>
      obtain rfl : v = w := Option.some.inj hm
      simp only [poolStep] at hp
      split at hp <;> simp only [Option.some.injEq, reduceCtorEq] at hp
      rename_i hpc
      subst hp
      rw [hpc] at hw
      rw [PoolState.setPc_self]
      simp only [hel, if_true]
      split_ifs <;> exact hw.1
    | _ => cases hm
  · have hn := poolStep_nudged hp hm
    dsimp only
    rw [hn.pc, ElasticWatch.dueAfter_other hm]
    split_ifs with hact
    · obtain ⟨rfl, ⟨n, hmon⟩, hpark, hst, hpark'⟩ := poolStep_activates hp hact
      apply hw.activate hpark hpark'
      unfold ActivationKept at hok
      dsimp only at hok
      rw [hmon] at hok
      exact hok ⟨hpark, hst⟩
    · exact hw.nudged hn hstop

/-- As long as the monitor's CAS does not fall into the re-arming of the worker, an activated
worker looks for tasks before it blocks again. -/
theorem elastic_activation_kept (d : PoolDims)
    (hr : (elasticWatch (ι := ι) d).ReachableWhen (ActivationKept d) x) {e : ℕ}
    (he : d.isElastic e = true) : ¬x.Lost e := by
  have hinv := hr.invariant (P := ElasticInv d)
    (fun x₀ hi => by
      obtain rfl : x₀ = ⟨poolCreateRelative d, fun _ => .none⟩ := hi
      refine ⟨poolCreateRelative_wf d, poolCreateRelative_park d, fun w hel => ?_⟩
      simp only [poolCreateRelative, hel, if_true]
      exact fun hD => absurd rfl hD)
    (fun x₀ l x₁ h hl hs => h.step hl hs)
  rintro ⟨hdue, hpc, hsig⟩
  have hans := hinv.answers e he
  cases hp : (x.pool.workers e).pc <;> rw [hp] at hpc hans <;> try cases hpc
  rw [hans.2 hdue] at hsig
  cases hsig

end Client

def PoolDims.twoElastic : PoolDims :=
  ⟨2, 2, 3, 1, Nat.two_pos, Nat.one_lt_two, Nat.le_succ 2, Nat.one_pos⟩

/-- Both core workers are in long tasks and a third task is queued; the monitor has seen the tasks
once. -/
def pressure : List (PoolLabel Unit) :=
  [.call () .submit] ++ List.replicate 10 (.client () true) ++
    List.replicate 8 (.worker 0 false) ++
    [.call () .submit] ++ List.replicate 10 (.client () true) ++
    List.replicate 8 (.worker 1 false) ++
    [.call () .submit] ++ List.replicate 10 (.client () true) ++
    List.replicate 3 .monitor ++ [.monitorLapse false] ++ List.replicate 7 .monitor

/-- The turn of the monitor that finds the two workers stuck, up to its CAS and wake. -/
def activation : List (PoolLabel Unit) :=
  List.replicate 2 .monitor ++ [.monitorLapse false] ++ List.replicate 12 .monitor

/-- A sleeping elastic worker is activated, looks for tasks and gets the queued one. -/
theorem elastic_activation_kept_asleep : ∃ x : ElasticWatch Unit,
    (elasticWatch .twoElastic).ReachableWhen (ActivationKept .twoElastic) x ∧
      (x.pool.workers 2).frames.map Frame.task = [2] ∧ ¬x.Lost 2 := by
  have hout : ((elasticWatch .twoElastic).execWhen (ActivationKept .twoElastic)
      ⟨poolCreateRelative .twoElastic, fun _ => .none⟩
      (List.flatten [pressure, List.replicate 5 (.worker 2 false), activation,
        List.replicate 10 (.worker 2 false)])).map
        (fun x => (x.pool.workers 2).frames.map Frame.task) = some [2] := by decide +kernel
  obtain ⟨x, hrun, hs⟩ := Option.map_eq_some_iff.mp hout
  have hr : (elasticWatch .twoElastic).ReachableWhen (ActivationKept .twoElastic) x :=
    .exec (.init rfl) hrun
  exact ⟨x, hr, hs, elastic_activation_kept .twoElastic hr rfl⟩

/-- The sleep of an elastic worker times out; it reads `parked`, which is still set; now it is
activated and woken, and then it goes on with its re-arming. It sleeps with `parked` set. -/
theorem elastic_activation_lost : ∃ x : ElasticWatch Unit,
    (elasticWatch .twoElastic).Reachable x ∧ x.pool.stop = false ∧
      (x.pool.workers 2).parked = true ∧ x.Lost 2 := by
  have hout : ((elasticWatch .twoElastic).exec ⟨poolCreateRelative .twoElastic, fun _ => .none⟩
      (List.flatten [pressure, List.replicate 5 (.worker 2 false), [.lapse 2 false false],
        List.replicate 2 (.worker 2 false), activation, List.replicate 5 (.worker 2 false)])).map
        (fun x => ((x.pool.stop, (x.pool.workers 2).parked), x.due 2,
          (x.pool.workers 2).pc.asleep, (x.pool.workers 2).signal)) =
      some ((false, true), .slept, true, false) := by decide +kernel
  obtain ⟨x, hrun, hs⟩ := Option.map_eq_some_iff.mp hout
  simp only [Prod.mk.injEq] at hs
  obtain ⟨⟨hstop, hpark⟩, hdue, hpc, hsig⟩ := hs
  exact ⟨x, .exec (.init rfl) hrun, hstop, hpark, hdue, hpc, hsig⟩

end Xplatbase.ThreadPool
