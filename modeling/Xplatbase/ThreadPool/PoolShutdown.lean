import Xplatbase.ThreadPool.PoolPrivate

/-! Joining the threads of the pool. `pool_destroy_relative` sets `stop`, signals a thread and
joins it. A core or reserve worker tests `stop` between clearing its signal and sleeping; an
elastic worker, and the monitor in the economy profile, clear their signal after their last test
of `stop`, and with it a wake that has already been sent. -/
namespace Xplatbase.ThreadPool
open Xplatbase.Lib

variable {ι : Type*} {d : PoolDims} {s s' : PoolState ι} {w : ℕ}

/-- In `pool_destroy_relative`, which has set `stop`. -/
def ClientPc.ending : ClientPc → Bool
  | .wakeMon | .joinMon | .wakeWorker _ | .joinWorker _ => true
  | _ => false

/-- A thread that `pool_destroy_relative` has woken and now joins is blocked all the same, until
its sleep times out. -/
def PoolState.Stalled (s : PoolState ι) (c : ι) : Prop :=
  (s.clients c = .joinMon ∧ s.monSignal = false ∧ ∃ long, s.monitor = .sleep long) ∨
    ∃ w, s.clients c = .joinWorker w ∧ (s.workers w).signal = false ∧
      (s.workers w).pc.asleep = true

/-- The step does not clear a signal whose thread is already being joined: no elastic worker in
its re-arming, and not the monitor before its announcement. -/
def PoolState.WakeKept (s : PoolState ι) : PoolLabel ι → Prop
  | .worker w _ => match (s.workers w).pc with
    | .elasticPrepare => ∀ c, s.clients c ≠ .joinWorker w
    | _ => True
  | .monitor => match s.monitor with
    | .prepare => ∀ c, s.clients c ≠ .joinMon
    | _ => True
  | _ => True

instance [Fintype ι] (s : PoolState ι) : (l : PoolLabel ι) → Decidable (s.WakeKept l)
  | .worker w _ => by
    unfold PoolState.WakeKept
    dsimp only
    split <;> infer_instance
  | .monitor => by
    unfold PoolState.WakeKept
    dsimp only
    split <;> infer_instance
  | .call _ _ | .client _ _ | .spawn _ | .finish _ | .lapse _ _ _ | .monitorLapse _ =>
    .isTrue trivial

theorem PoolState.WakeKept.worker {b : Bool} (h : s.WakeKept (.worker w b))
    (hpc : (s.workers w).pc = .elasticPrepare) (c : ι) : s.clients c ≠ .joinWorker w := by
  unfold PoolState.WakeKept at h
  dsimp only at h
  rw [hpc] at h
  exact h c

theorem PoolState.WakeKept.monitor (h : s.WakeKept .monitor) (hm : s.monitor = .prepare)
    (c : ι) : s.clients c ≠ .joinMon := by
  unfold PoolState.WakeKept at h
  dsimp only at h
  rw [hm] at h
  exact h c

/-- Past the last test of `stop` before a sleep. -/
def WorkerPc.late : WorkerPc → Bool
  | .announce | .announceCount | .get .announced _ | .perfil | .sleep _ | .elasticParked => true
  | _ => false

/-- The monitor tests `stop` before it sleeps or clears its signal. -/
def MonitorPc.testing : MonitorPc → Bool
  | .stopTest | .awake | .awakeStop | .exited => true
  | _ => false

/-- Which of its sleeps the monitor is in: the long one of an idle pool, or the short one. -/
def MonitorPc.slumber : MonitorPc → Option Bool
  | .sleep long => some long
  | _ => none

theorem MonitorPc.eq_sleep {m : MonitorPc} {long : Bool} (h : m.slumber = some long) :
    m = .sleep long := by
  cases m <;> simp only [MonitorPc.slumber, Option.some.injEq, reduceCtorEq] at h
  rw [h]

structure ShutdownInv (s : PoolState ι) : Prop where
  stop : ∀ c, (s.clients c).ending = true → s.stop = true
  monitor : ∀ c, s.clients c = .joinMon → s.monSignal = true ∨ s.monitor.testing = true
  worker : ∀ c w, s.clients c = .joinWorker w → (s.workers w).pc.late = true →
    (s.workers w).signal = true

theorem Spin.leave_late (sp : Spin) : sp.leave.late = false := by
  unfold Spin.leave
  split_ifs <;> rfl

theorem late_found {s₁ : PoolState ι} {t : ℕ} {site : GetSite} :
    ((s₁.found w t site).workers w).pc.late = false := by
  unfold PoolState.found
  split
  · split_ifs
    · rw [PoolState.setPc_self]
      rfl
    · rw [PoolState.run_self]
      rfl
  · rw [PoolState.setPc_self]
    rfl
  · rw [PoolState.run_self]
    rfl

/-- Once `stop` is set, a worker gets no closer to a sleep except by re-arming. -/
theorem poolWorkerFn_late {b : Bool} (hstop : s.stop = true)
    (hprep : (s.workers w).pc ≠ .elasticPrepare)
    (hs : poolWorkerFn d s w b (s.workers w).pc = some s')
    (hlate : (s'.workers w).pc.late = true) :
    (s.workers w).pc.late = true ∧ (s'.workers w).signal = (s.workers w).signal := by
  cases hpc : (s.workers w).pc <;> rw [hpc] at hs <;>
    simp only [poolWorkerFn, Option.some.injEq, reduceCtorEq] at hs
  case elasticPrepare => exact absurd hpc hprep
  case get site p =>
    split at hs
    · rename_i q hg
      subst hs
      have hself := (poolTryGet_self hg).2.2.2
      rw [PoolState.setPc_self] at hlate ⊢
      refine ⟨?_, hself⟩
      cases site <;> first | rfl | cases hlate
    · subst hs
      rw [late_found] at hlate
      cases hlate
    · rename_i hg
      subst hs
      rw [poolTryGet_nothing hg] at hlate ⊢
      rw [PoolState.setPc_self] at hlate ⊢
      refine ⟨?_, rfl⟩
      cases site <;> simp only [GetSite.missed] at hlate <;> (try split_ifs at hlate) <;>
        first | rfl | cases hlate
  case giraFim sp t =>
    subst hs
    cases t <;> dsimp only at hlate <;> split_ifs at hlate <;> cases (by simpa using hlate)
  case giraWake t p =>
    split at hs <;> subst hs
    · rw [PoolState.setPc_self] at hlate
      cases hlate
    · rw [PoolState.run_self] at hlate
      cases hlate
  case sleep =>
    split_ifs at hs
    cases hs
    rw [PoolState.setPc_self] at hlate
    cases hlate
  case spinStop sp =>
    subst hs
    rw [PoolState.setPc_self] at hlate
    dsimp only at hlate
    cases hl : sp.loop <;> rw [hl] at hlate <;> dsimp only at hlate <;> split_ifs at hlate <;>
      first | cases hlate | (rw [Spin.leave_late] at hlate; cases hlate)
  all_goals subst hs
  case announce | announceCount | perfil | elasticParked =>
    refine ⟨rfl, ?_⟩
    simp
  case parkTest =>
    rw [PoolState.setPc_self, if_pos hstop] at hlate
    cases hlate
  all_goals
    exfalso
    revert hlate
    (try split_ifs) <;> simp [WorkerPc.late]

theorem poolRun_late {t : ℕ} {p : FramePc} {rest : List Frame} (hpc : (s.workers w).pc = .run)
    (hs : poolRun d s w t rest p = some s') : (s'.workers w).pc.late = false := by
  obtain ⟨-, -, hpc'⟩ := poolRun_words hs
  rcases hpc' with hpc' | ⟨hpc', -⟩ | ⟨hpc', -⟩ <;> rw [hpc']
  · rw [hpc]
    rfl
  · rfl
  · rfl

/-- A worker reads the words of the monitor and never writes them. -/
structure PoolState.MonKept (s s' : PoolState ι) : Prop where
  monitor : s'.monitor = s.monitor
  signal : s'.monSignal = s.monSignal
  dormindo : s'.monDormindo = s.monDormindo
  economia : s'.economia = s.economia

theorem poolWakeSubmit_monKept (d : PoolDims) (s : PoolState ι) (p : WakePc) :
    s.MonKept (poolWakeSubmit d s p).1 := by
  cases p with
  | claim start j =>
    simp only [poolWakeSubmit]
    split <;> exact ⟨rfl, rfl, rfl, rfl⟩
  | _ => exact ⟨rfl, rfl, rfl, rfl⟩

theorem poolWorkerFn_monKept {b : Bool} {p : WorkerPc}
    (hs : poolWorkerFn d s w b p = some s') : s.MonKept s' := by
  cases p <;> simp only [poolWorkerFn, Option.some.injEq, reduceCtorEq] at hs
  case get site p =>
    have hg : s.MonKept (poolTryGet d s w b p).1 := by
      cases p <;> simp only [poolTryGet] <;> (try split) <;> (try split_ifs) <;>
        exact ⟨rfl, rfl, rfl, rfl⟩
    split at hs <;> rename_i hget <;> rw [hget] at hg <;> subst hs
    · exact ⟨hg.1, hg.2, hg.3, hg.4⟩
    · unfold PoolState.found
      split
      · split_ifs <;> exact ⟨hg.1, hg.2, hg.3, hg.4⟩
      · exact ⟨hg.1, hg.2, hg.3, hg.4⟩
      · exact ⟨hg.1, hg.2, hg.3, hg.4⟩
    · exact ⟨hg.1, hg.2, hg.3, hg.4⟩
  case giraWake t p =>
    have hm := poolWakeSubmit_monKept d s p
    split at hs <;> rename_i hw <;> rw [hw] at hm <;> subst hs <;>
      exact ⟨hm.1, hm.2, hm.3, hm.4⟩
  case giraFim sp t =>
    subst hs
    cases t <;> dsimp only <;> split_ifs <;> exact ⟨rfl, rfl, rfl, rfl⟩
  case sleep =>
    split_ifs at hs
    cases hs
    exact ⟨rfl, rfl, rfl, rfl⟩
  all_goals
    subst hs
    (try split_ifs) <;> exact ⟨rfl, rfl, rfl, rfl⟩

theorem poolRun_monKept {t : ℕ} {p : FramePc} {rest : List Frame}
    (hs : poolRun d s w t rest p = some s') : s.MonKept s' := by
  cases p <;> simp only [poolRun, Option.some.injEq, reduceCtorEq] at hs
  case wake u q =>
    have hm := poolWakeSubmit_monKept d s q
    split at hs <;> rename_i hw <;> rw [hw] at hm <;> subst hs <;>
      exact ⟨hm.1, hm.2, hm.3, hm.4⟩
  case place u =>
    subst hs
    split
    · exact ⟨rfl, rfl, rfl, rfl⟩
    · split_ifs <;> exact ⟨rfl, rfl, rfl, rfl⟩
  case stopTest | ctrStore =>
    subst hs
    split <;> exact ⟨rfl, rfl, rfl, rfl⟩
  all_goals
    subst hs
    exact ⟨rfl, rfl, rfl, rfl⟩

theorem poolStep_monKept [DecidableEq ι] {l : PoolLabel ι} (hm : l.mover = some w)
    (hs : poolStep d s l = some s') : s.MonKept s' := by
  cases l with
  | worker v b =>
    simp only [poolStep] at hs
    split_ifs at hs
    split at hs
    · exact poolWorkerFn_monKept hs
    · exact poolRun_monKept hs
  | spawn v | finish v | lapse v clear woken =>
    simp only [poolStep] at hs
    split at hs <;> simp only [Option.some.injEq, reduceCtorEq] at hs
    subst hs
    exact ⟨rfl, rfl, rfl, rfl⟩
  | _ => cases hm

theorem poolMonitorFn_testing (hprep : s.monitor ≠ .prepare)
    (h : s.monSignal = true ∨ s.monitor.testing = true) (hstop : s.stop = true)
    (hs : poolMonitorFn d s s.monitor = some s') :
    s'.monSignal = true ∨ s'.monitor.testing = true := by
  cases hm : s.monitor <;> rw [hm] at hs h <;>
    simp only [poolMonitorFn, Option.some.injEq, reduceCtorEq] at hs
  case prepare => exact absurd hm hprep
  case sleep =>
    split_ifs at hs
    cases hs
    exact .inl ‹_›
  case stopTest | awakeStop =>
    subst hs
    rw [if_pos hstop]
    exact .inr rfl
  case start | sleepClear | awake =>
    subst hs
    exact .inr rfl
  all_goals
    have hsig : s.monSignal = true := h.resolve_right (fun h => by cases h)
    subst hs
    (try split_ifs) <;> exact .inl hsig

section Client

variable [DecidableEq ι] {c : ι}

/-- What a thread has done when it begins to join another, and to end the pool at all. -/
theorem poolClient_ending {b : Bool} {p : ClientPc} (hs : poolClient d s c b p = some s') :
    ((s'.clients c).ending = true → p.ending = true ∨ s'.stop = true) ∧
      (s'.clients c = .joinMon → s'.monSignal = true) ∧
      (∀ w, s'.clients c = .joinWorker w → (s'.workers w).signal = true) ∧
      (s.monSignal = true → s'.monSignal = true) := by
  have hword {s₁ : PoolState ι} {q : ClientPc} (hq : q.ending = false)
      (hm : s.monSignal = true → s₁.monSignal = true) :
      (((s₁.setClient c q).clients c).ending = true →
          p.ending = true ∨ (s₁.setClient c q).stop = true) ∧
        ((s₁.setClient c q).clients c = .joinMon → (s₁.setClient c q).monSignal = true) ∧
        (∀ w, (s₁.setClient c q).clients c = .joinWorker w →
          ((s₁.setClient c q).workers w).signal = true) ∧
        (s.monSignal = true → (s₁.setClient c q).monSignal = true) := by
    simp only [PoolState.setClient, Function.update_self]
    refine ⟨fun h => ?_, ?_, ?_, hm⟩
    · rw [hq] at h
      cases h
    · rintro rfl
      cases hq
    · rintro w rfl
      cases hq
  cases p <;> simp only [poolClient, Option.some.injEq, reduceCtorEq] at hs
  case submit t p =>
    subst hs
    cases p <;> simp only [poolSubmitRelative]
    case wake q =>
      have hm := (poolWakeSubmit_monKept d s q).signal
      split <;> rename_i hw <;> rw [hw] at hm <;> exact hword rfl fun h => hm.trans h
    case monSignal => exact hword rfl fun _ => rfl
    all_goals (try split_ifs) <;> exact hword rfl id
  case joinMon | joinWorker =>
    split at hs
    · cases hs
      simp only [PoolState.setClient, Function.update_self]
      refine ⟨fun _ => .inl rfl, ?_, ?_, id⟩ <;> split_ifs <;> simp
    · simp at hs
  case setStop =>
    subst hs
    simp only [PoolState.setClient, Function.update_self]
    exact ⟨fun _ => .inr trivial, (fun h => by cases h), (by simp), id⟩
  case wakeMon =>
    subst hs
    simp only [PoolState.setClient, Function.update_self]
    exact ⟨fun _ => .inl rfl, fun _ => trivial, (by simp), fun _ => trivial⟩
  case wakeWorker i =>
    subst hs
    simp only [PoolState.setClient, Function.update_self]
    refine ⟨fun _ => .inl rfl, (fun h => by cases h), ?_, id⟩
    intro w hw
    obtain rfl := ClientPc.joinWorker.inj hw
    exact congrArg PoolWorker.signal (PoolState.setSignal_self s i true)
  case perfilSignal =>
    subst hs
    exact hword rfl fun _ => rfl
  case waitIdle | destroyWait =>
    subst hs
    split
    · exact hword rfl id
    · split_ifs <;> exact hword rfl id
  all_goals
    subst hs
    (try split_ifs) <;> exact hword rfl id

theorem poolStep_stop_mono {l : PoolLabel ι} (hs : poolStep d s l = some s')
    (hstop : s.stop = true) : s'.stop = true := by
  by_contra hnot
  rw [poolStep_stop hs (Bool.eq_false_iff.mpr hnot)] at hstop
  cases hstop

/-- A client that does not move. -/
theorem ShutdownInv.still (h : ShutdownInv s) {l : PoolLabel ι} (hs : poolStep d s l = some s')
    {c : ι} (hc : s'.clients c = s.clients c) (he : (s'.clients c).ending = true) :
    s'.stop = true := by
  rw [hc] at he
  exact poolStep_stop_mono hs (h.stop c he)

/-- A worker that is being joined, and whom somebody else's step leaves where it is. -/
theorem ShutdownInv.other (h : ShutdownInv s) {l : PoolLabel ι} (hs : poolStep d s l = some s')
    {c : ι} (hw : l.mover ≠ some w) (hc : s.clients c = .joinWorker w)
    (hlate : (s'.workers w).pc.late = true) : (s'.workers w).signal = true := by
  have hn := poolStep_nudged hs hw
  rw [hn.pc] at hlate
  exact hn.signal (h.worker c w hc hlate)

/-- A step of worker `w`: only what it does to its own place and signal matters. -/
theorem ShutdownInv.of_mover (h : ShutdownInv s) {l : PoolLabel ι}
    (hm : l.mover = some w) (hs : poolStep d s l = some s')
    (hback : ∀ c, s'.clients c = s.clients c)
    (hown : ∀ c, s.clients c = .joinWorker w → (s'.workers w).pc.late = true →
      (s'.workers w).signal = true) : ShutdownInv s' := by
  have hkept := poolStep_monKept hm hs
  constructor
  · intro c he
    rw [hback c] at he
    exact poolStep_stop_mono hs (h.stop c he)
  · intro c hj
    rw [hback c] at hj
    rw [hkept.monitor, hkept.signal]
    exact h.monitor c hj
  · intro c v hj hlate
    rw [hback c] at hj
    by_cases hv : v = w
    · subst hv
      exact hown c hj hlate
    · exact h.other hs (fun he => hv (Option.some.inj (he.symm.trans hm))) hj hlate

theorem ShutdownInv.call (h : ShutdownInv s) {c' : ι} {k : PoolCall}
    (hs : poolStep d s (.call c' k) = some s') : ShutdownInv s' := by
  have hquiet : (s'.clients c').ending = false := by
    simp only [poolStep] at hs
    split at hs <;> simp only [Option.some.injEq, reduceCtorEq] at hs
    rename_i hidle
    subst hs
    cases k <;> simp [PoolState.setClient, ClientPc.ending, hidle]
  have hback (c : ι) (he : (s'.clients c).ending = true) : s'.clients c = s.clients c := by
    by_cases hc : c = c'
    · rw [hc, hquiet] at he
      cases he
    · exact poolStep_clients hs (fun k hk => hc (PoolLabel.call.inj hk).1.symm)
        fun _ h => by cases h
  have hmon : s'.monitor = s.monitor ∧ s'.monSignal = s.monSignal := by
    simp only [poolStep] at hs
    split at hs <;> simp only [Option.some.injEq, reduceCtorEq] at hs
    subst hs
    cases k <;> exact ⟨rfl, rfl⟩
  constructor
  · intro c he
    exact h.still hs (hback c he) he
  · intro c hc
    rw [hback c (by rw [hc]; rfl)] at hc
    rw [hmon.1, hmon.2]
    exact h.monitor c hc
  · intro c w hc
    rw [hback c (by rw [hc]; rfl)] at hc
    exact h.other hs (fun h => by cases h) hc

theorem ShutdownInv.client (h : ShutdownInv s) {c' : ι} {b : Bool}
    (hs : poolStep d s (.client c' b) = some s') : ShutdownInv s' := by
  obtain ⟨hend, hjoin, hjoinw, hsig⟩ := poolClient_ending hs
  have hback (c : ι) (hc : c ≠ c') : s'.clients c = s.clients c :=
    poolStep_clients hs (fun _ h => by cases h) fun b hb => hc (PoolLabel.client.inj hb).1.symm
  constructor
  · intro c he
    by_cases hc : c = c'
    · subst hc
      exact (hend he).elim (fun h₀ => poolStep_stop_mono hs (h.stop c h₀)) id
    · exact h.still hs (hback c hc) he
  · intro c hj
    by_cases hc : c = c'
    · subst hc
      exact .inl (hjoin hj)
    · rw [hback c hc] at hj
      rw [(poolClient_words hs).2.2]
      exact (h.monitor c hj).imp hsig id
  · intro c w hj
    by_cases hc : c = c'
    · subst hc
      exact fun _ => hjoinw w hj
    · rw [hback c hc] at hj
      exact h.other hs (fun h => by cases h) hj

theorem ShutdownInv.step (h : ShutdownInv s) (hwf : PoolWf d s) {l : PoolLabel ι}
    (hkept : s.WakeKept l) (hs : poolStep d s l = some s') : ShutdownInv s' := by
  cases l with
  | call c' k => exact h.call hs
  | client c' b => exact h.client hs
  | worker w' b =>
    apply h.of_mover rfl hs fun c =>
      poolStep_clients hs (fun _ h => by cases h) fun _ h => by cases h
    intro c hj hlate
    simp only [poolStep] at hs
    split_ifs at hs
    split at hs
    · have hstop := h.stop c (by rw [hj]; rfl)
      obtain ⟨hl, hsig⟩ := poolWorkerFn_late hstop (fun hp => hkept.worker hp c hj) hs hlate
      exact hsig.trans (h.worker c w' hj hl)
    · rw [poolRun_late (hwf.frames_ok ‹_›).1 hs] at hlate
      cases hlate
  | spawn w' | finish w' =>
    apply h.of_mover rfl hs fun c =>
      poolStep_clients hs (fun _ h => by cases h) fun _ h => by cases h
    intro c hj hlate
    simp only [poolStep] at hs
    split at hs <;> simp only [Option.some.injEq, reduceCtorEq] at hs
    subst hs
    rw [PoolState.setFrames_pc] at hlate
    rw [PoolState.setFrames, PoolState.setWorker_self]
    exact h.worker c w' hj hlate
  | lapse w' clear woken =>
    apply h.of_mover rfl hs fun c =>
      poolStep_clients hs (fun _ h => by cases h) fun _ h => by cases h
    intro c hj hlate
    simp only [poolStep] at hs
    split at hs <;> simp only [Option.some.injEq, reduceCtorEq] at hs
    subst hs
    rw [PoolState.setPc_self] at hlate
    dsimp only at hlate
    split_ifs at hlate <;> cases hlate
  | monitor =>
    have hback (c : ι) : s'.clients c = s.clients c :=
      poolStep_clients hs (fun _ h => by cases h) fun _ h => by cases h
    constructor
    · intro c
      exact h.still hs (hback c)
    · intro c hj
      rw [hback c] at hj
      have hstop := h.stop c (by rw [hj]; rfl)
      exact poolMonitorFn_testing (fun hp => hkept.monitor hp c hj) (h.monitor c hj) hstop hs
    · intro c w hj
      rw [hback c] at hj
      exact h.other hs (fun h => by cases h) hj
  | monitorLapse clear =>
    have hback (c : ι) : s'.clients c = s.clients c :=
      poolStep_clients hs (fun _ h => by cases h) fun _ h => by cases h
    constructor
    · intro c
      exact h.still hs (hback c)
    · intro c hj
      rw [hback c] at hj
      simp only [poolStep] at hs
      split at hs <;> simp only [Option.some.injEq, reduceCtorEq] at hs
      rename_i hm
      have hsig := (h.monitor c hj).resolve_right (by rw [hm]; intro h; cases h)
      subst hs
      exact .inl hsig
    · intro c w hj
      rw [hback c] at hj
      exact h.other hs (fun h => by cases h) hj

/-- As long as no signal is cleared under a thread that is being joined, each thread that
`pool_destroy_relative` joins has its wake before it or never sleeps again. -/
theorem poolDestroy_wake_kept (d : PoolDims)
    (hr : (poolSystem d).ReachableWhen PoolState.WakeKept s) (c : ι) : ¬s.Stalled c := by
  obtain ⟨-, h⟩ := hr.invariant (P := fun s : PoolState ι => PoolWf d s ∧ ShutdownInv s)
    (fun s₀ hi => by
      obtain rfl : s₀ = poolCreateRelative d := hi
      exact ⟨poolCreateRelative_wf d, nofun, nofun, nofun⟩)
    (fun s₀ l s₁ h hl hs => ⟨poolStep_wf h.1 hs, h.2.step h.1 hl hs⟩)
  rintro (⟨hj, hsig, long, hm⟩ | ⟨w, hj, hsig, hpc⟩)
  · rcases h.monitor c hj with ht | ht
    · rw [hsig] at ht
      cases ht
    · rw [hm] at ht
      cases ht
  · have hlate : (s.workers w).pc.late = true := by
      cases hp : (s.workers w).pc <;> rw [hp] at hpc <;> first | rfl | cases hpc
    rw [h.worker c w hj hlate] at hsig
    cases hsig

end Client

def PoolDims.oneElastic : PoolDims :=
  ⟨1, 1, 2, 1, Nat.one_pos, Nat.one_pos, Nat.le_succ 1, Nat.one_pos⟩

/-- The elastic worker sleeps when it is woken, and is still in its wait when the join begins. -/
theorem poolDestroy_wake_kept_sleeping : ∃ s : PoolState Unit,
    (poolSystem .oneElastic).ReachableWhen PoolState.WakeKept s ∧
      s.clients () = .joinWorker 1 ∧ (s.workers 1).pc.asleep = true ∧ ¬s.Stalled () := by
  have hout : ((poolSystem .oneElastic).execWhen PoolState.WakeKept (poolCreateRelative .oneElastic)
      (List.flatten [List.replicate 5 (.worker 1 false), [.call () .destroy],
        List.replicate 6 (.client () false), [.monitor, .monitor],
        List.replicate 2 (.client () false), [.worker 0 false],
        List.replicate 2 (.client () false)])).map
        (fun s => (s.clients (), (s.workers 1).pc.asleep)) = some (.joinWorker 1, true) := by
    decide +kernel
  obtain ⟨s, hrun, hs⟩ := Option.map_eq_some_iff.mp hout
  obtain ⟨hc, hpc⟩ := Prod.mk.inj hs
  have hr : (poolSystem .oneElastic).ReachableWhen PoolState.WakeKept s := .exec (.init rfl) hrun
  exact ⟨s, hr, hc, hpc, poolDestroy_wake_kept .oneElastic hr ()⟩

/-- An elastic worker that has tested `stop` before it was set re-arms after its wake and sleeps
out its timeout, joined; and so does the monitor in the economy profile. -/
theorem poolDestroy_wake_lost :
    (∃ s : PoolState Unit, (poolSystem .oneElastic).Reachable s ∧ s.stop = true ∧
      s.clients () = .joinWorker 1 ∧ s.Stalled ()) ∧
    ∃ s : PoolState Unit, (poolSystem .oneElastic).Reachable s ∧ s.stop = true ∧
      s.clients () = .joinMon ∧ s.Stalled () := by
  constructor
  · have hout : ((poolSystem .oneElastic).exec (poolCreateRelative .oneElastic)
        (List.flatten [List.replicate 2 (.worker 1 false), [.call () .destroy],
          List.replicate 6 (.client () false), [.monitor, .monitor],
          List.replicate 2 (.client () false), [.worker 0 false],
          List.replicate 2 (.client () false), List.replicate 3 (.worker 1 false)])).map
          (fun s => ((s.stop, s.clients ()), (s.workers 1).signal, (s.workers 1).pc.asleep)) =
        some ((true, .joinWorker 1), false, true) := by decide +kernel
    obtain ⟨s, hrun, hs⟩ := Option.map_eq_some_iff.mp hout
    simp only [Prod.mk.injEq] at hs
    obtain ⟨⟨hstop, hc⟩, hsig, hpc⟩ := hs
    exact ⟨s, .exec (.init rfl) hrun, hstop, hc, .inr ⟨1, hc, hsig, hpc⟩⟩
  · have hout : ((poolSystem .oneElastic).exec (poolCreateRelative .oneElastic)
        (List.flatten [[.call () (.perfil true)], List.replicate 3 (.client () false),
          List.replicate 6 .monitor, [.call () .destroy], List.replicate 6 (.client () false),
          List.replicate 5 .monitor])).map
          (fun s => ((s.stop, s.clients ()), s.monSignal, s.monitor.slumber)) =
        some ((true, .joinMon), false, some true) := by decide +kernel
    obtain ⟨s, hrun, hs⟩ := Option.map_eq_some_iff.mp hout
    simp only [Prod.mk.injEq] at hs
    obtain ⟨⟨hstop, hc⟩, hsig, hm⟩ := hs
    exact ⟨s, .exec (.init rfl) hrun, hstop, hc, .inl ⟨hc, hsig, true, MonitorPc.eq_sleep hm⟩⟩

end Xplatbase.ThreadPool
