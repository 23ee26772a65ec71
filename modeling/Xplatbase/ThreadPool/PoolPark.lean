import Mathlib.Algebra.Order.BigOperators.Group.Finset
import Xplatbase.ThreadPool.PoolWake

/-! Parking and waking: `nGirando` and `nParkedCore` count the cores that spin and those that have
announced that they sleep, and a core whose announcement another thread has taken back has been
signalled or is about to be. -/
namespace Xplatbase.ThreadPool
open Xplatbase.Lib

variable {ι : Type*} {d : PoolDims} {s s' : PoolState ι} {v w : ℕ}

/-! ### Wake-ups on the way -/

def WakePc.signals : WakePc → Option ℕ
  | .signal i => some i
  | _ => none

def FramePc.signals : FramePc → Option ℕ
  | .wake _ p => p.signals
  | _ => none

def ClientPc.signals : ClientPc → Option ℕ
  | .submit _ (.wake p) => p.signals
  | .vigiaSignal _ i => some i
  | _ => none

def PoolWorker.signals (x : PoolWorker) : Option ℕ :=
  match x.frames with
  | [] => match x.pc with
    | .giraWake _ p => p.signals
    | _ => none
  | f :: _ => f.pc.signals

/-- Some thread is about to signal worker `z`. -/
def PoolState.Signals (d : PoolDims) (s : PoolState ι) (z : ℕ) : Prop :=
  (∃ c, (s.clients c).signals = some z) ∨ ∃ w < d.nTotal, (s.workers w).signals = some z

theorem PoolWorker.Nudged.signals {x x' : PoolWorker} (h : x.Nudged x') :
    x'.signals = x.signals := by
  obtain ⟨_, _, _, _, -, -, -, rfl⟩ := h
  rfl

variable {z : ℕ}

theorem poolWakeSubmit_hands {p : WakePc} {r : Option WakePc}
    (hs : poolWakeSubmit d s p = (s', r)) :
    ((s.workers z).parked = true → (s'.workers z).parked = true ∨ r = some (.signal z)) ∧
      (p.signals = some z → (s'.workers z).signal = true) := by
  cases p with
  | claim start j =>
    refine ⟨fun hz => ?_, (fun h => by cases h)⟩
    simp only [poolWakeSubmit] at hs
    split at hs <;> simp only [Prod.mk.injEq] at hs <;> obtain ⟨rfl, rfl⟩ := hs
    · by_cases hzi : z = d.coreAt start j
      · exact .inr (by rw [hzi])
      · exact .inl (by rw [PoolState.setParked, PoolState.setWorker_other _ hzi]; exact hz)
    · exact .inl hz
  | signal idx =>
    simp only [poolWakeSubmit, Prod.mk.injEq] at hs
    obtain ⟨rfl, -⟩ := hs
    refine ⟨fun hz => .inl ?_, fun hz => ?_⟩
    · by_cases hzi : z = idx
      · subst hzi
        rw [PoolState.setSignal_self]
        exact hz
      · rw [PoolState.setSignal, PoolState.setWorker_other _ hzi]
        exact hz
    · obtain rfl : idx = z := Option.some.inj hz
      rw [PoolState.setSignal_self]
  | _ =>
    simp only [poolWakeSubmit, Prod.mk.injEq] at hs
    obtain ⟨rfl, -⟩ := hs
    exact ⟨.inl, (fun h => by cases h)⟩

theorem poolTryGet_parked (d : PoolDims) (s : PoolState ι) (w : ℕ) (b : Bool) (p : GetPc) (z : ℕ) :
    ((poolTryGet d s w b p).1.workers z).parked = (s.workers z).parked := by
  have hset : ∀ (s₁ : PoolState ι) (v : ℕ) (x : PoolWorker), x.parked = (s₁.workers v).parked →
      ((s₁.setWorker v x).workers z).parked = (s₁.workers z).parked := fun s₁ v x hx => by
    by_cases hz : z = v
    · subst hz
      rw [PoolState.setWorker_self, hx]
    · rw [PoolState.setWorker_other _ hz]
  cases p with
  | start =>
    simp only [poolTryGet]
    split
    · exact hset s w _ rfl
    · split_ifs
      · exact hset s w _ rfl
      · exact hset s w _ rfl
      · rfl
  | popLoad => rfl
  | popSeq =>
    simp only [poolTryGet]
    split_ifs <;> rfl
  | popCas g pos n =>
    simp only [poolTryGet]
    split
    · exact hset _ w _ rfl
    · rfl
  | steal k =>
    simp only [poolTryGet]
    split
    · refine Eq.trans (hset _ w _ ?_) (hset s _ _ ?_) <;> rfl
    · rfl
  | lifo =>
    simp only [poolTryGet]
    split
    · exact hset s w _ rfl
    · rfl

theorem poolWorkerFn_hands {b : Bool} (hz : z ≠ w) (hf : (s.workers w).frames = [])
    (hs : poolWorkerFn d s w b (s.workers w).pc = some s') :
    ((s.workers z).parked = true → (s'.workers z).parked = true ∨
      (s'.workers w).signals = some z) ∧
    ((s.workers w).signals = some z → (s'.workers z).signal = true) := by
  have hsame : ∀ {s₁ : PoolState ι} {x : PoolWorker}, (s₁.workers z).parked = (s.workers z).parked →
      (∀ t p, (s.workers w).pc ≠ .giraWake t p) →
      ((s.workers z).parked = true → ((s₁.setWorker w x).workers z).parked = true ∨
        ((s₁.setWorker w x).workers w).signals = some z) ∧
      ((s.workers w).signals = some z → ((s₁.setWorker w x).workers z).signal = true) := by
    intro s₁ x hp hpc
    refine ⟨fun h => .inl ?_, fun h => ?_⟩
    · rw [PoolState.setWorker_other _ hz, hp, h]
    · simp [PoolWorker.signals, hf] at h
  have hown : ∀ b, ((s.setParked w b).workers z).parked = (s.workers z).parked := fun b => by
    rw [PoolState.setParked, PoolState.setWorker_other _ hz]
  have hown' : ∀ b, ((s.setSignal w b).workers z).parked = (s.workers z).parked := fun b => by
    rw [PoolState.setSignal, PoolState.setWorker_other _ hz]
  cases hpc : (s.workers w).pc <;> rw [hpc] at hs hsame <;>
    simp only [poolWorkerFn, Option.some.injEq, reduceCtorEq] at hs
  case get site p =>
    have hp := poolTryGet_parked d s w b p z
    split at hs <;> rename_i hg <;> rw [hg] at hp <;> subst hs
    · exact hsame hp (by simp)
    · unfold PoolState.found
      split
      · split_ifs <;> exact hsame hp (by simp)
      · exact hsame hp (by simp)
      · exact hsame hp (by simp)
    · exact hsame hp (by simp)
  case giraWake t p =>
    split at hs <;> rename_i hg <;> obtain ⟨hclaim, hsig⟩ := poolWakeSubmit_hands (z := z) hg <;>
      subst hs
    · rename_i s₁ q
      refine ⟨fun h => ?_, fun h => ?_⟩
      · rw [PoolState.setPc, PoolState.setWorker_other _ hz]
        refine (hclaim h).imp id fun hq => ?_
        obtain rfl := Option.some.inj hq
        have hf₁ : (s₁.workers w).frames = [] := by
          have := (poolWakeSubmit_nudged d s p w).frames
          rw [hg] at this
          exact this.trans hf
        simp [PoolWorker.signals, hf₁, WakePc.signals]
      · rw [PoolState.setPc, PoolState.setWorker_other _ hz]
        exact hsig (by simpa [PoolWorker.signals, hf, hpc] using h)
    · refine ⟨fun h => .inl ?_, fun h => ?_⟩
      · rw [PoolState.run, PoolState.setWorker_other _ hz]
        exact (hclaim h).resolve_right (fun h => by cases h)
      · rw [PoolState.run, PoolState.setWorker_other _ hz]
        exact hsig (by simpa [PoolWorker.signals, hf, hpc] using h)
  case sleep =>
    split_ifs at hs
    cases hs
    exact hsame rfl (by simp)
  case prepare | sleepClear | elasticPrepare =>
    subst hs
    exact hsame (hown' _) (by simp)
  case announce | elasticPark | retract =>
    subst hs
    exact hsame (hown _) (by simp)
  case giraFim sp t =>
    subst hs
    cases t <;> dsimp only <;> split_ifs <;> exact hsame rfl (by simp)
  all_goals
    subst hs
    (try split_ifs) <;> exact hsame rfl (by simp)

theorem poolRun_hands {t : ℕ} {p : FramePc} {rest : List Frame} (hz : z ≠ w)
    (hf : (s.workers w).frames = ⟨t, p⟩ :: rest) (hs : poolRun d s w t rest p = some s') :
    ((s.workers z).parked = true → (s'.workers z).parked = true ∨
      (s'.workers w).signals = some z) ∧
    ((s.workers w).signals = some z → (s'.workers z).signal = true) := by
  have hsame : ∀ {s₁ : PoolState ι} {x : PoolWorker}, (s₁.workers z).parked = (s.workers z).parked →
      p.signals = none →
      ((s.workers z).parked = true → ((s₁.setWorker w x).workers z).parked = true ∨
        ((s₁.setWorker w x).workers w).signals = some z) ∧
      ((s.workers w).signals = some z → ((s₁.setWorker w x).workers z).signal = true) := by
    intro s₁ x hp hpc
    refine ⟨fun h => .inl ?_, fun h => ?_⟩
    · rw [PoolState.setWorker_other _ hz, hp, h]
    · simp [PoolWorker.signals, hf, hpc] at h
  cases p <;> simp only [poolRun, Option.some.injEq, reduceCtorEq] at hs
  case wake u q =>
    split at hs <;> rename_i hg <;> obtain ⟨hclaim, hsig⟩ := poolWakeSubmit_hands (z := z) hg <;>
      subst hs <;> refine ⟨fun h => ?_, fun h => ?_⟩
    · rw [PoolState.setFrames, PoolState.setWorker_other _ hz]
      refine (hclaim h).imp id fun hq => ?_
      obtain rfl := Option.some.inj hq
      simp [PoolWorker.signals, FramePc.signals, WakePc.signals]
    · rw [PoolState.setFrames, PoolState.setWorker_other _ hz]
      exact hsig (by simpa [PoolWorker.signals, FramePc.signals, hf] using h)
    · rw [PoolState.setFrames, PoolState.setWorker_other _ hz]
      exact .inl ((hclaim h).resolve_right (fun h => by cases h))
    · rw [PoolState.setFrames, PoolState.setWorker_other _ hz]
      exact hsig (by simpa [PoolWorker.signals, FramePc.signals, hf] using h)
  case place u =>
    subst hs
    split
    · exact hsame rfl rfl
    · split_ifs <;> exact hsame rfl rfl
  case stopTest | ctrStore =>
    subst hs
    split <;> exact hsame rfl rfl
  all_goals
    subst hs
    exact hsame rfl rfl

def MonitorPc.Ok (d : PoolDims) : MonitorPc → Prop
  | .elastic e _ | .claim e _ | .signal e _ => d.nWorkers ≤ e
  | _ => True

theorem poolMonitorFn_ok (h : s.monitor.Ok d) (hs : poolMonitorFn d s s.monitor = some s') :
    s'.monitor.Ok d := by
  cases hm : s.monitor <;> rw [hm] at hs h <;>
    simp only [poolMonitorFn, Option.some.injEq, reduceCtorEq] at hs
  case sleep =>
    split_ifs at hs
    cases hs
    trivial
  case claim e toWake =>
    subst hs
    split_ifs
    · exact h
    · exact Nat.le_succ_of_le h
  case signal e toWake =>
    subst hs
    exact Nat.le_succ_of_le h
  case elastic e toWake =>
    subst hs
    dsimp only
    split_ifs
    · exact h
    · exact Nat.le_succ_of_le h
    · trivial
  case filaHead =>
    subst hs
    dsimp only
    split_ifs
    · exact le_rfl
    · trivial
  case pending | pendingAgain =>
    subst hs
    dsimp only
    split <;> (try split_ifs) <;> trivial
  all_goals
    subst hs
    dsimp only
    (try split_ifs) <;> trivial

theorem poolMonitorFn_parked (h : s.monitor.Ok d) (hs : poolMonitorFn d s s.monitor = some s')
    (hz : z < d.nCore) : (s'.workers z).parked = (s.workers z).parked := by
  cases hm : s.monitor <;> rw [hm] at hs h <;>
    simp only [poolMonitorFn, Option.some.injEq, reduceCtorEq] at hs
  case sleep =>
    split_ifs at hs
    cases hs
    rfl
  case stuckTask i stuck count =>
    subst hs
    by_cases hzi : z = i
    · subst hzi
      simp only [PoolState.setWorker_self]
    · simp only [PoolState.setWorker_other _ hzi]
  case claim e toWake =>
    have hze : z ≠ e := by
      have hle : d.nWorkers ≤ e := h
      have := d.core_le
      omega
    subst hs
    split_ifs
    · simp only [PoolState.setParked, PoolState.setWorker_other _ hze]
    · rfl
  case signal e toWake =>
    subst hs
    by_cases hzi : z = e
    · subst hzi
      simp only [PoolState.setSignal_self]
    · simp only [PoolState.setSignal, PoolState.setWorker_other _ hzi]
  all_goals
    subst hs
    rfl

theorem PoolWf.frames_of_pc (h : PoolWf d s) (hpc : (s.workers w).pc ≠ .run) :
    (s.workers w).frames = [] := by
  cases hf : (s.workers w).frames with
  | nil => rfl
  | cons f rest => exact absurd (h.frames_ok hf).1 hpc

theorem PoolWorker.signals_of_sleepy (x : PoolWorker) (hf : x.frames = [])
    (hx : x.pc.sleepy = true) : x.signals = none := by
  cases hpc : x.pc
  case giraWake => simp [hpc, WorkerPc.sleepy] at hx
  all_goals simp [PoolWorker.signals, hf, hpc]

section Client

variable [DecidableEq ι] {c : ι}

theorem poolClient_hands {b : Bool} (hs : poolClient d s c b (s.clients c) = some s') :
    ((s.workers z).parked = true → (s'.workers z).parked = true ∨
      (s'.clients c).signals = some z) ∧
    ((s.clients c).signals = some z → (s'.workers z).signal = true) := by
  have hsame : ∀ {s₁ : PoolState ι} {q : ClientPc}, s₁.workers = s.workers →
      (s.clients c).signals = none →
      ((s.workers z).parked = true → ((s₁.setClient c q).workers z).parked = true ∨
        ((s₁.setClient c q).clients c).signals = some z) ∧
      ((s.clients c).signals = some z → ((s₁.setClient c q).workers z).signal = true) := by
    intro s₁ q hw hc
    refine ⟨fun h => .inl ?_, fun h => ?_⟩
    · rw [PoolState.setClient, hw]
      exact h
    · simp [hc] at h
  cases hc : s.clients c <;> rw [hc] at hs hsame <;>
    simp only [poolClient, Option.some.injEq, reduceCtorEq] at hs
  case submit t p =>
    subst hs
    cases p <;> simp only [poolSubmitRelative]
    case wake q =>
      split <;> rename_i hg <;> obtain ⟨hclaim, hsig⟩ := poolWakeSubmit_hands (z := z) hg
      · refine ⟨fun h => (hclaim h).imp id fun hq => ?_, fun h => hsig h⟩
        obtain rfl := Option.some.inj hq
        simp [PoolState.setClient, ClientPc.signals, WakePc.signals]
      · exact ⟨fun h => .inl ((hclaim h).resolve_right (fun h => by cases h)), fun h => hsig h⟩
    all_goals (try split_ifs) <;> exact hsame rfl rfl
  case joinMon | joinWorker =>
    split at hs
    · cases hs
      exact hsame rfl rfl
    · simp at hs
  case wakeWorker i =>
    subst hs
    refine ⟨fun h => .inl ?_, (fun h => by cases h)⟩
    by_cases hzi : z = i
    · subst hzi
      simpa only [PoolState.setClient, PoolState.setSignal_self] using h
    · simpa only [PoolState.setClient, PoolState.setSignal, PoolState.setWorker_other _ hzi] using h
  case vigiaSignal n i =>
    subst hs
    refine ⟨fun h => .inl ?_, fun h => ?_⟩
    · by_cases hzi : z = i
      · subst hzi
        simpa only [PoolState.setClient, PoolState.setSignal_self] using h
      · simpa only [PoolState.setClient, PoolState.setSignal, PoolState.setWorker_other _ hzi]
          using h
    · obtain rfl : i = z := Option.some.inj h
      simp only [PoolState.setClient, PoolState.setSignal_self]
  case vigiaClaim n i =>
    subst hs
    split_ifs
    · refine ⟨fun h => ?_, (fun h => by cases h)⟩
      by_cases hzi : z = i
      · exact .inr (by simp [PoolState.setClient, ClientPc.signals, hzi])
      · refine .inl ?_
        simpa only [PoolState.setClient, PoolState.setParked, PoolState.setWorker_other _ hzi]
          using h
    all_goals exact hsame rfl rfl
  case perfilMon =>
    subst hs
    split_ifs <;> exact hsame rfl rfl
  all_goals
    subst hs
    exact hsame rfl rfl

/-- Whoever is about to signal `z` still is, or has done it. -/
theorem PoolState.Signals.step (h : s.Signals d z) (hwf : PoolWf d s) {l : PoolLabel ι}
    (hs : poolStep d s l = some s') : s'.Signals d z ∨ (s'.workers z).signal = true ∨
      l.mover = some z ∧ (s.workers z).signals = some z := by
  rcases h with ⟨c, hc⟩ | ⟨v, hvt, hv⟩
  · by_cases hcall : ∃ k, l = .call c k
    · obtain ⟨k, rfl⟩ := hcall
      simp only [poolStep] at hs
      split at hs
      · rename_i hidle
        simp [hidle, ClientPc.signals] at hc
      · cases hs
    by_cases hclient : ∃ b, l = .client c b
    · obtain ⟨b, rfl⟩ := hclient
      exact .inr (.inl ((poolClient_hands hs).2 hc))
    · refine .inl (.inl ⟨c, ?_⟩)
      rwa [poolStep_clients hs (fun k h => hcall ⟨k, h⟩) fun b h => hclient ⟨b, h⟩]
  · by_cases hm : l.mover = some v
    · by_cases hz : z = v
      · subst hz
        exact .inr (.inr ⟨hm, hv⟩)
      refine .inr (.inl ?_)
      cases l with
      | worker u b =>
        obtain rfl : u = v := Option.some.inj hm
        simp only [poolStep] at hs
        split_ifs at hs
        split at hs
        · exact (poolWorkerFn_hands hz ‹_› hs).2 hv
        · exact (poolRun_hands hz ‹_› hs).2 hv
      | spawn u | finish u =>
        obtain rfl : u = v := Option.some.inj hm
        simp only [poolStep] at hs
        split at hs
        · rename_i hf
          simp [PoolWorker.signals, hf, FramePc.signals] at hv
        · cases hs
      | lapse u clear woken =>
        obtain rfl : u = v := Option.some.inj hm
        simp only [poolStep] at hs
        split at hs
        · rename_i hpc
          have hf := hwf.frames_of_pc (w := u) (by rw [hpc]; intro h; cases h)
          simp [PoolWorker.signals, hf, hpc] at hv
        · cases hs
      | _ => cases hm
    · refine .inl (.inr ⟨v, hvt, ?_⟩)
      rwa [(poolStep_nudged hs hm).signals]

/-- An announcement is taken back by the core itself or by someone who is about to signal it. -/
theorem poolStep_parked (hmon : s.monitor.Ok d) {l : PoolLabel ι} (hs : poolStep d s l = some s')
    (hz : z < d.nCore) (hm : l.mover ≠ some z) (h : (s.workers z).parked = true) :
    (s'.workers z).parked = true ∨ s'.Signals d z := by
  cases l with
  | call c k =>
    simp only [poolStep] at hs
    split at hs <;> simp only [Option.some.injEq, reduceCtorEq] at hs
    subst hs
    cases k <;> exact .inl h
  | client c b => exact ((poolClient_hands hs).1 h).imp id fun hc => .inl ⟨c, hc⟩
  | worker v b =>
    have hne : z ≠ v := fun he => hm (by rw [he, PoolLabel.mover])
    simp only [poolStep] at hs
    split_ifs at hs with hvt
    split at hs
    · exact ((poolWorkerFn_hands hne ‹_› hs).1 h).imp id fun hv => .inr ⟨v, hvt, hv⟩
    · exact ((poolRun_hands hne ‹_› hs).1 h).imp id fun hv => .inr ⟨v, hvt, hv⟩
  | spawn v | finish v | lapse v clear woken =>
    have hne : z ≠ v := fun he => hm (by rw [he, PoolLabel.mover])
    simp only [poolStep] at hs
    split at hs <;> simp only [Option.some.injEq, reduceCtorEq] at hs
    subst hs
    exact .inl ((congrArg PoolWorker.parked (PoolState.setWorker_other _ hne _)).trans h)
  | monitor => exact .inl ((poolMonitorFn_parked hmon hs hz).trans h)
  | monitorLapse clear =>
    simp only [poolStep] at hs
    split at hs <;> simp only [Option.some.injEq, reduceCtorEq] at hs
    subst hs
    exact .inl h

/-! ### The counts -/

structure ParkInv (d : PoolDims) (s : PoolState ι) : Prop where
  kind : ∀ w, (s.workers w).pc.Kind d w
  monitor : s.monitor.Ok d
  girando : s.nGirando = ∑ w ∈ Finset.range d.nCore, flag (s.workers w).pc.spinning
  parked : s.nParkedCore = ∑ w ∈ Finset.range d.nCore, flag (s.workers w).pc.announced
  claimed : ∀ w < d.nCore, (s.workers w).pc.sleepy = true → (s.workers w).parked = false →
    (s.workers w).signal = true ∨ s.Signals d w
  alive : s.stop = false → ∀ w, (s.workers w).pc ≠ .exited

theorem poolStep_turn (hwf : PoolWf d s) (hk : (s.workers w).pc.Kind d w) {l : PoolLabel ι}
    (hs : poolStep d s l = some s') (hm : l.mover = some w) :
    LoopTurn d s s' w ∧ (s'.workers w).pc.Kind d w := by
  cases l with
  | worker v b =>
    obtain rfl : v = w := Option.some.inj hm
    simp only [poolStep] at hs
    split_ifs at hs
    split at hs
    · exact ⟨poolWorkerFn_turn hk hs, poolWorkerFn_kind hk hs⟩
    · have hpc := (hwf.frames_ok ‹_›).1
      exact ⟨poolRun_turn hpc hs, poolRun_kind hpc hs⟩
  | spawn v | finish v =>
    obtain rfl : v = w := Option.some.inj hm
    simp only [poolStep] at hs
    split at hs <;> simp only [Option.some.injEq, reduceCtorEq] at hs
    rename_i hf
    have hpc := (hwf.frames_ok hf).1
    subst hs
    have halive : (s.workers v).pc ≠ .exited := by rw [hpc]; simp
    refine ⟨.plain rfl rfl rfl rfl ?_ fun _ => halive, ?_⟩
    · rw [show WorkerPc.sleepy _ = _ from congrArg WorkerPc.sleepy hpc]
      rfl
    · rw [PoolState.setFrames_pc]
      exact hk
  | lapse v clear woken =>
    obtain rfl : v = w := Option.some.inj hm
    simp only [poolStep] at hs
    split at hs <;> simp only [Option.some.injEq, reduceCtorEq] at hs
    rename_i eco hpc
    subst hs
    refine ⟨.of ?_ ?_ (fun _ hsl => ?_) fun _ => ?_, ?_⟩
    · rw [hpc]
      split_ifs <;> simp [WorkerPc.spinning]
    · cases hc : d.isCore v
      · simp
      · simp only [hpc, d.not_elastic_of_core hc, if_true, Bool.false_eq_true, if_false]
        split_ifs <;> simp [WorkerPc.announced]
    · split_ifs at hsl <;> cases hsl
    · split_ifs <;> (intro h; cases h)
    · rw [PoolState.setPc_self]
      dsimp only
      split_ifs with h₁ h₂ h₃
      · trivial
      · exact h₂
      · exact h₃
      · exact Bool.eq_false_iff.mpr h₂
  | _ => cases hm

theorem poolClient_words {b : Bool} {p : ClientPc} (hs : poolClient d s c b p = some s') :
    s'.nGirando = s.nGirando ∧ s'.nParkedCore = s.nParkedCore ∧ s'.monitor = s.monitor := by
  cases p <;> simp only [poolClient, Option.some.injEq, reduceCtorEq] at hs
  case submit t p =>
    subst hs
    cases p <;> simp only [poolSubmitRelative]
    case wake q =>
      obtain ⟨hg, hp⟩ := poolWakeSubmit_words d s q
      have hl := (poolWakeSubmit_loop d s q).monitor
      split <;> rename_i hw <;> rw [hw] at hg hp hl <;> exact ⟨hg, hp, hl⟩
    all_goals (try split_ifs) <;> exact ⟨rfl, rfl, rfl⟩
  case joinMon | joinWorker =>
    split at hs
    · cases hs
      exact ⟨rfl, rfl, rfl⟩
    · simp at hs
  case vigiaClaim | perfilMon =>
    subst hs
    split_ifs <;> exact ⟨rfl, rfl, rfl⟩
  all_goals
    subst hs
    exact ⟨rfl, rfl, rfl⟩

omit [DecidableEq ι] in
theorem poolMonitorFn_words {m : MonitorPc} (hs : poolMonitorFn d s m = some s') :
    s'.nGirando = s.nGirando ∧ s'.nParkedCore = s.nParkedCore := by
  cases m <;> simp only [poolMonitorFn, Option.some.injEq, reduceCtorEq] at hs
  case sleep =>
    split_ifs at hs
    cases hs
    exact ⟨rfl, rfl⟩
  case claim =>
    subst hs
    split_ifs <;> exact ⟨rfl, rfl⟩
  all_goals
    subst hs
    exact ⟨rfl, rfl⟩

theorem poolStep_words {l : PoolLabel ι} (hs : poolStep d s l = some s') (hm : l.mover = none) :
    s'.nGirando = s.nGirando ∧ s'.nParkedCore = s.nParkedCore := by
  cases l with
  | call c k =>
    simp only [poolStep] at hs
    split at hs <;> simp only [Option.some.injEq, reduceCtorEq] at hs
    subst hs
    cases k <;> exact ⟨rfl, rfl⟩
  | client c b =>
    obtain ⟨hg, hp, -⟩ := poolClient_words hs
    exact ⟨hg, hp⟩
  | monitor => exact poolMonitorFn_words hs
  | monitorLapse clear =>
    simp only [poolStep] at hs
    split at hs <;> simp only [Option.some.injEq, reduceCtorEq] at hs
    subst hs
    exact ⟨rfl, rfl⟩
  | _ => cases hm

theorem poolStep_monitor (h : s.monitor.Ok d) {l : PoolLabel ι} (hs : poolStep d s l = some s') :
    s'.monitor.Ok d := by
  cases l with
  | call c k =>
    simp only [poolStep] at hs
    split at hs <;> simp only [Option.some.injEq, reduceCtorEq] at hs
    subst hs
    cases k <;> exact h
  | client c b => exact (poolClient_words hs).2.2 ▸ h
  | worker w b =>
    simp only [poolStep] at hs
    split_ifs at hs
    split at hs
    · exact (poolWorkerFn_loop hs).monitor ▸ h
    · exact (poolRun_monitor hs).1 ▸ h
  | spawn w | finish w | lapse w clear woken =>
    simp only [poolStep] at hs
    split at hs <;> simp only [Option.some.injEq, reduceCtorEq] at hs
    subst hs
    exact h
  | monitor => exact poolMonitorFn_ok h hs
  | monitorLapse clear =>
    simp only [poolStep] at hs
    split at hs <;> simp only [Option.some.injEq, reduceCtorEq] at hs
    subst hs
    dsimp only
    split_ifs <;> trivial

/-- Nobody resets `stop`. -/
theorem poolStep_stop {l : PoolLabel ι} (hs : poolStep d s l = some s') (h : s'.stop = false) :
    s.stop = false := by
  suffices hmono : s.stop = true → s'.stop = true from
    Bool.eq_false_iff.mpr fun ht => by simp [hmono ht] at h
  intro ht
  cases l with
  | call c k =>
    simp only [poolStep] at hs
    split at hs <;> simp only [Option.some.injEq, reduceCtorEq] at hs
    subst hs
    cases k <;> exact ht
  | client c b =>
    have hs : poolClient d s c b (s.clients c) = some s' := hs
    cases hc : s.clients c <;> rw [hc] at hs <;>
      simp only [poolClient, Option.some.injEq, reduceCtorEq] at hs
    case submit t p =>
      subst hs
      cases p <;> simp only [poolSubmitRelative]
      case wake q =>
        have hl := (poolWakeSubmit_loop d s q).stop
        split <;> rename_i hw <;> rw [hw] at hl <;> exact hl.trans ht
      all_goals (try split_ifs) <;> exact ht
    case joinMon | joinWorker =>
      split at hs
      · cases hs
        exact ht
      · simp at hs
    case setStop =>
      subst hs
      rfl
    case vigiaClaim | perfilMon =>
      subst hs
      split_ifs <;> exact ht
    all_goals
      subst hs
      exact ht
  | worker w b =>
    simp only [poolStep] at hs
    split_ifs at hs
    split at hs
    · exact (poolWorkerFn_loop hs).stop.trans ht
    · exact (poolRun_monitor hs).2.trans ht
  | spawn w | finish w | lapse w clear woken | monitorLapse clear =>
    simp only [poolStep] at hs
    split at hs <;> simp only [Option.some.injEq, reduceCtorEq] at hs
    subst hs
    exact ht
  | monitor =>
    have hs : poolMonitorFn d s s.monitor = some s' := hs
    cases hm : s.monitor <;> rw [hm] at hs <;>
      simp only [poolMonitorFn, Option.some.injEq, reduceCtorEq] at hs
    case sleep =>
      split_ifs at hs
      cases hs
      exact ht
    case claim =>
      subst hs
      split_ifs <;> exact ht
    all_goals
      subst hs
      exact ht

theorem sum_flag_update {n : ℕ} {f f' : ℕ → Bool} (hf : ∀ v, v ≠ w → f' v = f v) :
    ∑ v ∈ Finset.range n, flag (f' v) = ∑ v ∈ Finset.range n, flag (f v) +
      flag (decide (w < n) && f' w) - flag (decide (w < n) && f w) := by
  by_cases hw : w < n
  · have hmem : w ∈ Finset.range n := Finset.mem_range.mpr hw
    rw [Finset.sum_eq_add_sum_sdiff_singleton_of_mem hmem fun v => flag (f' v),
      Finset.sum_eq_add_sum_sdiff_singleton_of_mem hmem fun v => flag (f v)]
    have hrest : ∑ v ∈ Finset.range n \ {w}, flag (f' v) =
        ∑ v ∈ Finset.range n \ {w}, flag (f v) :=
      Finset.sum_congr rfl fun v hv => by
        rw [hf v fun he => (Finset.mem_sdiff.mp hv).2 (Finset.mem_singleton.mpr he)]
    simp only [hw, decide_true, Bool.true_and]
    omega
  · have hrest : ∑ v ∈ Finset.range n, flag (f' v) = ∑ v ∈ Finset.range n, flag (f v) :=
      Finset.sum_congr rfl fun v hv => by
        rw [hf v fun he => hw (he ▸ Finset.mem_range.mp hv)]
    simp [hw, hrest]

theorem ParkInv.step (h : ParkInv d s) (hwf : PoolWf d s) {l : PoolLabel ι}
    (hs : poolStep d s l = some s') : ParkInv d s' := by
  have hother : ∀ v, l.mover ≠ some v → (s'.workers v).pc = (s.workers v).pc := fun v hv =>
    (poolStep_nudged hs hv).pc
  have hturn : ∀ w, l.mover = some w → LoopTurn d s s' w ∧ (s'.workers w).pc.Kind d w :=
    fun w hm => poolStep_turn hwf (h.kind w) hs hm
  have hsum : ∀ f : WorkerPc → Bool, l.mover = none →
      ∑ v ∈ Finset.range d.nCore, flag (f (s'.workers v).pc) =
        ∑ v ∈ Finset.range d.nCore, flag (f (s.workers v).pc) := fun f hm =>
    Finset.sum_congr rfl fun v _ => by rw [hother v (by simp [hm])]
  have hcount : ∀ (f : WorkerPc → Bool) (w : ℕ), l.mover = some w →
      ∑ v ∈ Finset.range d.nCore, flag (f (s'.workers v).pc) =
        ∑ v ∈ Finset.range d.nCore, flag (f (s.workers v).pc) +
          flag (d.isCore w && f (s'.workers w).pc) - flag (d.isCore w && f (s.workers w).pc) :=
    fun f w hm => sum_flag_update fun v hv => by
      rw [hother v fun he => hv (Option.some.inj (he.symm.trans hm))]
  refine ⟨fun w => ?_, poolStep_monitor h.monitor hs, ?_, ?_, fun w hw hsl hp => ?_,
    fun hstop w => ?_⟩
  · by_cases hm : l.mover = some w
    · exact (hturn w hm).2
    · rw [hother w hm]
      exact h.kind w
  · cases hm : l.mover with
    | none => rw [hsum _ hm, (poolStep_words hs hm).1, h.girando]
    | some w => rw [hcount _ w hm, (hturn w hm).1.girando, h.girando]
  · cases hm : l.mover with
    | none => rw [hsum _ hm, (poolStep_words hs hm).2, h.parked]
    | some w => rw [hcount _ w hm, (hturn w hm).1.announced, h.parked]
  · have hpass : s.Signals d w → ((s.workers w).pc.sleepy = true ∨ l.mover ≠ some w) →
        (s'.workers w).signal = true ∨ s'.Signals d w := by
      intro hsig hquiet
      rcases hsig.step hwf hs with hsig' | hsig' | ⟨hm, hown⟩
      · exact .inr hsig'
      · exact .inl hsig'
      · have hsl := hquiet.resolve_right (not_not_intro hm)
        have hf := hwf.frames_of_pc (w := w) fun he => by
          rw [he] at hsl
          cases hsl
        rw [(s.workers w).signals_of_sleepy hf hsl] at hown
        cases hown
    by_cases hm : l.mover = some w
    · rcases (hturn w hm).1.sleepy (decide_eq_true hw) hsl with hp' | ⟨hsl₀, hp₀, hs₀⟩
      · cases hp.symm.trans hp'
      · rcases h.claimed w hw hsl₀ (hp₀ ▸ hp) with hsig | hsig
        · exact .inl (hs₀.trans hsig)
        · exact hpass hsig (.inl hsl₀)
    · rw [hother w hm] at hsl
      cases hpark : (s.workers w).parked with
      | true =>
        rcases poolStep_parked h.monitor hs hw hm hpark with hp' | hsig
        · cases hp.symm.trans hp'
        · exact .inr hsig
      | false =>
        rcases h.claimed w hw hsl hpark with hsig | hsig
        · exact .inl ((poolStep_nudged hs hm).signal hsig)
        · exact hpass hsig (.inr hm)
  · have hstop₀ := poolStep_stop hs hstop
    by_cases hm : l.mover = some w
    · exact (hturn w hm).1.alive hstop₀
    · rw [hother w hm]
      exact h.alive hstop₀ w

omit [DecidableEq ι] in
theorem poolCreateRelative_park (d : PoolDims) : ParkInv d (poolCreateRelative d : PoolState ι) := by
  refine ⟨fun w => ?_, trivial, ?_, ?_, fun w hw hsl => ?_, fun _ w => ?_⟩
  · simp only [poolCreateRelative]
    split_ifs with hel
    · exact hel
    · exact Bool.eq_false_iff.mpr hel
  · refine (Finset.sum_eq_zero fun w _ => ?_).symm
    simp only [poolCreateRelative]
    split_ifs <;> rfl
  · refine (Finset.sum_eq_zero fun w _ => ?_).symm
    simp only [poolCreateRelative]
    split_ifs <;> rfl
  · simp only [poolCreateRelative] at hsl
    split_ifs at hsl <;> cases hsl
  · simp only [poolCreateRelative]
    split_ifs <;> (intro h; cases h)

end Client

end Xplatbase.ThreadPool
