import Xplatbase.ThreadPool.PoolIdle

/-! The steps of a worker as the other threads see them: what they can do to it, which places only
core or elastic workers reach, and how its own steps move the words that count workers. -/
namespace Xplatbase.ThreadPool
open Xplatbase.Lib

variable {ι : Type*} {d : PoolDims} {s s' : PoolState ι} {v w : ℕ}

/-! ### Which worker changes -/

namespace PoolState

@[simp] theorem setWorker_self (s : PoolState ι) (w : ℕ) (x : PoolWorker) :
    (s.setWorker w x).workers w = x := Function.update_self ..

theorem setWorker_other (s : PoolState ι) (h : v ≠ w) (x : PoolWorker) :
    (s.setWorker w x).workers v = s.workers v := Function.update_of_ne h ..

@[simp] theorem setPc_self (s : PoolState ι) (w : ℕ) (p : WorkerPc) :
    (s.setPc w p).workers w = { s.workers w with pc := p } := Function.update_self ..

@[simp] theorem setParked_self (s : PoolState ι) (w : ℕ) (b : Bool) :
    (s.setParked w b).workers w = { s.workers w with parked := b } := Function.update_self ..

@[simp] theorem setSignal_self (s : PoolState ι) (w : ℕ) (b : Bool) :
    (s.setSignal w b).workers w = { s.workers w with signal := b } := Function.update_self ..

@[simp] theorem run_self (s : PoolState ι) (w t : ℕ) :
    (s.run w t).workers w = { s.workers w with pc := .run, frames := [⟨t, .enter⟩] } :=
  Function.update_self ..

theorem setFrames_pc (s : PoolState ι) (w : ℕ) (fs : List Frame) :
    ((s.setFrames w fs).workers w).pc = (s.workers w).pc := by
  rw [PoolState.setFrames, setWorker_self]

theorem found_other (s : PoolState ι) (h : v ≠ w) (t : ℕ) (site : GetSite) :
    (s.found w t site).workers v = s.workers v := by
  unfold PoolState.found
  split
  · split_ifs <;> exact setWorker_other _ h _
  · exact setWorker_other _ h _
  · exact setWorker_other _ h _

end PoolState

/-- `x'` is `x` after steps of other threads: they steal, take back an announcement, and
signal. -/
def PoolWorker.Nudged (x x' : PoolWorker) : Prop :=
  ∃ top parked signal monLast, x.deque.top ≤ top ∧ (parked = true → x.parked = true) ∧
    (x.signal = true → signal = true) ∧
    x' = { x with deque := { x.deque with top }, parked, signal, monLast }

theorem PoolWorker.Nudged.of_eq {x x' : PoolWorker} (h : x' = x) : x.Nudged x' :=
  ⟨_, _, _, _, le_rfl, id, id, h⟩

theorem PoolWorker.Nudged.pc {x x' : PoolWorker} (h : x.Nudged x') : x'.pc = x.pc := by
  obtain ⟨_, _, _, _, -, -, -, rfl⟩ := h
  rfl

theorem PoolWorker.Nudged.frames {x x' : PoolWorker} (h : x.Nudged x') :
    x'.frames = x.frames := by
  obtain ⟨_, _, _, _, -, -, -, rfl⟩ := h
  rfl

theorem PoolWorker.Nudged.signal {x x' : PoolWorker} (h : x.Nudged x') (hx : x.signal = true) :
    x'.signal = true := by
  obtain ⟨_, _, _, _, -, -, hs, rfl⟩ := h
  exact hs hx

theorem nudged_setParked (s : PoolState ι) (w v : ℕ) :
    (s.workers v).Nudged ((s.setParked w false).workers v) := by
  by_cases hv : v = w
  · subst hv
    rw [PoolState.setParked_self]
    exact ⟨_, false, _, _, le_rfl, nofun, id, rfl⟩
  · exact .of_eq (s.setWorker_other hv _)

theorem nudged_setSignal (s : PoolState ι) (w v : ℕ) :
    (s.workers v).Nudged ((s.setSignal w true).workers v) := by
  by_cases hv : v = w
  · subst hv
    rw [PoolState.setSignal_self]
    exact ⟨_, _, _, _, le_rfl, id, fun _ => rfl, rfl⟩
  · exact .of_eq (s.setWorker_other hv _)

theorem poolWakeSubmit_nudged (d : PoolDims) (s : PoolState ι) (p : WakePc) (v : ℕ) :
    (s.workers v).Nudged ((poolWakeSubmit d s p).1.workers v) := by
  cases p with
  | claim start j =>
    simp only [poolWakeSubmit]
    split
    · exact nudged_setParked s _ v
    · exact .of_eq rfl
  | signal idx => exact nudged_setSignal s idx v
  | _ => exact .of_eq rfl

theorem poolTryGet_nudged (d : PoolDims) (s : PoolState ι) (hv : v ≠ w) (b : Bool) (p : GetPc) :
    (s.workers v).Nudged ((poolTryGet d s w b p).1.workers v) := by
  have hset : ∀ (s₁ : PoolState ι) (x : PoolWorker), (s.workers v).Nudged (s₁.workers v) →
      (s.workers v).Nudged ((s₁.setWorker w x).workers v) := fun s₁ x h => by
    rwa [s₁.setWorker_other hv]
  have hrefl : (s.workers v).Nudged (s.workers v) := .of_eq rfl
  cases p with
  | start =>
    simp only [poolTryGet]
    split
    · exact hset s _ hrefl
    · split_ifs
      · exact hset s _ hrefl
      · exact hset s _ hrefl
      · exact hrefl
  | popLoad => exact hrefl
  | popSeq =>
    simp only [poolTryGet]
    split_ifs <;> exact hrefl
  | popCas =>
    simp only [poolTryGet]
    split
    · exact hset _ _ hrefl
    · exact hrefl
  | steal k =>
    simp only [poolTryGet]
    split
    · apply hset _ _
      by_cases hk : v = ((s.workers w).stealCursor + k) % d.nTotal
      · rw [← hk, PoolState.setWorker_self]
        exact ⟨_, _, _, _, Nat.le_succ _, id, id, rfl⟩
      · exact .of_eq (s.setWorker_other hk _)
    · exact hrefl
  | lifo =>
    simp only [poolTryGet]
    split
    · exact hset s _ hrefl
    · exact hrefl

theorem poolWorkerFn_nudged {b : Bool} {p : WorkerPc} (hv : v ≠ w)
    (hs : poolWorkerFn d s w b p = some s') : (s.workers v).Nudged (s'.workers v) := by
  have hset : ∀ (s₁ : PoolState ι) (x : PoolWorker), (s.workers v).Nudged (s₁.workers v) →
      (s.workers v).Nudged ((s₁.setWorker w x).workers v) := fun s₁ x h => by
    rwa [s₁.setWorker_other hv]
  have hrefl : (s.workers v).Nudged (s.workers v) := .of_eq rfl
  cases p <;> simp only [poolWorkerFn, Option.some.injEq, reduceCtorEq] at hs
  case get site p =>
    have hn := poolTryGet_nudged d s hv b p
    split at hs <;> rename_i hg <;> rw [hg] at hn <;> subst hs
    · exact hset _ _ hn
    · rwa [PoolState.found_other _ hv]
    · exact hset _ _ hn
  case giraWake t p =>
    have hn := poolWakeSubmit_nudged d s p v
    split at hs <;> rename_i hg <;> rw [hg] at hn <;> subst hs <;> exact hset _ _ hn
  case sleep =>
    split_ifs at hs
    cases hs
    exact hset _ _ hrefl
  case prepare | sleepClear | elasticPrepare | announce | elasticPark | retract =>
    subst hs
    exact hset _ _ (hset _ _ hrefl)
  case giraFim sp t =>
    subst hs
    cases t with
    | none => exact hset _ _ hrefl
    | some t => dsimp only; split_ifs <;> exact hset _ _ hrefl
  all_goals
    subst hs
    (try split_ifs) <;> exact hset _ _ hrefl

theorem poolRun_nudged {t : ℕ} {p : FramePc} {rest : List Frame} (hv : v ≠ w)
    (hs : poolRun d s w t rest p = some s') : (s.workers v).Nudged (s'.workers v) := by
  have hset : ∀ (s₁ : PoolState ι) (x : PoolWorker), (s.workers v).Nudged (s₁.workers v) →
      (s.workers v).Nudged ((s₁.setWorker w x).workers v) := fun s₁ x h => by
    rwa [s₁.setWorker_other hv]
  have hrefl : (s.workers v).Nudged (s.workers v) := .of_eq rfl
  cases p <;> simp only [poolRun, Option.some.injEq, reduceCtorEq] at hs
  case wake u q =>
    have hn := poolWakeSubmit_nudged d s q v
    split at hs <;> rename_i hg <;> rw [hg] at hn <;> subst hs <;> exact hset _ _ hn
  case place u =>
    subst hs
    split
    · exact hset _ _ hrefl
    · split_ifs <;> exact hset _ _ hrefl
  case stopTest | ctrStore =>
    subst hs
    split <;> exact hset _ _ hrefl
  all_goals
    subst hs
    exact hset _ _ hrefl

theorem poolMonitorFn_nudged {m : MonitorPc} (hs : poolMonitorFn d s m = some s') (v : ℕ) :
    (s.workers v).Nudged (s'.workers v) := by
  have hrefl : (s.workers v).Nudged (s.workers v) := .of_eq rfl
  cases m <;> simp only [poolMonitorFn, Option.some.injEq, reduceCtorEq] at hs
  case sleep =>
    split_ifs at hs
    cases hs
    exact hrefl
  case stuckTask i stuck count =>
    subst hs
    by_cases hv : v = i
    · subst hv
      simp only [PoolState.setWorker_self]
      exact ⟨_, _, _, _, le_rfl, id, id, rfl⟩
    · exact .of_eq (s.setWorker_other hv _)
  case claim e toWake =>
    subst hs
    split_ifs
    · exact nudged_setParked s e v
    · exact hrefl
  case signal e toWake =>
    subst hs
    exact nudged_setSignal s e v
  all_goals
    subst hs
    exact hrefl

section Client

variable [DecidableEq ι]

theorem poolClient_nudged {c : ι} {b : Bool} {p : ClientPc}
    (hs : poolClient d s c b p = some s') (v : ℕ) :
    (s.workers v).Nudged (s'.workers v) := by
  have hrefl : (s.workers v).Nudged (s.workers v) := .of_eq rfl
  cases p <;> simp only [poolClient, Option.some.injEq, reduceCtorEq] at hs
  case submit t p =>
    subst hs
    cases p <;> simp only [poolSubmitRelative] <;> (try split_ifs) <;> (try exact hrefl)
    case wake q =>
      have hn := poolWakeSubmit_nudged d s q v
      split <;> rename_i hg <;> rw [hg] at hn <;> exact hn
  case joinMon | joinWorker =>
    split at hs
    · cases hs
      exact hrefl
    · simp at hs
  case wakeWorker i | vigiaSignal n i =>
    subst hs
    exact nudged_setSignal s i v
  case vigiaClaim n i =>
    subst hs
    split_ifs
    · exact nudged_setParked s i v
    all_goals exact hrefl
  case perfilMon =>
    subst hs
    split_ifs <;> exact hrefl
  all_goals
    subst hs
    exact hrefl

def PoolLabel.mover : PoolLabel ι → Option ℕ
  | .worker w _ | .spawn w | .finish w | .lapse w _ _ => some w
  | _ => none

theorem poolStep_nudged {l : PoolLabel ι} (hs : poolStep d s l = some s')
    (hv : l.mover ≠ some v) : (s.workers v).Nudged (s'.workers v) := by
  cases l with
  | call c k =>
    simp only [poolStep] at hs
    split at hs <;> simp only [Option.some.injEq, reduceCtorEq] at hs
    subst hs
    cases k <;> exact .of_eq rfl
  | client c b => exact poolClient_nudged hs v
  | worker w b =>
    have hne : v ≠ w := fun h => hv (by rw [h, PoolLabel.mover])
    simp only [poolStep] at hs
    split_ifs at hs
    split at hs
    · exact poolWorkerFn_nudged hne hs
    · exact poolRun_nudged hne hs
  | spawn w | finish w | lapse w clear woken =>
    have hne : v ≠ w := fun h => hv (by rw [h, PoolLabel.mover])
    simp only [poolStep] at hs
    split at hs <;> simp only [Option.some.injEq, reduceCtorEq] at hs
    subst hs
    exact .of_eq (PoolState.setWorker_other _ hne _)
  | monitor => exact poolMonitorFn_nudged hs v
  | monitorLapse clear =>
    simp only [poolStep] at hs
    split at hs <;> simp only [Option.some.injEq, reduceCtorEq] at hs
    subst hs
    exact .of_eq rfl

end Client

/-! ### Core and elastic places -/

/-- Only core workers keep watch, spin and announce that they sleep; elastic ones have a loop of
their own. -/
def WorkerPc.Kind (d : PoolDims) (w : ℕ) : WorkerPc → Prop
  | .spinCount sp => d.isCore w ∧ sp.conta
  | .get (.vigia _) _ | .get (.spin _) _ | .get (.sleep0 _) _ | .get .announced _ | .vigiaTest
  | .vigiaStop _ | .spinStart | .spinStop _ | .giraFim _ _ | .sleep0Stop _ | .announce
  | .announceCount | .retractCount _ | .retract _ | .wokenCount _ _ => d.isCore w
  | .get .elastic _ | .elasticStop | .elasticPark | .elasticPrepare | .elasticParked
  | .elasticWoken | .elasticActive | .elasticLoop | .elasticGiro => d.isElastic w
  | .get .loop _ | .get .prepared _ | .stopTest | .prepare | .parkTest | .woken _ _ =>
    d.isElastic w = false
  | .giraFila _ _ | .giraHead _ _ _ | .giraWake _ _ | .perfil | .sleep _ | .sleepClear _ _ | .run
  | .exited => True

theorem PoolDims.not_elastic_of_core (d : PoolDims) (h : d.isCore w = true) :
    d.isElastic w = false := by
  have := d.core_le
  simp only [PoolDims.isCore, decide_eq_true_eq] at h
  simp only [PoolDims.isElastic, decide_eq_false_iff_not]
  omega

theorem Spin.leave_kind (h : d.isCore w) (sp : Spin) : sp.leave.Kind d w := by
  unfold Spin.leave
  split_ifs
  · exact h
  · exact h
  · exact d.not_elastic_of_core h

theorem GetSite.missed_kind {site : GetSite} {p : GetPc} (h : (WorkerPc.get site p).Kind d w)
    (ocioso : ℕ) : (site.missed (d.isCore w) ocioso).Kind d w := by
  cases site <;> simp only [GetSite.missed]
  case loop | prepared =>
    split_ifs with hc
    · first | exact hc | exact hc.1
    · exact h
  all_goals first | exact h | trivial

theorem poolWorkerFn_kind {b : Bool} (h : (s.workers w).pc.Kind d w)
    (hs : poolWorkerFn d s w b (s.workers w).pc = some s') : (s'.workers w).pc.Kind d w := by
  cases hpc : (s.workers w).pc <;> rw [hpc] at hs h <;>
    simp only [poolWorkerFn, Option.some.injEq, reduceCtorEq] at hs
  case get site p =>
    split at hs <;> rename_i hg <;> subst hs
    · rw [PoolState.setPc_self]
      cases site <;> exact h
    · unfold PoolState.found
      split
      · split_ifs
        · rw [PoolState.setPc_self]
          exact h
        · rw [PoolState.run_self]
          trivial
      · rw [PoolState.setPc_self]
        exact h
      · rw [PoolState.run_self]
        trivial
    · rw [PoolState.setPc_self]
      exact GetSite.missed_kind h _
  case giraFim sp t =>
    subst hs
    cases t <;> dsimp only <;> split_ifs <;> simp only [PoolState.setPc_self, PoolState.run_self]
    · exact h
    · exact d.not_elastic_of_core h
    all_goals trivial
  case giraWake t p =>
    split at hs <;> subst hs
    · rw [PoolState.setPc_self]
      trivial
    · rw [PoolState.run_self]
      trivial
  case giraFila t j =>
    subst hs
    split_ifs <;> simp only [PoolState.setPc_self, PoolState.run_self] <;> trivial
  case sleep =>
    split_ifs at hs
    cases hs
    rw [PoolState.setPc_self]
    trivial
  case elasticGiro =>
    subst hs
    split_ifs <;> simp only [PoolState.setPc_self, PoolState.setWorker_self] <;> exact h
  case spinStop sp =>
    subst hs
    rw [PoolState.setPc_self]
    dsimp only
    cases sp.loop <;> dsimp only <;> split_ifs <;> first | exact Spin.leave_kind h sp | exact h
  case parkTest =>
    subst hs
    rw [PoolState.setPc_self]
    dsimp only
    split_ifs with h₁ h₂
    · trivial
    · exact h₂
    · trivial
  case sleepClear =>
    subst hs
    rw [PoolState.setPc_self]
    dsimp only
    split_ifs with h₁ h₂
    · exact h₁
    · exact h₂
    · exact Bool.eq_false_iff.mpr h₁
  case elasticActive =>
    subst hs
    rw [PoolState.setWorker_self]
    split_ifs <;> exact h
  case retract =>
    subst hs
    rw [PoolState.run_self]
    trivial
  case woken =>
    subst hs
    rw [PoolState.setWorker_self]
    exact h
  case wokenCount | vigiaTest | vigiaStop | spinStart | sleep0Stop =>
    subst hs
    rw [PoolState.setPc_self]
    dsimp only
    first
      | exact d.not_elastic_of_core h
      | split_ifs <;> first | exact h | exact ⟨h, rfl⟩ | exact d.not_elastic_of_core h
  all_goals
    subst hs
    rw [PoolState.setPc_self]
    dsimp only
    (try split_ifs) <;> first | exact h | exact h.1 | trivial

/-! ### Spinning and announced workers -/

/-- Counted in `nGirando`, if the worker is a core one. -/
def WorkerPc.spinning : WorkerPc → Bool
  | .get (.spin sp) _ | .spinStop sp => sp.conta
  | .giraFim _ _ => true
  | _ => false

/-- Counted in `nParkedCore`, if the worker is a core one. -/
def WorkerPc.announced : WorkerPc → Bool
  | .get .announced _ | .retractCount _ | .perfil | .sleep _ | .sleepClear _ _
  | .wokenCount _ _ => true
  | _ => false

/-- On the way to sleep, or asleep, after the worker has announced it. -/
def WorkerPc.sleepy : WorkerPc → Bool
  | .announceCount | .get .announced _ | .perfil | .sleep _ => true
  | _ => false

def flag (b : Bool) : ℤ := if b then 1 else 0

@[simp] theorem flag_true : flag true = 1 := rfl

@[simp] theorem flag_false : flag false = 0 := rfl

theorem PoolDims.not_core_of_elastic (d : PoolDims) (h : d.isElastic w = true) :
    d.isCore w = false := by
  by_contra hc
  simp [d.not_elastic_of_core (by simpa using hc)] at h

/-- What a step of worker `w` outside its tasks does to the words that others read. -/
structure LoopTurn (d : PoolDims) (s s' : PoolState ι) (w : ℕ) : Prop where
  girando : s'.nGirando = s.nGirando +
    flag (d.isCore w && (s'.workers w).pc.spinning) -
    flag (d.isCore w && (s.workers w).pc.spinning)
  announced : s'.nParkedCore = s.nParkedCore +
    flag (d.isCore w && (s'.workers w).pc.announced) -
    flag (d.isCore w && (s.workers w).pc.announced)
  sleepy : d.isCore w = true → (s'.workers w).pc.sleepy = true → (s'.workers w).parked = true ∨
    (s.workers w).pc.sleepy = true ∧ (s'.workers w).parked = (s.workers w).parked ∧
      (s'.workers w).signal = (s.workers w).signal
  alive : s.stop = false → (s'.workers w).pc ≠ .exited

theorem poolTryGet_words (d : PoolDims) (s : PoolState ι) (w : ℕ) (b : Bool) (p : GetPc) :
    (poolTryGet d s w b p).1.nGirando = s.nGirando ∧
      (poolTryGet d s w b p).1.nParkedCore = s.nParkedCore := by
  cases p
  case popLoad => exact ⟨rfl, rfl⟩
  all_goals
    simp only [poolTryGet]
    split <;> (try split_ifs) <;> exact ⟨rfl, rfl⟩

theorem poolWakeSubmit_words (d : PoolDims) (s : PoolState ι) (p : WakePc) :
    (poolWakeSubmit d s p).1.nGirando = s.nGirando ∧
      (poolWakeSubmit d s p).1.nParkedCore = s.nParkedCore := by
  cases p with
  | claim start j =>
    unfold poolWakeSubmit
    dsimp only
    split <;> exact ⟨rfl, rfl⟩
  | _ => exact ⟨rfl, rfl⟩

theorem LoopTurn.of {s₁ : PoolState ι} {x : PoolWorker}
    (hg : s₁.nGirando = s.nGirando + flag (d.isCore w && x.pc.spinning) -
      flag (d.isCore w && (s.workers w).pc.spinning))
    (hp : s₁.nParkedCore = s.nParkedCore + flag (d.isCore w && x.pc.announced) -
      flag (d.isCore w && (s.workers w).pc.announced))
    (hsleepy : d.isCore w = true → x.pc.sleepy = true → x.parked = true ∨
      (s.workers w).pc.sleepy = true ∧ x.parked = (s.workers w).parked ∧
        x.signal = (s.workers w).signal)
    (halive : s.stop = false → x.pc ≠ .exited) : LoopTurn d s (s₁.setWorker w x) w := by
  constructor <;> rw [PoolState.setWorker_self]
  · exact hg
  · exact hp
  · exact hsleepy
  · exact halive

/-- The words are not touched, and the worker is not about to sleep. -/
theorem LoopTurn.plain {s₁ : PoolState ι} {x : PoolWorker} (hg : s₁.nGirando = s.nGirando)
    (hp : s₁.nParkedCore = s.nParkedCore)
    (hspin : x.pc.spinning = (s.workers w).pc.spinning)
    (hann : x.pc.announced = (s.workers w).pc.announced) (hsleepy : x.pc.sleepy = false)
    (halive : s.stop = false → x.pc ≠ .exited) : LoopTurn d s (s₁.setWorker w x) w := by
  refine .of ?_ ?_ (fun _ h => ?_) halive
  · rw [hspin, add_sub_cancel_right, hg]
  · rw [hann, add_sub_cancel_right, hp]
  · rw [hsleepy] at h
    cases h

theorem Spin.leave_turn (sp : Spin) : sp.leave.spinning = sp.conta ∧ sp.leave.announced = false ∧
    sp.leave.sleepy = false ∧ sp.leave ≠ .exited := by
  unfold Spin.leave
  split_ifs with h₁ h₂ <;> simp [WorkerPc.spinning, WorkerPc.announced, WorkerPc.sleepy, h₁]

theorem GetSite.missed_turn (site : GetSite) (core : Bool) (ocioso : ℕ) (p : GetPc) :
    (site.missed core ocioso).spinning = (WorkerPc.get site p).spinning ∧
      (site.missed core ocioso).announced = (WorkerPc.get site p).announced ∧
      ((site.missed core ocioso).sleepy = true → (WorkerPc.get site p).sleepy = true) ∧
      site.missed core ocioso ≠ .exited := by
  cases site <;> simp only [GetSite.missed]
  case announced => exact ⟨rfl, rfl, fun _ => rfl, (fun h => by cases h)⟩
  all_goals (try split_ifs) <;> exact ⟨rfl, rfl, (fun h => by cases h), (fun h => by cases h)⟩

theorem found_turn {s₁ : PoolState ι} {t : ℕ} {site : GetSite} {p : GetPc}
    (hpc : (s.workers w).pc = .get site p) (hg : s₁.nGirando = s.nGirando)
    (hp : s₁.nParkedCore = s.nParkedCore) : LoopTurn d s (s₁.found w t site) w := by
  unfold PoolState.found
  split <;> rename_i hsite
  · split_ifs with hc
    · exact .plain hg hp (by rw [hpc]; exact hc.symm) (by rw [hpc]; rfl) rfl fun _ => nofun
    · refine .plain hg hp ?_ (by rw [hpc]; rfl) rfl fun _ => nofun
      rw [hpc]
      exact (Bool.eq_false_iff.mpr hc).symm
  · exact .plain hg hp (by rw [hpc]; rfl) (by rw [hpc]; rfl) rfl fun _ => nofun
  · refine .plain hg hp ?_ ?_ rfl fun _ => nofun <;> rw [hpc] <;> cases site <;> first
      | rfl
      | simp_all

theorem poolWorkerFn_turn {b : Bool} (h : (s.workers w).pc.Kind d w)
    (hs : poolWorkerFn d s w b (s.workers w).pc = some s') : LoopTurn d s s' w := by
  have hgo : ∀ {s₁ : PoolState ι} {x : PoolWorker}, s₁.nGirando = s.nGirando →
      s₁.nParkedCore = s.nParkedCore → x.pc.spinning = (s.workers w).pc.spinning →
      x.pc.announced = (s.workers w).pc.announced → x.pc.sleepy = false →
      (s.stop = false → x.pc ≠ .exited) → LoopTurn d s (s₁.setWorker w x) w := .plain
  cases hpc : (s.workers w).pc <;> rw [hpc] at hs h hgo <;>
    simp only [poolWorkerFn, Option.some.injEq, reduceCtorEq] at hs
  case get site p =>
    obtain ⟨hg, hp⟩ := poolTryGet_words d s w b p
    split at hs <;> rename_i hget <;> rw [hget] at hg hp <;> subst hs
    · obtain ⟨-, -, hparked, hsignal⟩ := poolTryGet_self hget
      refine .of ?_ ?_ (fun _ hsl => .inr ⟨?_, hparked, hsignal⟩) fun _ h => (by cases h)
      · rw [hpc, hg]
        cases site <;> simp [WorkerPc.spinning]
      · rw [hpc, hp]
        cases site <;> simp [WorkerPc.announced]
      · rw [hpc]
        cases site <;> exact hsl
    · exact found_turn hpc hg hp
    · obtain ⟨-, -, hparked, hsignal⟩ := poolTryGet_self hget
      obtain ⟨hspin, hann, hsl, hal⟩ := site.missed_turn (d.isCore w) _ p
      refine .of ?_ ?_ (fun _ hs => .inr ⟨?_, hparked, hsignal⟩) fun _ => hal
      · rw [hpc, hspin, add_sub_cancel_right, hg]
      · rw [hpc, hann, add_sub_cancel_right, hp]
      · rw [hpc]
        exact hsl hs
  case giraFim sp t =>
    subst hs
    have hset : ∀ {x : PoolWorker}, x.pc.spinning = false → x.pc.announced = false →
        x.pc.sleepy = false → x.pc ≠ .exited →
        LoopTurn d s ({ s with nGirando := s.nGirando - 1 }.setWorker w x) w := by
      intro x hspin hann hsl hal
      have hcore : d.isCore w = true := h
      refine .of ?_ ?_ (fun _ h => absurd (hsl.symm.trans h) (fun h => by cases h)) fun _ => hal
      · rw [hpc, hspin]
        simp [WorkerPc.spinning, hcore]
      · rw [hpc, hann]
        simp [WorkerPc.announced]
    cases t <;> dsimp only <;> split_ifs <;> exact hset rfl rfl rfl (fun h => by cases h)
  case giraWake t p =>
    obtain ⟨hg, hp⟩ := poolWakeSubmit_words d s p
    split at hs <;> rename_i hw <;> rw [hw] at hg hp <;> subst hs <;>
      exact hgo hg hp rfl rfl rfl (by simp)
  case sleep =>
    split_ifs at hs
    cases hs
    exact hgo rfl rfl rfl rfl rfl (by simp)
  case spinStop sp =>
    subst hs
    obtain ⟨hspin, hann, hsl, hal⟩ := sp.leave_turn
    cases sp.loop <;> dsimp only <;> split_ifs <;>
      first | exact hgo rfl rfl hspin hann hsl fun _ => hal | exact hgo rfl rfl rfl rfl rfl (by simp)
  all_goals subst hs
  case announce =>
    refine .of ?_ ?_ (fun _ _ => .inl ?_) fun _ h => (by cases h)
    · simp [hpc, WorkerPc.spinning, PoolState.setParked, PoolState.setWorker]
    · simp [hpc, WorkerPc.announced, PoolState.setParked, PoolState.setWorker]
    · rw [PoolState.setParked_self]
  case announceCount =>
    have hcore : d.isCore w = true := h
    refine .of ?_ ?_ (fun _ _ => .inr ⟨?_, rfl, rfl⟩) fun _ h => (by cases h)
    · simp [hpc, WorkerPc.spinning]
    · simp [hpc, WorkerPc.announced, hcore]
    · rw [hpc]
      rfl
  case retractCount t | wokenCount =>
    have hcore : d.isCore w = true := h
    refine .of ?_ ?_ (fun _ h => (by cases h)) fun _ h => (by cases h)
    · simp [hpc, WorkerPc.spinning]
    · simp [hpc, WorkerPc.announced, hcore]
  case spinCount sp =>
    obtain ⟨hcore, hconta⟩ := h
    refine .of ?_ ?_ (fun _ h => (by cases h)) fun _ h => (by cases h)
    · simp [hpc, WorkerPc.spinning, hcore, hconta]
    · simp [hpc, WorkerPc.announced]
  case perfil =>
    refine .of ?_ ?_ (fun _ _ => .inr ⟨?_, rfl, rfl⟩) fun _ h => (by cases h)
    · simp [hpc, WorkerPc.spinning]
    · simp [hpc, WorkerPc.announced]
    · rw [hpc]
      rfl
  case elasticParked =>
    have hcore : d.isCore w = false := d.not_core_of_elastic h
    refine .of ?_ ?_ (fun hc => ?_) fun _ => ?_
    · split_ifs <;> simp [hpc, WorkerPc.spinning]
    · simp [hcore]
    · simp [hcore] at hc
    · split_ifs <;> (intro h; cases h)
  case sleepClear eco woken =>
    refine .of ?_ ?_ (fun hc hsl => ?_) fun _ => ?_
    · split_ifs <;> simp [hpc, WorkerPc.spinning, PoolState.setSignal, PoolState.setWorker]
    · cases hc : d.isCore w
      · simp [PoolState.setSignal, PoolState.setWorker]
      · simp [hpc, WorkerPc.announced, PoolState.setSignal, PoolState.setWorker,
          d.not_elastic_of_core hc]
    · split_ifs at hsl <;> cases hsl
    · split_ifs <;> (intro h; cases h)
  case parkTest =>
    split_ifs with hstop hcore
    · exact hgo rfl rfl rfl rfl rfl fun h => absurd (h.symm.trans hstop) (fun h => by cases h)
    · exact hgo rfl rfl rfl rfl rfl fun _ h => (by cases h)
    · refine .of ?_ ?_ (fun hc => absurd hc hcore) fun _ h => (by cases h)
      · simp [hpc, WorkerPc.spinning]
      · simp [hcore]
  case stopTest | elasticStop | elasticWoken =>
    split_ifs with hstop
    · exact hgo rfl rfl rfl rfl rfl fun h => absurd (h.symm.trans hstop) (fun h => by cases h)
    · exact hgo rfl rfl rfl rfl rfl fun _ h => (by cases h)
  all_goals
    (try split_ifs) <;> exact hgo rfl rfl rfl rfl rfl fun _ h => (by cases h)

theorem poolRun_words {t : ℕ} {p : FramePc} {rest : List Frame}
    (hs : poolRun d s w t rest p = some s') :
    s'.nGirando = s.nGirando ∧ s'.nParkedCore = s.nParkedCore ∧
      ((s'.workers w).pc = (s.workers w).pc ∨ (s'.workers w).pc = .elasticLoop ∧ d.isElastic w ∨
        (s'.workers w).pc = .stopTest ∧ d.isElastic w = false) := by
  cases p <;> simp only [poolRun, Option.some.injEq, reduceCtorEq] at hs
  case place u =>
    subst hs
    split
    · exact ⟨rfl, rfl, .inl (by rw [PoolState.setWorker_self])⟩
    · split_ifs <;> exact ⟨rfl, rfl, .inl (by rw [PoolState.setWorker_self])⟩
  case wake u q =>
    obtain ⟨hg, hp⟩ := poolWakeSubmit_words d s q
    have hpc := (poolWakeSubmit_nudged d s q w).pc
    split at hs <;> rename_i hw <;> rw [hw] at hg hp hpc <;> subst hs <;>
      exact ⟨hg, hp, .inl ((PoolState.setFrames_pc ..).trans hpc)⟩
  case stopTest =>
    subst hs
    split <;> exact ⟨rfl, rfl, .inl (PoolState.setFrames_pc ..)⟩
  case ctrStore =>
    subst hs
    split
    · exact ⟨rfl, rfl, .inl (PoolState.setFrames_pc ..)⟩
    · refine ⟨rfl, rfl, .inr ?_⟩
      rw [PoolState.setWorker_self]
      unfold PoolDims.nextTurn
      split_ifs with hel
      · exact .inl ⟨rfl, hel⟩
      · exact .inr ⟨rfl, Bool.eq_false_iff.mpr hel⟩
  case inc | ctrLoad =>
    subst hs
    exact ⟨rfl, rfl, .inl (PoolState.setFrames_pc ..)⟩
  all_goals
    subst hs
    exact ⟨rfl, rfl, .inl (by rw [PoolState.setWorker_self])⟩

theorem poolRun_monitor {t : ℕ} {p : FramePc} {rest : List Frame}
    (hs : poolRun d s w t rest p = some s') : s'.monitor = s.monitor ∧ s'.stop = s.stop := by
  cases p <;> simp only [poolRun, Option.some.injEq, reduceCtorEq] at hs
  case place u =>
    subst hs
    split
    · exact ⟨rfl, rfl⟩
    · split_ifs <;> exact ⟨rfl, rfl⟩
  case wake u q =>
    have hl := poolWakeSubmit_loop d s q
    split at hs <;> rename_i hw <;> rw [hw] at hl <;> subst hs <;> exact ⟨hl.monitor, hl.stop⟩
  case stopTest | ctrStore =>
    subst hs
    split <;> exact ⟨rfl, rfl⟩
  all_goals
    subst hs
    exact ⟨rfl, rfl⟩

theorem poolRun_turn {t : ℕ} {p : FramePc} {rest : List Frame} (hpc : (s.workers w).pc = .run)
    (hs : poolRun d s w t rest p = some s') : LoopTurn d s s' w := by
  obtain ⟨hg, hp, hpc'⟩ := poolRun_words hs
  rw [hpc] at hpc'
  refine ⟨?_, ?_, fun _ h => ?_, fun _ h => ?_⟩
  all_goals rcases hpc' with hpc' | ⟨hpc', -⟩ | ⟨hpc', -⟩
  all_goals first
    | simp [hpc, hpc', hg, hp, WorkerPc.spinning, WorkerPc.announced]; done
    | simp [hpc', WorkerPc.sleepy] at h

theorem poolRun_kind {t : ℕ} {p : FramePc} {rest : List Frame} (hpc : (s.workers w).pc = .run)
    (hs : poolRun d s w t rest p = some s') : (s'.workers w).pc.Kind d w := by
  obtain ⟨-, -, hpc'⟩ := poolRun_words hs
  rcases hpc' with hpc' | ⟨hpc', hel⟩ | ⟨hpc', hel⟩ <;> rw [hpc']
  · rw [hpc]
    trivial
  · exact hel
  · exact hel

end Xplatbase.ThreadPool
