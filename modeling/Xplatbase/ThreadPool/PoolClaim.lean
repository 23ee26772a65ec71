import Xplatbase.ThreadPool.PoolSleep

/-! Directed wakes. A core that `pool_wake_one_core` claims owes a complete look at the queues
before it runs a task. It keeps this debt unless it is claimed while it takes back its own
announcement, a task already in hand. -/
namespace Xplatbase.ThreadPool
open Xplatbase.Lib

variable {ι : Type*} {d : PoolDims} {s s' : PoolState ι} {l : PoolLabel ι} {w z : ℕ}

/-- What a claimed core owes: a whole `pool_try_get`, or the rest of one begun since. -/
inductive Debt
  | none
  | owed
  | looking
  deriving DecidableEq

/-- The debt after a step of `pool_try_get` at `p` with outcome `r`. -/
def Debt.after (p : GetPc) (r : GetNext) : Debt → Debt
  | .none => .none
  | .owed =>
    match p, r with
    | .start, .go _ => .looking
    | .start, _ => .none
    | _, _ => .owed
  | .looking =>
    match r with
    | .go _ => .looking
    | _ => .none

/-- The place in `pool_wake_submit` that the mover has reached. -/
def PoolState.waking (s : PoolState ι) : PoolLabel ι → Option WakePc
  | .client c _ =>
    match s.clients c with
    | .submit _ (.wake p) => some p
    | _ => none
  | .worker w _ =>
    match (s.workers w).frames with
    | ⟨_, .wake _ p⟩ :: _ => some p
    | [] =>
      match (s.workers w).pc with
      | .giraWake _ p => some p
      | _ => none
    | _ => none
  | _ => none

/-- The core whose `parked` a step of `pool_wake_one_core` takes from 1 to 0. -/
def PoolState.claims (d : PoolDims) (s : PoolState ι) (l : PoolLabel ι) : Option ℕ :=
  match s.waking l with
  | some (.claim start j) =>
    if (s.workers (d.coreAt start j)).parked then some (d.coreAt start j) else none
  | _ => none

structure PoolClaims (ι : Type*) where
  pool : PoolState ι
  debt : ℕ → Debt

def PoolClaims.debtAfter (d : PoolDims) (g : PoolClaims ι) (l : PoolLabel ι) : ℕ → Debt :=
  match g.pool.claims d l with
  | some z => Function.update g.debt z .owed
  | none =>
    match l with
    | .worker w b =>
      match (g.pool.workers w).frames, (g.pool.workers w).pc with
      | [], .get _ p =>
        Function.update g.debt w ((g.debt w).after p (poolTryGet d g.pool w b p).2)
      | _, _ => g.debt
    | _ => g.debt

def poolClaimsStep [DecidableEq ι] (d : PoolDims) (g : PoolClaims ι) (l : PoolLabel ι) :
    Option (PoolClaims ι) :=
  (poolStep d g.pool l).map fun s' => ⟨s', g.debtAfter d l⟩

def poolClaims [DecidableEq ι] (d : PoolDims) : System (PoolClaims ι) (PoolLabel ι) where
  init := fun g => g = ⟨poolCreateRelative d, fun _ => .none⟩
  step := poolClaimsStep d

/-- A core that clears its own `parked`, a task in hand, finds it still set. -/
def PoolState.flagKept (s : PoolState ι) : PoolLabel ι → Bool
  | .worker w _ =>
    match (s.workers w).pc with
    | .retract _ => (s.workers w).parked
    | _ => true
  | _ => true

/-! ### The debt of a worker at each place -/

/-- What holds of the flag and the debt of a core worker at this place. -/
def WorkerPc.Owes (parked : Bool) (D : Debt) : WorkerPc → Prop
  | .get site p => (p = .start → D ≠ .looking) ∧
      (p ≠ .start → D = .owed → site = .announced ∧ parked = false) ∧
      (site ≠ .announced → parked = false)
  | .retractCount _ | .retract _ => D ≠ .looking ∧ (D = .owed → parked = false)
  | .announceCount | .perfil | .sleep _ | .sleepClear _ _ | .wokenCount _ _ | .woken _ _ =>
    D ≠ .looking
  | .giraFim _ (some _) | .giraFila _ _ | .giraHead _ _ _ | .giraWake _ _ | .run =>
    D = .none ∧ parked = false
  | _ => D ≠ .looking ∧ parked = false

theorem WorkerPc.Owes.unpark {p : WorkerPc} {b b' : Bool} {D : Debt} (h : p.Owes b D)
    (hb : b' = true → b = true) : p.Owes b' D := by
  have hf : b = false → b' = false := fun h => by
    by_contra hn
    rw [hb (Bool.eq_true_of_not_eq_false hn)] at h
    cases h
  cases p with
  | get site q =>
    exact ⟨h.1, fun hq hD => ⟨(h.2.1 hq hD).1, hf (h.2.1 hq hD).2⟩, fun hs => hf (h.2.2 hs)⟩
  | retractCount t | retract t => exact ⟨h.1, fun hD => hf (h.2 hD)⟩
  | announceCount | perfil | sleep _ | sleepClear _ _ | wokenCount _ _ | woken _ _ => exact h
  | giraFim sp t =>
    cases t with
    | none => exact ⟨h.1, hf h.2⟩
    | some t => exact ⟨h.1, hf h.2⟩
  | _ => exact ⟨h.1, hf h.2⟩

theorem WorkerPc.Owes.claim {p : WorkerPc} {D : Debt} (h : p.Owes true D) : p.Owes false .owed := by
  cases p with
  | get site q =>
    have hsite : site = .announced := by
      by_contra hn
      cases h.2.2 hn
    exact ⟨fun _ => nofun, fun _ _ => ⟨hsite, rfl⟩, fun _ => rfl⟩
  | retractCount t | retract t => exact ⟨nofun, fun _ => rfl⟩
  | announceCount | perfil | sleep _ | sleepClear _ _ | wokenCount _ _ | woken _ _ =>
    exact fun h => nomatch h
  | giraFim sp t =>
    cases t with
    | none => exact ⟨nofun, rfl⟩
    | some t => cases h.2
  | giraFila _ _ | giraHead _ _ _ | giraWake _ _ | run => cases h.2
  | _ => exact ⟨nofun, rfl⟩

theorem Debt.after_go {p q : GetPc} {D : Debt} (h : D.after p (.go q) = .owed) :
    D = .owed ∧ p ≠ .start := by
  cases D <;> cases p <;> simp [Debt.after] at h ⊢

theorem Debt.after_done {p : GetPc} {r : GetNext} (hr : ∀ q, r ≠ .go q) (D : Debt) :
    D.after p r ≠ .looking ∧ (D.after p r = .owed → D = .owed ∧ p ≠ .start) := by
  cases D <;> cases p <;> cases r <;> simp [Debt.after] at hr ⊢

theorem poolTryGet_go_ne_start {b : Bool} {p p' : GetPc} (hg : (poolTryGet d s w b p).2 = .go p') :
    p' ≠ .start := by
  rintro rfl
  cases p
  case popLoad g => cases hg
  all_goals
    simp only [poolTryGet] at hg
    split at hg <;> (try split_ifs at hg) <;> cases hg

theorem Spin.leave_owes {D : Debt} (h : D ≠ .looking) (sp : Spin) : sp.leave.Owes false D := by
  unfold Spin.leave
  split_ifs
  · exact ⟨h, rfl⟩
  · exact ⟨fun _ => h, fun hn => absurd rfl hn, fun _ => rfl⟩
  · exact ⟨h, rfl⟩

/-! ### The steps of a core worker -/

/-- A core that has found a task owes nothing, unless it has announced that it sleeps. -/
theorem found_owes {t : ℕ} {site : GetSite} {D : Debt} (hlook : D ≠ .looking)
    (hnone : site ≠ .announced → D = .none ∧ (s.workers w).parked = false)
    (howed : D = .owed → (s.workers w).parked = false) :
    ((s.found w t site).workers w).pc.Owes ((s.found w t site).workers w).parked D := by
  cases site with
  | announced =>
    simp only [PoolState.found]
    rw [PoolState.setPc_self]
    exact ⟨hlook, howed⟩
  | spin sp =>
    have hfree := hnone fun h => by cases h
    simp only [PoolState.found]
    split_ifs
    · rw [PoolState.setPc_self]
      exact hfree
    · rw [PoolState.run_self]
      exact hfree
  | loop | vigia | prepared | sleep0 | elastic =>
    simp only [PoolState.found]
    rw [PoolState.run_self]
    exact hnone fun h => by cases h

theorem missed_owes {site : GetSite} {D : Debt} {parked : Bool} (hlook : D ≠ .looking)
    (hparked : site ≠ .announced → parked = false) (core : Bool) (ocioso : ℕ) :
    (site.missed core ocioso).Owes parked D := by
  cases site with
  | announced => exact hlook
  | loop | prepared =>
    have hp := hparked fun h => by cases h
    simp only [GetSite.missed]
    split_ifs <;> exact ⟨hlook, hp⟩
  | vigia | spin | sleep0 | elastic => exact ⟨hlook, hparked fun h => by cases h⟩

/-- A step of `pool_try_get`. -/
theorem poolTryGet_owes {b : Bool} {D : Debt} {site : GetSite} {p : GetPc}
    (ho : (WorkerPc.get site p).Owes (s.workers w).parked D)
    (hs : poolWorkerFn d s w b (.get site p) = some s') :
    (s'.workers w).pc.Owes (s'.workers w).parked (D.after p (poolTryGet d s w b p).2) := by
  obtain ⟨hstart, howed, hparked⟩ := ho
  simp only [poolWorkerFn, Option.some.injEq] at hs
  split at hs
  · rename_i s₁ q hg
    obtain ⟨-, -, hp, -⟩ := poolTryGet_self hg
    have hr : (poolTryGet d s w b p).2 = .go q := by rw [hg]
    subst hs
    rw [PoolState.setPc_self, hp, hr]
    refine ⟨fun hq => absurd hq (poolTryGet_go_ne_start hr), fun _ hD => ?_, hparked⟩
    obtain ⟨hDo, hps⟩ := Debt.after_go hD
    exact howed hps hDo
  · rename_i s₁ t hg
    obtain ⟨-, -, hp, -⟩ := poolTryGet_self hg
    have hr : (poolTryGet d s w b p).2 = .got t := by rw [hg]
    obtain ⟨hlook, hback⟩ := Debt.after_done (p := p) (r := .got t) (by simp) D
    subst hs
    rw [hr]
    apply found_owes hlook
    · intro hsite
      rw [hp]
      refine ⟨?_, hparked hsite⟩
      cases hD : D.after p (.got t) with
      | none => rfl
      | looking => exact absurd hD hlook
      | owed => exact absurd (howed (hback hD).2 (hback hD).1).1 hsite
    · intro hD
      rw [hp]
      exact (howed (hback hD).2 (hback hD).1).2
  · rename_i s₁ hg
    obtain ⟨-, -, hp, -⟩ := poolTryGet_self hg
    have hr : (poolTryGet d s w b p).2 = .nothing := by rw [hg]
    obtain ⟨hlook, -⟩ := Debt.after_done (p := p) (r := .nothing) (by simp) D
    subst hs
    rw [PoolState.setPc_self, hp, hr]
    exact missed_owes hlook hparked ..

theorem giraFim_owes {b : Bool} {D : Debt} {sp : Spin} {t : Option ℕ}
    (ho : (WorkerPc.giraFim sp t).Owes (s.workers w).parked D)
    (hs : poolWorkerFn d s w b (.giraFim sp t) = some s') :
    (s'.workers w).pc.Owes (s'.workers w).parked D := by
  simp only [poolWorkerFn, Option.some.injEq] at hs
  subst hs
  cases t with
  | none =>
    dsimp only
    rw [PoolState.setPc_self]
    split_ifs
    · exact ⟨fun _ => ho.1, fun hn => absurd rfl hn, fun _ => ho.2⟩
    · exact ho
  | some t =>
    dsimp only
    split_ifs
    · rw [PoolState.setPc_self]
      exact ho
    · rw [PoolState.run_self]
      exact ho

theorem giraWake_owes {b : Bool} {D : Debt} {t : ℕ} {p : WakePc}
    (ho : (WorkerPc.giraWake t p).Owes (s.workers w).parked D)
    (hs : poolWorkerFn d s w b (.giraWake t p) = some s') :
    (s'.workers w).pc.Owes (s'.workers w).parked D := by
  obtain ⟨hD, hp⟩ := ho
  have hp' : ((poolWakeSubmit d s p).1.workers w).parked = false := by
    obtain ⟨_, _, _, _, -, hpar, -, hx⟩ := poolWakeSubmit_nudged d s p w
    rw [hx]
    by_contra hne
    rw [hpar (Bool.eq_true_of_not_eq_false hne)] at hp
    cases hp
  simp only [poolWorkerFn, Option.some.injEq] at hs
  split at hs
  · rename_i hw
    rw [hw] at hp'
    subst hs
    rw [PoolState.setPc_self, hp']
    exact ⟨hD, rfl⟩
  · rename_i hw
    rw [hw] at hp'
    subst hs
    rw [PoolState.run_self, hp']
    exact ⟨hD, rfl⟩

/-- `D'` is the debt after the step. -/
theorem poolWorkerFn_owes {b : Bool} {D D' : Debt} (hcore : d.isCore w = true)
    (hk : (s.workers w).pc.Kind d w) (ho : (s.workers w).pc.Owes (s.workers w).parked D)
    (hflag : ∀ t, (s.workers w).pc = .retract t → (s.workers w).parked = true)
    (hget : ∀ site p, (s.workers w).pc = .get site p → D' = D.after p (poolTryGet d s w b p).2)
    (hrest : (∀ site p, (s.workers w).pc ≠ .get site p) → D' = D)
    (hs : poolWorkerFn d s w b (s.workers w).pc = some s') :
    (s'.workers w).pc.Owes (s'.workers w).parked D' := by
  have hel := d.not_elastic_of_core hcore
  cases hpc : (s.workers w).pc
  case get site p =>
    rw [hpc] at hs ho
    rw [hget site p hpc]
    exact poolTryGet_owes ho hs
  all_goals
    obtain rfl : D' = D := hrest fun site p he => by rw [hpc] at he; cases he
    rw [hpc] at hs hk ho
  case giraFim sp t => exact giraFim_owes ho hs
  case giraWake t p => exact giraWake_owes ho hs
  all_goals simp only [poolWorkerFn, Option.some.injEq, reduceCtorEq] at hs
  case giraFila t j =>
    subst hs
    split_ifs
    · rw [PoolState.setPc_self]
      exact ho
    · rw [PoolState.run_self]
      exact ho
  case giraHead t j tail =>
    subst hs
    rw [PoolState.setPc_self]
    dsimp only
    split_ifs <;> exact ho
  case sleep eco =>
    split_ifs at hs
    cases hs
    rw [PoolState.setPc_self]
    exact ho
  case retract t =>
    subst hs
    rw [PoolState.run_self]
    have hp := hflag t hpc
    refine ⟨?_, by rw [PoolState.setParked_self]⟩
    cases hD : D' with
    | none => rfl
    | looking => exact absurd hD ho.1
    | owed =>
      rw [ho.2 hD] at hp
      cases hp
  case spinStop sp =>
    subst hs
    rw [PoolState.setPc_self, ho.2]
    dsimp only
    cases sp.loop <;> dsimp only <;> split_ifs <;>
      first
        | exact sp.leave_owes ho.1
        | exact ⟨fun _ => ho.1, fun hn => absurd rfl hn, fun _ => rfl⟩
  case retractCount t =>
    subst hs
    rw [PoolState.setPc_self]
    exact ho
  case announce =>
    subst hs
    rw [PoolState.setPc_self]
    exact ho.1
  case announceCount =>
    subst hs
    rw [PoolState.setPc_self]
    exact ⟨fun _ => ho, fun hn => absurd rfl hn, fun hn => absurd rfl hn⟩
  case perfil =>
    subst hs
    rw [PoolState.setPc_self]
    exact ho
  case sleepClear eco woken =>
    subst hs
    rw [PoolState.setPc_self]
    simp only [hel, hcore, Bool.false_eq_true, if_false, if_true]
    exact ho
  case wokenCount =>
    subst hs
    rw [PoolState.setPc_self]
    exact ho
  case woken =>
    subst hs
    rw [PoolState.setWorker_self]
    exact ⟨ho, by simp [hcore]⟩
  case parkTest =>
    subst hs
    rw [PoolState.setPc_self]
    simp only [hcore, if_true]
    split_ifs <;> exact ho
  case prepare =>
    subst hs
    rw [PoolState.setPc_self, PoolState.setSignal_self]
    exact ⟨fun _ => ho.1, fun hn => absurd rfl hn, fun _ => ho.2⟩
  case elasticStop | elasticPark | elasticPrepare | elasticParked | elasticWoken | elasticActive
      | elasticLoop | elasticGiro =>
    cases hel.symm.trans hk
  all_goals
    subst hs
    rw [PoolState.setPc_self]
    dsimp only
    (try split_ifs) <;>
      first
        | exact ho
        | exact ⟨fun _ => ho.1, fun hn => absurd rfl hn, fun _ => ho.2⟩

/-- A worker in a task keeps its flag, and goes back to the head of its loop. -/
theorem poolRun_owes {t : ℕ} {p : FramePc} {rest : List Frame} {D : Debt}
    (hcore : d.isCore w = true) (hpc : (s.workers w).pc = .run)
    (ho : (s.workers w).pc.Owes (s.workers w).parked D) (hs : poolRun d s w t rest p = some s') :
    (s'.workers w).pc.Owes (s'.workers w).parked D := by
  have hel := d.not_elastic_of_core hcore
  obtain ⟨-, -, hpc'⟩ := poolRun_words hs
  rw [hpc] at ho
  obtain ⟨hD, hp⟩ := ho
  have hp' : (s'.workers w).parked = false := by
    cases p <;> simp only [poolRun, Option.some.injEq, reduceCtorEq] at hs
    case place u =>
      subst hs
      split
      · rw [PoolState.setWorker_self, ← hp]
      · split_ifs <;> rw [PoolState.setWorker_self, ← hp]
    case wake u q =>
      obtain ⟨_, _, _, _, -, hpar, -, hx⟩ := poolWakeSubmit_nudged d s q w
      have hq : ((poolWakeSubmit d s q).1.workers w).parked = false := by
        rw [hx]
        by_contra hne
        rw [hpar (Bool.eq_true_of_not_eq_false hne)] at hp
        cases hp
      split at hs <;> rename_i hw <;> rw [hw] at hq <;> subst hs
      all_goals
        rw [PoolState.setFrames, PoolState.setWorker_self]
        exact hq
    case stopTest =>
      subst hs
      split <;> rw [PoolState.setFrames, PoolState.setWorker_self] <;> exact hp
    case ctrStore =>
      subst hs
      split
      · rw [PoolState.setFrames, PoolState.setWorker_self]
        exact hp
      · rw [PoolState.setWorker_self]
        unfold PoolDims.nextTurn
        split_ifs <;> exact hp
    case inc | ctrLoad =>
      subst hs
      rw [PoolState.setFrames, PoolState.setWorker_self]
      exact hp
    all_goals
      subst hs
      rw [PoolState.setWorker_self]
      exact hp
  rw [hp', hD]
  rcases hpc' with h | ⟨-, h⟩ | ⟨h, -⟩
  · rw [h, hpc]
    exact ⟨rfl, rfl⟩
  · cases hel.symm.trans h
  · rw [h]
    exact ⟨(fun h => by cases h), rfl⟩

section Client

variable [DecidableEq ι]

/-! ### Claims -/

omit [DecidableEq ι] in
theorem claims_lt (h : s.claims d l = some z) : d.isCore z = true := by
  unfold PoolState.claims at h
  split at h
  · split_ifs at h
    obtain rfl := Option.some.inj h
    exact decide_eq_true (Nat.mod_lt _ d.core_pos)
  · cases h

omit [DecidableEq ι] in
theorem claims_parked (h : s.claims d l = some z) : (s.workers z).parked = true := by
  unfold PoolState.claims at h
  split at h
  · split_ifs at h with hp
    obtain rfl := Option.some.inj h
    exact hp
  · cases h

theorem poolStep_claims_clear (hs : poolStep d s l = some s') (h : s.claims d l = some z) :
    (s'.workers z).parked = false := by
  have hclaim : ∀ {start j : ℕ}, (if (s.workers (d.coreAt start j)).parked then
      some (d.coreAt start j) else none) = some z →
      poolWakeSubmit d s (.claim start j) = (s.setParked z false, some (.signal z)) := by
    intro start j h
    split_ifs at h with hp
    obtain rfl := Option.some.inj h
    simp only [poolWakeSubmit, hp, if_true]
  have hkeep : ∀ {s₁ : PoolState ι} {v : ℕ} {x : PoolWorker}, (s₁.workers z).parked = false →
      x.parked = (s₁.workers v).parked → ((s₁.setWorker v x).workers z).parked = false := by
    intro s₁ v x hz hx
    by_cases hv : z = v
    · subst hv
      rw [PoolState.setWorker_self, hx, hz]
    · rw [PoolState.setWorker_other _ hv, hz]
  have hz : ((s.setParked z false).workers z).parked = false := by rw [PoolState.setParked_self]
  unfold PoolState.claims at h
  split at h
  · rename_i start j hw
    cases l with
    | client c b =>
      simp only [PoolState.waking] at hw
      split at hw <;> simp only [Option.some.injEq, reduceCtorEq] at hw
      rename_i t p hc
      subst hw
      simp only [poolStep, hc, poolClient, poolSubmitRelative, hclaim h, Option.some.injEq] at hs
      subst hs
      exact hz
    | worker w b =>
      simp only [PoolState.waking] at hw
      simp only [poolStep] at hs
      split_ifs at hs
      split at hw
      · rename_i t p rest hf
        obtain rfl := Option.some.inj hw
        simp only [hf, poolRun, hclaim h, Option.some.injEq] at hs
        subst hs
        exact hkeep hz rfl
      · rename_i hf
        split at hw <;> simp only [Option.some.injEq, reduceCtorEq] at hw
        rename_i t p hpc
        subst hw
        simp only [hf, hpc, poolWorkerFn, hclaim h, Option.some.injEq] at hs
        subst hs
        exact hkeep hz rfl
      · cases hw
    | _ => simp only [PoolState.waking, reduceCtorEq] at hw
  · cases h

/-- The debt of each worker fits its place; only a core can have one. -/
def OwesInv (d : PoolDims) (g : PoolClaims ι) : Prop :=
  ∀ w, (d.isCore w = true →
      (g.pool.workers w).pc.Owes (g.pool.workers w).parked (g.debt w)) ∧
    (d.isCore w = false → g.debt w = .none)

omit [DecidableEq ι] in
theorem debtAfter_other {g : PoolClaims ι} (hm : l.mover ≠ some w)
    (hc : g.pool.claims d l ≠ some w) : g.debtAfter d l w = g.debt w := by
  unfold PoolClaims.debtAfter
  cases hz : g.pool.claims d l with
  | some z => exact Function.update_of_ne (fun h => hc (by rw [hz, h])) ..
  | none =>
    cases l with
    | worker v b =>
      have hv : w ≠ v := fun h => hm (by rw [PoolLabel.mover, h])
      dsimp only
      cases (g.pool.workers v).frames with
      | cons f rest => rfl
      | nil =>
        cases (g.pool.workers v).pc with
        | get site p => exact Function.update_of_ne hv ..
        | _ => rfl
    | _ => rfl

omit [DecidableEq ι] in
/-- Only a step of `pool_try_get` changes the debt of the worker that makes it. -/
theorem debtAfter_worker {g : PoolClaims ι} {b : Bool} (hc : g.pool.claims d (.worker w b) ≠ some w) :
    (∀ site p, (g.pool.workers w).frames = [] → (g.pool.workers w).pc = .get site p →
      g.debtAfter d (.worker w b) w = (g.debt w).after p (poolTryGet d g.pool w b p).2) ∧
    (((g.pool.workers w).frames ≠ [] ∨ ∀ site p, (g.pool.workers w).pc ≠ .get site p) →
      g.debtAfter d (.worker w b) w = g.debt w) := by
  unfold PoolClaims.debtAfter
  refine ⟨fun site p hf hpc => ?_, fun h => ?_⟩
  · have hz : g.pool.claims d (.worker w b) = none := by
      simp only [PoolState.claims, PoolState.waking, hf, hpc]
    simp only [hz, hf, hpc, Function.update_self]
  · cases hz : g.pool.claims d (.worker w b) with
    | some z => exact Function.update_of_ne (fun h => hc (by rw [hz, h])) ..
    | none =>
      dsimp only
      cases hf : (g.pool.workers w).frames with
      | cons f rest => rfl
      | nil =>
        cases hpc : (g.pool.workers w).pc with
        | get site p =>
          rcases h with h | h
          · exact absurd hf h
          · exact absurd hpc (h site p)
        | _ => rfl

theorem OwesInv.step {g g' : PoolClaims ι} (ho : OwesInv d g) (hwf : PoolWf d g.pool)
    (hpark : ParkInv d g.pool) (hok : g.pool.flagKept l = true)
    (hs : poolClaimsStep d g l = some g') : OwesInv d g' := by
  obtain ⟨s', hp, rfl⟩ := Option.map_eq_some_iff.mp hs
  intro w
  refine ⟨fun hcore => ?_, fun hcore => ?_⟩
  · have how := (ho w).1 hcore
    by_cases hm : l.mover = some w
    · cases l with
      | worker v b =>
        obtain rfl : v = w := Option.some.inj hm
        -- a worker that wakes others has cleared its own flag
        have hother : g.pool.claims d (.worker v b) ≠ some v := fun hc => by
          have hpark := claims_parked hc
          rw [hpark] at how
          unfold PoolState.claims PoolState.waking at hc
          dsimp only at hc
          split at hc
          · rename_i hw
            split at hw
            · rename_i hf
              rw [(hwf.frames_ok hf).1] at how
              cases how.2
            · split at hw
              · rename_i hpc
                rw [hpc] at how
                cases how.2
              · cases hw
            · cases hw
          · cases hc
        obtain ⟨hget, hrest⟩ := debtAfter_worker hother
        simp only [poolStep] at hp
        split_ifs at hp
        split at hp
        · rename_i hf
          refine poolWorkerFn_owes hcore (hpark.kind v) how (fun t hpc => ?_)
            (fun site p => hget site p hf) (fun h => hrest (.inr h)) hp
          simpa [PoolState.flagKept, hpc] using hok
        · rename_i f rest hf
          dsimp only
          rw [hrest (.inl (by rw [hf]; intro h; cases h))]
          exact poolRun_owes hcore (hwf.frames_ok hf).1 how hp
      | spawn v | finish v =>
        obtain rfl : v = w := Option.some.inj hm
        simp only [poolStep] at hp
        split at hp <;> simp only [Option.some.injEq, reduceCtorEq] at hp
        subst hp
        simpa [PoolState.setFrames, PoolState.setWorker, PoolClaims.debtAfter, PoolState.claims,
          PoolState.waking] using how
      | lapse v clear woken =>
        obtain rfl : v = w := Option.some.inj hm
        simp only [poolStep] at hp
        split at hp <;> simp only [Option.some.injEq, reduceCtorEq] at hp
        rename_i eco hpc
        rw [hpc] at how
        subst hp
        rw [PoolState.setPc_self]
        simp only [d.not_elastic_of_core hcore, hcore, Bool.false_eq_true, if_false, if_true]
        split_ifs <;> exact how
      | _ => cases hm
    · have hn := poolStep_nudged hp hm
      dsimp only
      by_cases hc : g.pool.claims d l = some w
      · have hdebt : g.debtAfter d l w = .owed := by
          simp only [PoolClaims.debtAfter, hc, Function.update_self]
        rw [hn.pc, poolStep_claims_clear hp hc, hdebt]
        rw [claims_parked hc] at how
        exact how.claim
      · rw [hn.pc, debtAfter_other hm hc]
        obtain ⟨_, _, _, _, -, hpar, -, hx⟩ := hn
        rw [hx]
        exact how.unpark hpar
  · have hnone := (ho w).2 hcore
    have hc : g.pool.claims d l ≠ some w := fun hc => by
      cases hcore.symm.trans (claims_lt hc)
    by_cases hm : l.mover = some w
    · cases l with
      | worker v b =>
        obtain rfl : v = w := Option.some.inj hm
        obtain ⟨hget, hrest⟩ := debtAfter_worker hc
        dsimp only
        by_cases hpc : (g.pool.workers v).frames = [] ∧ ∃ site p, (g.pool.workers v).pc = .get site p
        · obtain ⟨hf, site, p, hpc⟩ := hpc
          rw [hget site p hf hpc, hnone]
          rfl
        · rw [hrest, hnone]
          by_cases hf : (g.pool.workers v).frames = []
          · exact .inr fun site p h => hpc ⟨hf, site, p, h⟩
          · exact .inl hf
      | spawn | finish | lapse =>
        simpa [PoolClaims.debtAfter, PoolState.claims, PoolState.waking] using hnone
      | _ => cases hm
    · exact (debtAfter_other hm hc).trans hnone

theorem poolClaims_inv {g : PoolClaims ι}
    (hr : (poolClaims d).ReachableWhen (fun g l => g.pool.flagKept l = true) g) :
    (poolSystem d).Reachable g.pool ∧ OwesInv d g := by
  refine System.ReachableWhen.invariant
    (P := fun g : PoolClaims ι => (poolSystem d).Reachable g.pool ∧ OwesInv d g)
    (fun g₀ hi => ?_) (fun g₀ l g₁ h hok hs => ?_) hr
  · obtain rfl : g₀ = ⟨poolCreateRelative d, fun _ => .none⟩ := hi
    refine ⟨.init rfl, fun w => ⟨fun hcore => ?_, fun _ => rfl⟩⟩
    simp only [poolCreateRelative, d.not_elastic_of_core hcore, Bool.false_eq_true, if_false]
    exact ⟨(fun h => by cases h), rfl⟩
  · have hsleep := poolSystem_sleep h.1
    refine ⟨?_, h.2.step hsleep.wf hsleep.park hok hs⟩
    obtain ⟨s', hp, rfl⟩ := Option.map_eq_some_iff.mp hs
    exact h.1.next hp

/-- While no core clears its announcement after a claim with a task in hand, a worker that has a
task to run has made, since the last time it was claimed, one whole `pool_try_get`. -/
theorem poolWakeOneCore_claims_idle (d : PoolDims) {g : PoolClaims ι}
    (hr : (poolClaims d).ReachableWhen (fun g l => g.pool.flagKept l = true) g) (w : ℕ)
    (hf : (g.pool.workers w).frames ≠ []) : g.debt w = .none := by
  obtain ⟨hpool, ho⟩ := poolClaims_inv hr
  obtain ⟨f, rest, hf⟩ := List.exists_cons_of_ne_nil hf
  have hpc := ((poolSystem_sleep hpool).wf.frames_ok hf).1
  cases hcore : d.isCore w with
  | true =>
    have how := (ho w).1 hcore
    rw [hpc] at how
    exact how.1
  | false => exact (ho w).2 hcore

end Client

/-- A core that sleeps is claimed, wakes up, and looks before it runs the task. -/
theorem poolWakeOneCore_claims_idle_single : ∃ g : PoolClaims Unit,
    (poolClaims .single).ReachableWhen (fun g l => g.pool.flagKept l = true) g ∧
    (g.pool.workers 0).frames ≠ [] ∧ g.debt 0 = .none := by
  have hout : ((poolClaims .single).execWhen (fun g l => g.pool.flagKept l = true)
      ⟨poolCreateRelative .single, fun _ => .none⟩
      (List.flatten [[.call () (.giroMaxUs 0)], List.replicate 23 (.worker 0 false),
        [.call () .submit], List.replicate 15 (.client () true),
        List.replicate 10 (.worker 0 false)])).map
        (fun g => (g.pool.workers 0).frames.length) = some 1 := by decide +kernel
  obtain ⟨g, hrun, hg⟩ := Option.map_eq_some_iff.mp hout
  have hr := System.ReachableWhen.exec (S := poolClaims .single) (.init rfl) hrun
  have hf : (g.pool.workers 0).frames ≠ [] := fun h => by
    rw [h] at hg
    cases hg
  exact ⟨g, hr, hf, poolWakeOneCore_claims_idle .single hr 0 hf⟩

/-- Worker 0 finds task 0 when it looks again after announcing that it sleeps. The submit of task 1
then claims it, and it runs task 0 all the same, while worker 1 stays asleep over task 1. -/
theorem poolWakeOneCore_claims_busy : ∃ g : PoolClaims Unit, (poolClaims .pair).Reachable g ∧
    (g.pool.workers 0).frames.map Frame.task = [0] ∧ g.debt 0 = .owed ∧
    (g.pool.workers 1).pc.asleep = true ∧ (g.pool.workers 1).signal = false ∧
    ((g.pool.rings 0).head, (g.pool.rings 0).tail) = (1, 2) ∧
    g.pool.returned = [(1, true), (0, true)] := by
  have hout : ((poolClaims .pair).exec ⟨poolCreateRelative .pair, fun _ => .none⟩
      (List.flatten [[.call () (.giroMaxUs 0)], List.replicate 18 (.worker 0 false),
        List.replicate 18 (.worker 1 false), [.call () .submit],
        List.replicate 10 (.client () true), List.replicate 6 (.worker 0 false),
        List.replicate 8 (.worker 1 false), [.call () .submit],
        List.replicate 15 (.client () true), List.replicate 2 (.worker 0 false)])).map
        (fun g => decide ((g.pool.workers 0).frames.map Frame.task = [0] ∧ g.debt 0 = .owed ∧
          (g.pool.workers 1).pc.asleep = true ∧ (g.pool.workers 1).signal = false ∧
          ((g.pool.rings 0).head, (g.pool.rings 0).tail) = (1, 2) ∧
          g.pool.returned = [(1, true), (0, true)])) = some true := by decide +kernel
  obtain ⟨g, hrun, hg⟩ := Option.map_eq_some_iff.mp hout
  exact ⟨g, .exec (.init rfl) hrun, of_decide_eq_true hg⟩

end Xplatbase.ThreadPool
