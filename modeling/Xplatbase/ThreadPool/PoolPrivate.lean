import Xplatbase.ThreadPool.PoolSleep

/-! A sleeping worker holds no private work. Nobody else can run what is in a worker's LIFO slot
or batch buffer, so each way to a sleep leads through a `pool_try_get` that found nothing, and no
task runs between that look and the sleep. -/
namespace Xplatbase.ThreadPool
open Xplatbase.Lib

variable {ι : Type*} {d : PoolDims} {s s' : PoolState ι} {w : ℕ}

/-- Looking for a task: the batch buffer may be used up before the LIFO slot is. -/
def WorkerPc.looking : WorkerPc → Bool
  | .get _ _ => true
  | _ => false

/-- Away from its loop head and its tasks, a worker has used up its batch buffer, and outside
`pool_try_get` its LIFO slot is empty too. -/
structure PoolWorker.Spent (x : PoolWorker) : Prop where
  batch : x.pendI ≤ x.pendN
  used : x.frames = [] → x.pc.busy = false → x.pendN ≤ x.pendI
  lifo : x.frames = [] → x.pc.busy = false → x.pc.looking = false → x.lifo = none

theorem PoolWorker.Nudged.spent {x x' : PoolWorker} (hn : x.Nudged x') (h : x.Spent) :
    x'.Spent := by
  obtain ⟨_, _, _, _, -, -, -, rfl⟩ := hn
  exact ⟨h.batch, h.used, h.lifo⟩

theorem spent_busy {x : PoolWorker} (hb : x.pendI ≤ x.pendN) (hbusy : x.pc.busy = true) :
    x.Spent := by
  constructor
  · exact hb
  · intro _ h
    rw [hbusy] at h
    cases h
  · intro _ h
    rw [hbusy] at h
    cases h

theorem spent_found {s₁ : PoolState ι} {t : ℕ} {site : GetSite}
    (hb : (s₁.workers w).pendI ≤ (s₁.workers w).pendN) :
    ((s₁.found w t site).workers w).Spent := by
  unfold PoolState.found
  split
  · split_ifs
    · rw [PoolState.setPc_self]
      exact spent_busy hb rfl
    · rw [PoolState.run_self]
      exact spent_busy hb rfl
  · rw [PoolState.setPc_self]
    exact spent_busy hb rfl
  · rw [PoolState.run_self]
    exact spent_busy hb rfl

theorem poolTryGet_batch {b : Bool} {p : GetPc} {r : GetNext}
    (hok : p.Ok d s.rings (s.workers w)) (hb : (s.workers w).pendI ≤ (s.workers w).pendN)
    (hg : poolTryGet d s w b p = (s', r)) : (s'.workers w).pendI ≤ (s'.workers w).pendN := by
  have hs : s' = (poolTryGet d s w b p).1 := by rw [hg]
  subst hs
  cases p with
  | start =>
    simp only [poolTryGet]
    split
    · rw [PoolState.setWorker_self]
      exact hb
    · split_ifs with hd hpend
      · rw [PoolState.setWorker_self]
        exact hb
      · rw [PoolState.setWorker_self]
        exact hpend
      · exact hb
  | popLoad => exact hb
  | popSeq =>
    simp only [poolTryGet]
    split_ifs <;> exact hb
  | popCas g pos n =>
    simp only [poolTryGet]
    split
    · rw [PoolState.setWorker_self]
      exact hok.2.1
    · exact hb
  | steal k =>
    simp only [poolTryGet]
    split
    · rename_i hv
      rw [PoolState.setWorker_self, PoolState.setWorker_other _ (Ne.symm hv.1)]
      exact hb
    · exact hb
  | lifo =>
    simp only [poolTryGet]
    split
    · rw [PoolState.setWorker_self]
      exact hb
    · exact hb

/-- A `pool_try_get` that finds nothing leaves the batch buffer used up and the LIFO slot
empty. -/
theorem poolTryGet_spent {b : Bool} {p : GetPc} (hok : p.Ok d s.rings (s.workers w))
    (hg : poolTryGet d s w b p = (s', .nothing)) :
    (s.workers w).pendN ≤ (s.workers w).pendI ∧ (s.workers w).lifo = none := by
  obtain rfl := poolTryGet_lifo hg
  refine ⟨hok, ?_⟩
  simp only [poolTryGet] at hg
  split at hg
  · simp at hg
  · assumption

theorem poolWorkerFn_spent {b : Bool} (hwf : PoolWf d s) (hstop : s.stop = false)
    (hf : (s.workers w).frames = []) (h : (s.workers w).Spent)
    (hs : poolWorkerFn d s w b (s.workers w).pc = some s') : (s'.workers w).Spent := by
  have hok := hwf.pc_ok hf
  have hb := h.batch
  have hbusy : ∀ {s₁ : PoolState ι} {x : PoolWorker}, x.pendI = (s.workers w).pendI →
      x.pendN = (s.workers w).pendN → x.pc.busy = true →
      ((s₁.setWorker w x).workers w).Spent := by
    intro s₁ x hi hn hx
    rw [PoolState.setWorker_self]
    apply spent_busy _ hx
    rwa [hi, hn]
  -- a step from one place away from the loop head to another
  have hidle : ∀ {s₁ : PoolState ι} {x : PoolWorker}, (s.workers w).pc.busy = false →
      (s.workers w).pc.looking = false → x.pendI = (s.workers w).pendI →
      x.pendN = (s.workers w).pendN → x.lifo = (s.workers w).lifo →
      ((s₁.setWorker w x).workers w).Spent := by
    intro s₁ x hp hl hi hn hx
    rw [PoolState.setWorker_self]
    constructor
    · rwa [hi, hn]
    · intro _ _
      rw [hi, hn]
      exact h.used hf hp
    · intro _ _ _
      rw [hx]
      exact h.lifo hf hp hl
  cases hpc : (s.workers w).pc <;> rw [hpc] at hs hok hidle <;>
    simp only [poolWorkerFn, Option.some.injEq, reduceCtorEq] at hs
  case get site p =>
    have hb' := fun {s₁ r} (hg : poolTryGet d s w b p = (s₁, r)) => poolTryGet_batch hok hb hg
    split at hs
    · rename_i q hg
      subst hs
      obtain ⟨rfl, hok'⟩ := poolTryGet_go hwf hok hg
      rw [PoolState.setPc_self]
      constructor
      · exact hb
      · intro _ hp
        cases q with
        | start => cases hp
        | popLoad | steal | lifo => exact hok'
        | popSeq | popCas => exact hok'.1
      · intro _ _ hl
        cases hl
    · rename_i hg
      subst hs
      exact spent_found (hb' hg)
    · rename_i hg
      subst hs
      obtain ⟨hused, hlifo⟩ := poolTryGet_spent hok hg
      obtain rfl := poolTryGet_nothing hg
      rw [PoolState.setPc_self]
      exact ⟨hb, fun _ _ => hused, fun _ _ _ => hlifo⟩
  case giraFim sp t =>
    subst hs
    cases t <;> dsimp only <;> split_ifs
    · exact hidle rfl rfl rfl rfl rfl
    · exact hidle rfl rfl rfl rfl rfl
    · exact hbusy rfl rfl rfl
    · exact hbusy rfl rfl rfl
  case giraWake t p =>
    have hn := (poolWakeSubmit_nudged d s p w).spent h
    split at hs <;> rename_i hg <;> rw [hg] at hn <;> subst hs
    · rw [PoolState.setPc_self]
      exact spent_busy hn.batch rfl
    · rw [PoolState.run_self]
      exact spent_busy hn.batch rfl
  case sleep =>
    split_ifs at hs
    cases hs
    exact hidle rfl rfl rfl rfl rfl
  all_goals subst hs
  case stopTest | elasticLoop =>
    rw [if_neg (by simp [hstop])]
    exact hbusy rfl rfl rfl
  case giraFila | giraHead | retractCount =>
    (try split_ifs) <;> exact hbusy rfl rfl rfl
  case retract =>
    rw [PoolState.run_self, PoolState.setParked_self]
    exact spent_busy hb rfl
  case prepare | sleepClear | elasticPrepare =>
    apply hidle <;> simp [WorkerPc.busy, WorkerPc.looking]
  case announce | elasticPark =>
    apply hidle <;> simp [WorkerPc.busy, WorkerPc.looking]
  all_goals (try split_ifs) <;> exact hidle rfl rfl rfl rfl rfl

theorem poolRun_batch {t : ℕ} {p : FramePc} {rest : List Frame}
    (hs : poolRun d s w t rest p = some s') :
    (s'.workers w).pendI = (s.workers w).pendI ∧ (s'.workers w).pendN = (s.workers w).pendN := by
  cases p <;> simp only [poolRun, Option.some.injEq, reduceCtorEq] at hs
  case place u =>
    subst hs
    split
    · rw [PoolState.setWorker_self]
      exact ⟨rfl, rfl⟩
    · split_ifs <;> rw [PoolState.setWorker_self] <;> exact ⟨rfl, rfl⟩
  case wake u q =>
    obtain ⟨_, _, _, _, -, -, -, hn⟩ := poolWakeSubmit_nudged d s q w
    split at hs <;> rename_i hw <;> rw [hw] at hn <;> subst hs <;>
      rw [PoolState.setFrames, PoolState.setWorker_self] <;> dsimp only [PoolState.answer] at hn ⊢ <;>
      rw [hn] <;> exact ⟨rfl, rfl⟩
  case ctrStore v =>
    subst hs
    split
    · rw [PoolState.setFrames, PoolState.setWorker_self]
      exact ⟨rfl, rfl⟩
    · rw [PoolState.setWorker_self]
      unfold PoolDims.nextTurn
      split_ifs <;> exact ⟨rfl, rfl⟩
  case stopTest =>
    subst hs
    split <;> rw [PoolState.setFrames, PoolState.setWorker_self] <;> exact ⟨rfl, rfl⟩
  all_goals
    subst hs
    first | rw [PoolState.setWorker_self] | rw [PoolState.setFrames, PoolState.setWorker_self]
    exact ⟨rfl, rfl⟩

theorem poolRun_spent {t : ℕ} {p : FramePc} {rest : List Frame} (hpc : (s.workers w).pc = .run)
    (hb : (s.workers w).pendI ≤ (s.workers w).pendN)
    (hs : poolRun d s w t rest p = some s') : (s'.workers w).Spent := by
  obtain ⟨hi, hn⟩ := poolRun_batch hs
  obtain ⟨-, -, hpc'⟩ := poolRun_words hs
  apply spent_busy
  · rwa [hi, hn]
  · rcases hpc' with hpc' | ⟨hpc', -⟩ | ⟨hpc', -⟩ <;> rw [hpc']
    · rw [hpc]
      rfl
    · rfl
    · rfl

variable [DecidableEq ι]

theorem poolStep_spent (h : s.stop = false → ∀ w, (s.workers w).Spent) (hwf : PoolWf d s)
    {l : PoolLabel ι} (hs : poolStep d s l = some s') :
    s'.stop = false → ∀ w, (s'.workers w).Spent := by
  intro hstop' w
  have hstop := poolStep_stop hs hstop'
  have hw := h hstop w
  by_cases hm : l.mover = some w
  · cases l with
    | worker v b =>
      obtain rfl : v = w := Option.some.inj hm
      simp only [poolStep] at hs
      split_ifs at hs
      split at hs
      · exact poolWorkerFn_spent hwf hstop ‹_› hw hs
      · exact poolRun_spent (hwf.frames_ok ‹_›).1 hw.batch hs
    | spawn v | finish v =>
      obtain rfl : v = w := Option.some.inj hm
      simp only [poolStep] at hs
      split at hs <;> simp only [Option.some.injEq, reduceCtorEq] at hs
      subst hs
      rw [PoolState.setFrames, PoolState.setWorker_self]
      exact ⟨hw.batch, (fun h => by cases h), (fun h => by cases h)⟩
    | lapse v clear woken =>
      obtain rfl : v = w := Option.some.inj hm
      simp only [poolStep] at hs
      split at hs <;> simp only [Option.some.injEq, reduceCtorEq] at hs
      rename_i hpc
      subst hs
      rw [PoolState.setPc_self]
      constructor
      · exact hw.batch
      · intro hf _
        exact hw.used hf (by rw [hpc]; rfl)
      · intro hf _ _
        exact hw.lifo hf (by rw [hpc]; rfl) (by rw [hpc]; rfl)
    | _ => cases hm
  · exact (poolStep_nudged hs hm).spent hw

theorem poolSystem_spent (hr : (poolSystem d).Reachable s) (hstop : s.stop = false) (w : ℕ) :
    (s.workers w).Spent := by
  refine (System.Reachable.invariant (P := fun s : PoolState ι =>
    PoolWf d s ∧ (s.stop = false → ∀ w, (s.workers w).Spent)) (fun s₀ hi => ?_)
    (fun s₀ l s₁ h hs => ?_) hr).2 hstop w
  · obtain rfl : s₀ = poolCreateRelative d := hi
    exact ⟨poolCreateRelative_wf d, fun _ w => ⟨le_rfl, fun _ _ => le_rfl, fun _ _ _ => rfl⟩⟩
  · exact ⟨poolStep_wf h.1 hs, poolStep_spent h.2 h.1 hs⟩

def WorkerPc.dozes : WorkerPc → Option Bool
  | .sleep eco => some eco
  | _ => none

theorem WorkerPc.eq_sleep {p : WorkerPc} {eco : Bool} (h : p.dozes = some eco) :
    p = .sleep eco := by
  cases p <;> simp only [WorkerPc.dozes, Option.some.injEq, reduceCtorEq] at h
  rw [h]

/-- A worker that sleeps has an empty LIFO slot, an exhausted batch buffer and an empty deque. -/
theorem sleeping_worker_empty (d : PoolDims) (hr : (poolSystem d).Reachable s)
    (hstop : s.stop = false) {eco : Bool} (hpc : (s.workers w).pc = .sleep eco) :
    (s.workers w).lifo = none ∧ (s.workers w).pendI = (s.workers w).pendN ∧
      (s.workers w).deque.top = (s.workers w).deque.bottom := by
  have hinv := poolSystem_sleep hr
  have hspent := poolSystem_spent hr hstop w
  have hf := hinv.wf.frames_of_pc (w := w) (by rw [hpc]; nofun)
  have hbusy : (s.workers w).pc.busy = false := by rw [hpc]; rfl
  refine ⟨hspent.lifo hf hbusy (by rw [hpc]; rfl), ?_, ?_⟩
  · exact le_antisymm hspent.batch (hspent.used hf hbusy)
  · apply le_antisymm (hinv.wf.worker w).1
    by_contra hlt
    rcases hinv.busy hstop w (not_le.mp hlt) with h | h
    · exact h hf
    · rw [hbusy] at h
      cases h

/-- A task leaves three others to its worker, one in the LIFO slot and two in the deque; the
worker runs them all before it sleeps. -/
theorem sleeping_worker_empty_spawns : ∃ s : PoolState Unit, (poolSystem .single).Reachable s ∧
    s.stop = false ∧ s.finished.length = 4 ∧ (s.workers 0).pc = .sleep false ∧
    (s.workers 0).lifo = none ∧ (s.workers 0).pendI = (s.workers 0).pendN ∧
      (s.workers 0).deque.top = (s.workers 0).deque.bottom := by
  have hout : ((poolSystem .single).exec (poolCreateRelative .single)
      (List.flatten [[.call () (.giroMaxUs 0), .call () .submit],
        List.replicate 10 (.client () true), List.replicate 8 (.worker 0 false),
        .spawn 0 :: List.replicate 3 (.worker 0 false),
        .spawn 0 :: List.replicate 5 (.worker 0 false),
        .spawn 0 :: List.replicate 5 (.worker 0 false),
        .finish 0 :: List.replicate 7 (.worker 0 false),
        .finish 0 :: List.replicate 7 (.worker 0 false),
        .finish 0 :: List.replicate 7 (.worker 0 false),
        .finish 0 :: List.replicate 26 (.worker 0 false)])).map
        (fun s => (s.stop, s.finished, (s.workers 0).pc.dozes)) =
      some (false, [1, 2, 3, 0], some false) := by decide +kernel
  obtain ⟨s, hrun, hs⟩ := Option.map_eq_some_iff.mp hout
  simp only [Prod.mk.injEq] at hs
  obtain ⟨hstop, hfin, hpc⟩ := hs
  have hr : (poolSystem .single).Reachable s := System.Reachable.exec (.init rfl) hrun
  have hsleep : (s.workers 0).pc = .sleep false := WorkerPc.eq_sleep hpc
  exact ⟨s, hr, hstop, by rw [hfin]; rfl, hsleep, sleeping_worker_empty .single hr hstop hsleep⟩

end Xplatbase.ThreadPool
