import Xplatbase.ThreadPool.PoolShutdown

/-! Stuck workers. The monitor counts a worker as stuck when it is in a task and `start_count` is
what it was at the monitor's previous read. `in_task` goes up before `start_count`, and the monitor
reads it after `start_count`, so a worker that has only just picked up a task can be counted. -/
namespace Xplatbase.ThreadPool
open Xplatbase.Lib

variable {ι : Type*} {d : PoolDims} {s s' : PoolState ι} {v w : ℕ}

def FramePc.inside : FramePc → Bool
  | .user | .stopTest _ | .inc _ | .place _ | .nested _ | .wake _ _ => true
  | .enter | .count | .leave | .ctrLoad | .ctrStore _ => false

/-- The worker is in the body of task `t`. -/
def PoolWorker.Inside (x : PoolWorker) (t : ℕ) : Prop :=
  ∃ f ∈ x.frames, f.task = t ∧ f.pc.inside = true

/-- The worker that the next step of the monitor counts as stuck. -/
def PoolState.counts (s : PoolState ι) : PoolLabel ι → Option ℕ
  | .monitor => match s.monitor with
    | .stuckTask i _ count =>
      if (s.workers i).inTask ≠ 0 ∧ count = (s.workers i).monLast then some i else none
    | _ => none
  | _ => none

/-- The pool with what the monitor cannot see. For each worker `since` lists the states from the
previous read of its `start_count` on, and `reading` those from the latest read on; `judged` keeps
the list of each worker that was counted as stuck. Newest first. -/
structure StuckWatch (ι : Type*) where
  pool : PoolState ι
  since : ℕ → List (PoolState ι)
  reading : List (PoolState ι)
  judged : List (ℕ × List (PoolState ι))

def extend (s : PoolState ι) : List (PoolState ι) → List (PoolState ι)
  | [] => []
  | h => s :: h

def stuckWatchStep [DecidableEq ι] (d : PoolDims) (x : StuckWatch ι) (l : PoolLabel ι) :
    Option (StuckWatch ι) :=
  (poolStep d x.pool l).map fun s' => {
    pool := s'
    since := fun w =>
      match l, x.pool.monitor with
      | .monitor, .stuckTask i _ _ => extend s' (if w = i then x.reading else x.since w)
      | _, _ => extend s' (x.since w)
    reading :=
      match l, x.pool.monitor with
      | .monitor, .stuckCount _ _ => [s', x.pool]
      | _, _ => extend s' x.reading
    judged :=
      match x.pool.counts l with
      | some i => (i, x.since i) :: x.judged
      | none => x.judged }

def stuckWatch [DecidableEq ι] (d : PoolDims) : System (StuckWatch ι) (PoolLabel ι) where
  init := fun x => x = ⟨poolCreateRelative d, fun _ => [], [], []⟩
  step := stuckWatchStep d

/-- In the states `h`, from the monitor's previous read on, worker `i` is in the body of one and
the same task, and it starts no other. -/
def StuckRight (i : ℕ) (h : List (PoolState ι)) : Prop :=
  h ≠ [] ∧ ∃ t count, ∀ s ∈ h, (s.workers i).Inside t ∧ (s.workers i).startCount = count

/-- When the monitor counts a worker as stuck, the worker has started nothing since the monitor
read its `start_count`, and it is in the body of a task: it is not just about to count one that
`in_task` counts already, nor about to take one off that has returned. -/
def CountSettled (x : StuckWatch ι) : PoolLabel ι → Prop
  | .monitor => match x.pool.monitor with
    | .stuckTask i _ count =>
      (x.pool.workers i).inTask ≠ 0 ∧ count = (x.pool.workers i).monLast →
        (x.pool.workers i).startCount = count ∧
          ((x.pool.workers i).frames.any fun f => f.pc.inside) = true
    | _ => True
  | _ => True

instance (x : StuckWatch ι) : (l : PoolLabel ι) → Decidable (CountSettled x l)
  | .monitor => by
    unfold CountSettled
    dsimp only
    split <;> infer_instance
  | .call _ _ | .client _ _ | .worker _ _ | .spawn _ | .finish _ | .lapse _ _ _
  | .monitorLapse _ => .isTrue trivial

/-! ### What a step does to the tasks of a worker -/

def PoolWorker.Steady (x x' : PoolWorker) : Prop :=
  x'.startCount = x.startCount + 1 ∨
    x'.startCount = x.startCount ∧ ∀ t, x'.Inside t → x.Inside t

theorem PoolWorker.Steady.of_eq {x x' : PoolWorker} (hc : x'.startCount = x.startCount)
    (hf : x'.frames = x.frames) : x.Steady x' := by
  refine .inr ⟨hc, fun t ht => ?_⟩
  unfold PoolWorker.Inside at ht
  rwa [hf] at ht

theorem PoolWorker.Nudged.steady {x x' : PoolWorker} (h : x.Nudged x') : x.Steady x' := by
  obtain ⟨_, _, _, _, -, -, -, rfl⟩ := h
  exact .of_eq rfl rfl

/-- The innermost task moves on, out of no body or within the one it is in. -/
theorem PoolWorker.Steady.top {x x' : PoolWorker} {t : ℕ} {p q : FramePc} {rest : List Frame}
    (hf : x.frames = ⟨t, p⟩ :: rest) (hf' : x'.frames = ⟨t, q⟩ :: rest)
    (hc : x'.startCount = x.startCount) (hq : q.inside = true → p.inside = true) :
    x.Steady x' := by
  refine .inr ⟨hc, ?_⟩
  rintro u ⟨f, hmem, hu, hin⟩
  rw [hf'] at hmem
  rcases List.mem_cons.mp hmem with rfl | hmem
  · exact ⟨⟨t, p⟩, by rw [hf]; exact List.mem_cons_self, hu, hq hin⟩
  · exact ⟨f, by rw [hf]; exact List.mem_cons_of_mem _ hmem, hu, hin⟩

/-- A worker outside its tasks gets into no body, and takes on at most one task. -/
theorem PoolWorker.Steady.loop {x x' : PoolWorker} (hc : x'.startCount = x.startCount)
    (hf : ∀ f ∈ x'.frames, f.pc.inside = false) : x.Steady x' := by
  refine .inr ⟨hc, ?_⟩
  rintro u ⟨f, hmem, -, hin⟩
  rw [hf f hmem] at hin
  cases hin

theorem poolTryGet_startCount (d : PoolDims) (s : PoolState ι) (w : ℕ) (b : Bool) (p : GetPc) :
    ((poolTryGet d s w b p).1.workers w).startCount = (s.workers w).startCount := by
  cases p with
  | start =>
    simp only [poolTryGet]
    split
    · rw [PoolState.setWorker_self]
    · split_ifs <;> first | rfl | rw [PoolState.setWorker_self]
  | popLoad => rfl
  | popSeq =>
    simp only [poolTryGet]
    split_ifs <;> rfl
  | popCas g pos n =>
    simp only [poolTryGet]
    split <;> first | rfl | rw [PoolState.setWorker_self]
  | steal k =>
    simp only [poolTryGet]
    split
    · rename_i hv
      rw [PoolState.setWorker_self, PoolState.setWorker_other _ (Ne.symm hv.1)]
    · rfl
  | lifo =>
    simp only [poolTryGet]
    split <;> first | rfl | rw [PoolState.setWorker_self]

theorem poolWorkerFn_steady {b : Bool} (hf : (s.workers w).frames = [])
    (hs : poolWorkerFn d s w b (s.workers w).pc = some s') :
    (s.workers w).Steady (s'.workers w) := by
  -- the worker keeps its tasks, none, or begins with the one that it has got
  have hpc : ∀ {s₁ : PoolState ι} {q : WorkerPc},
      (s₁.workers w).startCount = (s.workers w).startCount → (s₁.workers w).frames = [] →
      (s.workers w).Steady ((s₁.setPc w q).workers w) := by
    intro s₁ q hc hf₁
    rw [PoolState.setPc_self]
    exact .of_eq hc (hf₁.trans hf.symm)
  have hrun : ∀ {s₁ : PoolState ι} {t : ℕ},
      (s₁.workers w).startCount = (s.workers w).startCount →
      (s.workers w).Steady ((s₁.run w t).workers w) := by
    intro s₁ t hc
    rw [PoolState.run_self]
    refine .loop hc fun f hmem => ?_
    rw [List.mem_singleton.mp hmem]
    rfl
  cases hp : (s.workers w).pc <;> rw [hp] at hs <;>
    simp only [poolWorkerFn, Option.some.injEq, reduceCtorEq] at hs
  case get site p =>
    have hc := poolTryGet_startCount d s w b p
    split at hs <;> rename_i hg <;> rw [hg] at hc <;> subst hs
    · exact hpc hc ((poolTryGet_self hg).1.trans hf)
    · unfold PoolState.found
      have hf₁ := (poolTryGet_self hg).1.trans hf
      split
      · split_ifs
        · exact hpc hc hf₁
        · exact hrun hc
      · exact hpc hc hf₁
      · exact hrun hc
    · exact hpc hc ((poolTryGet_self hg).1.trans hf)
  case giraWake t p =>
    obtain ⟨_, _, _, _, -, -, -, hn⟩ := poolWakeSubmit_nudged d s p w
    split at hs <;> rename_i hw <;> rw [hw] at hn <;> subst hs
    · exact hpc (by rw [hn]) (by rw [hn]; exact hf)
    · exact hrun (by rw [hn])
  case giraFim sp t =>
    subst hs
    cases t <;> dsimp only <;> split_ifs <;> first | exact hpc rfl hf | exact hrun rfl
  case sleep =>
    split_ifs at hs
    cases hs
    exact hpc rfl hf
  all_goals subst hs
  case prepare | sleepClear | elasticPrepare =>
    apply hpc <;> rw [PoolState.setSignal_self]
    exact hf
  case announce | elasticPark =>
    apply hpc <;> rw [PoolState.setParked_self]
    exact hf
  case retract =>
    apply hrun
    rw [PoolState.setParked_self]
  case woken =>
    rw [PoolState.setWorker_self]
    exact .of_eq rfl rfl
  case elasticActive | elasticGiro =>
    split_ifs <;> first
      | (rw [PoolState.setWorker_self]; exact .of_eq rfl rfl)
      | exact hpc rfl hf
  all_goals (try split_ifs) <;> first | exact hpc rfl hf | exact hrun rfl

theorem poolRun_steady {t : ℕ} {p : FramePc} {rest : List Frame}
    (hf : (s.workers w).frames = ⟨t, p⟩ :: rest) (hs : poolRun d s w t rest p = some s') :
    (s.workers w).Steady (s'.workers w) := by
  have hset : ∀ {s₁ : PoolState ι} {q : FramePc},
      (s₁.workers w).startCount = (s.workers w).startCount → (q.inside = true → p.inside = true) →
      (s.workers w).Steady ((s₁.setFrames w (⟨t, q⟩ :: rest)).workers w) := by
    intro s₁ q hc hq
    rw [PoolState.setFrames, PoolState.setWorker_self]
    exact .top hf rfl hc hq
  cases p <;> simp only [poolRun, Option.some.injEq, reduceCtorEq] at hs
  case enter | leave =>
    subst hs
    rw [PoolState.setWorker_self]
    exact .top hf rfl rfl (fun h => by cases h)
  case count =>
    subst hs
    rw [PoolState.setWorker_self]
    exact .inl rfl
  case place u =>
    subst hs
    split
    · rw [PoolState.setWorker_self]
      exact .top hf rfl rfl fun _ => rfl
    · split_ifs <;> rw [PoolState.setWorker_self]
      · refine .inr ⟨rfl, ?_⟩
        rintro v ⟨f, hmem, hv, hin⟩
        rcases List.mem_cons.mp hmem with rfl | hmem
        · cases hin
        · rcases List.mem_cons.mp hmem with rfl | hmem
          · exact ⟨⟨t, .place u⟩, by rw [hf]; exact List.mem_cons_self, hv, rfl⟩
          · exact ⟨f, by rw [hf]; exact List.mem_cons_of_mem _ hmem, hv, hin⟩
      · exact .top hf rfl rfl fun _ => rfl
  case wake u q =>
    obtain ⟨_, _, _, _, -, -, -, hn⟩ := poolWakeSubmit_nudged d s q w
    have hc := congrArg PoolWorker.startCount hn
    split at hs <;> rename_i hw <;> rw [hw] at hc <;> subst hs <;> exact hset hc fun _ => rfl
  case ctrStore v =>
    subst hs
    split
    · rw [PoolState.setFrames, PoolState.setWorker_self]
      refine .inr ⟨rfl, ?_⟩
      rename_i t' u rest'
      rintro v ⟨f, hmem, hv, hin⟩
      rcases List.mem_cons.mp hmem with rfl | hmem
      · exact ⟨⟨t', .nested u⟩, by rw [hf]; simp, hv, rfl⟩
      · exact ⟨f, by rw [hf]; simp [hmem], hv, hin⟩
    · rw [PoolState.setWorker_self]
      apply PoolWorker.Steady.loop <;> unfold PoolDims.nextTurn <;> split_ifs <;>
        first | rfl | exact (by simp)
  case stopTest u =>
    subst hs
    split <;> exact hset rfl fun _ => rfl
  case inc u =>
    subst hs
    exact hset rfl fun _ => rfl
  case ctrLoad =>
    subst hs
    exact hset rfl (fun h => by cases h)

/-! ### The monitor's own word -/

theorem monLast_setWorker {x : PoolWorker} (h : x.monLast = (s.workers w).monLast) (v : ℕ) :
    ((s.setWorker w x).workers v).monLast = (s.workers v).monLast := by
  by_cases hv : v = w
  · subst hv
    rw [PoolState.setWorker_self, h]
  · rw [PoolState.setWorker_other _ hv]

theorem poolWakeSubmit_monLast (d : PoolDims) (s : PoolState ι) (p : WakePc) (v : ℕ) :
    ((poolWakeSubmit d s p).1.workers v).monLast = (s.workers v).monLast := by
  cases p with
  | claim start j =>
    simp only [poolWakeSubmit]
    split
    · exact monLast_setWorker (by rfl) v
    · rfl
  | signal idx => exact monLast_setWorker (by rfl) v
  | _ => rfl

theorem poolTryGet_monLast (d : PoolDims) (s : PoolState ι) (w : ℕ) (b : Bool) (p : GetPc) (v : ℕ) :
    ((poolTryGet d s w b p).1.workers v).monLast = (s.workers v).monLast := by
  cases p with
  | start =>
    simp only [poolTryGet]
    split
    · exact monLast_setWorker (by rfl) v
    · split_ifs <;> first | rfl | exact monLast_setWorker (by rfl) v
  | popLoad => rfl
  | popSeq =>
    simp only [poolTryGet]
    split_ifs <;> rfl
  | popCas g pos n =>
    simp only [poolTryGet]
    split
    · exact (monLast_setWorker (by rfl) v).trans rfl
    · rfl
  | steal k =>
    simp only [poolTryGet]
    split
    · exact (monLast_setWorker (by rfl) v).trans (monLast_setWorker (by rfl) v)
    · rfl
  | lifo =>
    simp only [poolTryGet]
    split
    · exact monLast_setWorker (by rfl) v
    · rfl

theorem poolWorkerFn_monLast {b : Bool} {p : WorkerPc} (hs : poolWorkerFn d s w b p = some s')
    (v : ℕ) : (s'.workers v).monLast = (s.workers v).monLast := by
  have hset : ∀ {s₁ : PoolState ι} {x : PoolWorker}, x.monLast = (s₁.workers w).monLast →
      (s₁.workers v).monLast = (s.workers v).monLast →
      ((s₁.setWorker w x).workers v).monLast = (s.workers v).monLast :=
    fun hx h => (monLast_setWorker hx v).trans h
  cases p <;> simp only [poolWorkerFn, Option.some.injEq, reduceCtorEq] at hs
  case get site p =>
    have hg := poolTryGet_monLast d s w b p v
    split at hs <;> rename_i hget <;> rw [hget] at hg <;> subst hs
    · exact hset rfl hg
    · unfold PoolState.found
      split
      · split_ifs <;> exact hset rfl hg
      · exact hset rfl hg
      · exact hset rfl hg
    · exact hset rfl hg
  case giraWake t p =>
    have hm := poolWakeSubmit_monLast d s p v
    split at hs <;> rename_i hw <;> rw [hw] at hm <;> subst hs <;> exact hset rfl hm
  case giraFim sp t =>
    subst hs
    cases t <;> dsimp only <;> split_ifs <;> exact hset rfl rfl
  case sleep =>
    split_ifs at hs
    cases hs
    exact hset rfl rfl
  all_goals subst hs
  case prepare | sleepClear | elasticPrepare | announce | elasticPark | retract =>
    exact hset rfl (hset rfl rfl)
  all_goals (try split_ifs) <;> exact hset rfl rfl

theorem poolRun_monLast {t : ℕ} {p : FramePc} {rest : List Frame}
    (hs : poolRun d s w t rest p = some s') (v : ℕ) :
    (s'.workers v).monLast = (s.workers v).monLast := by
  have hset : ∀ {s₁ : PoolState ι} {x : PoolWorker}, x.monLast = (s₁.workers w).monLast →
      (s₁.workers v).monLast = (s.workers v).monLast →
      ((s₁.setWorker w x).workers v).monLast = (s.workers v).monLast :=
    fun hx h => (monLast_setWorker hx v).trans h
  cases p <;> simp only [poolRun, Option.some.injEq, reduceCtorEq] at hs
  case wake u q =>
    have hm := poolWakeSubmit_monLast d s q v
    split at hs <;> rename_i hw <;> rw [hw] at hm <;> subst hs <;> exact hset rfl hm
  case place u =>
    subst hs
    split
    · exact hset rfl rfl
    · split_ifs <;> exact hset rfl rfl
  case stopTest =>
    subst hs
    split <;> exact hset rfl rfl
  case ctrStore =>
    subst hs
    split
    · exact hset rfl rfl
    · apply hset _ rfl
      unfold PoolDims.nextTurn
      split_ifs <;> rfl
  all_goals
    subst hs
    exact hset rfl rfl

/-! ### What the monitor knows of a worker -/

/-- Since the states `h` began, worker `w` has started a task, or it is in no body that it was
not in all along. -/
def Watched (s : PoolState ι) (w count : ℕ) (h : List (PoolState ι)) : Prop :=
  count ≤ (s.workers w).startCount ∧
    ((s.workers w).startCount = count → ∀ t, (s.workers w).Inside t → h ≠ [] ∧
      ∀ p ∈ h, (p.workers w).Inside t ∧ (p.workers w).startCount = count)

theorem mem_extend {p : PoolState ι} {h : List (PoolState ι)} (hp : p ∈ extend s h) :
    p = s ∨ p ∈ h := by
  cases h with
  | nil => cases hp
  | cons q h => exact List.mem_cons.mp hp

theorem extend_ne_nil {h : List (PoolState ι)} (hh : h ≠ []) : extend s h ≠ [] := by
  cases h with
  | nil => exact absurd rfl hh
  | cons q h => exact List.cons_ne_nil _ _

theorem Watched.next {count : ℕ} {h : List (PoolState ι)} (hk : Watched s w count h)
    (hst : (s.workers w).Steady (s'.workers w)) : Watched s' w count (extend s' h) := by
  rcases hst with hc | ⟨hc, hin⟩
  · refine ⟨?_, fun he => ?_⟩
    · have := hk.1
      omega
    · have := hk.1
      omega
  · refine ⟨hc ▸ hk.1, fun he t ht => ?_⟩
    obtain ⟨hne, hall⟩ := hk.2 (hc.symm.trans he) t (hin t ht)
    refine ⟨extend_ne_nil hne, fun p hp => ?_⟩
    rcases mem_extend hp with rfl | hp
    · exact ⟨ht, he⟩
    · exact hall p hp

structure StuckInv (x : StuckWatch ι) : Prop where
  since : ∀ w, Watched x.pool w (x.pool.workers w).monLast (x.since w)
  reading : ∀ i stuck count, x.pool.monitor = .stuckTask i stuck count →
    Watched x.pool i count x.reading
  judged : ∀ i h, (i, h) ∈ x.judged → StuckRight i h

section Client

variable [DecidableEq ι]

theorem poolClient_monLast {c : ι} {b : Bool} {p : ClientPc}
    (hs : poolClient d s c b p = some s') (v : ℕ) :
    (s'.workers v).monLast = (s.workers v).monLast := by
  cases p <;> simp only [poolClient, Option.some.injEq, reduceCtorEq] at hs
  case submit t p =>
    subst hs
    cases p <;> simp only [poolSubmitRelative] <;> (try split_ifs) <;> (try rfl)
    case wake q =>
      have hm := poolWakeSubmit_monLast d s q v
      split <;> rename_i hw <;> rw [hw] at hm <;> exact hm
  case joinMon | joinWorker =>
    split at hs
    · cases hs
      rfl
    · simp at hs
  case wakeWorker i | vigiaSignal n i =>
    subst hs
    exact monLast_setWorker (by rfl) v
  case vigiaClaim n i =>
    subst hs
    split_ifs
    · exact monLast_setWorker (by rfl) v
    all_goals rfl
  case perfilMon =>
    subst hs
    split_ifs <;> rfl
  all_goals
    subst hs
    rfl

/-- Only the monitor writes `mon_last`, and only after it has read `in_task`. -/
theorem poolStep_monLast {l : PoolLabel ι} (hs : poolStep d s l = some s')
    (hl : ∀ i stuck count, l = .monitor → s.monitor ≠ .stuckTask i stuck count) (v : ℕ) :
    (s'.workers v).monLast = (s.workers v).monLast := by
  cases l with
  | call c k =>
    simp only [poolStep] at hs
    split at hs <;> simp only [Option.some.injEq, reduceCtorEq] at hs
    subst hs
    cases k <;> rfl
  | client c b => exact poolClient_monLast hs v
  | worker w b =>
    simp only [poolStep] at hs
    split_ifs at hs
    split at hs
    · exact poolWorkerFn_monLast hs v
    · exact poolRun_monLast hs v
  | spawn w | finish w | lapse w clear woken =>
    simp only [poolStep] at hs
    split at hs <;> simp only [Option.some.injEq, reduceCtorEq] at hs
    subst hs
    exact monLast_setWorker (by rfl) v
  | monitor =>
    have hs : poolMonitorFn d s s.monitor = some s' := hs
    cases hm : s.monitor <;> rw [hm] at hs <;>
      simp only [poolMonitorFn, Option.some.injEq, reduceCtorEq] at hs
    case sleep =>
      split_ifs at hs
      cases hs
      rfl
    case stuckTask i stuck count => exact absurd hm (hl i stuck count rfl)
    case claim e toWake =>
      subst hs
      split_ifs
      · exact monLast_setWorker (by rfl) v
      · rfl
    case signal e toWake =>
      subst hs
      exact monLast_setWorker (by rfl) v
    all_goals
      subst hs
      rfl
  | monitorLapse clear =>
    simp only [poolStep] at hs
    split at hs <;> simp only [Option.some.injEq, reduceCtorEq] at hs
    subst hs
    rfl

theorem poolStep_steady {l : PoolLabel ι} (hs : poolStep d s l = some s')
    (w : ℕ) : (s.workers w).Steady (s'.workers w) := by
  by_cases hm : l.mover = some w
  · cases l with
    | worker v b =>
      obtain rfl : v = w := Option.some.inj hm
      simp only [poolStep] at hs
      split_ifs at hs
      split at hs
      · exact poolWorkerFn_steady ‹_› hs
      · exact poolRun_steady ‹_› hs
    | spawn v | finish v =>
      obtain rfl : v = w := Option.some.inj hm
      simp only [poolStep] at hs
      split at hs <;> simp only [Option.some.injEq, reduceCtorEq] at hs
      rename_i hf
      subst hs
      rw [PoolState.setFrames, PoolState.setWorker_self]
      exact .top hf rfl rfl fun _ => rfl
    | lapse v clear woken =>
      obtain rfl : v = w := Option.some.inj hm
      simp only [poolStep] at hs
      split at hs <;> simp only [Option.some.injEq, reduceCtorEq] at hs
      subst hs
      rw [PoolState.setPc_self]
      exact .of_eq rfl rfl
    | _ => cases hm
  · exact (poolStep_nudged hs hm).steady

theorem poolStep_stuckTask {l : PoolLabel ι} (hs : poolStep d s l = some s') {i stuck count : ℕ}
    (hm : s'.monitor = .stuckTask i stuck count) :
    (l = .monitor ∧ (∃ k, s.monitor = .stuckCount i k) ∧ s'.workers = s.workers ∧
        count = (s.workers i).startCount) ∨
      l ≠ .monitor ∧ s.monitor = .stuckTask i stuck count := by
  cases l with
  | call c k =>
    simp only [poolStep] at hs
    split at hs <;> simp only [Option.some.injEq, reduceCtorEq] at hs
    subst hs
    refine .inr ⟨(fun h => by cases h), ?_⟩
    cases k <;> exact hm
  | client c b =>
    rw [(poolClient_words hs).2.2] at hm
    exact .inr ⟨(fun h => by cases h), hm⟩
  | worker w b =>
    rw [(poolStep_monKept rfl hs).monitor] at hm
    exact .inr ⟨(fun h => by cases h), hm⟩
  | spawn w | finish w | lapse w clear woken =>
    rw [(poolStep_monKept rfl hs).monitor] at hm
    exact .inr ⟨(fun h => by cases h), hm⟩
  | monitor =>
    have hs : poolMonitorFn d s s.monitor = some s' := hs
    refine .inl ⟨rfl, ?_⟩
    cases hp : s.monitor <;> rw [hp] at hs <;>
      simp only [poolMonitorFn, Option.some.injEq, reduceCtorEq] at hs
    case stuckCount j k =>
      subst hs
      dsimp only at hm
      split_ifs at hm
      obtain ⟨rfl, rfl, rfl⟩ := MonitorPc.stuckTask.inj hm
      exact ⟨⟨_, rfl⟩, rfl, rfl⟩
    case sleep =>
      split_ifs at hs
      cases hs
      cases hm
    case pending | pendingAgain =>
      subst hs
      dsimp only at hm
      split at hm
      · cases hm
      · split_ifs at hm
    case claim =>
      subst hs
      split_ifs at hm
    case elastic =>
      subst hs
      dsimp only at hm
      split_ifs at hm
    all_goals
      subst hs
      (try dsimp only at hm)
      first | cases hm | split_ifs at hm
  | monitorLapse clear =>
    simp only [poolStep] at hs
    split at hs <;> simp only [Option.some.injEq, reduceCtorEq] at hs
    subst hs
    dsimp only at hm
    split_ifs at hm

variable {x x' : StuckWatch ι}

theorem StuckInv.step (h : StuckInv x) {l : PoolLabel ι} (hok : CountSettled x l)
    (hs : stuckWatchStep d x l = some x') : StuckInv x' := by
  obtain ⟨s', hstep, rfl⟩ := Option.map_eq_some_iff.mp hs
  have hsteady := poolStep_steady hstep
  constructor
  · intro w
    dsimp only
    split
    · rename_i i stuck count hm
      have hstep : poolMonitorFn d x.pool x.pool.monitor = some s' := hstep
      have hread := (h.reading i stuck count hm).next (hsteady i)
      rw [hm] at hstep
      simp only [poolMonitorFn, Option.some.injEq] at hstep
      by_cases hw : w = i
      · rw [if_pos hw, hw]
        have hlast : (s'.workers i).monLast = count := by
          subst hstep
          exact congrArg PoolWorker.monLast (PoolState.setWorker_self ..)
        rw [hlast]
        exact hread
      · rw [if_neg hw]
        have hlast : (s'.workers w).monLast = (x.pool.workers w).monLast := by
          subst hstep
          exact congrArg PoolWorker.monLast (PoolState.setWorker_other _ hw _)
        rw [hlast]
        exact (h.since w).next (hsteady w)
    · rename_i hnot
      rw [poolStep_monLast hstep (fun i stuck count hl hm => hnot i stuck count hl hm) w]
      exact (h.since w).next (hsteady w)
  · intro i stuck count hm
    rcases poolStep_stuckTask hstep hm with ⟨rfl, ⟨k, hk⟩, hworkers, rfl⟩ | ⟨hl, hk⟩
    · dsimp only
      rw [hk]
      -- the read itself changes nothing
      refine ⟨le_of_eq (by rw [hworkers]), fun _ t ht => ⟨List.cons_ne_nil _ _, ?_⟩⟩
      rw [hworkers] at ht
      intro p hp
      rcases List.mem_cons.mp hp with rfl | hp
      · rw [hworkers]
        exact ⟨ht, rfl⟩
      · rw [List.mem_singleton.mp hp]
        exact ⟨ht, rfl⟩
    · dsimp only
      split
      · exact absurd rfl hl
      · exact (h.reading i stuck count hk).next (hsteady i)
  · intro i hist hj
    dsimp only at hj
    split at hj
    · rename_i j hcounts
      rcases List.mem_cons.mp hj with he | hj
      · obtain ⟨rfl, rfl⟩ := Prod.mk.inj he
        cases l <;> try cases hcounts
        unfold PoolState.counts at hcounts
        unfold CountSettled at hok
        dsimp only at hcounts hok
        split at hcounts
        · rename_i i' stuck count hm
          split_ifs at hcounts with hst
          obtain rfl := Option.some.inj hcounts
          rw [hm] at hok
          obtain ⟨hc, hany⟩ := hok hst
          obtain ⟨f, hmem, hin⟩ := List.any_eq_true.mp hany
          obtain ⟨hne, hall⟩ := (h.since i').2 (hc.trans hst.2) f.task ⟨f, hmem, rfl, hin⟩
          exact ⟨hne, f.task, _, hall⟩
        · cases hcounts
      · exact h.judged i hist hj
    · exact h.judged i hist hj

/-- Each worker that the monitor counts as stuck, settled as it looks, has been in the body of the
same task since before the monitor's previous read of its `start_count`, and has started no task
since. -/
theorem poolMonitor_stuck_right (d : PoolDims)
    (hr : (stuckWatch (ι := ι) d).ReachableWhen CountSettled x) {i : ℕ}
    {h : List (PoolState ι)} (hj : (i, h) ∈ x.judged) : StuckRight i h := by
  have hinv := hr.invariant (P := StuckInv)
    (fun x₀ hi => by
      obtain rfl : x₀ = ⟨poolCreateRelative d, fun _ => [], [], []⟩ := hi
      refine ⟨fun w => ⟨Nat.zero_le _, ?_⟩, nofun, nofun⟩
      rintro - t ⟨f, hf, -⟩
      cases hf)
    (fun x₀ l x₁ h hl hs => h.step hl hs)
  exact hinv.judged i h hj

end Client

/-- One turn of the monitor, from its test of `stop` to the next. -/
def monitorTurn : List (PoolLabel Unit) :=
  [.monitor, .monitor, .monitorLapse false] ++ List.replicate 5 .monitor

/-- A worker in a long task is counted at the second turn of the monitor. -/
theorem poolMonitor_stuck_right_long : ∃ x : StuckWatch Unit,
    (stuckWatch .single).ReachableWhen CountSettled x ∧
      ∃ h, (0, h) ∈ x.judged ∧ StuckRight 0 h := by
  have hout : ((stuckWatch .single).execWhen CountSettled
      ⟨poolCreateRelative .single, fun _ => [], [], []⟩
      (List.flatten [[.call () .submit], List.replicate 10 (.client () true),
        List.replicate 8 (.worker 0 false), .monitor :: monitorTurn, monitorTurn])).map
        (fun x => x.judged.map Prod.fst) = some [0] := by decide +kernel
  obtain ⟨x, hrun, hj⟩ := Option.map_eq_some_iff.mp hout
  have hr : (stuckWatch .single).ReachableWhen CountSettled x := .exec (.init rfl) hrun
  obtain ⟨⟨i, h⟩, hmem, hi⟩ : ∃ e ∈ x.judged, e.1 = 0 := by
    rw [← List.mem_map, hj]
    exact List.mem_singleton.mpr rfl
  obtain rfl : i = 0 := hi
  exact ⟨x, hr, h, hmem, poolMonitor_stuck_right .single hr hmem⟩

/-- A worker that was idle at the monitor's previous read is counted as stuck, because it has added
a task to `in_task` and not yet to `start_count`. -/
theorem poolMonitor_stuck_wrong : ∃ x : StuckWatch Unit, (stuckWatch .single).Reachable x ∧
    ∃ h, (0, h) ∈ x.judged ∧ ¬StuckRight 0 h := by
  have hout : ((stuckWatch .single).exec ⟨poolCreateRelative .single, fun _ => [], [], []⟩
      (List.flatten [.monitor :: monitorTurn, [.call () .submit],
        List.replicate 10 (.client () true), List.replicate 7 (.worker 0 false), monitorTurn])).map
        (fun x => x.judged.map fun e => (e.1, e.2.any fun s => (s.workers 0).frames.isEmpty)) =
      some [(0, true)] := by decide +kernel
  obtain ⟨x, hrun, hj⟩ := Option.map_eq_some_iff.mp hout
  obtain ⟨⟨i, h⟩, hmem, he⟩ : ∃ e ∈ x.judged,
      (e.1, e.2.any fun s => (s.workers 0).frames.isEmpty) = (0, true) := by
    rw [← List.mem_map, hj]
    exact List.mem_singleton.mpr rfl
  obtain ⟨hi, hany⟩ := Prod.mk.inj he
  obtain rfl : i = 0 := hi
  refine ⟨x, .exec (.init rfl) hrun, h, hmem, ?_⟩
  rintro ⟨-, t, count, hall⟩
  obtain ⟨s, hs, hidle⟩ := List.any_eq_true.mp hany
  obtain ⟨⟨f, hf, -⟩, -⟩ := hall s hs
  rw [List.isEmpty_iff.mp hidle] at hf
  cases hf

end Xplatbase.ThreadPool
