import Xplatbase.ThreadPool.PoolIdle

/-! A ledger of the pending counters: which task each increment and each decrement was for. The
sum of the counters is the number of tasks raised once more than they were lowered. -/
namespace Xplatbase.ThreadPool
open Xplatbase.Lib

variable {ι : Type*} {d : PoolDims} {s s' : PoolState ι} {l : PoolLabel ι} {t : ℕ}

/-- The task for which a step raises a counter: a submit counts it. -/
def PoolState.raises (s : PoolState ι) : PoolLabel ι → Option ℕ
  | .client c _ =>
    match s.clients c with
    | .submit t (.inc _) => some t
    | _ => none
  | .worker w _ =>
    match (s.workers w).frames with
    | ⟨_, .inc u⟩ :: _ => some u
    | _ => none
  | _ => none

/-- The task for which a step lowers a counter: the ring was full, or the task is over. -/
def PoolState.lowers (s : PoolState ι) : PoolLabel ι → Option ℕ
  | .client c _ =>
    match s.clients c with
    | .submit t (.undo _) => some t
    | _ => none
  | .worker w _ =>
    match (s.workers w).frames with
    | ⟨t, .ctrStore _⟩ :: _ => some t
    | _ => none
  | _ => none

structure PoolLedger (ι : Type*) where
  pool : PoolState ι
  raised : List ℕ
  lowered : List ℕ

def poolLedgerStep [DecidableEq ι] (d : PoolDims) (g : PoolLedger ι) (l : PoolLabel ι) :
    Option (PoolLedger ι) :=
  (poolStep d g.pool l).map fun s' =>
    ⟨s', (g.pool.raises l).toList ++ g.raised, (g.pool.lowers l).toList ++ g.lowered⟩

def poolLedger [DecidableEq ι] (d : PoolDims) : System (PoolLedger ι) (PoolLabel ι) where
  init := fun g => g = ⟨poolCreateRelative d, [], []⟩
  step := poolLedgerStep d

/-! ### Which steps touch a counter -/

theorem poolClient_ctrs [DecidableEq ι] {c : ι} {b : Bool}
    (hs : poolClient d s c b (s.clients c) = some s') (hr : s.raises (.client c b) = none)
    (hl : s.lowers (.client c b) = none) :
    s'.ctrs = s.ctrs := by
  cases hc : s.clients c <;> rw [hc] at hs <;>
    simp only [poolClient, Option.some.injEq, reduceCtorEq] at hs
  case submit t p =>
    subst hs
    cases p <;> simp only [PoolState.raises, PoolState.lowers, hc, reduceCtorEq] at hr hl <;>
      simp only [poolSubmitRelative]
    case wake q =>
      have hq := (poolWakeSubmit_loop d s q).ctrs
      split <;> rename_i hw <;> rw [hw] at hq <;> exact hq
    all_goals first | rfl | (split_ifs <;> rfl)
  case joinMon | joinWorker =>
    split at hs <;> simp only [Option.some.injEq, reduceCtorEq] at hs
    subst hs
    rfl
  all_goals
    subst hs
    first | rfl | (split_ifs <;> rfl)

theorem poolRun_ctrs {w u : ℕ} {b : Bool} {rest : List Frame} {p : FramePc}
    (hf : (s.workers w).frames = ⟨u, p⟩ :: rest) (hs : poolRun d s w u rest p = some s')
    (hr : s.raises (.worker w b) = none) (hl : s.lowers (.worker w b) = none) :
    s'.ctrs = s.ctrs := by
  cases p <;> simp only [PoolState.raises, PoolState.lowers, hf, reduceCtorEq] at hr hl <;>
    simp only [poolRun, Option.some.injEq, reduceCtorEq] at hs
  case place v =>
    subst hs
    split
    · rfl
    · split_ifs <;> rfl
  case wake v q =>
    have hq := (poolWakeSubmit_loop d s q).ctrs
    split at hs <;> rename_i hw <;> rw [hw] at hq <;> subst hs <;> exact hq
  case stopTest v =>
    subst hs
    split_ifs <;> rfl
  all_goals
    subst hs
    rfl

theorem poolStep_ctrs [DecidableEq ι] (hs : poolStep d s l = some s') (hr : s.raises l = none)
    (hl : s.lowers l = none) :
    s'.ctrs = s.ctrs := by
  cases l with
  | call c k =>
    simp only [poolStep] at hs
    split at hs <;> simp only [Option.some.injEq, reduceCtorEq] at hs
    subst hs
    cases k <;> rfl
  | client c b => exact poolClient_ctrs hs hr hl
  | worker w b =>
    simp only [poolStep] at hs
    split_ifs at hs
    split at hs
    · exact (poolWorkerFn_loop hs).ctrs
    · exact poolRun_ctrs ‹_› hs hr hl
  | monitor =>
    change poolMonitorFn d s s.monitor = some s' at hs
    cases hm : s.monitor <;> rw [hm] at hs <;>
      simp only [poolMonitorFn, Option.some.injEq, reduceCtorEq] at hs
    case sleep =>
      split_ifs at hs
      cases hs
      rfl
    all_goals
      subst hs
      first | rfl | (split_ifs <;> rfl)
  | _ =>
    simp only [poolStep] at hs
    split at hs <;> simp only [Option.some.injEq, reduceCtorEq] at hs
    subst hs
    rfl

/-- The task of a step that raises a counter was in a place that is neither counted nor accepted,
and is now in one that is counted. -/
theorem poolStep_raised [DecidableEq ι] (hs : poolStep d s l = some s') (hr : s.raises l = some t) :
    (∃ a, a.counted = false ∧ a.accepted = false ∧ s.holds a = some t) ∧
      ∃ b, b.counted = true ∧ s'.holds b = some t := by
  cases l with
  | client c b =>
    simp only [PoolState.raises] at hr
    split at hr <;> simp only [Option.some.injEq, reduceCtorEq] at hr
    rename_i u j hc
    subst hr
    have hs : some (poolSubmitRelative d s c u b (.inc j)) = some s' := by
      simpa only [poolStep, hc, poolClient] using hs
    obtain rfl := Option.some.inj hs
    refine ⟨⟨.calling c, rfl, rfl, ?_⟩, ⟨.pushing c, rfl, ?_⟩⟩
    · simp only [PoolState.holds, hc, ClientPc.calling]
    · simp only [PoolState.holds, poolSubmitRelative, PoolState.setClient, Function.update_self,
        ClientPc.pushing]
  | worker w b =>
    simp only [PoolState.raises] at hr
    split at hr <;> simp only [Option.some.injEq, reduceCtorEq] at hr
    rename_i v u rest hf
    subst hr
    simp only [poolStep, hf, poolRun] at hs
    split_ifs at hs
    obtain rfl := Option.some.inj hs
    refine ⟨⟨.worker w (.spawning rest.length), rfl, rfl, ?_⟩,
      ⟨.worker w (.placing rest.length), rfl, ?_⟩⟩
    · simp [PoolState.holds, PoolWorker.holds, hf, FramePc.spawning]
    · simp [PoolState.holds, PoolWorker.holds, PoolState.setFrames, PoolState.setWorker,
        FramePc.placing]
  | _ => simp only [PoolState.raises, reduceCtorEq] at hr

theorem poolStep_lowered [DecidableEq ι] (hs : poolStep d s l = some s')
    (hl : s.lowers l = some t) :
    (∃ a, a.counted = true ∧ s.holds a = some t) ∧
      ∃ b, b.counted = false ∧ s'.holds b = some t := by
  cases l with
  | client c b =>
    simp only [PoolState.lowers] at hl
    split at hl <;> simp only [Option.some.injEq, reduceCtorEq] at hl
    rename_i u j hc
    subst hl
    have hs : some (poolSubmitRelative d s c u b (.undo j)) = some s' := by
      simpa only [poolStep, hc, poolClient] using hs
    obtain rfl := Option.some.inj hs
    refine ⟨⟨.pushing c, rfl, ?_⟩, ⟨.calling c, rfl, ?_⟩⟩
    · simp only [PoolState.holds, hc, ClientPc.pushing]
    · simp only [PoolState.holds, poolSubmitRelative, PoolState.setClient, Function.update_self,
        ClientPc.calling]
  | worker w b =>
    simp only [PoolState.lowers] at hl
    split at hl <;> simp only [Option.some.injEq, reduceCtorEq] at hl
    rename_i u v rest hf
    subst hl
    simp only [poolStep, hf, poolRun] at hs
    split_ifs at hs
    refine ⟨⟨.worker w (.running rest.length), rfl, ?_⟩, ⟨.finished s.finished.length, rfl, ?_⟩⟩
    · simp [PoolState.holds, PoolWorker.holds, hf]
    · split at hs <;> obtain rfl := Option.some.inj hs <;>
        simp [PoolState.holds, PoolState.setFrames, PoolState.setWorker, PoolState.answer]
  | _ => simp only [PoolState.lowers, reduceCtorEq] at hl

theorem PoolState.lowers_of_raises (h : s.raises l = some t) : s.lowers l = none := by
  cases l with
  | client c b =>
    simp only [raises] at h
    split at h <;> simp only [Option.some.injEq, reduceCtorEq] at h
    rename_i hc
    simp only [lowers, hc]
  | worker w b =>
    simp only [raises] at h
    split at h <;> simp only [Option.some.injEq, reduceCtorEq] at h
    rename_i hf
    simp only [lowers, hf]
  | _ => simp only [raises, reduceCtorEq] at h

/-- A step raises the counter of the task that it counts, lowers that of a task that it takes off,
or leaves the counters alone. -/
inductive CtrTurn (s s' : PoolState ι) (l : PoolLabel ι) (O O' : Finset ℕ) : Prop
  | raise (t i : ℕ) (hr : s.raises l = some t) (hl : s.lowers l = none) (htO : t ∉ O)
    (hO : O' = insert t O) (hctrs : s'.ctrs = Function.update s.ctrs i (s.ctrs i + 1))
  | lower (t i : ℕ) (hr : s.raises l = none) (hl : s.lowers l = some t) (htO : t ∈ O)
    (hO : O' = O.erase t) (hctrs : s'.ctrs = Function.update s.ctrs i (s.ctrs i - 1))
  | still (hr : s.raises l = none) (hl : s.lowers l = none) (hO : O' = O)
    (hctrs : s'.ctrs = s.ctrs)

theorem poolStep_census [DecidableEq ι] (hw : PoolWf d s) (ht : TaskInv s)
    (hs : poolStep d s l = some s') {O : Finset ℕ} (hO : Census Place.counted s.holds O)
    (hsum : ∑ i ∈ Finset.range d.nCtrs, s.ctrs i = O.card) :
    ∃ O' : Finset ℕ, Census Place.counted s'.holds O' ∧
      ∑ i ∈ Finset.range d.nCtrs, s'.ctrs i = O'.card ∧ CtrTurn s s' l O O' := by
  have hflow := poolStep_flow hw hs
  have ht' := ht.step hflow (poolStep_answers hw hs)
  obtain ⟨O', hO', hsum', hcase⟩ := hflow.census ht hO hsum
  refine ⟨O', hO', hsum', ?_⟩
  cases hr : s.raises l with
  | some t =>
    obtain ⟨⟨a, hac, -, ha⟩, b, hbc, hb⟩ := poolStep_raised hs hr
    have htO : t ∉ O := fun hin => by
      obtain ⟨p, hpc, hpt⟩ := (hO t).mp hin
      rw [ht.once p a t hpt ha, hac] at hpc
      exact Bool.false_ne_true hpc
    have htO' : t ∈ O' := (hO' t).mpr ⟨b, hbc, hb⟩
    rcases hcase with ⟨rfl, -⟩ | ⟨k, hk, rfl, i, hctrs⟩ | ⟨k, hk, rfl, -⟩
    · exact absurd htO' htO
    · obtain rfl : t = k := (Finset.mem_insert.mp htO').resolve_right htO
      exact .raise t i hr (s.lowers_of_raises hr) htO rfl hctrs
    · exact absurd (Finset.mem_of_mem_erase htO') htO
  | none =>
    cases hl : s.lowers l with
    | some t =>
      obtain ⟨⟨a, hac, ha⟩, b, hbc, hb⟩ := poolStep_lowered hs hl
      have htO : t ∈ O := (hO t).mpr ⟨a, hac, ha⟩
      have htO' : t ∉ O' := fun hin => by
        obtain ⟨p, hpc, hpt⟩ := (hO' t).mp hin
        rw [ht'.once p b t hpt hb, hbc] at hpc
        exact Bool.false_ne_true hpc
      rcases hcase with ⟨rfl, -⟩ | ⟨k, hk, rfl, -⟩ | ⟨k, hk, rfl, i, hctrs⟩
      · exact absurd htO htO'
      · exact absurd (Finset.mem_insert_of_mem htO) htO'
      · obtain rfl : t = k := by
          by_contra hne
          exact htO' (Finset.mem_erase.mpr ⟨hne, htO⟩)
        exact .lower t i hr hl htO rfl hctrs
    | none =>
      have hctrs := poolStep_ctrs hs hr hl
      have hmoved : ∀ (i : ℕ) (v : ℤ), v ≠ 0 →
          s'.ctrs = Function.update s.ctrs i (s.ctrs i + v) → False := by
        intro i v hv hi
        have hself := congrFun hi i
        rw [hctrs, Function.update_self] at hself
        omega
      rcases hcase with ⟨hsame, -⟩ | ⟨k, hk, rfl, i, hi⟩ | ⟨k, hk, rfl, i, hi⟩
      · exact .still hr hl hsame hctrs
      · exact (hmoved i 1 one_ne_zero hi).elim
      · exact (hmoved i (-1) (by decide) hi).elim

/-! ### The balance -/

/-- Each task of `O` was raised once more than it was lowered, the others as often. -/
def PoolLedger.Balanced (d : PoolDims) (g : PoolLedger ι) : Prop :=
  ∃ O : Finset ℕ, Census Place.counted g.pool.holds O ∧
    (∀ t, g.raised.count t = g.lowered.count t + if t ∈ O then 1 else 0) ∧
    ∑ i ∈ Finset.range d.nCtrs, g.pool.ctrs i = O.card

theorem poolLedger_balanced_step [DecidableEq ι] {g g' : PoolLedger ι} (hw : PoolWf d g.pool)
    (ht : TaskInv g.pool) (hb : g.Balanced d) (hs : poolLedgerStep d g l = some g') :
    g'.Balanced d := by
  obtain ⟨s', hp, rfl⟩ := Option.map_eq_some_iff.mp hs
  obtain ⟨O, hO, hcount, hsum⟩ := hb
  obtain ⟨O', hO', hsum', hcase⟩ := poolStep_census hw ht hp hO hsum
  refine ⟨O', hO', fun u => ?_, hsum'⟩
  have hu := hcount u
  cases hcase with
  | raise t i hr hl htO hO' hctrs =>
    simp only [hr, hl, Option.toList_none, Option.toList_some, List.nil_append,
      List.singleton_append, List.count_cons, hO', Finset.mem_insert, hu, beq_iff_eq]
    by_cases hut : u = t
    · simp [hut, htO]
    · simp [hut, Ne.symm hut]
  | lower t i hr hl htO hO' hctrs =>
    simp only [hr, hl, Option.toList_none, Option.toList_some, List.nil_append,
      List.singleton_append, List.count_cons, hO', Finset.mem_erase, hu, beq_iff_eq]
    by_cases hut : u = t
    · simp [hut, htO]
    · simp [hut, Ne.symm hut]
  | still hr hl hO' hctrs => simp only [hr, hl, Option.toList_none, List.nil_append, hO', hu]

theorem poolLedger_inv [DecidableEq ι] {g : PoolLedger ι} (hr : (poolLedger d).Reachable g) :
    PoolWf d g.pool ∧ TaskInv g.pool ∧ g.Balanced d := by
  refine System.Reachable.invariant
    (P := fun g : PoolLedger ι => PoolWf d g.pool ∧ TaskInv g.pool ∧ g.Balanced d)
    (fun g₀ hi => ?_) (fun g₀ l g₁ h hs => ?_) hr
  · obtain rfl : g₀ = ⟨poolCreateRelative d, [], []⟩ := hi
    refine ⟨poolCreateRelative_wf d, poolCreateRelative_tasks d, ∅, fun k => ?_, fun t => ?_, ?_⟩
    · simp [holds_poolCreateRelative]
    · simp
    · simp [poolCreateRelative]
  · have hb := poolLedger_balanced_step h.1 h.2.1 h.2.2 hs
    obtain ⟨s', hp, rfl⟩ := Option.map_eq_some_iff.mp hs
    exact ⟨poolStep_wf h.1 hp, h.2.1.step (poolStep_flow h.1 hp) (poolStep_answers h.1 hp), hb⟩

/-- The counters add up to the number of tasks that were raised and not yet lowered, among them
every accepted task that is not over; and a worker about to store its counter has read the value
that the counter still has. -/
theorem poolCtrs_balanced [DecidableEq ι] (d : PoolDims) {g : PoolLedger ι}
    (hr : (poolLedger d).Reachable g) :
    ∃ O : Finset ℕ, (∀ t, t ∈ O ↔ g.lowered.count t < g.raised.count t) ∧
      (∀ t, g.lowered.count t ≤ g.raised.count t ∧ g.raised.count t ≤ g.lowered.count t + 1) ∧
      ∑ i ∈ Finset.range d.nCtrs, g.pool.ctrs i = O.card ∧
      0 ≤ ∑ i ∈ Finset.range d.nCtrs, g.pool.ctrs i ∧
      (∀ p t, g.pool.holds p = some t → p.accepted = true → t ∈ O ∨ ∃ i, p = .finished i) ∧
      (∑ i ∈ Finset.range d.nCtrs, g.pool.ctrs i = 0 → g.pool.Quiet) ∧
      ∀ w t v rest, (g.pool.workers w).frames = ⟨t, .ctrStore v⟩ :: rest →
        v = g.pool.ctrs (d.ctrOf w) := by
  obtain ⟨hw, ht, O, hO, hcount, hsum⟩ := poolLedger_inv hr
  refine ⟨O, fun t => ?_, fun t => ?_, hsum, ?_, fun p t hp hacc => ?_, fun hzero => ?_, ?_⟩
  · have := hcount t
    split_ifs at this <;> simp [*]
  · have := hcount t
    split_ifs at this <;> omega
  · rw [hsum]
    exact Int.natCast_nonneg _
  · by_cases hc : p.counted = true
    · exact .inl ((hO t).mpr ⟨p, hc, hp⟩)
    · refine .inr ?_
      cases p with
      | finished i => exact ⟨i, rfl⟩
      | worker w sl => cases sl <;> simp [Place.accepted, Place.counted] at hacc hc
      | _ => simp [Place.accepted, Place.counted] at hacc hc
  · exact (CtrsCount.drained ⟨O, hO, hsum⟩ hzero.le).quiet
  · exact fun w t v rest hf => (hw.frames_ok hf).2.1

/-- A task submitted from outside runs, submits another and is over. -/
theorem poolCtrs_balanced_spawn : ∃ g : PoolLedger Unit, (poolLedger .single).Reachable g ∧
    (g.raised, g.lowered) = ([1, 0], [0]) ∧
    ∃ O : Finset ℕ, (∀ t, t ∈ O ↔ g.lowered.count t < g.raised.count t) ∧
      (∀ t, g.lowered.count t ≤ g.raised.count t ∧ g.raised.count t ≤ g.lowered.count t + 1) ∧
      ∑ i ∈ Finset.range PoolDims.single.nCtrs, g.pool.ctrs i = O.card ∧
      0 ≤ ∑ i ∈ Finset.range PoolDims.single.nCtrs, g.pool.ctrs i ∧
      (∀ p t, g.pool.holds p = some t → p.accepted = true → t ∈ O ∨ ∃ i, p = .finished i) ∧
      (∑ i ∈ Finset.range PoolDims.single.nCtrs, g.pool.ctrs i = 0 → g.pool.Quiet) ∧
      ∀ w t v rest, (g.pool.workers w).frames = ⟨t, .ctrStore v⟩ :: rest →
        v = g.pool.ctrs (PoolDims.single.ctrOf w) := by
  have hout : ((poolLedger .single).exec ⟨poolCreateRelative .single, [], []⟩
      (List.flatten [[.call () .submit], List.replicate 10 (.client () true),
        List.replicate 8 (.worker 0 false), [.spawn 0], List.replicate 3 (.worker 0 false),
        [.finish 0], List.replicate 3 (.worker 0 false)])).map (fun g => (g.raised, g.lowered)) =
      some ([1, 0], [0]) := by decide +kernel
  obtain ⟨g, hrun, hg⟩ := Option.map_eq_some_iff.mp hout
  have hr : (poolLedger .single).Reachable g := System.Reachable.exec (.init rfl) hrun
  exact ⟨g, hr, hg, poolCtrs_balanced .single hr⟩

end Xplatbase.ThreadPool
