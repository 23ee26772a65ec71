import Mathlib.Algebra.BigOperators.Intervals
import Mathlib.Algebra.Order.BigOperators.Group.Finset
import Mathlib.Data.Fintype.Basic
import Xplatbase.ThreadPool.PoolConservation

/-! Waiting for the pool to be idle. The counters add up to the number of unfinished tasks, but a
scan reads them one by one: what it adds up is right only if no counter that it has read goes up
again before it ends. -/
namespace Xplatbase.ThreadPool
open Xplatbase.Lib

variable {ι : Type*} {d : PoolDims} {s s' : PoolState ι} {w : ℕ}

/-! ### The counters -/

def CtrsCount (d : PoolDims) (s : PoolState ι) : Prop :=
  ∃ O : Finset ℕ, Census Place.counted s.holds O ∧
    ∑ i ∈ Finset.range d.nCtrs, s.ctrs i = O.card

theorem sum_update_add {n i : ℕ} (f : ℕ → ℤ) (v : ℤ) (hi : i < n) :
    ∑ j ∈ Finset.range n, Function.update f i (f i + v) j = ∑ j ∈ Finset.range n, f j + v := by
  have hmem : i ∈ Finset.range n := Finset.mem_range.mpr hi
  rw [Finset.sum_update_of_mem hmem, Finset.sum_eq_add_sum_sdiff_singleton_of_mem hmem f]
  omega

/-- The counted tasks after a step: as before, or one more, or one less, with the counter. -/
theorem TaskFlow.census [DecidableEq ι] {O : Finset ℕ} (h : TaskFlow d s s') (hs : TaskInv s)
    (hO : Census Place.counted s.holds O)
    (hsum : ∑ i ∈ Finset.range d.nCtrs, s.ctrs i = O.card) :
    ∃ O' : Finset ℕ, Census Place.counted s'.holds O' ∧
      ∑ i ∈ Finset.range d.nCtrs, s'.ctrs i = O'.card ∧
      (O' = O ∧ s'.ctrs = s.ctrs ∨
        (∃ k, k ∉ O ∧ O' = insert k O ∧
          ∃ i, s'.ctrs = Function.update s.ctrs i (s.ctrs i + 1)) ∨
        ∃ k, k ∈ O ∧ O' = O.erase k ∧
          ∃ i, s'.ctrs = Function.update s.ctrs i (s.ctrs i - 1)) := by
  cases h with
  | shift h hctrs =>
    obtain ⟨f, hf, hk⟩ := h
    exact ⟨O, hO.relocate hf fun p hp => (hk p hp).1, by rw [hctrs, hsum], .inl ⟨rfl, hctrs⟩⟩
  | count i a b h hi ha hac hbc haa hctrs =>
    obtain ⟨k, hk⟩ := Option.ne_none_iff_exists'.mp ha
    obtain ⟨hkO, hO'⟩ := hO.enter h hs.once hk hac hbc
    refine ⟨_, hO', ?_, .inr (.inl ⟨k, hkO, rfl, i, hctrs⟩)⟩
    rw [hctrs, sum_update_add _ _ hi, hsum, Finset.card_insert_of_notMem hkO]
    push_cast
    rfl
  | uncount i a b h hi ha hac hbc hacc hctrs =>
    obtain ⟨k, hk⟩ := Option.ne_none_iff_exists'.mp ha
    obtain ⟨hkO, hO'⟩ := hO.leave h hs.once hk hac hbc
    have hpos : 0 < O.card := Finset.card_pos.mpr ⟨k, hkO⟩
    refine ⟨_, hO', ?_, .inr (.inr ⟨k, hkO, rfl, i, hctrs⟩)⟩
    rw [hctrs, sub_eq_add_neg, sum_update_add _ _ hi, hsum, Finset.card_erase_of_mem hkO]
    omega
  | call a ha ha' hac haa hrest hctrs =>
    exact ⟨O, hO.outside hac hrest, by rw [hctrs, hsum], .inl ⟨rfl, hctrs⟩⟩
  | refuse a t h hac haa hctrs =>
    exact ⟨O, hO.outside hac h.rest, by rw [hctrs, hsum], .inl ⟨rfl, hctrs⟩⟩

theorem TaskFlow.ctrsCount [DecidableEq ι] (h : TaskFlow d s s') (hs : TaskInv s)
    (hc : CtrsCount d s) : CtrsCount d s' := by
  obtain ⟨O, hO, hsum⟩ := hc
  obtain ⟨O', hO', hsum', -⟩ := h.census hs hO hsum
  exact ⟨O', hO', hsum'⟩

/-- No counted task is left. -/
def PoolState.Drained (s : PoolState ι) : Prop :=
  ∀ p k, s.holds p = some k → p.counted = false

theorem CtrsCount.drained (h : CtrsCount d s)
    (hsum : ∑ i ∈ Finset.range d.nCtrs, s.ctrs i ≤ 0) : s.Drained := by
  obtain ⟨O, hO, hcard⟩ := h
  have hempty : O = ∅ := by
    rw [← Finset.card_eq_zero]
    omega
  intro p k hp
  by_contra hc
  have hk := (hO k).mpr ⟨p, by simpa using hc, hp⟩
  simp [hempty] at hk

/-- Every task that a submit has accepted is finished. -/
def PoolState.Quiet (s : PoolState ι) : Prop :=
  ∀ p k, s.holds p = some k → p.accepted = true → ∃ i, p = .finished i

theorem PoolState.Drained.quiet (h : s.Drained) : s.Quiet := by
  intro p k hp hacc
  have hc := h p k hp
  cases p with
  | finished i => exact ⟨i, rfl⟩
  | worker w sl => cases sl <;> simp [Place.accepted, Place.counted] at hacc hc
  | _ => simp [Place.accepted, Place.counted] at hacc hc

/-! ### Scans -/

@[simp] def ClientPc.scanned : ClientPc → ℕ
  | .waitIdle i _ | .destroyWait i _ => i
  | _ => 0

@[simp] def ClientPc.scanSum : ClientPc → ℤ
  | .waitIdle _ sum | .destroyWait _ sum => sum
  | _ => 0

/-- In `pool_wait_idle_relative`. -/
@[simp] def ClientPc.waiting : ClientPc → Bool
  | .waitIdle _ _ => true
  | _ => false

/-- In `pool_destroy_relative`, which has not set `stop` yet. -/
@[simp] def ClientPc.destroying : ClientPc → Bool
  | .destroyStop | .destroyWait _ _ | .setStop => true
  | _ => false

@[simp] def ClientPc.submitting : ClientPc → Bool
  | .submit _ _ => true
  | _ => false

/-- The pool, watched from outside. For each client, `late` tells whether a counter has gone up
after its scan had read it, and `since` lists the states since its wait began; `waited` keeps these
lists for the waits that have returned. -/
structure PoolWatch (ι : Type*) where
  pool : PoolState ι
  late : ι → Bool
  since : ι → List (PoolState ι)
  waited : List (List (PoolState ι))

variable {x x' : PoolWatch ι} {c : ι}

/-- Each wait that has returned went through a state with no unfinished task. -/
def PoolWatch.WaitsQuiet (x : PoolWatch ι) : Prop :=
  ∀ h ∈ x.waited, ∃ s ∈ h, s.Quiet

/-- Whoever is about to set `stop` does it with no unfinished task. -/
def PoolWatch.StopsQuiet (x : PoolWatch ι) : Prop :=
  ∀ c, x.pool.clients c = .setStop → x.pool.Quiet

/-- A wait does not return from a scan during which a counter went up after the scan had
read it. -/
def WaitClean (d : PoolDims) (x : PoolWatch ι) : PoolLabel ι → Prop
  | .client c _ => match x.pool.clients c with
    | .waitIdle i sum | .destroyWait i sum =>
      ¬i + 1 < d.nCtrs → sum + x.pool.ctrs i ≤ 0 → x.late c = false
    | _ => True
  | _ => True

/-- No submit from outside is in progress while the pool is being destroyed. -/
def DestroyAlone (x : PoolWatch ι) : PoolLabel ι → Prop
  | .call _ .submit => ∀ c, (x.pool.clients c).destroying = false
  | .call _ .destroy => ∀ c, (x.pool.clients c).submitting = false
  | _ => True

theorem poolRun_clients {t : ℕ} {p : FramePc} {rest : List Frame}
    (hs : poolRun d s w t rest p = some s') : s'.clients = s.clients := by
  cases p <;> simp only [poolRun, Option.some.injEq, reduceCtorEq] at hs
  case place u =>
    subst hs
    split
    · rfl
    · split_ifs <;> rfl
  case wake u q =>
    have hc := (poolWakeSubmit_calm d s q).clients
    split at hs <;> rename_i hwake <;> rw [hwake] at hc <;> subst hs <;> exact hc
  case stopTest | ctrStore =>
    subst hs
    split <;> rfl
  all_goals
    subst hs
    rfl

theorem poolTotalPending_cases (i : ℕ) (sum : ℤ) :
    (i + 1 < d.nCtrs ∧ poolTotalPending d s i sum = .inl (i + 1, sum + s.ctrs i)) ∨
      ¬i + 1 < d.nCtrs ∧ poolTotalPending d s i sum = .inr (sum + s.ctrs i) := by
  unfold poolTotalPending
  by_cases h : i + 1 < d.nCtrs
  · exact .inl ⟨h, if_pos h⟩
  · exact .inr ⟨h, if_neg h⟩

/-- What a scan that has read `n` counters knows of them. -/
def ScanOk (d : PoolDims) (s : PoolState ι) (late : Bool) (n : ℕ) (sum : ℤ) : Prop :=
  n < d.nCtrs ∧ (late = false ∨ n = 0 → ∑ j ∈ Finset.range n, s.ctrs j ≤ sum)

theorem scanOk_start (d : PoolDims) (s : PoolState ι) (late : Bool) : ScanOk d s late 0 0 :=
  ⟨Nat.add_pos_left d.shards_pos _, fun _ => le_rfl⟩

theorem ScanOk.next {late : Bool} {n : ℕ} {sum : ℤ} (h : ScanOk d s late n sum)
    (hn : n + 1 < d.nCtrs) (hctrs : s'.ctrs = s.ctrs) {late' : Bool}
    (hlate : late' = false → late = false) : ScanOk d s' late' (n + 1) (sum + s.ctrs n) := by
  refine ⟨hn, fun hl => ?_⟩
  have hprefix := h.2 (.inl (hlate (hl.resolve_right (Nat.succ_ne_zero n))))
  rw [hctrs, Finset.sum_range_succ]
  omega

theorem ScanOk.stay {late : Bool} {n : ℕ} {sum : ℤ} (h : ScanOk d s late n sum) :
    ScanOk d s' (n ≠ 0 && (late || decide (∃ j < n, s.ctrs j < s'.ctrs j))) n sum := by
  refine ⟨h.1, fun hl => ?_⟩
  by_cases hz : n = 0
  · subst hz
    exact h.2 (.inr rfl)
  · have hnot : late = false ∧ ∀ j < n, s'.ctrs j ≤ s.ctrs j := by simpa [hz] using hl
    calc ∑ j ∈ Finset.range n, s'.ctrs j
        ≤ ∑ j ∈ Finset.range n, s.ctrs j :=
          Finset.sum_le_sum fun j hj => hnot.2 j (Finset.mem_range.mp hj)
      _ ≤ sum := h.2 (.inl hnot.1)

/-- What holds of the watched pool in every run with clean waits. -/
structure WatchInv (d : PoolDims) (x : PoolWatch ι) : Prop where
  wf : PoolWf d x.pool
  tasks : TaskInv x.pool
  ctrs : CtrsCount d x.pool
  scan : ∀ c, ScanOk d x.pool (x.late c) (x.pool.clients c).scanned (x.pool.clients c).scanSum
  since : ∀ c, (x.pool.clients c).waiting = true → x.pool ∈ x.since c
  waits : x.WaitsQuiet

/-- A clean scan that ends with nothing pending has seen the pool drained. -/
theorem WatchInv.drained (h : WatchInv d x) {b : Bool} (hok : WaitClean d x (.client c b)) {i : ℕ}
    {sum : ℤ} (hc : x.pool.clients c = .waitIdle i sum ∨ x.pool.clients c = .destroyWait i sum)
    (hi : ¬i + 1 < d.nCtrs) (hle : sum + x.pool.ctrs i ≤ 0) : x.pool.Drained := by
  have hscan : ScanOk d x.pool (x.late c) i sum := by
    have hscan := h.scan c
    rcases hc with hc | hc <;> rw [hc] at hscan <;> exact hscan
  have hlate : x.late c = false := by
    rcases hc with hc | hc <;> simp only [WaitClean, hc] at hok <;> exact hok hi hle
  apply h.ctrs.drained
  have hprefix := hscan.2 (.inl hlate)
  have hlast : d.nCtrs = i + 1 := by
    have := hscan.1
    omega
  rw [hlast, Finset.sum_range_succ]
  omega

theorem WatchInv.init (d : PoolDims) :
    WatchInv d (⟨poolCreateRelative d, fun _ => false, fun _ => [], []⟩ : PoolWatch ι) := by
  refine ⟨poolCreateRelative_wf d, poolCreateRelative_tasks d, ⟨∅, fun k => ?_, ?_⟩,
    fun c => scanOk_start .., nofun, nofun⟩
  · simp [holds_poolCreateRelative]
  · simp [poolCreateRelative]

/-- What holds besides when nobody submits from outside during a destroy. -/
structure DestroyInv (x : PoolWatch ι) : Prop where
  alone : ∀ c c', (x.pool.clients c).destroying = true → (x.pool.clients c').submitting = false
  stop : ∀ c, x.pool.clients c = .setStop → x.pool.Drained

section Watch

variable [DecidableEq ι]

def poolWatchStep (d : PoolDims) (x : PoolWatch ι) (l : PoolLabel ι) : Option (PoolWatch ι) :=
  (poolStep d x.pool l).map fun s => {
    pool := s
    late := fun c => (s.clients c).scanned ≠ 0 &&
      (x.late c || decide (∃ j < (x.pool.clients c).scanned, x.pool.ctrs j < s.ctrs j))
    since := fun c => if (s.clients c).waiting then s :: x.since c else []
    waited := match l with
      | .client c _ =>
        if (x.pool.clients c).waiting ∧ (s.clients c).waiting = false then
          (s :: x.since c) :: x.waited
        else x.waited
      | _ => x.waited }

def poolWatch (d : PoolDims) : System (PoolWatch ι) (PoolLabel ι) where
  init := fun x => x = ⟨poolCreateRelative d, fun _ => false, fun _ => [], []⟩
  step := poolWatchStep d

theorem poolClient_others {b : Bool} {c' : ι} (hc : c' ≠ c)
    (hs : poolClient d s c b (s.clients c) = some s') : s'.clients c' = s.clients c' := by
  have hgo : ∀ {s₁ : PoolState ι} {q : ClientPc}, s₁.clients = s.clients →
      (s₁.setClient c q).clients c' = s.clients c' := fun {s₁ q} h => by
    rw [← h]
    exact Function.update_of_ne hc ..
  cases hp : s.clients c <;> rw [hp] at hs <;>
    simp only [poolClient, Option.some.injEq, reduceCtorEq] at hs
  case submit t p =>
    subst hs
    cases p <;> simp only [poolSubmitRelative] <;> (try split_ifs) <;> (try exact hgo rfl)
    case wake q =>
      have hcalm := (poolWakeSubmit_calm d s q).clients
      split <;> rename_i hwake <;> rw [hwake] at hcalm <;> exact hgo hcalm
  case joinMon | joinWorker =>
    split at hs
    · cases hs
      exact hgo rfl
    · simp at hs
  all_goals
    subst hs
    (try split_ifs) <;> exact hgo rfl

theorem poolStep_clients {l : PoolLabel ι} (hs : poolStep d s l = some s')
    (hcall : ∀ k, l ≠ .call c k) (hclient : ∀ b, l ≠ .client c b) :
    s'.clients c = s.clients c := by
  cases l with
  | call c' k =>
    have hc : c ≠ c' := fun h => hcall k (by rw [h])
    simp only [poolStep] at hs
    split at hs <;> simp only [Option.some.injEq, reduceCtorEq] at hs
    subst hs
    cases k <;> first | rfl | exact Function.update_of_ne hc ..
  | client c' b =>
    have hc : c ≠ c' := fun h => hclient b (by rw [h])
    exact poolClient_others hc hs
  | worker w b =>
    simp only [poolStep] at hs
    split_ifs at hs
    split at hs
    · rw [(poolWorkerFn_loop hs).clients]
    · rw [poolRun_clients hs]
  | spawn w | finish w | lapse w clear woken | monitorLapse clear =>
    simp only [poolStep] at hs
    split at hs <;> simp only [Option.some.injEq, reduceCtorEq] at hs
    subst hs
    rfl
  | monitor =>
    simp only [poolStep] at hs
    cases hm : s.monitor <;> rw [hm] at hs <;>
      simp only [poolMonitorFn, Option.some.injEq, reduceCtorEq] at hs
    case sleep =>
      split_ifs at hs
      cases hs
      rfl
    case claim e toWake =>
      subst hs
      split_ifs <;> rfl
    all_goals
      subst hs
      rfl

/-- A client's own step reads a counter, starts the scan again, ends it, or is outside a scan. -/
inductive ClientTurn (d : PoolDims) (s s' : PoolState ι) (c : ι) : Prop
  | read (i : ℕ) (sum : ℤ) (hi : i + 1 < d.nCtrs) (ctrs : s'.ctrs = s.ctrs)
    (h : s.clients c = .waitIdle i sum ∧ s'.clients c = .waitIdle (i + 1) (sum + s.ctrs i) ∨
      s.clients c = .destroyWait i sum ∧ s'.clients c = .destroyWait (i + 1) (sum + s.ctrs i))
  | again (i : ℕ) (sum : ℤ)
    (h : s.clients c = .waitIdle i sum ∧ s'.clients c = .waitIdle 0 0 ∨
      s.clients c = .destroyWait i sum ∧ s'.clients c = .destroyWait 0 0)
  | done (i : ℕ) (sum : ℤ) (hi : ¬i + 1 < d.nCtrs) (hsum : sum + s.ctrs i ≤ 0)
    (holds : s'.holds = s.holds)
    (h : s.clients c = .waitIdle i sum ∧ s'.clients c = .idle ∨
      s.clients c = .destroyWait i sum ∧ s'.clients c = .setStop)
  | other (hw : (s.clients c).waiting = false) (hw' : (s'.clients c).waiting = false)
    (hscan : (s'.clients c).scanned = 0 ∧ (s'.clients c).scanSum = 0)
    (hstop : s'.clients c ≠ .setStop)
    (hsubmit : (s'.clients c).submitting = true → (s.clients c).submitting = true)
    (hdestroy : (s'.clients c).destroying = true → (s.clients c).destroying = true)

theorem poolClient_turn {b : Bool} (hs : poolClient d s c b (s.clients c) = some s') :
    ClientTurn d s s' c := by
  have hself : ∀ (s₁ : PoolState ι) (q : ClientPc), (s₁.setClient c q).clients c = q :=
    fun _ _ => Function.update_self ..
  have hgo : ∀ {s₁ : PoolState ι} {q : ClientPc}, (s.clients c).waiting = false →
      (q.waiting = false ∧ (q.scanned = 0 ∧ q.scanSum = 0) ∧ q ≠ .setStop ∧
        (q.submitting = true → (s.clients c).submitting = true) ∧
        (q.destroying = true → (s.clients c).destroying = true)) →
      ClientTurn d s (s₁.setClient c q) c := fun {s₁ q} hw h => by
    rw [← hself s₁ q] at h
    exact .other hw h.1 h.2.1 h.2.2.1 h.2.2.2.1 h.2.2.2.2
  cases hp : s.clients c <;> rw [hp] at hs <;>
    simp only [poolClient, Option.some.injEq, reduceCtorEq] at hs
  case waitIdle i sum =>
    rcases poolTotalPending_cases (d := d) (s := s) i sum with ⟨hi, ht⟩ | ⟨hi, ht⟩ <;>
      rw [ht] at hs <;> subst hs
    · exact .read i sum hi rfl (.inl ⟨hp, hself ..⟩)
    · dsimp only
      split_ifs with hpos
      · exact .again i sum (.inl ⟨hp, hself ..⟩)
      · exact .done i sum hi (not_lt.mp hpos)
          (funext fun _ => holds_setClient_of (fun _ => by rw [hp]; rfl) fun _ => by rw [hp]; rfl)
          (.inl ⟨hp, hself ..⟩)
  case destroyWait i sum =>
    rcases poolTotalPending_cases (d := d) (s := s) i sum with ⟨hi, ht⟩ | ⟨hi, ht⟩ <;>
      rw [ht] at hs <;> subst hs
    · exact .read i sum hi rfl (.inr ⟨hp, hself ..⟩)
    · dsimp only
      split_ifs with hpos
      · exact .again i sum (.inr ⟨hp, hself ..⟩)
      · exact .done i sum hi (not_lt.mp hpos)
          (funext fun _ => holds_setClient_of (fun _ => by rw [hp]; rfl) fun _ => by rw [hp]; rfl)
          (.inr ⟨hp, hself ..⟩)
  all_goals rw [hp] at hgo
  case submit t p =>
    subst hs
    cases p <;> simp only [poolSubmitRelative]
    case wake q =>
      split <;> exact hgo rfl (by simp)
    case stopTest | retry | pushCas | mon | monClaim =>
      split_ifs <;> exact hgo rfl (by simp)
    all_goals exact hgo rfl (by simp)
  case joinMon | joinWorker =>
    split at hs
    · cases hs
      exact hgo rfl (by split_ifs <;> simp)
    · simp at hs
  case vigiaClaim n i =>
    subst hs
    split_ifs <;> exact hgo rfl (by simp)
  case perfilMon =>
    subst hs
    split_ifs <;> exact hgo rfl (by simp)
  all_goals
    subst hs
    apply hgo rfl
    (try split_ifs) <;> simp

theorem poolStep_call_scan {k : PoolCall} (hs : poolStep d s (.call c k) = some s') :
    (s'.clients c).scanned = 0 ∧ (s'.clients c).scanSum = 0 := by
  simp only [poolStep] at hs
  split at hs <;> simp only [Option.some.injEq, reduceCtorEq] at hs
  rename_i hc
  subst hs
  cases k <;> simp [PoolState.setClient, hc]

theorem poolStep_scanOk (h : WatchInv d x) {l : PoolLabel ι} (hs : poolStep d x.pool l = some s')
    (c : ι) : ScanOk d s' ((s'.clients c).scanned ≠ 0 &&
      (x.late c || decide (∃ j < (x.pool.clients c).scanned, x.pool.ctrs j < s'.ctrs j)))
      (s'.clients c).scanned (s'.clients c).scanSum := by
  have hscan := h.scan c
  by_cases hcall : ∃ k, l = .call c k
  · obtain ⟨k, rfl⟩ := hcall
    obtain ⟨hn, hsum⟩ := poolStep_call_scan hs
    rw [hn, hsum]
    exact scanOk_start ..
  by_cases hclient : ∃ b, l = .client c b
  · obtain ⟨b, rfl⟩ := hclient
    cases poolClient_turn hs with
    | read i sum hi hctrs hc =>
      rcases hc with ⟨hc, hc'⟩ | ⟨hc, hc'⟩ <;> rw [hc] at hscan <;> rw [hc', hc] <;>
        exact hscan.next hi hctrs fun hl => by simp at hl; exact hl.1
    | again i sum hc =>
      rcases hc with ⟨-, hc'⟩ | ⟨-, hc'⟩ <;> rw [hc'] <;> exact scanOk_start ..
    | done i sum hi hsum hh hc =>
      rcases hc with ⟨-, hc'⟩ | ⟨-, hc'⟩ <;> rw [hc'] <;> exact scanOk_start ..
    | other hw hw' hzero =>
      rw [hzero.1, hzero.2]
      exact scanOk_start ..
  · rw [poolStep_clients hs (fun k h => hcall ⟨k, h⟩) fun b h => hclient ⟨b, h⟩]
    exact hscan.stay

theorem poolWatchStep_pool {l : PoolLabel ι} (hs : poolWatchStep d x l = some x') :
    poolStep d x.pool l = some x'.pool := by
  obtain ⟨s', hs', rfl⟩ := Option.map_eq_some_iff.mp hs
  exact hs'

theorem poolWatchStep_waits (h : WatchInv d x) {l : PoolLabel ι} (hok : WaitClean d x l)
    (hs : poolWatchStep d x l = some x') : x'.WaitsQuiet := by
  obtain ⟨s', hs', rfl⟩ := Option.map_eq_some_iff.mp hs
  cases l with
  | client c b =>
    intro states hmem
    dsimp only at hmem
    split_ifs at hmem with hret
    · rcases List.mem_cons.mp hmem with rfl | hmem
      · have hin : x.pool ∈ s' :: x.since c := List.mem_cons_of_mem _ (h.since c hret.1)
        cases poolClient_turn hs' with
        | read i sum hi hctrs hc => rcases hc with ⟨hc, hc'⟩ | ⟨hc, hc'⟩ <;> simp [hc, hc'] at hret
        | again i sum hc => rcases hc with ⟨hc, hc'⟩ | ⟨hc, hc'⟩ <;> simp [hc, hc'] at hret
        | done i sum hi hsum hh hc =>
          exact ⟨x.pool, hin, (h.drained hok (hc.imp And.left And.left) hi hsum).quiet⟩
        | other hw => exact absurd (hw.symm.trans hret.1) nofun
      · exact h.waits states hmem
    · exact h.waits states hmem
  | _ => exact h.waits

theorem WatchInv.step (h : WatchInv d x) {l : PoolLabel ι} (hok : WaitClean d x l)
    (hs : poolWatchStep d x l = some x') : WatchInv d x' := by
  have hwaits := poolWatchStep_waits h hok hs
  obtain ⟨s', hs', rfl⟩ := Option.map_eq_some_iff.mp hs
  have hf := poolStep_flow h.wf hs'
  refine ⟨poolStep_wf h.wf hs', h.tasks.step hf (poolStep_answers h.wf hs'),
    hf.ctrsCount h.tasks h.ctrs, poolStep_scanOk h hs', fun c hw => ?_, hwaits⟩
  simp only [show (s'.clients c).waiting = true from hw, if_true]
  exact List.mem_cons_self

theorem poolWatch_inv (hr : (poolWatch d).ReachableWhen (WaitClean d) x) : WatchInv d x := by
  refine System.ReachableWhen.invariant (fun x₀ hi => ?_) (fun x₀ l x₁ h hok hs => ?_) hr
  · obtain rfl : x₀ = _ := hi
    exact .init d
  · exact h.step hok hs

/-! ### Destroying the pool -/

/-- With no submit from outside, a drained pool stays drained. -/
theorem TaskFlow.drained (h : TaskFlow d s s') (hs : s.Drained)
    (hsub : ∀ c, (s.clients c).submitting = false) : s'.Drained := by
  cases h with
  | shift h =>
    obtain ⟨f, hf, hk⟩ := h
    intro p' k hp'
    obtain ⟨p, hp, rfl⟩ := (hf p' k).mp hp'
    rw [(hk p (by simp [hp])).1]
    exact hs p k hp
  | count i a b h hi ha hac hbc haa =>
    obtain ⟨k, hk⟩ := Option.ne_none_iff_exists'.mp ha
    cases a with
    | calling c =>
      have hc := hsub c
      cases hcl : s.clients c <;>
        simp_all [PoolState.holds, ClientPc.calling]
    | worker w sl =>
      cases sl <;> simp [Place.counted, Place.accepted] at hac haa
      rename_i i
      -- the task that makes the submit is running, and counted
      cases hf : (s.workers w).frames.reverse[i]? with
      | none => simp [PoolState.holds, PoolWorker.holds, hf] at hk
      | some f =>
        have := hs (.worker w (.running i)) f.task (by simp [PoolState.holds, PoolWorker.holds, hf])
        simp [Place.counted] at this
    | _ => simp [Place.counted, Place.accepted] at hac haa
  | uncount i a b h hi ha hac =>
    obtain ⟨k, hk⟩ := Option.ne_none_iff_exists'.mp ha
    simp [hs a k hk] at hac
  | call a ha ha' hac haa hrest =>
    intro p k hp
    by_cases hpa : p = a
    · rw [hpa, hac]
    · exact hs p k (hrest p hpa ▸ hp)
  | refuse a t h hac =>
    intro p k hp
    by_cases hpa : p = a
    · rw [hpa, hac]
    · exact hs p k (h.rest p hpa ▸ hp)

theorem poolStep_submitting {l : PoolLabel ι} (hs : poolStep d s l = some s')
    (h : (s'.clients c).submitting = true) :
    (s.clients c).submitting = true ∨ l = .call c .submit := by
  by_cases hcall : ∃ k, l = .call c k
  · obtain ⟨k, rfl⟩ := hcall
    simp only [poolStep] at hs
    split at hs <;> simp only [Option.some.injEq, reduceCtorEq] at hs
    rename_i hc
    subst hs
    cases k <;> simp [PoolState.setClient, hc] at h ⊢
  by_cases hclient : ∃ b, l = .client c b
  · obtain ⟨b, rfl⟩ := hclient
    cases poolClient_turn hs with
    | read i sum hi hctrs hc | again i sum hc | done i sum hi hsum hh hc =>
      rcases hc with ⟨-, hc'⟩ | ⟨-, hc'⟩ <;> simp [hc'] at h
    | other hw hw' hzero hstop hsubmit => exact .inl (hsubmit h)
  · rw [poolStep_clients hs (fun k h => hcall ⟨k, h⟩) fun b h => hclient ⟨b, h⟩] at h
    exact .inl h

theorem poolStep_destroying {l : PoolLabel ι} (hs : poolStep d s l = some s')
    (h : (s'.clients c).destroying = true) :
    (s.clients c).destroying = true ∨ l = .call c .destroy := by
  by_cases hcall : ∃ k, l = .call c k
  · obtain ⟨k, rfl⟩ := hcall
    simp only [poolStep] at hs
    split at hs <;> simp only [Option.some.injEq, reduceCtorEq] at hs
    rename_i hc
    subst hs
    cases k <;> simp [PoolState.setClient, hc] at h ⊢
  by_cases hclient : ∃ b, l = .client c b
  · obtain ⟨b, rfl⟩ := hclient
    cases poolClient_turn hs with
    | read i sum hi hctrs hc | again i sum hc | done i sum hi hsum hh hc =>
      rcases hc with ⟨hc, hc'⟩ | ⟨hc, hc'⟩ <;> simp [hc, hc'] at h ⊢
    | other hw hw' hzero hstop hsubmit hdestroy => exact .inl (hdestroy h)
  · rw [poolStep_clients hs (fun k h => hcall ⟨k, h⟩) fun b h => hclient ⟨b, h⟩] at h
    exact .inl h

theorem DestroyInv.step (h : DestroyInv x) (hx : WatchInv d x) {l : PoolLabel ι}
    (hok : WaitClean d x l) (halone : DestroyAlone x l)
    (hs : poolWatchStep d x l = some x') : DestroyInv x' := by
  replace hs := poolWatchStep_pool hs
  refine ⟨fun c c' hc => Bool.eq_false_iff.mpr fun hc' => ?_, fun c hc => ?_⟩
  · rcases poolStep_submitting hs hc' with hsub | rfl
    · rcases poolStep_destroying hs hc with hdes | rfl
      · cases (h.alone c c' hdes).symm.trans hsub
      · cases (halone c').symm.trans hsub
    · rcases poolStep_destroying hs hc with hdes | hl
      · cases (halone c).symm.trans hdes
      · cases hl
  · by_cases hcall : ∃ k, l = .call c k
    · obtain ⟨k, rfl⟩ := hcall
      simp only [poolStep] at hs
      split at hs <;> simp only [Option.some.injEq, reduceCtorEq] at hs
      rename_i hidle
      rw [← hs] at hc
      cases k <;> simp [PoolState.setClient, hidle] at hc
    have hkeep : x.pool.clients c = .setStop → x'.pool.Drained := fun hc =>
      (poolStep_flow hx.wf hs).drained (h.stop c hc) fun c' => h.alone c c' (by rw [hc]; rfl)
    by_cases hclient : ∃ b, l = .client c b
    · obtain ⟨b, rfl⟩ := hclient
      cases poolClient_turn hs with
      | read i sum hi hctrs hfrom | again i sum hfrom =>
        rcases hfrom with ⟨-, hc'⟩ | ⟨-, hc'⟩ <;> cases hc.symm.trans hc'
      | done i sum hi hsum hh hfrom =>
        intro p k hp
        apply hx.drained hok (hfrom.imp And.left And.left) hi hsum p k
        exact hh ▸ hp
      | other hw hw' hzero hstop => exact absurd hc hstop
    · apply hkeep
      rw [← poolStep_clients hs (fun k h => hcall ⟨k, h⟩) fun b h => hclient ⟨b, h⟩]
      exact hc

omit [DecidableEq ι] in
theorem DestroyInv.init (d : PoolDims) :
    DestroyInv (⟨poolCreateRelative d, fun _ => false, fun _ => [], []⟩ : PoolWatch ι) := by
  refine ⟨fun c c' => ?_, fun c hc => ?_⟩
  · simp [poolCreateRelative]
  · simp [poolCreateRelative] at hc

theorem poolWatch_destroy
    (hr : (poolWatch d).ReachableWhen (fun x l => WaitClean d x l ∧ DestroyAlone x l) x) :
    DestroyInv x := by
  suffices h : WatchInv d x ∧ DestroyInv x from h.2
  refine System.ReachableWhen.invariant (P := fun x => WatchInv d x ∧ DestroyInv x)
    (fun x₀ hi => ?_) (fun x₀ l x₁ h hok hs => ?_) hr
  · obtain rfl : x₀ = _ := hi
    exact ⟨.init d, .init d⟩
  · exact ⟨h.1.step hok.1 hs, h.2.step h.1 hok.1 hok.2 hs⟩

/-- A wait is sound in every run whose waits return from clean scans, and so is a destroy during
which nobody submits from outside. -/
theorem poolWaitIdle_sound (d : PoolDims) :
    (∀ x : PoolWatch ι, (poolWatch d).ReachableWhen (WaitClean d) x → x.WaitsQuiet) ∧
    ∀ x : PoolWatch ι,
      (poolWatch d).ReachableWhen (fun x l => WaitClean d x l ∧ DestroyAlone x l) x →
      x.StopsQuiet :=
  ⟨fun _ hr => (poolWatch_inv hr).waits,
    fun _ hr c hc => ((poolWatch_destroy hr).stop c hc).quiet⟩

end Watch

instance [Fintype ι] (x : PoolWatch ι) (l : PoolLabel ι) : Decidable (DestroyAlone x l) :=
  match l with
  | .call _ .submit => inferInstanceAs (Decidable (∀ _, _))
  | .call _ .destroy => inferInstanceAs (Decidable (∀ _, _))
  | .call _ .waitIdle | .call _ (.vigias _) | .call _ (.perfil _) | .call _ (.giroMaxUs _)
  | .client _ _ | .worker _ _ | .spawn _ | .finish _ | .lapse _ _ _ | .monitor
  | .monitorLapse _ => isTrue trivial

instance (x : PoolWatch ι) (l : PoolLabel ι) : Decidable (WaitClean d x l) :=
  match l with
  | .client c _ => by
    unfold WaitClean
    dsimp only
    cases x.pool.clients c <;> infer_instance
  | .call _ _ | .worker _ _ | .spawn _ | .finish _ | .lapse _ _ _ | .monitor
  | .monitorLapse _ => isTrue trivial

/-- A task submitted from outside runs to its end; then its submitter waits, and destroys the
pool. -/
theorem poolWaitIdle_sound_single : ∃ x : PoolWatch Unit,
    (poolWatch .single).ReachableWhen (fun x l => WaitClean .single x l ∧ DestroyAlone x l) x ∧
    x.waited.length = 1 ∧ x.pool.clients () = .setStop ∧ x.WaitsQuiet ∧ x.StopsQuiet := by
  have hout : ((poolWatch .single).execWhen (fun x l => WaitClean .single x l ∧ DestroyAlone x l)
      ⟨poolCreateRelative .single, fun _ => false, fun _ => [], []⟩
      (List.flatten [[.call () .submit], List.replicate 10 (.client () true),
        List.replicate 8 (.worker 0 false), [.finish 0], List.replicate 3 (.worker 0 false),
        [.call () .waitIdle], List.replicate 2 (.client () false), [.call () .destroy],
        List.replicate 3 (.client () false)])).map
        (fun x => (x.waited.length, x.pool.clients ())) = some (1, .setStop) := by decide +kernel
  obtain ⟨x, hrun, hx⟩ := Option.map_eq_some_iff.mp hout
  simp only [Prod.mk.injEq] at hx
  have hr : (poolWatch .single).ReachableWhen
      (fun x l => WaitClean .single x l ∧ DestroyAlone x l) x := .exec (.init rfl) hrun
  have hclean := hr.mono fun _ _ h => h.1
  exact ⟨x, hr, hx.1, hx.2, (poolWaitIdle_sound .single).1 x hclean,
    (poolWaitIdle_sound .single).2 x hr⟩

def PoolDims.pair : PoolDims :=
  ⟨2, 2, 2, 1, Nat.two_pos, le_rfl, le_rfl, Nat.one_pos⟩

theorem PoolState.not_quiet_of_running {w i k : ℕ} (h : s.holds (.worker w (.running i)) = some k) :
    ¬s.Quiet := fun hq => by
  obtain ⟨_, hf⟩ := hq _ k h rfl
  cases hf

/-- A task submitted from outside runs on the first worker while one thread waits and another
destroys the pool. Both have read the shard's counter and the first worker's; the task then
submits two more, the second worker steals and finishes one of them, and its counter makes up for
the task that is still running. -/
def earlyReturn : List (PoolLabel Bool) :=
  [.call false .submit] ++ List.replicate 10 (.client false true) ++
  List.replicate 8 (.worker 0 false) ++
  [.call true .waitIdle, .call false .destroy] ++ List.replicate 3 (.client false false) ++
  List.replicate 2 (.client true false) ++
  [.spawn 0] ++ List.replicate 3 (.worker 0 false) ++
  [.spawn 0] ++ List.replicate 5 (.worker 0 false) ++
  List.replicate 7 (.worker 1 false) ++ [.finish 1] ++ List.replicate 3 (.worker 1 false) ++
  [.client true false, .client false false]

/-- A wait returns, and a destroy sets `stop`, with a task that has been running all along. -/
theorem poolWaitIdle_early : ∃ x : PoolWatch Bool,
    (poolWatch .pair).ReachableWhen DestroyAlone x ∧ ¬x.WaitsQuiet ∧ ¬x.StopsQuiet := by
  have hout : ((poolWatch .pair).execWhen DestroyAlone
      ⟨poolCreateRelative .pair, fun _ => false, fun _ => [], []⟩ earlyReturn).map
        (fun x => (x.waited.map fun h => h.all fun s => s.holds (.worker 0 (.running 0)) = some 0,
          x.pool.clients false, x.pool.holds (.worker 0 (.running 0)))) =
      some ([true], .setStop, some 0) := by decide +kernel
  obtain ⟨x, hrun, hx⟩ := Option.map_eq_some_iff.mp hout
  simp only [Prod.mk.injEq] at hx
  obtain ⟨hwaited, hstop, hnow⟩ := hx
  refine ⟨x, .exec (.init rfl) hrun, fun hq => ?_, fun hq => ?_⟩
  · obtain ⟨h, hw, hh⟩ := List.map_eq_singleton_iff.mp hwaited
    obtain ⟨u, hu, hquiet⟩ := hq h (by simp [hw])
    have hrunning := of_decide_eq_true (List.all_eq_true.mp hh u hu)
    exact PoolState.not_quiet_of_running hrunning hquiet
  · exact PoolState.not_quiet_of_running hnow (hq false hstop)

end Xplatbase.ThreadPool
