import Xplatbase.ThreadPool.PoolLedger
import Xplatbase.ThreadPool.PoolShutdown

/-! The monitor's long sleep in the economy profile. The monitor announces the sleep and adds up
the counters again; whoever finds the announcement afterwards clears it and signals. -/
namespace Xplatbase.ThreadPool
open Xplatbase.Lib

variable {ι : Type*} {d : PoolDims} {s s' : PoolState ι} {w : ℕ}

/-- About to signal the monitor, with `mon_dormindo` taken from it. -/
def ClientPc.claims : ClientPc → Bool
  | .submit _ .monSignal | .perfilSignal => true
  | _ => false

/-- About to test or to take `mon_dormindo`. -/
def ClientPc.asks : ClientPc → Bool
  | .submit _ .mon | .submit _ .monClaim | .perfilMon => true
  | _ => false

/-- In `pool_perfil_relative`, where only this call writes the profile. -/
def ClientPc.inPerfil : ClientPc → Bool
  | .perfil _ | .perfilGiro _ | .perfilMon | .perfilSignal => true
  | _ => false

/-- In `pool_perfil_relative`, with the performance profile set and the monitor still to be told. -/
def ClientPc.telling : ClientPc → Bool
  | .perfilGiro false | .perfilMon | .perfilSignal => true
  | _ => false

/-- In the second sum of the counters, or in the long sleep behind it. -/
def MonitorPc.drowsy : MonitorPc → Bool
  | .pendingAgain _ _ | .sleep true => true
  | _ => false

def MonitorPc.retested : MonitorPc → ℕ
  | .pendingAgain i _ => i
  | _ => 0

def PoolState.SleepSafe (s : PoolState ι) : Prop :=
  s.monitor = .sleep true → s.monSignal = false →
    (s.economia = true ∨ ∃ c, (s.clients c).inPerfil = true) ∧
      ∀ t, (t, true) ∈ s.returned → t ∈ s.finished

/-- The task whose submit, made by a running task, returns true in this step. -/
def PoolState.accepts (d : PoolDims) (s : PoolState ι) : PoolLabel ι → Option ℕ
  | .worker w _ =>
    match (s.workers w).frames with
    | ⟨_, .place u⟩ :: _ => if (s.workers w).lifo = none then some u else none
    | ⟨_, .wake u p⟩ :: _ => if (poolWakeSubmit d s p).2 = none then some u else none
    | ⟨_, .ctrStore _⟩ :: ⟨_, .nested u⟩ :: _ => some u
    | _ => none
  | _ => none

/-- The pool with what the second sum cannot see. Since the announcement, `unseen` are the tasks
last counted on a counter that the sum had read, `mixed` tells whether one of them was taken off a
counter that it had not, and `inner` are the tasks whose submits by running tasks have returned. -/
structure EconomyWatch (ι : Type*) where
  pool : PoolState ι
  unseen : List ℕ
  mixed : Bool
  inner : List ℕ

def PoolState.announces (s : PoolState ι) : PoolLabel ι → Bool
  | .monitor => match s.monitor with
    | .announce => true
    | _ => false
  | _ => false

def PoolState.rises (s s' : PoolState ι) : Bool :=
  decide (∃ j < s.monitor.retested, s.ctrs j < s'.ctrs j)

def PoolState.falls (s s' : PoolState ι) : Bool :=
  decide (∃ j < s.monitor.retested, s'.ctrs j < s.ctrs j)

def EconomyWatch.unseenAfter (x : EconomyWatch ι) (s' : PoolState ι) (l : PoolLabel ι) :
    List ℕ :=
  if x.pool.announces l then []
  else
    match x.pool.raises l with
    | some t => if x.pool.rises s' then t :: x.unseen else x.unseen.filter fun u => u ≠ t
    | none => x.unseen

def EconomyWatch.mixedAfter (x : EconomyWatch ι) (s' : PoolState ι) (l : PoolLabel ι) : Bool :=
  if x.pool.announces l then false
  else
    x.mixed ||
      match x.pool.lowers l with
      | some t => decide (t ∈ x.unseen) && !x.pool.falls s'
      | none => false

def EconomyWatch.innerAfter (d : PoolDims) (x : EconomyWatch ι) (l : PoolLabel ι) : List ℕ :=
  if x.pool.announces l then [] else (x.pool.accepts d l).toList ++ x.inner

def economyWatchStep [DecidableEq ι] (d : PoolDims) (x : EconomyWatch ι) (l : PoolLabel ι) :
    Option (EconomyWatch ι) :=
  (poolStep d x.pool l).map fun s' =>
    ⟨s', x.unseenAfter s' l, x.mixedAfter s' l, x.innerAfter d l⟩

def economyWatch [DecidableEq ι] (d : PoolDims) : System (EconomyWatch ι) (PoolLabel ι) where
  init := fun x => x = ⟨poolCreateRelative d, [], false, []⟩
  step := economyWatchStep d

/-- The monitor announces its sleep in the economy profile, or with a change of the profile on its
way to it. It falls asleep only if no task that the second sum missed was taken off a counter that
it still had to read, and none that a running task submitted meanwhile is unfinished. While it
sleeps unsignalled no running task's submit returns, and while it sums or sleeps unsignalled nobody
finds `mon_dormindo` cleared by another who has yet to signal. -/
def SleepFair (d : PoolDims) (x : EconomyWatch ι) : PoolLabel ι → Prop
  | .monitor => match x.pool.monitor with
    | .announce => x.pool.economia = true ∨ ∃ c, (x.pool.clients c).telling = true
    | .pendingAgain i sum => ¬i + 1 < d.nCtrs → sum + x.pool.ctrs i = 0 →
      x.mixed = false ∧ ∀ t ∈ x.unseen, t ∈ x.inner → t ∈ x.pool.finished
    | _ => True
  | .worker w b => x.pool.monitor.slumber = some true → x.pool.monSignal = false →
    x.pool.accepts d (.worker w b) = none
  | .client c _ => (x.pool.clients c).asks = true → x.pool.monitor.drowsy = true →
    x.pool.monSignal = false → x.pool.monDormindo = false →
    ∀ c', (x.pool.clients c').claims = false
  | _ => True

/-! ### What a step does to the handshake -/

/-- A step of client `c`. -/
structure ClientTold (s s' : PoolState ι) (c : ι) : Prop where
  monitor : s'.monitor = s.monitor
  finished : s'.finished = s.finished
  signal : s.monSignal = true → s'.monSignal = true
  claims : (s.clients c).claims = true → s'.monSignal = true
  dormindo : s'.monDormindo = s.monDormindo ∨ (s'.clients c).claims = true
  economia : s'.economia = s.economia ∨ s'.economia = true ∨ (s'.clients c).telling = true
  telling : (s.clients c).telling = true → (s'.clients c).telling = true ∨
    s'.monSignal = true ∨ (s.clients c).asks = true ∧ s.monDormindo = false
  returned : ∀ t, (t, true) ∈ s'.returned → (t, true) ∈ s.returned ∨
    s'.monSignal = true ∨ (s.clients c).asks = true ∧ s.monDormindo = false

/-- A step that leaves the words of the handshake alone. -/
theorem ClientTold.plain [DecidableEq ι] {c : ι} {s₁ : PoolState ι} {q : ClientPc}
    (hm : s.MonKept s₁) (hf : s₁.finished = s.finished)
    (hr : ∀ t, (t, true) ∈ s₁.returned → (t, true) ∈ s.returned)
    (hclaims : (s.clients c).claims = false) (htell : (s.clients c).telling = true →
      q.telling = true) :
    ClientTold s (s₁.setClient c q) c where
  monitor := hm.monitor
  finished := hf
  signal := fun h => hm.signal.trans h
  claims := fun h => by
    rw [hclaims] at h
    cases h
  dormindo := .inl hm.dormindo
  economia := .inl hm.economia
  telling := fun h => .inl (by
    simp only [PoolState.setClient, Function.update_self]
    exact htell h)
  returned := fun t ht => .inl (hr t ht)

theorem poolSubmitRelative_told [DecidableEq ι] {c : ι} {t : ℕ} {b : Bool} {p : SubmitPc}
    (hc : s.clients c = .submit t p) :
    ClientTold s (poolSubmitRelative d s c t b p) c := by
  have hrefl : s.MonKept s := ⟨rfl, rfl, rfl, rfl⟩
  have htell : (s.clients c).telling = true → False := by
    rw [hc]
    intro h
    cases h
  have hno : ∀ t u, (t, true) ∈ (s.answer u false).returned → (t, true) ∈ s.returned := by
    intro t u h
    rcases List.mem_cons.mp h with h | h
    · cases h
    · exact h
  cases p
  case wake q =>
    have hm := poolWakeSubmit_monKept d s q
    have hl := poolWakeSubmit_loop d s q
    simp only [poolSubmitRelative]
    split <;> rename_i hw <;> rw [hw] at hm hl <;>
      exact .plain hm hl.finished (fun u hu => hl.returned ▸ hu) (by rw [hc]; rfl)
        fun h => (htell h).elim
  case stopTest | retry =>
    simp only [poolSubmitRelative]
    split_ifs
    · exact .plain ⟨rfl, rfl, rfl, rfl⟩ rfl (fun u => hno u t) (by rw [hc]; rfl)
        fun h => (htell h).elim
    · exact .plain hrefl rfl (fun _ h => h) (by rw [hc]; rfl) fun h => (htell h).elim
  case pushCas =>
    simp only [poolSubmitRelative]
    split_ifs <;> exact .plain ⟨rfl, rfl, rfl, rfl⟩ rfl (fun _ h => h) (by rw [hc]; rfl)
        fun h => (htell h).elim
  case mon =>
    simp only [poolSubmitRelative]
    split_ifs with hdorm
    · exact .plain hrefl rfl (fun _ h => h) (by rw [hc]; rfl) fun h => (htell h).elim
    · refine ⟨rfl, rfl, id, ?_, .inl rfl, .inl rfl, fun h => (htell h).elim, fun u hu => ?_⟩
      · rw [hc]
        intro h
        cases h
      · refine .inr (.inr ⟨by rw [hc]; rfl, by simpa using hdorm⟩)
  case monClaim =>
    simp only [poolSubmitRelative]
    split_ifs with hdorm
    · refine ⟨rfl, rfl, id, ?_, .inr ?_, .inl rfl, fun h => (htell h).elim, fun _ h => .inl h⟩
      · rw [hc]
        intro h
        cases h
      · simp only [PoolState.setClient, Function.update_self]
        rfl
    · refine ⟨rfl, rfl, id, ?_, .inl rfl, .inl rfl, fun h => (htell h).elim, fun u hu => ?_⟩
      · rw [hc]
        intro h
        cases h
      · refine .inr (.inr ⟨by rw [hc]; rfl, by simpa using hdorm⟩)
  case monSignal =>
    exact ⟨rfl, rfl, fun _ => rfl, fun _ => rfl, .inl rfl, .inl rfl, fun h => (htell h).elim,
      fun _ _ => .inr (.inl rfl)⟩
  all_goals
    exact .plain ⟨rfl, rfl, rfl, rfl⟩ rfl (fun _ h => h) (by rw [hc]; rfl) fun h => (htell h).elim

theorem poolClient_told [DecidableEq ι] {c : ι} {b : Bool}
    (hs : poolClient d s c b (s.clients c) = some s') : ClientTold s s' c := by
  have hrefl : s.MonKept s := ⟨rfl, rfl, rfl, rfl⟩
  cases hc : s.clients c <;> rw [hc] at hs <;>
    simp only [poolClient, Option.some.injEq, reduceCtorEq] at hs
  case submit t p =>
    subst hs
    exact poolSubmitRelative_told hc
  case wakeMon =>
    subst hs
    exact ⟨rfl, rfl, fun _ => rfl, fun _ => rfl, .inl rfl, .inl rfl, fun _ => .inr (.inl rfl),
      fun _ h => .inl h⟩
  case perfilSignal =>
    subst hs
    exact ⟨rfl, rfl, fun _ => rfl, fun _ => rfl, .inl rfl, .inl rfl, fun _ => .inr (.inl rfl),
      fun _ h => .inl h⟩
  case perfil eco =>
    subst hs
    refine ⟨rfl, rfl, id, ?_, .inl rfl, .inr ?_, ?_, fun _ h => .inl h⟩
    · rw [hc]
      intro h
      cases h
    · cases eco
      · right
        simp only [PoolState.setClient, Function.update_self]
        rfl
      · exact .inl rfl
    · rw [hc]
      intro h
      cases h
  case perfilGiro eco =>
    subst hs
    refine .plain ⟨rfl, rfl, rfl, rfl⟩ rfl (fun _ h => h) (by rw [hc]; rfl) ?_
    rw [hc]
    cases eco
    · exact fun _ => rfl
    · simp [ClientPc.telling]
  case perfilMon =>
    subst hs
    split_ifs with hdorm
    · refine ⟨rfl, rfl, id, ?_, .inr ?_, .inl rfl, fun _ => .inl ?_, fun _ h => .inl h⟩
      · rw [hc]
        intro h
        cases h
      · simp only [PoolState.setClient, Function.update_self]
        rfl
      · simp only [PoolState.setClient, Function.update_self]
        rfl
    · refine ⟨rfl, rfl, id, ?_, .inl rfl, .inl rfl, fun _ => ?_, fun _ h => .inl h⟩
      · rw [hc]
        intro h
        cases h
      · exact .inr (.inr ⟨by rw [hc]; rfl, by simpa using hdorm⟩)
  case joinMon | joinWorker =>
    split at hs
    · cases hs
      exact .plain hrefl rfl (fun _ h => h) (by rw [hc]; rfl) (by rw [hc]; intro h; cases h)
    · simp at hs
  case vigiaClaim n i =>
    subst hs
    split_ifs <;>
      exact .plain ⟨rfl, rfl, rfl, rfl⟩ rfl (fun _ h => h) (by rw [hc]; rfl)
        (by rw [hc]; intro h; cases h)
  all_goals
    subst hs
    exact .plain ⟨rfl, rfl, rfl, rfl⟩ rfl (fun _ h => h) (by rw [hc]; rfl) (by rw [hc]; intro h; cases h)

/-- A running task's submit returns true only in a step that accepts it. -/
theorem poolRun_accepts {t : ℕ} {b : Bool} {p : FramePc} {rest : List Frame}
    (hf : (s.workers w).frames = ⟨t, p⟩ :: rest) (hs : poolRun d s w t rest p = some s') :
    (∀ u, (u, true) ∈ s'.returned →
      (u, true) ∈ s.returned ∨ s.accepts d (.worker w b) = some u) ∧
      ∀ u ∈ s.finished, u ∈ s'.finished := by
  cases p <;> simp only [poolRun, Option.some.injEq, reduceCtorEq] at hs
  case stopTest v =>
    subst hs
    split_ifs
    · refine ⟨fun u hu => ?_, fun _ h => h⟩
      rcases List.mem_cons.mp hu with hu | hu
      · cases hu
      · exact .inl hu
    · exact ⟨fun _ h => .inl h, fun _ h => h⟩
  case place v =>
    subst hs
    split
    case h_1 hl =>
      refine ⟨fun u hu => ?_, fun _ h => h⟩
      rcases List.mem_cons.mp hu with hu | hu
      · cases hu
        right
        simp only [PoolState.accepts, hf, hl, if_true]
      · exact .inl hu
    case h_2 => split_ifs <;> exact ⟨fun _ h => .inl h, fun _ h => h⟩
  case wake v q =>
    have hl := poolWakeSubmit_loop d s q
    split at hs
    case h_1 hw =>
      subst hs
      rw [hw] at hl
      exact ⟨fun u hu => .inl (hl.returned ▸ hu), fun u hu => hl.finished ▸ hu⟩
    case h_2 hw =>
      subst hs
      rw [hw] at hl
      refine ⟨fun u hu => ?_, fun u hu => ?_⟩
      · rcases List.mem_cons.mp hu with hu | hu
        · cases hu
          right
          simp only [PoolState.accepts, hf, hw, if_true]
        · exact .inl (hl.returned ▸ hu)
      · rw [← hl.finished] at hu
        exact hu
  case ctrStore v =>
    subst hs
    split
    case h_1 t' u' rest' =>
      refine ⟨fun u hu => ?_, fun u hu => List.mem_cons_of_mem _ hu⟩
      rcases List.mem_cons.mp hu with hu | hu
      · cases hu
        right
        simp only [PoolState.accepts, hf]
      · exact .inl hu
    case h_2 => exact ⟨fun _ h => .inl h, fun u hu => List.mem_cons_of_mem _ hu⟩
  all_goals
    subst hs
    exact ⟨fun _ h => .inl h, fun _ h => h⟩

theorem poolStep_accepts [DecidableEq ι] {l : PoolLabel ι} (hm : l.mover = some w)
    (hs : poolStep d s l = some s') :
    (∀ u, (u, true) ∈ s'.returned → (u, true) ∈ s.returned ∨ s.accepts d l = some u) ∧
      ∀ u ∈ s.finished, u ∈ s'.finished := by
  cases l with
  | worker v b =>
    simp only [poolStep] at hs
    split_ifs at hs
    split at hs
    · have hl := poolWorkerFn_loop hs
      exact ⟨fun u hu => .inl (hl.returned ▸ hu), fun u hu => hl.finished ▸ hu⟩
    · exact poolRun_accepts ‹_› hs
  | spawn v | finish v | lapse v clear woken =>
    simp only [poolStep] at hs
    split at hs <;> simp only [Option.some.injEq, reduceCtorEq] at hs
    subst hs
    exact ⟨fun _ h => .inl h, fun _ h => h⟩
  | _ => cases hm

/-! ### The second sum -/

/-- What the second sum knows, after `n` counters: what it read and the tasks it missed make up for
the counters it has read, unless one of those tasks was taken off another. `O` are the tasks that
are counted. -/
def SumOk (s : PoolState ι) (unseen : List ℕ) (mixed : Bool) (O : Finset ℕ) (n : ℕ) (sum : ℤ) :
    Prop :=
  mixed = false →
    ∑ j ∈ Finset.range n, s.ctrs j ≤ sum + ((O.filter fun t => t ∈ unseen).card : ℤ)

theorem sum_range_update (f : ℕ → ℤ) (i n : ℕ) (v : ℤ) :
    ∑ j ∈ Finset.range n, Function.update f i (f i + v) j =
      ∑ j ∈ Finset.range n, f j + if i < n then v else 0 := by
  by_cases hi : i < n
  · rw [if_pos hi, sum_update_add f v hi]
  · rw [if_neg hi, add_zero]
    apply Finset.sum_congr rfl
    intro j hj
    exact Function.update_of_ne (by have := Finset.mem_range.mp hj; omega) ..

theorem SumOk.raise {unseen : List ℕ} {mixed : Bool} {O : Finset ℕ} {n i t : ℕ} {sum : ℤ}
    (h : SumOk s unseen mixed O n sum) (ht : t ∉ O)
    (hctrs : s'.ctrs = Function.update s.ctrs i (s.ctrs i + 1)) :
    SumOk s' (if i < n then t :: unseen else unseen.filter fun u => u ≠ t) mixed (insert t O) n
      sum := by
  intro hmixed
  have hsum := h hmixed
  rw [hctrs, sum_range_update]
  by_cases hi : i < n
  · have hcard : ((insert t O).filter fun u => u ∈ t :: unseen).card =
        (O.filter fun u => u ∈ t :: unseen).card + 1 := by
      rw [Finset.filter_insert, if_pos List.mem_cons_self, Finset.card_insert_of_notMem]
      exact fun hin => ht (Finset.mem_of_mem_filter t hin)
    have hle : (O.filter fun u => u ∈ unseen).card ≤ (O.filter fun u => u ∈ t :: unseen).card := by
      apply Finset.card_le_card
      intro u hu
      obtain ⟨huO, hu⟩ := Finset.mem_filter.mp hu
      exact Finset.mem_filter.mpr ⟨huO, List.mem_cons_of_mem _ hu⟩
    rw [if_pos hi, if_pos hi, hcard]
    push_cast
    omega
  · have hle : (O.filter fun u => u ∈ unseen).card ≤
        ((insert t O).filter fun u => u ∈ unseen.filter fun u => u ≠ t).card := by
      apply Finset.card_le_card
      intro u hu
      obtain ⟨huO, hu⟩ := Finset.mem_filter.mp hu
      refine Finset.mem_filter.mpr ⟨Finset.mem_insert_of_mem huO, List.mem_filter.mpr ⟨hu, ?_⟩⟩
      have hne : u ≠ t := fun h => ht (h ▸ huO)
      simpa using hne
    rw [if_neg hi, if_neg hi]
    omega

theorem SumOk.lower {unseen : List ℕ} {mixed : Bool} {O : Finset ℕ} {n i t : ℕ} {sum : ℤ}
    (h : SumOk s unseen mixed O n sum)
    (hctrs : s'.ctrs = Function.update s.ctrs i (s.ctrs i - 1)) :
    SumOk s' unseen (mixed || (decide (t ∈ unseen) && !decide (i < n))) (O.erase t) n sum := by
  intro hmixed
  have hmixed : mixed = false ∧ (t ∈ unseen → i < n) := by simpa using hmixed
  have hsum := h hmixed.1
  have hers : ((O.erase t).filter fun u => u ∈ unseen) =
      (O.filter fun u => u ∈ unseen).erase t := Finset.filter_erase _ _ _
  rw [hctrs, sub_eq_add_neg, sum_range_update, hers]
  by_cases ht : t ∈ unseen
  · have hge := Finset.pred_card_le_card_erase (s := O.filter fun u => u ∈ unseen) (a := t)
    rw [if_pos (hmixed.2 ht)]
    omega
  · have hnot : t ∉ O.filter fun u => u ∈ unseen := fun hin => ht (Finset.mem_filter.mp hin).2
    rw [Finset.erase_eq_of_notMem hnot]
    split_ifs <;> omega

theorem rises_iff {i : ℕ} (hctrs : s'.ctrs = Function.update s.ctrs i (s.ctrs i + 1)) :
    s.rises s' = decide (i < s.monitor.retested) := by
  unfold PoolState.rises
  rw [hctrs, decide_eq_decide]
  constructor
  · rintro ⟨j, hj, hlt⟩
    by_cases hji : j = i
    · rwa [← hji]
    · rw [Function.update_of_ne hji] at hlt
      exact absurd hlt (lt_irrefl _)
  · intro hi
    refine ⟨i, hi, ?_⟩
    rw [Function.update_self]
    omega

theorem falls_iff {i : ℕ} (hctrs : s'.ctrs = Function.update s.ctrs i (s.ctrs i - 1)) :
    s.falls s' = decide (i < s.monitor.retested) := by
  unfold PoolState.falls
  rw [hctrs, decide_eq_decide]
  constructor
  · rintro ⟨j, hj, hlt⟩
    by_cases hji : j = i
    · rwa [← hji]
    · rw [Function.update_of_ne hji] at hlt
      exact absurd hlt (lt_irrefl _)
  · intro hi
    refine ⟨i, hi, ?_⟩
    rw [Function.update_self]
    omega

variable {x x' : EconomyWatch ι} {l : PoolLabel ι}

/-- A step keeps the census of the counted tasks, and what the second sum knows while the monitor
stands still. -/
theorem poolStep_sumOk [DecidableEq ι] (hw : PoolWf d x.pool) (ht : TaskInv x.pool)
    (hs : poolStep d x.pool l = some s') (hann : x.pool.announces l = false) {O : Finset ℕ}
    (hO : Census Place.counted x.pool.holds O)
    (hsum : ∑ i ∈ Finset.range d.nCtrs, x.pool.ctrs i = O.card) :
    ∃ O' : Finset ℕ, Census Place.counted s'.holds O' ∧
      ∑ i ∈ Finset.range d.nCtrs, s'.ctrs i = O'.card ∧
      ∀ sum, SumOk x.pool x.unseen x.mixed O x.pool.monitor.retested sum →
        SumOk s' (x.unseenAfter s' l) (x.mixedAfter s' l) O' x.pool.monitor.retested sum := by
  obtain ⟨O', hO', hsum', hcase⟩ := poolStep_census hw ht hs hO hsum
  refine ⟨O', hO', hsum', fun sum hok => ?_⟩
  unfold EconomyWatch.unseenAfter EconomyWatch.mixedAfter
  simp only [hann, Bool.false_eq_true, if_false]
  cases hcase with
  | raise t i hr hl htO hins hctrs =>
    simp only [hr, hl, hins, Bool.or_false, rises_iff hctrs, decide_eq_true_eq]
    exact hok.raise htO hctrs
  | lower t i hr hl htO hers hctrs =>
    simp only [hr, hl, hers, falls_iff hctrs]
    exact hok.lower hctrs
  | still hr hl hsame hctrs =>
    simp only [hr, hl, hsame, Bool.or_false]
    intro hmixed
    rw [hctrs]
    exact hok hmixed

/-! ### The handshake -/

structure HandshakeInv (s : PoolState ι) : Prop where
  claimed : s.monitor.drowsy = true →
    s.monDormindo = true ∨ s.monSignal = true ∨ ∃ c, (s.clients c).claims = true
  profile : s.monitor.drowsy = true →
    s.monSignal = true ∨ s.economia = true ∨ ∃ c, (s.clients c).telling = true

/-- Whoever finds `mon_dormindo` clear finds the signal set. -/
theorem HandshakeInv.signalled (h : HandshakeInv s) (hd : s.monitor.drowsy = true)
    (hdorm : s.monDormindo = false)
    (hclaims : s.monSignal = false → ∀ c, (s.clients c).claims = false) :
    s.monSignal = true := by
  by_contra hsig
  have hsig : s.monSignal = false := by simpa using hsig
  rcases h.claimed hd with hset | hset | ⟨c, hc⟩
  · rw [hset] at hdorm
    cases hdorm
  · rw [hset] at hsig
    cases hsig
  · rw [hclaims hsig c] at hc
    cases hc

theorem HandshakeInv.of_kept (h : HandshakeInv s) (hm : s.MonKept s')
    (hc : s'.clients = s.clients) : HandshakeInv s' := by
  refine ⟨fun hd => ?_, fun hd => ?_⟩
  · rw [hm.dormindo, hm.signal, hc]
    rw [hm.monitor] at hd
    exact h.claimed hd
  · rw [hm.signal, hm.economia, hc]
    rw [hm.monitor] at hd
    exact h.profile hd

theorem HandshakeInv.client [DecidableEq ι] {c : ι} {b : Bool} (h : HandshakeInv s)
    (hs : poolStep d s (.client c b) = some s')
    (hfair : (s.clients c).asks = true → s.monitor.drowsy = true → s.monSignal = false →
      s.monDormindo = false → ∀ c', (s.clients c').claims = false) : HandshakeInv s' := by
  have ht := poolClient_told hs
  have hothers : ∀ c', c' ≠ c → s'.clients c' = s.clients c' := fun c' hc =>
    poolClient_others hc hs
  refine ⟨fun hd => ?_, fun hd => ?_⟩
  · rw [ht.monitor] at hd
    rcases h.claimed hd with hset | hset | ⟨c', hc⟩
    · rcases ht.dormindo with hsame | hclaim
      · exact .inl (hsame.trans hset)
      · exact .inr (.inr ⟨c, hclaim⟩)
    · exact .inr (.inl (ht.signal hset))
    · by_cases hcc : c' = c
      · exact .inr (.inl (ht.claims (hcc ▸ hc)))
      · exact .inr (.inr ⟨c', by rwa [hothers c' hcc]⟩)
  · rw [ht.monitor] at hd
    rcases h.profile hd with hset | heco | ⟨c', hc⟩
    · exact .inl (ht.signal hset)
    · rcases ht.economia with hsame | hset | htell
      · exact .inr (.inl (hsame.trans heco))
      · exact .inr (.inl hset)
      · exact .inr (.inr ⟨c, htell⟩)
    · by_cases hcc : c' = c
      · rcases ht.telling (hcc ▸ hc) with htell | hset | ⟨hask, hdorm⟩
        · exact .inr (.inr ⟨c, htell⟩)
        · exact .inl hset
        · exact .inl (ht.signal (h.signalled hd hdorm fun hsig => hfair hask hd hsig hdorm))
      · exact .inr (.inr ⟨c', by rwa [hothers c' hcc]⟩)

theorem HandshakeInv.call [DecidableEq ι] {c : ι} {k : PoolCall} (h : HandshakeInv s)
    (hs : poolStep d s (.call c k) = some s') : HandshakeInv s' := by
  simp only [poolStep] at hs
  split at hs <;> simp only [Option.some.injEq, reduceCtorEq] at hs
  rename_i hidle
  have hstay : ∀ (q : ClientPc) (c' : ι), (s.clients c').claims = true ∨
      (s.clients c').telling = true → Function.update s.clients c q c' = s.clients c' := by
    intro q c' hc'
    apply Function.update_of_ne
    rintro rfl
    rw [hidle] at hc'
    rcases hc' with hc' | hc' <;> cases hc'
  have hgo : ∀ q, HandshakeInv { s with clients := Function.update s.clients c q } := by
    intro q
    refine ⟨fun hd => ?_, fun hd => ?_⟩
    · rcases h.claimed hd with hset | hset | ⟨c', hc⟩
      · exact .inl hset
      · exact .inr (.inl hset)
      · exact .inr (.inr ⟨c', by dsimp only; rwa [hstay q c' (.inl hc)]⟩)
    · rcases h.profile hd with hset | hset | ⟨c', hc⟩
      · exact .inl hset
      · exact .inr (.inl hset)
      · exact .inr (.inr ⟨c', by dsimp only; rwa [hstay q c' (.inr hc)]⟩)
  subst hs
  cases k
  case giroMaxUs us => exact ⟨h.claimed, h.profile⟩
  case submit => exact ⟨(hgo _).claimed, (hgo _).profile⟩
  all_goals exact ⟨(hgo _).claimed, (hgo _).profile⟩

/-- Outside the second sum and the long sleep nothing is asked. -/
theorem HandshakeInv.of_awake (h : s.monitor.drowsy = false) : HandshakeInv s := by
  refine ⟨fun hd => ?_, fun hd => ?_⟩ <;>
  · rw [h] at hd
    cases hd

/-- The monitor's steps into the second sum and the long sleep. -/
theorem poolMonitorFn_drowsy (hs : poolMonitorFn d s s.monitor = some s')
    (hd : s'.monitor.drowsy = true) :
    (s.monitor = .announce ∧ s' = { s with monDormindo := true, monitor := .pendingAgain 0 0 }) ∨
      ∃ i sum, s.monitor = .pendingAgain i sum ∧
        ((i + 1 < d.nCtrs ∧ s' = { s with monitor := .pendingAgain (i + 1) (sum + s.ctrs i) }) ∨
          ¬i + 1 < d.nCtrs ∧ sum + s.ctrs i = 0 ∧ s' = { s with monitor := .sleep true }) := by
  cases hm : s.monitor <;> rw [hm] at hs <;>
    simp only [poolMonitorFn, Option.some.injEq, reduceCtorEq] at hs
  case announce => exact .inl ⟨rfl, hs.symm⟩
  case pendingAgain i sum =>
    refine .inr ⟨i, sum, rfl, ?_⟩
    rcases poolTotalPending_cases (d := d) (s := s) i sum with ⟨hi, ht⟩ | ⟨hi, ht⟩ <;>
      rw [ht] at hs
    · exact .inl ⟨hi, hs.symm⟩
    · dsimp only at hs
      by_cases hz : sum + s.ctrs i = 0
      · rw [if_pos hz] at hs
        exact .inr ⟨hi, hz, hs.symm⟩
      · rw [if_neg hz] at hs
        subst hs
        cases hd
  case pending i sum =>
    subst hs
    rcases poolTotalPending_cases (d := d) (s := s) i sum with ⟨hi, ht⟩ | ⟨hi, ht⟩ <;>
      simp only [ht] at hd
    · cases hd
    · split_ifs at hd <;> cases hd
  case sleep =>
    split_ifs at hs
    cases hs
    cases hd
  case claim =>
    subst hs
    split_ifs at hd <;> cases hd
  case stopTest | perfil | awakeStop | stuckCount | fila | filaHead | elastic =>
    subst hs
    dsimp only at hd
    (try split_ifs at hd) <;> cases hd
  all_goals
    subst hs
    cases hd

theorem EconomyWatch.mem_unseenAfter {t : ℕ} (h : t ∈ x.unseenAfter s' l) :
    t ∈ x.unseen ∨ x.pool.raises l = some t := by
  unfold EconomyWatch.unseenAfter at h
  by_cases hann : x.pool.announces l = true
  · rw [if_pos hann] at h
    cases h
  · rw [if_neg hann] at h
    cases hr : x.pool.raises l with
    | none =>
      rw [hr] at h
      exact .inl h
    | some u =>
      simp only [hr] at h
      split_ifs at h
      · rcases List.mem_cons.mp h with rfl | h
        · exact .inr rfl
        · exact .inl h
      · exact .inl (List.mem_filter.mp h).1

/-- What holds of the watched pool in every run that is fair to the sleeper. -/
structure EconomyInv (d : PoolDims) (x : EconomyWatch ι) : Prop where
  wf : PoolWf d x.pool
  tasks : TaskInv x.pool
  handshake : HandshakeInv x.pool
  count : ∃ O : Finset ℕ, Census Place.counted x.pool.holds O ∧
    ∑ i ∈ Finset.range d.nCtrs, x.pool.ctrs i = O.card ∧
    ∀ i sum, x.pool.monitor = .pendingAgain i sum →
      i < d.nCtrs ∧ SumOk x.pool x.unseen x.mixed O i sum
  owed : ∀ i sum, x.pool.monitor = .pendingAgain i sum → ∀ t ∈ x.unseen,
    (t, true) ∈ x.pool.returned → x.pool.monSignal = true ∨ t ∈ x.inner
  asleep : x.pool.monitor = .sleep true → x.pool.monSignal = false →
    ∀ t, (t, true) ∈ x.pool.returned → t ∈ x.pool.finished

theorem finished_of_accepted {O : Finset ℕ} {t : ℕ} (hO : Census Place.counted s.holds O)
    (ht : s.Accepted t) (hnot : t ∉ O) : t ∈ s.finished := by
  obtain ⟨p, hacc, hp⟩ := ht
  have hc : p.counted = false := by
    by_contra hc
    exact hnot ((hO t).mpr ⟨p, by simpa using hc, hp⟩)
  cases p with
  | finished i =>
    have hmem := List.mem_of_getElem? hp
    exact List.mem_reverse.mp hmem
  | worker w sl => cases sl <;> simp [Place.accepted, Place.counted] at hacc hc
  | _ => simp [Place.accepted, Place.counted] at hacc hc

/-- A second sum that comes out as zero, and missed no task that matters, has seen every task of a
returned submit finished. -/
theorem EconomyInv.fall_asleep (h : EconomyInv d x) {i : ℕ} {sum : ℤ}
    (hm : x.pool.monitor = .pendingAgain i sum) (hi : ¬i + 1 < d.nCtrs)
    (hz : sum + x.pool.ctrs i = 0) (hmixed : x.mixed = false)
    (hinner : ∀ t ∈ x.unseen, t ∈ x.inner → t ∈ x.pool.finished)
    (hsig : x.pool.monSignal = false) :
    ∀ t, (t, true) ∈ x.pool.returned → t ∈ x.pool.finished := by
  obtain ⟨O, hO, hcard, hscan⟩ := h.count
  obtain ⟨hlt, hok⟩ := hscan i sum hm
  -- every counted task is one that the sum missed
  have hunseen : ∀ t ∈ O, t ∈ x.unseen := by
    have hsum := hok hmixed
    have hlast : d.nCtrs = i + 1 := by omega
    rw [hlast, Finset.sum_range_succ] at hcard
    have hle : O.card ≤ (O.filter fun t => t ∈ x.unseen).card := by omega
    have heq := Finset.eq_of_subset_of_card_le (Finset.filter_subset (fun t => t ∈ x.unseen) O) hle
    intro t ht
    rw [← heq] at ht
    exact (Finset.mem_filter.mp ht).2
  intro t ht
  by_cases hO' : t ∈ O
  · rcases h.owed i sum hm t (hunseen t hO') ht with hset | hin
    · rw [hsig] at hset
      cases hset
    · exact hinner t (hunseen t hO') hin
  · exact finished_of_accepted hO (h.tasks.answered t ht) hO'

section Step
variable [DecidableEq ι]

/-- What a step of another thread adds to the answers, while the monitor sums or sleeps. -/
theorem EconomyInv.answers (h : EconomyInv d x) (hd : x.pool.monitor.drowsy = true)
    (hfair : SleepFair d x l) (hs : poolStep d x.pool l = some s') (hl : l ≠ .monitor) :
    (x.pool.monSignal = true → s'.monSignal = true ∨ s'.monitor.drowsy = false) ∧
      (∀ t, (t, true) ∈ s'.returned → (t, true) ∈ x.pool.returned ∨ s'.monSignal = true ∨
        x.pool.accepts d l = some t) ∧
      ∀ t ∈ x.pool.finished, t ∈ s'.finished := by
  cases hm : l.mover with
  | some w =>
    have hk := poolStep_monKept hm hs
    obtain ⟨hret, hfin⟩ := poolStep_accepts hm hs
    refine ⟨fun hsig => .inl (hk.signal.trans hsig), fun t ht => ?_, hfin⟩
    rcases hret t ht with ht | ht
    · exact .inl ht
    · exact .inr (.inr ht)
  | none =>
    cases l with
    | call c k =>
      simp only [poolStep] at hs
      split at hs <;> simp only [Option.some.injEq, reduceCtorEq] at hs
      subst hs
      cases k <;> exact ⟨fun hsig => .inl hsig, fun _ ht => .inl ht, fun _ ht => ht⟩
    | client c b =>
      have ht := poolClient_told hs
      refine ⟨fun hsig => .inl (ht.signal hsig), fun t hret => ?_, fun t hfin => ?_⟩
      · rcases ht.returned t hret with hret | hsig | ⟨hask, hdorm⟩
        · exact .inl hret
        · exact .inr (.inl hsig)
        · refine .inr (.inl (ht.signal ?_))
          exact h.handshake.signalled hd hdorm fun hsig => hfair hask hd hsig hdorm
      · rw [ht.finished]
        exact hfin
    | monitorLapse clear =>
      simp only [poolStep] at hs
      split at hs <;> simp only [Option.some.injEq, reduceCtorEq] at hs
      subst hs
      refine ⟨fun _ => .inr ?_, fun _ ht => .inl ht, fun _ ht => ht⟩
      cases clear <;> rfl
    | monitor => exact absurd rfl hl
    | _ => cases hm

omit [DecidableEq ι] in
theorem announces_of_ne (hl : l ≠ .monitor) : x.pool.announces l = false := by
  cases l with
  | monitor => exact absurd rfl hl
  | _ => rfl

theorem poolStep_monitor_cases (hs : poolStep d s l = some s') (hl : l ≠ .monitor) :
    s'.monitor = s.monitor ∨ s'.monitor.drowsy = false := by
  cases hm : l.mover with
  | some w => exact .inl (poolStep_monKept hm hs).monitor
  | none =>
    cases l with
    | call c k =>
      simp only [poolStep] at hs
      split at hs <;> simp only [Option.some.injEq, reduceCtorEq] at hs
      subst hs
      cases k <;> exact .inl rfl
    | client c b => exact .inl (poolClient_told hs).monitor
    | monitorLapse clear =>
      simp only [poolStep] at hs
      split at hs <;> simp only [Option.some.injEq, reduceCtorEq] at hs
      subst hs
      cases clear <;> exact .inr rfl
    | monitor => exact absurd rfl hl
    | _ => cases hm

theorem HandshakeInv.step (h : HandshakeInv x.pool) (hfair : SleepFair d x l)
    (hs : poolStep d x.pool l = some s') : HandshakeInv s' := by
  cases hm : l.mover with
  | some w =>
    refine h.of_kept (poolStep_monKept hm hs) (funext fun c => poolStep_clients hs ?_ ?_)
    · rintro k rfl
      cases hm
    · rintro b rfl
      cases hm
  | none =>
    cases l with
    | call c k => exact h.call hs
    | client c b => exact h.client hs hfair
    | monitorLapse clear =>
      apply HandshakeInv.of_awake
      simp only [poolStep] at hs
      split at hs <;> simp only [Option.some.injEq, reduceCtorEq] at hs
      subst hs
      cases clear <;> rfl
    | monitor =>
      by_cases hd : s'.monitor.drowsy = true
      · rcases poolMonitorFn_drowsy hs hd with ⟨hm, rfl⟩ | ⟨i, sum, hm, hgo⟩
        · -- the announcement
          simp only [SleepFair, hm] at hfair
          exact ⟨fun _ => .inl rfl, fun _ => .inr hfair⟩
        · have hdrowsy : x.pool.monitor.drowsy = true := by
            rw [hm]
            rfl
          rcases hgo with ⟨-, rfl⟩ | ⟨-, -, rfl⟩
          · exact ⟨fun _ => h.claimed hdrowsy, fun _ => h.profile hdrowsy⟩
          · exact ⟨fun _ => h.claimed hdrowsy, fun _ => h.profile hdrowsy⟩
      · exact .of_awake (by simpa using hd)
    | _ => cases hm

theorem EconomyInv.other (h : EconomyInv d x) (hfair : SleepFair d x l)
    (hs : economyWatchStep d x l = some x') (hl : l ≠ .monitor) : EconomyInv d x' := by
  obtain ⟨s', hp, rfl⟩ := Option.map_eq_some_iff.mp hs
  have hann : x.pool.announces l = false := announces_of_ne hl
  obtain ⟨O, hO, hsum, hscan⟩ := h.count
  obtain ⟨O', hO', hsum', hok⟩ := poolStep_sumOk h.wf h.tasks hp hann hO hsum
  have hmon := poolStep_monitor_cases hp hl
  have hsame : s'.monitor.drowsy = true → s'.monitor = x.pool.monitor := fun hd =>
    hmon.resolve_right (by rw [hd]; nofun)
  refine ⟨poolStep_wf h.wf hp, h.tasks.step (poolStep_flow h.wf hp) (poolStep_answers h.wf hp),
    h.handshake.step hfair hp, ⟨O', hO', hsum', fun i sum hm => ?_⟩, fun i sum hm t ht hret => ?_,
    fun hm hsig t hret => ?_⟩
  · have hm' := (hsame (by rw [hm]; rfl)).symm.trans hm
    obtain ⟨hi, hscan⟩ := hscan i sum hm'
    have hnext := hok sum
    rw [hm'] at hnext
    exact ⟨hi, hnext hscan⟩
  · have hm' := (hsame (by rw [hm]; rfl)).symm.trans hm
    obtain ⟨hkeep, hans, -⟩ := h.answers (by rw [hm']; rfl) hfair hp hl
    have hsignal : x.pool.monSignal = true → s'.monSignal = true := fun hsig =>
      (hkeep hsig).resolve_right (by rw [hm]; nofun)
    have hinner : x.innerAfter d l = (x.pool.accepts d l).toList ++ x.inner := by
      unfold EconomyWatch.innerAfter
      rw [hann]
      rfl
    dsimp only
    rw [hinner]
    rcases hans t hret with hret | hset | hacc
    · rcases x.mem_unseenAfter ht with ht | hr
      · exact (h.owed i sum hm' t ht hret).imp hsignal (List.mem_append_right _)
      · -- a task that is counted only now has no answer yet
        obtain ⟨⟨a, hac, haa, ha⟩, -⟩ := poolStep_raised hp hr
        obtain ⟨p, hpacc, hp⟩ := h.tasks.answered t hret
        rw [h.tasks.once p a t hp ha, haa] at hpacc
        cases hpacc
    · exact .inl hset
    · right
      rw [hacc]
      exact List.mem_append_left _ List.mem_cons_self
  · have hm' := (hsame (by rw [hm]; rfl)).symm.trans hm
    obtain ⟨hkeep, hans, hfin⟩ := h.answers (by rw [hm']; rfl) hfair hp hl
    have hsig' : x.pool.monSignal = false := by
      by_contra hset
      rcases hkeep (by simpa using hset) with hset | hd
      · exact Bool.false_ne_true (hsig.symm.trans hset)
      · rw [hm] at hd
        cases hd
    rcases hans t hret with hret | hset | hacc
    · exact hfin t (h.asleep hm' hsig' t hret)
    · exact absurd (hsig.symm.trans hset) Bool.false_ne_true
    · cases l with
      | worker w b =>
        have hnone := hfair (by rw [hm']; rfl) hsig'
        rw [hnone] at hacc
        cases hacc
      | _ => cases hacc

theorem EconomyInv.monitor (h : EconomyInv d x) (hfair : SleepFair d x .monitor)
    (hs : economyWatchStep d x .monitor = some x') : EconomyInv d x' := by
  obtain ⟨s', hp, rfl⟩ := Option.map_eq_some_iff.mp hs
  have hwf := poolStep_wf h.wf hp
  have htasks := h.tasks.step (poolStep_flow h.wf hp) (poolStep_answers h.wf hp)
  have hhand := h.handshake.step hfair hp
  obtain ⟨O, hO, hsum, hscan⟩ := h.count
  by_cases hd : s'.monitor.drowsy = true
  · rcases poolMonitorFn_drowsy hp hd with ⟨hm, rfl⟩ | ⟨i, sum, hm, hgo⟩
    · have hann : x.pool.announces .monitor = true := by simp only [PoolState.announces, hm]
      refine ⟨hwf, htasks, hhand, ⟨O, hO, hsum, fun i sum hi => ?_⟩, fun i sum _ t ht => ?_, nofun⟩
      · cases hi
        refine ⟨Nat.add_pos_left d.shards_pos _, fun _ => ?_⟩
        rw [Finset.sum_range_zero, zero_add]
        exact Int.natCast_nonneg _
      · unfold EconomyWatch.unseenAfter at ht
        rw [if_pos hann] at ht
        cases ht
    · have hann : x.pool.announces .monitor = false := by simp only [PoolState.announces, hm]
      have hunseen : ∀ s₁, x.unseenAfter s₁ .monitor = x.unseen := fun s₁ => by
        unfold EconomyWatch.unseenAfter
        rw [hann]
        rfl
      have hmixed : ∀ s₁, x.mixedAfter s₁ .monitor = x.mixed := fun s₁ => by
        unfold EconomyWatch.mixedAfter
        rw [hann]
        exact Bool.or_false _
      have hinner : x.innerAfter d .monitor = x.inner := by
        unfold EconomyWatch.innerAfter
        rw [hann]
        rfl
      rcases hgo with ⟨hi, rfl⟩ | ⟨hi, hz, rfl⟩
      · refine ⟨hwf, htasks, hhand, ⟨O, hO, hsum, fun j sum' hj => ?_⟩,
          fun j sum' hj t ht hret => ?_, nofun⟩
        · cases hj
          refine ⟨hi, fun hmix => ?_⟩
          dsimp only at hmix ⊢
          rw [hmixed] at hmix
          rw [hunseen, Finset.sum_range_succ]
          have hprefix := (hscan i sum hm).2 hmix
          omega
        · dsimp only at ht ⊢
          rw [hunseen] at ht
          rw [hinner]
          exact h.owed i sum hm t ht hret
      · simp only [SleepFair, hm] at hfair
        obtain ⟨hmix, hdone⟩ := hfair hi hz
        refine ⟨hwf, htasks, hhand, ⟨O, hO, hsum, nofun⟩, nofun, fun _ hsig => ?_⟩
        exact h.fall_asleep hm hi hz hmix hdone hsig
  · have hann : x.pool.announces .monitor = false := by
      simp only [PoolState.announces]
      split
      · rename_i hm
        change poolMonitorFn d x.pool x.pool.monitor = some s' at hp
        rw [hm] at hp
        cases hp
        exact absurd rfl hd
      · rfl
    obtain ⟨O', hO', hsum', -⟩ := poolStep_sumOk h.wf h.tasks hp hann hO hsum
    refine ⟨hwf, htasks, hhand, ⟨O', hO', hsum', fun i sum hm => ?_⟩, fun i sum hm => ?_,
      fun hm => ?_⟩
    all_goals
      rw [hm] at hd
      exact absurd rfl hd

theorem economyWatch_inv (hr : (economyWatch d).ReachableWhen (SleepFair d) x) :
    EconomyInv d x := by
  refine System.ReachableWhen.invariant (fun x₀ hi => ?_) (fun x₀ l x₁ h hfair hs => ?_) hr
  · obtain rfl : x₀ = _ := hi
    refine ⟨poolCreateRelative_wf d, poolCreateRelative_tasks d, .of_awake rfl,
      ⟨∅, fun k => ?_, ?_, nofun⟩, nofun, nofun⟩
    · simp [holds_poolCreateRelative]
    · simp [poolCreateRelative]
  · by_cases hl : l = .monitor
    · subst hl
      exact h.monitor hfair hs
    · exact h.other hfair hs hl

end Step

theorem ClientPc.inPerfil_of_telling {p : ClientPc} (h : p.telling = true) :
    p.inPerfil = true := by
  cases p <;> first | rfl | cases h

/-- The handshake of the long sleep holds in every run that is fair to the sleeper. -/
theorem poolMonitor_sleep_safe [DecidableEq ι] (d : PoolDims)
    (hr : (economyWatch d).ReachableWhen (SleepFair d) x) : x.pool.SleepSafe := by
  have h := economyWatch_inv hr
  intro hm hsig
  refine ⟨?_, h.asleep hm hsig⟩
  rcases h.handshake.profile (by rw [hm]; rfl) with hset | heco | ⟨c, hc⟩
  · exact absurd (hsig.symm.trans hset) Bool.false_ne_true
  · exact .inl heco
  · exact .inr ⟨c, ClientPc.inPerfil_of_telling hc⟩

/-! ### Runs -/

instance [Fintype ι] (d : PoolDims) (x : EconomyWatch ι) :
    (l : PoolLabel ι) → Decidable (SleepFair d x l)
  | .monitor => by
    unfold SleepFair
    dsimp only
    split <;> infer_instance
  | .worker _ _ => inferInstanceAs (Decidable (_ → _ → _))
  | .client _ _ => inferInstanceAs (Decidable (_ → _ → _ → _ → _))
  | .call _ _ | .spawn _ | .finish _ | .lapse _ _ _ | .monitorLapse _ => .isTrue trivial

def toEconomy : List (PoolLabel Unit) :=
  [.call () (.perfil true)] ++ List.replicate 3 (.client () false)

def oneTask : List (PoolLabel Unit) :=
  [.call () .submit] ++ List.replicate 9 (.client () true) ++
    List.replicate 8 (.worker 0 false) ++ [.finish 0] ++ List.replicate 3 (.worker 0 false)

/-- A task is over, another is submitted while the monitor adds up the counters again, and it is
over too when the monitor has slept and woken. -/
theorem poolMonitor_sleep_safe_idle : ∃ x : EconomyWatch Unit,
    (economyWatch .single).ReachableWhen (SleepFair .single) x ∧ x.pool.monitor = .sleep true ∧
      x.pool.monSignal = false ∧ x.pool.returned = [(0, true)] ∧ x.pool.SleepSafe := by
  have hout : ((economyWatch .single).execWhen (SleepFair .single)
      ⟨poolCreateRelative .single, [], false, []⟩
      (List.flatten [toEconomy, oneTask, [.client () false], List.replicate 9 .monitor])).map
        (fun x => (x.pool.monitor.slumber, x.pool.monSignal, x.pool.returned)) =
      some (some true, false, [(0, true)]) := by decide +kernel
  obtain ⟨x, hrun, hx⟩ := Option.map_eq_some_iff.mp hout
  simp only [Prod.mk.injEq] at hx
  have hr : (economyWatch .single).ReachableWhen (SleepFair .single) x := .exec (.init rfl) hrun
  exact ⟨x, hr, MonitorPc.eq_sleep hx.1, hx.2.1, hx.2.2, poolMonitor_sleep_safe .single hr⟩

/-- The profile goes back to performance between the monitor's read of it and the announcement: the
change finds nothing announced, and the monitor goes to its long sleep. -/
def missedPerfil : List (PoolLabel Unit) :=
  toEconomy ++ List.replicate 3 .monitor ++ [.call () (.perfil false)] ++
    List.replicate 3 (.client () false) ++ List.replicate 6 .monitor

/-- A task is submitted before the announcement and runs while the counters are added up again. It
submits two more: the counter that goes up has been read, and the second worker takes one of the two
off a counter that has not. -/
def missedTask : List (PoolLabel Unit) :=
  toEconomy ++ List.replicate 6 .monitor ++ [.call () .submit] ++
    List.replicate 10 (.client () true) ++ List.replicate 8 (.worker 0 false) ++
    List.replicate 4 .monitor ++ [.spawn 0] ++ List.replicate 3 (.worker 0 false) ++ [.spawn 0] ++
    List.replicate 5 (.worker 0 false) ++ List.replicate 7 (.worker 1 false) ++ [.finish 1] ++
    List.replicate 3 (.worker 1 false) ++ [.monitor]

/-- The long sleep in the performance profile, and the long sleep over a running task. -/
theorem poolMonitor_sleep_unsafe :
    (∃ s : PoolState Unit, (poolSystem .single).Reachable s ∧ s.monDormindo = true ∧
      s.economia = false ∧ s.clients () = .idle ∧ ¬s.SleepSafe) ∧
    ∃ s : PoolState Unit, (poolSystem .pair).Reachable s ∧ s.economia = true ∧
      (0, true) ∈ s.returned ∧ 0 ∉ s.finished ∧ ¬s.SleepSafe := by
  constructor
  · have hout : ((poolSystem .single).exec (poolCreateRelative .single) missedPerfil).map
        (fun s => (s.monitor.slumber, s.monSignal, s.monDormindo, s.economia, s.clients ())) =
        some (some true, false, true, false, .idle) := by decide +kernel
    obtain ⟨s, hrun, hx⟩ := Option.map_eq_some_iff.mp hout
    simp only [Prod.mk.injEq] at hx
    obtain ⟨hm, hsig, hdorm, heco, hidle⟩ := hx
    refine ⟨s, System.Reachable.exec (.init rfl) hrun, hdorm, heco, hidle, fun hsafe => ?_⟩
    rcases (hsafe (MonitorPc.eq_sleep hm) hsig).1 with hset | ⟨c, hc⟩
    · exact Bool.false_ne_true (heco.symm.trans hset)
    · rw [show s.clients c = .idle from hidle] at hc
      cases hc
  · have hout : ((poolSystem .pair).exec (poolCreateRelative .pair) missedTask).map
        (fun s => ((s.monitor.slumber, s.monSignal, s.economia), s.returned, s.finished)) =
        some ((some true, false, true), [(2, true), (1, true), (0, true)], [1]) := by
      decide +kernel
    obtain ⟨s, hrun, hx⟩ := Option.map_eq_some_iff.mp hout
    simp only [Prod.mk.injEq] at hx
    obtain ⟨⟨hm, hsig, heco⟩, hret, hfin⟩ := hx
    have hin : (0, true) ∈ s.returned := by
      rw [hret]
      decide
    have hout : 0 ∉ s.finished := by
      rw [hfin]
      decide
    refine ⟨s, System.Reachable.exec (.init rfl) hrun, heco, hin, hout, fun hsafe => ?_⟩
    exact hout ((hsafe (MonitorPc.eq_sleep hm) hsig).2 0 hin)

end Xplatbase.ThreadPool
