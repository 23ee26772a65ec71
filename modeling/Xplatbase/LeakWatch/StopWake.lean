import Xplatbase.LeakWatch.Watch

/-! Stopping a running watch: when the wake of `mem_leak_watch_stop` reaches the monitor, and the
one placement in which the monitor sleeps on. -/
namespace Xplatbase.LeakWatch
open Xplatbase.Lib

variable {ι : Type*} [DecidableEq ι] {s s' : WatchState ι} {l : WatchLabel ι} {m : ℕ}

/-- The watch runs with monitor `m`, and no call is under way. -/
def watching (ι : Type*) (m : ℕ) : WatchState ι where
  running := true
  enabled := true
  recording := true
  signal := false
  thread := some m
  monitors := Function.update (fun _ => none) m (some .checking)
  joins := fun _ => 0
  calls := fun _ => .idle
  last := some .start

/-- The monitor and calls of `mem_leak_watch_stop`. -/
def stopSystem (ι : Type*) [DecidableEq ι] (m : ℕ) : System (WatchState ι) (WatchLabel ι) where
  init := fun s => s = watching ι m
  step := fun s l =>
    match l with
    | .start _ _ => none
    | l => watchStep s l

/-- No wake while the monitor has tested `g_running` and not yet reset the signal. -/
def WakeHeard (m : ℕ) (s : WatchState ι) : WatchLabel ι → Prop
  | .call i _ => s.calls i = .waking → s.monitors m ≠ some .preparing
  | _ => True

instance (m : ℕ) (s : WatchState ι) : (l : WatchLabel ι) → Decidable (WakeHeard m s l)
  | .call i _ => inferInstanceAs (Decidable (s.calls i = .waking → s.monitors m ≠ some .preparing))
  | .start .. => inferInstanceAs (Decidable True)
  | .stop _ => inferInstanceAs (Decidable True)
  | .monitor .. => inferInstanceAs (Decidable True)

/-- A stop has woken the monitor and waits for its end, and the monitor sleeps until its timeout. -/
def SleepsThrough (m : ℕ) (s : WatchState ι) : Prop :=
  s.running = false ∧ (∃ i, s.calls i = .reading ∨ ∃ t, s.calls i = .joining t) ∧
    s.monitors m = some .sleeping ∧ s.signal = false

/-- While the watch runs no stop is under way; afterwards one at most is, and before its wake is
heard the monitor is still to be woken. -/
structure StopInv (m : ℕ) (s : WatchState ι) : Prop where
  only : ∀ k, k ≠ m → s.monitors k = none
  pc : ∀ i, s.calls i = .idle ∨ (s.calls i).Stopping
  idle : s.running = true → ∀ i, s.calls i = .idle
  single : ∀ i j, s.calls i ≠ .idle → s.calls j ≠ .idle → i = j
  heard : s.running = false → (∃ i, s.calls i = .waking) ∨
    (s.monitors m ≠ some .preparing ∧ (s.monitors m = some .sleeping → s.signal = true))

omit [DecidableEq ι] in
theorem StopInv.init (m : ℕ) : StopInv m (watching ι m) where
  only := by
    intro k hk
    simp only [watching, Function.update_of_ne hk]
  pc := fun _ => Or.inl rfl
  idle := fun _ _ => rfl
  single := fun _ _ hi => absurd rfl hi
  heard := nofun

namespace StopInv

/-- The stop moves on, or returns, without touching the signal after its wake. -/
theorem advance (h : StopInv m s) {i : ι} (pc : CallPc) (hi : s.calls i ≠ .idle)
    (hpc : pc = .idle ∨ pc.Stopping) (hcalls : s'.calls = Function.update s.calls i pc)
    (honly : ∀ k, k ≠ m → s'.monitors k = none) (hrunning : s'.running = false)
    (hheard : s'.monitors m ≠ some .preparing ∧ (s'.monitors m = some .sleeping → s'.signal = true)) :
    StopInv m s' := by
  constructor
  · exact honly
  · intro j
    rw [hcalls]
    by_cases hj : j = i
    · rw [hj, Function.update_self]
      exact hpc
    · rw [Function.update_of_ne hj]
      exact h.pc j
  · intro hr
    rw [hrunning] at hr
    cases hr
  · have hother : ∀ j, s'.calls j ≠ .idle → j = i := by
      intro j hj
      by_contra hne
      rw [hcalls, Function.update_of_ne hne] at hj
      exact hne (h.single j i hj hi)
    intro j k hj hk
    rw [hother j hj, hother k hk]
  · intro
    exact Or.inr hheard

omit [DecidableEq ι] in
theorem monitor (h : StopInv m s) {k : ℕ} {timeout : Bool} {pc : MonitorPc}
    (hpc : s.monitors k = some pc) (hs : monitorLoop s k timeout pc = some s') : StopInv m s' := by
  obtain rfl : k = m := by
    by_contra hk
    rw [h.only k hk] at hpc
    cases hpc
  have hkeep : ∀ (b : Bool) (pc' : MonitorPc),
      ((s.running = false → (∃ i, s.calls i = .waking) ∨
        (pc' ≠ .preparing ∧ (pc' = .sleeping → b = true)))) →
      StopInv k ({ s with signal := b }.setMonitor k pc') := by
    intro b pc' hheard
    constructor
    · intro j hj
      exact (Function.update_of_ne hj ..).trans (h.only j hj)
    · exact h.pc
    · exact h.idle
    · exact h.single
    · intro hr
      simp only [WatchState.setMonitor, Function.update_self, ne_eq, Option.some.injEq]
      exact hheard hr
  have hheard : s.running = false → (∃ i, s.calls i = .waking) ∨
      (pc ≠ .preparing ∧ (pc = .sleeping → s.signal = true)) := by
    intro hr
    have hold := h.heard hr
    simpa only [hpc, ne_eq, Option.some.injEq] using hold
  cases pc with
  | checking =>
    obtain rfl := Option.some.inj hs
    apply hkeep s.signal
    intro hr
    rw [hr]
    exact Or.inr ⟨by simp, by simp⟩
  | preparing =>
    obtain rfl := Option.some.inj hs
    apply hkeep false
    intro hr
    rcases hheard hr with hw | ⟨hne, -⟩
    · exact Or.inl hw
    · exact absurd rfl hne
  | sleeping =>
    simp only [monitorLoop] at hs
    split_ifs at hs
    obtain rfl := Option.some.inj hs
    apply hkeep false
    intro hr
    exact Or.inr ⟨by simp, by simp⟩
  | rechecking =>
    obtain rfl := Option.some.inj hs
    apply hkeep s.signal
    intro hr
    rw [hr]
    exact Or.inr ⟨by simp, by simp⟩
  | scanning =>
    obtain rfl := Option.some.inj hs
    apply hkeep s.signal
    intro hr
    exact Or.inr ⟨by simp, by simp⟩
  | exited => cases hs

theorem call (h : StopInv m s) {i : ι} {created : Option ℕ}
    (hok : WakeHeard m s (.call i created))
    (hs : callStep s i created (s.calls i) = some s') : StopInv m s' := by
  have hrunning : s.calls i ≠ .idle → s.running = false := by
    intro hi
    by_contra hr
    exact hi (h.idle (Bool.eq_true_of_not_eq_false hr) i)
  have hlate : s.calls i ≠ .idle → s.calls i ≠ .waking →
      s.monitors m ≠ some .preparing ∧ (s.monitors m = some .sleeping → s.signal = true) := by
    intro hi hw
    rcases h.heard (hrunning hi) with ⟨j, hj⟩ | hheard
    · rw [h.single j i (by rw [hj]; simp) hi] at hj
      exact absurd hj hw
    · exact hheard
  have hpc := h.pc i
  cases hi : s.calls i with
  | idle =>
    rw [hi] at hs
    cases hs
  | waking =>
    rw [hi] at hs
    obtain rfl := Option.some.inj hs
    have hne : s.calls i ≠ .idle := by rw [hi]; simp
    exact h.advance .reading hne (Or.inr trivial) rfl h.only (hrunning hne)
      ⟨hok hi, fun _ => rfl⟩
  | reading =>
    rw [hi] at hs
    have hne : s.calls i ≠ .idle := by rw [hi]; simp
    have hheard := hlate hne (by rw [hi]; simp)
    simp only [callStep] at hs
    split at hs
    · obtain rfl := Option.some.inj hs
      exact h.advance .silencing hne (Or.inr trivial) rfl h.only (hrunning hne) hheard
    · rename_i t ht
      obtain rfl := Option.some.inj hs
      exact h.advance (.joining t) hne (Or.inr trivial) rfl h.only (hrunning hne) hheard
  | joining t =>
    rw [hi] at hs
    have hne : s.calls i ≠ .idle := by rw [hi]; simp
    have hheard := hlate hne (by rw [hi]; simp)
    simp only [callStep] at hs
    split_ifs at hs
    obtain rfl := Option.some.inj hs
    exact h.advance .clearing hne (Or.inr trivial) rfl h.only (hrunning hne) hheard
  | clearing =>
    rw [hi] at hs
    have hne : s.calls i ≠ .idle := by rw [hi]; simp
    have hheard := hlate hne (by rw [hi]; simp)
    obtain rfl := Option.some.inj hs
    exact h.advance .silencing hne (Or.inr trivial) rfl h.only (hrunning hne) hheard
  | silencing =>
    rw [hi] at hs
    have hne : s.calls i ≠ .idle := by rw [hi]; simp
    have hheard := hlate hne (by rw [hi]; simp)
    obtain rfl := Option.some.inj hs
    exact h.advance .closing hne (Or.inr trivial) rfl h.only (hrunning hne) hheard
  | closing =>
    rw [hi] at hs
    have hne : s.calls i ≠ .idle := by rw [hi]; simp
    have hheard := hlate hne (by rw [hi]; simp)
    obtain rfl := Option.some.inj hs
    exact h.advance .idle hne (Or.inl rfl) rfl h.only (hrunning hne) hheard
  | _ =>
    rw [hi] at hpc
    rcases hpc with hidle | hstop
    · cases hidle
    · exact hstop.elim

theorem step (h : StopInv m s) (hok : WakeHeard m s l) (hs : (stopSystem ι m).step s l = some s') :
    StopInv m s' := by
  cases l with
  | start i enabled => cases hs
  | stop i =>
    simp only [stopSystem, watchStep] at hs
    split_ifs at hs with hi hr
    · obtain rfl := Option.some.inj hs
      have hidle := h.idle hr
      have hother : ∀ j, (Function.update s.calls i .waking) j ≠ .idle → j = i := by
        intro j hj
        by_contra hne
        rw [Function.update_of_ne hne] at hj
        exact hj (hidle j)
      refine ⟨h.only, ?_, nofun, ?_, ?_⟩
      · intro j
        simp only [WatchState.setCall]
        by_cases hj : j = i
        · rw [hj, Function.update_self]
          exact Or.inr trivial
        · rw [Function.update_of_ne hj]
          exact Or.inl (hidle j)
      · intro j k hj hk
        rw [hother j hj, hother k hk]
      · intro
        exact Or.inl ⟨i, Function.update_self ..⟩
    · obtain rfl := Option.some.inj hs
      exact h
  | call i created => exact h.call hok hs
  | monitor k timeout =>
    simp only [stopSystem, watchStep] at hs
    split at hs
    · cases hs
    · rename_i pc hpc
      exact h.monitor hpc hs

end StopInv

/-- In every run in which no wake falls between the test of `g_running` and the reset of the
signal, the monitor never sleeps through the wake. -/
theorem stop_wakes_monitor (h : (stopSystem ι m).ReachableWhen (WakeHeard m) s) :
    ¬SleepsThrough m s := by
  have hinv : StopInv m s := by
    apply h.invariant
    · rintro s rfl
      exact .init m
    · intro s l s' hs hok hstep
      exact hs.step hok hstep
  rintro ⟨hrunning, ⟨i, hi⟩, hsleeping, hsignal⟩
  have hactive : s.calls i ≠ .idle := by
    rcases hi with hi | ⟨t, hi⟩ <;> rw [hi] <;> simp
  rcases hinv.heard hrunning with ⟨j, hj⟩ | ⟨-, hwoken⟩
  · have hji := hinv.single j i (by rw [hj]; simp) hactive
    rw [hji] at hj
    rcases hi with hi | ⟨t, hi⟩ <;> rw [hi] at hj <;> cases hj
  · rw [hwoken hsleeping] at hsignal
    cases hsignal

/-- The monitor sleeps when the stop comes, and ends. -/
theorem stop_wakes_monitor_sleeping :
    ∃ s : WatchState Unit, (stopSystem Unit 0).ReachableWhen (WakeHeard 0) s ∧
      s.running = false ∧ s.calls () = .joining 0 ∧ s.monitors 0 = some .exited ∧
      ¬SleepsThrough 0 s := by
  have hout : ((stopSystem Unit 0).execWhen (WakeHeard 0) (watching Unit 0)
      [.monitor 0 false, .monitor 0 false, .stop (), .call () none, .call () none,
        .monitor 0 false, .monitor 0 false]).map
      (fun s => (s.running, s.calls (), s.monitors 0)) =
        some (false, .joining 0, some .exited) := by
    decide +kernel
  obtain ⟨s, hrun, hs⟩ := Option.map_eq_some_iff.mp hout
  obtain ⟨hrunning, hs⟩ := Prod.mk.inj hs
  obtain ⟨hcall, hmonitor⟩ := Prod.mk.inj hs
  have hreach : (stopSystem Unit 0).ReachableWhen (WakeHeard 0) s := .exec (.init rfl) hrun
  exact ⟨s, hreach, hrunning, hcall, hmonitor, stop_wakes_monitor hreach⟩

/-- The stop resets `g_running` and wakes between the test and the reset of the signal. -/
theorem stop_wakes_monitor_not :
    ∃ s : WatchState Unit, (stopSystem Unit 0).Reachable s ∧ SleepsThrough 0 s := by
  have hout : ((stopSystem Unit 0).exec (watching Unit 0)
      [.monitor 0 false, .stop (), .call () none, .monitor 0 false, .call () none]).map
      (fun s => (s.running, s.calls (), s.monitors 0, s.signal)) =
        some (false, .joining 0, some .sleeping, false) := by
    decide +kernel
  obtain ⟨s, hrun, hs⟩ := Option.map_eq_some_iff.mp hout
  obtain ⟨hrunning, hs⟩ := Prod.mk.inj hs
  obtain ⟨hcall, hs⟩ := Prod.mk.inj hs
  obtain ⟨hmonitor, hsignal⟩ := Prod.mk.inj hs
  exact ⟨s, .exec (.init rfl) hrun, hrunning, ⟨(), Or.inr ⟨0, hcall⟩⟩, hmonitor, hsignal⟩

end Xplatbase.LeakWatch
