import Mathlib.Tactic.Common
import Xplatbase.ThreadPool.PoolTimer

/-! Every use of the timer is one pool's, and the timer is raised while there is one. -/
namespace Xplatbase.ThreadPool.Timer
open Xplatbase.Lib

variable {s s' : TimerState} {t t' : SystemTimer} {p p' : TimerPool}

/-- The timer was raised once more than lowered while it has users, and as often otherwise. -/
def SystemTimer.Balanced (t : SystemTimer) : Prop :=
  t.begins = t.ends + if 0 < t.users then 1 else 0

theorem threadWaitInit_users (t : SystemTimer) (begun : Bool) :
    (threadWaitInit t begun).2.users = t.users + (threadWaitInit t begun).1.toNat := by
  unfold threadWaitInit
  by_cases hu : t.users = 0
  · rw [if_pos hu]
    cases begun with
    | false => rfl
    | true => rfl
  · rw [if_neg hu]
    rfl

theorem threadWaitInit_balanced (h : t.Balanced) (begun : Bool) :
    (threadWaitInit t begun).2.Balanced := by
  unfold SystemTimer.Balanced at h
  unfold threadWaitInit
  by_cases hu : t.users = 0
  · rw [if_pos hu]
    rw [hu, if_neg (by omega)] at h
    cases begun with
    | false =>
      unfold SystemTimer.Balanced
      rw [if_neg (by simp)]
      dsimp only
      rw [hu, if_neg (by omega)]
      exact h
    | true =>
      unfold SystemTimer.Balanced
      rw [if_pos rfl]
      dsimp only
      rw [if_pos (by omega), h]
  · rw [if_neg hu]
    unfold SystemTimer.Balanced
    dsimp only
    rw [if_pos (by omega)] at h ⊢
    exact h

theorem threadWaitShutdown_users (hu : 0 < t.users) :
    (threadWaitShutdown t).users + 1 = t.users := by
  unfold threadWaitShutdown
  rw [if_pos hu]
  dsimp only
  omega

theorem threadWaitShutdown_balanced (h : t.Balanced) : (threadWaitShutdown t).Balanced := by
  unfold SystemTimer.Balanced at h
  unfold threadWaitShutdown
  by_cases hu : 0 < t.users
  · rw [if_pos hu] at h
    rw [if_pos hu]
    unfold SystemTimer.Balanced
    dsimp only
    by_cases hlast : t.users - 1 = 0
    · rw [if_pos hlast, if_neg (by omega)]
      exact h
    · rw [if_neg hlast, if_pos (by omega)]
      exact h
  · rw [if_neg hu]
    exact h

/-- While the creation of a pool is before the start of its monitor there is none, and the
destruction is past its join only when it has ended. -/
def OwnerPc.Fits (pc : OwnerPc) (p : TimerPool) : Prop :=
  match pc with
  | .allocating => p.wait_inited = false ∧ p.monitor = .absent
  | .initing => p.wait_inited = false ∧ p.monitor = .absent
  | .inited _ => p.wait_inited = false ∧ p.monitor = .absent
  | .building => p.monitor = .absent
  | .starting => p.monitor = .absent
  | .live => True
  | .waiting => True
  | .joining => True
  | .closing => p.monitor = .absent ∨ p.monitor = .exited
  | .closed => p.monitor = .absent ∨ p.monitor = .exited
  | .freed => p.monitor = .absent ∨ p.monitor = .exited
  | .crashed => p.wait_inited = false ∧ p.monitor = .absent

/-- The monitor releases the timer when its pool holds it, and asks for it when it does not. -/
def MonitorPc.Fits (pc : MonitorPc) (p : TimerPool) : Prop :=
  match pc with
  | .releasing => p.wait_inited = true
  | .released => p.wait_inited = true
  | .requesting => p.wait_inited = false
  | .requested _ => p.wait_inited = false
  | _ => True

def TimerPool.Fits (p : TimerPool) : Prop := p.owner.Fits p ∧ p.monitor.Fits p

structure TimerInv (s : TimerState) : Prop where
  balanced : s.timer.Balanced
  fits : ∀ p ∈ s.pools, p.Fits
  users : s.timer.users = s.pools.countP TimerPool.holds

structure Booked (t : SystemTimer) (p : TimerPool) (t' : SystemTimer) (p' : TimerPool) : Prop where
  balanced : t'.Balanced
  fits : p'.Fits
  users : t'.users + p.holds.toNat = t.users + p'.holds.toNat

theorem countP_set_add {α : Type*} (f : α → Bool) {l : List α} {i : ℕ} {a : α}
    (h : l[i]? = some a) (b : α) :
    (l.set i b).countP f + (f a).toNat = l.countP f + (f b).toNat := by
  obtain ⟨hi, rfl⟩ := List.getElem?_eq_some_iff.mp h
  rw [List.countP_set hi]
  have hle := List.boole_getElem_le_countP (p := f) hi
  cases hf : f l[i] with
  | false =>
    cases hb : f b with
    | false => simp
    | true => simp
  | true =>
    rw [hf, if_pos rfl] at hle
    cases hb : f b with
    | false =>
      simp
      omega
    | true =>
      simp
      omega

theorem TimerInv.set (h : TimerInv s) {i : ℕ} (hp : s.pools[i]? = some p)
    (hb : Booked s.timer p t' p') : TimerInv ⟨t', s.pools.set i p'⟩ := by
  refine ⟨hb.balanced, ?_, ?_⟩
  · intro q hq
    rcases List.mem_or_eq_of_mem_set hq with hq | rfl
    · exact h.fits q hq
    · exact hb.fits
  · have hcount := countP_set_add TimerPool.holds hp p'
    have husers := hb.users
    have hold := h.users
    dsimp only
    omega

theorem TimerInv.user (h : TimerInv s) {i : ℕ} (hp : s.pools[i]? = some p)
    (hh : p.holds = true) : 0 < s.timer.users := by
  rw [h.users]
  exact List.countP_pos_iff.mpr ⟨p, List.mem_of_getElem? hp, hh⟩

/-- A step that leaves the timer alone and the pool's use of it. -/
theorem booked_same (h : t.Balanced) (hfits : p'.Fits) (hholds : p'.holds = p.holds) :
    Booked t p t p' :=
  ⟨h, hfits, by rw [hholds]⟩

/-- Once the monitor has ended, the use of the timer is what `wait_inited` says. -/
theorem TimerPool.holds_of_ended (hm : p.monitor = .absent ∨ p.monitor = .exited)
    (ho : p.owner ≠ .inited true) : p.holds = p.inUse := by
  unfold TimerPool.holds
  rcases hm with hm | hm
  · simp [hm, ho]
  · simp [hm, ho]

theorem ownerStep_booked (h : t.Balanced) (hfits : p.Fits) (huser : p.holds = true → 0 < t.users)
    {ok ctrs : Bool} (hs : ownerStep t p ok ctrs = some (t', p')) : Booked t p t' p' := by
  obtain ⟨wait_inited, stop, desde, iniciadas, owner, monitor⟩ := p
  obtain ⟨hown, hmon⟩ := hfits
  unfold ownerStep at hs
  cases owner with
  | allocating =>
    obtain ⟨rfl, rfl⟩ := Prod.mk.inj (Option.some.inj hs)
    obtain ⟨rfl, rfl⟩ : wait_inited = false ∧ monitor = .absent := hown
    apply booked_same h
    · refine ⟨?_, trivial⟩
      cases ok with
      | true => exact ⟨rfl, rfl⟩
      | false =>
        cases ctrs with
        | true => trivial
        | false => exact ⟨rfl, rfl⟩
    · cases ok with
      | true => rfl
      | false =>
        cases ctrs with
        | true => rfl
        | false => rfl
  | initing =>
    obtain ⟨rfl, rfl⟩ := Prod.mk.inj (Option.some.inj hs)
    obtain ⟨rfl, rfl⟩ : wait_inited = false ∧ monitor = .absent := hown
    refine ⟨threadWaitInit_balanced h ok, ⟨⟨rfl, rfl⟩, trivial⟩, ?_⟩
    rw [threadWaitInit_users]
    cases (threadWaitInit t ok).1 with
    | false => rfl
    | true => rfl
  | inited got =>
    obtain ⟨rfl, rfl⟩ := Prod.mk.inj (Option.some.inj hs)
    obtain ⟨rfl, rfl⟩ : wait_inited = false ∧ monitor = .absent := hown
    apply booked_same h
    · exact ⟨rfl, trivial⟩
    · cases got with
      | false => rfl
      | true => rfl
  | building =>
    obtain ⟨rfl, rfl⟩ := Prod.mk.inj (Option.some.inj hs)
    obtain rfl : monitor = .absent := hown
    cases ok with
    | true => exact booked_same h ⟨rfl, trivial⟩ rfl
    | false => exact booked_same h ⟨trivial, trivial⟩ rfl
  | starting =>
    obtain rfl : monitor = .absent := hown
    cases ok with
    | true =>
      obtain ⟨rfl, rfl⟩ := Prod.mk.inj (Option.some.inj hs)
      exact booked_same h ⟨trivial, trivial⟩ rfl
    | false =>
      obtain ⟨rfl, rfl⟩ := Prod.mk.inj (Option.some.inj hs)
      exact booked_same h ⟨Or.inl rfl, trivial⟩ rfl
  | live => exact absurd hs (by simp)
  | waiting =>
    cases ok with
    | true =>
      obtain ⟨rfl, rfl⟩ := Prod.mk.inj (Option.some.inj hs)
      exact booked_same h ⟨trivial, hmon⟩ rfl
    | false => exact absurd hs (by simp)
  | joining =>
    obtain ⟨hended, he⟩ := Option.ite_none_right_eq_some.mp hs
    obtain ⟨rfl, rfl⟩ := Prod.mk.inj (Option.some.inj he)
    exact booked_same h ⟨hended, hmon⟩ rfl
  | closing =>
    obtain ⟨rfl, rfl⟩ := Prod.mk.inj (Option.some.inj hs)
    have hholds := TimerPool.holds_of_ended hown (by simp)
    have hgone := TimerPool.holds_of_ended
      (p := ⟨wait_inited, stop, desde, iniciadas, .closed, monitor⟩) hown (by simp)
    rw [show TimerPool.inUse ⟨wait_inited, stop, desde, iniciadas, .closed, monitor⟩ = false by
      simp [TimerPool.inUse]] at hgone
    cases wait_inited with
    | false => exact booked_same h ⟨hown, hmon⟩ (hgone.trans hholds.symm)
    | true =>
      refine ⟨threadWaitShutdown_balanced h, ⟨hown, hmon⟩, ?_⟩
      rw [hholds]
      dsimp only
      rw [hgone]
      exact threadWaitShutdown_users (huser hholds)
  | closed =>
    obtain ⟨rfl, rfl⟩ := Prod.mk.inj (Option.some.inj hs)
    apply booked_same h
    · exact ⟨hown, hmon⟩
    · cases wait_inited with
      | false => rfl
      | true => rfl
  | freed => exact absurd hs (by simp)
  | crashed => exact absurd hs (by simp)

/-- The pool of a running monitor is there, and its use of the timer depends on the monitor. -/
def OwnerPc.Open : OwnerPc → Prop
  | .live => True
  | .waiting => True
  | .joining => True
  | _ => False

theorem TimerPool.Fits.open (h : p.Fits) (hm : p.monitor ≠ .absent) (hx : p.monitor ≠ .exited) :
    p.owner.Open := by
  have hown := h.1
  cases ho : p.owner with
  | live => trivial
  | waiting => trivial
  | joining => trivial
  | building => rw [ho] at hown; exact hm hown
  | starting => rw [ho] at hown; exact hm hown
  | closing => rw [ho] at hown; exact hown.elim hm hx
  | closed => rw [ho] at hown; exact hown.elim hm hx
  | freed => rw [ho] at hown; exact hown.elim hm hx
  | allocating => rw [ho] at hown; exact hm hown.2
  | initing => rw [ho] at hown; exact hm hown.2
  | inited ok => rw [ho] at hown; exact hm hown.2
  | crashed => rw [ho] at hown; exact hm hown.2

theorem OwnerPc.Open.fits {pc : OwnerPc} (h : pc.Open) (p : TimerPool) : pc.Fits p := by
  cases pc with
  | live => trivial
  | waiting => trivial
  | joining => trivial
  | _ => exact h.elim

theorem TimerPool.holds_of_open (h : p.owner.Open) :
    p.holds = (p.wait_inited && p.monitor ≠ .released || p.monitor = .requested true) := by
  unfold TimerPool.holds TimerPool.inUse
  cases ho : p.owner with
  | live => simp
  | waiting => simp
  | joining => simp
  | _ => rw [ho] at h; exact h.elim

/-- The monitor is not between a call on the timer and the store to `wait_inited`. -/
def MonitorPc.Plain : MonitorPc → Prop
  | .released => False
  | .requested _ => False
  | _ => True

theorem TimerPool.holds_of_plain (ho : p.owner.Open) (hm : p.monitor.Plain) :
    p.holds = p.wait_inited := by
  rw [TimerPool.holds_of_open ho]
  cases hpc : p.monitor with
  | released => rw [hpc] at hm; exact hm.elim
  | requested ok => rw [hpc] at hm; exact hm.elim
  | _ => simp

/-- A step of a monitor that makes no call on the timer. -/
theorem booked_plain (h : t.Balanced) (ho : p.owner.Open) (hm : p.monitor.Plain)
    (howner : p'.owner = p.owner) (hw : p'.wait_inited = p.wait_inited) (hm' : p'.monitor.Plain)
    (hfits : p'.monitor.Fits p') : Booked t p t p' := by
  have ho' : p'.owner.Open := by rw [howner]; exact ho
  apply booked_same h
  · exact ⟨ho'.fits p', hfits⟩
  · rw [TimerPool.holds_of_plain ho' hm', TimerPool.holds_of_plain ho hm, hw]

theorem monitorStep_booked (h : t.Balanced) (hfits : p.Fits)
    (huser : p.holds = true → 0 < t.users) {seen : MonitorReads}
    (hs : monitorStep t p seen = some (t', p')) : Booked t p t' p' := by
  have hopen := hfits.open
  have hmon := hfits.2
  unfold monitorStep at hs
  cases hm : p.monitor with
  | absent =>
    rw [hm] at hs
    exact absurd hs (by simp)
  | exited =>
    rw [hm] at hs
    exact absurd hs (by simp)
  | watching =>
    have ho := hopen (by simp [hm]) (by simp [hm])
    have hplain : p.monitor.Plain := by rw [hm]; trivial
    rw [hm] at hs
    dsimp only at hs
    split at hs
    · obtain ⟨rfl, rfl⟩ := Prod.mk.inj (Option.some.inj hs)
      exact booked_plain h ho hplain rfl rfl trivial trivial
    · split at hs
      · split at hs
        · obtain ⟨rfl, rfl⟩ := Prod.mk.inj (Option.some.inj hs)
          exact booked_plain h ho hplain rfl rfl trivial trivial
        · split at hs
          · rename_i hsolta
            obtain ⟨rfl, rfl⟩ := Prod.mk.inj (Option.some.inj hs)
            exact booked_plain h ho hplain rfl rfl trivial hsolta.1
          · obtain ⟨rfl, rfl⟩ := Prod.mk.inj (Option.some.inj hs)
            exact booked_plain h ho hplain rfl rfl trivial trivial
      · obtain ⟨rfl, rfl⟩ := Prod.mk.inj (Option.some.inj hs)
        exact booked_plain h ho hplain rfl rfl trivial trivial
  | releasing =>
    have ho := hopen (by simp [hm]) (by simp [hm])
    rw [hm] at hs hmon
    obtain ⟨rfl, rfl⟩ := Prod.mk.inj (Option.some.inj hs)
    have hw : p.wait_inited = true := hmon
    refine ⟨threadWaitShutdown_balanced h, ⟨ho.fits _, hw⟩, ?_⟩
    have hholds : p.holds = true := by
      rw [TimerPool.holds_of_plain ho (by rw [hm]; trivial), hw]
    have hgone := TimerPool.holds_of_open (p := { p with monitor := .released }) ho
    rw [hholds, hgone, hw]
    exact threadWaitShutdown_users (huser hholds)
  | released =>
    have ho := hopen (by simp [hm]) (by simp [hm])
    rw [hm] at hs
    obtain ⟨rfl, rfl⟩ := Prod.mk.inj (Option.some.inj hs)
    apply booked_same h
    · exact ⟨ho.fits _, trivial⟩
    · have hstored := TimerPool.holds_of_plain
        (p := { p with wait_inited := false, monitor := .sleeping }) ho trivial
      rw [hstored, TimerPool.holds_of_open ho, hm]
      simp
  | sleeping =>
    have ho := hopen (by simp [hm]) (by simp [hm])
    rw [hm] at hs
    obtain ⟨rfl, rfl⟩ := Prod.mk.inj (Option.some.inj hs)
    apply booked_plain h ho (by rw [hm]; trivial)
    · rfl
    · rfl
    · dsimp only
      split
      · trivial
      · trivial
    · dsimp only
      split
      · trivial
      · trivial
  | rechecking =>
    have ho := hopen (by simp [hm]) (by simp [hm])
    have hplain : p.monitor.Plain := by rw [hm]; trivial
    rw [hm] at hs
    dsimp only at hs
    split at hs
    · obtain ⟨rfl, rfl⟩ := Prod.mk.inj (Option.some.inj hs)
      apply booked_plain h ho hplain
      · rfl
      · rfl
      · dsimp only
        split
        · trivial
        · trivial
      · dsimp only
        split
        · trivial
        · rename_i hw
          exact (Bool.not_eq_true _).mp hw
    · obtain ⟨rfl, rfl⟩ := Prod.mk.inj (Option.some.inj hs)
      exact booked_plain h ho hplain rfl rfl trivial trivial
  | requesting =>
    have ho := hopen (by simp [hm]) (by simp [hm])
    rw [hm] at hs hmon
    obtain ⟨rfl, rfl⟩ := Prod.mk.inj (Option.some.inj hs)
    have hw : p.wait_inited = false := hmon
    refine ⟨threadWaitInit_balanced h _, ⟨ho.fits _, hw⟩, ?_⟩
    have hasked := TimerPool.holds_of_open
      (p := { p with monitor := .requested (threadWaitInit t seen.begun).1 }) ho
    rw [threadWaitInit_users, hasked, TimerPool.holds_of_open ho, hm, hw]
    simp
  | requested ok =>
    have ho := hopen (by simp [hm]) (by simp [hm])
    rw [hm] at hs hmon
    obtain ⟨rfl, rfl⟩ := Prod.mk.inj (Option.some.inj hs)
    have hw : p.wait_inited = false := hmon
    apply booked_same h
    · exact ⟨ho.fits _, trivial⟩
    · have hstored := TimerPool.holds_of_plain
        (p := { p with wait_inited := ok, monitor := .watching }) ho trivial
      rw [hstored, TimerPool.holds_of_open ho, hm, hw]
      simp

theorem timerStep_inv (h : TimerInv s) {l : TimerLabel} (hs : timerStep s l = some s') :
    TimerInv s' := by
  unfold timerStep at hs
  cases l with
  | create =>
    obtain rfl := Option.some.inj hs
    refine ⟨h.balanced, ?_, ?_⟩
    · intro q hq
      rcases List.mem_append.mp hq with hq | hq
      · exact h.fits q hq
      · rw [List.mem_singleton.mp hq]
        exact ⟨⟨rfl, rfl⟩, trivial⟩
    · rw [List.countP_append, ← h.users]
      rfl
  | owner i ok ctrs =>
    obtain ⟨p, hp, hm⟩ := Option.bind_eq_some_iff.mp hs
    obtain ⟨r, hr, rfl⟩ := Option.map_eq_some_iff.mp hm
    exact h.set hp (ownerStep_booked h.balanced (h.fits p (List.mem_of_getElem? hp)) (h.user hp) hr)
  | destroy i =>
    obtain ⟨p, hp, hm⟩ := Option.bind_eq_some_iff.mp hs
    obtain ⟨hlive, he⟩ := Option.ite_none_right_eq_some.mp hm
    obtain rfl := Option.some.inj he
    have hopen : p.owner.Open := by rw [hlive]; trivial
    apply h.set hp
    apply booked_same h.balanced
    · exact ⟨trivial, (h.fits p (List.mem_of_getElem? hp)).2⟩
    · have hwaiting := TimerPool.holds_of_open (p := { p with owner := .waiting }) trivial
      rw [hwaiting, TimerPool.holds_of_open hopen]
  | monitor i seen =>
    obtain ⟨p, hp, hm⟩ := Option.bind_eq_some_iff.mp hs
    obtain ⟨r, hr, rfl⟩ := Option.map_eq_some_iff.mp hm
    exact h.set hp
      (monitorStep_booked h.balanced (h.fits p (List.mem_of_getElem? hp)) (h.user hp) hr)

theorem timer_inv (h : timerSystem.Reachable s) : TimerInv s := by
  apply h.invariant
  · rintro s rfl
    exact ⟨rfl, fun q hq => absurd hq (by simp), rfl⟩
  · intro _ _ _ hinv hs
    exact timerStep_inv hinv hs

/-- With no thread between a call on the timer and its store, a use is what `wait_inited` says. -/
theorem TimerPool.holds_eq_inUse (h : ¬p.Unsettled) : p.holds = p.inUse := by
  have howner : p.owner ≠ .inited true := fun he => h (Or.inl ⟨true, he⟩)
  have hreleased : p.monitor ≠ .released := fun he => h (Or.inr (Or.inl he))
  have hrequested : p.monitor ≠ .requested true := fun he => h (Or.inr (Or.inr ⟨true, he⟩))
  unfold TimerPool.holds
  simp [howner, hreleased, hrequested]

theorem TimerPool.holds_of_freed (hfits : p.Fits) (h : p.owner = .freed) : p.holds = false := by
  have hown := hfits.1
  rw [h] at hown
  rw [TimerPool.holds_of_ended hown (by simp [h])]
  unfold TimerPool.inUse
  simp [h]

theorem SystemTimer.Balanced.inEffect_iff (h : t.Balanced) : t.InEffect ↔ 0 < t.users := by
  unfold SystemTimer.Balanced at h
  unfold SystemTimer.InEffect
  by_cases hu : 0 < t.users
  · rw [if_pos hu] at h
    exact iff_of_true (by omega) hu
  · rw [if_neg hu] at h
    exact iff_of_false (by omega) hu

/-- The accounts of the timer: its users are the pools with `wait_inited = 1`, it is raised while
there is one, and after the last pool it was lowered as often as raised. -/
theorem threadWait_accounts (h : timerSystem.Reachable s) :
    ((∀ p ∈ s.pools, ¬p.Unsettled) → s.timer.users = s.pools.countP TimerPool.inUse ∧
      (s.timer.InEffect ↔ 0 < s.pools.countP TimerPool.inUse)) ∧
    ((∀ p ∈ s.pools, p.owner = .freed) → s.timer.begins = s.timer.ends) := by
  have hinv := timer_inv h
  constructor
  · intro hsettled
    have hcount : s.pools.countP TimerPool.holds = s.pools.countP TimerPool.inUse :=
      List.countP_congr fun p hp => by rw [TimerPool.holds_eq_inUse (hsettled p hp)]
    rw [← hcount, ← hinv.users]
    exact ⟨rfl, hinv.balanced.inEffect_iff⟩
  · intro hfreed
    have hnone : s.timer.users = 0 := by
      rw [hinv.users, List.countP_eq_zero]
      intro p hp
      rw [TimerPool.holds_of_freed (hinv.fits p hp) (hfreed p hp)]
      exact Bool.false_ne_true
    have hbal := hinv.balanced
    unfold SystemTimer.Balanced at hbal
    rw [hnone, if_neg (by omega)] at hbal
    exact hbal

instance (p : TimerPool) : Decidable p.Unsettled :=
  decidable_of_iff (p.owner = .inited true ∨ p.owner = .inited false ∨ p.monitor = .released ∨
    p.monitor = .requested true ∨ p.monitor = .requested false) (by
      unfold TimerPool.Unsettled
      simp only [Bool.exists_bool]
      tauto)

def idleAt (ms : ℤ) : MonitorReads := ⟨true, 0, 0, 0, ms, false⟩

def busyAt (ms : ℤ) : MonitorReads := ⟨true, 5, 5, 0, ms, true⟩

/-- Pool 0 releases the timer while idle and asks for it again, and pool 1 is created beside it. -/
def releasedAndAsked : List TimerLabel :=
  [.create, .owner 0 true true, .owner 0 true true, .owner 0 true true, .owner 0 true true,
    .owner 0 true true, .monitor 0 (idleAt 1), .monitor 0 (idleAt 2), .monitor 0 (idleAt 2),
    .monitor 0 (idleAt 2000), .monitor 0 (idleAt 2000), .monitor 0 (idleAt 2000),
    .monitor 0 (idleAt 2000), .monitor 0 (busyAt 3000), .monitor 0 (busyAt 3000),
    .monitor 0 (busyAt 3000), .create, .owner 1 true true, .owner 1 false true,
    .owner 1 true true]

def allDestroyed : List TimerLabel :=
  [.owner 1 false true, .owner 1 true true, .owner 1 true true, .owner 1 true true,
    .owner 1 true true, .destroy 0, .owner 0 true true, .monitor 0 (idleAt 4000),
    .owner 0 true true, .owner 0 true true, .owner 0 true true]

theorem threadWait_accounts_two :
    (∃ s : TimerState, timerSystem.Reachable s ∧ s.timer.users = 2 ∧ s.timer.begins = 2 ∧
      s.timer.users = s.pools.countP TimerPool.inUse ∧ s.timer.InEffect) ∧
    ∃ s : TimerState, timerSystem.Reachable s ∧ s.pools.length = 2 ∧ s.timer.begins = 2 ∧
      s.timer.begins = s.timer.ends := by
  constructor
  · have hrun : (timerSystem.exec ⟨⟨0, 0, 0⟩, []⟩ releasedAndAsked).map (fun s =>
        (s.timer.users, s.timer.begins, s.pools.countP TimerPool.inUse,
          decide (∀ p ∈ s.pools, ¬p.Unsettled))) = some (2, 2, 2, true) := by decide +kernel
    obtain ⟨s, hs, he⟩ := Option.map_eq_some_iff.mp hrun
    obtain ⟨husers, he⟩ := Prod.mk.inj he
    obtain ⟨hbegins, he⟩ := Prod.mk.inj he
    obtain ⟨hcount, hsettled⟩ := Prod.mk.inj he
    have hreach := System.Reachable.exec (.init rfl) hs
    obtain ⟨haccounts, heffect⟩ := (threadWait_accounts hreach).1 (of_decide_eq_true hsettled)
    exact ⟨s, hreach, husers, hbegins, haccounts, heffect.mpr (by rw [hcount]; omega)⟩
  · have hrun : (timerSystem.exec ⟨⟨0, 0, 0⟩, []⟩ (releasedAndAsked ++ allDestroyed)).map
        (fun s => (s.pools.length, s.timer.begins, decide (∀ p ∈ s.pools, p.owner = .freed))) =
        some (2, 2, true) := by decide +kernel
    obtain ⟨s, hs, he⟩ := Option.map_eq_some_iff.mp hrun
    obtain ⟨hlength, he⟩ := Prod.mk.inj he
    obtain ⟨hbegins, hfreed⟩ := Prod.mk.inj he
    have hreach := System.Reachable.exec (.init rfl) hs
    exact ⟨s, hreach, hlength, hbegins,
      (threadWait_accounts hreach).2 (of_decide_eq_true hfreed)⟩

end Xplatbase.ThreadPool.Timer
