import Xplatbase.Lib.AtomicObject

/-! The wait of `thread_wait.h`: one thread sleeps on an `xwait_t`, any number of threads wake it,
over a futex on Linux and over `WaitOnAddress` on Windows. One atomic access or one system call per
step; the system may also let a sleeper go for no reason, or for its time being up. -/
namespace Xplatbase.Threads
open Xplatbase.Lib

inductive Platform
  | linux
  | windows
  deriving DecidableEq

/-- Where the sleeper stands; `timed` in `thread_wait_sleep_for`. -/
inductive WaiterPc
  | idle
  | prepare
  | test (timed : Bool)
  /-- Before the system call that sleeps if the signal is still 0. -/
  | wait (timed : Bool)
  | blocked (timed : Bool)
  | clear (timed woken : Bool)
  | returns (woken : Option Bool)
  deriving DecidableEq

inductive WakerPc
  | idle
  | store
  /-- Before the system call that wakes a sleeper. -/
  | wakeOne
  | returns
  deriving DecidableEq

/-- `signal` is `futex_val` on Linux. -/
structure WaitState (ι : Type*) where
  signal : Bool
  waiter : WaiterPc
  wakers : ι → WakerPc

inductive WaitLabel (ι : Type*)
  | prepare
  | sleep
  | sleepFor
  | wake (i : ι)
  | waiter
  | waker (i : ι)
  /-- The system lets the sleeper go, without a wake. -/
  | interrupted
  | timeout

variable {ι : Type*}

/-- Where a sleep begins: on Windows the one with a timeout does not test first. -/
def Platform.enter : Platform → Bool → WaiterPc
  | .windows, true => .wait true
  | _, timed => .test timed

/-- Where a sleeper goes that the system lets go, or finds not to sleep. -/
def Platform.resume : Platform → Bool → WaiterPc
  | .windows, true => .clear true true
  | _, timed => .test timed

/-- A step of `thread_wait_prepare`, `thread_wait_sleep` or `thread_wait_sleep_for`. -/
def waiterStep (p : Platform) (signal : Bool) : WaiterPc → Option (Bool × WaiterPc)
  | .prepare => some (false, .returns none)
  | .test timed => some (signal, if signal then .clear timed true else .wait timed)
  | .wait timed => some (signal, if signal then p.resume timed else .blocked timed)
  | .clear _ woken => some (false, .returns (some woken))
  | .returns _ => some (signal, .idle)
  | .idle | .blocked _ => none

/-- A step of `thread_wait_wake`. -/
def wakerStep (p : Platform) (signal : Bool) (waiter : WaiterPc) :
    WakerPc → Option (Bool × WaiterPc × WakerPc)
  | .store => some (true, waiter, .wakeOne)
  | .wakeOne =>
    some (signal, match waiter with
      | .blocked timed => p.resume timed
      | _ => waiter, .returns)
  | .returns => some (signal, waiter, .idle)
  | .idle => none

def waitStep [DecidableEq ι] (p : Platform) (s : WaitState ι) :
    WaitLabel ι → Option (WaitState ι)
  | .prepare => if s.waiter = .idle then some { s with waiter := .prepare } else none
  | .sleep => if s.waiter = .idle then some { s with waiter := p.enter false } else none
  | .sleepFor => if s.waiter = .idle then some { s with waiter := p.enter true } else none
  | .wake i =>
    if s.wakers i = .idle then some { s with wakers := Function.update s.wakers i .store } else none
  | .waiter =>
    (waiterStep p s.signal s.waiter).map fun (signal, waiter) => { s with signal, waiter }
  | .waker i =>
    (wakerStep p s.signal s.waiter (s.wakers i)).map fun (signal, waiter, pc) =>
      { signal, waiter, wakers := Function.update s.wakers i pc }
  | .interrupted =>
    match s.waiter with
    | .blocked timed => some { s with waiter := p.resume timed }
    | _ => none
  | .timeout =>
    match s.waiter with
    | .blocked true =>
      some { s with
        waiter := match p with
          | .linux => .returns (some false)
          | .windows => .clear true false }
    | _ => none

def waitSystem [DecidableEq ι] (p : Platform) : System (WaitState ι) (WaitLabel ι) where
  init := fun s => s = ⟨false, .idle, fun _ => .idle⟩
  step := waitStep p

/-! ### What it is for -/

inductive WaitOp
  | prepare
  | sleep
  | sleepFor
  | wake
  deriving DecidableEq

/-- `none` of a call that answers nothing; otherwise whether the sleeper was woken. -/
abbrev WaitAnswer := Option Bool

/-- A signal. A sleep that ends with a wake takes it; one whose time is up leaves it on Linux, and on
Windows clears it whatever it answers. -/
inductive WaitTurn (p : Platform) : Bool → WaitOp → WaitAnswer → Bool → Prop
  | prepare {b} : WaitTurn p b .prepare none false
  | wake {b} : WaitTurn p b .wake none true
  | sleep : WaitTurn p true .sleep (some true) false
  | sleepFor : WaitTurn p true .sleepFor (some true) false
  | timeout {b} (hp : p = .linux) : WaitTurn p b .sleepFor (some false) b
  | lapse {b woken} (hp : p = .windows) : WaitTurn p b .sleepFor (some woken) false

def waitObject (p : Platform) : SeqObject Bool WaitOp WaitAnswer where
  init := false
  step := WaitTurn p

def WaitOp.ofTimed (timed : Bool) : WaitOp := if timed then .sleepFor else .sleep

/-- A call of the sleeper takes effect when it writes to the signal, or when its time is up. -/
def WaiterPc.phase : WaiterPc → CallPhase WaitOp WaitAnswer
  | .idle => .idle
  | .prepare => .called .prepare
  | .test timed | .wait timed | .blocked timed | .clear timed _ => .called (.ofTimed timed)
  | .returns woken => .answered woken

def WakerPc.phase : WakerPc → CallPhase WaitOp WaitAnswer
  | .idle => .idle
  | .store => .called .wake
  | .wakeOne | .returns => .answered none

/-- The calls: of the sleeper (`none`) and of each waker. -/
def WaitState.phase (s : WaitState ι) : Option ι → CallPhase WaitOp WaitAnswer
  | none => s.waiter.phase
  | some i => (s.wakers i).phase

def WaitLabel.party : WaitLabel ι → Option ι
  | .wake i | .waker i => some i
  | _ => none

def WaitState.event (s : WaitState ι) (l : WaitLabel ι) (t : WaitState ι) :
    Option (CallEvent (Option ι) WaitOp WaitAnswer) :=
  (s.phase l.party).event l.party (t.phase l.party)

/-! ### What the steps keep -/

/-- A sleeper that is about to take the signal has it, unless it is one of Windows with a timeout. -/
def WaiterPc.Takes (p : Platform) (signal : Bool) : WaiterPc → Prop
  | .clear timed woken => p = .windows ∧ timed = true ∨ signal = true ∧ woken = true
  | _ => True

def WaitState.WakeDue (s : WaitState ι) : Prop := ∃ i, s.wakers i = .wakeOne

structure WaitInv (p : Platform) (s : WaitState ι) : Prop where
  takes : s.waiter.Takes p s.signal
  due : ∀ timed, s.waiter = .blocked timed → s.signal = true → s.WakeDue


variable {p : Platform} {s t : WaitState ι}

@[simp] theorem enter_phase (p : Platform) (timed : Bool) :
    (p.enter timed).phase = .called (.ofTimed timed) := by
  cases p <;> cases timed <;> rfl

@[simp] theorem resume_phase (p : Platform) (timed : Bool) :
    (p.resume timed).phase = .called (.ofTimed timed) := by
  cases p <;> cases timed <;> rfl

theorem enter_takes (p : Platform) (timed signal : Bool) : (p.enter timed).Takes p signal := by
  cases p <;> cases timed <;> trivial

theorem WaitInv.enter (p : Platform) (timed signal : Bool) (wakers : ι → WakerPc) :
    WaitInv p ⟨signal, p.enter timed, wakers⟩ where
  takes := enter_takes p timed signal
  due := by
    intro timed' hb
    cases p <;> cases timed <;> cases hb

theorem WaitInv.resume (p : Platform) (timed signal : Bool) (wakers : ι → WakerPc) :
    WaitInv p ⟨signal, p.resume timed, wakers⟩ where
  takes := by
    cases p <;> cases timed <;> first | trivial | exact .inl ⟨rfl, rfl⟩
  due := by
    intro timed' hb
    cases p <;> cases timed <;> cases hb

/-- A signal that is set takes nothing away from a sleeper that is about to take it. -/
theorem WaiterPc.Takes.set {pc : WaiterPc} {signal : Bool} (h : pc.Takes p signal) :
    pc.Takes p true := by
  cases pc with
  | clear timed woken => exact h.imp_right fun hset => ⟨rfl, hset.2⟩
  | _ => trivial

theorem WaitInv.waiter_turn (h : WaitInv p s) {signal : Bool} {pc : WaiterPc}
    (hs : waiterStep p s.signal s.waiter = some (signal, pc)) :
    WaitInv p { s with signal, waiter := pc } ∧
      (waitObject p).PhaseTurn s.signal s.waiter.phase signal pc.phase := by
  obtain ⟨sig, waiter, wakers⟩ := s
  cases waiter with
  | idle => cases hs
  | prepare =>
    cases hs
    exact ⟨⟨trivial, fun _ hb => by cases hb⟩, .takesEffect .prepare⟩
  | test timed =>
    cases hs
    cases hsig : sig with
    | true => exact ⟨⟨.inr ⟨rfl, rfl⟩, fun _ hb => by cases hb⟩, .stays⟩
    | false => exact ⟨⟨trivial, fun _ hb => by cases hb⟩, .stays⟩
  | wait timed =>
    cases hs
    cases hsig : sig with
    | true =>
      refine ⟨.resume p timed true wakers, ?_⟩
      rw [if_pos rfl, resume_phase]
      exact .stays
    | false => exact ⟨⟨trivial, fun _ _ hset => by cases hset⟩, .stays⟩
  | blocked timed => cases hs
  | clear timed woken =>
    cases hs
    refine ⟨⟨trivial, fun _ hb => by cases hb⟩, .takesEffect ?_⟩
    rcases h.takes with ⟨hp, rfl⟩ | ⟨hsig, rfl⟩
    · exact .lapse hp
    · obtain rfl : sig = true := hsig
      cases timed with
      | true => exact .sleepFor
      | false => exact .sleep
  | returns woken =>
    cases hs
    exact ⟨⟨trivial, fun _ hb => by cases hb⟩, .returns⟩

variable [DecidableEq ι]

theorem WaitState.WakeDue.update (h : s.WakeDue) {i : ι} (hi : s.wakers i ≠ .wakeOne) {signal : Bool}
    {waiter : WaiterPc} {pc : WakerPc} :
    WaitState.WakeDue ⟨signal, waiter, Function.update s.wakers i pc⟩ := by
  obtain ⟨j, hj⟩ := h
  have hne : j ≠ i := by
    rintro rfl
    exact hi hj
  exact ⟨j, (Function.update_of_ne hne ..).trans hj⟩

/-- What a step of a waker does to the signal; the sleeper stays in its call. -/
theorem WaitInv.waker_turn (h : WaitInv p s) {i : ι} {signal : Bool} {waiter : WaiterPc} {pc : WakerPc}
    (hs : wakerStep p s.signal s.waiter (s.wakers i) = some (signal, waiter, pc)) :
    WaitInv p ⟨signal, waiter, Function.update s.wakers i pc⟩ ∧
      waiter.phase = s.waiter.phase ∧
      (waitObject p).PhaseTurn s.signal (s.wakers i).phase signal pc.phase := by
  cases hpc : s.wakers i with
  | idle =>
    rw [hpc] at hs
    cases hs
  | store =>
    rw [hpc] at hs
    cases hs
    exact ⟨⟨h.takes.set, fun _ _ _ => ⟨i, Function.update_self ..⟩⟩, rfl, .takesEffect .wake⟩
  | wakeOne =>
    rw [hpc] at hs
    cases hs
    cases hw : s.waiter with
    | blocked timed =>
      exact ⟨.resume p timed _ _, resume_phase p timed, .stays⟩
    | _ =>
      refine ⟨⟨?_, fun _ hb => by cases hb⟩, rfl, .stays⟩
      have htakes := h.takes
      rwa [hw] at htakes
  | returns =>
    rw [hpc] at hs
    cases hs
    refine ⟨⟨h.takes, fun timed hb hset => ?_⟩, rfl, .returns⟩
    exact (h.due timed hb hset).update (hpc ▸ WakerPc.noConfusion)

structure HoldsSignal (p : Platform) (s : WaitState ι)
    (a : ObjectState (Option ι) Bool WaitOp WaitAnswer) : Prop where
  inv : WaitInv p s
  state : a = ⟨s.signal, s.phase⟩

/-- A step of one call, which the other calls do not see. -/
theorem HoldsSignal.turn {a : ObjectState (Option ι) Bool WaitOp WaitAnswer}
    (h : HoldsSignal p s a) {l : WaitLabel ι} (hinv : WaitInv p t)
    (hothers : ∀ j ≠ l.party, t.phase j = s.phase j)
    (hturn : (waitObject p).PhaseTurn s.signal (s.phase l.party) t.signal (t.phase l.party)) :
    ∃ b, ((waitObject p).atomicSpec (Option ι)).Turn a (s.event l t) b ∧ HoldsSignal p t b := by
  obtain rfl := h.state
  exact ⟨⟨t.signal, t.phase⟩, hturn.turn hothers, hinv, rfl⟩

theorem HoldsSignal.step {a : ObjectState (Option ι) Bool WaitOp WaitAnswer}
    (h : HoldsSignal p s a) {l : WaitLabel ι} (hs : waitStep p s l = some t) :
    ∃ b, ((waitObject p).atomicSpec (Option ι)).Turn a (s.event l t) b ∧ HoldsSignal p t b := by
  have hsleeper : ∀ {signal waiter}, ∀ j ≠ (none : Option ι),
      WaitState.phase ⟨signal, waiter, s.wakers⟩ j = s.phase j := by
    rintro signal waiter (_ | j) hj
    · exact absurd rfl hj
    · rfl
  have hwaker : ∀ {signal waiter} {i : ι} {pc : WakerPc}, waiter.phase = s.waiter.phase →
      ∀ j ≠ some i, WaitState.phase ⟨signal, waiter, Function.update s.wakers i pc⟩ j =
        s.phase j := by
    rintro signal waiter i pc hphase (_ | j) hj
    · exact hphase
    · exact congrArg WakerPc.phase (Function.update_of_ne (fun he => hj (congrArg some he)) ..)
  cases l with
  | prepare =>
    simp only [waitStep] at hs
    split_ifs at hs with hidle
    cases hs
    refine h.turn ⟨trivial, fun _ hb => by cases hb⟩ hsleeper ?_
    simp only [WaitLabel.party, WaitState.phase, hidle]
    exact .calls
  | sleep =>
    simp only [waitStep] at hs
    split_ifs at hs with hidle
    cases hs
    refine h.turn (.enter p false _ _) hsleeper ?_
    simp only [WaitLabel.party, WaitState.phase, hidle, enter_phase]
    exact .calls
  | sleepFor =>
    simp only [waitStep] at hs
    split_ifs at hs with hidle
    cases hs
    refine h.turn (.enter p true _ _) hsleeper ?_
    simp only [WaitLabel.party, WaitState.phase, hidle, enter_phase]
    exact .calls
  | wake i =>
    simp only [waitStep] at hs
    split_ifs at hs with hidle
    cases hs
    refine h.turn ⟨h.inv.takes, ?_⟩ (hwaker rfl) ?_
    · exact fun timed hb hset => (h.inv.due timed hb hset).update (hidle ▸ WakerPc.noConfusion)
    · simp only [WaitLabel.party, WaitState.phase, hidle, Function.update_self]
      exact .calls
  | waiter =>
    obtain ⟨⟨signal, pc⟩, hstep, rfl⟩ := Option.map_eq_some_iff.mp hs
    obtain ⟨hinv, hturn⟩ := h.inv.waiter_turn hstep
    exact h.turn hinv hsleeper hturn
  | waker i =>
    obtain ⟨⟨signal, waiter, pc⟩, hstep, rfl⟩ := Option.map_eq_some_iff.mp hs
    obtain ⟨hinv, hphase, hturn⟩ := h.inv.waker_turn hstep
    refine h.turn hinv (hwaker hphase) ?_
    simp only [WaitLabel.party, WaitState.phase, Function.update_self]
    exact hturn
  | interrupted =>
    simp only [waitStep] at hs
    split at hs
    · rename_i timed hb
      cases hs
      refine h.turn (.resume p timed _ _) hsleeper ?_
      simp only [WaitLabel.party, WaitState.phase, hb, resume_phase]
      exact .stays
    · cases hs
  | timeout =>
    simp only [waitStep] at hs
    split at hs
    · rename_i hb
      cases hs
      cases p with
      | linux =>
        refine h.turn ⟨trivial, fun _ hb => by cases hb⟩ hsleeper ?_
        simp only [WaitLabel.party, WaitState.phase, hb]
        exact .takesEffect (.timeout rfl)
      | windows =>
        refine h.turn ⟨.inl ⟨rfl, rfl⟩, fun _ hb => by cases hb⟩ hsleeper ?_
        simp only [WaitLabel.party, WaitState.phase, hb]
        exact .stays
    · cases hs

/-- At first there is no signal and nobody is in a call. -/
theorem HoldsSignal.start (p : Platform) (s : WaitState ι) (hinit : (waitSystem p).init s) :
    ∃ a, ((waitObject p).atomicSpec (Option ι)).init a ∧ HoldsSignal p s a := by
  obtain rfl := hinit
  refine ⟨_, rfl, ⟨trivial, fun _ hb => by cases hb⟩, ?_⟩
  congr 1
  funext i
  cases i <;> rfl

/-- On both platforms the wait is a signal whose calls take effect at once, whatever the order of the
steps of the sleeper, of the wakers and of the system. -/
theorem wait_simulates_signal (ι : Type*) [DecidableEq ι] (p : Platform) :
    (waitSystem p : System (WaitState ι) _).Simulates (fun _ _ => True) WaitState.event
      ((waitObject p).atomicSpec (Option ι)) (HoldsSignal p) where
  init := HoldsSignal.start p
  step := fun _ _ _ _ h _ hs => h.step hs

/-! ### No wake is lost to a sleeper in the kernel -/

def WaiterPc.Waits : WaiterPc → Prop
  | .test _ | .wait _ | .blocked _ => True
  | _ => False

/-- A sleeper that is let go finds the signal, and returns. -/
theorem resume_returns (p : Platform) (timed : Bool) (wakers : ι → WakerPc) :
    ∃ ls t, ls.length ≤ 2 ∧ (waitSystem p).exec ⟨true, p.resume timed, wakers⟩ ls = some t ∧
      t.waiter = .returns (some true) ∧ ∀ l ∈ ls, l = WaitLabel.waiter := by
  have htest : ∀ timed : Bool, (waitSystem p).exec ⟨true, .test timed, wakers⟩ [.waiter, .waiter] =
      some ⟨false, .returns (some true), wakers⟩ := fun _ => rfl
  have hall : ∀ l ∈ [WaitLabel.waiter, .waiter], l = (.waiter : WaitLabel ι) := by simp
  cases p with
  | linux => exact ⟨[.waiter, .waiter], _, Nat.le_refl 2, htest timed, rfl, hall⟩
  | windows =>
    cases timed with
    | false => exact ⟨[.waiter, .waiter], _, Nat.le_refl 2, htest false, rfl, hall⟩
    | true => exact ⟨[.waiter], _, Nat.le_succ 1, rfl, rfl, by simp⟩

theorem step_returns {s : WaitState ι} {l : WaitLabel ι} {ok : WaitLabel ι → Prop} (p : Platform)
    (timed : Bool) (wakers : ι → WakerPc) (hl : ok l) (hwaiter : ok .waiter)
    (hs : waitStep p s l = some ⟨true, p.resume timed, wakers⟩) :
    ∃ ls t, ls.length ≤ 3 ∧ (waitSystem p).exec s ls = some t ∧
      t.waiter = .returns (some true) ∧ ∀ l ∈ ls, ok l := by
  obtain ⟨ls, t, hlen, hexec, ht, hall⟩ := resume_returns p timed wakers
  refine ⟨l :: ls, t, Nat.succ_le_succ hlen, ?_, ht, ?_⟩
  · rw [System.exec, System.execWhen, if_pos trivial]
    exact Option.bind_eq_some_iff.mpr ⟨_, hs, hexec⟩
  · intro l' hl'
    rcases List.mem_cons.mp hl' with rfl | hl'
    · exact hl
    · exact hall l' hl' ▸ hwaiter

/-- A sleeper that waits while the signal is set is never stuck: a waker is on its way to it if it is
in the kernel, and three steps, its own and one of that waker, let it return. -/
theorem sleep_returns (p : Platform) (s : WaitState ι) (h : (waitSystem p).Reachable s)
    (hset : s.signal = true) (hwaits : s.waiter.Waits) :
    ∃ ls t, ls.length ≤ 3 ∧ (waitSystem p).exec s ls = some t ∧ t.waiter = .returns (some true) ∧
      ∀ l ∈ ls, l = .waiter ∨ ∃ i, s.wakers i = .wakeOne ∧ l = .waker i := by
  have hsim : (waitSystem p).Simulates (fun _ _ => True) WaitState.event
      ((waitObject p).atomicSpec (Option ι)) (HoldsSignal p) :=
    ⟨HoldsSignal.start p, fun _ _ _ _ h _ hs => h.step hs⟩
  obtain ⟨a, ha⟩ := hsim.reachable h
  have hinv := ha.inv
  obtain ⟨signal, waiter, wakers⟩ := s
  obtain rfl : signal = true := hset
  cases waiter with
  | test timed =>
    refine ⟨[.waiter, .waiter], _, Nat.le_succ 2, rfl, rfl, ?_⟩
    simp
  | wait timed => exact step_returns p timed wakers (.inl rfl) (.inl rfl) rfl
  | blocked timed =>
    obtain ⟨i, hi⟩ := hinv.due timed rfl rfl
    refine step_returns p timed (Function.update wakers i .returns) (.inr ⟨i, hi, rfl⟩) (.inl rfl) ?_
    simp only [waitStep]
    rw [show wakers i = .wakeOne from hi]
    rfl
  | _ => exact hwaits.elim

/-- A waker has stored, and not yet called the system, when the sleeper is in the kernel. -/
theorem sleep_returns_blocked :
    ∃ (ls : List (WaitLabel Unit)) (t : WaitState Unit), ls.length ≤ 3 ∧
      (waitSystem .linux).exec ⟨true, .blocked false, fun _ => .wakeOne⟩ ls = some t ∧
      t.waiter = .returns (some true) := by
  have hexec : (waitSystem .linux).exec ⟨false, .idle, fun _ : Unit => .idle⟩
      [.sleep, .waiter, .waiter, .wake (), .waker ()] =
        some ⟨true, .blocked false, fun _ => .wakeOne⟩ :=
    congrArg (fun wakers => some (WaitState.mk true (.blocked false) wakers)) (funext fun _ => rfl)
  obtain ⟨ls, t, hlen, hexec, ht, -⟩ := sleep_returns .linux _ (.exec (.init rfl) hexec) rfl trivial
  exact ⟨ls, t, hlen, hexec, ht⟩

/-! ### What a sleep whose time is up does to a wake -/

/-- A wake has taken effect since the last sleep that was woken, and the last `thread_wait_prepare`. -/
def wokenSince : List (WaitOp × WaitAnswer) → Bool
  | [] => false
  | (.wake, _) :: _ => true
  | (_, some false) :: es => wokenSince es
  | _ :: _ => false

theorem linux_runs {es : List (WaitOp × WaitAnswer)} {b : Bool}
    (h : (waitObject .linux).Runs false es b) : b = wokenSince es := by
  induction h with
  | nil => rfl
  | cons _ hstep ih =>
    cases hstep with
    | prepare => rfl
    | wake => rfl
    | sleep => rfl
    | sleepFor => rfl
    | timeout => exact ih
    | lapse hp => cases hp

/-- On Linux a wake stays until a sleep answers for it, or the sleeper prepares: no time that is up
takes it away. -/
theorem linux_keeps_wake (s t : WaitState ι) (es : List (CallEvent (Option ι) WaitOp WaitAnswer))
    (hinit : (waitSystem .linux).init s)
    (hrun : (waitSystem .linux).Shows (fun _ _ => True) WaitState.event s es t) :
    t.signal = wokenSince (effects es) := by
  have hsim : (waitSystem .linux).Simulates (fun _ _ => True) WaitState.event
      ((waitObject .linux).atomicSpec (Option ι)) (HoldsSignal .linux) :=
    ⟨HoldsSignal.start .linux, fun _ _ _ _ h _ hs => h.step hs⟩
  obtain ⟨a, b, ha, hpath, hb⟩ := hsim.run hinit hrun
  have hruns := SeqObject.path_runs hpath
  obtain rfl : a = ⟨false, fun _ => .idle⟩ := ha
  rw [← linux_runs hruns, hb.state]

def lateWake : List (WaitLabel Unit) :=
  [.prepare, .waiter, .waiter, .sleepFor, .waiter, .waiter, .wake (), .timeout, .waker (), .waiter]

theorem linux_keeps_wake_late :
    ∃ (t : WaitState Unit) (es : List (CallEvent (Option Unit) WaitOp WaitAnswer)),
      effects es = [(.wake, none), (.sleepFor, some false), (.prepare, none)] ∧ t.waiter = .idle ∧
      t.signal = true := by
  have hout : ((waitSystem .linux).showWhen (fun _ _ => True) WaitState.event
      ⟨false, .idle, fun _ => .idle⟩ [] lateWake).map (fun r => decide
        (effects r.1 = [(.wake, none), (.sleepFor, some false), (.prepare, none)] ∧
          r.2.waiter = .idle)) = some true := by
    decide +kernel
  obtain ⟨⟨es, t⟩, hshow, hend⟩ := Option.map_eq_some_iff.mp hout
  obtain ⟨heffects, hidle⟩ := of_decide_eq_true hend
  have hsignal := linux_keeps_wake _ t es rfl (System.Shows.refl.follow hshow)
  rw [heffects] at hsignal
  exact ⟨t, es, heffects, hidle, hsignal⟩

end Xplatbase.Threads
