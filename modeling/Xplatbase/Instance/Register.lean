import Mathlib.Logic.Function.Basic
import Xplatbase.Lib.System
import Xplatbase.Instance.InstanceRec

/-! Duplicate-instance detection on POSIX: the copies of the library loaded in one process race
through `open`, `flock`, `ftruncate`, `write`, `read` and `close` on one file. Winning the lock
and publishing the record are separate steps, and a loser reads without waiting. -/
namespace Xplatbase.Instance
open Xplatbase.Lib

/-- What tells the copies apart: the address of `g_self_marker`, the module each came from and
whether a duplicate aborts. -/
structure Copies (ι : Type*) where
  marker : ι → UInt64
  marker_injective : Function.Injective marker
  module : ι → Fin 260 → UInt8
  fatal : ι → Bool

def Copies.record {ι : Type*} (c : Copies ι) (i : ι) : XplatInstanceRec :=
  ⟨1, c.marker i, c.module i⟩

/-- Where a copy stands in `xplat_instance_register`. -/
inductive RegisterPc
  | idle
  | openFile
  | flock
  | ftruncate
  | write
  | read
  | close
  | returned
  | aborted
  deriving DecidableEq

structure Copy where
  pc : RegisterPc
  registered : Bool
  duplicate : Bool
  first : XplatInstanceRec

structure InstanceState (ι : Type*) where
  file : List UInt8
  lock : Option ι
  copy : ι → Copy

/-- The call of `xplat_instance_register` or one system call of it, with what the system answers:
whether it succeeds, or how many bytes it moves at most. -/
inductive InstanceLabel (ι : Type*)
  | register (i : ι)
  | openFile (i : ι) (ok : Bool)
  | flock (i : ι)
  | ftruncate (i : ι) (ok : Bool)
  | write (i : ι) (n : ℕ)
  | read (i : ι) (n : ℕ)
  | close (i : ι)

variable {ι : Type*}

def InstanceState.setCopy [DecidableEq ι] (s : InstanceState ι) (i : ι) (c : Copy) :
    InstanceState ι :=
  { s with copy := Function.update s.copy i c }

/-- The loser's test: a whole record that is not its own. -/
def Copies.compare (c : Copies ι) (i : ι) (b : List UInt8) (p : Copy) : Copy :=
  match readRec b with
  | some r =>
    if r.identity ≠ c.marker i then { p with pc := .close, duplicate := true, first := r }
    else { p with pc := .close }
  | none => { p with pc := .close }

def instanceStep [DecidableEq ι] (c : Copies ι) (s : InstanceState ι) :
    InstanceLabel ι → Option (InstanceState ι)
  | .register i =>
    let p := s.copy i
    match p.pc with
    | .idle =>
      some (s.setCopy i { p with pc := .openFile, registered := true, first := c.record i })
    | .returned => if p.registered then some s else none
    | _ => none
  | .openFile i ok =>
    let p := s.copy i
    if p.pc = .openFile then some (s.setCopy i { p with pc := if ok then .flock else .returned })
    else none
  | .flock i =>
    let p := s.copy i
    if p.pc = .flock then
      match s.lock with
      | none => some ({ s with lock := some i }.setCopy i { p with pc := .ftruncate })
      | some _ => some (s.setCopy i { p with pc := .read })
    else none
  | .ftruncate i ok =>
    let p := s.copy i
    if p.pc = .ftruncate then
      if ok then some ({ s with file := [] }.setCopy i { p with pc := .write })
      else some (s.setCopy i { p with pc := .returned })
    else none
  | .write i n =>
    let p := s.copy i
    let b := (c.record i).bytes.take n
    if p.pc = .write then
      some ({ s with file := b ++ s.file.drop b.length }.setCopy i { p with pc := .returned })
    else none
  | .read i n =>
    let p := s.copy i
    if p.pc = .read then some (s.setCopy i (c.compare i (s.file.take (min n recSize)) p))
    else none
  | .close i =>
    let p := s.copy i
    if p.pc = .close then
      some (s.setCopy i { p with pc := if p.duplicate && c.fatal i then .aborted else .returned })
    else none

/-- No copy has called yet; the file may be left over from an earlier process of that pid. -/
def instanceStart (c : Copies ι) (leftover : List UInt8) : InstanceState ι :=
  ⟨leftover, none, fun i => ⟨.idle, false, false, c.record i⟩⟩

def instances [DecidableEq ι] (c : Copies ι) : System (InstanceState ι) (InstanceLabel ι) where
  init := fun s => ∃ leftover, s = instanceStart c leftover
  step := instanceStep c

/-- The system calls do what they are asked, and a copy that lost the lock reads the file only
after the winner's `write`. -/
def Published (s : InstanceState ι) : InstanceLabel ι → Prop
  | .openFile _ ok | .ftruncate _ ok => ok = true
  | .write _ n => recSize ≤ n
  | .read _ n => recSize ≤ n ∧ ∀ j ∈ s.lock, (s.copy j).pc = .returned
  | _ => True

instance (s : InstanceState ι) : (l : InstanceLabel ι) → Decidable (Published s l)
  | .openFile _ ok | .ftruncate _ ok => inferInstanceAs (Decidable (ok = true))
  | .write _ n => inferInstanceAs (Decidable (recSize ≤ n))
  | .read _ n => by
    unfold Published
    infer_instance
  | .register _ | .flock _ | .close _ => .isTrue trivial

/-- The copies agree on who came first: one copy at most takes itself for the only one, and each
of the others names the holder of the lock. -/
structure Detected (c : Copies ι) (s : InstanceState ι) : Prop where
  one : ∀ i j, (s.copy i).pc = .returned → (s.copy j).pc = .returned →
    (s.copy i).duplicate = false → (s.copy j).duplicate = false → i = j
  named : ∀ i, (s.copy i).duplicate = true →
    ∃ j, s.lock = some j ∧ (s.copy i).first.identity = c.marker j

/-- What a copy knows at each point, given who holds the lock and what the file says. -/
def Copy.Sound (c : Copies ι) (s : InstanceState ι) (i : ι) (p : Copy) : Prop :=
  match p.pc with
  | .idle | .openFile | .flock => s.lock ≠ some i ∧ p.duplicate = false
  | .ftruncate => s.lock = some i ∧ p.duplicate = false
  | .write => s.lock = some i ∧ p.duplicate = false ∧ s.file = []
  | .read => s.lock.isSome ∧ s.lock ≠ some i ∧ p.duplicate = false
  | .close | .aborted =>
    s.lock ≠ some i ∧ p.duplicate = true ∧ ∃ j, s.lock = some j ∧ p.first.identity = c.marker j
  | .returned =>
    (s.lock = some i ∧ p.duplicate = false ∧ s.file = (c.record i).bytes) ∨
      (s.lock ≠ some i ∧ p.duplicate = true ∧
        ∃ j, s.lock = some j ∧ p.first.identity = c.marker j)

def Sound (c : Copies ι) (s : InstanceState ι) : Prop :=
  ∀ i, (s.copy i).Sound c s i

theorem Copy.Sound.other {c : Copies ι} {s s' : InstanceState ι} {j : ι} {p : Copy}
    (h : p.Sound c s j) (hlock : s'.lock = s.lock)
    (hfile : s.lock = some j → s'.file = s.file) :
    p.Sound c s' j := by
  unfold Copy.Sound at h ⊢
  rw [hlock]
  cases hp : p.pc <;> rw [hp] at h <;> simp only at h ⊢
  all_goals try exact h
  · exact ⟨h.1, h.2.1, by rw [hfile h.1]; exact h.2.2⟩
  · rcases h with h | h
    · exact Or.inl ⟨h.1, h.2.1, by rw [hfile h.1]; exact h.2.2⟩
    · exact Or.inr h

/-- One copy moves: what the others know survives when lock and file do, as far as they hold
it. -/
theorem Sound.setCopy [DecidableEq ι] {c : Copies ι} {s t : InstanceState ι} {i : ι} {p : Copy}
    (h : Sound c s) (hcopy : t.copy = s.copy) (hlock : t.lock = s.lock)
    (hfile : ∀ j, j ≠ i → s.lock = some j → t.file = s.file) (hp : p.Sound c t i) :
    Sound c (t.setCopy i p) := by
  intro j
  by_cases hj : j = i
  · subst hj
    simp only [InstanceState.setCopy, Function.update_self]
    exact hp.other rfl fun _ => rfl
  · simp only [InstanceState.setCopy, Function.update_of_ne hj, hcopy]
    exact (h j).other hlock (hfile j hj)

theorem Sound.compare {c : Copies ι} {s : InstanceState ι} {i j : ι} {p : Copy}
    (hp : p.Sound c s i) (hpc : p.pc = .read) (hlock : s.lock = some j)
    (hfile : s.file = (c.record j).bytes) :
    (c.compare i (s.file.take recSize) p).Sound c s i := by
  simp only [Copy.Sound, hpc] at hp
  have hji : j ≠ i := fun he => hp.2.1 (he ▸ hlock)
  have hread : readRec (s.file.take recSize) = some (c.record j) := by
    rw [hfile, List.take_of_length_le (by simp), readRec_bytes]
  have hne : (c.record j).identity ≠ c.marker i := fun he => hji (c.marker_injective he)
  simp only [Copies.compare, hread, hne, ne_eq, not_false_eq_true, if_true, Copy.Sound]
  exact ⟨hp.2.1, trivial, j, hlock, rfl⟩

theorem Sound.step [DecidableEq ι] {c : Copies ι} {s s' : InstanceState ι} {l : InstanceLabel ι}
    (h : Sound c s) (hok : Published s l) (hs : instanceStep c s l = some s') :
    Sound c s' := by
  cases l with
  | register i =>
    have hi := h i
    cases hpc : (s.copy i).pc <;> simp only [instanceStep, hpc, reduceCtorEq] at hs
    · obtain rfl := Option.some.inj hs
      simp only [Copy.Sound, hpc] at hi
      exact h.setCopy rfl rfl (fun _ _ _ => rfl) hi
    · split_ifs at hs
      obtain rfl := Option.some.inj hs
      exact h
  | openFile i ok =>
    obtain rfl : ok = true := hok
    simp only [instanceStep] at hs
    split_ifs at hs with hpc
    obtain rfl := Option.some.inj hs
    have hi := h i
    simp only [Copy.Sound, hpc] at hi
    exact h.setCopy rfl rfl (fun _ _ _ => rfl) hi
  | flock i =>
    simp only [instanceStep] at hs
    split_ifs at hs with hpc
    have hi := h i
    simp only [Copy.Sound, hpc] at hi
    cases hlock : s.lock with
    | some j =>
      simp only [hlock] at hs
      obtain rfl := Option.some.inj hs
      exact h.setCopy rfl rfl (fun _ _ _ => rfl) ⟨by rw [hlock]; rfl, hi⟩
    | none =>
      simp only [hlock] at hs
      obtain rfl := Option.some.inj hs
      intro j
      by_cases hj : j = i
      · subst hj
        simp only [InstanceState.setCopy, Function.update_self, Copy.Sound]
        exact ⟨trivial, hi.2⟩
      · -- with the lock free nobody has got further than `flock`
        have hold := h j
        have hij : i ≠ j := Ne.symm hj
        simp only [InstanceState.setCopy, Function.update_of_ne hj]
        cases hpj : (s.copy j).pc <;> simp [Copy.Sound, hpj, hlock] at hold ⊢ <;>
          exact ⟨hij, hold⟩
  | ftruncate i ok =>
    obtain rfl : ok = true := hok
    simp only [instanceStep] at hs
    split_ifs at hs with hpc
    obtain rfl := Option.some.inj hs
    have hi := h i
    simp only [Copy.Sound, hpc] at hi
    refine h.setCopy rfl rfl (fun j hj hlock => ?_) ⟨hi.1, hi.2, rfl⟩
    exact absurd (Option.some.inj (hlock.symm.trans hi.1)) hj
  | write i n =>
    have hn : recSize ≤ n := hok
    simp only [instanceStep] at hs
    split_ifs at hs with hpc
    obtain rfl := Option.some.inj hs
    have hi := h i
    simp only [Copy.Sound, hpc] at hi
    obtain ⟨hlock, hdup, hfile⟩ := hi
    refine h.setCopy rfl rfl (fun j hj hlj => ?_) (Or.inl ⟨hlock, hdup, ?_⟩)
    · exact absurd (Option.some.inj (hlj.symm.trans hlock)) hj
    · simp [hfile, List.take_of_length_le, hn]
  | read i n =>
    obtain ⟨hn, hpub⟩ := hok
    simp only [instanceStep] at hs
    split_ifs at hs with hpc
    obtain rfl := Option.some.inj hs
    have hi := h i
    obtain ⟨j, hlock⟩ : ∃ j, s.lock = some j := by
      simp only [Copy.Sound, hpc] at hi
      exact Option.isSome_iff_exists.mp hi.1
    have hfile : s.file = (c.record j).bytes := by
      have hj := h j
      simp only [Copy.Sound, hpub j hlock, hlock] at hj
      rcases hj with hj | hj
      · exact hj.2.2
      · exact absurd rfl hj.1
    rw [Nat.min_eq_right hn]
    exact h.setCopy rfl rfl (fun _ _ _ => rfl) (Sound.compare hi hpc hlock hfile)
  | close i =>
    have hi := h i
    simp only [instanceStep] at hs
    split_ifs at hs with hpc hfatal
    · obtain rfl := Option.some.inj hs
      simp only [Copy.Sound, hpc] at hi
      exact h.setCopy rfl rfl (fun _ _ _ => rfl) hi
    · obtain rfl := Option.some.inj hs
      simp only [Copy.Sound, hpc] at hi
      exact h.setCopy rfl rfl (fun _ _ _ => rfl) (Or.inr hi)

theorem Sound.detected {c : Copies ι} {s : InstanceState ι} (h : Sound c s) :
    Detected c s := by
  have hholds : ∀ i, (s.copy i).pc = .returned → (s.copy i).duplicate = false →
      s.lock = some i := by
    intro i hpc hdup
    have hi := h i
    simp only [Copy.Sound, hpc, hdup] at hi
    rcases hi with hi | hi
    · exact hi.1
    · exact absurd hi.2.1 (by simp)
  refine ⟨fun i j hi hj hdi hdj => ?_, fun i hdup => ?_⟩
  · exact Option.some.inj ((hholds i hi hdi).symm.trans (hholds j hj hdj))
  · have hi := h i
    cases hpc : (s.copy i).pc <;> simp [Copy.Sound, hpc, hdup] at hi
    · exact hi.2
    · exact hi.2
    · exact hi.2

/-- Detection by `xplat_instance_register`, for any number of copies and any leftover file. -/
theorem xplatInstanceRegister_detects [DecidableEq ι] {c : Copies ι} {s : InstanceState ι}
    (h : (instances c).ReachableWhen Published s) :
    Detected c s :=
  Sound.detected <| h.invariant
    (by
      rintro _ ⟨leftover, rfl⟩ i
      exact ⟨by simp [instanceStart], rfl⟩)
    fun _ _ _ hs hok hstep => hs.step hok hstep

def twoCopies : Copies (Fin 2) where
  marker := fun i => UInt64.ofNat (i + 1)
  marker_injective := by
    intro i j hij
    revert i j
    decide
  module := fun _ _ => 0
  fatal := fun _ => false

/-- The second copy reads after the first one's `write`. -/
theorem xplatInstanceRegister_detects_late :
    ∃ s, (instances twoCopies).ReachableWhen Published s ∧ Detected twoCopies s ∧
      (s.copy 0).pc = .returned ∧ (s.copy 1).pc = .returned ∧
      (s.copy 0).duplicate = false ∧ (s.copy 1).duplicate = true := by
  have hout : ((instances twoCopies).execWhen Published (instanceStart twoCopies [])
      [.register 0, .openFile 0 true, .register 1, .openFile 1 true, .flock 0, .flock 1,
        .ftruncate 0 true, .write 0 280, .read 1 280, .close 1]).map (fun s =>
      decide ((s.copy 0).pc = .returned ∧ (s.copy 1).pc = .returned ∧
        (s.copy 0).duplicate = false ∧ (s.copy 1).duplicate = true)) = some true := by
    decide +kernel
  obtain ⟨s, hrun, hs⟩ := Option.map_eq_some_iff.mp hout
  have hreach : (instances twoCopies).ReachableWhen Published s :=
    .exec (.init ⟨[], rfl⟩) hrun
  exact ⟨s, hreach, xplatInstanceRegister_detects hreach, of_decide_eq_true hs⟩

/-- The second copy reads between the first one's `flock` and its `write`: an empty file, and
both take themselves for the only one. -/
theorem xplatInstanceRegister_early_read :
    ¬∀ s, (instances twoCopies).Reachable s → (∀ i, (s.copy i).pc = .returned) →
      Detected twoCopies s := by
  intro hall
  have hout : ((instances twoCopies).exec (instanceStart twoCopies [])
      [.register 0, .openFile 0 true, .register 1, .openFile 1 true, .flock 0, .flock 1,
        .read 1 280, .close 1, .ftruncate 0 true, .write 0 280]).map (fun s =>
      decide ((∀ i, (s.copy i).pc = .returned) ∧ ∀ i, (s.copy i).duplicate = false)) =
      some true := by
    decide +kernel
  obtain ⟨s, hrun, hs⟩ := Option.map_eq_some_iff.mp hout
  obtain ⟨hret, hdup⟩ := of_decide_eq_true hs
  have hd := hall s (.exec (.init ⟨[], rfl⟩) hrun) hret
  exact absurd (hd.one 0 1 (hret 0) (hret 1) (hdup 0) (hdup 1)) (by decide)

end Xplatbase.Instance
