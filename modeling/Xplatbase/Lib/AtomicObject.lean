import Mathlib.Logic.Function.Basic
import Xplatbase.Lib.Simulation

/-! Objects that any number of parties call, each call taking effect at one moment between its start
and its return. -/
namespace Xplatbase.Lib

/-- What the operations of an object do and answer, one after the other. -/
structure SeqObject (α ω ρ : Type*) where
  init : α
  step : α → ω → ρ → α → Prop

inductive CallPhase (ω ρ : Type*)
  | idle
  | called (op : ω)
  /-- It has taken effect. -/
  | answered (r : ρ)

inductive CallEvent (ι ω ρ : Type*)
  | calls (i : ι) (op : ω)
  | takesEffect (i : ι) (op : ω) (r : ρ)
  | returns (i : ι) (r : ρ)

structure ObjectState (ι α ω ρ : Type*) where
  value : α
  phase : ι → CallPhase ω ρ

variable {ι α ω ρ : Type*}

/-- What may be seen of a call of `i` that gets from one phase to the next. -/
def CallPhase.event (i : ι) : CallPhase ω ρ → CallPhase ω ρ → Option (CallEvent ι ω ρ)
  | .idle, .called op => some (.calls i op)
  | .called op, .answered r => some (.takesEffect i op r)
  | .answered r, .idle => some (.returns i r)
  | _, _ => none

def effects : List (CallEvent ι ω ρ) → List (ω × ρ) :=
  List.filterMap fun
    | .takesEffect _ op r => some (op, r)
    | _ => none

namespace SeqObject

variable {O : SeqObject α ω ρ} {a b c : α}

/-- The operations of `es`, newest first, lead from `a` to `b`. -/
inductive Runs (O : SeqObject α ω ρ) (a : α) : List (ω × ρ) → α → Prop
  | nil : Runs O a [] a
  | cons {es b op r c} : Runs O a es b → O.step b op r c → Runs O a ((op, r) :: es) c

variable [DecidableEq ι]

inductive AtomicStep (O : SeqObject α ω ρ) (s : ObjectState ι α ω ρ) :
    CallEvent ι ω ρ → ObjectState ι α ω ρ → Prop
  | calls {i op} (hi : s.phase i = .idle) :
      AtomicStep O s (.calls i op) { s with phase := Function.update s.phase i (.called op) }
  | takesEffect {i op r v} (hi : s.phase i = .called op) (hv : O.step s.value op r v) :
      AtomicStep O s (.takesEffect i op r) ⟨v, Function.update s.phase i (.answered r)⟩
  | returns {i r} (hi : s.phase i = .answered r) :
      AtomicStep O s (.returns i r) { s with phase := Function.update s.phase i .idle }

def atomicSpec (O : SeqObject α ω ρ) (ι : Type*) [DecidableEq ι] :
    Spec (ObjectState ι α ω ρ) (CallEvent ι ω ρ) where
  init := fun s => s = ⟨O.init, fun _ => .idle⟩
  step := AtomicStep O

/-- Whatever the order of the calls of all the parties, what took effect is a run of the object. -/
theorem path_runs {s t : ObjectState ι α ω ρ} {es : List (CallEvent ι ω ρ)}
    (h : (O.atomicSpec ι).Path s es t) : O.Runs s.value (effects es) t.value := by
  induction h with
  | refl => exact .nil
  | step _ he ih =>
    cases he with
    | calls => exact ih
    | takesEffect _ hv => exact ih.cons hv
    | returns => exact ih

/-- How a call gets on, and what becomes of the value. -/
inductive PhaseTurn (O : SeqObject α ω ρ) (v : α) : CallPhase ω ρ → α → CallPhase ω ρ → Prop
  | stays {p} : PhaseTurn O v p v p
  | calls {op} : PhaseTurn O v .idle v (.called op)
  | takesEffect {op r v'} (hv : O.step v op r v') : PhaseTurn O v (.called op) v' (.answered r)
  | returns {r} : PhaseTurn O v (.answered r) v .idle

/-- A step of one call, the others being left as they are, is one of the object, and shows as such. -/
theorem PhaseTurn.turn {s : ObjectState ι α ω ρ} {i : ι} {v : α} {phase : ι → CallPhase ω ρ}
    (h : O.PhaseTurn s.value (s.phase i) v (phase i)) (hothers : ∀ j ≠ i, phase j = s.phase j) :
    (O.atomicSpec ι).Turn s ((s.phase i).event i (phase i)) ⟨v, phase⟩ := by
  have hphase : phase = Function.update s.phase i (phase i) := by
    funext j
    by_cases hj : j = i
    · rw [hj, Function.update_self]
    · rw [Function.update_of_ne hj, hothers j hj]
  rw [hphase, Function.update_self]
  revert h
  generalize phase i = p'
  generalize hp : s.phase i = p
  intro h
  cases h with
  | stays =>
    rw [← hp, Function.update_eq_self]
    cases s.phase i with
    | idle => exact rfl
    | called op => exact rfl
    | answered r => exact rfl
  | calls => exact AtomicStep.calls hp
  | takesEffect hv => exact AtomicStep.takesEffect hp hv
  | returns => exact AtomicStep.returns hp

end SeqObject

/-! ### A bounded queue -/

inductive QueueOp (τ : Type*)
  | push (x : τ)
  | pop

inductive QueueAnswer (τ : Type*)
  | pushed
  | full
  | popped (x : τ)
  | empty

variable {τ : Type*}

inductive QueueTurn (cap : ℕ) : List τ → QueueOp τ → QueueAnswer τ → List τ → Prop
  | pushed {q x} (hroom : q.length < cap) : QueueTurn cap q (.push x) .pushed (q ++ [x])
  | full {q x} (hfull : cap ≤ q.length) : QueueTurn cap q (.push x) .full q
  | popped {q x} : QueueTurn cap (x :: q) .pop (.popped x) q
  | empty : QueueTurn cap [] .pop .empty []

/-- A first-in first-out queue of at most `cap` items. -/
def boundedQueue (τ : Type*) (cap : ℕ) : SeqObject (List τ) (QueueOp τ) (QueueAnswer τ) where
  init := []
  step := QueueTurn cap

def pushedItems : List (QueueOp τ × QueueAnswer τ) → List τ
  | [] => []
  | (.push x, .pushed) :: es => pushedItems es ++ [x]
  | _ :: es => pushedItems es

def poppedItems : List (QueueOp τ × QueueAnswer τ) → List τ
  | [] => []
  | (_, .popped x) :: es => poppedItems es ++ [x]
  | _ :: es => poppedItems es

/-- What was pushed is what was popped, in the same order, and what is in the queue. -/
theorem queue_runs {cap : ℕ} {es : List (QueueOp τ × QueueAnswer τ)} {q : List τ}
    (h : (boundedQueue τ cap).Runs [] es q) :
    pushedItems es = poppedItems es ++ q ∧ q.length ≤ cap := by
  induction h with
  | nil => exact ⟨rfl, Nat.zero_le cap⟩
  | cons _ hstep ih =>
    obtain ⟨hitems, hlen⟩ := ih
    cases hstep with
    | pushed hroom =>
      simp only [pushedItems, poppedItems]
      refine ⟨?_, ?_⟩
      · rw [hitems, List.append_assoc]
      · rw [List.length_append]
        exact hroom
    | full => exact ⟨hitems, hlen⟩
    | popped =>
      simp only [pushedItems, poppedItems]
      refine ⟨?_, Nat.le_of_succ_le hlen⟩
      rw [hitems, List.append_assoc]
      rfl
    | empty => exact ⟨hitems, hlen⟩

end Xplatbase.Lib
