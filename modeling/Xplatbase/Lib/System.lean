import Mathlib.Data.List.Basic
import Mathlib.Tactic.SplitIfs

/-! Labelled transition systems with executable steps. A label names the party that
moves and resolves every choice its environment makes, so `step` is a function. -/
namespace Xplatbase.Lib

structure System (σ : Type*) (ℓ : Type*) where
  init : σ → Prop
  step : σ → ℓ → Option σ

namespace System

variable {σ ℓ : Type*}

/-- States reached by steps that all meet `ok`, a condition on the state before the step. -/
inductive ReachableWhen (S : System σ ℓ) (ok : σ → ℓ → Prop) : σ → Prop
  | init {s} : S.init s → ReachableWhen S ok s
  | step {s s'} (l : ℓ) : ReachableWhen S ok s → ok s l → S.step s l = some s' →
      ReachableWhen S ok s'

def Reachable (S : System σ ℓ) : σ → Prop := S.ReachableWhen fun _ _ => True

/-- Follow a list of labels; `none` when some label is not enabled or not allowed. -/
def execWhen (S : System σ ℓ) (ok : σ → ℓ → Prop) [∀ s l, Decidable (ok s l)] :
    σ → List ℓ → Option σ
  | s, [] => some s
  | s, l :: ls => if ok s l then (S.step s l).bind fun s' => S.execWhen ok s' ls else none

def exec (S : System σ ℓ) : σ → List ℓ → Option σ := S.execWhen fun _ _ => True

theorem ReachableWhen.mono {S : System σ ℓ} {ok ok' : σ → ℓ → Prop}
    (hok : ∀ s l, ok s l → ok' s l) {s : σ} (h : S.ReachableWhen ok s) :
    S.ReachableWhen ok' s := by
  induction h with
  | init h => exact .init h
  | step l _ hl hs ih => exact .step l ih (hok _ _ hl) hs

theorem ReachableWhen.reachable {S : System σ ℓ} {ok : σ → ℓ → Prop} {s : σ}
    (h : S.ReachableWhen ok s) : S.Reachable s :=
  h.mono fun _ _ _ => trivial

/-- The invariant rule: true at the start and kept by every allowed step. -/
theorem ReachableWhen.invariant {S : System σ ℓ} {ok : σ → ℓ → Prop} {P : σ → Prop}
    (hinit : ∀ s, S.init s → P s)
    (hstep : ∀ s l s', P s → ok s l → S.step s l = some s' → P s')
    {s : σ} (h : S.ReachableWhen ok s) : P s := by
  induction h with
  | init h => exact hinit _ h
  | step l _ hl hs ih => exact hstep _ l _ ih hl hs

theorem Reachable.invariant {S : System σ ℓ} {P : σ → Prop}
    (hinit : ∀ s, S.init s → P s)
    (hstep : ∀ s l s', P s → S.step s l = some s' → P s')
    {s : σ} (h : S.Reachable s) : P s :=
  ReachableWhen.invariant hinit (fun s l s' hs _ => hstep s l s' hs) h

theorem Reachable.next {S : System σ ℓ} {s s' : σ} {l : ℓ}
    (h : S.Reachable s) (hs : S.step s l = some s') : S.Reachable s' :=
  .step l h trivial hs

theorem ReachableWhen.exec {S : System σ ℓ} {ok : σ → ℓ → Prop} [∀ s l, Decidable (ok s l)]
    {s s' : σ} {ls : List ℓ} (h : S.ReachableWhen ok s) (hs : S.execWhen ok s ls = some s') :
    S.ReachableWhen ok s' := by
  induction ls generalizing s with
  | nil =>
    have : s = s' := Option.some.inj hs
    exact this ▸ h
  | cons l ls ih =>
    rw [execWhen] at hs
    split_ifs at hs with hl
    obtain ⟨t, ht, hts⟩ := Option.bind_eq_some_iff.mp hs
    exact ih (.step l h hl ht) hts

theorem Reachable.exec {S : System σ ℓ} {s s' : σ} {ls : List ℓ}
    (h : S.Reachable s) (hs : S.exec s ls = some s') : S.Reachable s' :=
  ReachableWhen.exec h hs

end System
end Xplatbase.Lib
