import Xplatbase.Lib.System

/-! Forward simulation: a system shows no more than a specification of it allows. -/
namespace Xplatbase.Lib

/-- What may be seen of a system: the states of a specification and its steps, by the event that
each shows. -/
structure Spec (α ε : Type*) where
  init : α → Prop
  step : α → ε → α → Prop

namespace Spec

variable {α ε : Type*} {A : Spec α ε} {a b c : α} {es es' : List ε}

/-- A step that shows an event, or none. -/
def Turn (A : Spec α ε) (a : α) : Option ε → α → Prop
  | none, b => b = a
  | some e, b => A.step a e b

/-- The events `es`, newest first, lead from `a` to `b`. -/
inductive Path (A : Spec α ε) (a : α) : List ε → α → Prop
  | refl : Path A a [] a
  | step {es b e c} : Path A a es b → A.step b e c → Path A a (e :: es) c

theorem Path.turn (h : A.Path a es b) {e : Option ε} (he : A.Turn b e c) :
    A.Path a (e.toList ++ es) c := by
  cases e with
  | none =>
    obtain rfl : c = b := he
    exact h
  | some e => exact h.step he

theorem Path.invariant {P : α → Prop} {ok : ε → Prop} (h : A.Path a es b)
    (hok : ∀ e ∈ es, ok e) (ha : P a) (hstep : ∀ b e c, P b → ok e → A.step b e c → P c) : P b := by
  induction h with
  | refl => exact ha
  | step hpath he ih =>
    have hrest := ih fun e he => hok e (List.mem_cons_of_mem _ he)
    exact hstep _ _ _ hrest (hok _ List.mem_cons_self) he

end Spec

namespace System

variable {σ ℓ ε : Type*}

/-- The allowed steps from `s` to `s'` show the events `es`, newest first. -/
inductive Shows (S : System σ ℓ) (ok : σ → ℓ → Prop) (event : σ → ℓ → σ → Option ε) (s : σ) :
    List ε → σ → Prop
  | refl : Shows S ok event s [] s
  | step {es t u} (l : ℓ) : Shows S ok event s es t → ok t l → S.step t l = some u →
      Shows S ok event s ((event t l u).toList ++ es) u

/-- Follow a list of labels, and collect the events in front of `es`. -/
def showWhen (S : System σ ℓ) (ok : σ → ℓ → Prop) [∀ s l, Decidable (ok s l)]
    (event : σ → ℓ → σ → Option ε) : σ → List ε → List ℓ → Option (List ε × σ)
  | s, es, [] => some (es, s)
  | s, es, l :: ls =>
    if ok s l then
      (S.step s l).bind fun t => S.showWhen ok event t ((event s l t).toList ++ es) ls
    else none

/-- Related states stay related: what a step of the system shows, the specification can do. -/
structure Simulates (S : System σ ℓ) (ok : σ → ℓ → Prop) (event : σ → ℓ → σ → Option ε)
    {α : Type*} (A : Spec α ε) (R : σ → α → Prop) : Prop where
  init : ∀ s, S.init s → ∃ a, A.init a ∧ R s a
  step : ∀ s l t a, R s a → ok s l → S.step s l = some t → ∃ b, A.Turn a (event s l t) b ∧ R t b

variable {S : System σ ℓ} {ok : σ → ℓ → Prop} {event : σ → ℓ → σ → Option ε} {α : Type*}
  {A : Spec α ε} {R : σ → α → Prop} {s t : σ} {a : α} {es : List ε}

theorem Shows.reachable (h : S.Shows ok event s es t) (hs : S.ReachableWhen ok s) :
    S.ReachableWhen ok t := by
  induction h with
  | refl => exact hs
  | step l _ hl ht ih => exact .step l ih hl ht

theorem Shows.follow [∀ s l, Decidable (ok s l)] {u : σ} {es' : List ε} {ls : List ℓ}
    (h : S.Shows ok event s es t) (hs : S.showWhen ok event t es ls = some (es', u)) :
    S.Shows ok event s es' u := by
  induction ls generalizing t es with
  | nil =>
    obtain ⟨rfl, rfl⟩ := Prod.mk.inj (Option.some.inj hs)
    exact h
  | cons l ls ih =>
    rw [showWhen] at hs
    split_ifs at hs with hl
    obtain ⟨v, hv, hrest⟩ := Option.bind_eq_some_iff.mp hs
    exact ih (.step l h hl hv) hrest

namespace Simulates

/-- The simulation rule, over the steps from a related state. -/
theorem path (h : Simulates S ok event A R) (hs : S.Shows ok event s es t) (ha : R s a) :
    ∃ b, A.Path a es b ∧ R t b := by
  induction hs with
  | refl => exact ⟨a, .refl, ha⟩
  | step l _ hl ht ih =>
    obtain ⟨b, hpath, hb⟩ := ih
    obtain ⟨c, hturn, hc⟩ := h.step _ l _ b hb hl ht
    exact ⟨c, hpath.turn hturn, hc⟩

/-- Every reachable state is related to one of the specification. -/
theorem reachable (h : Simulates S ok event A R) (hs : S.ReachableWhen ok s) : ∃ a, R s a := by
  induction hs with
  | init hs =>
    obtain ⟨a, -, ha⟩ := h.init _ hs
    exact ⟨a, ha⟩
  | step l _ hl ht ih =>
    obtain ⟨a, ha⟩ := ih
    obtain ⟨b, -, hb⟩ := h.step _ l _ a ha hl ht
    exact ⟨b, hb⟩

/-- The simulation rule, over whole runs. -/
theorem run (h : Simulates S ok event A R) (hinit : S.init s) (hs : S.Shows ok event s es t) :
    ∃ a b, A.init a ∧ A.Path a es b ∧ R t b := by
  obtain ⟨a, ha, hsa⟩ := h.init s hinit
  obtain ⟨b, hpath, hb⟩ := h.path hs hsa
  exact ⟨a, b, ha, hpath, hb⟩

end Simulates
end System
end Xplatbase.Lib
