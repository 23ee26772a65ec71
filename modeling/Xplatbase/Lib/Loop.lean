import Mathlib.Data.List.Basic

/-! Counted loops over a body that may fault, in any monad that can express the fault. -/
namespace Xplatbase.Lib

universe u v

variable {σ : Type u} {ε : Type*}

/-- `for (i = 0; i < n; i++)`; a fault of the body is a fault of the loop. -/
def forUpTo {m : Type u → Type v} [Monad m] (body : ℕ → σ → m σ) : ℕ → σ → m σ
  | 0, s => pure s
  | n + 1, s => forUpTo body n s >>= body n

/-- The same loop left at the first pass whose body answers `false`, with that index. -/
def tryUpTo (body : ℕ → σ → Option (Bool × σ)) : ℕ → σ → Option (Option ℕ × σ)
  | 0, s => some (none, s)
  | n + 1, s => (tryUpTo body n s).bind fun (failed, s) =>
    match failed with
    | some i => some (some i, s)
    | none => (body n s).map fun (ok, s) => (if ok then none else some n, s)

/-- The loop rule: `P i` holds before pass `i`. -/
theorem forUpTo_rule (body : ℕ → σ → Option σ) (P : ℕ → σ → Prop) {n : ℕ} {s : σ} (h0 : P 0 s)
    (hbody : ∀ i s, i < n → P i s → ∃ s', body i s = some s' ∧ P (i + 1) s') :
    ∃ s', forUpTo body n s = some s' ∧ P n s' := by
  induction n with
  | zero => exact ⟨s, rfl, h0⟩
  | succ n ih =>
    obtain ⟨t, ht, hP⟩ := ih fun i s hi => hbody i s (by omega)
    obtain ⟨s', hs', hP'⟩ := hbody n t (by omega) hP
    exact ⟨s', by rw [forUpTo, ht]; exact hs', hP'⟩

/-- The same rule where the fault is named: every pass either goes on or ends in `e`. -/
theorem forUpTo_ok_or {body : ℕ → σ → Except ε σ} (P : ℕ → σ → Prop) {n : ℕ} {s : σ} {e : ε}
    (h0 : P 0 s)
    (hbody : ∀ i s, i < n → P i s →
      body i s = .error e ∨ ∃ s', body i s = .ok s' ∧ P (i + 1) s') :
    forUpTo body n s = .error e ∨ ∃ s', forUpTo body n s = .ok s' ∧ P n s' := by
  induction n with
  | zero => exact Or.inr ⟨s, rfl, h0⟩
  | succ n ih =>
    rcases ih fun i s hi => hbody i s (by omega) with ht | ⟨t, ht, hP⟩
    · exact Or.inl (by rw [forUpTo, ht]; rfl)
    · rcases hbody n t (by omega) hP with hs | ⟨s', hs', hP'⟩
      · exact Or.inl (by rw [forUpTo, ht]; exact hs)
      · exact Or.inr ⟨s', by rw [forUpTo, ht]; exact hs', hP'⟩

theorem forUpTo_ok {body : ℕ → σ → Except ε σ} (P : ℕ → σ → Prop) {n : ℕ} {s : σ} (h0 : P 0 s)
    (hbody : ∀ i s, i < n → P i s → ∃ s', body i s = .ok s' ∧ P (i + 1) s') :
    ∃ s', forUpTo body n s = .ok s' ∧ P n s' := by
  induction n with
  | zero => exact ⟨s, rfl, h0⟩
  | succ n ih =>
    obtain ⟨t, ht, hP⟩ := ih fun i s hi => hbody i s (by omega)
    obtain ⟨s', hs', hP'⟩ := hbody n t (by omega) hP
    exact ⟨s', by rw [forUpTo, ht]; exact hs', hP'⟩

/-- The rule of a loop that can be left: `Q i` holds of what pass `i` leaves behind. -/
theorem tryUpTo_rule (body : ℕ → σ → Option (Bool × σ)) (P Q : ℕ → σ → Prop) {n : ℕ} {s : σ}
    (h0 : P 0 s)
    (hbody : ∀ i s, i < n → P i s →
      ∃ ok s', body i s = some (ok, s') ∧ if ok = true then P (i + 1) s' else Q i s') :
    ∃ failed s', tryUpTo body n s = some (failed, s') ∧
      match failed with
      | none => P n s'
      | some i => i < n ∧ Q i s' := by
  induction n with
  | zero => exact ⟨none, s, rfl, h0⟩
  | succ n ih =>
    obtain ⟨failed, t, ht, hP⟩ := ih fun i s hi => hbody i s (by omega)
    cases failed with
    | some i => exact ⟨some i, t, by rw [tryUpTo, ht]; rfl, by omega, hP.2⟩
    | none =>
      obtain ⟨ok, s', hs', hQ⟩ := hbody n t (by omega) hP
      refine ⟨if ok then none else some n, s', by rw [tryUpTo, ht]; simp [hs'], ?_⟩
      cases ok with
      | true => simpa using hQ
      | false => exact ⟨by omega, by simpa using hQ⟩

end Xplatbase.Lib
