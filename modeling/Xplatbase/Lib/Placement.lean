import Mathlib.Data.Finset.Card
import Mathlib.Data.Fintype.Basic
import Mathlib.Logic.Function.Basic
import Mathlib.Tactic.SplitIfs

/-! Tokens kept in places, at most one token in a place, and what moving them preserves. -/
namespace Xplatbase.Lib

variable {P K : Type*}

def AtMostOnce (v : P → Option K) : Prop :=
  ∀ p q k, v p = some k → v q = some k → p = q

/-- The tokens of `v'` are the tokens of `v`, each moved from `p` to `f p`. -/
def Relocates (f : P → P) (v v' : P → Option K) : Prop :=
  ∀ p' k, v' p' = some k ↔ ∃ p, v p = some k ∧ f p = p'

theorem Relocates.of_eq {v v' : P → Option K} (h : v' = v) : Relocates id v v' := by
  intro p k
  simp [h]

theorem Relocates.trans {f g : P → P} {u v w : P → Option K} (hf : Relocates f u v)
    (hg : Relocates g v w) : Relocates (g ∘ f) u w := by
  intro p k
  rw [hg]
  constructor
  · rintro ⟨q, hq, rfl⟩
    obtain ⟨r, hr, rfl⟩ := (hf q k).mp hq
    exact ⟨r, hr, rfl⟩
  · rintro ⟨r, hr, rfl⟩
    exact ⟨f r, (hf _ k).mpr ⟨r, hr, rfl⟩, rfl⟩

theorem Relocates.at {f : P → P} {v v' : P → Option K} (h : Relocates f v v') {p : P} {k : K}
    (hp : v p = some k) : v' (f p) = some k :=
  (h _ k).mpr ⟨p, hp, rfl⟩

theorem Relocates.atMostOnce {f : P → P} {v v' : P → Option K} (h : Relocates f v v')
    (hv : AtMostOnce v) : AtMostOnce v' := by
  intro p q k hp hq
  obtain ⟨p₀, hp₀, rfl⟩ := (h p k).mp hp
  obtain ⟨q₀, hq₀, rfl⟩ := (h q k).mp hq
  rw [hv p₀ q₀ k hp₀ hq₀]

/-- The token at `a` goes to `b`, which was empty. -/
def moveTo [DecidableEq P] (a b : P) : P → P := fun p => if p = a then b else p

theorem Relocates.move [DecidableEq P] {v v' : P → Option K} {a b : P} (hb : v b = none)
    (hb' : v' b = v a) (ha' : a ≠ b → v' a = none)
    (hrest : ∀ p, p ≠ a → p ≠ b → v' p = v p) : Relocates (moveTo a b) v v' := by
  intro p k
  by_cases hpb : p = b
  · subst hpb
    rw [hb']
    constructor
    · intro h
      exact ⟨a, h, if_pos rfl⟩
    · rintro ⟨q, hq, heq⟩
      unfold moveTo at heq
      split_ifs at heq with hqa
      · exact hqa ▸ hq
      · simp [heq, hb] at hq
  · by_cases hpa : p = a
    · subst hpa
      simp only [ha' hpb, reduceCtorEq, false_iff, not_exists, not_and]
      intro q _ heq
      unfold moveTo at heq
      split_ifs at heq with hqa
      · exact hpb heq.symm
      · exact hqa heq
    · rw [hrest p hpa hpb]
      constructor
      · intro h
        exact ⟨p, h, if_neg hpa⟩
      · rintro ⟨q, hq, heq⟩
        unfold moveTo at heq
        split_ifs at heq with hqa
        · exact absurd heq.symm hpb
        · exact heq ▸ hq

/-- The token at `a` goes to `b`, which was empty, and the token at `c` takes its place. -/
theorem Relocates.moveTwo [DecidableEq P] {v v' : P → Option K} {a b c : P} (hab : a ≠ b)
    (hac : a ≠ c) (hbc : b ≠ c) (hb : v b = none) (hb' : v' b = v a) (ha' : v' a = v c)
    (hc' : v' c = none) (hrest : ∀ p, p ≠ a → p ≠ b → p ≠ c → v' p = v p) :
    Relocates (moveTo c a ∘ moveTo a b) v v' := by
  let u : P → Option K := Function.update (Function.update v b (v a)) a none
  have hu : ∀ p, p ≠ a → p ≠ b → u p = v p := fun p hpa hpb => by
    simp only [u, Function.update_of_ne hpa, Function.update_of_ne hpb]
  have hub : u b = v a := by
    simp only [u, Function.update_of_ne hab.symm, Function.update_self]
  have hua : u a = none := Function.update_self ..
  refine .trans (v := u) (.move hb hub (fun _ => hua) hu) (.move hua ?_ (fun _ => hc') ?_)
  · rw [ha', hu c hac.symm hbc.symm]
  · intro p hpc hpa
    by_cases hpb : p = b
    · rw [hpb, hb', hub]
    · rw [hrest p hpa hpb hpc, hu p hpa hpb]

theorem AtMostOnce.insert [DecidableEq P] {v v' : P → Option K} {a : P} {k : K} (hv : AtMostOnce v)
    (hk : ∀ p, v p ≠ some k) (ha : v' a = some k) (hrest : ∀ p, p ≠ a → v' p = v p) :
    AtMostOnce v' := by
  intro p q j hp hq
  by_cases hpa : p = a <;> by_cases hqa : q = a
  · rw [hpa, hqa]
  · rw [hpa, ha] at hp
    rw [hrest q hqa, ← hp] at hq
    exact absurd hq (hk q)
  · rw [hqa, ha] at hq
    rw [hrest p hpa, ← hq] at hp
    exact absurd hp (hk p)
  · exact hv p q j (hrest p hpa ▸ hp) (hrest q hqa ▸ hq)

/-- The token at `a` is taken away. -/
theorem AtMostOnce.erase {v v' : P → Option K} {a : P} (hv : AtMostOnce v) (ha : v' a = none)
    (hrest : ∀ p, p ≠ a → v' p = v p) : AtMostOnce v' := by
  have hle : ∀ p j, v' p = some j → v p = some j := by
    intro p j hp
    by_cases hpa : p = a
    · simp [hpa, ha] at hp
    · exact hrest p hpa ▸ hp
  intro p q j hp hq
  exact hv p q j (hle p j hp) (hle q j hq)

/-- `O` is the set of tokens in the places that `q` selects. -/
def Census (q : P → Bool) (v : P → Option K) (O : Finset K) : Prop :=
  ∀ k, k ∈ O ↔ ∃ p, q p ∧ v p = some k

theorem Census.relocate {q : P → Bool} {f : P → P} {v v' : P → Option K} {O : Finset K}
    (hO : Census q v O) (h : Relocates f v v') (hf : ∀ p, v p ≠ none → q (f p) = q p) :
    Census q v' O := by
  intro k
  rw [hO k]
  constructor
  · rintro ⟨p, hq, hp⟩
    exact ⟨f p, by rwa [hf p (by simp [hp])], h.at hp⟩
  · rintro ⟨p', hq, hp'⟩
    obtain ⟨p, hp, rfl⟩ := (h p' k).mp hp'
    exact ⟨p, by rwa [hf p (by simp [hp])] at hq, hp⟩

/-- The token at a place that is not selected does not matter. -/
theorem Census.outside {q : P → Bool} {v v' : P → Option K} {O : Finset K} {a : P}
    (hO : Census q v O) (ha : q a = false) (hrest : ∀ p, p ≠ a → v' p = v p) :
    Census q v' O := by
  intro k
  rw [hO k]
  have hne : ∀ p, q p = true → p ≠ a := fun p hq h => by simp [h, ha] at hq
  constructor
  · rintro ⟨p, hq, hp⟩
    exact ⟨p, hq, (hrest p (hne p hq)).trans hp⟩
  · rintro ⟨p, hq, hp⟩
    exact ⟨p, hq, (hrest p (hne p hq)).symm.trans hp⟩

section Move

variable [DecidableEq P] {q : P → Bool} {v v' : P → Option K} {O : Finset K} {a b : P} {k : K}

theorem Census.enter [DecidableEq K] (hO : Census q v O) (h : Relocates (moveTo a b) v v')
    (hv : AtMostOnce v) (hk : v a = some k) (ha : q a = false) (hb : q b = true) :
    k ∉ O ∧ Census q v' (insert k O) := by
  have hne : ∀ p j, q p = true → v p = some j → p ≠ a := fun p j hq _ h => by simp [h, ha] at hq
  have hkO : k ∉ O := fun hin => by
    obtain ⟨p, hq, hp⟩ := (hO k).mp hin
    exact hne p k hq hp (hv p a k hp hk)
  refine ⟨hkO, fun j => ?_⟩
  rw [Finset.mem_insert, hO j]
  constructor
  · rintro (rfl | ⟨p, hq, hp⟩)
    · refine ⟨b, hb, ?_⟩
      simpa [moveTo] using h.at hk
    · refine ⟨p, hq, ?_⟩
      simpa [moveTo, hne p j hq hp] using h.at hp
  · rintro ⟨p', hq, hp'⟩
    obtain ⟨p, hp, rfl⟩ := (h p' j).mp hp'
    unfold moveTo at hq
    split_ifs at hq with hpa
    · rw [hpa, hk] at hp
      exact .inl (Option.some.inj hp).symm
    · exact .inr ⟨p, hq, hp⟩

theorem Census.leave [DecidableEq K] (hO : Census q v O) (h : Relocates (moveTo a b) v v')
    (hv : AtMostOnce v) (hk : v a = some k) (ha : q a = true) (hb : q b = false) :
    k ∈ O ∧ Census q v' (O.erase k) := by
  refine ⟨(hO k).mpr ⟨a, ha, hk⟩, fun j => ?_⟩
  rw [Finset.mem_erase, hO j]
  constructor
  · rintro ⟨hjk, p, hq, hp⟩
    have hpa : p ≠ a := fun h => by
      rw [h, hk] at hp
      exact hjk (Option.some.inj hp).symm
    refine ⟨p, hq, ?_⟩
    simpa [moveTo, hpa] using h.at hp
  · rintro ⟨p', hq, hp'⟩
    obtain ⟨p, hp, rfl⟩ := (h p' j).mp hp'
    unfold moveTo at hq
    split_ifs at hq with hpa
    · simp [hb] at hq
    · refine ⟨fun hjk => hpa (hv p a j hp (hjk ▸ hk)), p, hq, hp⟩

end Move
end Xplatbase.Lib
