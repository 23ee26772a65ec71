import Mathlib.Data.List.Nodup
import Mathlib.Data.Set.Insert
import Mathlib.Logic.Equiv.Basic

/-! Items kept on shelves, each on exactly one of them, and what moving them preserves. -/
namespace Xplatbase.Lib

variable {P K : Type*} {v v' : P → List K} {D D' : Set K} {a b : P} {k : K}

/-- The shelves hold the items of `D` and no others, each on one shelf and once. -/
structure Shelved (v : P → List K) (D : Set K) : Prop where
  nodup : ∀ p, (v p).Nodup
  once : ∀ p q k, k ∈ v p → k ∈ v q → p = q
  mem_iff : ∀ k, k ∈ D ↔ ∃ p, k ∈ v p

namespace Shelved

theorem mem (h : Shelved v D) {p : P} (hk : k ∈ v p) : k ∈ D :=
  (h.mem_iff k).mpr ⟨p, hk⟩

theorem existsUnique (h : Shelved v D) (hk : k ∈ D) : ∃! p, k ∈ v p := by
  obtain ⟨p, hp⟩ := (h.mem_iff k).mp hk
  exact ⟨p, hp, fun q hq => h.once q p k hq hp⟩

theorem not_mem (h : Shelved v D) {p q : P} (hk : k ∈ v p) (hpq : p ≠ q) : k ∉ v q :=
  fun hq => hpq (h.once p q k hk hq)

/-- A shelving with the same membership up to where one item lies. -/
theorem of_mem (h : Shelved v D) (hn : ∀ p, (v' p).Nodup)
    (hm : ∀ p x, x ∈ v' p ↔ x ≠ k ∧ x ∈ v p ∨ x = k ∧ p = b) :
    Shelved v' (insert k D) := by
  constructor
  · exact hn
  · intro p q x hp hq
    rw [hm] at hp hq
    rcases hp with ⟨hx, hp⟩ | ⟨hx, rfl⟩
    · rcases hq with ⟨-, hq⟩ | ⟨hx', -⟩
      · exact h.once p q x hp hq
      · exact absurd hx' hx
    · rcases hq with ⟨hx', -⟩ | ⟨-, rfl⟩
      · exact absurd hx hx'
      · rfl
  · intro x
    rw [Set.mem_insert_iff, h.mem_iff]
    constructor
    · intro hx
      by_cases hxk : x = k
      · exact ⟨b, (hm b x).mpr (.inr ⟨hxk, rfl⟩)⟩
      · obtain ⟨p, hp⟩ := hx.resolve_left hxk
        exact ⟨p, (hm p x).mpr (.inl ⟨hxk, hp⟩)⟩
    · rintro ⟨p, hp⟩
      rcases (hm p x).mp hp with ⟨-, hp⟩ | ⟨hx, -⟩
      · exact .inr ⟨p, hp⟩
      · exact .inl hx

theorem add (h : Shelved v D) (hk : k ∉ D) (hb : v' b = k :: v b)
    (hrest : ∀ p, p ≠ b → v' p = v p) : Shelved v' (insert k D) := by
  have hv (p : P) : k ∉ v p := fun hp => hk (h.mem hp)
  apply h.of_mem (b := b)
  · intro p
    by_cases hp : p = b
    · rw [hp, hb]
      exact List.nodup_cons.mpr ⟨hv b, h.nodup b⟩
    · rw [hrest p hp]
      exact h.nodup p
  · intro p x
    by_cases hp : p = b
    · rw [hp, hb, List.mem_cons]
      constructor
      · rintro (rfl | hx)
        · exact .inr ⟨rfl, rfl⟩
        · exact .inl ⟨fun he => hv b (he ▸ hx), hx⟩
      · rintro (⟨-, hx⟩ | ⟨rfl, -⟩)
        · exact .inr hx
        · exact .inl rfl
    · rw [hrest p hp]
      constructor
      · intro hx
        exact .inl ⟨fun he => hv p (he ▸ hx), hx⟩
      · rintro (⟨-, hx⟩ | ⟨-, he⟩)
        · exact hx
        · exact absurd he hp

/-- An item goes from shelf `a` to shelf `b`. -/
theorem move [DecidableEq K] (h : Shelved v D) (hk : k ∈ v a) (hab : a ≠ b)
    (ha : v' a = (v a).erase k) (hb : v' b = k :: v b)
    (hrest : ∀ p, p ≠ a → p ≠ b → v' p = v p) : Shelved v' D := by
  have hD : insert k D = D := Set.insert_eq_of_mem (h.mem hk)
  rw [← hD]
  apply h.of_mem (b := b)
  · intro p
    by_cases hpa : p = a
    · rw [hpa, ha]
      exact (h.nodup a).erase k
    · by_cases hpb : p = b
      · rw [hpb, hb]
        exact List.nodup_cons.mpr ⟨h.not_mem hk hab, h.nodup b⟩
      · rw [hrest p hpa hpb]
        exact h.nodup p
  · intro p x
    by_cases hpa : p = a
    · rw [hpa, ha, (h.nodup a).mem_erase_iff]
      constructor
      · exact .inl
      · rintro (hx | ⟨-, he⟩)
        · exact hx
        · exact absurd he hab
    · by_cases hpb : p = b
      · rw [hpb, hb, List.mem_cons]
        constructor
        · rintro (rfl | hx)
          · exact .inr ⟨rfl, rfl⟩
          · exact .inl ⟨fun he => h.not_mem hk hab (he ▸ hx), hx⟩
        · rintro (⟨-, hx⟩ | ⟨rfl, -⟩)
          · exact .inr hx
          · exact .inl rfl
      · rw [hrest p hpa hpb]
        constructor
        · intro hx
          exact .inl ⟨fun he => h.not_mem hk (Ne.symm hpa) (he ▸ hx), hx⟩
        · rintro (⟨-, hx⟩ | ⟨-, he⟩)
          · exact hx
          · exact absurd he hpb

/-- The items of one shelf that fail `f` are thrown away. -/
theorem discard (h : Shelved v D) (f : K → Bool) (ha : v' a = (v a).filter f)
    (hrest : ∀ p, p ≠ a → v' p = v p) (hf : ∀ x ∈ D, f x = false → x ∈ v a) :
    Shelved v' {x | x ∈ D ∧ f x = true} := by
  have hm (p : P) (x : K) : x ∈ v' p ↔ x ∈ v p ∧ f x = true := by
    by_cases hp : p = a
    · rw [hp, ha, List.mem_filter]
    · rw [hrest p hp]
      constructor
      · intro hx
        refine ⟨hx, ?_⟩
        by_contra hfx
        exact h.not_mem hx hp (hf x (h.mem hx) (by simpa using hfx))
      · exact fun hx => hx.1
  constructor
  · intro p
    by_cases hp : p = a
    · rw [hp, ha]
      exact (h.nodup a).filter f
    · rw [hrest p hp]
      exact h.nodup p
  · intro p q x hp hq
    exact h.once p q x ((hm p x).mp hp).1 ((hm q x).mp hq).1
  · intro x
    constructor
    · rintro ⟨hx, hfx⟩
      obtain ⟨p, hp⟩ := (h.mem_iff x).mp hx
      exact ⟨p, (hm p x).mpr ⟨hp, hfx⟩⟩
    · rintro ⟨p, hp⟩
      obtain ⟨hx, hfx⟩ := (hm p x).mp hp
      exact ⟨h.mem hx, hfx⟩

theorem take [DecidableEq K] (h : Shelved v D) (hk : k ∈ v a) (ha : v' a = (v a).erase k)
    (hrest : ∀ p, p ≠ a → v' p = v p) : Shelved v' (D \ {k}) := by
  have hm (p : P) (x : K) : x ∈ v' p ↔ x ∈ v p ∧ x ≠ k := by
    by_cases hp : p = a
    · rw [hp, ha, (h.nodup a).mem_erase_iff, and_comm]
    · rw [hrest p hp]
      constructor
      · intro hx
        refine ⟨hx, ?_⟩
        rintro rfl
        exact hp (h.once p a x hx hk)
      · exact fun hx => hx.1
  constructor
  · intro p
    by_cases hp : p = a
    · rw [hp, ha]
      exact (h.nodup a).erase k
    · rw [hrest p hp]
      exact h.nodup p
  · intro p q x hp hq
    exact h.once p q x ((hm p x).mp hp).1 ((hm q x).mp hq).1
  · intro x
    rw [Set.mem_sdiff, Set.mem_singleton_iff, h.mem_iff]
    constructor
    · rintro ⟨⟨p, hp⟩, hne⟩
      exact ⟨p, (hm p x).mpr ⟨hp, hne⟩⟩
    · rintro ⟨p, hp⟩
      obtain ⟨hp, hne⟩ := (hm p x).mp hp
      exact ⟨⟨p, hp⟩, hne⟩

theorem perm (h : Shelved v D) (hv : ∀ p, (v' p).Perm (v p)) : Shelved v' D := by
  constructor
  · exact fun p => (hv p).nodup_iff.mpr (h.nodup p)
  · exact fun p q x hp hq => h.once p q x ((hv p).mem_iff.mp hp) ((hv q).mem_iff.mp hq)
  · intro x
    rw [h.mem_iff]
    exact exists_congr fun p => (hv p).mem_iff.symm

theorem comp (h : Shelved v D) (e : P ≃ P) (he : ∀ p, v' p = v (e p)) : Shelved v' D := by
  constructor
  · intro p
    rw [he]
    exact h.nodup _
  · intro p q x hp hq
    rw [he] at hp hq
    exact e.injective (h.once _ _ x hp hq)
  · intro x
    rw [h.mem_iff]
    constructor
    · rintro ⟨p, hp⟩
      refine ⟨e.symm p, ?_⟩
      rw [he, Equiv.apply_symm_apply]
      exact hp
    · rintro ⟨p, hp⟩
      exact ⟨e p, he p ▸ hp⟩

theorem pour [DecidableEq P] (h : Shelved v D) (hb : v b = []) (ha' : v' a = [])
    (hb' : v' b = v a) (hrest : ∀ p, p ≠ a → p ≠ b → v' p = v p) : Shelved v' D := by
  apply h.comp (Equiv.swap a b)
  intro p
  by_cases hpa : p = a
  · rw [hpa, Equiv.swap_apply_left, ha', hb]
  · by_cases hpb : p = b
    · rw [hpb, Equiv.swap_apply_right, hb']
    · rw [Equiv.swap_apply_of_ne_of_ne hpa hpb, hrest p hpa hpb]

theorem congr (h : Shelved v D) (hv : v' = v) (hD : D' = D) : Shelved v' D' := by
  rw [hv, hD]
  exact h

end Shelved
end Xplatbase.Lib
