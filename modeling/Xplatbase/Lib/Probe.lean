import Mathlib.Data.ZMod.Defs
import Mathlib.Logic.Function.Basic

/-! Open addressing with linear probing, on a cyclic table of `n` slots that never frees one. A slot
whose key is `nul` is free. -/
namespace Xplatbase.Lib

variable {n : ℕ} [NeZero n] {κ : Type*} [DecidableEq κ]

/-- `for (;;)` from slot `idx`: left at the first slot that meets `stop`, or when back at `start`.
`none` when the fuel does not suffice. -/
def probe (stop : Fin n → Bool) (start : Fin n) : ℕ → Fin n → Option (Option (Fin n))
  | 0, _ => none
  | fuel + 1, idx =>
    if stop idx then some (some idx)
    else if idx + 1 = start then some none
    else probe stop start fuel (idx + 1)

/-- The slot `k` behind `start`. -/
def slotBehind (start : Fin n) (k : ℕ) : Fin n := start + Fin.ofNat n k

def probePath (start : Fin n) : List (Fin n) := (List.range n).map (slotBehind start)

theorem slotBehind_succ (start : Fin n) (k : ℕ) :
    slotBehind start k + 1 = slotBehind start (k + 1) := by
  apply Fin.ext
  simp only [slotBehind, Fin.val_add, Fin.val_ofNat, Fin.coe_ofNat_eq_mod, Nat.add_mod_mod,
    Nat.mod_add_mod]
  rw [Nat.add_assoc]

theorem slotBehind_eq_start (start : Fin n) {k : ℕ} (h0 : 0 < k) (hk : k ≤ n) :
    slotBehind start k = start ↔ k = n := by
  have hstart := start.isLt
  rw [Fin.ext_iff]
  simp only [slotBehind, Fin.val_add, Fin.val_ofNat, Nat.add_mod_mod]
  constructor
  · intro h
    by_contra hne
    by_cases hlt : start.val + k < n
    · rw [Nat.mod_eq_of_lt hlt] at h
      omega
    · rw [Nat.mod_eq_sub_mod (by omega), Nat.mod_eq_of_lt (by omega)] at h
      omega
  · intro h
    rw [h, Nat.add_mod_right, Nat.mod_eq_of_lt hstart]

theorem mem_probePath (start i : Fin n) : i ∈ probePath start := by
  unfold probePath
  rw [List.mem_map]
  refine ⟨(i - start).val, List.mem_range.mpr (i - start).isLt, ?_⟩
  unfold slotBehind
  rw [Fin.ofNat_val_eq_self, add_sub_cancel]

/-- From slot `k` on, the loop finds the first of the slots left that meets `stop`. -/
theorem probe_behind (stop : Fin n → Bool) (start : Fin n) (m : ℕ) {k fuel : ℕ} (hm : 0 < m)
    (hk : k + m = n) (hfuel : m ≤ fuel) :
    probe stop start fuel (slotBehind start k) =
      some (((List.range' k m).map (slotBehind start)).find? stop) := by
  induction m generalizing k fuel with
  | zero => exact absurd hm (by omega)
  | succ m ih =>
    cases fuel with
    | zero => exact absurd hfuel (by omega)
    | succ fuel =>
      rw [List.range'_succ, List.map_cons, List.find?_cons]
      unfold probe
      by_cases hstop : stop (slotBehind start k) = true
      · rw [if_pos hstop, hstop]
      · rw [if_neg hstop, Bool.eq_false_of_not_eq_true hstop, slotBehind_succ]
        dsimp only
        by_cases hback : m = 0
        · have heq : slotBehind start (k + 1) = start :=
            (slotBehind_eq_start start (by omega) (by omega)).mpr (by omega)
          rw [if_pos heq, hback]
          rfl
        · have hne : slotBehind start (k + 1) ≠ start := by
            intro heq
            have hend := (slotBehind_eq_start start (by omega) (by omega)).mp heq
            omega
          rw [if_neg hne]
          exact ih (by omega) (by omega) (by omega)

/-- The loop ends within one round, at the first slot of the path that meets `stop`. -/
theorem probe_eq (stop : Fin n → Bool) (start : Fin n) {fuel : ℕ} (h : n ≤ fuel) :
    probe stop start fuel start = some ((probePath start).find? stop) := by
  have hpos : 0 < n := Nat.pos_of_ne_zero (NeZero.ne n)
  have hrun := probe_behind stop start n (k := 0) hpos (Nat.zero_add n) h
  have hstart : slotBehind start 0 = start := by
    unfold slotBehind
    rw [Fin.ofNat_zero, add_zero]
  rw [hstart] at hrun
  rw [hrun, List.range_eq_range'.symm]
  rfl

/-- The first hit stays the first when other slots stop counting as hits. -/
theorem find?_of_imp {α : Type*} {p q : α → Bool} {l : List α} {x : α} (h : l.find? p = some x)
    (hx : q x = true) (hqp : ∀ y, q y = true → p y = true) : l.find? q = some x := by
  induction l with
  | nil => exact absurd h (by simp)
  | cons y l ih =>
    rw [List.find?_cons] at h ⊢
    cases hq : q y with
    | true =>
      rw [hqp y hq] at h
      exact h
    | false =>
      cases hp : p y with
      | true =>
        rw [hp] at h
        rw [Option.some.inj h, hx] at hq
        exact absurd hq (by decide)
      | false =>
        rw [hp] at h
        exact ih h

variable (nul : κ) (hash : κ → Fin n)

/-- A slot that ends the probe for `b`: a free one, or the one of `b`. -/
def stopsFor (key : Fin n → κ) (b : κ) (i : Fin n) : Bool := key i = nul ∨ key i = b

/-- Where the probe for `b` ends. -/
def probeSlot (key : Fin n → κ) (b : κ) : Option (Fin n) :=
  (probePath (hash b)).find? (stopsFor nul key b)

/-- No gaps: the probe for each key stored ends at its slot. -/
def Placed (key : Fin n → κ) : Prop :=
  ∀ i, key i ≠ nul → probeSlot nul hash key (key i) = some i

variable {nul hash} {key : Fin n → κ} {b : κ} {i : Fin n}

omit [NeZero n] in
theorem stopsFor_iff : stopsFor nul key b i = true ↔ key i = nul ∨ key i = b := by
  unfold stopsFor
  exact decide_eq_true_iff

theorem probeSlot_some (h : probeSlot nul hash key b = some i) : key i = nul ∨ key i = b :=
  stopsFor_iff.mp (List.find?_some h)

/-- The probe fails only in a table that is full of other keys. -/
theorem probeSlot_none : probeSlot nul hash key b = none ↔ ∀ j, key j ≠ nul ∧ key j ≠ b := by
  unfold probeSlot
  rw [List.find?_eq_none]
  constructor
  · intro h j
    have hj := h j (mem_probePath _ j)
    rw [stopsFor_iff] at hj
    exact not_or.mp hj
  · intro h j _
    rw [stopsFor_iff]
    exact not_or.mpr (h j)

theorem placed_empty : Placed nul hash fun _ => nul := by
  intro i hi
  exact absurd rfl hi

theorem Placed.unique (h : Placed nul hash key) {j : Fin n} (hi : key i ≠ nul)
    (heq : key i = key j) : i = j := by
  have hpi := h i hi
  have hpj := h j (heq ▸ hi)
  rw [heq, hpj] at hpi
  exact (Option.some.inj hpi).symm

/-- A key that is stored is found, a key that is not stored ends the probe at a free slot. -/
theorem Placed.probeSlot_eq (h : Placed nul hash key) (hb : b ≠ nul) (hi : key i = b) :
    probeSlot nul hash key b = some i := by
  have hp := h i (by rw [hi]; exact hb)
  rw [hi] at hp
  exact hp

/-- Storing a key where its probe ended leaves no gap before any key. -/
theorem Placed.insert (h : Placed nul hash key) (hb : b ≠ nul)
    (hslot : probeSlot nul hash key b = some i) :
    Placed nul hash (Function.update key i b) := by
  intro j hj
  by_cases hji : j = i
  · rw [hji, Function.update_self]
    apply find?_of_imp hslot
    · rw [stopsFor_iff, Function.update_self]
      exact Or.inr rfl
    · intro k hk
      rw [stopsFor_iff] at hk ⊢
      by_cases hki : k = i
      · rw [hki]
        exact probeSlot_some hslot
      · rw [Function.update_of_ne hki] at hk
        exact hk
  · rw [Function.update_of_ne hji] at hj ⊢
    apply find?_of_imp (h j hj)
    · rw [stopsFor_iff, Function.update_of_ne hji]
      exact Or.inr rfl
    · intro k hk
      rw [stopsFor_iff] at hk ⊢
      by_cases hki : k = i
      · -- the slot is no stop any more, unless it holds the key looked for
        rw [hki, Function.update_self] at hk
        have heq : b = key j := hk.resolve_left hb
        rw [h.probeSlot_eq hb heq.symm] at hslot
        exact absurd (Option.some.inj hslot) hji
      · rw [Function.update_of_ne hki] at hk
        exact hk

end Xplatbase.Lib
