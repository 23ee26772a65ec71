import Mathlib.Algebra.BigOperators.Group.Finset.Basic
import Mathlib.Data.Fintype.Basic
import Mathlib.Logic.Function.Basic

/-! Sums of a quantity over the members of a list, or over all parties, when one of them changes. -/
namespace Xplatbase.Lib

section
variable {α β : Type*} [DecidableEq α] [AddCommMonoid β]

omit [AddCommMonoid β] in
theorem map_update_of_notMem {l : List α} {k : α} (hk : k ∉ l) (f : α → β) (x : β) :
    l.map (Function.update f k x) = l.map f := by
  apply List.map_congr_left
  intro j hj
  have hne : j ≠ k := by
    intro h
    exact hk (h ▸ hj)
  rw [Function.update_of_ne hne]

theorem sum_map_update {l : List α} (hl : l.Nodup) {k : α} (hk : k ∈ l) (f : α → β) (x : β) :
    (l.map (Function.update f k x)).sum + f k = (l.map f).sum + x := by
  induction l with
  | nil => exact absurd hk (by simp)
  | cons j l ih =>
    obtain ⟨hj, hl⟩ := List.nodup_cons.mp hl
    rw [List.map_cons, List.map_cons, List.sum_cons, List.sum_cons]
    by_cases hjk : j = k
    · rw [hjk] at hj ⊢
      rw [map_update_of_notMem hj, Function.update_self]
      rw [add_right_comm x, add_right_comm (f k), add_comm x]
    · have hmem : k ∈ l := by
        rcases List.mem_cons.mp hk with h | h
        · exact absurd h.symm hjk
        · exact h
      rw [Function.update_of_ne hjk, add_assoc, ih hl hmem, add_assoc]

end

/-- One party moves: what it counted for is replaced by what it counts for now. -/
theorem sum_update {ι γ : Type*} [Fintype ι] [DecidableEq ι] (w : γ → ℕ) (g : ι → γ) (i : ι)
    (y : γ) :
    (∑ j, w (Function.update g i y j)) + w (g i) = (∑ j, w (g j)) + w y := by
  have hrest : ∑ j ∈ Finset.univ.erase i, w (Function.update g i y j) =
      ∑ j ∈ Finset.univ.erase i, w (g j) := by
    apply Finset.sum_congr rfl
    intro j hj
    rw [Function.update_of_ne (Finset.ne_of_mem_erase hj)]
  have hnew := Finset.add_sum_erase Finset.univ (fun j => w (Function.update g i y j))
    (Finset.mem_univ i)
  have hold := Finset.add_sum_erase Finset.univ (fun j => w (g j)) (Finset.mem_univ i)
  rw [Function.update_self] at hnew
  omega

end Xplatbase.Lib
