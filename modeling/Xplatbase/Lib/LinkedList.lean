import Mathlib.Data.List.Basic
import Mathlib.Logic.Function.Basic

/-! Singly linked lists in a memory of link words. -/
namespace Xplatbase.Lib

variable {K : Type*} {next next' : K → Option K} {head : Option K} {l : List K} {b : K}

/-- The links from `head` run through the list and end. -/
def Linked (next : K → Option K) : Option K → List K → Prop
  | head, [] => head = none
  | head, k :: l => head = some k ∧ Linked next (next k) l

namespace Linked

theorem eq_nil (h : Linked next none l) : l = [] := by
  cases l with
  | nil => rfl
  | cons k l =>
    obtain ⟨hk, -⟩ := h
    cases hk

theorem eq_cons (h : Linked next (some b) l) : ∃ t, l = b :: t ∧ Linked next (next b) t := by
  cases l with
  | nil => cases h
  | cons k t =>
    obtain ⟨hk, ht⟩ := h
    obtain rfl := Option.some.inj hk
    exact ⟨t, rfl, ht⟩

theorem congr (h : Linked next head l) (hn : ∀ k ∈ l, next' k = next k) : Linked next' head l := by
  induction l generalizing head with
  | nil => exact h
  | cons k t ih =>
    obtain ⟨hk, ht⟩ := h
    refine ⟨hk, ?_⟩
    rw [hn k List.mem_cons_self]
    exact ih ht fun j hj => hn j (List.mem_cons_of_mem k hj)

theorem update [DecidableEq K] (h : Linked next head l) (hb : b ∉ l) (w : Option K) :
    Linked (Function.update next b w) head l := by
  apply h.congr
  intro k hk
  have hne : k ≠ b := by
    rintro rfl
    exact hb hk
  exact Function.update_of_ne hne ..

theorem push [DecidableEq K] (h : Linked next head l) (hb : b ∉ l) :
    Linked (Function.update next b head) (some b) (b :: l) := by
  refine ⟨rfl, ?_⟩
  rw [Function.update_self]
  exact h.update hb head

theorem cons (h : Linked next head l) (hb : next b = head) : Linked next (some b) (b :: l) := by
  refine ⟨rfl, ?_⟩
  rw [hb]
  exact h

end Linked
end Xplatbase.Lib
