import Mathlib.Data.Nat.Cast.Basic
import Xplatbase.Lib.LinkedList

/-! Loops along linked lists: those that fill a buffer, and those that count. -/
namespace Xplatbase.Lib

variable {K α β M : Type*} {next : K → Option K} {head : Option K} {l : List K}

/-- `for (k = head; k && n < max; k = k->next)`, with room for `max - n` items. -/
def walk (next : K → Option K) : ℕ → Option K → List K
  | 0, _ => []
  | _ + 1, none => []
  | room + 1, some k => k :: walk next room (next k)

/-- `for (k = head; k; k = k->next) n++`; `none` when it has not ended within the fuel. -/
def countWalk [Add M] [One M] (next : K → Option K) : ℕ → Option K → M → Option M
  | _, none, n => some n
  | 0, some _, _ => none
  | fuel + 1, some k, n => countWalk next fuel (next k) (n + 1)

theorem Linked.walk (h : Linked next head l) (room : ℕ) : walk next room head = l.take room := by
  induction l generalizing head room with
  | nil =>
    obtain rfl : head = none := h
    cases room <;> rfl
  | cons k t ih =>
    obtain ⟨rfl, ht⟩ := h
    cases room with
    | zero => rfl
    | succ room => exact congrArg (k :: ·) (ih ht room)

theorem Linked.countWalk [AddCommMonoidWithOne M] (h : Linked next head l) {fuel : ℕ}
    (hfuel : l.length ≤ fuel) (n : M) : countWalk next fuel head n = some (n + l.length) := by
  induction l generalizing head fuel n with
  | nil =>
    obtain rfl : head = none := h
    cases fuel <;> simp [Lib.countWalk]
  | cons k t ih =>
    obtain ⟨rfl, ht⟩ := h
    cases fuel with
    | zero => exact absurd hfuel (Nat.not_succ_le_zero _)
    | succ fuel =>
      have hrest := ih ht (Nat.le_of_succ_le_succ hfuel) (n + 1)
      rw [Lib.countWalk, hrest, List.length_cons, Nat.cast_succ, add_assoc, add_comm (1 : M)]

/-! ### Buffers -/

/-- A loop puts the items behind those of the buffer, as far as there is room. -/
def Fills (max : ℕ) (g : List β → List β) (ys : List β) : Prop :=
  ∀ out, out.length ≤ max → g out = (out ++ ys).take max

namespace Fills

variable {max : ℕ} {g g' : List β → List β} {ys ys' : List β}

theorem of_take (hg : ∀ out, g out = out ++ ys.take (max - out.length)) : Fills max g ys := by
  intro out hout
  rw [hg, List.take_append, List.take_of_length_le hout]

theorem trans (h : Fills max g ys) (h' : Fills max g' ys') :
    Fills max (fun out => g' (g out)) (ys ++ ys') := by
  intro out hout
  have hlen : ((out ++ ys).take max).length ≤ max := List.length_take_le max _
  have hrest : max - ((out ++ ys).take max).length = max - (out ++ ys).length := by
    rw [List.length_take]
    omega
  dsimp only
  rw [h out hout, h' _ hlen, ← List.append_assoc, List.take_append, hrest, List.take_take,
    Nat.min_self]
  exact List.take_append.symm

theorem foldl {f : List β → α → List β} {items : α → List β} (l : List α)
    (h : ∀ x ∈ l, Fills max (fun out => f out x) (items x)) :
    Fills max (fun out => l.foldl f out) (l.flatMap items) := by
  induction l with
  | nil =>
    intro out hout
    dsimp only
    rw [List.foldl_nil, List.flatMap_nil, List.append_nil, List.take_of_length_le hout]
  | cons x l ih =>
    rw [List.flatMap_cons]
    exact (h x List.mem_cons_self).trans (ih fun y hy => h y (List.mem_cons_of_mem x hy))

end Fills

theorem countFold [AddCommMonoidWithOne M] {f : M → α → Option M} {size : α → ℕ} (l : List α)
    (h : ∀ x ∈ l, ∀ n, f n x = some (n + size x)) (n : M) :
    l.foldlM f n = some (n + (l.map size).sum) := by
  induction l generalizing n with
  | nil => simp
  | cons x l ih =>
    have hrest := ih (fun y hy => h y (List.mem_cons_of_mem x hy)) (n + size x)
    rw [List.foldlM_cons, h x List.mem_cons_self, Option.bind_eq_bind, Option.bind_some, hrest,
      List.map_cons, List.sum_cons, Nat.cast_add, add_assoc]

end Xplatbase.Lib
