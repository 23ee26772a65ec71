import Mathlib.Data.List.Basic
import Mathlib.Logic.Function.Basic
import Xplatbase.Lib.Simulation

/-! Blocks as those who hold them see them: each has its content, whatever becomes of the others. -/
namespace Xplatbase.Lib

/-- The blocks that are held, with what is in them. -/
abbrev Contents (κ β : Type*) := κ → Option (List β)

inductive StoreEvent (κ β : Type*)
  /-- A block of at least `n` elements, the first `n` of them `fill` if that is given. -/
  | given (p : κ) (n : ℕ) (fill : Option β)
  | freed (p : κ)
  /-- `q` takes the place of `p`: it has at least `n` elements, and begins with the first `k` of
  `p`. -/
  | moved (p q : κ) (n k : ℕ)
  /-- `p` has room for `n` elements, and stays. -/
  | kept (p : κ) (n : ℕ)
  | written (p : κ) (start : ℕ) (elems : List β)

variable {κ β : Type*}

/-- The elements `elems` are put in the place of those from `start` on. -/
def overwrite (l : List β) (start : ℕ) (elems : List β) : List β :=
  l.mapIdx fun j v => if start ≤ j then elems.getD (j - start) v else v

@[simp] theorem overwrite_length (l : List β) (start : ℕ) (elems : List β) :
    (overwrite l start elems).length = l.length :=
  List.length_mapIdx

theorem overwrite_get {l : List β} {start j : ℕ} {elems : List β} (hj : j < l.length)
    (hj' : j < (overwrite l start elems).length) :
    (overwrite l start elems)[j] = if start ≤ j then elems.getD (j - start) l[j] else l[j] :=
  List.getElem_mapIdx ..

def StoreEvent.blocks : StoreEvent κ β → List κ
  | .given p _ _ | .freed p | .written p _ _ => [p]
  | .moved p q _ _ => [p, q]
  | .kept _ _ => []

variable [DecidableEq κ]

inductive StoreStep : Contents κ β → StoreEvent κ β → Contents κ β → Prop
  | given {b p n fill l} (hp : b p = none) (hn : n ≤ l.length)
      (hfill : ∀ v ∈ fill, ∀ x ∈ l.take n, x = v) :
      StoreStep b (.given p n fill) (Function.update b p (some l))
  | freed {b p l} (hp : b p = some l) : StoreStep b (.freed p) (Function.update b p none)
  | moved {b p q n k old l} (hp : b p = some old) (hq : b q = none) (hn : n ≤ l.length)
      (hk : k ≤ old.length) (hold : l.take k = old.take k) :
      StoreStep b (.moved p q n k) (Function.update (Function.update b p none) q (some l))
  | kept {b p n l} (hp : b p = some l) (hn : n ≤ l.length) : StoreStep b (.kept p n) b
  | written {b p start elems l} (hp : b p = some l) (hin : start + elems.length ≤ l.length) :
      StoreStep b (.written p start elems)
        (Function.update b p (some (overwrite l start elems)))

def storeSpec (κ β : Type*) [DecidableEq κ] : Spec (Contents κ β) (StoreEvent κ β) where
  init := fun b => b = fun _ => none
  step := StoreStep

variable {b c : Contents κ β} {p : κ}

/-- An event leaves every other block as it is. -/
theorem StoreStep.frame {e : StoreEvent κ β} (h : StoreStep b e c) (hp : p ∉ e.blocks) :
    c p = b p := by
  cases h with
  | given => exact Function.update_of_ne (fun he => hp (List.mem_singleton.mpr he)) ..
  | freed => exact Function.update_of_ne (fun he => hp (List.mem_singleton.mpr he)) ..
  | kept => rfl
  | written => exact Function.update_of_ne (fun he => hp (List.mem_singleton.mpr he)) ..
  | moved =>
    have hne := List.ne_of_not_mem_cons hp
    have hne' := List.ne_of_not_mem_cons (List.not_mem_of_not_mem_cons hp)
    rw [Function.update_of_ne hne', Function.update_of_ne hne]

theorem store_frame {es : List (StoreEvent κ β)} (h : (storeSpec κ β).Path b es c)
    (hes : ∀ e ∈ es, p ∉ e.blocks) : c p = b p :=
  h.invariant (P := fun d => d p = b p) hes rfl fun _ _ _ hd he hstep => (hstep.frame he).trans hd

end Xplatbase.Lib
