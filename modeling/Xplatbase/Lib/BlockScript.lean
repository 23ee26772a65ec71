import Xplatbase.Lib.BlockStore
import Xplatbase.Lib.Blocks

/-! Blocks behind a script are a store of blocks: whatever a store does, there is a script that has
the allocator answer so. -/
namespace Xplatbase.Lib

variable {κ : Type*} {α : Type}

namespace Blocks

/-- Stores of elements from position `start` on. -/
def setAll (h : Blocks α) (b start : ℕ) : List α → Except CFault (Blocks α)
  | [] => .ok h
  | v :: vs => (h.set b start v).bind fun h => h.setAll b (start + 1) vs

/-- Calls from `h` to `h'` that come to an event of a store, the blocks of which are where `place`
says. What a reallocation has copied may be given by any number that comes to as much. -/
def Does (place : κ → ℕ) (h : Blocks α) : StoreEvent κ α → Blocks α → Prop
  | .given p n _, h' => h.alloc n = (some (place p), h')
  | .freed p, h' => h.free (some (place p)) = .ok h'
  | .moved p q n k, h' => 0 < n → ∀ old copied, h.live (place p) = some old →
      old.take (min n copied) = old.take k →
      h.realloc (some (place p)) n copied = .ok (some (place q), h')
  | .kept p n, h' => 0 < n → ∀ copied,
      h.realloc (some (place p)) n copied = .ok (some (place p), h')
  | .written p start elems, h' => h.setAll (place p) start elems = .ok h'

end Blocks

def blocksSpec (place : κ → ℕ) : Spec (Blocks α) (StoreEvent κ α) where
  init := fun h => h.live = fun _ => none
  step := Blocks.Does place

variable {live : ℕ → Option (List α)} {a n start : ℕ} {l elems : List α}
  {rest : List (Option (ℕ × List α))}

theorem overwrite_nil (l : List α) (start : ℕ) : overwrite l start [] = l := by
  apply List.ext_getElem (overwrite_length l start [])
  intro j hj hj'
  rw [overwrite_get hj']
  split_ifs
  · rfl
  · rfl

theorem overwrite_cons (l : List α) (start : ℕ) (v : α) (vs : List α) :
    overwrite l start (v :: vs) = overwrite (l.set start v) (start + 1) vs := by
  apply List.ext_getElem
  · rw [overwrite_length, overwrite_length, List.length_set]
  · intro j hj hj'
    have hin : j < l.length := by
      rw [overwrite_length] at hj
      exact hj
    have hset : j < (l.set start v).length := by
      rw [List.length_set]
      exact hin
    rw [overwrite_get hin, overwrite_get hset, List.getElem_set]
    rcases Nat.lt_trichotomy j start with hlt | rfl | hgt
    · rw [if_neg (by omega), if_neg (by omega), if_neg (by omega)]
    · rw [if_pos (Nat.le_refl _), if_neg (by omega), if_pos rfl, Nat.sub_self]
      rfl
    · have hsub : j - start = j - (start + 1) + 1 := by omega
      rw [if_pos (by omega), if_pos (by omega), if_neg (by omega), hsub]
      rfl

namespace Blocks

/-- The answer that stands first in the script is given, if it keeps the contract. -/
theorem granted_first {own : Option ℕ} (ha : live a = none ∨ own = some a) (hn : n ≤ l.length)
    (hmax : l.length ≤ maxBlock) :
    (⟨live, some (a, l) :: rest⟩ : Blocks α).granted own n = some (a, l) :=
  if_pos ⟨ha, hn, hmax⟩

theorem alloc_first (ha : live a = none) (hn : n ≤ l.length) (hmax : l.length ≤ maxBlock) :
    (⟨live, some (a, l) :: rest⟩ : Blocks α).alloc n =
      (some a, ⟨Function.update live a (some l), rest⟩) := by
  unfold alloc
  rw [granted_first (.inl ha) hn hmax]
  rfl

/-- A reallocation that is granted at `c`, of what begins as it is to be copied. -/
theorem realloc_first {b c copied : ℕ} {old : List α} (hb : live b = some old)
    (hc : live c = none ∨ some b = some c) (hpos : 0 < n) (hn : n ≤ l.length)
    (hmax : l.length ≤ maxBlock) (hkept : old.take (min n copied) <+: l) :
    (⟨live, some (c, l) :: rest⟩ : Blocks α).realloc (some b) n copied =
      .ok (some c, ⟨Function.update (Function.update live b none) c (some l), rest⟩) := by
  have hcontent : old.take (min n copied) ++ l.drop (old.take (min n copied)).length = l :=
    List.prefix_iff_eq_append.mp hkept
  unfold realloc
  dsimp only
  rw [hb]
  dsimp only
  rw [if_neg (Nat.ne_of_gt hpos), granted_first hc hn hmax]
  dsimp only
  rw [hcontent]
  rfl

theorem setAll_live (hb : live a = some l) (hin : start + elems.length ≤ l.length) :
    (⟨live, rest⟩ : Blocks α).setAll a start elems =
      .ok ⟨Function.update live a (some (overwrite l start elems)), rest⟩ := by
  induction elems generalizing live l start with
  | nil =>
    rw [overwrite_nil, ← hb, Function.update_eq_self]
    rfl
  | cons v vs ih =>
    rw [List.length_cons] at hin
    have hset : (⟨live, rest⟩ : Blocks α).set a start v =
        .ok ⟨Function.update live a (some (l.set start v)), rest⟩ := by
      unfold set
      dsimp only
      rw [hb]
      exact if_pos (by omega)
    unfold setAll
    rw [hset]
    have hrest : (⟨Function.update live a (some (l.set start v)), rest⟩ : Blocks α).setAll a
        (start + 1) vs = _ :=
      ih (Function.update_self ..) (by rw [List.length_set]; omega)
    rw [Function.update_idem] at hrest
    rw [overwrite_cons]
    exact hrest

end Blocks

variable [DecidableEq κ] {place : κ → ℕ} {b c : Contents κ α} {e : StoreEvent κ α}

theorem update_placed (hplace : Function.Injective place) (hlive : ∀ p, live (place p) = b p)
    (p : κ) (v : Option (List α)) (q : κ) :
    Function.update live (place p) v (place q) = Function.update b p v q := by
  by_cases hq : q = p
  · rw [hq, Function.update_self, Function.update_self]
  · rw [Function.update_of_ne (fun he => hq (hplace he)), Function.update_of_ne hq, hlive]

/-- A step of a store, of blocks no larger than a process can address, is one of the blocks: they
have what is in the store before and after it, if the script begins as it should. -/
theorem StoreStep.blocks (hplace : Function.Injective place) (h : StoreStep b e c)
    (hlive : ∀ p, live (place p) = b p) (hmax : ∀ p l, c p = some l → l.length ≤ maxBlock) :
    ∃ script live', (∀ p, live' (place p) = c p) ∧
      ∀ rest, Blocks.Does place ⟨live, script ++ rest⟩ e ⟨live', rest⟩ := by
  cases h with
  | @given p n fill l hp hn =>
    refine ⟨[some (place p, l)], _, update_placed hplace hlive p (some l), fun rest => ?_⟩
    have hfree : live (place p) = none := (hlive p).trans hp
    exact Blocks.alloc_first hfree hn (hmax p l (Function.update_self ..))
  | @freed p l hp =>
    refine ⟨[], _, update_placed hplace hlive p none, fun rest => ?_⟩
    have hheld : live (place p) = some l := (hlive p).trans hp
    unfold Blocks.Does Blocks.free
    dsimp only
    rw [hheld]
    rfl
  | @moved p q n k old l hp hq hn hk hold =>
    have hheld : live (place p) = some old := (hlive p).trans hp
    have hfree : live (place q) = none := (hlive q).trans hq
    refine ⟨[some (place q, l)], _,
      update_placed hplace (update_placed hplace hlive p none) q (some l), ?_⟩
    intro rest hpos old' copied hold' hcopied
    obtain rfl := Option.some.inj (hheld.symm.trans hold')
    apply Blocks.realloc_first hheld (.inl hfree) hpos hn (hmax q l (Function.update_self ..))
    rw [hcopied, ← hold]
    exact List.take_prefix k l
  | @kept p n l hp hn =>
    have hheld : live (place p) = some l := (hlive p).trans hp
    refine ⟨[some (place p, l)], live, hlive, ?_⟩
    intro rest hpos copied
    have hanswer : (⟨live, some (place p, l) :: rest⟩ : Blocks α).realloc (some (place p)) n copied
        = _ :=
      Blocks.realloc_first hheld (.inr rfl) hpos hn (hmax p l hp) (List.take_prefix ..)
    rw [Function.update_idem, ← hheld, Function.update_eq_self] at hanswer
    exact hanswer
  | @written p start elems l hp hin =>
    refine ⟨[], _, update_placed hplace hlive p _, fun rest => ?_⟩
    exact Blocks.setAll_live ((hlive p).trans hp) hin

/-- By some script calls come to the events `es`, newest first, from the blocks `first` to those of
`b`; more answers behind the script stay. -/
def Scripted (place : κ → ℕ) (first : ℕ → Option (List α)) (es : List (StoreEvent κ α))
    (b : Contents κ α) : Prop :=
  ∃ script live, (∀ p, live (place p) = b p) ∧
    ∀ rest, (blocksSpec place).Path ⟨first, script ++ rest⟩ es ⟨live, rest⟩

namespace Scripted

variable {first : ℕ → Option (List α)} {es : List (StoreEvent κ α)}

omit [DecidableEq κ] in
theorem refl (hfirst : ∀ p, first (place p) = b p) : Scripted place first [] b :=
  ⟨[], first, hfirst, fun _ => .refl⟩

/-- The script goes on as the store does. -/
theorem turn (h : Scripted place first es b) (hplace : Function.Injective place)
    {e : Option (StoreEvent κ α)} (he : (storeSpec κ α).Turn b e c)
    (hmax : ∀ p l, c p = some l → l.length ≤ maxBlock) :
    Scripted place first (e.toList ++ es) c := by
  cases e with
  | none =>
    obtain rfl : c = b := he
    exact h
  | some e =>
    obtain ⟨script, live, hlive, hpath⟩ := h
    obtain ⟨script', live', hlive', hdoes⟩ := he.blocks hplace hlive hmax
    refine ⟨script ++ script', live', hlive', fun rest => ?_⟩
    rw [List.append_assoc]
    exact (hpath (script' ++ rest)).step (hdoes rest)

end Scripted
end Xplatbase.Lib
