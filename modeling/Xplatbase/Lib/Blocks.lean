import Mathlib.Algebra.Group.Nat.Defs
import Mathlib.Logic.Function.Basic
import Mathlib.Data.List.Basic

/-! A heap of blocks of `α`, bytes or pointers, behind an allocator that may refuse any request.
Its answers are read from a script, so that every pattern of refusals and placements is some
script. Sizes count elements. -/
namespace Xplatbase.Lib

inductive CFault
  | nullDeref
  | outOfBounds
  | useAfterFree
  | endless
  deriving DecidableEq

/-- No block is larger: what a 64-bit process can address. -/
def maxBlock : ℕ := 2 ^ 47

/-- The live blocks by address, and the allocator's answers to come: a block with its first
content, or a refusal. An answer that breaks the allocator's contract is a refusal, and so is a
missing one. -/
structure Blocks (α : Type) where
  live : ℕ → Option (List α)
  grants : List (Option (ℕ × List α))

namespace Blocks

variable {α : Type}

/-- The block the allocator hands out for `n` elements, if any; `own` may be reused. -/
def granted (h : Blocks α) (own : Option ℕ) (n : ℕ) : Option (ℕ × List α) :=
  match h.grants with
  | some (b, bytes) :: _ =>
    if (h.live b = none ∨ own = some b) ∧ n ≤ bytes.length ∧ bytes.length ≤ maxBlock then
      some (b, bytes)
    else none
  | _ => none

def alloc (h : Blocks α) (n : ℕ) : Option ℕ × Blocks α :=
  match h.granted none n with
  | some (b, bytes) =>
    (some b, { live := Function.update h.live b (some bytes), grants := h.grants.tail })
  | none => (none, { h with grants := h.grants.tail })

def free (h : Blocks α) : Option ℕ → Except CFault (Blocks α)
  | none => .ok h
  | some b =>
    match h.live b with
    | some _ => .ok { h with live := Function.update h.live b none }
    | none => .error .useAfterFree

/-- The first `copied` elements of the old content go with the block, as far as they fit. -/
def realloc (h : Blocks α) (p : Option ℕ) (n copied : ℕ) : Except CFault (Option ℕ × Blocks α) :=
  match p with
  | none => .ok (if n = 0 then (none, h) else h.alloc n)
  | some b =>
    match h.live b with
    | none => .error .useAfterFree
    | some old =>
      if n = 0 then .ok (none, { h with live := Function.update h.live b none })
      else
        match h.granted (some b) n with
        | some (c, bytes) =>
          let kept := old.take (min n copied)
          .ok (some c, {
            live := Function.update (Function.update h.live b none) c
              (some (kept ++ bytes.drop kept.length))
            grants := h.grants.tail })
        | none => .ok (none, { h with grants := h.grants.tail })

def set (h : Blocks α) (b : ℕ) (i : ℕ) (v : α) : Except CFault (Blocks α) :=
  match h.live b with
  | none => .error .useAfterFree
  | some bytes =>
    if i < bytes.length then .ok { h with live := Function.update h.live b (some (bytes.set i v)) }
    else .error .outOfBounds

theorem granted_spec {h : Blocks α} {own : Option ℕ} {n b : ℕ} {bytes : List α}
    (hg : h.granted own n = some (b, bytes)) :
    (h.live b = none ∨ own = some b) ∧ n ≤ bytes.length ∧ bytes.length ≤ maxBlock := by
  unfold granted at hg
  split at hg
  · split_ifs at hg with hc
    obtain ⟨rfl, rfl⟩ := Prod.mk.inj (Option.some.inj hg)
    exact hc
  · cases hg

theorem granted_mem {h : Blocks α} {own : Option ℕ} {n b : ℕ} {bytes : List α}
    (hg : h.granted own n = some (b, bytes)) : some (b, bytes) ∈ h.grants := by
  unfold granted at hg
  split at hg
  · rename_i heq
    split_ifs at hg
    obtain ⟨rfl, rfl⟩ := Prod.mk.inj (Option.some.inj hg)
    rw [heq]
    exact List.mem_cons_self
  · cases hg

/-- An allocation changes no block but the fresh one it returns. -/
theorem alloc_spec (h : Blocks α) (n : ℕ) :
    ((h.alloc n).1 = none ∧ (h.alloc n).2.live = h.live) ∨
      ∃ b bytes, (h.alloc n).1 = some b ∧ h.live b = none ∧ n ≤ bytes.length ∧
        bytes.length ≤ maxBlock ∧ (h.alloc n).2.live = Function.update h.live b (some bytes) := by
  unfold alloc
  cases hg : h.granted none n with
  | none => exact Or.inl ⟨rfl, rfl⟩
  | some g =>
    obtain ⟨hb, hn, hmax⟩ := granted_spec (b := g.1) hg
    refine Or.inr ⟨g.1, g.2, rfl, ?_, hn, hmax, rfl⟩
    rcases hb with hb | hb
    · exact hb
    · cases hb

/-- The contract of `realloc`: refused, it leaves the block alone; granted, the block moves to a
fresh place or stays, and keeps what was copied of what it held. -/
theorem realloc_spec {h : Blocks α} {b n : ℕ} {old : List α} (hb : h.live b = some old)
    (hn : 0 < n) (copied : ℕ) :
    ∃ r h', h.realloc (some b) n copied = .ok (r, h') ∧
      ((r = none ∧ h'.live = h.live) ∨
        ∃ c bytes, r = some c ∧ (c = b ∨ h.live c = none) ∧ n ≤ bytes.length ∧
          bytes.length ≤ maxBlock ∧
          (∀ i < n, i < copied → i < old.length → bytes[i]? = old[i]?) ∧
          h'.live = Function.update (Function.update h.live b none) c (some bytes)) := by
  simp only [realloc, hb, if_neg (Nat.ne_of_gt hn)]
  cases hg : h.granted (some b) n with
  | none => exact ⟨_, _, rfl, Or.inl ⟨rfl, rfl⟩⟩
  | some g =>
    obtain ⟨hfree, hlen, hmax⟩ := granted_spec (b := g.1) hg
    have hkept : (old.take (min n copied)).length ≤ g.2.length := by
      rw [List.length_take]
      omega
    refine ⟨_, _, rfl, Or.inr ⟨g.1,
      old.take (min n copied) ++ g.2.drop (old.take (min n copied)).length, rfl, ?_, ?_, ?_,
      fun i hi hc ho => ?_, rfl⟩⟩
    · rcases hfree with hfree | hfree
      · exact Or.inr hfree
      · exact Or.inl (Option.some.inj hfree).symm
    · rw [List.length_append, List.length_drop]
      omega
    · rw [List.length_append, List.length_drop]
      omega
    · rw [List.getElem?_append_left (by rw [List.length_take]; omega),
        List.getElem?_take_of_lt (by omega)]

theorem realloc_uncopied {h h' : Blocks α} {b n copied c : ℕ} {old : List α}
    (hb : h.live b = some old) (hn : copied < n) (hold : copied ≤ old.length)
    (hr : h.realloc (some b) n copied = .ok (some c, h')) :
    ∃ first bytes, h.granted (some b) n = some (c, first) ∧ h'.live c = some bytes ∧
      ∀ i, copied ≤ i → bytes[i]? = first[i]? := by
  simp only [realloc, hb, if_neg (Nat.ne_of_gt (Nat.zero_lt_of_lt hn))] at hr
  cases hg : h.granted (some b) n with
  | none =>
    rw [hg] at hr
    cases hr
  | some g =>
    rw [hg] at hr
    obtain ⟨hc, rfl⟩ := Prod.mk.inj (Except.ok.inj hr)
    obtain rfl := Option.some.inj hc
    have hkept : (old.take (min n copied)).length = copied := by
      rw [List.length_take]
      omega
    refine ⟨g.2, _, rfl, Function.update_self .., fun i hi => ?_⟩
    rw [List.getElem?_append_right (by omega), hkept, List.getElem?_drop]
    congr 1
    omega

theorem alloc_grants (h : Blocks α) (n : ℕ) : (h.alloc n).2.grants ⊆ h.grants := by
  have htail : (h.alloc n).2.grants = h.grants.tail := by
    unfold alloc
    split <;> rfl
  rw [htail]
  exact fun g => List.mem_of_mem_tail

/-- The answers that are left are some of those there were. -/
theorem realloc_grants {h h' : Blocks α} {p r : Option ℕ} {n copied : ℕ}
    (hr : h.realloc p n copied = .ok (r, h')) : h'.grants ⊆ h.grants := by
  cases p with
  | none =>
    have heq := Except.ok.inj hr
    split_ifs at heq with hn
    · rw [← (Prod.mk.inj heq).2]
      exact List.Subset.refl _
    · have halloc := h.alloc_grants n
      rwa [heq] at halloc
  | some b =>
    simp only [realloc] at hr
    cases hb : h.live b with
    | none =>
      rw [hb] at hr
      cases hr
    | some old =>
      rw [hb] at hr
      dsimp only at hr
      split_ifs at hr with hn
      · rw [← (Prod.mk.inj (Except.ok.inj hr)).2]
        exact List.Subset.refl _
      · cases hg : h.granted (some b) n with
        | none =>
          rw [hg] at hr
          rw [← (Prod.mk.inj (Except.ok.inj hr)).2]
          exact fun g => List.mem_of_mem_tail
        | some g =>
          rw [hg] at hr
          rw [← (Prod.mk.inj (Except.ok.inj hr)).2]
          exact fun g => List.mem_of_mem_tail

/-- Only a refusal makes a reallocation to more than nothing answer NULL. -/
theorem granted_of_realloc {h h' : Blocks α} {p : Option ℕ} {n copied : ℕ} (hn : 0 < n)
    (hr : h.realloc p n copied = .ok (none, h')) : h.granted p n = none := by
  cases p with
  | none =>
    simp only [realloc, if_neg (Nat.ne_of_gt hn), alloc] at hr
    cases hg : h.granted none n with
    | none => rfl
    | some g =>
      rw [hg] at hr
      cases hr
  | some b =>
    simp only [realloc, if_neg (Nat.ne_of_gt hn)] at hr
    cases hb : h.live b with
    | none =>
      rw [hb] at hr
      cases hr
    | some old =>
      rw [hb] at hr
      cases hg : h.granted (some b) n with
      | none => rfl
      | some g =>
        simp only [hg] at hr
        cases hr

/-- A reallocation that answers NULL leaves every block alone, unless it was asked for nothing and
so released the block. -/
theorem realloc_refused {h h' : Blocks α} {p : Option ℕ} {n copied : ℕ}
    (hr : h.realloc p n copied = .ok (none, h')) :
    h'.live = h.live ↔ (n = 0 → p = none) := by
  cases p with
  | none =>
    refine ⟨fun _ _ => rfl, fun _ => ?_⟩
    have heq := Except.ok.inj hr
    split_ifs at heq
    · rw [(Prod.mk.inj heq).2]
    · rcases h.alloc_spec n with ⟨-, hlive⟩ | ⟨b, bytes, hsome, -⟩
      · rw [heq] at hlive
        exact hlive
      · rw [heq] at hsome
        cases hsome
  | some b =>
    cases hb : h.live b with
    | none =>
      simp only [realloc, hb] at hr
      cases hr
    | some old =>
      by_cases hn : n = 0
      · simp only [realloc, hb, if_pos hn] at hr
        obtain ⟨-, rfl⟩ := Prod.mk.inj (Except.ok.inj hr)
        refine ⟨fun hlive => ?_, fun hnone => nomatch hnone hn⟩
        have hsame : Function.update h.live b none b = h.live b := congrFun hlive b
        rw [hb, Function.update_self] at hsame
        cases hsame
      · refine ⟨fun _ h0 => absurd h0 hn, fun _ => ?_⟩
        obtain ⟨r, h1, hrun, hspec⟩ := realloc_spec hb (Nat.pos_of_ne_zero hn) copied
        obtain ⟨rfl, rfl⟩ := Prod.mk.inj (Except.ok.inj (hr.symm.trans hrun))
        rcases hspec with ⟨-, hlive⟩ | ⟨c, bytes, hc, -⟩
        · exact hlive
        · cases hc

end Blocks
end Xplatbase.Lib
