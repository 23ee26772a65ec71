import Xplatbase.Memory.HonouredSize
import Xplatbase.Memory.SpanBlocks

/-! The steps of one allocation: it stays in its class until it returns, once. -/
namespace Xplatbase.Memory.Heap
open Xplatbase.Lib

/-- How a step of an allocation of class `c` leaves the owner: still in it, or back from it. -/
def Turned (c : ℕ) (h h' : MemHeap) : Prop :=
  (h'.pc.classId = some c ∧ h'.given = h.given) ∨
    (h'.pc = .idle ∧ ∃ o, h'.given = o :: h.given)

section
variable {h h' : MemHeap} {a b c : ℕ}

theorem turned_refillGot (h : MemHeap) (c a b : ℕ) : Turned c h (refillGot h c a b) := by
  obtain ⟨hpc, hgiven, -⟩ := refillGot_spec h c a b
  exact .inr ⟨hpc, _, hgiven⟩

theorem turned_refillLocal (h : MemHeap) (hlocal : (h.head a).localFree ≠ []) :
    Turned c h (refillLocal h c a) := by
  obtain ⟨b, rest, hb⟩ := List.exists_cons_of_ne_nil hlocal
  unfold refillLocal
  simp only [hb]
  exact turned_refillGot (h.setHead a { h.head a with localFree := rest }) c a b

theorem turned_refillProbe (h : MemHeap) (c k : ℕ) (start : Option ℕ) :
    Turned c h (refillProbe h c k start) := by
  rcases refillProbe_cases h c k start with hp | ⟨fs, -, hp⟩
  · rw [hp]
    exact .inl ⟨rfl, rfl⟩
  · rw [hp]
    exact .inl ⟨rfl, rfl⟩

theorem turned_refillFrom (h : MemHeap) (c : ℕ) (o : Option ℕ) :
    Turned c h (refillFrom h c o) := by
  cases o with
  | none => exact turned_refillProbe h c 0 none
  | some a =>
    simp only [refillFrom]
    split_ifs with hlocal
    · exact turned_refillLocal h hlocal
    · exact turned_refillGot
        (h.setHead a { h.head a with bumpIdx := (h.head a).bumpIdx + 1 }) c a _
    · exact .inl ⟨rfl, rfl⟩

theorem turned_memopAllocRaw (h : MemHeap) (c : ℕ) : Turned c h (memopAllocRaw h c) := by
  unfold memopAllocRaw
  split
  · exact turned_refillFrom h c none
  · dsimp only
    split
    · exact .inr ⟨rfl, _, rfl⟩
    · split_ifs
      · exact .inr ⟨rfl, _, rfl⟩
      · exact turned_refillFrom h c _

theorem HeapInv.turned (hi : HeapInv h) (hc : h.pc.classId = some c) {chunk : Option ℕ}
    (hs : memopRefill h chunk = some h') : Turned c h h' := by
  obtain ⟨-, hpc⟩ := hi
  unfold memopRefill at hs
  cases hat : h.pc with
  | idle => simp only [hat, reduceCtorEq] at hs
  | drain d site a =>
    rw [hat] at hc
    obtain rfl : d = c := Option.some.inj hc
    simp only [hat, Option.some.injEq] at hs
    split_ifs at hs
    · rw [← hs]
      cases site with
      | classList => exact turned_refillFrom (heapFullPushTail (heapListUnlink h d a) a) d _
      | full k start =>
        unfold refillEmpty
        dsimp only
        split_ifs
        · exact turned_refillProbe h d (k + 1) (some start)
        · exact turned_refillProbe (heapFullPushTail (heapFullUnlink h a) a) d (k + 1) (some start)
    · rw [← hs]
      exact .inl ⟨rfl, rfl⟩
  | take d site a =>
    rw [hat] at hc hpc
    obtain rfl : d = c := Option.some.inj hc
    simp only [hat, Option.some.injEq] at hs
    rw [← hs]
    cases site with
    | classList =>
      obtain ⟨-, -, -, hr⟩ := hpc
      exact turned_refillLocal (spanTakeRemote h a) (spanTakeRemote_local hr)
    | full k start =>
      obtain ⟨-, -, hr⟩ := hpc
      unfold refillDrained
      dsimp only
      split_ifs
      · have hlocal : ((Heap.reviveFull h a).head a).localFree ≠ [] := by
          rw [reviveFull_self]
          exact spanTakeRemote_local (h := h) hr
        exact turned_refillLocal (reviveFull h a) hlocal
      · exact turned_refillProbe (reviveFull h a) d (k + 1) (some start)
  | create d =>
    rw [hat] at hc
    obtain rfl : d = c := Option.some.inj hc
    simp only [hat] at hs
    cases chunk with
    | none =>
      rw [← Option.some.inj hs]
      exact .inr ⟨rfl, _, rfl⟩
    | some m =>
      dsimp only at hs
      split_ifs at hs
      rw [← Option.some.inj hs]
      obtain ⟨hpc, hgiven, -⟩ := refillCreate_spec h d m
      exact .inr ⟨hpc, _, hgiven⟩

/-! ### The search ends -/

/-- How many spans the list of class `c` has. -/
def listedSpans (h : MemHeap) (c : ℕ) : ℕ :=
  (h.owned.filter fun a => (h.head a).home = some c).card

/-- A bound on the steps of `memop_refill` that are left. -/
def refillBound (h : MemHeap) : ℕ :=
  match h.pc with
  | .idle => 0
  | .create _ => 1
  | .take _ (.full k _) _ => 2 * (memopFullScanK - k) + 2
  | .drain _ (.full k _) _ => 2 * (memopFullScanK - k) + 3
  | .take c .classList _ => 2 * listedSpans h c + 7
  | .drain c .classList _ => 2 * listedSpans h c + 8

theorem refillBound_idle (hpc : h.pc = .idle) : refillBound h = 0 := by
  unfold refillBound
  rw [hpc]

theorem refillBound_probe (h : MemHeap) (c k : ℕ) (start : Option ℕ) :
    refillBound (refillProbe h c k start) ≤ 1 ∨
      k < memopFullScanK ∧
        refillBound (refillProbe h c k start) ≤ 2 * (memopFullScanK - k) + 3 := by
  unfold refillProbe
  split_ifs with hk
  · refine .inr ⟨hk, ?_⟩
    split
    · exact Nat.le_add_left 1 _
    · split_ifs
      · exact Nat.le_add_left 1 _
      · exact Nat.le_refl _
  · exact .inl (Nat.le_refl 1)

theorem refillBound_local (hlocal : (h.head a).localFree ≠ []) :
    refillBound (refillLocal h c a) = 0 := by
  obtain ⟨b, rest, hb⟩ := List.exists_cons_of_ne_nil hlocal
  apply refillBound_idle
  unfold refillLocal
  simp only [hb]
  exact (refillGot_spec _ c a b).1

theorem refillBound_from (h : MemHeap) (c : ℕ) (o : Option ℕ) :
    refillBound (refillFrom h c o) ≤ 2 * listedSpans h c + 8 := by
  cases o with
  | none =>
    have hprobe := refillBound_probe h c 0 none
    change refillBound (refillProbe h c 0 none) ≤ _
    unfold memopFullScanK at hprobe
    omega
  | some a =>
    simp only [refillFrom]
    split_ifs with hlocal
    · rw [refillBound_local hlocal]
      exact Nat.zero_le _
    · rw [refillBound_idle (refillGot_spec _ c a _).1]
      exact Nat.zero_le _
    · exact Nat.le_refl _

/-- A span that is retired leaves the list of its class. -/
theorem listedSpans_retire (ha : a ∈ h.owned) (hc : (h.head a).home = some c) :
    listedSpans (heapFullPushTail (heapListUnlink h c a) a) c + 1 = listedSpans h c := by
  have hfilter : ((heapFullPushTail (heapListUnlink h c a) a).owned.filter fun d =>
      ((heapFullPushTail (heapListUnlink h c a) a).head d).home = some c) =
      (h.owned.filter fun d => (h.head d).home = some c).erase a := by
    ext d
    rw [Finset.mem_erase, Finset.mem_filter, Finset.mem_filter]
    change d ∈ h.owned ∧ (Function.update h.head a { h.head a with state := .full } d).home =
      some c ↔ _
    by_cases hd : d = a
    · rw [hd, Function.update_self, SpanHead.home_full rfl]
      simp
    · rw [Function.update_of_ne hd]
      simp [hd]
  have hmem : a ∈ h.owned.filter fun d => (h.head d).home = some c :=
    Finset.mem_filter.mpr ⟨ha, hc⟩
  unfold listedSpans
  rw [hfilter, Finset.card_erase_add_one hmem]

/-- A step of `memop_refill` brings its end closer. -/
theorem HeapInv.refillBound_lt (hi : HeapInv h) {chunk : Option ℕ}
    (hs : memopRefill h chunk = some h') : refillBound h' < refillBound h := by
  obtain ⟨⟨ls, hg⟩, hpc⟩ := hi
  unfold memopRefill at hs
  cases hat : h.pc with
  | idle => simp only [hat, reduceCtorEq] at hs
  | drain c site a =>
    rw [hat] at hpc
    simp only [hat, Option.some.injEq] at hs
    cases site with
    | classList =>
      obtain ⟨-, ha, -⟩ := hpc
      have hbound : refillBound h = 2 * listedSpans h c + 8 := by
        unfold refillBound
        rw [hat]
      split_ifs at hs
      · rw [← hs, hbound]
        obtain ⟨howned, hhome⟩ := hg.lists.mem_of_first ha
        have hfrom := refillBound_from (heapFullPushTail (heapListUnlink h c a) a) c (h.next a)
        have hone := listedSpans_retire howned hhome
        change refillBound (refillFrom (heapFullPushTail (heapListUnlink h c a) a) c (h.next a)) < _
        omega
      · rw [← hs, hbound]
        exact Nat.lt_succ_self _
    | full k start =>
      have hbound : refillBound h = 2 * (memopFullScanK - k) + 3 := by
        unfold refillBound
        rw [hat]
      have hprobe (h₁ : MemHeap) :
          refillBound (refillProbe h₁ c (k + 1) (some start)) < refillBound h := by
        have hprobe := refillBound_probe h₁ c (k + 1) (some start)
        omega
      split_ifs at hs
      · rw [← hs]
        exact hprobe _
      · rw [← hs, hbound]
        exact Nat.lt_succ_self _
  | take c site a =>
    rw [hat] at hpc
    simp only [hat, Option.some.injEq] at hs
    cases site with
    | classList =>
      obtain ⟨-, -, -, hr⟩ := hpc
      have hbound : refillBound h = 2 * listedSpans h c + 7 := by
        unfold refillBound
        rw [hat]
      have hlocal : refillBound (refillLocal (spanTakeRemote h a) c a) = 0 :=
        refillBound_local (spanTakeRemote_local hr)
      rw [← hs, hbound]
      change refillBound (refillLocal (spanTakeRemote h a) c a) < _
      omega
    | full k start =>
      obtain ⟨-, -, hr⟩ := hpc
      have hbound : refillBound h = 2 * (memopFullScanK - k) + 2 := by
        unfold refillBound
        rw [hat]
      rw [← hs]
      unfold refillDrained
      dsimp only
      split_ifs
      · have hlocal : ((Heap.reviveFull h a).head a).localFree ≠ [] := by
          rw [reviveFull_self]
          exact spanTakeRemote_local (h := h) hr
        have hzero : refillBound (refillLocal (reviveFull h a) c a) = 0 :=
          refillBound_local hlocal
        change refillBound (refillLocal (reviveFull h a) c a) < _
        omega
      · have hprobe := refillBound_probe (reviveFull h a) c (k + 1) (some start)
        change refillBound (refillProbe (reviveFull h a) c (k + 1) (some start)) < _
        omega
  | create c =>
    have hbound : refillBound h = 1 := by
      unfold refillBound
      rw [hat]
    have hidle : h'.pc = .idle := by
      simp only [hat] at hs
      cases chunk with
      | none => rw [← Option.some.inj hs]
      | some m =>
        dsimp only at hs
        split_ifs at hs
        rw [← Option.some.inj hs]
        exact (refillCreate_spec h c m).1
    rw [hbound, refillBound_idle hidle]
    exact Nat.one_pos

end
end Xplatbase.Memory.Heap
