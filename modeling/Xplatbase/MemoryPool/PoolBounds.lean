import Xplatbase.Lib.Blocks
import Xplatbase.MemoryPool.PoolFits

/-! How long a block can be: what the OS maps is memory that a process can address. -/
namespace Xplatbase.MemoryPool
open Xplatbase.Lib Xplatbase.Memory

variable {ι : Type*} [DecidableEq ι]

section
variable {s t : PoolState ι} {i : ι} {k : ℕ} {old : Option Ptr} {size : BitVec 64} {os : Option ℕ}
  {now : BitVec 64} {p : Ptr}

/-- The mappings are of memory that a process can address. -/
def InUser (s : PoolState ι) : Prop := ∀ x ∈ s.mappings, x.1 + x.2 ≤ userChunks

namespace InUser

omit [DecidableEq ι] in
theorem of_mappings (h : InUser s) (ht : t.mappings = s.mappings) : InUser t := by
  unfold InUser
  rw [ht]
  exact h

theorem afterAlloc (h : InUser s) (i : ι) (k : ℕ) (lists : Heap.MemHeap) (old : Option Ptr) :
    InUser (afterAlloc s i k lists old) :=
  h.of_mappings (same_afterAlloc s i k lists old).mappings

theorem largeGiven (h : InUser s) (i : ι) (k m : ℕ) (x : Heap.LargeSpan) (old : Option Ptr) :
    InUser (largeGiven s i k m x old) :=
  h.of_mappings (same_allocated _ i k ⟨m, 0⟩ old).mappings

omit [DecidableEq ι] in
/-- A mapping that is given back in part ends where it did. -/
theorem unmapped (h : InUser s) {m n : ℕ} (ht : t.mappings = unmap s.mappings m n) :
    InUser t := by
  intro x hx
  rw [ht] at hx
  obtain ⟨y, hy, hx⟩ := List.mem_flatMap.mp hx
  have hbound := h y hy
  split_ifs at hx with hm hn
  · cases hx
  · obtain rfl := List.mem_singleton.mp hx
    dsimp only
    omega
  · rw [List.mem_singleton.mp hx]
    exact hbound

theorem memopFreeRaw (h : InUser s) (i : ι) (p : Ptr) (now : BitVec 64) :
    InUser (memopFreeRaw s i p now) := by
  have hfree (u : PoolState ι) : (u.countFree i).mappings = u.mappings :=
    (SameStorage.countFree u i).mappings
  unfold MemoryPool.memopFreeRaw
  cases s.header p.span with
  | large x =>
    dsimp only
    split_ifs
    · exact h.of_mappings (hfree s)
    · exact (h.of_mappings (hfree s)).unmapped rfl
  | small k =>
    dsimp only
    split_ifs
    · exact h.of_mappings (hfree _)
    · exact h.of_mappings (hfree _)
    · exact h.of_mappings (SameStorage.countRemoteFree _ i).mappings

theorem getHeap (h : InUser s) {heap r : Option ℕ} (hget : getHeap s i heap = some (t, r)) :
    InUser t := by
  rcases getHeap_cases hget with ⟨rfl, -⟩ | ⟨k, -, rfl, -⟩
  · exact h
  · exact h.of_mappings rfl

theorem memopAllocRaw (h : InUser s) {heap : Option ℕ}
    (hs : memopAllocRaw s i size heap old = some t) : InUser t := by
  cases memopAllocRaw_cases hs with
  | nothing => exact h.of_mappings rfl
  | noHeap u hget => exact (h.getHeap hget).of_mappings rfl
  | large u k hget => exact (h.getHeap hget).of_mappings rfl
  | small u k c hget => exact (h.getHeap hget).afterAlloc i k _ old

theorem callStep (h : InUser s) (hos : ∀ m ∈ os, ∀ n ∈ (s.pcs i).mapping, m + n ≤ userChunks)
    (hs : callStep s i k os now = some t) : InUser t := by
  have hsame {chunks : ChunkState ι} : InUser { s with chunks := chunks } := h.of_mappings rfl
  unfold MemoryPool.callStep at hs
  split at hs
  · cases hs
  · rename_i old hpc
    cases refillStep_cases hs with
    | spans lists => exact h.afterAlloc i k _ old
    | acquires c chunks => exact hsame
    | refused c chunks lists => exact hsame.afterAlloc i k _ old
    | creates c m chunks =>
      apply afterAlloc
      exact h.of_mappings rfl
  · rename_i size old hpc
    cases largeStep_cases hs with
    | acquires chunks => exact hsame
    | noChunk chunks => exact h.of_mappings rfl
    | chunk m x chunks => exact hsame.largeGiven i k m x old
    | noMapping => exact h.of_mappings rfl
    | mapping m x hunits hm =>
      apply largeGiven
      intro y hy
      rcases List.mem_cons.mp hy with rfl | hy
      · apply hos m hm
        rw [hpc]
        exact if_neg hunits
      · exact h y hy
  · obtain rfl := Option.some.inj hs
    exact (h.memopFreeRaw i _ now).of_mappings rfl
  · exact h.of_mappings (endStep_headers hs).2

theorem step (h : InUser s) {l : PoolLabel ι} (hl : InUserSpace s l)
    (hs : poolStep s l = some t) : InUser t := by
  have herased (p : Ptr) : InUser { s with live := s.live.erase p } := h.of_mappings rfl
  cases l with
  | createdThread i heap =>
    simp only [poolStep] at hs
    split_ifs at hs
    obtain ⟨⟨u, r⟩, hget, rfl⟩ := Option.map_eq_some_iff.mp hs
    exact h.getHeap hget
  | endedThread i =>
    simp only [poolStep] at hs
    split_ifs at hs
    split at hs
    · rw [← Option.some.inj hs]
      exact h
    · rw [← Option.some.inj hs]
      exact h.of_mappings rfl
  | alloc i size heap =>
    simp only [poolStep] at hs
    split_ifs at hs
    exact h.memopAllocRaw hs
  | free i ptr now =>
    simp only [poolStep] at hs
    split_ifs at hs
    cases ptr with
    | none =>
      rw [← Option.some.inj hs]
      exact h
    | some p =>
      dsimp only at hs
      split_ifs at hs
      rw [← Option.some.inj hs]
      exact ((herased p).memopFreeRaw i p now).of_mappings rfl
  | realloc i ptr size heap now =>
    simp only [poolStep] at hs
    split_ifs at hs
    cases ptr with
    | none => exact h.memopAllocRaw hs
    | some p =>
      dsimp only at hs
      split_ifs at hs
      unfold MemoryPool.memopReallocRaw at hs
      split_ifs at hs
      · rw [← Option.some.inj hs]
        exact ((herased p).memopFreeRaw i p now).of_mappings rfl
      · rw [← Option.some.inj hs]
        exact h.of_mappings rfl
      · exact (herased p).memopAllocRaw hs
  | step i os now =>
    simp only [poolStep] at hs
    split at hs
    · cases hs
    · refine h.callStep ?_ hs
      rintro m rfl n hn
      exact hl _ rfl n hn
  | purge now =>
    rw [← Option.some.inj hs]
    exact h.of_mappings rfl

theorem callsStep (h : InUser s) {l : PoolCall ι} (hl : MapsUserSpace s l)
    (hs : poolCallStep s l = some t) : InUser t := by
  cases l with
  | calloc i count size heap =>
    simp only [poolCallStep] at hs
    split_ifs at hs
    unfold memopCallocRaw at hs
    split_ifs at hs
    · rw [← Option.some.inj hs]
      exact h.of_mappings rfl
    · exact h.memopAllocRaw hs
  | pool l => exact h.step hl hs

end InUser

omit [DecidableEq ι] in
theorem PoolOk.usable_le (h : PoolOk s) (huser : InUser s) {r : Option ι} (hp : p ∈ s.holds r) :
    s.usable p ≤ maxBlock := by
  obtain ⟨D, hD⟩ := h.stored
  have hhome := hD.home p (hD.shelved.mem hp)
  unfold PoolState.usable
  cases hx : s.header p.span with
  | small k =>
    have hlt := (classStride ((s.heap k).lists.head p.span).classId).isLt
    unfold maxBlock
    dsimp only
    omega
  | large x =>
    obtain ⟨-, hheld⟩ := (home_large hx).mp hhome
    unfold maxBlock
    dsimp only
    rcases hheld with ⟨-, hmapping, -⟩ | ⟨-, hmem, hmapping⟩
    · rw [hmapping]
      decide
    · have hbound := huser _ hmem
      unfold userChunks at hbound
      unfold memopSpanSize at hmapping
      omega

theorem inUser_run (h : (poolCalls ι).ReachableWhen MapsUserSpace s) : InUser s :=
  System.ReachableWhen.invariant
    (by rintro _ rfl x hx; cases hx) (fun _ _ _ hinv hl hs => hinv.callsStep hl hs) h

end
end Xplatbase.MemoryPool
