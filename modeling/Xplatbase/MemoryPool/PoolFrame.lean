import Xplatbase.MemoryPool.Pool

/-! What the functions of the pool leave as it is. -/
namespace Xplatbase.MemoryPool
open Xplatbase.Lib Xplatbase.Memory

variable {ι : Type*} {s s' t : PoolState ι} {i : ι} {k : ℕ}

/-- `s'` differs from `s` in statistics, in the places of threads or in what callers hold only. -/
structure SameStorage (s s' : PoolState ι) : Prop where
  chunks : s'.chunks = s.chunks
  heaps : s'.heaps = s.heaps
  lists : ∀ k, (s'.heap k).lists = (s.heap k).lists
  header : s'.header = s.header
  mappings : s'.mappings = s.mappings

namespace SameStorage

theorem refl (s : PoolState ι) : SameStorage s s :=
  ⟨rfl, rfl, fun _ => rfl, rfl, rfl⟩

theorem setHeap (s : PoolState ι) (k : ℕ) {x : PoolHeap} (hx : x.lists = (s.heap k).lists) :
    SameStorage s (s.setHeap k x) := by
  refine ⟨rfl, rfl, ?_, rfl, rfl⟩
  intro j
  unfold PoolState.setHeap
  dsimp only
  by_cases hj : j = k
  · rw [hj, Function.update_self, hx]
  · rw [Function.update_of_ne hj]

theorem countAlloc (s : PoolState ι) (k : ℕ) : SameStorage s (s.countAlloc k) :=
  setHeap s k rfl

theorem countFree (s : PoolState ι) (i : ι) : SameStorage s (s.countFree i) := by
  unfold PoolState.countFree
  cases s.gHeap i with
  | none => exact refl s
  | some k => exact setHeap s k rfl

theorem countRemoteFree (s : PoolState ι) (i : ι) : SameStorage s (s.countRemoteFree i) := by
  unfold PoolState.countRemoteFree
  cases s.gHeap i with
  | none => exact refl s
  | some k => exact setHeap s k rfl

end SameStorage

theorem countFree_rest (s : PoolState ι) (i : ι) :
    (s.countFree i).pcs = s.pcs ∧ (s.countFree i).gHeap = s.gHeap := by
  unfold PoolState.countFree
  cases s.gHeap i with
  | none => exact ⟨rfl, rfl⟩
  | some k => exact ⟨rfl, rfl⟩

theorem countRemoteFree_rest (s : PoolState ι) (i : ι) :
    (s.countRemoteFree i).pcs = s.pcs ∧ (s.countRemoteFree i).gHeap = s.gHeap := by
  unfold PoolState.countRemoteFree
  cases s.gHeap i with
  | none => exact ⟨rfl, rfl⟩
  | some k => exact ⟨rfl, rfl⟩

theorem setLists_self (s : PoolState ι) (k : ℕ) (lists : Heap.MemHeap) :
    ((s.setLists k lists).heap k).lists = lists := by
  simp only [PoolState.setLists, PoolState.setHeap, Function.update_self]

theorem setLists_of_ne (s : PoolState ι) {j : ℕ} (lists : Heap.MemHeap) (hj : j ≠ k) :
    (s.setLists k lists).heap j = s.heap j := by
  simp only [PoolState.setLists, PoolState.setHeap, Function.update_of_ne hj]

variable [DecidableEq ι]

/-- A free touches neither the threads' places nor what callers hold. -/
theorem memopFreeRaw_rest (s : PoolState ι) (i : ι) (p : Ptr) (now : BitVec 64) :
    (memopFreeRaw s i p now).pcs = s.pcs ∧ (memopFreeRaw s i p now).live = s.live ∧
      (memopFreeRaw s i p now).calls = s.calls := by
  unfold memopFreeRaw
  cases s.header p.span with
  | large x =>
    dsimp only [PoolState.countFree]
    cases s.gHeap i with
    | none => split_ifs <;> exact ⟨rfl, rfl, rfl⟩
    | some k => split_ifs <;> exact ⟨rfl, rfl, rfl⟩
  | small owner =>
    dsimp only [PoolState.countFree, PoolState.countRemoteFree, PoolState.setLists,
      PoolState.setHeap]
    cases s.gHeap i with
    | none => split_ifs <;> exact ⟨rfl, rfl, rfl⟩
    | some k => split_ifs <;> exact ⟨rfl, rfl, rfl⟩

theorem getHeap_cases {heap r : Option ℕ} (hs : getHeap s i heap = some (t, r)) :
    (t = s ∧ r = s.gHeap i) ∨ ∃ k, k ∉ s.heaps ∧ t = heapCreate s i k ∧ r = some k := by
  unfold getHeap at hs
  cases hg : s.gHeap i with
  | some k =>
    rw [hg] at hs
    obtain ⟨rfl, rfl⟩ := Prod.mk.inj (Option.some.inj hs)
    exact Or.inl ⟨rfl, rfl⟩
  | none =>
    rw [hg] at hs
    cases heap with
    | none =>
      obtain ⟨rfl, rfl⟩ := Prod.mk.inj (Option.some.inj hs)
      exact Or.inl ⟨rfl, rfl⟩
    | some k =>
      dsimp only at hs
      split_ifs at hs with hk
      obtain ⟨rfl, rfl⟩ := Prod.mk.inj (Option.some.inj hs)
      exact Or.inr ⟨k, hk, rfl, rfl⟩

/-- A step of `chunk_acquire` in the pool is one of the chunks; a segment is mapped apart from the
mappings. -/
theorem poolAcquire_cases {os : Option ℕ} {r : Option (Option ℕ)}
    (hs : poolAcquire s i os = some (t, r)) :
    ∃ chunks, t = { s with chunks := chunks } ∧ acquireStep s.chunks i os = some (chunks, r) ∧
      ∀ b, s.chunks.pcs i = .mapping → os = some b → SegmentFree s b := by
  unfold poolAcquire at hs
  split at hs
  · cases hs
  · rename_i chunks chunk hstep
    split at hs
    · rename_i b hpc
      split_ifs at hs with hfree
      obtain ⟨rfl, rfl⟩ := Prod.mk.inj (Option.some.inj hs)
      refine ⟨chunks, rfl, hstep, ?_⟩
      intro c _ hc
      obtain rfl := Option.some.inj hc
      exact hfree
    · rename_i hno
      obtain ⟨rfl, rfl⟩ := Prod.mk.inj (Option.some.inj hs)
      refine ⟨chunks, rfl, hstep, ?_⟩
      intro b hpc hos
      exact absurd hos (hno b hpc)

theorem setPc_self {pc : PoolPc} (h : s.pcs i = pc) : s.setPc i pc = s := by
  unfold PoolState.setPc
  rw [← h, Function.update_eq_self]

end Xplatbase.MemoryPool
