import Xplatbase.MemoryPool.PoolFrame

/-! What a step of an allocation comes to, case by case. -/
namespace Xplatbase.MemoryPool
open Xplatbase.Lib Xplatbase.Memory

variable {ι : Type*} [DecidableEq ι]

/-- A step of `memop_refill` over the spans of the heap, or of `chunk_acquire` for a new span. -/
inductive RefillTurn (s : PoolState ι) (i : ι) (k : ℕ) (os : Option ℕ) (old : Option Ptr) :
    PoolState ι → Prop
  | spans (lists : Heap.MemHeap) (hno : ∀ c, (s.heap k).lists.pc ≠ .create c)
      (hlists : Heap.memopRefill (s.heap k).lists none = some lists) :
      RefillTurn s i k os old (afterAlloc s i k lists old)
  | acquires (c : ℕ) (chunks : ChunkState ι) (hat : (s.heap k).lists.pc = .create c)
      (hacq : poolAcquire s i os = some ({ s with chunks := chunks }, none)) :
      RefillTurn s i k os old { s with chunks := chunks }
  | refused (c : ℕ) (chunks : ChunkState ι) (lists : Heap.MemHeap)
      (hat : (s.heap k).lists.pc = .create c)
      (hacq : poolAcquire s i os = some ({ s with chunks := chunks }, some none))
      (hlists : Heap.memopRefill (s.heap k).lists none = some lists) :
      RefillTurn s i k os old (afterAlloc { s with chunks := chunks } i k lists old)
  | creates (c m : ℕ) (chunks : ChunkState ι) (hat : (s.heap k).lists.pc = .create c)
      (hacq : poolAcquire s i os = some ({ s with chunks := chunks }, some (some m)))
      (hlists : Heap.memopRefill (s.heap k).lists (some m) =
        some (Heap.refillCreate (s.heap k).lists c m)) :
      RefillTurn s i k os old (afterAlloc
        { s with chunks := chunks, header := Function.update s.header m (.small k) } i k
        (Heap.refillCreate (s.heap k).lists c m) old)

/-- `memop_alloc_large` has written the header `x` at `m`. -/
def largeGiven (s : PoolState ι) (i : ι) (k m : ℕ) (x : Heap.LargeSpan) (old : Option Ptr) :
    PoolState ι :=
  let lists := { (s.heap k).lists with spanAllocs := (s.heap k).lists.spanAllocs + 1 }
  allocated (({ s with header := Function.update s.header m (.large x) } : PoolState ι).setLists k
    lists) i k ⟨m, 0⟩ old

/-- A step of `memop_alloc_large`: one of `chunk_acquire` for one unit, or the answer of the OS. -/
inductive LargeTurn (s : PoolState ι) (i : ι) (k : ℕ) (size : BitVec 64) (os : Option ℕ)
    (old : Option Ptr) : PoolState ι → Prop
  | acquires (chunks : ChunkState ι) (hunit : largeUnits size = 1)
      (hacq : poolAcquire s i os = some ({ s with chunks := chunks }, none)) :
      LargeTurn s i k size os old { s with chunks := chunks }
  | noChunk (chunks : ChunkState ι) (hunit : largeUnits size = 1)
      (hacq : poolAcquire s i os = some ({ s with chunks := chunks }, some none)) :
      LargeTurn s i k size os old (allocFailed { s with chunks := chunks } i old)
  | chunk (m : ℕ) (x : Heap.LargeSpan) (chunks : ChunkState ι) (hunit : largeUnits size = 1)
      (hacq : poolAcquire s i os = some ({ s with chunks := chunks }, some (some m)))
      (hx : Heap.memopAllocLarge size true = .block x) :
      LargeTurn s i k size os old (largeGiven { s with chunks := chunks } i k m x old)
  | noMapping (hunits : largeUnits size ≠ 1) (hos : os = none) :
      LargeTurn s i k size os old (allocFailed s i old)
  | mapping (m : ℕ) (x : Heap.LargeSpan) (hunits : largeUnits size ≠ 1) (hos : os = some m)
      (hfree : Unmapped s m (largeUnits size)) (hx : Heap.memopAllocLarge size true = .block x) :
      LargeTurn s i k size os old
        (largeGiven { s with mappings := (m, largeUnits size) :: s.mappings } i k m x old)

/-- The first step of `memop_alloc_raw`. -/
inductive AllocStart (s : PoolState ι) (i : ι) (size : BitVec 64) (heap : Option ℕ)
    (old : Option Ptr) : PoolState ι → Prop
  | nothing (hsize : size = 0) : AllocStart s i size heap old (allocFailed s i old)
  | noHeap (u : PoolState ι) (hget : getHeap s i heap = some (u, none)) :
      AllocStart s i size heap old (allocFailed u i old)
  | large (u : PoolState ι) (k : ℕ) (hget : getHeap s i heap = some (u, some k))
      (hclass : memopClassIndex size = none) :
      AllocStart s i size heap old (u.setPc i (.large size old))
  | small (u : PoolState ι) (k c : ℕ) (hget : getHeap s i heap = some (u, some k))
      (hclass : memopClassIndex size = some c) :
      AllocStart s i size heap old (afterAlloc u i k (Heap.memopAllocRaw (u.heap k).lists c) old)

variable {s t : PoolState ι} {i : ι} {k : ℕ} {size : BitVec 64} {os heap : Option ℕ}
  {old : Option Ptr}

theorem refillStep_cases (hs : refillStep s i k os old = some t) : RefillTurn s i k os old t := by
  have hspans (hno : ∀ c, (s.heap k).lists.pc ≠ .create c)
      (hs : ((Heap.memopRefill (s.heap k).lists none).map
        fun lists => afterAlloc s i k lists old) = some t) : RefillTurn s i k os old t := by
    obtain ⟨lists, hlists, rfl⟩ := Option.map_eq_some_iff.mp hs
    exact .spans lists hno hlists
  unfold refillStep at hs
  cases hat : (s.heap k).lists.pc with
  | idle =>
    rw [hat] at hs
    exact hspans (fun _ => by rw [hat]; exact Heap.HeapPc.noConfusion) hs
  | drain c site a =>
    rw [hat] at hs
    exact hspans (fun _ => by rw [hat]; exact Heap.HeapPc.noConfusion) hs
  | take c site a =>
    rw [hat] at hs
    exact hspans (fun _ => by rw [hat]; exact Heap.HeapPc.noConfusion) hs
  | create c =>
    rw [hat] at hs
    dsimp only at hs
    split at hs
    · cases hs
    · rename_i u hacq
      obtain ⟨chunks, rfl, -⟩ := poolAcquire_cases hacq
      obtain rfl := Option.some.inj hs
      exact .acquires c chunks hat hacq
    · rename_i u chunk hacq
      obtain ⟨chunks, rfl, -⟩ := poolAcquire_cases hacq
      obtain ⟨lists, hlists, rfl⟩ := Option.map_eq_some_iff.mp hs
      cases chunk with
      | none => exact .refused c chunks lists hat hacq hlists
      | some m =>
        obtain rfl : Heap.refillCreate (s.heap k).lists c m = lists := by
          unfold Heap.memopRefill at hlists
          simp only [hat] at hlists
          split_ifs at hlists
          exact Option.some.inj hlists
        exact .creates c m chunks hat hacq hlists

/-- Memory that `memop_alloc_large` has got is never answered with no block. -/
theorem memopAllocLarge_ne_null (size : BitVec 64) : Heap.memopAllocLarge size true ≠ .null := by
  rw [Heap.memopAllocLarge_eq]
  split_ifs
  · intro h
    cases h
  · intro h
    cases h

/-- A LARGE block is made where there is memory for it, and without any the call fails. -/
theorem largeGot_cases {mem : Option ℕ} (hs : largeGot s i k size mem old = some t) :
    (mem = none ∧ t = allocFailed s i old) ∨
      ∃ m x, mem = some m ∧ Heap.memopAllocLarge size true = .block x ∧
        t = largeGiven s i k m x old := by
  unfold largeGot at hs
  cases mem with
  | none =>
    refine .inl ⟨rfl, ?_⟩
    exact (Option.some.inj hs).symm
  | some m =>
    rw [Option.isSome_some] at hs
    cases hblock : Heap.memopAllocLarge size true with
    | null => exact absurd hblock (memopAllocLarge_ne_null size)
    | fault =>
      rw [hblock] at hs
      cases hs
    | block x =>
      rw [hblock] at hs
      exact .inr ⟨m, x, rfl, rfl, (Option.some.inj hs).symm⟩

theorem largeStep_cases (hs : largeStep s i k size os old = some t) :
    LargeTurn s i k size os old t := by
  unfold largeStep at hs
  split_ifs at hs with hunit
  · split at hs
    · cases hs
    · rename_i u hacq
      obtain ⟨chunks, rfl, -⟩ := poolAcquire_cases hacq
      obtain rfl := Option.some.inj hs
      exact .acquires chunks hunit hacq
    · rename_i u mem hacq
      obtain ⟨chunks, rfl, -⟩ := poolAcquire_cases hacq
      rcases largeGot_cases hs with ⟨rfl, rfl⟩ | ⟨m, x, rfl, hx, rfl⟩
      · exact .noChunk chunks hunit hacq
      · exact .chunk m x chunks hunit hacq hx
  · split at hs
    · rcases largeGot_cases hs with ⟨-, rfl⟩ | ⟨m, x, hm, -, -⟩
      · exact .noMapping hunit rfl
      · cases hm
    · rename_i m
      split_ifs at hs with hfree
      rcases largeGot_cases hs with ⟨hm, -⟩ | ⟨m', x, hm, hx, rfl⟩
      · cases hm
      · obtain rfl := Option.some.inj hm
        exact .mapping m x hunit rfl hfree hx

theorem memopAllocRaw_cases (hs : memopAllocRaw s i size heap old = some t) :
    AllocStart s i size heap old t := by
  unfold memopAllocRaw at hs
  split_ifs at hs with hsize
  · obtain rfl := Option.some.inj hs
    exact .nothing hsize
  · obtain ⟨⟨u, r⟩, hget, rfl⟩ := Option.map_eq_some_iff.mp hs
    cases r with
    | none => exact .noHeap u hget
    | some k =>
      dsimp only
      cases hclass : memopClassIndex size with
      | none => exact .large u k hget hclass
      | some c => exact .small u k c hget hclass

end Xplatbase.MemoryPool
