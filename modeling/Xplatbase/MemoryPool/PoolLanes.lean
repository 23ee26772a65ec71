import Xplatbase.Lib.LinkedList
import Xplatbase.MemoryPool.Stored

/-! Where the threads of the pool stand: each call agrees with the place of its thread in the chunks
and with the heap it works on, up to the end of the thread. -/
namespace Xplatbase.MemoryPool
open Xplatbase.Lib Xplatbase.Memory

variable {ι : Type*}

/-! ### The chunks -/

/-- A thread is in `chunk_acquire`, or about to call it. -/
def Acquiring (pc : ChunkPc) : Prop := pc = .idle ∨ pc = .mapping ∨ ∃ b, pc = .linking b

/-- What a step in the chunks leaves as it is for the other threads. -/
structure ChunkFrame (i : ι) (c c' : ChunkState ι) : Prop where
  pcs : ∀ j ≠ i, c'.pcs j = c.pcs j
  active : ∀ j ≠ i, (c'.heaps j).active = (c.heaps j).active

/-- What a step of `chunk_acquire` returns, if it does, and what it puts to use. -/
def Acquired (i : ι) (c c' : ChunkState ι) : Option (Option ℕ) → Prop
  | none => c'.used = c.used ∧ Acquiring (c'.pcs i)
  | some none => c'.used = c.used ∧ c'.pcs i = .idle
  | some (some m) => c'.used = m :: c.used ∧ c'.pcs i = .idle

section
variable [DecidableEq ι] {c c' : ChunkState ι} {i : ι} {os : Option ℕ} {r : Option (Option ℕ)}

theorem chunkAcquire_spec (c : ChunkState ι) (hpc : c.pcs i = .idle) :
    ((chunkAcquire c i).pcs i = .mapping ∧ (chunkAcquire c i).used = c.used ∨
      (chunkAcquire c i).pcs i = .idle ∧ ∃ m, (chunkAcquire c i).used = m :: c.used) ∧
      (∀ j ≠ i, (chunkAcquire c i).pcs j = c.pcs j) ∧
      (∀ j, ((chunkAcquire c i).heaps j).active = (c.heaps j).active) ∧
      (chunkAcquire c i).pool.mapped = c.pool.mapped := by
  unfold chunkAcquire
  split
  · rename_i mem rest hactive hcache
    refine ⟨.inr ⟨hpc, mem, rfl⟩, fun _ _ => rfl, ?_, rfl⟩
    intro j
    simp only [ChunkState.setHeap]
    by_cases hj : j = i
    · rw [hj, Function.update_self, hactive]
    · rw [Function.update_of_ne hj]
  · split
    · rename_i mem g hlocked
      refine ⟨.inr ⟨hpc, mem, rfl⟩, fun _ _ => rfl, fun _ => rfl, ?_⟩
      unfold chunkAcquireLocked at hlocked
      split at hlocked
      · rw [← (Prod.mk.inj (Option.some.inj hlocked)).2]
        rfl
      · split at hlocked
        · dsimp only at hlocked
          split_ifs at hlocked
          rw [← (Prod.mk.inj (Option.some.inj hlocked)).2]
          rfl
        · cases hlocked
    · refine ⟨.inl ⟨Function.update_self .., rfl⟩, ?_, fun _ => rfl, rfl⟩
      intro j hj
      exact Function.update_of_ne hj ..

theorem acquireStep_spec (h : ChunkInv c) (hs : acquireStep c i os = some (c', r)) :
    ChunkInv c' ∧ ChunkFrame i c c' ∧ (c'.heaps i).active = (c.heaps i).active ∧
      Acquired i c c' r ∧
      ∀ b ∈ c'.pool.mapped, b ∈ c.pool.mapped ∨ c.pcs i = .mapping ∧ os = some b := by
  unfold acquireStep at hs
  cases hpc : c.pcs i with
  | idle =>
    obtain ⟨hcase, hpcs, hactive, hmapped⟩ := chunkAcquire_spec c hpc
    simp only [hpc, Option.some.injEq, Prod.mk.injEq] at hs
    obtain ⟨rfl, rfl⟩ := hs
    refine ⟨h.acquire hpc, ⟨hpcs, fun j _ => hactive j⟩, hactive i, ?_, ?_⟩
    · rcases hcase with ⟨hmap, hused⟩ | ⟨hidle, m, hused⟩
      · rw [if_pos hmap]
        exact ⟨hused, .inr (.inl hmap)⟩
      · rw [if_neg (by rw [hidle]; exact ChunkPc.noConfusion), hused]
        exact ⟨hused, hidle⟩
    · intro b hb
      rw [hmapped] at hb
      exact .inl hb
  | mapping =>
    simp only [hpc] at hs
    cases os with
    | none =>
      obtain ⟨rfl, rfl⟩ := Prod.mk.inj (Option.some.inj hs)
      refine ⟨?_, ⟨?_, fun _ _ => rfl⟩, rfl, ⟨rfl, Function.update_self ..⟩, fun b hb => .inl hb⟩
      · apply h.setPc
        · rw [hpc]
          rfl
        · rfl
        · exact fun _ => ChunkPc.noConfusion
      · intro j hj
        exact Function.update_of_ne hj ..
    | some b =>
      dsimp only at hs
      split_ifs at hs with hb
      obtain ⟨rfl, rfl⟩ := Prod.mk.inj (Option.some.inj hs)
      refine ⟨h.segOsAlloc hpc hb, ⟨?_, fun _ _ => rfl⟩, rfl, ⟨rfl, .inr (.inr ⟨b, ?_⟩)⟩, ?_⟩
      · intro j hj
        exact Function.update_of_ne hj ..
      · exact Function.update_self ..
      · intro d hd
        rcases List.mem_cons.mp hd with rfl | hd
        · exact .inr ⟨rfl, rfl⟩
        · exact .inl hd
  | linking b =>
    simp only [hpc, Option.some.injEq, Prod.mk.injEq] at hs
    obtain ⟨rfl, rfl⟩ := hs
    refine ⟨h.segLink hpc, ⟨?_, fun _ _ => rfl⟩, rfl, ⟨rfl, Function.update_self ..⟩,
      fun d hd => .inl hd⟩
    intro j hj
    exact Function.update_of_ne hj ..
  | ending => simp only [hpc, reduceCtorEq] at hs
  | draining rest => simp only [hpc, reduceCtorEq] at hs

theorem mapped_chunkReleaseLocked (m : ℕ) (now : BitVec 64) (g : MemPool) :
    ∀ b ∈ (chunkReleaseLocked m now g).mapped, b ∈ g.mapped := by
  intro b hb
  obtain ⟨doomed, hp⟩ := chunkReleaseLocked_purged m now g
  exact (hp.mem_mapped hb).1

/-- A release takes the chunk out of use and moves no thread. -/
theorem chunkRelease_spec (c : ChunkState ι) (own : Option ι) (m : ℕ) (now : BitVec 64) :
    (chunkRelease c own m now).used = c.used.erase m ∧
      (chunkRelease c own m now).pcs = c.pcs ∧
      (∀ j, ((chunkRelease c own m now).heaps j).active = (c.heaps j).active) ∧
      ∀ b ∈ (chunkRelease c own m now).pool.mapped, b ∈ c.pool.mapped := by
  have hglobal := mapped_chunkReleaseLocked m now c.pool
  unfold chunkRelease
  split
  · exact ⟨rfl, rfl, fun _ => rfl, hglobal⟩
  · rename_i j
    split_ifs
    · refine ⟨rfl, rfl, ?_, fun b hb => hb⟩
      intro l
      simp only [ChunkState.setHeap]
      by_cases hl : l = j
      · rw [hl, Function.update_self]
      · rw [Function.update_of_ne hl]
    · exact ⟨rfl, rfl, fun _ => rfl, hglobal⟩

end

/-! ### The end of a thread -/

/-- The spans that the end of a thread has still to visit: `v` are its lists from `place` on, `span`
the next one. -/
structure Ending (h : Heap.MemHeap) (place span : Option ℕ) (v : Option ℕ → List ℕ) (E : Set ℕ) :
    Prop where
  here : Linked h.next span (v place)
  classes : ∀ c, place = some c → ∀ d, c < d → Linked h.next (h.spans d) (v (some d))
  full : place ≠ none → Linked h.next h.fullHead (v none)
  shelved : Shelved v E
  owned : ∀ a ∈ E, a ∈ h.owned

theorem linked_of_dlinked {K : Type*} {next prev : K → Option K} {p : Option K} {l : List K}
    (h : DLinked next prev p l none) : Linked next l.head? l := by
  induction l generalizing p with
  | nil => rfl
  | cons k l ih =>
    obtain ⟨-, hnext, ht⟩ := h
    refine ⟨rfl, ?_⟩
    rw [hnext, Option.or_none]
    exact ih ht

namespace Ending

variable {h h' : Heap.MemHeap} {place span : Option ℕ} {v : Option ℕ → List ℕ} {E : Set ℕ} {a c : ℕ}

theorem of_heapInv (hi : Heap.HeapInv h) :
    ∃ v E, (∀ d, Linked h.next (h.spans d) (v (some d))) ∧ Linked h.next h.fullHead (v none) ∧
      Shelved v E ∧ ∀ a ∈ E, a ∈ h.owned := by
  obtain ⟨⟨ls, hg⟩, -⟩ := hi
  refine ⟨ls, {a | ∃ i, a ∈ ls i}, ?_, ?_, ?_, ?_⟩
  · intro d
    rw [hg.lists.first]
    exact linked_of_dlinked (hg.lists.lists.linked (some d))
  · rw [hg.lists.fullFirst]
    exact linked_of_dlinked (hg.lists.lists.linked none)
  · constructor
    · exact hg.lists.lists.nodup
    · intro i j a hi hj
      exact ((hg.lists.mem a i).mp hi).2.symm.trans ((hg.lists.mem a j).mp hj).2
    · exact fun a => Iff.rfl
  · rintro a ⟨i, ha⟩
    exact ((hg.lists.mem a i).mp ha).1

theorem mem (hend : Ending h place (some a) v E) : a ∈ E := by
  obtain ⟨t, ht, -⟩ := hend.here.eq_cons
  exact hend.shelved.mem (p := place) (ht ▸ List.mem_cons_self)

/-- A span is visited, and the links of those still to be visited stay. -/
theorem visit (hend : Ending h place (some a) v E)
    (hnext : ∀ d ∈ E, d ≠ a → h'.next d = h.next d) (hspans : h'.spans = h.spans)
    (hfull : h'.fullHead = h.fullHead) (howned : ∀ d ∈ h.owned, d ≠ a → d ∈ h'.owned) :
    ∃ v', Ending h' place (h.next a) v' (E \ {a}) := by
  obtain ⟨t, ht, hlink⟩ := hend.here.eq_cons
  have hmem : a ∈ v place := ht ▸ List.mem_cons_self
  have hat : a ∉ t := by
    have hnodup := hend.shelved.nodup place
    rw [ht] at hnodup
    exact (List.nodup_cons.mp hnodup).1
  have hother (i : Option ℕ) (hi : i ≠ place) : a ∉ v i := hend.shelved.not_mem hmem (Ne.symm hi)
  have hv (i : Option ℕ) (hi : i ≠ place) : Function.update v place t i = v i :=
    Function.update_of_ne hi ..
  have hkeep (i : Option ℕ) (hi : i ≠ place) : ∀ d ∈ v i, h'.next d = h.next d := by
    intro d hd
    apply hnext d (hend.shelved.mem hd)
    rintro rfl
    exact hother i hi hd
  refine ⟨Function.update v place t, ?_⟩
  constructor
  · rw [Function.update_self]
    apply hlink.congr
    intro d hd
    apply hnext d
    · exact hend.shelved.mem (p := place) (ht ▸ List.mem_cons_of_mem a hd)
    · rintro rfl
      exact hat hd
  · intro c hc d hd
    have hne : some d ≠ place := by
      rw [hc]
      exact fun he => Nat.ne_of_gt hd (Option.some.inj he)
    rw [hv _ hne, hspans]
    exact (hend.classes c hc d hd).congr (hkeep _ hne)
  · intro hp
    rw [hv _ (Ne.symm hp), hfull]
    exact (hend.full hp).congr (hkeep _ (Ne.symm hp))
  · apply hend.shelved.take hmem
    · rw [Function.update_self, ht, List.erase_cons_head]
    · exact hv
  · rintro d ⟨hd, hne⟩
    exact howned d (hend.owned d hd) hne

/-- The lists at which a thread that ends looks do not change. -/
theorem congr (hend : Ending h place span v E) (hnext : h'.next = h.next)
    (hspans : h'.spans = h.spans) (hfull : h'.fullHead = h.fullHead) (howned : h'.owned = h.owned) :
    Ending h' place span v E where
  here := hnext ▸ hend.here
  classes := by
    rw [hnext, hspans]
    exact hend.classes
  full := by
    rw [hnext, hfull]
    exact hend.full
  shelved := hend.shelved
  owned := howned ▸ hend.owned

end Ending

/-! ### Places of a call -/

/-- What a thread at `pc` knows of its place in the chunks and of its heap. -/
def PoolPc.Stands (pc : PoolPc) (cpc : ChunkPc) (h : Heap.MemHeap) : Prop :=
  match pc with
  | .idle => cpc = .idle ∧ h.pc = .idle ∧ Heap.HeapInv h
  | .refill _ =>
    (cpc = .idle ∨ (∃ c, h.pc = .create c) ∧ Acquiring cpc) ∧ h.pc ≠ .idle ∧ Heap.HeapInv h
  | .large size _ =>
    (cpc = .idle ∨ largeUnits size = 1 ∧ Acquiring cpc) ∧ h.pc = .idle ∧ Heap.HeapInv h
  | .release _ _ => cpc = .idle ∧ h.pc = .idle ∧ Heap.HeapInv h
  | .endClass c span _ => cpc = .ending ∧ ∃ v E, Ending h (some c) span v E
  | .endFull span _ keptTail =>
    cpc = .ending ∧ ∃ v E, Ending h none span v E ∧ ∀ a, keptTail = some a → a ∉ E
  | .endCache => ∃ rest, cpc = .draining rest

/-- A thread without a heap is in no call; another one stands where its call says. -/
def PoolState.Lane (s : PoolState ι) (i : ι) : Prop :=
  match s.gHeap i with
  | none => s.pcs i = .idle ∧ s.chunks.pcs i = .idle ∧ (s.chunks.heaps i).active = false
  | some k =>
    k ∈ s.heaps ∧ (s.chunks.heaps i).active = true ∧
      (s.pcs i).Stands (s.chunks.pcs i) (s.heap k).lists

/-- The threads stand where their calls say, each with a heap of its own. -/
structure Lanes (s : PoolState ι) : Prop where
  lane : ∀ i, s.Lane i
  once : ∀ i j k, s.gHeap i = some k → s.gHeap j = some k → i = j

section
variable {s s' : PoolState ι} {i : ι} {k : ℕ}

theorem lane_none (hg : s.gHeap i = none) :
    s.Lane i ↔ s.pcs i = .idle ∧ s.chunks.pcs i = .idle ∧ (s.chunks.heaps i).active = false := by
  unfold PoolState.Lane
  rw [hg]

theorem lane_some (hg : s.gHeap i = some k) :
    s.Lane i ↔ k ∈ s.heaps ∧ (s.chunks.heaps i).active = true ∧
      (s.pcs i).Stands (s.chunks.pcs i) (s.heap k).lists := by
  unfold PoolState.Lane
  rw [hg]

theorem PoolState.Lane.same (h : s.Lane i) (hg : s'.gHeap i = s.gHeap i)
    (hheaps : ∀ k ∈ s.heaps, k ∈ s'.heaps) (hpcs : s'.pcs i = s.pcs i)
    (hcpc : s'.chunks.pcs i = s.chunks.pcs i)
    (hactive : (s'.chunks.heaps i).active = (s.chunks.heaps i).active)
    (hlists : ∀ k, s.gHeap i = some k →
      (s.pcs i).Stands (s.chunks.pcs i) (s.heap k).lists →
      (s.pcs i).Stands (s.chunks.pcs i) (s'.heap k).lists) : s'.Lane i := by
  cases hi : s.gHeap i with
  | none =>
    rw [lane_none (hg.trans hi), hpcs, hcpc, hactive]
    exact (lane_none hi).mp h
  | some k =>
    obtain ⟨hk, ha, hstands⟩ := (lane_some hi).mp h
    rw [lane_some (hg.trans hi), hpcs, hcpc, hactive]
    exact ⟨hheaps k hk, ha, hlists k hi hstands⟩

/-- The threads but `i` stand where their calls say; `i` is in the middle of a step. -/
structure LanesBut (s : PoolState ι) (i : ι) : Prop where
  lane : ∀ j ≠ i, s.Lane j
  once : ∀ i j k, s.gHeap i = some k → s.gHeap j = some k → i = j
  known : ∀ k, s.gHeap i = some k → k ∈ s.heaps
  active : (s.chunks.heaps i).active = (s.gHeap i).isSome

namespace Lanes

theorem stands (h : Lanes s) (hg : s.gHeap i = some k) :
    (s.pcs i).Stands (s.chunks.pcs i) (s.heap k).lists :=
  ((lane_some hg).mp (h.lane i)).2.2

theorem but (h : Lanes s) (i : ι) : LanesBut s i where
  lane := fun j _ => h.lane j
  once := h.once
  known := fun _ hg => ((lane_some hg).mp (h.lane i)).1
  active := by
    cases hg : s.gHeap i with
    | none => exact ((lane_none hg).mp (h.lane i)).2.2
    | some k => exact ((lane_some hg).mp (h.lane i)).2.1

end Lanes

namespace LanesBut

/-- A step of thread `i`, which may write to the heap that it has or to no heap. -/
theorem turn (h : LanesBut s i) (hgs : s'.gHeap = s.gHeap) (hheaps : s'.heaps = s.heaps)
    (hpcs : ∀ j ≠ i, s'.pcs j = s.pcs j) (hchunks : ChunkFrame i s.chunks s'.chunks)
    (hactive : (s'.chunks.heaps i).active = (s.chunks.heaps i).active)
    (hlists : ∀ j k, j ≠ i → s.gHeap j = some k →
      (s.pcs j).Stands (s.chunks.pcs j) (s.heap k).lists →
      (s.pcs j).Stands (s.chunks.pcs j) (s'.heap k).lists) : LanesBut s' i := by
  constructor
  · intro j hj
    apply (h.lane j hj).same
    · rw [hgs]
    · rw [hheaps]
      exact fun _ hl => hl
    · exact hpcs j hj
    · exact hchunks.pcs j hj
    · exact hchunks.active j hj
    · exact fun k => hlists j k hj
  · rw [hgs]
    exact h.once
  · rw [hgs, hheaps]
    exact h.known
  · rw [hgs, hactive]
    exact h.active

/-- Thread `i` changes its place, what callers hold and statistics only. -/
theorem same (h : LanesBut s i) (hs : SameStorage s s') (hgs : s'.gHeap = s.gHeap)
    (hpcs : ∀ j ≠ i, s'.pcs j = s.pcs j) : LanesBut s' i := by
  apply h.turn hgs hs.heaps hpcs
  · rw [hs.chunks]
    exact ⟨fun _ _ => rfl, fun _ _ => rfl⟩
  · rw [hs.chunks]
  · intro j k _ _ hst
    rw [hs.lists]
    exact hst

theorem other (h : LanesBut s i) (hg : s.gHeap i = some k) {j : ι} {l : ℕ} (hj : j ≠ i)
    (hl : s.gHeap j = some l) : l ≠ k := by
  rintro rfl
  exact hj (h.once j i l hl hg)

/-- Thread `i` has come to a place of its call. -/
theorem close (h : LanesBut s i) (hg : s.gHeap i = some k)
    (hstands : (s.pcs i).Stands (s.chunks.pcs i) (s.heap k).lists) : Lanes s where
  lane := by
    intro j
    by_cases hj : j = i
    · rw [hj, lane_some hg, h.active, hg]
      exact ⟨h.known k hg, rfl, hstands⟩
    · exact h.lane j hj
  once := h.once

/-- Thread `i` is in no call, and may have no heap. -/
theorem idle (h : LanesBut s i) (hpc : s.pcs i = .idle) (hcpc : s.chunks.pcs i = .idle)
    (hk : ∀ k, s.gHeap i = some k → (s.heap k).lists.pc = .idle ∧ Heap.HeapInv (s.heap k).lists) :
    Lanes s := by
  cases hg : s.gHeap i with
  | none =>
    constructor
    · intro j
      by_cases hj : j = i
      · rw [hj, lane_none hg, h.active, hg]
        exact ⟨hpc, hcpc, rfl⟩
      · exact h.lane j hj
    · exact h.once
  | some k =>
    apply h.close hg
    rw [hpc]
    exact ⟨hcpc, hk k hg⟩

end LanesBut
end
end Xplatbase.MemoryPool
