import Xplatbase.Memory.ChunkPool

/-! Chunks and segments are conserved: every carved chunk of a held segment is in exactly one
place, the counters are the lengths of their lists, and no purge takes a chunk in use. -/
namespace Xplatbase.Memory
open Xplatbase.Lib

variable {ι : Type*} {s s' : ChunkState ι} {i : ι}

structure HeapInv (h : MemHeap) (pc : ChunkPc) : Prop where
  count : h.localCount = h.localCache.length
  inactive : h.active = false → h.localCache = []
  draining : ∀ r, pc = .draining r → h.localCache = []

structure ChunkInv (s : ChunkState ι) : Prop where
  pool : PoolInv s.shelf .spanCache s.pool
  linking : ∀ i b, s.pcs i = .linking b → b ∉ s.pool.segments
  held : ∀ b ∈ s.pool.mapped, b ∈ s.pool.segments ∨ ∃ i, s.pcs i = .linking b
  heap : ∀ i, HeapInv (s.heaps i) (s.pcs i)

namespace ChunkInv

/-- A step that neither maps nor links a segment keeps the invariant of the segments. -/
theorem of_pool (h : ChunkInv s) (hpool : PoolInv s'.shelf .spanCache s'.pool)
    (hlink : ∀ i b, s'.pcs i = .linking b ↔ s.pcs i = .linking b)
    (hsegs : ∀ b ∈ s'.pool.segments, b ∈ s.pool.segments)
    (hheld : ∀ b ∈ s'.pool.mapped,
      b ∈ s.pool.mapped ∧ (b ∈ s.pool.segments → b ∈ s'.pool.segments))
    (hheap : ∀ i, HeapInv (s'.heaps i) (s'.pcs i)) :
    ChunkInv s' := by
  constructor
  · exact hpool
  · intro i b hb hs
    exact h.linking i b ((hlink i b).mp hb) (hsegs b hs)
  · intro b hb
    obtain ⟨hm, hs⟩ := hheld b hb
    rcases h.held b hm with hb' | ⟨i, hi⟩
    · exact .inl (hs hb')
    · exact .inr ⟨i, (hlink i b).mpr hi⟩
  · exact hheap

theorem init : ChunkInv (memopInit ι) := by
  have hempty (p : ChunkPlace ι) : (memopInit ι).shelf p = [] := by
    cases p <;> rfl
  constructor
  · constructor
    · rfl
    · constructor
      · intro p
        rw [hempty]
        exact List.nodup_nil
      · intro p q c hc
        rw [hempty] at hc
        cases hc
      · intro c
        constructor
        · rintro ⟨hm, -⟩
          cases hm
        · rintro ⟨p, hc⟩
          rw [hempty] at hc
          cases hc
    · exact List.nodup_nil
    · intro b hb
      cases hb
    · intro b hb
      cases hb
    · intro b hb
      cases hb
    · rfl
  · intro i b hb
    cases hb
  · intro b hb
    cases hb
  · intro i
    exact ⟨rfl, fun _ => rfl, fun _ _ => rfl⟩

/-- No chunk of a segment that is not held lies anywhere. -/
theorem not_returned (h : ChunkInv s) {b : ℕ} (hb : b ∉ s.pool.mapped) (p : ChunkPlace ι) :
    ∀ c ∈ s.shelf p, memopSegOf c ≠ b := by
  rintro c hc rfl
  exact hb (h.pool.carved hc).1

theorem mem_transit {b : ℕ} (hi : s.pcs i = .linking b) :
    b * memopSegSpans + 1 ∈ s.shelf (.transit i) := by
  simp [ChunkState.shelf, hi, ChunkPc.transit]

theorem mapped_of_linking (h : ChunkInv s) {b : ℕ} (hi : s.pcs i = .linking b) :
    b ∈ s.pool.mapped :=
  memopSegOf_add b 1 (by decide) ▸ (h.pool.carved (mem_transit hi)).1

theorem mapped_iff (h : ChunkInv s) (b : ℕ) :
    b ∈ s.pool.mapped ↔ b ∈ s.pool.segments ∨ ∃ i, s.pcs i = .linking b := by
  constructor
  · exact h.held b
  · rintro (hb | ⟨i, hi⟩)
    · exact h.pool.mapped b hb
    · exact h.mapped_of_linking hi

/-- `memop_purge` leaves no idle segment. -/
theorem purged (h : ChunkInv s) (now : BitVec 64) {b : ℕ}
    (hb : b ∈ (purgeApplyLocked now true 0 s.pool).mapped) :
    ((purgeApplyLocked now true 0 s.pool).header b).live ≠ 0 := by
  obtain ⟨hm, hs⟩ := (purgeApplyLocked_purged now true 0 s.pool).mem_mapped hb
  rcases h.held b hm with hseg | ⟨i, hi⟩
  · exact purgeDoom_force s.pool.header now 0 s.pool.segments b (hs hseg)
  · have := h.pool.live_pos (by simp) (mem_transit hi)
    rw [memopSegOf_add b 1 (by decide)] at this
    change (s.pool.header b).live ≠ 0
    omega

end ChunkInv

variable [DecidableEq ι]

/-! ### Shelves and updates -/

@[simp] theorem shelf_setHeap (s : ChunkState ι) (i : ι) (h : MemHeap) :
    (s.setHeap i h).shelf = Function.update s.shelf (.localCache i) h.localCache := by
  funext p
  cases p with
  | localCache j =>
    by_cases hj : j = i
    · subst hj
      simp [ChunkState.shelf, ChunkState.setHeap]
    · simp [ChunkState.shelf, ChunkState.setHeap, Function.update_of_ne, hj]
  | _ => simp [ChunkState.shelf, ChunkState.setHeap]

@[simp] theorem shelf_setPc (s : ChunkState ι) (i : ι) (pc : ChunkPc) :
    (s.setPc i pc).shelf = Function.update s.shelf (.transit i) pc.transit := by
  funext p
  cases p with
  | transit j =>
    by_cases hj : j = i
    · subst hj
      simp [ChunkState.shelf, ChunkState.setPc]
    · simp [ChunkState.shelf, ChunkState.setPc, Function.update_of_ne, hj]
  | _ => simp [ChunkState.shelf, ChunkState.setPc]

@[simp] theorem shelf_used (s : ChunkState ι) (u : List ℕ) :
    ChunkState.shelf { s with used := u } = Function.update s.shelf .used u := by
  funext p
  cases p <;> simp [ChunkState.shelf]

@[simp] theorem shelf_pool (s : ChunkState ι) (g : MemPool) :
    ChunkState.shelf { s with pool := g } = Function.update s.shelf .spanCache g.spanCache := by
  funext p
  cases p <;> simp [ChunkState.shelf]

theorem linking_setPc (s : ChunkState ι) {pc : ChunkPc} (hold : ∀ b, s.pcs i ≠ .linking b)
    (hnew : ∀ b, pc ≠ .linking b) (j : ι) (b : ℕ) :
    (s.setPc i pc).pcs j = .linking b ↔ s.pcs j = .linking b := by
  unfold ChunkState.setPc
  by_cases hj : j = i
  · subst hj
    simp [hold, hnew]
  · simp [Function.update_of_ne hj]

/-! ### One lemma for each action -/

namespace ChunkInv

theorem heap_update {h : MemHeap} {pc : ChunkPc} (hs : ChunkInv s) (i : ι) (hh : HeapInv h pc)
    (j : ι) :
    HeapInv (Function.update s.heaps i h j) (Function.update s.pcs i pc j) := by
  by_cases hj : j = i
  · subst hj
    rw [Function.update_self, Function.update_self]
    exact hh
  · rw [Function.update_of_ne hj, Function.update_of_ne hj]
    exact hs.heap j

theorem heap_setHeap {h : MemHeap} (hs : ChunkInv s) (hh : HeapInv h (s.pcs i)) (j : ι) :
    HeapInv (Function.update s.heaps i h j) (s.pcs j) := by
  have := hs.heap_update i hh j
  rwa [Function.update_eq_self] at this

theorem heap_setPc {pc : ChunkPc} (hs : ChunkInv s) (hh : HeapInv (s.heaps i) pc) (j : ι) :
    HeapInv (s.heaps j) (Function.update s.pcs i pc j) := by
  have := hs.heap_update i hh j
  rwa [Function.update_eq_self] at this

/-- A thread moves on between two points at which nothing is in transit. -/
theorem setPc (h : ChunkInv s) {pc : ChunkPc} (hold : (s.pcs i).transit = [])
    (hnew : pc.transit = []) (hd : ∀ r, pc ≠ .draining r) :
    ChunkInv (s.setPc i pc) := by
  apply h.of_pool
  · have hsame : (s.setPc i pc).shelf = s.shelf := by
      rw [shelf_setPc, hnew, Function.update_eq_self_iff]
      exact hold.symm
    rw [hsame]
    exact h.pool
  · apply linking_setPc
    · intro b hb
      rw [hb] at hold
      cases hold
    · rintro b rfl
      cases hnew
  · exact fun b hb => hb
  · exact fun b hb => ⟨hb, id⟩
  · apply h.heap_setPc
    exact ⟨(h.heap i).count, (h.heap i).inactive, fun r hr => absurd hr (hd r)⟩

theorem getHeap (h : ChunkInv s) (hpc : s.pcs i = .idle) (ha : (s.heaps i).active = false) :
    ChunkInv (s.setHeap i ⟨true, [], 0⟩) := by
  apply h.of_pool
  · have hsame : (s.setHeap i ⟨true, [], 0⟩).shelf = s.shelf := by
      rw [shelf_setHeap, Function.update_eq_self_iff]
      exact ((h.heap i).inactive ha).symm
    rw [hsame]
    exact h.pool
  · exact fun _ _ => Iff.rfl
  · exact fun b hb => hb
  · exact fun b hb => ⟨hb, id⟩
  · apply h.heap_setHeap
    rw [hpc]
    exact ⟨rfl, fun _ => rfl, fun _ _ => rfl⟩

theorem acquire (h : ChunkInv s) (hpc : s.pcs i = .idle) : ChunkInv (chunkAcquire s i) := by
  unfold chunkAcquire
  split
  · rename_i mem rest ha hl
    have hmem : mem ∈ s.shelf (.localCache i) := by
      simp only [ChunkState.shelf, hl, List.mem_cons_self]
    apply h.of_pool
    · apply h.pool.reshelve
      · simp
      · apply h.pool.shelved.move hmem (b := .used) (by simp)
        · simp [ChunkState.shelf, ChunkState.setHeap, hl]
        · simp [ChunkState.shelf, ChunkState.setHeap]
        · intro p hp hu
          simp [Function.update_of_ne hp, Function.update_of_ne hu]
    · exact fun _ _ => Iff.rfl
    · exact fun b hb => hb
    · exact fun b hb => ⟨hb, id⟩
    · apply h.heap_setHeap
      have := (h.heap i).count
      rw [hl, List.length_cons] at this
      push_cast at this
      refine ⟨by dsimp only; omega, fun hf => absurd hf (by simp), fun r hr => ?_⟩
      rw [hpc] at hr
      cases hr
  · split
    · rename_i mem g hq
      have hshelf : ChunkState.shelf { s with pool := g, used := mem :: s.used } =
          Function.update (Function.update s.shelf .spanCache g.spanCache) .used
            (mem :: s.used) := by
        rw [← shelf_pool, ← shelf_used]
      have hstep : PoolInv (ChunkState.shelf { s with pool := g, used := mem :: s.used })
          .spanCache g ∧ g.segments = s.pool.segments ∧ g.mapped = s.pool.mapped := by
        apply h.pool.acquire (a := .used) hq (by simp)
        · simp [hshelf]
        · simp [ChunkState.shelf]
        · intro p h1 h2
          simp [hshelf, Function.update_of_ne h1, Function.update_of_ne h2]
      obtain ⟨hp, hs, hm⟩ := hstep
      apply h.of_pool
      · exact hp
      · exact fun _ _ => Iff.rfl
      · exact fun b hb => hs ▸ hb
      · intro b hb
        dsimp only at hb ⊢
        rw [hm] at hb
        rw [hs]
        exact ⟨hb, id⟩
      · exact h.heap
    · apply h.setPc
      · rw [hpc]
        rfl
      · rfl
      · intro r hr
        cases hr

theorem segOsAlloc (h : ChunkInv s) {b : ℕ} (hpc : s.pcs i = .mapping) (hb : b ∉ s.pool.mapped) :
    ChunkInv (segOsAlloc s i b) := by
  have hpool : PoolInv (Memory.segOsAlloc s i b).shelf .spanCache
      (Memory.segOsAlloc s i b).pool := by
    apply h.pool.map (a := .transit i) hb (by simp)
    · simp [ChunkState.shelf, Memory.segOsAlloc, ChunkState.setPc, hpc, ChunkPc.transit]
    · intro p hp
      cases p with
      | transit j =>
        have hj : j ≠ i := fun he => hp (by rw [he])
        simp [ChunkState.shelf, Memory.segOsAlloc, ChunkState.setPc, Function.update_of_ne hj]
      | _ => rfl
  constructor
  · exact hpool
  · intro j c hc hs
    by_cases hj : j = i
    · subst hj
      have hcb : c = b := by
        simpa [Memory.segOsAlloc, ChunkState.setPc, eq_comm] using hc
      exact hb (hcb ▸ h.pool.mapped c hs)
    · have hc' : s.pcs j = .linking c := by
        simpa [Memory.segOsAlloc, ChunkState.setPc, Function.update_of_ne hj] using hc
      exact h.linking j c hc' hs
  · rintro c (_ | ⟨_, hc⟩)
    · exact .inr ⟨i, by simp [Memory.segOsAlloc, ChunkState.setPc]⟩
    · rcases h.held c hc with hs | ⟨j, hj⟩
      · exact .inl hs
      · have hji : j ≠ i := by
          rintro rfl
          rw [hpc] at hj
          cases hj
        exact .inr ⟨j, by simpa [Memory.segOsAlloc, ChunkState.setPc,
          Function.update_of_ne hji] using hj⟩
  · apply h.heap_setPc
    exact ⟨(h.heap i).count, (h.heap i).inactive, fun r hr => by cases hr⟩

theorem segLink (h : ChunkInv s) {b : ℕ} (hpc : s.pcs i = .linking b) :
    ChunkInv (segLink s i b) := by
  have hin := mem_transit hpc
  have hne (p : ChunkPlace ι) : p ≠ .used → p ≠ .transit i →
      (Memory.segLink s i b).shelf p = s.shelf p := by
    intro hu ht
    cases p with
    | transit j =>
      have hj : j ≠ i := fun he => ht (by rw [he])
      simp [ChunkState.shelf, Memory.segLink, ChunkState.setPc, Function.update_of_ne hj]
    | used => exact absurd rfl hu
    | _ => rfl
  constructor
  · apply h.pool.link (h.mapped_of_linking hpc) (h.linking i b hpc)
    · rfl
    · apply h.pool.shelved.move hin (b := .used) (by simp)
      · simp [ChunkState.shelf, Memory.segLink, ChunkState.setPc, hpc, ChunkPc.transit]
      · rfl
      · exact fun p hp hu => hne p hu hp
  · intro j c hc hs
    have hji : j ≠ i := by
      rintro rfl
      simp [Memory.segLink, ChunkState.setPc] at hc
    have hc' : s.pcs j = .linking c := by
      simpa [Memory.segLink, ChunkState.setPc, Function.update_of_ne hji] using hc
    rcases List.mem_cons.mp hs with rfl | hs
    · -- two threads never link one segment: its chunk 1 is in transit once
      have := h.pool.shelved.once _ _ _ hin (mem_transit hc')
      exact hji (ChunkPlace.transit.inj this).symm
    · exact h.linking j c hc' hs
  · intro c hc
    rcases h.held c hc with hs | ⟨j, hj⟩
    · exact .inl (List.mem_cons_of_mem b hs)
    · by_cases hji : j = i
      · subst hji
        rw [hpc] at hj
        cases hj
        exact .inl List.mem_cons_self
      · exact .inr ⟨j, by simpa [Memory.segLink, ChunkState.setPc,
          Function.update_of_ne hji] using hj⟩
  · apply h.heap_setPc
    exact ⟨(h.heap i).count, (h.heap i).inactive, fun r hr => by cases hr⟩

/-- A chunk goes to the global cache, from use or from a thread that ends. -/
theorem toGlobal (h : ChunkInv s) {now : BitVec 64} {mem : ℕ} {a : ChunkPlace ι}
    (hmem : mem ∈ s.shelf a) (ha : a ≠ .spanCache)
    (hg : s'.pool = chunkReleaseLocked mem now s.pool)
    (hsa : s'.shelf a = (s.shelf a).erase mem)
    (hrest : ∀ p, p ≠ a → p ≠ .spanCache → s'.shelf p = s.shelf p)
    (hlink : ∀ i b, s'.pcs i = .linking b ↔ s.pcs i = .linking b)
    (hheap : ∀ i, HeapInv (s'.heaps i) (s'.pcs i)) :
    ChunkInv s' := by
  obtain ⟨doomed, hp⟩ := chunkReleaseLocked_purged mem now s.pool
  apply h.of_pool _ hlink
  · intro b hb
    rw [hg] at hb
    exact hp.mem_segments hb
  · intro b hb
    rw [hg] at hb ⊢
    exact hp.mem_mapped hb
  · exact hheap
  · rw [hg]
    apply h.pool.release now hmem ha _ hsa hrest
    rw [← hg]
    rfl

theorem release (h : ChunkInv s) (now : BitVec 64) {heap : Option ι} {mem : ℕ}
    (hmem : mem ∈ s.used)
    (hheap : ∀ j, heap = some j → s.pcs j = .idle ∧ (s.heaps j).active = true) :
    ChunkInv (chunkRelease s heap mem now) := by
  have hglobal : ChunkInv { s with
      pool := chunkReleaseLocked mem now s.pool
      used := s.used.erase mem } := by
    apply h.toGlobal (a := .used) hmem (by simp) rfl rfl
    · intro p hu hp
      cases p with
      | used => exact absurd rfl hu
      | spanCache => exact absurd rfl hp
      | _ => rfl
    · exact fun _ _ => Iff.rfl
    · exact h.heap
  unfold chunkRelease
  split
  · exact hglobal
  · rename_i j
    obtain ⟨hpc, hact⟩ := hheap j rfl
    split_ifs
    · apply h.of_pool
      · apply h.pool.reshelve
        · simp
        · apply h.pool.shelved.move (a := .used) (b := .localCache j) hmem (by simp)
          · simp [ChunkState.shelf, ChunkState.setHeap]
          · simp [ChunkState.shelf, ChunkState.setHeap]
          · intro p hu hp
            simp [Function.update_of_ne hp, Function.update_of_ne hu]
      · exact fun _ _ => Iff.rfl
      · exact fun b hb => hb
      · exact fun b hb => ⟨hb, id⟩
      · apply h.heap_setHeap
        have := (h.heap j).count
        constructor
        · dsimp only
          rw [List.length_cons]
          push_cast
          omega
        · intro hf
          rw [hact] at hf
          cases hf
        · intro r hr
          rw [hpc] at hr
          cases hr
    · exact hglobal

theorem localToGlobal (h : ChunkInv s) (hpc : s.pcs i = .ending) :
    ChunkInv ((s.setHeap i ⟨(s.heaps i).active, [], 0⟩).setPc i
      (.draining (s.heaps i).localCache)) := by
  apply h.of_pool
  · apply h.pool.reshelve
    · simp
    · apply h.pool.shelved.pour (a := .localCache i) (b := .transit i)
      · simp [ChunkState.shelf, hpc, ChunkPc.transit]
      · simp
      · simp [ChunkState.shelf, ChunkState.setPc, ChunkPc.transit]
      · intro p hl ht
        simp [Function.update_of_ne hl, Function.update_of_ne ht]
  · apply linking_setPc
    · intro b hb
      rw [show (s.setHeap i _).pcs i = s.pcs i from rfl, hpc] at hb
      cases hb
    · intro b hb
      cases hb
  · exact fun b hb => hb
  · exact fun b hb => ⟨hb, id⟩
  · apply h.heap_update
    exact ⟨rfl, fun _ => rfl, fun _ _ => rfl⟩

theorem drain (h : ChunkInv s) (now : BitVec 64) {mem : ℕ} {rest : List ℕ}
    (hpc : s.pcs i = .draining (mem :: rest)) :
    ChunkInv { s.setPc i (.draining rest) with pool := chunkReleaseLocked mem now s.pool } := by
  have hmem : mem ∈ s.shelf (.transit i) := by
    simp [ChunkState.shelf, hpc, ChunkPc.transit]
  apply h.toGlobal hmem (by simp) rfl
  · simp [ChunkState.shelf, ChunkState.setPc, hpc, ChunkPc.transit]
  · intro p ht hp
    rw [shelf_pool, Function.update_of_ne hp, shelf_setPc, Function.update_of_ne ht]
  · apply linking_setPc
    · intro b hb
      rw [hpc] at hb
      cases hb
    · intro b hb
      cases hb
  · apply h.heap_setPc
    exact ⟨(h.heap i).count, (h.heap i).inactive, fun _ _ => (h.heap i).draining _ hpc⟩

theorem ended (h : ChunkInv s) (hpc : s.pcs i = .draining []) :
    ChunkInv ((s.setHeap i ⟨false, [], 0⟩).setPc i .idle) := by
  have hempty := (h.heap i).draining [] hpc
  apply h.of_pool
  · apply h.pool.reshelve
    · simp
    · apply h.pool.shelved.congr _ rfl
      funext p
      rw [shelf_setPc, shelf_setHeap]
      by_cases ht : p = .transit i
      · subst ht
        simp [ChunkState.shelf, hpc, ChunkPc.transit]
      · rw [Function.update_of_ne ht]
        by_cases hl : p = .localCache i
        · subst hl
          simp [ChunkState.shelf, hempty]
        · rw [Function.update_of_ne hl]
  · apply linking_setPc
    · intro b hb
      rw [show (s.setHeap i _).pcs i = s.pcs i from rfl, hpc] at hb
      cases hb
    · intro b hb
      cases hb
  · exact fun b hb => hb
  · exact fun b hb => ⟨hb, id⟩
  · apply h.heap_update
    exact ⟨rfl, fun _ => rfl, fun _ _ => rfl⟩

theorem purge (h : ChunkInv s) (now : BitVec 64) :
    ChunkInv { s with pool := purgeApplyLocked now true 0 s.pool } := by
  have hp := purgeApplyLocked_purged now true 0 s.pool
  apply h.of_pool
  · apply h.pool.purge hp
    · rfl
    · intro p hne
      rw [shelf_pool, Function.update_of_ne hne]
  · exact fun _ _ => Iff.rfl
  · exact fun b hb => hp.mem_segments hb
  · exact fun b hb => hp.mem_mapped hb
  · exact h.heap

/-! ### Runs -/

theorem step (h : ChunkInv s) {l : ChunkLabel ι} (hs : chunkStep s l = some s') :
    ChunkInv s' := by
  cases l with
  | getHeap i =>
    simp only [chunkStep] at hs
    split_ifs at hs with hc
    obtain rfl := Option.some.inj hs
    exact h.getHeap hc.1 hc.2
  | acquire i =>
    simp only [chunkStep] at hs
    split_ifs at hs with hpc
    obtain rfl := Option.some.inj hs
    exact h.acquire hpc
  | segOsAlloc i base =>
    simp only [chunkStep] at hs
    split_ifs at hs with hpc
    cases base with
    | none =>
      obtain rfl := Option.some.inj hs
      apply h.setPc
      · rw [hpc]
        rfl
      · rfl
      · intro r hr
        cases hr
    | some b =>
      dsimp only at hs
      split_ifs at hs with hb
      obtain rfl := Option.some.inj hs
      exact h.segOsAlloc hpc hb
  | link i =>
    simp only [chunkStep] at hs
    split at hs
    · rename_i b hpc
      obtain rfl := Option.some.inj hs
      exact h.segLink hpc
    · cases hs
  | release i mem now =>
    simp only [chunkStep] at hs
    split_ifs at hs with hc ha
    · obtain rfl := Option.some.inj hs
      apply h.release now hc.2
      rintro j hj
      obtain rfl := Option.some.inj hj
      exact ⟨hc.1, ha⟩
    · obtain rfl := Option.some.inj hs
      apply h.release now hc.2
      intro j hj
      cases hj
  | endThread i =>
    simp only [chunkStep] at hs
    split_ifs at hs with hc
    obtain rfl := Option.some.inj hs
    apply h.setPc
    · rw [hc.1]
      rfl
    · rfl
    · intro r hr
      cases hr
  | endSpan i mem now =>
    simp only [chunkStep] at hs
    split_ifs at hs with hc
    obtain rfl := Option.some.inj hs
    apply h.release now hc.2
    intro j hj
    cases hj
  | localToGlobal i =>
    simp only [chunkStep] at hs
    split_ifs at hs with hpc
    obtain rfl := Option.some.inj hs
    exact h.localToGlobal hpc
  | drain i now =>
    simp only [chunkStep] at hs
    split at hs
    · rename_i mem rest hpc
      obtain rfl := Option.some.inj hs
      exact h.drain now hpc
    · rename_i hpc
      obtain rfl := Option.some.inj hs
      exact h.ended hpc
    · cases hs
  | purge now =>
    obtain rfl := Option.some.inj hs
    exact h.purge now

end ChunkInv

theorem chunkSystem_inv (h : (chunkSystem ι).Reachable s) :
    ChunkInv s := by
  apply h.invariant
  · rintro s rfl
    exact .init
  · intro s l s' hs hstep
    exact hs.step hstep

/-- Every carved chunk of a held segment is in one place, once, and nothing else is in a place.
The counters are right, and a chunk outside the global cache keeps its segment alive. A segment
that goes back to the OS leaves no chunk behind, and `memop_purge` leaves no idle segment. -/
theorem chunks_conserved (s : ChunkState ι) (h : (chunkSystem ι).Reachable s) :
    (∀ b, b ∈ s.pool.mapped ↔ b ∈ s.pool.segments ∨ ∃ i, s.pcs i = .linking b) ∧
      (∀ c, s.pool.Carved c → ∃! p, c ∈ s.shelf p) ∧
      (∀ p, (s.shelf p).Nodup ∧ ∀ c ∈ s.shelf p, s.pool.Carved c) ∧
      s.pool.cacheCount = s.pool.spanCache.length ∧
      (∀ i, (s.heaps i).localCount = (s.heaps i).localCache.length) ∧
      (∀ b ∈ s.pool.mapped, (s.pool.header b).live = s.pool.outside b) ∧
      (∀ p c, p ≠ .spanCache → c ∈ s.shelf p → 1 ≤ (s.pool.header (memopSegOf c)).live) ∧
      (∀ l s', chunkStep s l = some s' → ∀ b ∈ s.pool.mapped, b ∉ s'.pool.mapped →
        ∀ p, ∀ c ∈ s'.shelf p, memopSegOf c ≠ b) ∧
      ∀ now s', chunkStep s (.purge now) = some s' →
        ∀ b ∈ s'.pool.mapped, (s'.pool.header b).live ≠ 0 := by
  have hinv := chunkSystem_inv h
  refine ⟨hinv.mapped_iff, fun c hc => hinv.pool.shelved.existsUnique hc, fun p => ?_,
    hinv.pool.count, fun i => (hinv.heap i).count, hinv.pool.live, fun p c hp hc => ?_,
    fun l s' hs b _ hb => ?_, fun now s' hs b hb => ?_⟩
  · exact ⟨hinv.pool.shelved.nodup p, fun c hc => hinv.pool.carved hc⟩
  · exact hinv.pool.live_pos hp hc
  · exact (hinv.step hs).not_returned hb
  · obtain rfl := Option.some.inj hs
    exact hinv.purged now hb

/-- Two threads share a segment; the chunk that one acquired is released by the other. Both end,
and the purge returns the segment. -/
def sharedSegmentRun : List (ChunkLabel Bool) :=
  [.getHeap false, .acquire false, .segOsAlloc false (some 5), .link false, .acquire false,
    .getHeap true, .release true 321 0, .release false 322 0, .endThread false,
    .localToGlobal false, .drain false 10, .drain false 10, .purge 11, .endThread true,
    .localToGlobal true, .drain true 12]

theorem chunks_conserved_shared :
    ∃ s, (chunkSystem Bool).exec (memopInit Bool) sharedSegmentRun = some s ∧
      s.pool.spanCache = [321, 322] ∧ s.pool.cacheCount = s.pool.spanCache.length ∧
      (chunkStep s (.purge 13)).map (fun s' => s'.pool.mapped) = some [] := by
  have hout : ((chunkSystem Bool).exec (memopInit Bool) sharedSegmentRun).map
      (fun s => (s.pool.spanCache, (chunkStep s (.purge 13)).map fun s' => s'.pool.mapped)) =
        some ([321, 322], some []) := by
    decide +kernel
  obtain ⟨s, hrun, hs⟩ := Option.map_eq_some_iff.mp hout
  obtain ⟨hcache, hpurge⟩ := Prod.mk.inj hs
  have hreach : (chunkSystem Bool).Reachable s := System.Reachable.exec (.init rfl) hrun
  exact ⟨s, hrun, hcache, (chunks_conserved s hreach).2.2.2.1, hpurge⟩

end Xplatbase.Memory
