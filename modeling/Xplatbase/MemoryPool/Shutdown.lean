import Xplatbase.MemoryPool.PoolFits
import Xplatbase.MemoryPool.PoolReturns
import Xplatbase.MemoryPool.SpanSnapshot

/-! `memop_shutdown`, and the runs of the pool from one shutdown to the next. -/
namespace Xplatbase.MemoryPool
open Xplatbase.Lib Xplatbase.Memory

variable {ι : Type*}

/-- `segments_free_all`: every segment in the list goes back to the OS. -/
def segmentsFreeAll (g : MemPool) : MemPool :=
  { g with
    segments := []
    spanCache := []
    cacheCount := 0
    mapped := g.mapped.filter (· ∉ g.segments) }

/-- The block has a mapping of its own, and so lies in no segment. -/
def PoolState.ownMapping (s : PoolState ι) (p : Ptr) : Bool :=
  match s.header p.span with
  | .small _ => false
  | .large x => x.blockCount ≠ 1

/-- No other thread has a heap: those that had one have ended. A heap that is destroyed would still
be in their `g_heap`. -/
def Alone (s : PoolState ι) (i : ι) : Prop := ∀ j, j ≠ i → s.gHeap j = none

variable [DecidableEq ι]

/-- `memop_shutdown`: the heaps are destroyed, the segments freed, `G` and the own `g_heap` cleared.
Callers lose the blocks in the segments. Before `memop_init` there is nothing to clear. -/
def memopShutdown (s : PoolState ι) (i : ι) : PoolState ι :=
  { s with
    chunks := { s.chunks.setHeap i ⟨false, [], 0⟩ with
      pool := { segmentsFreeAll s.chunks.pool with
        cacheAvg := 0
        purging := false
        lastPurgeMs := 0 }
      used := [] }
    heaps := []
    heap := fun _ => ⟨Heap.heapNew, false, 0, 0, 0⟩
    gHeap := Function.update s.gHeap i none
    lanesCreated := 0
    lanesDestroyed := 0
    live := s.live.filter s.ownMapping }

/-- The steps of the pool and of the callers, with `memop_shutdown` among them. -/
inductive EpochCall (ι : Type*)
  | memory (l : MemoryLabel ι)
  | shutdown (i : ι)

def epochStep (s : MemoryState ι) : EpochCall ι → Option (MemoryState ι)
  | .memory l => memoryStep s l
  | .shutdown i =>
    if s.pool.pcs i = .idle ∧ s.spilling i = none then
      some { s with pool := memopShutdown s.pool i }
    else none

def epochs (ι : Type*) [DecidableEq ι] : System (MemoryState ι) (EpochCall ι) where
  init := fun s => ∃ mem, s = memoryNew ι mem
  step := epochStep

/-- All calls fit, and no other thread uses the pool at its shutdown. -/
def ShutAlone (s : MemoryState ι) : EpochCall ι → Prop
  | .memory l => CallsFit s l
  | .shutdown i => Alone s.pool i

instance [Fintype ι] (s : PoolState ι) (i : ι) : Decidable (Alone s i) :=
  inferInstanceAs (Decidable (∀ j, j ≠ i → s.gHeap j = none))

instance [Fintype ι] (s : MemoryState ι) : (l : EpochCall ι) → Decidable (ShutAlone s l)
  | .memory l => inferInstanceAs (Decidable (CallsFit s l))
  | .shutdown i => inferInstanceAs (Decidable (Alone s.pool i))

section
variable {s : PoolState ι} {c : ChunkState ι} {i : ι} {p : Ptr}

omit [DecidableEq ι] in
theorem ownMapping_iff :
    s.ownMapping p = true ↔ ∃ x, s.header p.span = .large x ∧ x.blockCount ≠ 1 := by
  unfold PoolState.ownMapping
  cases s.header p.span with
  | small k => simp
  | large x => simp

omit [DecidableEq ι] in
theorem chunkInv_of_empty (hshelf : ∀ q, c.shelf q = []) (hmapped : c.pool.mapped = [])
    (hsegs : c.pool.segments = []) (hcount : c.pool.cacheCount = 0)
    (hpcs : ∀ j, c.pcs j = .idle) (hlocal : ∀ j, (c.heaps j).localCount = 0) : ChunkInv c := by
  have hmem (b : ℕ) : b ∉ c.pool.mapped := by
    rw [hmapped]
    exact List.not_mem_nil
  have hcache : c.pool.spanCache = [] := hshelf .spanCache
  have hshelved : Shelved c.shelf {d | c.pool.Carved d} := by
    constructor
    · intro q
      rw [hshelf]
      exact List.nodup_nil
    · intro q r d hd
      rw [hshelf] at hd
      exact absurd hd List.not_mem_nil
    · intro d
      constructor
      · rintro ⟨hd, -⟩
        exact absurd hd (hmem _)
      · rintro ⟨q, hd⟩
        rw [hshelf] at hd
        exact absurd hd List.not_mem_nil
  constructor
  · refine ⟨rfl, hshelved, ?_, ?_, fun b hb => absurd hb (hmem b), fun b hb => absurd hb (hmem b),
      ?_⟩
    · rw [hsegs]
      exact List.nodup_nil
    · intro b hb
      rw [hsegs] at hb
      exact absurd hb List.not_mem_nil
    · rw [hcount, hcache]
      rfl
  · intro j b hj
    rw [hpcs] at hj
    cases hj
  · exact fun b hb => absurd hb (hmem b)
  · intro j
    have hj : (c.heaps j).localCache = [] := hshelf (.localCache j)
    refine ⟨?_, fun _ => hj, fun _ _ => hj⟩
    rw [hlocal, hj]
    rfl

omit [DecidableEq ι] in
theorem Lanes.quiet (h : Lanes s) (hidle : s.pcs i = .idle) (halone : Alone s i) (j : ι) :
    s.pcs j = .idle ∧ s.chunks.pcs j = .idle := by
  by_cases hj : j = i
  · rw [hj]
    cases hg : s.gHeap i with
    | none =>
      obtain ⟨-, hchunks, -⟩ := (lane_none hg).mp (h.lane i)
      exact ⟨hidle, hchunks⟩
    | some k =>
      have hst := h.stands hg
      rw [hidle] at hst
      exact ⟨hidle, hst.1⟩
  · obtain ⟨hpc, hchunks, -⟩ := (lane_none (halone j hj)).mp (h.lane j)
    exact ⟨hpc, hchunks⟩

omit [DecidableEq ι] in
/-- Where no segment is being linked, all that are held are in the list. -/
theorem mapped_of_quiet (h : ChunkInv c) (hpcs : ∀ j, c.pcs j = .idle) (b : ℕ) :
    b ∈ c.pool.mapped ↔ b ∈ c.pool.segments := by
  rw [h.mapped_iff]
  refine or_iff_left ?_
  rintro ⟨j, hj⟩
  rw [hpcs] at hj
  cases hj

omit [DecidableEq ι] in
theorem segmentsFreeAll_mapped (h : ChunkInv c) (hpcs : ∀ j, c.pcs j = .idle) :
    (segmentsFreeAll c.pool).mapped = [] := by
  apply List.filter_eq_nil_iff.mpr
  intro b hb hout
  exact of_decide_eq_true hout ((mapped_of_quiet h hpcs b).mp hb)

theorem chunkInv_shutdown (h : ChunkInv s.chunks) (hlanes : Lanes s) (hidle : s.pcs i = .idle)
    (halone : Alone s i) : ChunkInv (memopShutdown s i).chunks := by
  have hpcs (j : ι) : s.chunks.pcs j = .idle := (hlanes.quiet hidle halone j).2
  have hheap (j : ι) : ((memopShutdown s i).chunks.heaps j).localCache = [] ∧
      ((memopShutdown s i).chunks.heaps j).localCount = 0 := by
    by_cases hj : j = i
    · have hself : (memopShutdown s i).chunks.heaps j = ⟨false, [], 0⟩ := by
        rw [hj]
        exact Function.update_self ..
      rw [hself]
      exact ⟨rfl, rfl⟩
    · have hother : (memopShutdown s i).chunks.heaps j = s.chunks.heaps j :=
        Function.update_of_ne hj ..
      obtain ⟨-, -, hactive⟩ := (lane_none (halone j hj)).mp (hlanes.lane j)
      have hempty := (h.heap j).inactive hactive
      rw [hother]
      refine ⟨hempty, ?_⟩
      rw [(h.heap j).count, hempty]
      rfl
  apply chunkInv_of_empty
  · intro q
    cases q with
    | spanCache => rfl
    | localCache j => exact (hheap j).1
    | used => rfl
    | transit j =>
      have htransit : (memopShutdown s i).chunks.shelf (.transit j) =
          (s.chunks.pcs j).transit := rfl
      rw [htransit, hpcs]
      rfl
  · exact segmentsFreeAll_mapped h hpcs
  · rfl
  · rfl
  · exact hpcs
  · exact fun j => (hheap j).2

omit [DecidableEq ι] in
/-- A block without a mapping of its own lies in a chunk. -/
theorem Stored.own_place {v : Option ι → List Ptr} {D : Set Ptr} (h : Stored s v D) (hp : p ∈ D) :
    s.ownMapping p = true ∧ (∃ n, (p.span, n) ∈ s.mappings) ∨
      s.ownMapping p = false ∧ p.span ∈ s.chunks.used := by
  have hhome := h.home p hp
  unfold PoolState.ownMapping
  cases hx : s.header p.span with
  | small k => exact .inr ⟨rfl, h.used k _ ((home_small hx).mp hhome).1⟩
  | large x =>
    rcases ((home_large hx).mp hhome).2 with ⟨hone, -, hu⟩ | ⟨hne, hm, -⟩
    · exact .inr ⟨decide_eq_false (not_not.mpr hone), hu⟩
    · exact .inl ⟨decide_eq_true hne, _, hm⟩

omit [DecidableEq ι] in
theorem Stored.bytes_segment {v : Option ι → List Ptr} {D : Set Ptr} (h : Stored s v D) (hp : p ∈ D)
    (hu : p.span ∈ s.chunks.used) :
    ∃ b ∈ s.chunks.pool.mapped, s.bytes p ⊆ chunkBytes (b * memopSegSpans) memopSegSpans := by
  obtain ⟨n, hn, hlow, hhigh⟩ := h.bytes_span hp
  have hone : n = 1 := by
    rcases hn with ⟨hone, -⟩ | hmap
    · exact hone
    · exact absurd rfl (h.used_ne hu hmap)
  have hmod := memopSegOf_mod p.span
  have hlt := memopSegOf_mod_lt p.span
  have hle : memopSegOf p.span * memopSegSpans ≤ p.span := by omega
  have hge : p.span + n ≤ memopSegOf p.span * memopSegSpans + memopSegSpans := by omega
  have hmul := Nat.mul_le_mul_right memopSpanSize hle
  have hmul' := Nat.mul_le_mul_right memopSpanSize hge
  exact ⟨_, (h.segment hu).1, Set.Ico_subset_Ico (by omega) (hhigh.trans hmul')⟩

omit [DecidableEq ι] in
/-- At a shutdown all blocks are in the hands of callers. -/
theorem PoolOk.live_of_quiet (h : PoolOk s) (hidle : s.pcs i = .idle) (halone : Alone s i)
    {q : Option ι} (hp : p ∈ s.holds q) : p ∈ s.live := by
  cases q with
  | none => exact hp
  | some j =>
    have hblocks : p ∈ (s.pcs j).blocks := hp
    rw [(h.lanes.quiet hidle halone j).1] at hblocks
    exact absurd hblocks List.not_mem_nil

/-- The blocks with a mapping of their own are all that is left. -/
theorem Stored.shutdown {D : Set Ptr} (h : Stored s s.holds D) (hlanes : Lanes s)
    (hidle : s.pcs i = .idle) (halone : Alone s i) :
    Stored (memopShutdown s i) (memopShutdown s i).holds {p | p ∈ D ∧ s.ownMapping p = true} := by
  have hlive : ∀ p ∈ D, p ∈ s.live := by
    intro p hp
    obtain ⟨q, hq⟩ := (h.shelved.mem_iff p).mp hp
    exact PoolOk.live_of_quiet ⟨⟨D, h⟩, hlanes⟩ hidle halone hq
  constructor
  · exact chunkInv_shutdown h.chunks hlanes hidle halone
  · apply h.apart.mono
    intro b hb
    exact (List.mem_filter.mp hb).1
  · exact fun _ _ => rfl
  · exact fun _ a ha => absurd ha (Finset.notMem_empty a)
  · exact fun _ a ha => absurd ha (Finset.notMem_empty a)
  · exact fun _ a ha => absurd ha (Finset.notMem_empty a)
  · apply h.shelved.discard s.ownMapping (a := none) rfl
    · intro q hq
      cases q with
      | none => exact absurd rfl hq
      | some j => rfl
    · exact fun p hp _ => hlive p hp
  · rintro p ⟨hp, hown⟩
    obtain ⟨x, hx, hcount⟩ := ownMapping_iff.mp hown
    have hx' : (memopShutdown s i).header p.span = .large x := hx
    obtain ⟨hzero, hheld⟩ := (home_large hx).mp (h.home p hp)
    rw [home_large hx']
    refine ⟨hzero, .inr ?_⟩
    rcases hheld with ⟨hone, -⟩ | hmap
    · exact absurd hone hcount
    · exact hmap

theorem shutdown_gHeap (halone : Alone s i) (j : ι) : (memopShutdown s i).gHeap j = none := by
  by_cases hj : j = i
  · rw [hj]
    exact Function.update_self ..
  · exact (Function.update_of_ne hj ..).trans (halone j hj)

theorem shutdown_place (hown : s.ownMapping p = true) :
    (memopShutdown s i).address p = s.address p ∧ (memopShutdown s i).usable p = s.usable p := by
  obtain ⟨x, hx, -⟩ := ownMapping_iff.mp hown
  have hx' : (memopShutdown s i).header p.span = .large x := hx
  unfold PoolState.address PoolState.usable
  rw [hx, hx']
  exact ⟨rfl, rfl⟩

theorem PoolOk.shutdown (h : PoolOk s) (hidle : s.pcs i = .idle) (halone : Alone s i) :
    PoolOk (memopShutdown s i) where
  stored := by
    obtain ⟨D, hD⟩ := h.stored
    exact ⟨_, hD.shutdown h.lanes hidle halone⟩
  lanes := by
    constructor
    · intro j
      obtain ⟨hpc, hchunks⟩ := h.lanes.quiet hidle halone j
      refine (lane_none (shutdown_gHeap halone j)).mpr ⟨hpc, hchunks, ?_⟩
      by_cases hj : j = i
      · have hself : (memopShutdown s i).chunks.heaps j = ⟨false, [], 0⟩ := by
          rw [hj]
          exact Function.update_self ..
        rw [hself]
      · have hother : (memopShutdown s i).chunks.heaps j = s.chunks.heaps j :=
          Function.update_of_ne hj ..
        rw [hother]
        exact ((lane_none (halone j hj)).mp (h.lanes.lane j)).2.2
    · intro j j' k hk
      rw [shutdown_gHeap halone] at hk
      cases hk

theorem Catalogued.shutdown (halone : Alone s i) : Catalogued (memopShutdown s i) where
  nodup := List.nodup_nil
  owner := by
    intro j k hk
    rw [shutdown_gHeap halone] at hk
    cases hk
  orphan := fun _ hk _ => absurd hk List.not_mem_nil

theorem Accounted.shutdown (h : Accounted s) (hok : PoolOk s) (hidle : s.pcs i = .idle)
    (halone : Alone s i) : Accounted (memopShutdown s i) := by
  obtain ⟨D, hD⟩ := hok.stored
  rintro c n (⟨-, hc⟩ | hc)
  · exact absurd hc List.not_mem_nil
  · have hmap : (c, n) ∈ s.mappings := hc
    rcases h c n (.inr hmap) with ⟨k, hk⟩ | ⟨q, p, hp, rfl⟩
    · exact absurd rfl (hD.used_ne (hD.used k c hk) hmap)
    · have hlive := hok.live_of_quiet hidle halone hp
      have hmem := hD.shelved.mem hp
      have hown : s.ownMapping p = true := by
        rcases hD.own_place hmem with ⟨hown, -⟩ | ⟨-, hu⟩
        · exact hown
        · exact absurd rfl (hD.used_ne hu hmap)
      exact .inr ⟨none, p, List.mem_filter.mpr ⟨hlive, hown⟩, rfl⟩

/-- No thread is in a call, and so none has anything to copy. -/
theorem Fitting.shutdown {u : MemoryState ι} (h : Fitting u) (hidle : u.pool.pcs i = .idle)
    (halone : Alone u.pool i) : Fitting { u with pool := memopShutdown u.pool i } := by
  have hpcs (j : ι) : (memopShutdown u.pool i).pcs j = .idle :=
    (h.ok.lanes.quiet hidle halone j).1
  refine ⟨h.ok.shutdown hidle halone, ?_, fun j => .idle (hpcs j) _, ?_, h.clears, h.within⟩
  · exact h.large
  · intro j p hp
    dsimp only at hp
    rw [hpcs] at hp
    cases hp

/-- In every state of every run, over any number of shutdowns. -/
theorem epochs_run {u : MemoryState ι} (h : (epochs ι).ReachableWhen ShutAlone u) :
    Fitting u ∧ Catalogued u.pool ∧ Accounted u.pool := by
  refine System.ReachableWhen.invariant
    (P := fun u => Fitting u ∧ Catalogued u.pool ∧ Accounted u.pool) ?_ ?_ h
  · rintro _ ⟨mem, rfl⟩
    refine ⟨.init mem, .init, ?_⟩
    rintro c n (⟨-, hc⟩ | hc)
    · exact absurd hc List.not_mem_nil
    · exact absurd hc List.not_mem_nil
  · rintro u l v ⟨hfit, hcat, hacc⟩ hl hs
    cases l with
    | memory l =>
      have hfit' := hfit.step hl hs
      refine ⟨hfit', ?_⟩
      cases memoryStep_cases hs with
      | call l junk t ht =>
        exact ⟨hcat.callsStep hfit.ok.lanes ht hfit'.ok.lanes, hacc.callsStep hfit.ok ht⟩
      | spill i r c last hspilling =>
        rw [hfit.within i] at hspilling
        cases hspilling
      | write l mem => exact ⟨hcat, hacc⟩
    | shutdown j =>
      simp only [epochs, epochStep] at hs
      split_ifs at hs with hquiet
      obtain rfl := Option.some.inj hs
      exact ⟨hfit.shutdown hquiet.1 hl, .shutdown hl, hacc.shutdown hfit.ok hquiet.1 hl⟩

end

/-- A small block, a LARGE one with a mapping and one in a chunk, all of one thread. -/
def firstEpoch : List (EpochCall Bool) :=
  (callLabels [.pool (.alloc true 16 (some 100)), .pool (.step true none 0),
    .pool (.step true (some 5) 0), .pool (.step true none 0),
    .pool (.alloc true 200000 none), .pool (.step true (some 1000) 0),
    .pool (.alloc true 20000 none), .pool (.step true none 0)]).map .memory ++
  [.memory (.store ⟨1000, 0⟩ 7 42)]

/-- Then the shutdown, and a small block of the other thread in the same memory. -/
def secondEpoch : List (EpochCall Bool) :=
  firstEpoch ++ .shutdown true ::
    (callLabels [.pool (.alloc false 64 (some 100)), .pool (.step false none 0),
      .pool (.step false (some 5) 0), .pool (.step false none 0)]).map .memory

end Xplatbase.MemoryPool
