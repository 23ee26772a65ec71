import Xplatbase.Lib.Walk
import Xplatbase.Memory.SiteTable
import Xplatbase.MemoryPool.PoolFits
import Xplatbase.MemoryPool.PoolSpans

/-! What `memop_span_count` and `memop_snapshot_spans` say of the pool, in a walk during which no owner
moves: both read the lists of all heaps in one state. -/
namespace Xplatbase.MemoryPool
open Xplatbase.Lib Xplatbase.Memory

variable {ι : Type*}

structure MemSpanInfo where
  base : ℕ
  classId : ℕ
  stride : BitVec 32
  blockCount : ℕ
  used : BitVec 32
  site : SpanSite

/-- `lookup` is what `memop_site_lookup` finds for a base at that time. -/
def memopFillSpanInfo (lookup : BitVec 64 → SpanSite) (h : Heap.MemHeap) (a : ℕ) :
    MemSpanInfo where
  base := a * memopSpanSize
  classId := (h.head a).classId
  stride := classStride (h.head a).classId
  blockCount := (h.head a).blockCount
  used := (h.head a).used
  site := lookup (BitVec.ofNat 64 (a * memopSpanSize))

/-- The lists of a heap in the order of both walks: the classes, then the full spans. -/
def listOrder : List (Option (Fin memopClassCount)) :=
  (List.finRange memopClassCount).map some ++ [none]

/-- `none`: a list has not ended within the fuel. -/
def memopSpanCount (fuel : ℕ) (s : PoolState ι) : Option (BitVec 64) :=
  s.heaps.foldlM (fun n k =>
    let h := (s.heap k).lists
    listOrder.foldlM (fun n i => countWalk h.next fuel (roots h i) n) n) 0

/-- What is written to `out`; the call returns its length. -/
def memopSnapshotSpans (lookup : BitVec 64 → SpanSite) (s : PoolState ι) (max : BitVec 64) :
    List MemSpanInfo :=
  s.heaps.foldl (fun out k =>
    let h := (s.heap k).lists
    listOrder.foldl (fun out i =>
      out ++ (walk h.next (max.toNat - out.length) (roots h i)).map (memopFillSpanInfo lookup h))
      out) []

theorem mem_listOrder (i : Option (Fin memopClassCount)) : i ∈ listOrder := by
  unfold listOrder
  cases i with
  | none => exact List.mem_append_right _ List.mem_cons_self
  | some c => exact List.mem_append_left _ (List.mem_map_of_mem (List.mem_finRange c))

theorem nodup_listOrder : listOrder.Nodup := by
  unfold listOrder
  apply ((List.nodup_finRange _).map (Option.some_injective _)).append (List.nodup_singleton _)
  intro i hi hnone
  obtain ⟨c, -, rfl⟩ := List.mem_map.mp hi
  exact absurd (List.mem_singleton.mp hnone) (Option.some_ne_none c)

section
variable {h : Heap.MemHeap} {v : Option (Fin memopClassCount) → List ℕ} {E : Set ℕ}

def inOrder (v : Option (Fin memopClassCount) → List ℕ) : List ℕ := listOrder.flatMap v

theorem mem_inOrder (hv : Chained h.next (roots h) v E) (a : ℕ) : a ∈ inOrder v ↔ a ∈ E := by
  unfold inOrder
  rw [List.mem_flatMap, hv.shelved.mem_iff]
  exact exists_congr fun i => and_iff_right (mem_listOrder i)

theorem nodup_inOrder (hv : Chained h.next (roots h) v E) : (inOrder v).Nodup := by
  apply List.nodup_flatMap.mpr
  refine ⟨fun i _ => hv.shelved.nodup i, ?_⟩
  apply nodup_listOrder.imp
  intro i j hij a hi hj
  exact hij (hv.shelved.once i j a hi hj)

theorem fills_heap (hv : Chained h.next (roots h) v E) (fill : ℕ → MemSpanInfo) (max : ℕ) :
    Fills max (fun out => listOrder.foldl (fun out i =>
      out ++ (walk h.next (max - out.length) (roots h i)).map fill) out)
      ((inOrder v).map fill) := by
  unfold inOrder
  rw [List.map_flatMap]
  apply Fills.foldl
  intro i _
  apply Fills.of_take
  intro out
  rw [(hv.linked i).walk, List.map_take]

theorem counts_heap (hv : Chained h.next (roots h) v E) {fuel : ℕ}
    (hfuel : (inOrder v).length ≤ fuel) (n : BitVec 64) :
    listOrder.foldlM (fun n i => countWalk h.next fuel (roots h i) n) n =
      some (n + ((inOrder v).length : BitVec 64)) := by
  have hlen : (inOrder v).length = (listOrder.map fun i => (v i).length).sum :=
    List.length_flatMap
  have hle : ∀ i ∈ listOrder, (v i).length ≤ (inOrder v).length := by
    intro i hi
    rw [hlen]
    exact List.single_le_sum (fun _ _ => Nat.zero_le _) _ (List.mem_map_of_mem hi)
  rw [hlen]
  apply countFold
  exact fun i hi n => (hv.linked i).countWalk ((hle i hi).trans hfuel) n

end

/-- The spans that a walk meets, with their heaps: each once, and all of a heap unless its thread is
going through one of the lists in `memop_on_ended_thread`. -/
structure Walked (s : PoolState ι) (l : List (ℕ × ℕ)) : Prop where
  nodup : (l.map Prod.snd).Nodup
  owned : ∀ x ∈ l, x.1 ∈ s.heaps ∧ x.2 ∈ (s.heap x.1).lists.owned
  all : ∀ k ∈ s.heaps, (∀ i, s.gHeap i = some k → (s.pcs i).relinks = false) →
    ∀ a ∈ (s.heap k).lists.owned, (k, a) ∈ l

/-- Both functions walk through the spans of `l`, as far as there is room. -/
structure WalkOf (s : PoolState ι) (l : List (ℕ × ℕ)) : Prop where
  walked : Walked s l
  snapshot : ∀ lookup max, memopSnapshotSpans lookup s max =
    (l.take max.toNat).map fun x => memopFillSpanInfo lookup (s.heap x.1).lists x.2
  count : ∀ fuel, l.length ≤ fuel → memopSpanCount fuel s = some (BitVec.ofNat 64 l.length)

section
variable {s : PoolState ι} {v : ℕ → Option (Fin memopClassCount) → List ℕ} {E : ℕ → Set ℕ}

def inHeaps (heaps : List ℕ) (v : ℕ → Option (Fin memopClassCount) → List ℕ) : List (ℕ × ℕ) :=
  heaps.flatMap fun k => (inOrder (v k)).map (Prod.mk k)

theorem mem_inHeaps (heaps : List ℕ) (x : ℕ × ℕ) :
    x ∈ inHeaps heaps v ↔ x.1 ∈ heaps ∧ x.2 ∈ inOrder (v x.1) := by
  unfold inHeaps
  rw [List.mem_flatMap]
  constructor
  · rintro ⟨k, hk, hx⟩
    obtain ⟨a, ha, rfl⟩ := List.mem_map.mp hx
    exact ⟨hk, ha⟩
  · rintro ⟨hk, ha⟩
    exact ⟨x.1, hk, List.mem_map.mpr ⟨x.2, ha, rfl⟩⟩

theorem snapshot_inHeaps (hv : ∀ k ∈ s.heaps,
    Chained (s.heap k).lists.next (roots (s.heap k).lists) (v k) (E k))
    (lookup : BitVec 64 → SpanSite) (max : BitVec 64) :
    memopSnapshotSpans lookup s max = ((inHeaps s.heaps v).take max.toNat).map
      fun x => memopFillSpanInfo lookup (s.heap x.1).lists x.2 := by
  have hrun : memopSnapshotSpans lookup s max =
      ([] ++ s.heaps.flatMap fun k =>
        (inOrder (v k)).map (memopFillSpanInfo lookup (s.heap k).lists)).take max.toNat :=
    Fills.foldl _ (fun k hk => fills_heap (hv k hk) _ _) [] (Nat.zero_le _)
  unfold inHeaps
  rw [hrun, List.nil_append, List.map_take, List.map_flatMap]
  congr 2
  funext k
  rw [List.map_map]
  rfl

theorem count_inHeaps (hv : ∀ k ∈ s.heaps,
    Chained (s.heap k).lists.next (roots (s.heap k).lists) (v k) (E k)) {fuel : ℕ}
    (hfuel : (inHeaps s.heaps v).length ≤ fuel) :
    memopSpanCount fuel s = some (BitVec.ofNat 64 (inHeaps s.heaps v).length) := by
  have hlen : (inHeaps s.heaps v).length = (s.heaps.map fun k => (inOrder (v k)).length).sum := by
    unfold inHeaps
    rw [List.length_flatMap]
    simp only [List.length_map]
  have hle : ∀ k ∈ s.heaps, (inOrder (v k)).length ≤ fuel := by
    intro k hk
    apply le_trans _ hfuel
    rw [hlen]
    exact List.single_le_sum (fun _ _ => Nat.zero_le _) _ (List.mem_map_of_mem hk)
  unfold memopSpanCount
  dsimp only
  rw [countFold s.heaps (fun k hk n => counts_heap (hv k hk) (hle k hk) n), zero_add, hlen]
  rfl

end

theorem exists_walkOf {s : PoolState ι} (hok : PoolOk s) (hcat : Catalogued s) :
    ∃ l, WalkOf s l := by
  obtain ⟨D, hD⟩ := hok.stored
  have hspans : ∀ k, ∃ v E, k ∈ s.heaps →
      Chained (s.heap k).lists.next (roots (s.heap k).lists) v E ∧
      (∀ a ∈ E, a ∈ (s.heap k).lists.owned) ∧
      ((∀ i, s.gHeap i = some k → (s.pcs i).relinks = false) →
        ∀ a ∈ (s.heap k).lists.owned, a ∈ E) := by
    intro k
    by_cases hk : k ∈ s.heaps
    · obtain ⟨v, E, hv⟩ := hcat.spans hk
      exact ⟨v, E, fun _ => hv⟩
    · exact ⟨fun _ => [], ∅, fun hk' => absurd hk' hk⟩
  choose v E hv using hspans
  have hlinked := fun k hk => (hv k hk).1
  have hin : ∀ k ∈ s.heaps, ∀ a ∈ inOrder (v k), a ∈ (s.heap k).lists.owned :=
    fun k hk a ha => (hv k hk).2.1 a ((mem_inOrder (hlinked k hk) a).mp ha)
  refine ⟨inHeaps s.heaps v, ⟨?_, ?_, ?_⟩, fun _ _ => snapshot_inHeaps hlinked _ _,
    fun _ => count_inHeaps hlinked⟩
  · unfold inHeaps
    rw [List.map_flatMap]
    apply List.nodup_flatMap.mpr
    constructor
    · intro k hk
      rw [List.map_map]
      exact (nodup_inOrder (hlinked k hk)).map fun _ _ he => he
    · apply hcat.nodup.imp_of_mem
      intro k m hk hm hne a ha hb
      dsimp only at ha hb
      rw [List.map_map, List.mem_map] at ha hb
      obtain ⟨_, ha, rfl⟩ := ha
      obtain ⟨_, hb, rfl⟩ := hb
      have hheader := (hD.header k _ (hin k hk _ ha)).symm.trans (hD.header m _ (hin m hm _ hb))
      exact hne (SpanOwner.small.inj hheader)
  · intro x hx
    obtain ⟨hk, ha⟩ := (mem_inHeaps _ x).mp hx
    exact ⟨hk, hin _ hk _ ha⟩
  · intro k hk hno a ha
    rw [mem_inHeaps]
    exact ⟨hk, (mem_inOrder (hlinked k hk) a).mpr ((hv k hk).2.2 hno a ha)⟩

variable [DecidableEq ι]

def noSite : BitVec 64 → SpanSite := fun _ => ⟨fun _ => 0, 0, 0⟩

/-- Two threads with a span each, and a LARGE block; then the first one ends. -/
def endedRun : List (PoolCall Bool) :=
  [.pool (.alloc true 16 (some 100)), .pool (.step true none 0), .pool (.step true (some 5) 0),
    .pool (.step true none 0), .pool (.alloc false 64 (some 200)), .pool (.step false none 0),
    .pool (.alloc false 200000 none), .pool (.step false (some 1000) 0),
    .pool (.endedThread true)] ++ List.replicate 39 (.pool (.step true none 0))

end Xplatbase.MemoryPool
