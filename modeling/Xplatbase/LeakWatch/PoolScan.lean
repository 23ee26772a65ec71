import Xplatbase.LeakWatch.MarkOrder
import Xplatbase.MemoryPool.SpanSnapshot

/-! The scan of `mem_leak_watch.c` over the snapshot that it takes of the pool: which spans of the
pool it reports, and which blocks it never does. -/
namespace Xplatbase.LeakWatch
open Xplatbase.Lib Xplatbase.Memory Xplatbase.MemoryPool

variable {ι : Type*}

def watched (x : MemoryPool.MemSpanInfo) : LeakWatch.MemSpanInfo where
  base := x.base
  stride := x.stride.toNat
  used := x.used.toNat
  site_frames := ((List.ofFn x.site.siteFrames).take x.site.siteFrameCount).map BitVec.toNat
  created_ms := x.site.createdMs.toNat

/-- The table that `mlw_run_scan` gets, with `span_cap` entries at most. -/
def scanTable (lookup : BitVec 64 → SpanSite) (s : PoolState ι) (span_cap : BitVec 64) :
    List LeakWatch.MemSpanInfo :=
  (memopSnapshotSpans lookup s span_cap).map watched

/-- A word points into the 64 KB of chunk `a`. -/
def PointsToChunk (words : List ℕ) (a : ℕ) : Prop :=
  ∃ w ∈ words, a * memopSpanSize ≤ w ∧ w < (a + 1) * memopSpanSize

/-- A scan reports the spans in use of its table that no root word points into. -/
theorem mem_reportedBases (level : MlwLevel) (now_ms : ℕ) (memory : ℕ → ℕ) (snapshot : Snapshot)
    (threads : List ScannedThread) (base : ℕ) :
    base ∈ reportedBases (mlwRunScan level now_ms memory snapshot threads) ↔
      ∃ x ∈ snapshot.spans, x.base = base ∧ x.used ≠ 0 ∧
        ¬ PointedTo (scanRoots memory threads) x := by
  rw [reportedBases_mlwRunScan, List.mem_map]
  constructor
  · rintro ⟨x, hx, rfl⟩
    obtain ⟨hmem, hpoint, hused⟩ := (mem_leakCandidates_markAll snapshot.searchable _ x).mp hx
    exact ⟨x, (mem_sortedSpans _ x).mp hmem, rfl, hused, hpoint⟩
  · rintro ⟨x, hx, rfl, hused, hpoint⟩
    refine ⟨x, ?_, rfl⟩
    rw [mem_leakCandidates_markAll snapshot.searchable]
    exact ⟨(mem_sortedSpans _ x).mpr hx, hpoint, hused⟩

section
variable {s : PoolState ι} {l : List (ℕ × ℕ)} {lookup : BitVec 64 → SpanSite}
  {span_cap : BitVec 64} {words : List ℕ} {a k : ℕ} {p : Ptr} {x : LeakWatch.MemSpanInfo}

/-- An entry of the table is the one of a span on the walk. -/
theorem mem_scanTable (hw : WalkOf s l) :
    x ∈ scanTable lookup s span_cap ↔ ∃ y ∈ l.take span_cap.toNat,
      watched (memopFillSpanInfo lookup (s.heap y.1).lists y.2) = x := by
  unfold scanTable
  rw [hw.snapshot, List.map_map, List.mem_map]
  rfl

theorem pointedTo_chunk (ha : a ≠ 0) (hbase : x.base = a * memopSpanSize) :
    PointedTo words x ↔ PointsToChunk words a := by
  have hpos : 0 < a * memopSpanSize := Nat.mul_pos (Nat.pos_of_ne_zero ha) (by decide)
  have hsize : MLW_SPAN_SIZE = memopSpanSize := rfl
  unfold PointedTo PointsToChunk PointsInto
  rw [hbase, hsize, Nat.add_one_mul]
  apply exists_congr
  intro w
  apply and_congr_right
  intro _
  exact and_iff_right_of_imp fun hw => Nat.ne_of_gt (hpos.trans_le hw.1)

variable {D : Set Ptr} {v : Option ι → List Ptr}

theorem span_ne_zero (hD : Stored s v D) (ha : a ∈ (s.heap k).lists.owned) : a ≠ 0 := by
  rintro rfl
  have hchunk := (hD.segment (hD.used k 0 ha)).2
  rw [Nat.zero_mod] at hchunk
  exact absurd hchunk (Nat.not_succ_le_zero 0)

theorem exists_snapshot (hD : Stored s v D) (hw : WalkOf s l) (lookup : BitVec 64 → SpanSite)
    (span_cap : BitVec 64) :
    ∃ snapshot : Snapshot, snapshot.spans = scanTable lookup s span_cap := by
  refine ⟨⟨scanTable lookup s span_cap, ?_, ?_, ?_⟩, rfl⟩
  · intro x hx
    obtain ⟨y, -, rfl⟩ := (mem_scanTable hw).mp hx
    exact Nat.dvd_mul_left MLW_SPAN_SIZE y.2
  · intro x hx
    obtain ⟨y, hy, rfl⟩ := (mem_scanTable hw).mp hx
    have hne := span_ne_zero hD (hw.walked.owned y (List.mem_of_mem_take hy)).2
    exact Nat.mul_ne_zero hne (by decide)
  · unfold scanTable
    rw [hw.snapshot, List.map_map, List.pairwise_map]
    have hnodup : ((l.take span_cap.toNat).map Prod.snd).Nodup :=
      hw.walked.nodup.sublist ((List.take_sublist _ l).map _)
    unfold List.Nodup at hnodup
    rw [List.pairwise_map] at hnodup
    apply hnodup.imp
    intro y z hne he
    exact hne (Nat.eq_of_mul_eq_mul_right (by decide) he)

/-- A table with room left holds all that the walk meets. -/
theorem take_of_room (hw : WalkOf s l) {spans : List LeakWatch.MemSpanInfo}
    (hspans : spans = scanTable lookup s span_cap) (hroom : spans.length < span_cap.toNat) :
    l.take span_cap.toNat = l := by
  apply List.take_of_length_le
  rw [hspans] at hroom
  unfold scanTable at hroom
  rw [hw.snapshot, List.map_map, List.length_map, List.length_take] at hroom
  omega

theorem reported_chunk (hD : Stored s v D) (hw : WalkOf s l) {snapshot : Snapshot}
    (hsnapshot : snapshot.spans = scanTable lookup s span_cap) (level : MlwLevel) (now_ms : ℕ)
    (memory : ℕ → ℕ) (threads : List ScannedThread) (base : ℕ) :
    base ∈ reportedBases (mlwRunScan level now_ms memory snapshot threads) ↔
      ∃ y ∈ l.take span_cap.toNat, base = y.2 * memopSpanSize ∧
        ((s.heap y.1).lists.head y.2).used ≠ 0 ∧
        ¬ PointsToChunk (scanRoots memory threads) y.2 := by
  have hentry : ∀ y ∈ l.take span_cap.toNat,
      ((watched (memopFillSpanInfo lookup (s.heap y.1).lists y.2)).used ≠ 0 ∧
        ¬ PointedTo (scanRoots memory threads)
          (watched (memopFillSpanInfo lookup (s.heap y.1).lists y.2))) ↔
      ((s.heap y.1).lists.head y.2).used ≠ 0 ∧
        ¬ PointsToChunk (scanRoots memory threads) y.2 := by
    intro y hy
    have hne := span_ne_zero hD (hw.walked.owned y (List.mem_of_mem_take hy)).2
    rw [pointedTo_chunk hne rfl]
    apply and_congr_left'
    exact not_congr (BitVec.toNat_inj (y := 0#32))
  rw [mem_reportedBases, hsnapshot]
  constructor
  · rintro ⟨x, hx, rfl, hleak⟩
    obtain ⟨y, hy, rfl⟩ := (mem_scanTable hw).mp hx
    exact ⟨y, hy, rfl, (hentry y hy).mp hleak⟩
  · rintro ⟨y, hy, rfl, hleak⟩
    exact ⟨_, (mem_scanTable hw).mpr ⟨y, hy, rfl⟩, rfl, (hentry y hy).mpr hleak⟩

theorem used_of_held (hD : Stored s v D) (hp : p ∈ D) (hk : s.header p.span = .small k) :
    p.span ∈ (s.heap k).lists.owned ∧ ((s.heap k).lists.head p.span).used ≠ 0 := by
  obtain ⟨howned, hlive⟩ := (home_small hk).mp (hD.home p hp)
  refine ⟨howned, ?_⟩
  intro hzero
  have hdead := ((hD.spans k _ howned).wf.dead hzero).2
  dsimp only at hdead
  rw [hdead] at hlive
  cases hlive

/-- A small block that is held lies in the 64 KB of its span. -/
theorem pointsToChunk_of_bytes (hD : Stored s v D) (hp : p ∈ D)
    (hk : s.header p.span = .small k) {w : ℕ} (hw : w ∈ words) (hin : w ∈ s.bytes p) :
    PointsToChunk words p.span := by
  have hused := hD.used k _ (used_of_held hD hp hk).1
  obtain ⟨n, hn, hlow, hhigh⟩ := hD.bytes_span hp
  have hone : n = 1 := by
    rcases hn with ⟨hn, -⟩ | hmap
    · exact hn
    · have hlength := hD.apart.length _ hmap
      have hapart := hD.used_apart hused hmap
      dsimp only at hlength hapart
      omega
  rw [hone] at hhigh
  obtain ⟨hfrom, hto⟩ := hin
  exact ⟨w, hw, (Nat.le_of_add_right_le hlow).trans hfrom, hto.trans_le hhigh⟩

end

variable [DecidableEq ι]

def ownedBy (o : SpanOwner) (heap : Option ℕ) : Bool :=
  match o with
  | .small k => heap = some k
  | .large _ => heap = none

end Xplatbase.LeakWatch
