import Mathlib.Data.List.Pairwise
import Xplatbase.LeakWatch.Marking

/-! The scan marks what a root word points into. Against the tracing of a collector, which goes on
through the blocks it reaches, size-class or LARGE, it reports a span that only another block keeps
alive. -/
namespace Xplatbase.LeakWatch

variable (memory : ℕ → ℕ)

/-- What holds live blocks: a span of the table, or the block of a LARGE allocation, which is in no
table. -/
inductive PoolPlace where
  | span (s : MemSpanInfo)
  | large (ptr size : ℕ)

def PoolPlace.Holds (w : ℕ) : PoolPlace → Prop
  | .span s => PointsInto w s
  | .large ptr size => ptr ≤ w ∧ w < ptr + size

instance (w : ℕ) : (p : PoolPlace) → Decidable (p.Holds w)
  | .span s => inferInstanceAs (Decidable (PointsInto w s))
  | .large ptr size => inferInstanceAs (Decidable (ptr ≤ w ∧ w < ptr + size))

/-- The pool as a collector would walk it: the table, the live LARGE blocks, and the words stored
in the blocks of each place. -/
structure LiveHeap where
  snapshot : Snapshot
  larges : List (ℕ × ℕ)
  contents : PoolPlace → List ℕ

def LiveHeap.places (heap : LiveHeap) : List PoolPlace :=
  heap.snapshot.spans.map .span ++ heap.larges.map fun b => .large b.1 b.2

theorem LiveHeap.mem_span {heap : LiveHeap} {s : MemSpanInfo} :
    .span s ∈ heap.places ↔ s ∈ heap.snapshot.spans := by
  unfold LiveHeap.places
  simp

/-- What a collector would keep. -/
inductive GcReachable (heap : LiveHeap) (roots : List ℕ) : PoolPlace → Prop
  | root {p : PoolPlace} {w : ℕ} (hmem : p ∈ heap.places) (hw : w ∈ roots) (hp : p.Holds w) :
      GcReachable heap roots p
  | block {p p' : PoolPlace} {w : ℕ} (h : GcReachable heap roots p) (hmem : p' ∈ heap.places)
      (hw : w ∈ heap.contents p) (hp : p'.Holds w) : GcReachable heap roots p'

/-- The span is named by a `leak_candidate` line. -/
def Reported (s : MemSpanInfo) (lines : List MlwReport) : Prop :=
  ∃ size used age_ms site, MlwReport.leak_candidate s.base size used age_ms site ∈ lines

theorem Snapshot.eq_of_base (snapshot : Snapshot) {s s' : MemSpanInfo} (hs : s ∈ snapshot.spans)
    (hs' : s' ∈ snapshot.spans) (h : s.base = s'.base) : s = s' := by
  have hsymm : Std.Symm fun s s' : MemSpanInfo => s.base ≠ s'.base := ⟨fun _ _ hab => hab.symm⟩
  by_contra hne
  exact snapshot.distinct.forall hs hs' hne h

theorem GcReachable.mem {heap : LiveHeap} {roots : List ℕ} {s : MemSpanInfo}
    (h : GcReachable heap roots (.span s)) : s ∈ heap.snapshot.spans := by
  cases h with
  | root hmem hw hp => exact LiveHeap.mem_span.mp hmem
  | block h hmem hw hp => exact LiveHeap.mem_span.mp hmem

theorem leakReport_mem (now_ms : ℕ) (leaked : List MemSpanInfo) (s : MemSpanInfo) :
    Reported s (leaked.map (leakReport now_ms)) ↔ ∃ s' ∈ leaked, s'.base = s.base := by
  unfold Reported leakReport
  constructor
  · rintro ⟨size, used, age_ms, site, hm⟩
    obtain ⟨s', hs', he⟩ := List.mem_map.mp hm
    exact ⟨s', hs', (MlwReport.leak_candidate.inj he).1⟩
  · rintro ⟨s', hs', he⟩
    rw [← he]
    exact ⟨_, _, _, _, List.mem_map.mpr ⟨s', hs', rfl⟩⟩

theorem Reported.append {s : MemSpanInfo} {lines : List MlwReport} (line : MlwReport)
    (hline : ∀ size used age_ms site, line ≠ .leak_candidate s.base size used age_ms site) :
    Reported s (lines ++ [line]) ↔ Reported s lines := by
  unfold Reported
  constructor
  · rintro ⟨size, used, age_ms, site, hm⟩
    rcases List.mem_append.mp hm with h | h
    · exact ⟨size, used, age_ms, site, h⟩
    · exact absurd (List.mem_singleton.mp h).symm (hline size used age_ms site)
  · rintro ⟨size, used, age_ms, site, hm⟩
    exact ⟨size, used, age_ms, site, List.mem_append_left _ hm⟩

theorem mlwRunScan_reported (level : MlwLevel) (now_ms : ℕ) (snapshot : Snapshot)
    (threads : List ScannedThread) (s : MemSpanInfo) :
    Reported s (mlwRunScan level now_ms memory snapshot threads) ↔
      Reported s ((leakCandidates (sortedSpans snapshot.spans)
        (scanMarks memory (sortedSpans snapshot.spans) threads)).map (leakReport now_ms)) := by
  unfold mlwRunScan
  cases level with
  | info => exact Iff.rfl
  | warn =>
    dsimp only
    split
    · apply Reported.append
      intro _ _ _ _ h
      exact MlwReport.noConfusion h
    · exact Iff.rfl
  | critical =>
    apply Reported.append
    intro _ _ _ _ h
    exact MlwReport.noConfusion h

/-- What a scan reports: the spans in use that no root word points into. -/
theorem mlwRunScan_exact (level : MlwLevel) (now_ms : ℕ) (snapshot : Snapshot)
    (threads : List ScannedThread) {s : MemSpanInfo} (hs : s ∈ snapshot.spans) :
    Reported s (mlwRunScan level now_ms memory snapshot threads) ↔
      s.used ≠ 0 ∧ ¬∃ w ∈ scanRoots memory threads, PointsInto w s := by
  rw [mlwRunScan_reported, leakReport_mem]
  constructor
  · rintro ⟨s', hs', he⟩
    obtain ⟨i, hget, hmark, hused⟩ := (mem_leakCandidates _ s').mp hs'
    have hmem : s' ∈ snapshot.spans := by
      rw [← mem_sortedSpans, ← hget]
      exact List.get_mem _ i
    rw [← snapshot.eq_of_base hmem hs he]
    refine ⟨hused, ?_⟩
    rintro ⟨w, hw, hp⟩
    have hmarked := (scanMarks_exact snapshot.searchable memory threads i).mpr
      ⟨w, hw, ?_, by rw [hget]; exact hp⟩
    · rw [hmark] at hmarked
      exact absurd hmarked (by decide)
    · have hnull := snapshot.nonnull s' hmem
      unfold PointsInto at hp
      omega
  · rintro ⟨hused, hroot⟩
    obtain ⟨i, hget⟩ := List.get_of_mem ((mem_sortedSpans _ s).mpr hs)
    refine ⟨s, (mem_leakCandidates _ s).mpr ⟨i, hget, ?_, hused⟩, rfl⟩
    apply Bool.eq_false_of_not_eq_true
    intro hmarked
    obtain ⟨w, hw, _, hp⟩ := (scanMarks_exact snapshot.searchable memory threads i).mp hmarked
    rw [hget] at hp
    exact hroot ⟨w, hw, hp⟩

/-- The scan agrees with the collector when a root word points into every span in use that the
collector would reach, and only then. -/
theorem mlwRunScan_spares_reachable (level : MlwLevel) (now_ms : ℕ) (heap : LiveHeap)
    (threads : List ScannedThread) :
    (∀ s, GcReachable heap (scanRoots memory threads) (.span s) →
      ¬Reported s (mlwRunScan level now_ms memory heap.snapshot threads)) ↔
    ∀ s, GcReachable heap (scanRoots memory threads) (.span s) → s.used ≠ 0 →
      ∃ w ∈ scanRoots memory threads, PointsInto w s := by
  constructor
  · intro h s hs hused
    have hnot := h s hs
    rw [mlwRunScan_exact memory level now_ms heap.snapshot threads hs.mem] at hnot
    by_contra hroot
    exact hnot ⟨hused, hroot⟩
  · intro h s hs hrep
    rw [mlwRunScan_exact memory level now_ms heap.snapshot threads hs.mem] at hrep
    exact hrep.2 (h s hs hrep.1)

/-- A node in one span, and a node in another that only the first points to. -/
def linkedNodes : LiveHeap where
  snapshot :=
    { spans := [⟨0x20000, 64, 1, [], 0⟩, ⟨0x10000, 32, 1, [], 0⟩]
      aligned := by decide
      nonnull := by decide
      distinct := by decide }
  larges := []
  contents
    | .span s => if s.base = 0x10000 then [0x20080] else []
    | .large _ _ => []

def holder : ScannedThread where
  self := false
  suspended := true
  context := true
  teb := true
  registers := [0x10040]
  rip := 0x400000
  rsp := 0
  stackBase := 0

theorem mlwRunScan_spares_reachable_not :
    ¬∀ (level : MlwLevel) (now_ms : ℕ) (memory : ℕ → ℕ) (heap : LiveHeap)
      (threads : List ScannedThread) (s : MemSpanInfo),
      GcReachable heap (scanRoots memory threads) (.span s) →
        ¬Reported s (mlwRunScan level now_ms memory heap.snapshot threads) := by
  intro h
  have hroots : scanRoots (fun _ => 0) [holder] = [0x10040] := by decide
  have hfirst : GcReachable linkedNodes (scanRoots (fun _ => 0) [holder])
      (.span ⟨0x10000, 32, 1, [], 0⟩) :=
    .root (LiveHeap.mem_span.mpr (by decide)) (by rw [hroots]; exact List.mem_singleton.mpr rfl)
      (by decide)
  have hsecond : GcReachable linkedNodes (scanRoots (fun _ => 0) [holder])
      (.span ⟨0x20000, 64, 1, [], 0⟩) :=
    .block (w := 0x20080) hfirst (LiveHeap.mem_span.mpr (by decide)) (by decide) (by decide)
  apply h .warn 0 (fun _ => 0) linkedNodes [holder] _ hsecond
  rw [mlwRunScan_exact _ _ _ _ _ hsecond.mem, hroots]
  refine ⟨by decide, ?_⟩
  rintro ⟨w, hw, hp⟩
  rw [List.mem_singleton.mp hw] at hp
  exact absurd hp (by decide)

end Xplatbase.LeakWatch
