import Mathlib.Data.List.FinRange
import Xplatbase.LeakWatch.Reachability

/-! The marks depend on the set of the words marked only, and so does the report. -/
namespace Xplatbase.LeakWatch

/-- A table as `mlw_mark_candidate` gets it. The range of a span ends within the address space, so
the addition of the span size does not wrap. -/
structure SpanTable where
  spans : List MemSpanInfo
  aligned : ∀ s ∈ spans, MLW_SPAN_SIZE ∣ s.base
  distinct : spans.Pairwise fun s s' => s.base ≠ s'.base
  sorted : spans.Pairwise fun s s' => mlwSpanCmp s s' ≠ .gt

theorem SpanTable.searchable (t : SpanTable) : Searchable t.spans :=
  searchable_of_sorted t.aligned t.distinct (t.sorted.imp fun h => (mlwSpanCmp_le _ _).mp h)

/-- `mlw_mark_candidate` on each word, over a table cleared by `calloc`. -/
def markAll (spans : List MemSpanInfo) (words : List ℕ) : Fin spans.length → Bool :=
  words.foldl (mlwMarkCandidate spans) fun _ => false

/-- Some word that is not null lies in the range of the span. -/
def PointedTo (words : List ℕ) (s : MemSpanInfo) : Prop :=
  ∃ w ∈ words, w ≠ 0 ∧ PointsInto w s

instance (words : List ℕ) (s : MemSpanInfo) : Decidable (PointedTo words s) :=
  inferInstanceAs (Decidable (∃ w ∈ words, _ ∧ _))

/-- The bases in the `leak_candidate` lines, in their order. -/
def reportedBases (lines : List MlwReport) : List ℕ :=
  lines.filterMap fun
    | .leak_candidate base _ _ _ _ => some base
    | _ => none

theorem markAll_exact {spans : List MemSpanInfo} (h : Searchable spans) (words : List ℕ)
    (i : Fin spans.length) : markAll spans words i = true ↔ PointedTo words (spans.get i) := by
  unfold markAll PointedTo
  rw [marks_exact h]
  simp

theorem PointedTo.congr {words words' : List ℕ} (h : ∀ w, w ∈ words ↔ w ∈ words')
    (s : MemSpanInfo) : PointedTo words s ↔ PointedTo words' s := by
  unfold PointedTo
  simp only [h]

theorem markAll_congr {spans : List MemSpanInfo} (h : Searchable spans) {words words' : List ℕ}
    (hw : ∀ w, w ∈ words ↔ w ∈ words') : markAll spans words = markAll spans words' := by
  funext i
  rw [Bool.eq_iff_iff, markAll_exact h, markAll_exact h]
  exact PointedTo.congr hw _

theorem scanMarks_eq (memory : ℕ → ℕ) (spans : List MemSpanInfo) (threads : List ScannedThread) :
    scanMarks memory spans threads = markAll spans (scanRoots memory threads) :=
  foldl_scanThreadRoots memory spans threads fun _ => false

theorem leakCandidates_sublist (spans : List MemSpanInfo) (reachable : Fin spans.length → Bool) :
    (leakCandidates spans reachable).Sublist spans := by
  have h : ((List.finRange spans.length).map spans.get) = spans :=
    List.map_get_finRange spans
  unfold leakCandidates
  conv_rhs => rw [← h]
  exact List.filter_sublist.map _

theorem leakCandidates_nodup {spans : List MemSpanInfo} (h : Searchable spans)
    (reachable : Fin spans.length → Bool) :
    ((leakCandidates spans reachable).map MemSpanInfo.base).Nodup := by
  have hp : (leakCandidates spans reachable).Pairwise
      fun s s' => s.base + MLW_SPAN_SIZE ≤ s'.base := h.sublist (leakCandidates_sublist _ _)
  unfold List.Nodup
  rw [List.pairwise_map]
  apply hp.imp
  intro a b hab heq
  unfold MLW_SPAN_SIZE at hab
  omega

/-- The candidates are the spans in use that no word points into. -/
theorem mem_leakCandidates_markAll {spans : List MemSpanInfo} (h : Searchable spans)
    (words : List ℕ) (s : MemSpanInfo) :
    s ∈ leakCandidates spans (markAll spans words) ↔
      s ∈ spans ∧ ¬ PointedTo words s ∧ s.used ≠ 0 := by
  rw [mem_leakCandidates]
  constructor
  · rintro ⟨i, rfl, hmark, hused⟩
    refine ⟨List.get_mem _ i, ?_, hused⟩
    rw [← markAll_exact h, hmark]
    decide
  · rintro ⟨hs, hpoint, hused⟩
    obtain ⟨i, rfl⟩ := List.get_of_mem hs
    refine ⟨i, rfl, ?_, hused⟩
    rw [← markAll_exact h] at hpoint
    exact Bool.eq_false_of_not_eq_true hpoint

theorem reportedBases_map (now_ms : ℕ) (leaked : List MemSpanInfo) :
    reportedBases (leaked.map (leakReport now_ms)) = leaked.map MemSpanInfo.base := by
  unfold reportedBases
  rw [List.filterMap_map]
  exact List.filterMap_eq_map (f := MemSpanInfo.base) ▸ rfl

theorem reportedBases_append (lines : List MlwReport) {line : MlwReport}
    (h : reportedBases [line] = []) : reportedBases (lines ++ [line]) = reportedBases lines := by
  unfold reportedBases at h ⊢
  rw [List.filterMap_append, h, List.append_nil]

theorem reportedBases_mlwRunScan (level : MlwLevel) (now_ms : ℕ) (memory : ℕ → ℕ)
    (snapshot : Snapshot) (threads : List ScannedThread) :
    reportedBases (mlwRunScan level now_ms memory snapshot threads) =
      (leakCandidates (sortedSpans snapshot.spans)
        (markAll (sortedSpans snapshot.spans) (scanRoots memory threads))).map
          MemSpanInfo.base := by
  rw [← scanMarks_eq, ← reportedBases_map now_ms]
  unfold mlwRunScan
  cases level with
  | info => rfl
  | warn =>
    dsimp only
    split_ifs
    · exact reportedBases_append _ rfl
    · rfl
  | critical => exact reportedBases_append _ rfl

/-- Marking is exact and free of the order of the words; the report of a scan is determined by the
set of its root words, and names each candidate once. -/
theorem marking_exact :
    (∀ (t : SpanTable) (words : List ℕ),
      (∀ i, markAll t.spans words i = true ↔ PointedTo words (t.spans.get i)) ∧
      (∀ s, s ∈ leakCandidates t.spans (markAll t.spans words) ↔
        s ∈ t.spans ∧ ¬ PointedTo words s ∧ s.used ≠ 0) ∧
      ((leakCandidates t.spans (markAll t.spans words)).map MemSpanInfo.base).Nodup ∧
      ∀ words', (∀ w, w ∈ words ↔ w ∈ words') →
        leakCandidates t.spans (markAll t.spans words') =
          leakCandidates t.spans (markAll t.spans words)) ∧
    ∀ (level : MlwLevel) (now_ms : ℕ) (memory : ℕ → ℕ) (snapshot : Snapshot)
      (threads : List ScannedThread),
      let bases := reportedBases (mlwRunScan level now_ms memory snapshot threads)
      bases.Nodup ∧
      (∀ s ∈ snapshot.spans,
        s.base ∈ bases ↔ ¬ PointedTo (scanRoots memory threads) s ∧ s.used ≠ 0) ∧
      ∀ words, (∀ w, w ∈ words ↔ w ∈ scanRoots memory threads) →
        bases = (leakCandidates (sortedSpans snapshot.spans)
          (markAll (sortedSpans snapshot.spans) words)).map MemSpanInfo.base := by
  constructor
  · intro t words
    refine ⟨markAll_exact t.searchable words, mem_leakCandidates_markAll t.searchable words,
      leakCandidates_nodup t.searchable _, ?_⟩
    intro words' hw
    rw [markAll_congr t.searchable hw]
  · intro level now_ms memory snapshot threads
    have hsearch := snapshot.searchable
    dsimp only
    rw [reportedBases_mlwRunScan]
    refine ⟨leakCandidates_nodup hsearch _, ?_, ?_⟩
    · intro s hs
      rw [List.mem_map]
      constructor
      · rintro ⟨s', hs', he⟩
        obtain ⟨hmem, hleak⟩ := (mem_leakCandidates_markAll hsearch _ s').mp hs'
        rw [← snapshot.eq_of_base ((mem_sortedSpans _ s').mp hmem) hs he]
        exact hleak
      · intro hleak
        exact ⟨s, (mem_leakCandidates_markAll hsearch _ s).mpr
          ⟨(mem_sortedSpans _ s).mpr hs, hleak⟩, rfl⟩
    · intro words hw
      rw [markAll_congr hsearch hw]

end Xplatbase.LeakWatch
