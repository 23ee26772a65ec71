import Mathlib.Algebra.GroupWithZero.Nat
import Mathlib.Data.List.Sort
import Xplatbase.Lib.Search

/-! Model of the scan of `mem_leak_watch.c`: the marking of `mlw_mark_candidate`, the roots that
`mlw_scan_thread_roots` reads and the report of `mlw_run_scan`. Addresses and words are naturals,
and `0` is the null pointer. -/
namespace Xplatbase.LeakWatch
open Xplatbase.Lib

def MLW_SPAN_SIZE : ℕ := 65536

/-- One entry of the snapshot of `memop_snapshot_spans`. -/
structure MemSpanInfo where
  base : ℕ
  stride : ℕ
  used : ℕ
  site_frames : List ℕ
  created_ms : ℕ
  deriving DecidableEq

/-- The spans of the pool at the snapshot, in the order of the heaps' lists: blocks of 64 KB,
aligned to their size, all different. -/
structure Snapshot where
  spans : List MemSpanInfo
  aligned : ∀ s ∈ spans, MLW_SPAN_SIZE ∣ s.base
  nonnull : ∀ s ∈ spans, s.base ≠ 0
  distinct : spans.Pairwise fun s s' => s.base ≠ s'.base

def mlwSpanCmp (a b : MemSpanInfo) : Ordering :=
  if a.base < b.base then .lt else if b.base < a.base then .gt else .eq

/-- `qsort` of the snapshot. -/
def sortedSpans (spans : List MemSpanInfo) : List MemSpanInfo :=
  spans.mergeSort fun a b => mlwSpanCmp a b ≠ .gt

/-- The three-way test of `mlw_mark_candidate`. -/
def spanTest (w : ℕ) (s : MemSpanInfo) : Ordering :=
  if w < s.base then .lt else if s.base + MLW_SPAN_SIZE ≤ w then .gt else .eq

def mlwMarkCandidate (spans : List MemSpanInfo) (reachable : Fin spans.length → Bool) (w : ℕ) :
    Fin spans.length → Bool :=
  if w = 0 then
    reachable
  else
    match bsearch (fun i => spanTest w (spans.get i)) 0 spans.length (le_refl _) with
    | some mid => Function.update reachable mid true
    | none => reachable

/-- What the scan meets at one handle. `suspended`, `context` and `teb` say whether `SuspendThread`,
`GetThreadContext` and `NtQueryInformationThread` succeed; `registers` are the words of `CONTEXT`
that are marked. -/
structure ScannedThread where
  self : Bool
  suspended : Bool
  context : Bool
  teb : Bool
  registers : List ℕ
  rip : ℕ
  rsp : ℕ
  stackBase : ℕ
  deriving DecidableEq

def ScannedThread.scanned (thread : ScannedThread) : Bool :=
  !thread.self && thread.suspended && thread.context && thread.teb

/-- The words of `for (p = rsp; p < base; p++)`, under the tests before it. -/
def stackWords (memory : ℕ → ℕ) (rsp base : ℕ) : List ℕ :=
  if rsp ≠ 0 ∧ base ≠ 0 ∧ rsp < base ∧ base - rsp < 64 * 1024 * 1024 then
    (List.range ((base - rsp + 7) / 8)).map fun k => memory (rsp + 8 * k)
  else
    []

/-- The words that `mlw_scan_thread_roots` marks, in its order. -/
def threadRoots (memory : ℕ → ℕ) (thread : ScannedThread) : List ℕ :=
  if thread.scanned then
    thread.registers ++ stackWords memory thread.rsp thread.stackBase
  else
    []

def mlwScanThreadRoots (memory : ℕ → ℕ) (spans : List MemSpanInfo)
    (reachable : Fin spans.length → Bool) (thread : ScannedThread) : Fin spans.length → Bool :=
  (threadRoots memory thread).foldl (mlwMarkCandidate spans) reachable

def scanRoots (memory : ℕ → ℕ) (threads : List ScannedThread) : List ℕ :=
  threads.flatMap (threadRoots memory)

def scanMarks (memory : ℕ → ℕ) (spans : List MemSpanInfo) (threads : List ScannedThread) :
    Fin spans.length → Bool :=
  threads.foldl (mlwScanThreadRoots memory spans) fun _ => false

inductive MlwLevel
  | info
  | warn
  | critical
  deriving DecidableEq

/-- A line of `mlw_log`. -/
inductive MlwReport
  | leak_candidate (base size used age_ms : ℕ) (site : List ℕ)
  | near_memory_limit (leaked_bytes leaked_n : ℕ) (rip : Option ℕ)
  | scan_clean
  deriving DecidableEq

def leakReport (now_ms : ℕ) (s : MemSpanInfo) : MlwReport :=
  .leak_candidate s.base (s.stride * s.used) s.used
    (if s.created_ms ≠ 0 ∧ s.created_ms < now_ms then now_ms - s.created_ms else 0) s.site_frames

/-- The spans that the loop of `mlw_run_scan` reports, in the order of their bases. -/
def leakCandidates (spans : List MemSpanInfo) (reachable : Fin spans.length → Bool) :
    List MemSpanInfo :=
  ((List.finRange spans.length).filter fun i => !reachable i && (spans.get i).used ≠ 0).map
    spans.get

/-- `mlw_run_scan`, over the snapshot it took and the handles it copied. -/
def mlwRunScan (level : MlwLevel) (now_ms : ℕ) (memory : ℕ → ℕ) (snapshot : Snapshot)
    (threads : List ScannedThread) : List MlwReport :=
  let spans := sortedSpans snapshot.spans
  let leaked := leakCandidates spans (scanMarks memory spans threads)
  let lines := leaked.map (leakReport now_ms)
  match level with
  | .critical =>
    lines ++ [.near_memory_limit ((leaked.map fun s => s.stride * s.used).sum % 2 ^ 64)
      (leaked.length % 2 ^ 32)
      ((threads.find? fun thread => thread.scanned && thread.rip ≠ 0).map ScannedThread.rip)]
  | .warn => if leaked.length = 0 then lines ++ [.scan_clean] else lines
  | .info => lines

/-- A word in the range of a span's 64 KB. -/
def PointsInto (w : ℕ) (s : MemSpanInfo) : Prop :=
  s.base ≤ w ∧ w < s.base + MLW_SPAN_SIZE

instance (w : ℕ) (s : MemSpanInfo) : Decidable (PointsInto w s) :=
  inferInstanceAs (Decidable (_ ∧ _))

theorem spanTest_eq (w : ℕ) (s : MemSpanInfo) : spanTest w s = .eq ↔ PointsInto w s := by
  unfold spanTest PointsInto
  by_cases hlt : w < s.base
  · rw [if_pos hlt]
    constructor
    · intro h
      exact absurd h (by decide)
    · intro h
      omega
  · rw [if_neg hlt]
    by_cases hge : s.base + MLW_SPAN_SIZE ≤ w
    · rw [if_pos hge]
      constructor
      · intro h
        exact absurd h (by decide)
      · intro h
        omega
    · rw [if_neg hge]
      constructor
      · intro _
        omega
      · intro _
        rfl

/-- A table that the binary search of `mlw_mark_candidate` can search: disjoint ranges in rising
order. -/
def Searchable (spans : List MemSpanInfo) : Prop :=
  spans.Pairwise fun s s' => s.base + MLW_SPAN_SIZE ≤ s'.base

theorem Searchable.ordered {spans : List MemSpanInfo} (h : Searchable spans) (w : ℕ) :
    KeyOrdered fun i : Fin spans.length => spanTest w (spans.get i) := by
  intro i j hij
  have hd := List.pairwise_iff_get.mp h i j hij
  by_cases hw : w < (spans.get j).base
  · exact Or.inr (if_pos hw)
  · apply Or.inl
    dsimp only
    unfold spanTest
    rw [if_neg (by omega), if_pos (by omega)]

/-- Marking is exact: a word marks the span whose range it is in, and no other. -/
theorem mlwMarkCandidate_exact {spans : List MemSpanInfo} (h : Searchable spans)
    (reachable : Fin spans.length → Bool) (w : ℕ) (i : Fin spans.length) :
    mlwMarkCandidate spans reachable w i = true ↔
      reachable i = true ∨ (w ≠ 0 ∧ PointsInto w (spans.get i)) := by
  unfold mlwMarkCandidate
  by_cases hw : w = 0
  · rw [if_pos hw]
    constructor
    · intro hr
      exact Or.inl hr
    · intro hr
      exact hr.resolve_right fun hn => hn.1 hw
  · rw [if_neg hw, ← spanTest_eq]
    have hall := bsearch_all _ (h.ordered w)
    cases hs : bsearch (fun i => spanTest w (spans.get i)) 0 spans.length (le_refl _) with
    | none =>
      dsimp only
      constructor
      · intro hr
        exact Or.inl hr
      · intro hr
        apply hr.resolve_right
        intro hp
        rw [(hall i).mpr hp.2] at hs
        exact absurd hs (by simp)
    | some mid =>
      dsimp only
      by_cases hi : i = mid
      · rw [hi, Function.update_self]
        constructor
        · intro _
          exact Or.inr ⟨hw, (hall mid).mp hs⟩
        · intro _
          rfl
      · rw [Function.update_of_ne hi]
        constructor
        · intro hr
          exact Or.inl hr
        · intro hr
          apply hr.resolve_right
          intro hp
          have hsi := (hall i).mpr hp.2
          rw [hs] at hsi
          exact hi (Option.some.inj hsi).symm

/-- A sequence of words marks the spans that some word of it points into, in any order. -/
theorem marks_exact {spans : List MemSpanInfo} (h : Searchable spans) (words : List ℕ)
    (reachable : Fin spans.length → Bool) (i : Fin spans.length) :
    words.foldl (mlwMarkCandidate spans) reachable i = true ↔
      reachable i = true ∨ ∃ w ∈ words, w ≠ 0 ∧ PointsInto w (spans.get i) := by
  induction words generalizing reachable with
  | nil => simp
  | cons w words ih =>
    rw [List.foldl_cons, ih, mlwMarkCandidate_exact h, List.exists_mem_cons_iff, or_assoc]

theorem foldl_scanThreadRoots (memory : ℕ → ℕ) (spans : List MemSpanInfo)
    (threads : List ScannedThread) (reachable : Fin spans.length → Bool) :
    threads.foldl (mlwScanThreadRoots memory spans) reachable =
      (scanRoots memory threads).foldl (mlwMarkCandidate spans) reachable := by
  induction threads generalizing reachable with
  | nil => rfl
  | cons thread threads ih =>
    unfold scanRoots at ih ⊢
    rw [List.foldl_cons, ih, List.flatMap_cons, List.foldl_append]
    rfl

theorem scanMarks_exact {spans : List MemSpanInfo} (h : Searchable spans) (memory : ℕ → ℕ)
    (threads : List ScannedThread) (i : Fin spans.length) :
    scanMarks memory spans threads i = true ↔
      ∃ w ∈ scanRoots memory threads, w ≠ 0 ∧ PointsInto w (spans.get i) := by
  unfold scanMarks
  rw [foldl_scanThreadRoots, marks_exact h]
  simp

theorem mem_leakCandidates {spans : List MemSpanInfo} (reachable : Fin spans.length → Bool)
    (s : MemSpanInfo) :
    s ∈ leakCandidates spans reachable ↔
      ∃ i, spans.get i = s ∧ reachable i = false ∧ s.used ≠ 0 := by
  unfold leakCandidates
  simp only [List.mem_map, List.mem_filter, List.mem_finRange, true_and, Bool.and_eq_true,
    Bool.not_eq_true', decide_eq_true_eq]
  constructor
  · rintro ⟨i, hi, rfl⟩
    exact ⟨i, rfl, hi⟩
  · rintro ⟨i, rfl, hi⟩
    exact ⟨i, hi, rfl⟩

/-- The order of `mlw_span_cmp`, as `qsort` uses it. -/
theorem mlwSpanCmp_le (a b : MemSpanInfo) : mlwSpanCmp a b ≠ .gt ↔ a.base ≤ b.base := by
  unfold mlwSpanCmp
  by_cases hlt : a.base < b.base
  · simp [hlt, hlt.le]
  · by_cases hgt : b.base < a.base
    · simp [hlt, hgt]
    · simp [hlt, hgt]
      omega

theorem mem_sortedSpans (spans : List MemSpanInfo) (s : MemSpanInfo) :
    s ∈ sortedSpans spans ↔ s ∈ spans :=
  (List.mergeSort_perm spans _).mem_iff

theorem sortedSpans_sorted (spans : List MemSpanInfo) :
    (sortedSpans spans).Pairwise fun s s' => s.base ≤ s'.base := by
  have h : (sortedSpans spans).Pairwise fun a b => decide (mlwSpanCmp a b ≠ .gt) = true := by
    apply List.pairwise_mergeSort
    · intro a b c hab hbc
      rw [decide_eq_true_eq, mlwSpanCmp_le] at hab hbc ⊢
      exact hab.trans hbc
    · intro a b
      rw [Bool.or_eq_true, decide_eq_true_eq, decide_eq_true_eq, mlwSpanCmp_le, mlwSpanCmp_le]
      exact Nat.le_total _ _
  exact h.imp fun hab => (mlwSpanCmp_le _ _).mp (of_decide_eq_true hab)

/-- Different multiples of the span size, in rising order, are at least one span apart. -/
theorem searchable_of_sorted {spans : List MemSpanInfo}
    (haligned : ∀ s ∈ spans, MLW_SPAN_SIZE ∣ s.base)
    (hne : spans.Pairwise fun s s' => s.base ≠ s'.base)
    (hsorted : spans.Pairwise fun s s' => s.base ≤ s'.base) : Searchable spans := by
  apply (hsorted.and hne).imp_of_mem
  intro a b ha hb hab
  have hda := haligned a ha
  have hdb := haligned b hb
  unfold MLW_SPAN_SIZE at hda hdb ⊢
  omega

theorem Snapshot.searchable (snapshot : Snapshot) : Searchable (sortedSpans snapshot.spans) := by
  have hne : (sortedSpans snapshot.spans).Pairwise fun s s' => s.base ≠ s'.base :=
    (List.mergeSort_perm snapshot.spans _).symm.pairwise snapshot.distinct fun h => h.symm
  have haligned : ∀ s ∈ sortedSpans snapshot.spans, MLW_SPAN_SIZE ∣ s.base := by
    intro s hs
    exact snapshot.aligned s ((mem_sortedSpans _ s).mp hs)
  exact searchable_of_sorted haligned hne (sortedSpans_sorted snapshot.spans)

end Xplatbase.LeakWatch
