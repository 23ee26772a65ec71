import Mathlib
import Xplatbase.MemoryPool.PoolEnd

/-! The blocks of the pool never overlap, over every run of its threads. -/
namespace Xplatbase.MemoryPool
open Xplatbase.Lib Xplatbase.Memory

variable {ι : Type*} [DecidableEq ι]

section
variable {s s' : PoolState ι} {i : ι} {k : ℕ}

theorem PoolOk.memopAllocRaw (h : PoolOk s) (hidle : s.pcs i = .idle) {size : BitVec 64}
    {heap : Option ℕ} (hs : memopAllocRaw s i size heap none = some s') : PoolOk s' := by
  obtain ⟨D, hmid, hat⟩ := h.calling hidle
  have hnone : MidCall s i (none : Option Ptr).toList D := hmid
  exact hnone.memopAllocRaw hat hs

theorem PoolOk.callStep (h : PoolOk s) (hg : s.gHeap i = some k) {os : Option ℕ} {now : BitVec 64}
    (huser : InUserSpace s (.step i os now)) (hs : callStep s i k os now = some s') :
    PoolOk s' := by
  unfold MemoryPool.callStep at hs
  cases hpc : s.pcs i with
  | idle =>
    rw [hpc] at hs
    cases hs
  | refill old =>
    rw [hpc] at hs
    exact h.refillStep hg hpc hs
  | large size old =>
    rw [hpc] at hs
    apply h.largeStep hg hpc _ hs
    intro m hm hunit
    rw [hm] at huser
    apply huser (i, m) rfl
    rw [hpc]
    exact if_neg hunit
  | release old new =>
    rw [hpc] at hs
    rw [← Option.some.inj hs]
    exact h.moved hpc hg now
  | endClass c span kept =>
    rw [hpc] at hs
    exact h.endStep hg hpc hs
  | endFull span kept keptTail =>
    rw [hpc] at hs
    exact h.endStep hg hpc hs
  | endCache =>
    rw [hpc] at hs
    exact h.endStep hg hpc hs

theorem PoolOk.purge (h : PoolOk s) (now : BitVec 64) :
    PoolOk { s with chunks := { s.chunks with
      pool := purgeApplyLocked now true 0 s.chunks.pool } } := by
  obtain ⟨D, hD⟩ := h.stored
  have hp := purgeApplyLocked_purged now true 0 s.chunks.pool
  constructor
  · refine ⟨D, ?_⟩
    have hstored := hD.setChunks (hD.chunks.purge now)
      (hD.apart.mono fun b hb => (hp.mem_mapped hb).1) fun _ hd _ => hd
    exact hstored
  · constructor
    · intro j
      exact (h.lanes.lane j).same rfl (fun _ hm => hm) rfl rfl rfl fun _ _ hst => hst
    · exact h.lanes.once

theorem PoolOk.step (h : PoolOk s) {l : PoolLabel ι} (hl : InUserSpace s l)
    (hs : poolStep s l = some s') : PoolOk s' := by
  cases l with
  | createdThread i heap =>
    simp only [poolStep] at hs
    split_ifs at hs with hidle
    obtain ⟨⟨t, r⟩, hget, rfl⟩ := Option.map_eq_some_iff.mp hs
    obtain ⟨D, hmid, hat⟩ := h.calling hidle
    obtain ⟨hmid', hrest, hpcs, -⟩ := hmid.getHeap hat hget
    have hidle' : t.pcs i = .idle := by
      rw [hpcs]
      exact hidle
    constructor
    · refine ⟨D, ?_⟩
      rw [← inHand_blocks t i, hidle']
      exact hmid'.stored
    · exact hmid'.lanes.idle hidle' hrest.chunks hrest.heap
  | endedThread i =>
    simp only [poolStep] at hs
    split_ifs at hs with hidle
    split at hs
    · rw [← Option.some.inj hs]
      exact h
    · rename_i k hk
      rw [← Option.some.inj hs]
      exact h.endedThread hidle hk
  | alloc i size heap =>
    simp only [poolStep] at hs
    split_ifs at hs with hidle
    exact h.memopAllocRaw hidle hs
  | free i ptr now =>
    simp only [poolStep] at hs
    split_ifs at hs with hidle
    cases ptr with
    | none =>
      rw [← Option.some.inj hs]
      exact h
    | some p =>
      dsimp only at hs
      split_ifs at hs with hp
      rw [← Option.some.inj hs]
      exact h.freed hidle hp now
  | realloc i ptr size heap now =>
    simp only [poolStep] at hs
    split_ifs at hs with hidle
    cases ptr with
    | none =>
      exact h.memopAllocRaw hidle hs
    | some p =>
      dsimp only at hs
      split_ifs at hs with hp
      exact h.memopReallocRaw hidle hp hs
  | step i os now =>
    simp only [poolStep] at hs
    split at hs
    · cases hs
    · rename_i k hk
      exact h.callStep hk hl hs
  | purge now =>
    rw [← Option.some.inj hs]
    exact h.purge now

omit [DecidableEq ι] in
theorem poolOk_init : PoolOk (poolNew ι) where
  stored := by
    refine ⟨∅, ?_⟩
    constructor
    · exact ChunkInv.init
    · constructor
      · intro x hx
        cases hx
      · intro x hx
        cases hx
      · intro b hb
        cases hb
    · exact fun _ _ => rfl
    · exact fun _ a ha => absurd ha (Finset.notMem_empty a)
    · exact fun _ a ha => absurd ha (Finset.notMem_empty a)
    · exact fun _ a ha => absurd ha (Finset.notMem_empty a)
    · have hempty (q : Option ι) : (poolNew ι).holds q = [] := by
        cases q <;> rfl
      constructor
      · intro q
        rw [hempty]
        exact List.nodup_nil
      · intro q r p hp
        rw [hempty] at hp
        cases hp
      · intro p
        constructor
        · intro hp
          cases hp
        · rintro ⟨q, hp⟩
          rw [hempty] at hp
          cases hp
    · intro p hp
      cases hp
  lanes := by
    constructor
    · intro i
      exact (lane_none rfl).mpr ⟨rfl, rfl, rfl⟩
    · intro i j k hi
      cases hi

end

/-! ### `memop_calloc_raw` -/

/-- `memop_calloc_raw` is `memop_alloc_raw` of the product, unless that overflows. -/
def memopCallocRaw (s : PoolState ι) (i : ι) (count size : BitVec 64) (heap : Option ℕ) :
    Option (PoolState ι) :=
  if size ≠ 0 ∧ BitVec.allOnes 64 / size < count then some (allocFailed s i none)
  else memopAllocRaw s i (count * size) heap none

/-- The calls of the pool, with `memop_calloc_raw` among them. -/
inductive PoolCall (ι : Type*)
  | calloc (i : ι) (count size : BitVec 64) (heap : Option ℕ)
  | pool (l : PoolLabel ι)

def poolCallStep (s : PoolState ι) : PoolCall ι → Option (PoolState ι)
  | .calloc i count size heap =>
    if s.pcs i = .idle then memopCallocRaw s i count size heap else none
  | .pool l => poolStep s l

def poolCalls (ι : Type*) [DecidableEq ι] : System (PoolState ι) (PoolCall ι) where
  init := fun s => s = poolNew ι
  step := poolCallStep

/-- `InUserSpace` of a call. -/
def MapsUserSpace (s : PoolState ι) : PoolCall ι → Prop
  | .calloc .. => True
  | .pool l => InUserSpace s l

section
variable {s s' : PoolState ι} {i : ι}

theorem PoolOk.memopCallocRaw (h : PoolOk s) (hidle : s.pcs i = .idle) {count size : BitVec 64}
    {heap : Option ℕ} (hs : memopCallocRaw s i count size heap = some s') : PoolOk s' := by
  unfold MemoryPool.memopCallocRaw at hs
  split_ifs at hs
  · have hzero : MemoryPool.memopAllocRaw s i 0 heap none = some s' := hs
    exact h.memopAllocRaw hidle hzero
  · exact h.memopAllocRaw hidle hs

theorem PoolOk.callsStep (h : PoolOk s) {l : PoolCall ι} (hl : MapsUserSpace s l)
    (hs : poolCallStep s l = some s') : PoolOk s' := by
  cases l with
  | calloc i count size heap =>
    simp only [poolCallStep] at hs
    split_ifs at hs with hidle
    exact h.memopCallocRaw hidle hs
  | pool l => exact h.step hl hs

theorem poolOk_run (h : (poolCalls ι).ReachableWhen MapsUserSpace s) : PoolOk s :=
  System.ReachableWhen.invariant
    (fun _ hs => hs ▸ poolOk_init)
    (fun _ _ _ hinv hl hs => hinv.callsStep hl hs) h

end

/-! ### Bytes -/

/-- The pointer: a block of its class behind the header of the span, or what follows the header of
its own memory. -/
def PoolState.address (s : PoolState ι) (p : Ptr) : ℕ :=
  match s.header p.span with
  | .small k =>
    p.span * memopSpanSize + memopSpanHeader +
      p.block * (classStride ((s.heap k).lists.head p.span).classId).toNat
  | .large _ => p.span * memopSpanSize + memopSpanHeader

/-- The usable size: the stride of the class, or the rounded mapping less the header. -/
def PoolState.usable (s : PoolState ι) (p : Ptr) : ℕ :=
  match s.header p.span with
  | .small k => (classStride ((s.heap k).lists.head p.span).classId).toNat
  | .large x => x.mapping - memopSpanHeader

def PoolState.bytes (s : PoolState ι) (p : Ptr) : Set ℕ :=
  Set.Ico (s.address p) (s.address p + s.usable p)

def spanHeaderBytes (c : ℕ) : Set ℕ :=
  Set.Ico (c * memopSpanSize) (c * memopSpanSize + memopSpanHeader)

/-- The chunks `m .. m + n - 1`. -/
def chunkBytes (m n : ℕ) : Set ℕ := Set.Ico (m * memopSpanSize) ((m + n) * memopSpanSize)

/-- A span, of a heap or of a LARGE block, with its length: a chunk in use, or a mapping. -/
def PoolState.Span (s : PoolState ι) (c n : ℕ) : Prop :=
  (n = 1 ∧ c ∈ s.chunks.used) ∨ (c, n) ∈ s.mappings

section
variable {s : PoolState ι} {v : Option ι → List Ptr} {D : Set Ptr} {p p' : Ptr} {c c' n n' : ℕ}

omit [DecidableEq ι] in
theorem Stored.bytes_span (h : Stored s v D) (hp : p ∈ D) :
    ∃ n, s.Span p.span n ∧ p.span * memopSpanSize + memopSpanHeader ≤ s.address p ∧
      s.address p + s.usable p ≤ (p.span + n) * memopSpanSize := by
  have hhome := h.home p hp
  unfold PoolState.address PoolState.usable
  cases hx : s.header p.span with
  | small k =>
    obtain ⟨howned, hlive⟩ := (home_small hx).mp hhome
    have hok := h.spans k _ howned
    have hlt := hok.parted.lt_bumpIdx hlive
    have hbump := hok.wf.bump
    have hcount := hok.wf.counted
    dsimp only at hbump hcount ⊢
    rw [hcount] at hbump
    have hfits : (p.block + 1) * (classStride ((s.heap k).lists.head p.span).classId).toNat ≤
        memopSpanSize - memopSpanHeader :=
      (Nat.mul_le_mul_right _ (Nat.lt_of_lt_of_le hlt hbump)).trans (Nat.div_mul_le_self ..)
    refine ⟨1, .inl ⟨rfl, h.used k _ howned⟩, Nat.le_add_right .., ?_⟩
    rw [Nat.add_mul, Nat.one_mul] at hfits
    unfold memopSpanSize memopSpanHeader at *
    omega
  | large x =>
    obtain ⟨-, hheld⟩ := (home_large hx).mp hhome
    dsimp only
    rcases hheld with ⟨-, hmapping, hused⟩ | ⟨-, hmap, hmapping⟩
    · refine ⟨1, .inl ⟨rfl, hused⟩, Nat.le_refl _, ?_⟩
      rw [hmapping]
      unfold memopSpanSize memopSpanHeader
      omega
    · have hpos := h.apart.length _ hmap
      refine ⟨_, .inr hmap, Nat.le_refl _, ?_⟩
      rw [hmapping]
      unfold memopSpanSize memopSpanHeader
      dsimp only at hpos
      omega

omit [DecidableEq ι] in
theorem Stored.spans_apart (h : Stored s v D) (hc : s.Span c n) (hc' : s.Span c' n')
    (hne : c ≠ c') : c + n ≤ c' ∨ c' + n' ≤ c := by
  rcases hc with ⟨rfl, hu⟩ | hm
  · rcases hc' with ⟨rfl, hu'⟩ | hm'
    · omega
    · exact h.used_apart hu hm'
  · rcases hc' with ⟨rfl, hu'⟩ | hm'
    · exact (h.used_apart hu' hm).symm
    · exact h.apart.between _ hm _ hm' fun he => hne (congrArg Prod.fst he)

omit [DecidableEq ι] in
/-- Two blocks of one span are two blocks of its class. -/
theorem Stored.blocks_apart (h : Stored s v D) (hp : p ∈ D) (hp' : p' ∈ D)
    (hspan : p.span = p'.span) (hne : p ≠ p') :
    s.address p + s.usable p ≤ s.address p' ∨ s.address p' + s.usable p' ≤ s.address p := by
  unfold PoolState.address PoolState.usable
  rw [hspan]
  cases hx : s.header p'.span with
  | small k =>
    dsimp only
    have hblock : p.block ≠ p'.block := by
      intro hb
      apply hne
      cases p
      cases p'
      simp only at hspan hb
      rw [hspan, hb]
    generalize (classStride ((s.heap k).lists.head p'.span).classId).toNat = stride
    rcases Nat.lt_or_gt_of_ne hblock with hlt | hgt
    · have hmul := Nat.mul_le_mul_right stride (Nat.succ_le_of_lt hlt)
      rw [Nat.succ_mul] at hmul
      omega
    · have hmul := Nat.mul_le_mul_right stride (Nat.succ_le_of_lt hgt)
      rw [Nat.succ_mul] at hmul
      omega
  | large x =>
    have hzero' := ((home_large hx).mp (h.home p' hp')).1
    rw [← hspan] at hx
    have hzero := ((home_large hx).mp (h.home p hp)).1
    exfalso
    apply hne
    cases p
    cases p'
    simp only at hspan hzero hzero'
    rw [hspan, hzero, hzero']

theorem disjoint_of_le {a b c d : ℕ} (h : b ≤ c ∨ d ≤ a) :
    Disjoint (Set.Ico a b) (Set.Ico c d) := by
  rw [Set.Ico_disjoint_Ico]
  omega

omit [DecidableEq ι] in
theorem Stored.bytes_disjoint (h : Stored s v D) (hp : p ∈ D) (hp' : p' ∈ D) (hne : p ≠ p') :
    Disjoint (s.bytes p) (s.bytes p') := by
  apply disjoint_of_le
  by_cases hspan : p.span = p'.span
  · exact h.blocks_apart hp hp' hspan hne
  · obtain ⟨n, hn, hlow, hhigh⟩ := h.bytes_span hp
    obtain ⟨n', hn', hlow', hhigh'⟩ := h.bytes_span hp'
    rcases h.spans_apart hn hn' hspan with hle | hle
    · have hmul := Nat.mul_le_mul_right memopSpanSize hle
      omega
    · have hmul := Nat.mul_le_mul_right memopSpanSize hle
      omega

omit [DecidableEq ι] in
/-- A block overlaps no header of a span: not its own, before which it does not begin. -/
theorem Stored.header_disjoint (h : Stored s v D) (hp : p ∈ D) (hc : s.Span c n) :
    Disjoint (s.bytes p) (spanHeaderBytes c) := by
  apply disjoint_of_le
  obtain ⟨m, hm, hlow, hhigh⟩ := h.bytes_span hp
  by_cases hspan : p.span = c
  · rw [← hspan]
    exact .inr hlow
  · have hpos : 0 < n := by
      rcases hc with ⟨rfl, -⟩ | hmap
      · exact Nat.one_pos
      · exact h.apart.length _ hmap
    have hfit : c * memopSpanSize + memopSpanHeader ≤ (c + n) * memopSpanSize := by
      have hheader : memopSpanHeader ≤ memopSpanSize := by decide
      have hone : memopSpanSize ≤ n * memopSpanSize := Nat.le_mul_of_pos_left _ hpos
      rw [Nat.add_mul]
      exact Nat.add_le_add_left (hheader.trans hone) _
    rcases h.spans_apart hm hc hspan with hle | hle
    · have hmul := Nat.mul_le_mul_right memopSpanSize hle
      exact .inl (hhigh.trans hmul)
    · have hmul := Nat.mul_le_mul_right memopSpanSize hle
      exact .inr (by omega)

omit [DecidableEq ι] in
/-- A span lies in a segment behind its header, or in no segment. -/
theorem Stored.span_segment (h : Stored s v D) (hc : s.Span c n) {b : ℕ}
    (hb : b ∈ s.chunks.pool.mapped) :
    b * memopSegSpans + 1 ≤ c ∨ c + n ≤ b * memopSegSpans := by
  rcases hc with ⟨rfl, hu⟩ | hmap
  · obtain ⟨-, hfirst⟩ := h.segment hu
    unfold memopSegSpans at *
    omega
  · have hseg := h.apart.segments b hb _ hmap
    unfold memopSegSpans at *
    omega

omit [DecidableEq ι] in
theorem Stored.segment_disjoint (h : Stored s v D) (hp : p ∈ D) {b : ℕ}
    (hb : b ∈ s.chunks.pool.mapped) :
    Disjoint (s.bytes p) (chunkBytes (b * memopSegSpans) 1) := by
  apply disjoint_of_le
  obtain ⟨m, hm, hlow, hhigh⟩ := h.bytes_span hp
  rcases h.span_segment hm hb with hle | hle
  · have hmul := Nat.mul_le_mul_right memopSpanSize hle
    exact .inr (by omega)
  · have hmul := Nat.mul_le_mul_right memopSpanSize hle
    exact .inl (hhigh.trans hmul)

omit [DecidableEq ι] in
/-- A block lies in memory that the OS has not got back. -/
theorem Stored.bytes_mapped (h : Stored s v D) (hp : p ∈ D) :
    (∃ b ∈ s.chunks.pool.mapped, s.bytes p ⊆ chunkBytes (b * memopSegSpans) memopSegSpans) ∨
      ∃ x ∈ s.mappings, s.bytes p ⊆ chunkBytes x.1 x.2 := by
  obtain ⟨n, hn, hlow, hhigh⟩ := h.bytes_span hp
  rcases hn with ⟨rfl, hu⟩ | hmap
  · obtain ⟨hseg, -⟩ := h.segment hu
    refine .inl ⟨_, hseg, ?_⟩
    have hmod := memopSegOf_mod p.span
    have hlt := memopSegOf_mod_lt p.span
    have hle : memopSegOf p.span * memopSegSpans ≤ p.span := by omega
    have hge : p.span + 1 ≤ memopSegOf p.span * memopSegSpans + memopSegSpans := by omega
    have hmul := Nat.mul_le_mul_right memopSpanSize hle
    have hmul' := Nat.mul_le_mul_right memopSpanSize hge
    exact Set.Ico_subset_Ico (by omega) (hhigh.trans hmul')
  · exact .inr ⟨_, hmap, Set.Ico_subset_Ico (by dsimp only; omega) hhigh⟩

end

/-- The blocks that callers hold, and those of a reallocation under way, lie apart from each other,
from the headers of the spans and of the segments, and in memory that the OS has not got back. -/
structure BlocksApart (s : PoolState ι) : Prop where
  nodup : ∀ q, (s.holds q).Nodup
  blocks : ∀ q r, ∀ p ∈ s.holds q, ∀ p' ∈ s.holds r, (q, p) ≠ (r, p') →
    Disjoint (s.bytes p) (s.bytes p')
  headers : ∀ q, ∀ p ∈ s.holds q, ∀ c n, s.Span c n → Disjoint (s.bytes p) (spanHeaderBytes c)
  segments : ∀ q, ∀ p ∈ s.holds q, ∀ b ∈ s.chunks.pool.mapped,
    Disjoint (s.bytes p) (chunkBytes (b * memopSegSpans) 1)
  mapped : ∀ q, ∀ p ∈ s.holds q,
    (∃ b ∈ s.chunks.pool.mapped, s.bytes p ⊆ chunkBytes (b * memopSegSpans) memopSegSpans) ∨
      ∃ x ∈ s.mappings, s.bytes p ⊆ chunkBytes x.1 x.2

omit [DecidableEq ι] in
theorem PoolOk.blocksApart {s : PoolState ι} (h : PoolOk s) : BlocksApart s := by
  obtain ⟨D, hD⟩ := h.stored
  constructor
  · exact hD.shelved.nodup
  · intro q r p hp p' hp' hne
    apply hD.bytes_disjoint (hD.shelved.mem hp) (hD.shelved.mem hp')
    rintro rfl
    exact hne (Prod.ext (hD.shelved.once q r p hp hp') rfl)
  · exact fun q p hp c n hc => hD.header_disjoint (hD.shelved.mem hp) hc
  · exact fun q p hp b hb => hD.segment_disjoint (hD.shelved.mem hp) hb
  · exact fun q p hp => hD.bytes_mapped (hD.shelved.mem hp)

instance (s : PoolState ι) : (l : PoolCall ι) → Decidable (MapsUserSpace s l)
  | .calloc .. => inferInstanceAs (Decidable True)
  | .pool l => inferInstanceAs (Decidable (InUserSpace s l))

end Xplatbase.MemoryPool
