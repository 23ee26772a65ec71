import Mathlib.Algebra.BigOperators.Group.Finset.Basic
import Mathlib.Algebra.Order.BigOperators.Group.Finset
import Xplatbase.Memory.HeapInvariant

/-! A heap of one class whose blocks are all free gives them all again. The full list starts with
the spans that wait for a drain, and the spans that get spent meanwhile go behind them, so the first
probe always finds blocks while there are some. -/
namespace Xplatbase.Memory.Heap
open Xplatbase.Lib

/-- The blocks that the span has to give, its remote list included. -/
def SpanHead.spare (x : SpanHead) : ℕ :=
  x.localFree.length + x.remoteFree.length + (x.blockCount - x.bumpIdx)

/-- `P` are the full spans that wait for a drain, `R` the ones parked behind them; the spans
outside `R` have `need` blocks to give. -/
structure Stock (h : MemHeap) (c : ℕ) (ls : Option ℕ → List ℕ) (P R : List ℕ) (need : ℕ) :
    Prop where
  good : HeapGood h ls
  classes : ∀ a ∈ h.owned, (h.head a).classId = c
  full : ls none = P ++ R
  pending : ∀ a ∈ P, (h.head a).remoteFree ≠ []
  enough : need ≤ ∑ a ∈ h.owned.filter (· ∉ R), (h.head a).spare

/-- Where the owner stands in a refill for class `c` that will find a block. -/
def Aims (c : ℕ) (P : List ℕ) : HeapPc → Prop
  | .idle => True
  | .create _ => False
  | .drain d .classList _ => d = c
  | .take d .classList _ => d = c
  | .drain d (.full ..) _ => d = c ∧ P ≠ []
  | .take d (.full ..) _ => d = c ∧ P ≠ []

def refillWork (ls : Option ℕ → List ℕ) : HeapPc → ℕ
  | .idle => 0
  | .create _ => 0
  | .drain c .classList _ => (ls (some c)).length + 2
  | .drain _ (.full ..) _ => 2
  | .take .. => 1

/-- A step of an allocation with `need` blocks to spare beside the one it looks for: the block is
given, or the search goes on, at most `w` steps long. -/
def Advances (h h' : MemHeap) (c need w : ℕ) : Prop :=
  h'.owned = h.owned ∧ h'.spanAllocs = h.spanAllocs ∧ ∃ ls P R,
    (h'.pc = .idle ∧ (∃ p, h'.given = some p :: h.given) ∧ Stock h' c ls P R need) ∨
      (h'.pc ≠ .idle ∧ h'.given = h.given ∧ Stock h' c ls P R (need + 1) ∧ Aims c P h'.pc ∧
        refillWork ls h'.pc ≤ w)

theorem sum_eq_succ {s : Finset ℕ} {f g : ℕ → ℕ} {a : ℕ} (ha : a ∈ s) (hself : f a = g a + 1)
    (hother : ∀ d ∈ s, d ≠ a → f d = g d) : ∑ d ∈ s, f d = ∑ d ∈ s, g d + 1 := by
  have hrest : ∑ d ∈ s.erase a, f d = ∑ d ∈ s.erase a, g d := by
    apply Finset.sum_congr rfl
    intro d hd
    exact hother d (Finset.mem_of_mem_erase hd) (Finset.ne_of_mem_erase hd)
  rw [← Finset.add_sum_erase s f ha, ← Finset.add_sum_erase s g ha, hself, hrest]
  omega

namespace Stock

variable {h : MemHeap} {c need a b : ℕ} {ls : Option ℕ → List ℕ} {P R : List ℕ} {x : SpanHead}

/-- The first span of the class is not on the full list. -/
theorem first_notMem (hs : Stock h c ls P R need) (ha : h.spans c = some a) : a ∉ P ++ R := by
  intro hin
  rw [← hs.full] at hin
  have hnone := ((hs.good.lists.mem a none).mp hin).2
  rw [(hs.good.lists.mem_of_first ha).2] at hnone
  exact Option.some_ne_none c hnone

/-- The first span of the class gives a block, after `x` is written to its header. -/
theorem give (hs : Stock h c ls P R (need + 1)) (ha : h.spans c = some a)
    (hx : x.home = (h.head a).home) (hclass : x.classId = (h.head a).classId)
    (hw : SpanWf { x with used := x.used + 1, live := b :: x.live })
    (hspare : (h.head a).spare = x.spare + 1) :
    Stock ((h.setHead a x).give a b) c ls P R need := by
  have hnot := hs.first_notMem ha
  have hself : ((h.setHead a x).give a b).head a =
      { x with used := x.used + 1, live := b :: x.live } := by
    simp only [MemHeap.give, MemHeap.setHead, Function.update_self]
  have hother : ∀ d, d ≠ a → ((h.setHead a x).give a b).head d = h.head d := by
    intro d hd
    simp only [MemHeap.give, MemHeap.setHead, Function.update_of_ne hd]
  constructor
  · exact hs.good.give hx hw
  · intro d hd
    by_cases hda : d = a
    · rw [hda, hself]
      exact hclass.trans (hs.classes a (hs.good.lists.mem_of_first ha).1)
    · rw [hother d hda]
      exact hs.classes d hd
  · exact hs.full
  · intro d hd
    rw [hother d fun hda => hnot (List.mem_append_left _ (hda ▸ hd))]
    exact hs.pending d hd
  · have hsum : ∑ d ∈ h.owned.filter (· ∉ R), (h.head d).spare =
        ∑ d ∈ h.owned.filter (· ∉ R), (((h.setHead a x).give a b).head d).spare + 1 := by
      apply sum_eq_succ (a := a)
      · apply Finset.mem_filter.mpr
        exact ⟨(hs.good.lists.mem_of_first ha).1, fun hr => hnot (List.mem_append_right _ hr)⟩
      · rw [hself, hspare]
        rfl
      · intro d _ hda
        rw [hother d hda]
    have henough := hs.enough
    rw [hsum] at henough
    exact Nat.le_of_succ_le_succ henough

theorem giveLocal (hs : Stock h c ls P R (need + 1)) (ha : h.spans c = some a) {rest : List ℕ}
    (hb : (h.head a).localFree = b :: rest) :
    Stock ((h.setHead a { h.head a with localFree := rest }).give a b) c ls P R need := by
  have hw := (hs.good.wf a (hs.good.lists.mem_of_first ha).1).giveLocal hb
  refine hs.give ha rfl rfl hw ?_
  unfold SpanHead.spare
  rw [hb, List.length_cons]
  dsimp only
  omega

theorem giveBump (hs : Stock h c ls P R (need + 1)) (ha : h.spans c = some a) (b : ℕ)
    (hlt : (h.head a).bumpIdx < (h.head a).blockCount) :
    Stock ((h.setHead a { h.head a with bumpIdx := (h.head a).bumpIdx + 1 }).give a b)
      c ls P R need := by
  have hw := (hs.good.wf a (hs.good.lists.mem_of_first ha).1).giveBump b hlt
  refine hs.give ha rfl rfl hw ?_
  unfold SpanHead.spare
  dsimp only
  omega

theorem advances_local (hs : Stock h c ls P R (need + 1)) (ha : h.spans c = some a)
    (hne : (h.head a).localFree ≠ []) (w : ℕ) : Advances h (refillLocal h c a) c need w := by
  obtain ⟨b, rest, hb⟩ := List.exists_cons_of_ne_nil hne
  rw [refillLocal_first ha hb]
  exact ⟨rfl, rfl, ls, P, R, Or.inl ⟨rfl, ⟨(a, b), rfl⟩, hs.giveLocal ha hb⟩⟩

theorem moveTo (hs : Stock h c ls P R need) (pc : HeapPc) :
    Stock { h with pc := pc } c ls P R need where
  good := ⟨hs.good.lists.records _ _ _ _, hs.good.wf⟩
  classes := hs.classes
  full := hs.full
  pending := hs.pending
  enough := hs.enough

/-- While blocks are left and the class list is empty, some full span waits for a drain. -/
theorem pending_ne_nil (hs : Stock h c ls P R (need + 1)) (hnone : h.spans c = none) : P ≠ [] := by
  rintro rfl
  have hall : h.owned.filter (· ∉ R) = ∅ := by
    apply Finset.filter_eq_empty_iff.mpr
    intro a ha
    rw [not_not]
    have hfull : (h.head a).home = none := by
      cases hst : (h.head a).state with
      | full => exact SpanHead.home_full hst
      | available =>
        have hhome := SpanHead.home_available hst
        rw [hs.classes a ha] at hhome
        have hin := (hs.good.lists.mem a (some c)).mpr ⟨ha, hhome⟩
        rw [hs.good.lists.first, List.head?_eq_none_iff] at hnone
        rw [hnone] at hin
        exact absurd hin List.not_mem_nil
    have hin := (hs.good.lists.mem a none).mpr ⟨ha, hfull⟩
    rw [hs.full] at hin
    exact hin
  have henough := hs.enough
  rw [hall, Finset.sum_empty] at henough
  exact absurd henough (Nat.not_succ_le_zero need)

theorem advances_from (hs : Stock h c ls P R (need + 1)) :
    Advances h (refillFrom h c (h.spans c)) c need ((ls (some c)).length + 2) := by
  cases ha : h.spans c with
  | none =>
    have hP := hs.pending_ne_nil ha
    obtain ⟨fs, P', rfl⟩ := List.exists_cons_of_ne_nil hP
    have hfirst : h.fullHead = some fs := by
      rw [hs.good.lists.fullFirst, hs.full]
      rfl
    have hprobe : refillFrom h c none = { h with pc := .drain c (.full 0 fs) fs } := by
      simp only [refillFrom, refillProbe, hfirst, memopFullScanK, Nat.zero_lt_two, if_true,
        reduceCtorEq, if_false, Option.getD_none]
    rw [hprobe]
    exact ⟨rfl, rfl, ls, fs :: P', R,
      Or.inr ⟨HeapPc.noConfusion, rfl, hs.moveTo _, ⟨rfl, hP⟩, Nat.le_add_left ..⟩⟩
  | some a =>
    obtain ⟨hd, -⟩ := hs.good.lists.mem_of_first ha
    simp only [refillFrom]
    split_ifs with hne hlt
    · exact hs.advances_local ha hne _
    · rw [refillGot_first (by exact ha)]
      exact ⟨rfl, rfl, ls, P, R, Or.inl ⟨rfl, ⟨_, rfl⟩, hs.giveBump ha _ hlt⟩⟩
    · exact ⟨rfl, rfl, ls, P, R,
        Or.inr ⟨HeapPc.noConfusion, rfl, hs.moveTo _, rfl, Nat.le_refl _⟩⟩

/-- A spent span is parked behind the others; it has nothing to give. -/
theorem retire (hs : Stock h c ls P R need) (ha : h.spans c = some a) (hspent : (h.head a).Spent)
    (hr : (h.head a).remoteFree = []) :
    Stock (heapFullPushTail (heapListUnlink h c a) a) c (retire ls c a) P (R ++ [a]) need := by
  have hnot := hs.first_notMem ha
  have hself : (heapFullPushTail (heapListUnlink h c a) a).head a =
      { h.head a with state := .full } := Function.update_self ..
  have hother : ∀ d, d ≠ a → (heapFullPushTail (heapListUnlink h c a) a).head d = h.head d := by
    intro d hd
    exact Function.update_of_ne hd ..
  constructor
  · exact hs.good.retire ha hspent
  · intro d hd
    by_cases hda : d = a
    · rw [hda, hself]
      exact hs.classes a (hs.good.lists.mem_of_first ha).1
    · rw [hother d hda]
      exact hs.classes d hd
  · rw [Heap.retire, Function.update_self, hs.full, List.append_assoc]
  · intro d hd
    rw [hother d fun hda => hnot (List.mem_append_left _ (hda ▸ hd))]
    exact hs.pending d hd
  · have hzero : (h.head a).spare = 0 := by
      unfold SpanHead.spare
      rw [hspent.1, hr, hspent.2]
      simp only [List.length_nil, Nat.sub_self]
    have hsum : ∑ d ∈ h.owned.filter (· ∉ R), (h.head d).spare =
        ∑ d ∈ h.owned.filter (· ∉ R ++ [a]),
          ((heapFullPushTail (heapListUnlink h c a) a).head d).spare := by
      symm
      apply Finset.sum_subset_zero_on_sdiff
      · intro d hd
        obtain ⟨hd, hdR⟩ := Finset.mem_filter.mp hd
        exact Finset.mem_filter.mpr ⟨hd, fun hr => hdR (List.mem_append_left _ hr)⟩
      · intro d hd
        obtain ⟨hd, hout⟩ := Finset.mem_sdiff.mp hd
        obtain ⟨hd, hdR⟩ := Finset.mem_filter.mp hd
        have hda : d = a := by
          by_contra hne
          apply hout
          refine Finset.mem_filter.mpr ⟨hd, fun hin => ?_⟩
          rcases List.mem_append.mp hin with hin | hin
          · exact hdR hin
          · exact hne (List.mem_singleton.mp hin)
        rw [hda]
        exact hzero
      · intro d hd
        have hda : d ≠ a := by
          rintro rfl
          exact (Finset.mem_filter.mp hd).2 (List.mem_append_right _ (List.mem_singleton_self d))
        rw [hother d hda]
    have henough := hs.enough
    rw [hsum] at henough
    exact henough

/-- One header changes, of a span that gives no fewer blocks than before. -/
theorem of_head (hs : Stock h c ls P R need) (h' : MemHeap) {ls' : Option ℕ → List ℕ} {P' : List ℕ}
    (hg : HeapGood h' ls') (ho : h'.owned = h.owned) (hfull : ls' none = P' ++ R)
    (hother : ∀ d, d ≠ a → h'.head d = h.head d)
    (hclass : (h'.head a).classId = (h.head a).classId)
    (hpend : ∀ d ∈ P', d ∈ P ∧ (d = a → (h'.head a).remoteFree ≠ []))
    (hspare : (h.head a).spare ≤ (h'.head a).spare) : Stock h' c ls' P' R need := by
  constructor
  · exact hg
  · intro d hd
    rw [ho] at hd
    by_cases hda : d = a
    · rw [hda] at hd ⊢
      exact hclass.trans (hs.classes a hd)
    · rw [hother d hda]
      exact hs.classes d hd
  · exact hfull
  · intro d hd
    obtain ⟨hdP, hra⟩ := hpend d hd
    by_cases hda : d = a
    · rw [hda]
      exact hra hda
    · rw [hother d hda]
      exact hs.pending d hdP
  · rw [ho]
    apply hs.enough.trans
    apply Finset.sum_le_sum
    intro d _
    by_cases hda : d = a
    · rw [hda]
      exact hspare
    · rw [hother d hda]

theorem spare_take (h : MemHeap) (a : ℕ) :
    ((spanTakeRemote h a).head a).spare = (h.head a).spare := by
  rw [spanTakeRemote_self]
  unfold SpanHead.spare
  simp only [List.length_append, List.length_reverse, List.length_nil]
  omega

/-- The remote list of the first span of the class is taken. -/
theorem takeFirst (hs : Stock h c ls P R need) (ha : h.spans c = some a) :
    Stock (spanTakeRemote h a) c ls P R need := by
  have hnot := hs.first_notMem ha
  apply hs.of_head (spanTakeRemote h a) (hs.good.takeFirst ha) rfl hs.full
    fun d hd => MemHeap.setHead_of_ne h _ hd
  · rw [spanTakeRemote_self]
  · intro d hd
    exact ⟨hd, fun hda => absurd (List.mem_append_left R (hda ▸ hd)) hnot⟩
  · rw [spare_take]

/-- The remote list of the first full span is taken, and the span goes back to its class. -/
theorem reviveFull (hs : Stock h c ls (a :: P) R need) (ha : h.fullHead = some a) :
    Stock (reviveFull h a) c (reactivate ls c a) P R need := by
  have hd := (hs.good.lists.mem_of_fullFirst ha).1
  have hnodup := hs.good.lists.lists.nodup none
  rw [hs.full, List.cons_append, List.nodup_cons] at hnodup
  have hg := hs.good.reviveFull ha
  rw [hs.classes a hd] at hg
  have hfull : reactivate ls c a none = P ++ R := by
    rw [reactivate, Function.update_of_ne (Option.some_ne_none c).symm, Function.update_self,
      hs.full, List.cons_append, List.erase_cons_head]
  apply hs.of_head (Heap.reviveFull h a) hg rfl hfull fun d hd => reviveFull_of_ne h hd
  · rw [reviveFull_self, spanTakeRemote_self]
  · intro d hdP
    refine ⟨List.mem_cons_of_mem _ hdP, fun hda => ?_⟩
    exact absurd (List.mem_append_left R (hda ▸ hdP)) hnodup.1
  · rw [reviveFull_self, ← spare_take h a]
    rfl

theorem remotePush (hs : Stock h c ls P R need) (ha : a ∈ h.owned) (hb : b ∈ (h.head a).live) :
    Stock (remotePush h a b) c ls P R need := by
  have hself : (Heap.remotePush h a b).head a =
      { h.head a with remoteFree := b :: (h.head a).remoteFree, live := (h.head a).live.erase b } :=
    MemHeap.setHead_self ..
  apply hs.of_head (Heap.remotePush h a b) (hs.good.remotePush ha hb) rfl hs.full
    fun d hd => MemHeap.setHead_of_ne h _ hd
  · rw [hself]
  · intro d hd
    rw [hself]
    exact ⟨hd, fun _ => List.cons_ne_nil b _⟩
  · rw [hself]
    unfold SpanHead.spare
    rw [List.length_cons]
    dsimp only
    omega

/-- The first of the pending spans is the first of the full list. -/
theorem exists_pending (hs : Stock h c ls P R need) (hP : P ≠ []) (ha : h.fullHead = some a) :
    ∃ P', P = a :: P' := by
  obtain ⟨d, P', rfl⟩ := List.exists_cons_of_ne_nil hP
  rw [hs.good.lists.fullFirst, hs.full] at ha
  obtain rfl : d = a := Option.some.inj ha
  exact ⟨P', rfl⟩

theorem length_le (hs : Stock h c ls P R need) : (ls (some c)).length ≤ h.owned.card := by
  rw [← List.toFinset_card_of_nodup (hs.good.lists.lists.nodup (some c))]
  apply Finset.card_le_card
  intro a ha
  exact ((hs.good.lists.mem a _).mp (List.mem_toFinset.mp ha)).1

theorem advances_alloc (hs : Stock h c ls P R (need + 1)) :
    Advances h (memopAllocRaw h c) c need ((ls (some c)).length + 2) := by
  have hfrom := hs.advances_from
  unfold memopAllocRaw
  cases ha : h.spans c with
  | none =>
    rw [ha] at hfrom
    exact hfrom
  | some a =>
    rw [ha] at hfrom
    simp only
    split
    · next b rest hb =>
      exact ⟨rfl, rfl, ls, P, R, Or.inl ⟨rfl, ⟨_, rfl⟩, hs.giveLocal ha hb⟩⟩
    · split_ifs with hlt
      · exact ⟨rfl, rfl, ls, P, R, Or.inl ⟨rfl, ⟨_, rfl⟩, hs.giveBump ha _ hlt⟩⟩
      · exact hfrom

/-- A step of `memop_refill` gives the block or comes closer to it. -/
theorem advances_owner (hs : Stock h c ls P R (need + 1)) (haim : Aims c P h.pc)
    (hpc : PcOk h h.pc) (hne : h.pc ≠ .idle) {chunk : Option ℕ} {h' : MemHeap}
    (hstep : memopRefill h chunk = some h') :
    ∃ w, refillWork ls h.pc = w + 1 ∧ Advances h h' c need w := by
  unfold memopRefill at hstep
  match hat : h.pc with
  | .idle => exact absurd hat hne
  | .create d =>
    rw [hat] at haim
    exact haim.elim
  | .drain d .classList a =>
    rw [hat] at haim hpc
    obtain rfl : d = c := haim
    obtain ⟨-, ha, hspent⟩ := hpc
    refine ⟨(ls (some d)).length + 1, rfl, ?_⟩
    simp only [hat, Option.some.injEq] at hstep
    split_ifs at hstep with hr
    · have hin : a ∈ ls (some d) :=
        (hs.good.lists.mem a _).mpr (hs.good.lists.mem_of_first ha)
      have hlen : (Heap.retire ls d a (some d)).length + 2 = (ls (some d)).length + 1 := by
        have hpos := List.length_pos_of_mem hin
        rw [Heap.retire, Function.update_of_ne (Option.some_ne_none d), Function.update_self,
          List.length_erase_of_mem hin]
        omega
      have hfrom := (hs.retire ha hspent hr).advances_from
      rw [hlen, hs.good.lists.next_first ha] at hfrom
      rw [← hstep]
      exact hfrom
    · rw [← hstep]
      exact ⟨rfl, rfl, ls, P, R,
        Or.inr ⟨HeapPc.noConfusion, rfl, hs.moveTo _, rfl, Nat.le_add_left ..⟩⟩
  | .drain d (.full k start) a =>
    rw [hat] at haim hpc
    obtain ⟨rfl, hP⟩ := haim
    obtain ⟨P', rfl⟩ := hs.exists_pending hP hpc.2
    have hr := hs.pending a List.mem_cons_self
    refine ⟨1, rfl, ?_⟩
    simp only [hat, Option.some.injEq] at hstep
    rw [if_neg hr] at hstep
    rw [← hstep]
    exact ⟨rfl, rfl, ls, a :: P', R,
      Or.inr ⟨HeapPc.noConfusion, rfl, hs.moveTo _, ⟨rfl, hP⟩, Nat.le_refl 1⟩⟩
  | .take d .classList a =>
    rw [hat] at haim hpc
    obtain rfl : d = c := haim
    obtain ⟨-, ha, -, hr⟩ := hpc
    refine ⟨0, rfl, ?_⟩
    simp only [hat, Option.some.injEq] at hstep
    rw [← hstep]
    exact (hs.takeFirst ha).advances_local ha (spanTakeRemote_local hr) 0
  | .take d (.full k start) a =>
    rw [hat] at haim hpc
    obtain ⟨rfl, hP⟩ := haim
    obtain ⟨-, ha, hr⟩ := hpc
    obtain ⟨P', rfl⟩ := hs.exists_pending hP ha
    have hs' := hs.reviveFull ha
    have hd : a ∈ h.owned := (hs.good.lists.mem_of_fullFirst ha).1
    have hclass : ((Heap.reviveFull h a).head a).classId = d := hs'.classes a hd
    have hspans := reviveFull_spans h a
    rw [hclass] at hspans
    have hlocal : ((Heap.reviveFull h a).head a).localFree ≠ [] := by
      rw [reviveFull_self]
      exact spanTakeRemote_local hr
    refine ⟨0, rfl, ?_⟩
    simp only [hat, Option.some.injEq] at hstep
    have hlast : h' = refillLocal (Heap.reviveFull h a) d a := by
      rw [← hstep]
      exact if_pos hclass
    rw [hlast]
    exact hs'.advances_local hspans hlocal 0

end Stock

/-- The labels of a run in which the owner does nothing but allocate from class `c`. -/
def HeapLabel.Allocates (c : ℕ) : HeapLabel → Prop
  | .alloc d => d = c
  | .owner _ => True
  | .free .. => False
  | .remoteFree .. => True

def HeapLabel.isAlloc : HeapLabel → Bool
  | .alloc _ => true
  | _ => false

def HeapLabel.isOwner : HeapLabel → Bool
  | .owner _ => true
  | _ => false

/-- What holds after `n` allocations were begun and the owner made `k` steps since `h₀`, whose spans
have `m` blocks. -/
structure Recovery (h₀ h : MemHeap) (c m n k : ℕ) : Prop where
  owned : h.owned = h₀.owned
  spanAllocs : h.spanAllocs = h₀.spanAllocs
  inv : HeapInv h
  progress : ∃ ls P R, ∃ got : List (ℕ × ℕ), h.given = got.map some ++ h₀.given ∧
    Stock h c ls P R (m - got.length) ∧ Aims c P h.pc ∧
    n = (if h.pc = .idle then got.length else got.length + 1) ∧
    k + refillWork ls h.pc ≤ n * (h₀.owned.card + 2)

namespace Recovery

variable {h₀ h h' : MemHeap} {c m n k : ℕ}

/-- After a step of an allocation for which there is a block. -/
theorem advance (hr : Recovery h₀ h c m n k) {got : List (ℕ × ℕ)}
    (hgot : h.given = got.map some ++ h₀.given) (hi : HeapInv h') {need w k' : ℕ}
    (hneed : m - got.length = need + 1) (ha : Advances h h' c need w)
    (hw : k' + w ≤ (got.length + 1) * (h₀.owned.card + 2)) :
    Recovery h₀ h' c m (got.length + 1) k' := by
  obtain ⟨howned, hallocs, ls, P, R, hserved | hgoes⟩ := ha
  · obtain ⟨hidle, ⟨p, hp⟩, hs⟩ := hserved
    refine ⟨howned.trans hr.owned, hallocs.trans hr.spanAllocs, hi, ls, P, R, p :: got, ?_, ?_, ?_,
      ?_, ?_⟩
    · rw [hp, hgot]
      rfl
    · have hneed' : m - (p :: got).length = need := by
        rw [List.length_cons]
        omega
      rw [hneed']
      exact hs
    · rw [hidle]
      trivial
    · rw [if_pos hidle]
      rfl
    · rw [hidle]
      exact (Nat.add_le_add_left (Nat.zero_le w) k').trans hw
  · obtain ⟨hne, hgiven, hs, haim, hwork⟩ := hgoes
    refine ⟨howned.trans hr.owned, hallocs.trans hr.spanAllocs, hi, ls, P, R, got,
      hgiven.trans hgot, ?_, haim, ?_, (Nat.add_le_add_left hwork k').trans hw⟩
    · rw [hneed]
      exact hs
    · rw [if_neg hne]

theorem alloc (hr : Recovery h₀ h c m n k) (hn : n + 1 ≤ m)
    (hstep : heapStep h (.alloc c) = some h') : Recovery h₀ h' c m (n + 1) k := by
  have hi := hr.inv.step hstep
  simp only [heapStep] at hstep
  split_ifs at hstep with hok
  obtain ⟨ls, P, R, got, hgot, hs, -, hcount, hwork⟩ := hr.progress
  rw [if_pos hok.1] at hcount
  subst hcount
  obtain ⟨need, hneed⟩ : ∃ need, m - got.length = need + 1 := ⟨m - got.length - 1, by omega⟩
  rw [hneed] at hs
  rw [← Option.some.inj hstep] at hi ⊢
  apply hr.advance hgot hi hneed hs.advances_alloc
  have hlen := hs.length_le
  rw [hr.owned] at hlen
  have hk : k ≤ got.length * (h₀.owned.card + 2) := (Nat.le_add_right k _).trans hwork
  rw [Nat.succ_mul]
  omega

theorem owner (hr : Recovery h₀ h c m n k) (hn : n ≤ m) {chunk : Option ℕ}
    (hstep : heapStep h (.owner chunk) = some h') : Recovery h₀ h' c m n (k + 1) := by
  have hi := hr.inv.step hstep
  obtain ⟨ls, P, R, got, hgot, hs, haim, hcount, hwork⟩ := hr.progress
  have hne : h.pc ≠ .idle := by
    intro hidle
    simp only [heapStep, memopRefill, hidle, reduceCtorEq] at hstep
  rw [if_neg hne] at hcount
  subst hcount
  obtain ⟨need, hneed⟩ : ∃ need, m - got.length = need + 1 := ⟨m - got.length - 1, by omega⟩
  rw [hneed] at hs
  obtain ⟨w, hw, hadv⟩ := hs.advances_owner haim hr.inv.pc hne hstep
  apply hr.advance hgot hi hneed hadv
  rw [hw] at hwork
  omega

theorem remoteFree (hr : Recovery h₀ h c m n k) {a b : ℕ}
    (hstep : heapStep h (.remoteFree a b) = some h') : Recovery h₀ h' c m n k := by
  have hi := hr.inv.step hstep
  simp only [heapStep] at hstep
  split_ifs at hstep with hok
  rw [← Option.some.inj hstep] at hi ⊢
  obtain ⟨ls, P, R, got, hgot, hs, haim, hcount, hwork⟩ := hr.progress
  exact ⟨hr.owned, hr.spanAllocs, hi, ls, P, R, got, hgot, hs.remotePush hok.1 hok.2, haim, hcount,
    hwork⟩

theorem run {tr : List HeapLabel} (hr : Recovery h₀ h c m n k)
    (htr : ∀ l ∈ tr, l.Allocates c) (hn : n + tr.countP HeapLabel.isAlloc ≤ m)
    (hexec : heapSystem.exec h tr = some h') :
    Recovery h₀ h' c m (n + tr.countP HeapLabel.isAlloc) (k + tr.countP HeapLabel.isOwner) := by
  induction tr generalizing h n k with
  | nil =>
    obtain rfl : h = h' := Option.some.inj hexec
    exact hr
  | cons l tr ih =>
    rw [System.exec, System.execWhen, if_pos trivial] at hexec
    obtain ⟨h₁, hstep, hrest⟩ := Option.bind_eq_some_iff.mp hexec
    have htl : ∀ l ∈ tr, l.Allocates c := fun l hl => htr l (List.mem_cons_of_mem _ hl)
    rw [List.countP_cons] at hn ⊢
    rw [List.countP_cons]
    cases l with
    | alloc d =>
      obtain rfl : d = c := htr _ List.mem_cons_self
      simp only [HeapLabel.isAlloc, HeapLabel.isOwner, if_true, Bool.false_eq_true, if_false,
        Nat.add_zero] at hn ⊢
      have hnext := ih (hr.alloc (by omega) hstep) htl (by omega) hrest
      rw [Nat.add_right_comm] at hnext
      exact hnext
    | owner chunk =>
      simp only [HeapLabel.isAlloc, HeapLabel.isOwner, if_true, Bool.false_eq_true, if_false,
        Nat.add_zero] at hn ⊢
      have hnext := ih (hr.owner (by omega) hstep) htl hn hrest
      rw [Nat.add_right_comm] at hnext
      exact hnext
    | free a b => exact (htr _ List.mem_cons_self).elim
    | remoteFree a b => exact ih (hr.remoteFree hstep) htl hn hrest

end Recovery

/-- A span none of whose blocks is live has them all to give. -/
theorem SpanWf.spare_eq {x : SpanHead} (hx : SpanWf x) (hlive : x.live = []) :
    x.spare = x.blockCount := by
  have hblocks := hx.blocks
  have hbump := hx.bump
  rw [hlive, List.length_nil] at hblocks
  unfold SpanHead.spare
  omega

/-- With no block live, every full span waits for a drain. -/
theorem HeapGood.stock {h : MemHeap} {ls : Option ℕ → List ℕ} (hg : HeapGood h ls) {c : ℕ}
    (hclass : ∀ a ∈ h.owned, (h.head a).classId = c) (hlive : ∀ a ∈ h.owned, (h.head a).live = []) :
    Stock h c ls (ls none) [] (∑ a ∈ h.owned, (h.head a).blockCount) := by
  constructor
  · exact hg
  · exact hclass
  · rw [List.append_nil]
  · intro a ha hr
    obtain ⟨hd, hhome⟩ := (hg.lists.mem a none).mp ha
    have hw := hg.wf a hd
    obtain ⟨hlocal, hbump⟩ := hw.full (SpanHead.home_eq_none.mp hhome)
    have hblocks := hw.blocks
    rw [hlocal, hr, hlive a hd, hbump, hw.counted] at hblocks
    exact absurd hblocks (Nat.ne_of_lt (spanBlockCount_bounds hw.known).1)
  · rw [Finset.filter_true_of_mem fun a _ => List.not_mem_nil]
    apply Finset.sum_le_sum
    intro a ha
    rw [(hg.wf a ha).spare_eq (hlive a ha)]

/-- From a state of an idle heap of class `c` whose blocks are all free, the allocations that its
spans have blocks for create no span and return a block each, in a bounded number of steps, also
while other threads free what has been given. -/
theorem heapSystem_recovers {h h' : MemHeap} {c : ℕ} {tr : List HeapLabel}
    (hr : heapSystem.Reachable h) (hidle : h.pc = .idle)
    (hclass : ∀ a ∈ h.owned, (h.head a).classId = c) (hlive : ∀ a ∈ h.owned, (h.head a).live = [])
    (htr : ∀ l ∈ tr, l.Allocates c)
    (hcount : tr.countP HeapLabel.isAlloc ≤ ∑ a ∈ h.owned, (h.head a).blockCount)
    (hexec : heapSystem.exec h tr = some h') :
    h'.owned = h.owned ∧ h'.spanAllocs = h.spanAllocs ∧ (∀ d, h'.pc ≠ .create d) ∧
      (∃ got : List (ℕ × ℕ), h'.given = got.map some ++ h.given ∧
        (h'.pc = .idle → got.length = tr.countP HeapLabel.isAlloc)) ∧
      tr.countP HeapLabel.isOwner ≤ tr.countP HeapLabel.isAlloc * (h.owned.card + 2) ∧
      (h'.pc ≠ .idle → ∃ h'', heapStep h' (.owner none) = some h'') := by
  have hi := heapSystem_inv hr
  obtain ⟨ls, hg⟩ := hi.good
  have hstart : Recovery h h c (∑ a ∈ h.owned, (h.head a).blockCount) 0 0 := by
    refine ⟨rfl, rfl, hi, ls, ls none, [], [], rfl, hg.stock hclass hlive, ?_, ?_, ?_⟩
    · rw [hidle]
      trivial
    · rw [if_pos hidle]
      rfl
    · rw [hidle]
      exact Nat.zero_le _
  have hend := hstart.run htr (by rwa [Nat.zero_add]) hexec
  rw [Nat.zero_add, Nat.zero_add] at hend
  obtain ⟨ls', P, R, got, hgot, hs, haim, hn, hwork⟩ := hend.progress
  refine ⟨hend.owned, hend.spanAllocs, ?_, ⟨got, hgot, ?_⟩, ?_, ?_⟩
  · intro d hd
    rw [hd] at haim
    exact haim
  · intro hdone
    rw [if_pos hdone] at hn
    exact hn.symm
  · exact (Nat.le_add_right ..).trans hwork
  · intro hne
    unfold heapStep memopRefill
    match hat : h'.pc with
    | .idle => exact absurd hat hne
    | .drain d site a => exact ⟨_, rfl⟩
    | .take d site a => exact ⟨_, rfl⟩
    | .create d =>
      rw [hat] at haim
      exact haim.elim

/-- The four blocks of two spans, one of them parked, are freed by other threads; then six blocks
are given, the first of them never given before. -/
theorem heapSystem_recovers_six :
    ∃ h h' : MemHeap, heapSystem.Reachable h ∧ (∀ a ∈ h.owned, (h.head a).live = []) ∧
      h'.owned = h.owned ∧ h'.spanAllocs = h.spanAllocs ∧
      ∃ got : List (ℕ × ℕ), h'.given = got.map some ++ h.given := by
  let again : List HeapLabel :=
    [.alloc 35, .alloc 35, .alloc 35, .owner none, .owner none, .alloc 35, .owner none,
      .owner none, .owner none, .alloc 35, .alloc 35]
  have hrun : (heapSystem.exec heapNew
      [.alloc 35, .owner (some 0), .alloc 35, .alloc 35, .alloc 35, .owner none, .owner none,
        .owner (some 1), .remoteFree 0 1, .remoteFree 1 0, .remoteFree 0 0, .remoteFree 0 2]).map
      (fun h => (decide (h.pc = .idle ∧ (∀ a ∈ h.owned, (h.head a).classId = 35) ∧
        (∀ a ∈ h.owned, (h.head a).live = []) ∧
        again.countP HeapLabel.isAlloc ≤ ∑ a ∈ h.owned, (h.head a).blockCount),
        (heapSystem.exec h again).isSome)) =
      some (true, true) := by
    decide +kernel
  obtain ⟨h, hexec, hready⟩ := Option.map_eq_some_iff.mp hrun
  obtain ⟨hok, hmore⟩ := Prod.mk.inj hready
  obtain ⟨hidle, hclass, hlive, hcount⟩ := of_decide_eq_true hok
  obtain ⟨h', hexec'⟩ := Option.isSome_iff_exists.mp hmore
  have hinit : heapSystem.init heapNew := ⟨_, _, _, rfl⟩
  have hreach : heapSystem.Reachable h := (System.ReachableWhen.init hinit).exec hexec
  have htr : ∀ l ∈ again, l.Allocates 35 := by
    simp only [again, List.forall_mem_cons, HeapLabel.Allocates, List.not_mem_nil,
      IsEmpty.forall_iff, implies_true, and_self]
  obtain ⟨howned, hallocs, -, ⟨got, hgot, -⟩, -, -⟩ :=
    heapSystem_recovers hreach hidle hclass hlive htr hcount hexec'
  exact ⟨h, h', hreach, hlive, howned, hallocs, got, hgot⟩

end Xplatbase.Memory.Heap
