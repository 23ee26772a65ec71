import Xplatbase.Memory.HeapLists

/-! The lists of a heap agree with the states of its spans, over any run of the owner and of the
threads that free its blocks. -/
namespace Xplatbase.Memory.Heap
open Xplatbase.Lib

/-- The header of a span in use: its blocks ever given are free on one of the lists or live. -/
structure SpanWf (x : SpanHead) : Prop where
  known : x.classId < memopClassCount
  counted : x.blockCount = spanBlockCount x.classId
  blocks : x.localFree.length + x.remoteFree.length + x.live.length = x.bumpIdx
  bump : x.bumpIdx ≤ x.blockCount
  used : x.used = BitVec.ofNat 32 (x.remoteFree.length + x.live.length)
  full : x.state = .full → x.localFree = [] ∧ x.bumpIdx = x.blockCount

/-- The owner has no block left to give without the remote list. -/
def SpanHead.Spent (x : SpanHead) : Prop := x.localFree = [] ∧ x.bumpIdx = x.blockCount

theorem spanBlockCount_bounds {c : ℕ} (hc : c < memopClassCount) :
    0 < spanBlockCount c ∧ spanBlockCount c < 2 ^ 32 := by
  have hall : ∀ d < memopClassCount, 0 < spanBlockCount d ∧ spanBlockCount d < 2 ^ 32 := by
    decide +kernel
  exact hall c hc

namespace SpanWf

variable {x : SpanHead}

theorem used_full (hx : SpanWf x) (hf : x.state = .full) : x.used.toNat = x.blockCount := by
  have hblocks := hx.blocks
  rw [(hx.full hf).1, List.length_nil, Nat.zero_add, (hx.full hf).2] at hblocks
  have hfits : x.blockCount < 2 ^ 32 := by
    rw [hx.counted]
    exact (spanBlockCount_bounds hx.known).2
  rw [hx.used, hblocks, BitVec.toNat_ofNat, Nat.mod_eq_of_lt hfits]

theorem giveLocal (hx : SpanWf x) {b : ℕ} {rest : List ℕ} (hb : x.localFree = b :: rest) :
    SpanWf { x with localFree := rest, used := x.used + 1, live := b :: x.live } where
  known := hx.known
  counted := hx.counted
  blocks := by
    have hblocks := hx.blocks
    rw [hb, List.length_cons] at hblocks
    simp only [List.length_cons]
    omega
  bump := hx.bump
  used := by
    simp only [List.length_cons]
    rw [hx.used, ← Nat.add_assoc, BitVec.ofNat_add _ 1]
    rfl
  full := by
    intro hf
    have hnil := (hx.full hf).1
    rw [hb] at hnil
    exact absurd hnil (List.cons_ne_nil b rest)

theorem giveBump (hx : SpanWf x) (b : ℕ) (hlt : x.bumpIdx < x.blockCount) :
    SpanWf { x with bumpIdx := x.bumpIdx + 1, used := x.used + 1, live := b :: x.live } where
  known := hx.known
  counted := hx.counted
  blocks := by
    have hblocks := hx.blocks
    simp only [List.length_cons]
    omega
  bump := hlt
  used := by
    simp only [List.length_cons]
    rw [hx.used, ← Nat.add_assoc, BitVec.ofNat_add _ 1]
    rfl
  full := fun hf => absurd (hx.full hf).2 (Nat.ne_of_lt hlt)

theorem drain (hx : SpanWf x) :
    SpanWf { x with
      localFree := x.remoteFree.reverse ++ x.localFree
      remoteFree := []
      used := x.used - BitVec.ofNat 32 x.remoteFree.length
      state := .available } where
  known := hx.known
  counted := hx.counted
  blocks := by
    have hblocks := hx.blocks
    simp only [List.length_append, List.length_reverse, List.length_nil]
    omega
  bump := hx.bump
  used := by
    simp only [List.length_nil]
    rw [hx.used, Nat.zero_add, Nat.add_comm, BitVec.ofNat_add, BitVec.add_sub_cancel]
  full := fun hf => SpanStatus.noConfusion hf

theorem free (hx : SpanWf x) {b : ℕ} (hb : b ∈ x.live) :
    SpanWf { x with
      localFree := b :: x.localFree
      used := x.used - 1
      live := x.live.erase b
      state := .available } where
  known := hx.known
  counted := hx.counted
  blocks := by
    have hblocks := hx.blocks
    have hpos := List.length_pos_of_mem hb
    simp only [List.length_cons, List.length_erase_of_mem hb]
    omega
  bump := hx.bump
  used := by
    have hpos := List.length_pos_of_mem hb
    simp only [List.length_erase_of_mem hb]
    rw [hx.used, show x.remoteFree.length + x.live.length =
      x.remoteFree.length + (x.live.length - 1) + 1 by omega, BitVec.ofNat_add _ 1]
    exact BitVec.add_sub_cancel ..
  full := fun hf => SpanStatus.noConfusion hf

theorem push (hx : SpanWf x) {b : ℕ} (hb : b ∈ x.live) :
    SpanWf { x with remoteFree := b :: x.remoteFree, live := x.live.erase b } where
  known := hx.known
  counted := hx.counted
  blocks := by
    have hblocks := hx.blocks
    have hpos := List.length_pos_of_mem hb
    simp only [List.length_cons, List.length_erase_of_mem hb]
    omega
  bump := hx.bump
  used := by
    have hpos := List.length_pos_of_mem hb
    simp only [List.length_cons, List.length_erase_of_mem hb]
    rw [hx.used]
    congr 1
    omega
  full := hx.full

theorem park (hx : SpanWf x) (hs : x.Spent) : SpanWf { x with state := .full } where
  known := hx.known
  counted := hx.counted
  blocks := hx.blocks
  bump := hx.bump
  used := hx.used
  full := fun _ => hs

theorem of_available (hs : x.state = .available) (hx : SpanWf { x with state := .available }) :
    SpanWf x := by
  rw [← hs] at hx
  exact hx

end SpanWf

/-- The lists of the heap are `ls`, and its spans are well formed. -/
structure HeapGood (h : MemHeap) (ls : Option ℕ → List ℕ) : Prop where
  lists : SpanLists h h.owned ls
  wf : ∀ a ∈ h.owned, SpanWf (h.head a)

/-- Where the owner stands in `memop_refill`: in the class list it always looks at the first span,
as the ones before are parked. -/
def PcOk (h : MemHeap) : HeapPc → Prop
  | .idle => True
  | .create c => c < memopClassCount
  | .drain c .classList a => c < memopClassCount ∧ h.spans c = some a ∧ (h.head a).Spent
  | .drain c (.full ..) a => c < memopClassCount ∧ h.fullHead = some a
  | .take c .classList a =>
    c < memopClassCount ∧ h.spans c = some a ∧ (h.head a).Spent ∧ (h.head a).remoteFree ≠ []
  | .take c (.full ..) a =>
    c < memopClassCount ∧ h.fullHead = some a ∧ (h.head a).remoteFree ≠ []

structure HeapInv (h : MemHeap) : Prop where
  good : ∃ ls, HeapGood h ls
  pc : PcOk h h.pc

namespace HeapGood

variable {h : MemHeap} {ls : Option ℕ → List ℕ} {a b c : ℕ} {x : SpanHead}

theorem setHead (hg : HeapGood h ls) (hx : x.home = (h.head a).home) (hw : SpanWf x) :
    HeapGood (h.setHead a x) ls where
  lists := hg.lists.setHead fun _ => hx
  wf := by
    intro d hd
    by_cases hda : d = a
    · rw [hda, MemHeap.setHead_self]
      exact hw
    · rw [MemHeap.setHead_of_ne h x hda]
      exact hg.wf d hd

/-- A block is given from a span that has one to give, after `x` is written to its header. -/
theorem give (hg : HeapGood h ls) (hx : x.home = (h.head a).home)
    (hw : SpanWf { x with used := x.used + 1, live := b :: x.live }) :
    HeapGood ((h.setHead a x).give a b) ls := by
  have hwrite : (h.setHead a x).give a b =
      { h.setHead a { x with used := x.used + 1, live := b :: x.live } with
        pc := .idle
        given := some (a, b) :: h.given } := by
    unfold MemHeap.give
    simp only [MemHeap.setHead, Function.update_self, Function.update_idem]
  rw [hwrite]
  have hset := hg.setHead (x := { x with used := x.used + 1, live := b :: x.live }) hx hw
  exact ⟨hset.lists.records _ _ _ _, hset.wf⟩

theorem giveLocal (hg : HeapGood h ls) (ha : a ∈ h.owned) {rest : List ℕ}
    (hb : (h.head a).localFree = b :: rest) :
    HeapGood ((h.setHead a { h.head a with localFree := rest }).give a b) ls :=
  hg.give rfl ((hg.wf a ha).giveLocal hb)

theorem giveBump (hg : HeapGood h ls) (ha : a ∈ h.owned) (b : ℕ)
    (hlt : (h.head a).bumpIdx < (h.head a).blockCount) :
    HeapGood ((h.setHead a { h.head a with bumpIdx := (h.head a).bumpIdx + 1 }).give a b) ls :=
  hg.give rfl ((hg.wf a ha).giveBump b hlt)

/-- A spent span of class `c` is parked. -/
theorem retire (hg : HeapGood h ls) (ha : h.spans c = some a) (hs : (h.head a).Spent) :
    HeapGood (heapFullPushTail (heapListUnlink h c a) a) (retire ls c a) := by
  obtain ⟨hd, hhome⟩ := hg.lists.mem_of_first ha
  refine ⟨hg.lists.retire hd hhome, ?_⟩
  intro d hdo
  by_cases hda : d = a
  · rw [hda]
    simp only [heapFullPushTail, heapListUnlink, Function.update_self]
    exact (hg.wf a hd).park hs
  · simp only [heapFullPushTail, heapListUnlink, Function.update_of_ne hda]
    exact hg.wf d hdo

theorem rotate (hg : HeapGood h ls) (ha : h.fullHead = some a) :
    HeapGood (heapFullPushTail (heapFullUnlink h a) a) (rotate ls a) := by
  obtain ⟨hd, hhome⟩ := hg.lists.mem_of_fullFirst ha
  refine ⟨hg.lists.rotate hd hhome, ?_⟩
  intro d hdo
  by_cases hda : d = a
  · rw [hda]
    simp only [heapFullPushTail, heapFullUnlink, Function.update_self]
    exact (hg.wf a hd).park ((hg.wf a hd).full (SpanHead.home_eq_none.mp hhome))
  · simp only [heapFullPushTail, heapFullUnlink, Function.update_of_ne hda]
    exact hg.wf d hdo

/-- A full span that has got blocks goes to the front of its class. -/
theorem reactivate (hl : SpanLists h h.owned ls) (hwf : ∀ d ∈ h.owned, d ≠ a → SpanWf (h.head d))
    (ha : a ∈ h.owned) (hn : (h.head a).home = none)
    (hx : SpanWf { h.head a with state := .available }) :
    HeapGood (heapListInsertHead (heapFullUnlink h a) (h.head a).classId a)
      (reactivate ls (h.head a).classId a) := by
  refine ⟨hl.reactivate ha hn, ?_⟩
  intro d hdo
  by_cases hda : d = a
  · rw [hda]
    simp only [heapListInsertHead, heapFullUnlink, Function.update_self]
    exact hx
  · simp only [heapListInsertHead, heapFullUnlink, Function.update_of_ne hda]
    exact hwf d hdo hda

end HeapGood

/-- From label `got` on, when the span is already the first of its class. -/
theorem refillGot_first {h : MemHeap} {c a : ℕ} (ha : h.spans c = some a) (b : ℕ) :
    refillGot h c a b = h.give a b :=
  if_pos ha

theorem refillLocal_first {h : MemHeap} {c a b : ℕ} {rest : List ℕ} (ha : h.spans c = some a)
    (hb : (h.head a).localFree = b :: rest) :
    refillLocal h c a = (h.setHead a { h.head a with localFree := rest }).give a b := by
  unfold refillLocal
  simp only [hb]
  exact refillGot_first (by exact ha) b

/-- A probe reads the remote list of the first full span, if it is one. -/
theorem refillProbe_cases (h : MemHeap) (c k : ℕ) (start : Option ℕ) :
    refillProbe h c k start = { h with pc := .create c } ∨
      ∃ fs, h.fullHead = some fs ∧
        refillProbe h c k start = { h with pc := .drain c (.full k (start.getD fs)) fs } := by
  unfold refillProbe
  split
  · split
    · exact Or.inl rfl
    · next fs hf =>
      split
      · exact Or.inl rfl
      · exact Or.inr ⟨fs, hf, rfl⟩
  · exact Or.inl rfl

theorem heapListInsertHead_spans (h : MemHeap) (c a : ℕ) :
    (heapListInsertHead h c a).spans c = some a :=
  Function.update_self ..

section step
variable {h : MemHeap} {ls : Option ℕ → List ℕ} {a b c : ℕ}

theorem HeapGood.refillLocal (hg : HeapGood h ls) (ha : h.spans c = some a)
    (hne : (h.head a).localFree ≠ []) : HeapInv (refillLocal h c a) := by
  obtain ⟨b, rest, hb⟩ := List.exists_cons_of_ne_nil hne
  rw [refillLocal_first ha hb]
  exact ⟨⟨ls, hg.giveLocal (hg.lists.mem_of_first ha).1 hb⟩, trivial⟩

theorem HeapGood.moveTo (hg : HeapGood h ls) (pc : HeapPc) (hpc : PcOk h pc) :
    HeapInv { h with pc := pc } := by
  constructor
  · exact ⟨ls, hg.lists.records _ _ _ _, hg.wf⟩
  · exact hpc

theorem HeapGood.refillProbe (hg : HeapGood h ls) (hc : c < memopClassCount) (k : ℕ)
    (start : Option ℕ) : HeapInv (refillProbe h c k start) := by
  rcases refillProbe_cases h c k start with hp | ⟨fs, hf, hp⟩
  · rw [hp]
    exact hg.moveTo (.create c) hc
  · rw [hp]
    exact hg.moveTo (.drain c (.full k (start.getD fs)) fs) ⟨hc, hf⟩

theorem HeapGood.refillFrom (hg : HeapGood h ls) (hc : c < memopClassCount) :
    HeapInv (refillFrom h c (h.spans c)) := by
  cases ha : h.spans c with
  | none => exact hg.refillProbe hc 0 none
  | some a =>
    obtain ⟨hd, hhome⟩ := hg.lists.mem_of_first ha
    simp only [Heap.refillFrom]
    split_ifs with hne hlt
    · exact hg.refillLocal ha hne
    · rw [refillGot_first (by exact ha)]
      exact ⟨⟨ls, hg.giveBump hd _ hlt⟩, trivial⟩
    · refine hg.moveTo (.drain c .classList a) ⟨hc, ha, not_not.mp hne, ?_⟩
      exact Nat.le_antisymm (hg.wf a hd).bump (Nat.le_of_not_lt hlt)

theorem SpanLists.prev_first {D : Finset ℕ} (hl : SpanLists h D ls) (ha : h.spans c = some a) :
    h.prev a = none := by
  have hlinked := hl.lists.linked (some c)
  rw [hl.first c] at ha
  obtain ⟨l, hl'⟩ := List.head?_eq_some_iff.mp ha
  rw [hl'] at hlinked
  exact hlinked.1

/-- The walk goes on from the new first span of the class. -/
theorem SpanLists.next_first {D : Finset ℕ} (hl : SpanLists h D ls) (ha : h.spans c = some a) :
    (heapFullPushTail (heapListUnlink h c a) a).spans c = h.next a := by
  unfold heapFullPushTail heapListUnlink
  simp only [if_pos (hl.prev_first ha), Function.update_self]

theorem HeapGood.refillEmpty (hg : HeapGood h ls) (hc : c < memopClassCount) {site : RefillSite}
    (hpc : PcOk h (.drain c site a)) : HeapInv (refillEmpty h c a site) := by
  cases site with
  | classList =>
    obtain ⟨-, ha, hs⟩ := hpc
    unfold Heap.refillEmpty
    rw [← hg.lists.next_first ha]
    exact (hg.retire ha hs).refillFrom hc
  | full k start =>
    obtain ⟨-, ha⟩ := hpc
    unfold Heap.refillEmpty
    split_ifs with hlast
    · exact hg.refillProbe hc (k + 1) (some start)
    · exact (hg.rotate ha).refillProbe hc (k + 1) (some start)

theorem spanTakeRemote_self (h : MemHeap) (a : ℕ) :
    (spanTakeRemote h a).head a =
      { h.head a with
        localFree := (h.head a).remoteFree.reverse ++ (h.head a).localFree
        remoteFree := []
        used := (h.head a).used - BitVec.ofNat 32 (h.head a).remoteFree.length } :=
  MemHeap.setHead_self ..

theorem spanTakeRemote_local (hr : (h.head a).remoteFree ≠ []) :
    ((spanTakeRemote h a).head a).localFree ≠ [] := by
  rw [spanTakeRemote_self]
  simp only [ne_eq, List.append_eq_nil_iff, List.reverse_eq_nil_iff, hr, false_and,
    not_false_eq_true]

/-- The remote list of the first span of a class is taken. -/
theorem HeapGood.takeFirst (hg : HeapGood h ls) (ha : h.spans c = some a) :
    HeapGood (spanTakeRemote h a) ls := by
  obtain ⟨hd, hhome⟩ := hg.lists.mem_of_first ha
  exact hg.setHead rfl (.of_available (SpanHead.home_eq_some.mp hhome).1 (hg.wf a hd).drain)

/-- The remote list of the first full span is taken, and the span goes back to its class. -/
def reviveFull (h : MemHeap) (a : ℕ) : MemHeap :=
  heapListInsertHead (heapFullUnlink (spanTakeRemote h a) a) ((spanTakeRemote h a).head a).classId a

theorem reviveFull_self (h : MemHeap) (a : ℕ) :
    (reviveFull h a).head a = { (spanTakeRemote h a).head a with state := .available } :=
  Function.update_self ..

theorem reviveFull_of_ne (h : MemHeap) {a d : ℕ} (hd : d ≠ a) :
    (reviveFull h a).head d = h.head d := by
  simp only [reviveFull, heapListInsertHead, heapFullUnlink, spanTakeRemote, MemHeap.setHead,
    Function.update_of_ne hd]

theorem reviveFull_spans (h : MemHeap) (a : ℕ) :
    (reviveFull h a).spans ((reviveFull h a).head a).classId = some a := by
  rw [reviveFull_self]
  exact heapListInsertHead_spans ..

theorem HeapGood.reviveFull (hg : HeapGood h ls) (ha : h.fullHead = some a) :
    HeapGood (reviveFull h a) (Heap.reactivate ls (h.head a).classId a) := by
  obtain ⟨hd, hhome⟩ := hg.lists.mem_of_fullFirst ha
  have hclass : ((spanTakeRemote h a).head a).classId = (h.head a).classId := by
    rw [spanTakeRemote_self]
  have hl : SpanLists (spanTakeRemote h a) (spanTakeRemote h a).owned ls :=
    hg.lists.setHead fun _ => rfl
  rw [← hclass]
  apply HeapGood.reactivate hl _ hd
  · rw [spanTakeRemote_self]
    exact hhome
  · rw [spanTakeRemote_self]
    exact (hg.wf a hd).drain
  · intro d hdo hda
    rw [spanTakeRemote, MemHeap.setHead_of_ne h _ hda]
    exact hg.wf d hdo

theorem HeapGood.refillDrained (hg : HeapGood h ls) {site : RefillSite}
    (hpc : PcOk h (.take c site a)) : HeapInv (refillDrained (spanTakeRemote h a) c a site) := by
  cases site with
  | classList =>
    obtain ⟨-, ha, -, hr⟩ := hpc
    exact (hg.takeFirst ha).refillLocal ha (spanTakeRemote_local hr)
  | full k start =>
    obtain ⟨hc, ha, hr⟩ := hpc
    have hg' := hg.reviveFull ha
    change HeapInv (if ((Heap.reviveFull h a).head a).classId = c then
      Heap.refillLocal (Heap.reviveFull h a) c a
      else Heap.refillProbe (Heap.reviveFull h a) c (k + 1) (some start))
    split_ifs with hclass
    · apply hg'.refillLocal
      · rw [← hclass]
        exact reviveFull_spans h a
      · rw [reviveFull_self]
        exact spanTakeRemote_local hr
    · exact hg'.refillProbe hc (k + 1) (some start)

/-- The header that `span_create` writes. -/
def createdSpan (c : ℕ) : SpanHead := ⟨c, [], [], [], 0, .available, 0, spanBlockCount c⟩

theorem createdSpan_wf (hc : c < memopClassCount) : SpanWf (createdSpan c) where
  known := hc
  counted := rfl
  blocks := rfl
  bump := Nat.zero_le _
  used := rfl
  full := fun hf => SpanStatus.noConfusion hf

theorem HeapGood.refillCreate (hg : HeapGood h ls) (hc : c < memopClassCount) {m : ℕ}
    (hm : m ∉ h.owned) :
    HeapGood (refillCreate h c m) (Function.update ls (some c) (m :: ls (some c))) := by
  let h₁ : MemHeap := { heapListInsertHead (h.setHead m (createdSpan c)) c m with
    owned := insert m h.owned
    spanAllocs := h.spanAllocs + 1 }
  have hhead : h₁.head m = createdSpan c := Function.update_self ..
  have hcreate : Heap.refillCreate h c m =
      (h₁.setHead m { createdSpan c with bumpIdx := 1 }).give m 0 := by
    have hfirst : (h₁.setHead m { createdSpan c with bumpIdx := 1 }).spans c = some m :=
      heapListInsertHead_spans _ c m
    rw [← refillGot_first hfirst 0]
    unfold Heap.refillCreate
    simp only [h₁, heapListInsertHead, MemHeap.setHead, Function.update_idem, createdSpan]
  have hl : SpanLists (heapListInsertHead (h.setHead m (createdSpan c)) c m) (insert m h.owned)
      (Function.update ls (some c) (m :: ls (some c))) := by
    apply (hg.lists.setHead fun ho => absurd ho hm).insertHead hm
    rw [MemHeap.setHead_self]
    exact SpanHead.home_available rfl
  have hg₁ : HeapGood h₁ (Function.update ls (some c) (m :: ls (some c))) := by
    refine ⟨hl.records _ _ _ _, ?_⟩
    intro a ha
    by_cases ham : a = m
    · rw [ham, hhead]
      exact createdSpan_wf hc
    · have hsame : h₁.head a = h.head a := Function.update_of_ne ham ..
      rw [hsame]
      exact hg.wf a (Finset.mem_of_mem_insert_of_ne ha ham)
  rw [hcreate]
  apply hg₁.give
  · rw [hhead]
    rfl
  · exact (createdSpan_wf hc).giveBump 0 (spanBlockCount_bounds hc).1

theorem HeapGood.memopAllocRaw (hg : HeapGood h ls) (hc : c < memopClassCount) :
    HeapInv (memopAllocRaw h c) := by
  have hrefill := hg.refillFrom hc
  unfold Heap.memopAllocRaw
  cases ha : h.spans c with
  | none =>
    rw [ha] at hrefill
    exact hrefill
  | some a =>
    rw [ha] at hrefill
    obtain ⟨hd, -⟩ := hg.lists.mem_of_first ha
    simp only
    split
    · next b rest hb => exact ⟨⟨ls, hg.giveLocal hd hb⟩, trivial⟩
    · split_ifs with hlt
      · exact ⟨⟨ls, hg.giveBump hd _ hlt⟩, trivial⟩
      · exact hrefill

theorem HeapGood.remotePush (hg : HeapGood h ls) (ha : a ∈ h.owned)
    (hb : b ∈ (h.head a).live) : HeapGood (remotePush h a b) ls :=
  hg.setHead rfl ((hg.wf a ha).push hb)

/-- A push leaves the owner where it is: the span it looks at is still spent. -/
theorem PcOk.remotePush {pc : HeapPc} (hpc : PcOk h pc) : PcOk (remotePush h a b) pc := by
  have hspent : ∀ d, (h.head d).Spent → ((Heap.remotePush h a b).head d).Spent := by
    intro d hs
    unfold Heap.remotePush
    by_cases hd : d = a
    · rw [hd] at hs ⊢
      rw [MemHeap.setHead_self]
      exact hs
    · rw [MemHeap.setHead_of_ne h _ hd]
      exact hs
  have hremote : ∀ d, (h.head d).remoteFree ≠ [] →
      ((Heap.remotePush h a b).head d).remoteFree ≠ [] := by
    intro d hr
    unfold Heap.remotePush
    by_cases hd : d = a
    · rw [hd, MemHeap.setHead_self]
      exact List.cons_ne_nil b _
    · rw [MemHeap.setHead_of_ne h _ hd]
      exact hr
  match pc, hpc with
  | .idle, _ => trivial
  | .create _, hc => exact hc
  | .drain _ .classList d, ⟨hc, ha, hs⟩ => exact ⟨hc, ha, hspent d hs⟩
  | .drain _ (.full ..) _, hd => exact hd
  | .take _ .classList d, ⟨hc, ha, hs, hr⟩ => exact ⟨hc, ha, hspent d hs, hremote d hr⟩
  | .take _ (.full ..) d, ⟨hc, ha, hr⟩ => exact ⟨hc, ha, hremote d hr⟩

/-- A local free keeps the lists, puts a full span back or releases the span. -/
theorem HeapGood.memopFreeRaw (hg : HeapGood h ls) (ha : a ∈ h.owned)
    (hb : b ∈ (h.head a).live) : ∃ ls', HeapGood (memopFreeRaw h a b) ls' := by
  have hfree := (hg.wf a ha).free hb
  let y : SpanHead :=
    { h.head a with
      localFree := b :: (h.head a).localFree
      used := (h.head a).used - 1
      live := (h.head a).live.erase b }
  have hl : SpanLists (h.setHead a y) h.owned ls := hg.lists.setHead fun _ => rfl
  have hhead : (h.setHead a y).head a = y := MemHeap.setHead_self ..
  have hother : ∀ d ∈ h.owned, d ≠ a → SpanWf ((h.setHead a y).head d) := by
    intro d hd hda
    rw [MemHeap.setHead_of_ne h _ hda]
    exact hg.wf d hd
  unfold Heap.memopFreeRaw
  simp only
  split_ifs with hfull hempty
  · refine ⟨Heap.reactivate ls y.classId a, ?_⟩
    have hnew := HeapGood.reactivate (h := h.setHead a y) hl hother ha
      (by
        rw [hhead]
        exact SpanHead.home_full hfull)
      (by
        rw [hhead]
        exact hfree)
    rw [hhead] at hnew
    exact hnew
  · have hav : y.state = .available := by
      cases hs : y.state with
      | available => rfl
      | full => exact absurd hs hfull
    have hnew := hl.unlink (c := y.classId) ha (by
      rw [hhead]
      exact SpanHead.home_available hav)
    refine ⟨_, hnew.records _ _ _ _, ?_⟩
    intro d hd
    obtain ⟨hda, hdo⟩ := Finset.mem_erase.mp hd
    exact hother d hdo hda
  · have hav : (h.head a).state = .available := by
      cases hs : (h.head a).state with
      | available => rfl
      | full => exact absurd hs hfull
    exact ⟨ls, hg.setHead rfl (.of_available hav hfree)⟩

/-- One step of the owner, in `memop_refill`. -/
theorem HeapInv.refill (hi : HeapInv h) {chunk : Option ℕ} {h' : MemHeap}
    (hs : memopRefill h chunk = some h') : HeapInv h' := by
  obtain ⟨⟨ls, hg⟩, hpc⟩ := hi
  unfold memopRefill at hs
  cases hat : h.pc with
  | idle => simp only [hat, reduceCtorEq] at hs
  | drain c site a =>
    rw [hat] at hpc
    have hc : c < memopClassCount := by
      cases site with
      | classList => exact hpc.1
      | full k start => exact hpc.1
    simp only [hat, Option.some.injEq] at hs
    split_ifs at hs with hr
    · rw [← hs]
      exact hg.refillEmpty hc hpc
    · rw [← hs]
      apply hg.moveTo (.take c site a)
      cases site with
      | classList => exact ⟨hc, hpc.2.1, hpc.2.2, hr⟩
      | full k start => exact ⟨hc, hpc.2, hr⟩
  | take c site a =>
    rw [hat] at hpc
    simp only [hat, Option.some.injEq] at hs
    rw [← hs]
    exact hg.refillDrained hpc
  | create c =>
    rw [hat] at hpc
    simp only [hat] at hs
    cases chunk with
    | none =>
      rw [← Option.some.inj hs]
      exact ⟨⟨ls, hg.lists.records _ _ _ _, hg.wf⟩, trivial⟩
    | some m =>
      simp only at hs
      split_ifs at hs with hm
      rw [← Option.some.inj hs]
      refine ⟨⟨_, hg.refillCreate hpc hm⟩, ?_⟩
      unfold Heap.refillCreate
      rw [refillGot_first (by exact heapListInsertHead_spans _ c m)]
      trivial

theorem HeapInv.step (hi : HeapInv h) {l : HeapLabel} {h' : MemHeap} (hs : heapStep h l = some h') :
    HeapInv h' := by
  obtain ⟨⟨ls, hg⟩, hpc⟩ := hi
  cases l with
  | alloc c =>
    simp only [heapStep] at hs
    split_ifs at hs with hok
    rw [← Option.some.inj hs]
    exact hg.memopAllocRaw hok.2
  | owner chunk => exact HeapInv.refill ⟨⟨ls, hg⟩, hpc⟩ hs
  | free a b =>
    simp only [heapStep] at hs
    split_ifs at hs with hok
    rw [← Option.some.inj hs]
    refine ⟨hg.memopFreeRaw hok.2.1 hok.2.2, ?_⟩
    have hidle : (Heap.memopFreeRaw h a b).pc = .idle := by
      rw [← hok.1]
      unfold Heap.memopFreeRaw
      simp only
      split_ifs <;> rfl
    rw [hidle]
    trivial
  | remoteFree a b =>
    simp only [heapStep] at hs
    split_ifs at hs with hok
    rw [← Option.some.inj hs]
    exact ⟨⟨ls, hg.remotePush hok.1 hok.2⟩, hpc.remotePush⟩

end step

theorem heapSystem_inv {h : MemHeap} (hr : heapSystem.Reachable h) : HeapInv h := by
  apply hr.invariant
  · rintro s ⟨next, prev, head, rfl⟩
    refine ⟨⟨fun _ => [], ⟨⟨fun _ => trivial, fun _ => List.nodup_nil, ?_⟩, fun _ => rfl, rfl, rfl,
      ?_⟩, ?_⟩, trivial⟩
    · intro i j k hk
      exact absurd hk List.not_mem_nil
    · intro a i
      exact iff_of_false List.not_mem_nil fun ha => Finset.notMem_empty a ha.1
    · intro a ha
      exact absurd ha (Finset.notMem_empty a)
  · intro s l s' hi hs
    exact hi.step hs

/-- `L` are the class lists of the heap and `F` its full list: doubly linked, reached from the heap,
and with the spans whose states say so. -/
structure ListedAs (h : MemHeap) (L : ℕ → List ℕ) (F : List ℕ) : Prop where
  linked : ∀ c, DLinked h.next h.prev none (L c) none
  nodup : ∀ c, (L c).Nodup
  first : ∀ c, h.spans c = (L c).head?
  mem : ∀ a c, a ∈ L c ↔
    a ∈ h.owned ∧ (h.head a).state = .available ∧ (h.head a).classId = c
  fullLinked : DLinked h.next h.prev none F none
  fullNodup : F.Nodup
  fullFirst : h.fullHead = F.head?
  fullLast : h.fullTail = F.getLast?
  fullMem : ∀ a, a ∈ F ↔ a ∈ h.owned ∧ (h.head a).state = .full

theorem HeapGood.listedAs {h : MemHeap} {ls : Option ℕ → List ℕ} (hg : HeapGood h ls) :
    ListedAs h (fun c => ls (some c)) (ls none) where
  linked := fun c => hg.lists.lists.linked (some c)
  nodup := fun c => hg.lists.lists.nodup (some c)
  first := hg.lists.first
  mem := by
    intro a c
    rw [hg.lists.mem, SpanHead.home_eq_some]
  fullLinked := hg.lists.lists.linked none
  fullNodup := hg.lists.lists.nodup none
  fullFirst := hg.lists.fullFirst
  fullLast := hg.lists.fullLast
  fullMem := by
    intro a
    rw [hg.lists.mem, SpanHead.home_eq_none]

/-- A local free that releases a span leaves another one in the class list. -/
theorem memopFreeRaw_release {h : MemHeap} {ls : Option ℕ → List ℕ} (hg : HeapGood h ls) {a b : ℕ}
    (ha : a ∈ h.owned) (hout : a ∉ (memopFreeRaw h a b).owned) :
    ∃ d ∈ (memopFreeRaw h a b).owned, d ≠ a ∧
      ((memopFreeRaw h a b).head d).state = .available ∧
      ((memopFreeRaw h a b).head d).classId = (h.head a).classId := by
  unfold memopFreeRaw at hout ⊢
  simp only at hout ⊢
  split_ifs at hout ⊢ with hfull hempty
  · exact absurd ha hout
  · have hav : (h.head a).state = .available := by
      cases hs : (h.head a).state with
      | available => rfl
      | full => exact absurd hs hfull
    have hin : a ∈ ls (some (h.head a).classId) :=
      (hg.lists.mem a _).mpr ⟨ha, SpanHead.home_available hav⟩
    obtain ⟨d, hd, hda⟩ := hg.lists.lists.exists_other hin hempty.2
    obtain ⟨hdo, hhome⟩ := (hg.lists.mem d _).mp hd
    have hsame : ((h.setHead a
        { h.head a with
          localFree := b :: (h.head a).localFree
          used := (h.head a).used - 1
          live := (h.head a).live.erase b }).head d) = h.head d :=
      MemHeap.setHead_of_ne h _ hda
    refine ⟨d, Finset.mem_erase.mpr ⟨hda, hdo⟩, hda, ?_⟩
    simp only [heapListUnlink, hsame]
    exact SpanHead.home_eq_some.mp hhome
  · exact absurd ha hout

/-- In every reachable state the lists of a heap are well linked and hold the spans that the states
say, a full span has no block to give, and a local free never releases the last span of a list. -/
theorem heapSystem_listed {h : MemHeap} (hr : heapSystem.Reachable h) :
    (∃ L F, ListedAs h L F) ∧ (h.fullHead = none ↔ h.fullTail = none) ∧
      (∀ a ∈ h.owned, (h.head a).state = .full →
        (h.head a).localFree = [] ∧ (h.head a).bumpIdx = (h.head a).blockCount ∧
          (h.head a).used.toNat = (h.head a).blockCount) ∧
      ∀ a b h', heapStep h (.free a b) = some h' → a ∉ h'.owned →
        ∃ d ∈ h'.owned, d ≠ a ∧ (h'.head d).state = .available ∧
          (h'.head d).classId = (h.head a).classId := by
  obtain ⟨⟨ls, hg⟩, -⟩ := heapSystem_inv hr
  refine ⟨⟨_, _, hg.listedAs⟩, ?_, ?_, ?_⟩
  · rw [hg.lists.fullFirst, hg.lists.fullLast, List.head?_eq_none_iff, List.getLast?_eq_none_iff]
  · intro a ha hf
    obtain ⟨hlocal, hbump⟩ := (hg.wf a ha).full hf
    exact ⟨hlocal, hbump, (hg.wf a ha).used_full hf⟩
  · intro a b h' hs hout
    simp only [heapStep] at hs
    split_ifs at hs with hok
    rw [← Option.some.inj hs] at hout ⊢
    exact memopFreeRaw_release hg hok.2.1 hout

def heapNew : MemHeap :=
  ⟨fun _ => none, none, none, fun _ => none, fun _ => none, fun _ => createdSpan 0, ∅, .idle, [], 0⟩

/-- Span 0 of class 35 fills up and is parked, span 1 is created, and span 0 comes back and is
released by its third free. -/
theorem heapSystem_listed_release :
    ∃ h h', heapSystem.Reachable h ∧ heapStep h (.free 0 2) = some h' ∧ 0 ∉ h'.owned ∧
      ∃ d ∈ h'.owned, d ≠ 0 := by
  have hrun : (heapSystem.exec heapNew
      [.alloc 35, .owner (some 0), .alloc 35, .alloc 35, .alloc 35, .owner none, .owner none,
        .owner (some 1), .free 0 1, .free 0 0]).map
      (fun h => (heapStep h (.free 0 2)).map fun h' => decide (0 ∈ h'.owned)) =
      some (some false) := by
    decide +kernel
  obtain ⟨h, hexec, hfree⟩ := Option.map_eq_some_iff.mp hrun
  obtain ⟨h', hstep, hout⟩ := Option.map_eq_some_iff.mp hfree
  have hinit : heapSystem.init heapNew := ⟨_, _, _, rfl⟩
  have hreach : heapSystem.Reachable h := (System.ReachableWhen.init hinit).exec hexec
  have hout' : 0 ∉ h'.owned := of_decide_eq_false hout
  obtain ⟨d, hd, hne, -⟩ := (heapSystem_listed hreach).2.2.2 0 2 h' hstep hout'
  exact ⟨h, h', hreach, hstep, hout', d, hd, hne⟩

end Xplatbase.Memory.Heap
