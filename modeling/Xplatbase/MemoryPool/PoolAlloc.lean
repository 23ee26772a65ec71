import Xplatbase.MemoryPool.PoolLanes

/-! What allocations keep: the blocks have their places, and the threads stand where they say. -/
namespace Xplatbase.MemoryPool
open Xplatbase.Lib Xplatbase.Memory

variable {ι : Type*} [DecidableEq ι]

/-- The invariant of the pool. -/
structure PoolOk (s : PoolState ι) : Prop where
  stored : ∃ D, Stored s s.holds D
  lanes : Lanes s

/-- The shelves when thread `i` has the blocks `l` in its hands. -/
def PoolState.inHand (s : PoolState ι) (i : ι) (l : List Ptr) : Option ι → List Ptr :=
  Function.update s.holds (some i) l

/-- Thread `i` is in the middle of a step, with the blocks `l` in its hands. -/
structure MidCall (s : PoolState ι) (i : ι) (l : List Ptr) (D : Set Ptr) : Prop where
  stored : Stored s (s.inHand i l) D
  lanes : LanesBut s i

/-- Nothing is under way in the chunks or in the heap of thread `i`. -/
structure AtRest (s : PoolState ι) (i : ι) : Prop where
  chunks : s.chunks.pcs i = .idle
  heap : ∀ k, s.gHeap i = some k →
    (s.heap k).lists.pc = .idle ∧ Heap.HeapInv (s.heap k).lists

section
variable {s s' : PoolState ι} {i : ι} {k : ℕ} {l : List Ptr} {D : Set Ptr} {old : Option Ptr}
  {p : Ptr} {v : Option ι → List Ptr}

theorem inHand_none (s : PoolState ι) (i : ι) (l : List Ptr) : s.inHand i l none = s.live :=
  Function.update_of_ne (Option.some_ne_none i).symm ..

theorem inHand_self (s : PoolState ι) (i : ι) (l : List Ptr) : s.inHand i l (some i) = l :=
  Function.update_self ..

theorem inHand_of_ne (s : PoolState ι) {i j : ι} (l : List Ptr) (hj : j ≠ i) :
    s.inHand i l (some j) = (s.pcs j).blocks :=
  Function.update_of_ne (fun he => hj (Option.some.inj he)) ..

/-- The shelves of a state that differs for thread `i` and the callers only. -/
theorem holds_of_turn {pc : PoolPc} (hpcs : s'.pcs = Function.update s.pcs i pc) {q : Option ι}
    (hnone : q ≠ none) (hi : q ≠ some i) : s'.holds q = s.inHand i l q := by
  cases q with
  | none => exact absurd rfl hnone
  | some j =>
    have hj : j ≠ i := fun he => hi (congrArg some he)
    rw [inHand_of_ne s l hj]
    unfold PoolState.holds
    dsimp only
    rw [hpcs, Function.update_of_ne hj]

theorem holds_self {pc : PoolPc} (hpcs : s'.pcs = Function.update s.pcs i pc) :
    s'.holds (some i) = pc.blocks := by
  unfold PoolState.holds
  dsimp only
  rw [hpcs, Function.update_self]

/-- The shelves when thread `i` has come to a place at which it holds what it had in its hands. -/
theorem holds_eq_inHand {pc : PoolPc} (hpcs : s'.pcs = Function.update s.pcs i pc)
    (hlive : s'.live = s.live) : s'.holds = s.inHand i pc.blocks := by
  funext q
  cases q with
  | none =>
    rw [inHand_none]
    exact hlive
  | some j =>
    by_cases hj : j = i
    · rw [hj, inHand_self, holds_self hpcs]
    · exact holds_of_turn hpcs (Option.some_ne_none j) fun he => hj (Option.some.inj he)

theorem inHand_blocks (s : PoolState ι) (i : ι) : s.inHand i (s.pcs i).blocks = s.holds :=
  (holds_eq_inHand (Function.update_eq_self i s.pcs).symm rfl).symm

theorem PoolOk.mid (h : PoolOk s) (i : ι) : ∃ D, MidCall s i (s.pcs i).blocks D := by
  obtain ⟨D, hD⟩ := h.stored
  refine ⟨D, ?_, h.lanes.but i⟩
  rw [inHand_blocks]
  exact hD

omit [DecidableEq ι] in
theorem AtRest.same (h : AtRest s i) (hcpcs : s'.chunks.pcs = s.chunks.pcs)
    (hg : s'.gHeap = s.gHeap) (hlists : ∀ k, (s'.heap k).lists = (s.heap k).lists) :
    AtRest s' i where
  chunks := by rw [hcpcs, h.chunks]
  heap := by
    intro k hk
    rw [hg] at hk
    rw [hlists]
    exact h.heap k hk

omit [DecidableEq ι] in
theorem AtRest.of_heap (hg : s.gHeap i = some k) (hcpc : s.chunks.pcs i = .idle)
    (hpc : (s.heap k).lists.pc = .idle) (hi : Heap.HeapInv (s.heap k).lists) : AtRest s i where
  chunks := hcpc
  heap := by
    intro j hj
    have hkj : some k = some j := hg.symm.trans hj
    obtain rfl := Option.some.inj hkj
    exact ⟨hpc, hi⟩

namespace MidCall

/-- Only the storage, the heaps and the threads of a state matter. -/
theorem same (h : MidCall s i l D) (hs : SameStorage s s') (hgs : s'.gHeap = s.gHeap)
    (hpcs : ∀ j ≠ i, s'.pcs j = s.pcs j) (hlive : s'.live = s.live) : MidCall s' i l D := by
  have hhands : s'.inHand i l = s.inHand i l := by
    funext q
    cases q with
    | none => rw [inHand_none, inHand_none, hlive]
    | some j =>
      by_cases hj : j = i
      · rw [hj, inHand_self, inHand_self]
      · rw [inHand_of_ne s' l hj, inHand_of_ne s l hj, hpcs j hj]
  constructor
  · rw [hhands]
    exact h.stored.same hs
  · exact h.lanes.same hs hgs hpcs

theorem setLists (h : MidCall s i l D) (hg : s.gHeap i = some k) {lists : Heap.MemHeap}
    (hused : ∀ a ∈ lists.owned, a ∈ s.chunks.used)
    (hheader : ∀ a ∈ lists.owned, s.header a = .small k)
    (hspans : ∀ a ∈ lists.owned, SpanOk (lists.head a))
    (hheld : ∀ p ∈ D, p.span ∈ (s.heap k).lists.owned →
      p.block ∈ ((s.heap k).lists.head p.span).live →
      p.span ∈ lists.owned ∧ p.block ∈ (lists.head p.span).live) :
    MidCall (s.setLists k lists) i l D where
  stored := h.stored.setLists (h.lanes.known k hg) hused hheader hspans hheld
  lanes := by
    refine h.lanes.turn rfl rfl (fun _ _ => rfl) ⟨fun _ _ => rfl, fun _ _ => rfl⟩ rfl ?_
    intro j m hj hm hst
    rw [setLists_of_ne s lists (h.lanes.other hg hj hm)]
    exact hst

/-- Thread `i` comes to a place of its call at which it holds what it has in its hands. -/
theorem close (h : MidCall s i l D) (hg : s.gHeap i = some k) {pc : PoolPc} (hl : pc.blocks = l)
    (hst : pc.Stands (s.chunks.pcs i) (s.heap k).lists) : PoolOk (s.setPc i pc) := by
  have hmid : MidCall (s.setPc i pc) i l D := by
    refine h.same ⟨rfl, rfl, fun _ => rfl, rfl, rfl⟩ rfl ?_ rfl
    intro j hj
    exact Function.update_of_ne hj ..
  have hpc : (s.setPc i pc).pcs i = pc := Function.update_self ..
  constructor
  · refine ⟨D, ?_⟩
    rw [← inHand_blocks (s.setPc i pc) i, hpc, hl]
    exact hmid.stored
  · apply hmid.lanes.close hg
    rw [hpc]
    exact hst

/-- The call gets the block `p`, which no one has. -/
theorem allocated (h : MidCall s i old.toList D) (hrest : AtRest s i) (hg : s.gHeap i = some k)
    (m : ℕ) (hp : s.Home p) (hnew : p ∉ D) : PoolOk (allocated s i m p old) := by
  have hsame := SameStorage.countAlloc s m
  have hcount : MidCall (s.countAlloc m) i old.toList D := h.same hsame rfl (fun _ _ => rfl) rfl
  have hrest' : AtRest (s.countAlloc m) i := hrest.same rfl rfl hsame.lists
  have hhome : (s.countAlloc m).Home p := hp.same hsame
  unfold MemoryPool.allocated
  cases old with
  | none =>
    have hpcs : ({ s.countAlloc m with live := p :: (s.countAlloc m).live }.ret i .allocated).pcs =
        Function.update (s.countAlloc m).pcs i .idle := rfl
    constructor
    · refine ⟨insert p D, ?_⟩
      refine (hcount.stored.hold hhome ?_).same ⟨rfl, rfl, fun _ => rfl, rfl, rfl⟩
      apply hcount.stored.shelved.add (b := none) hnew
      · rw [inHand_none]
        rfl
      · intro q hq
        by_cases hi : q = some i
        · rw [hi, inHand_self, holds_self hpcs]
          rfl
        · exact holds_of_turn hpcs hq hi
    · have hmid : LanesBut ({ s.countAlloc m with live := p :: (s.countAlloc m).live }.ret
          i .allocated) i := by
        refine hcount.lanes.same ⟨rfl, rfl, fun _ => rfl, rfl, rfl⟩ rfl ?_
        intro j hj
        exact Function.update_of_ne hj ..
      exact hmid.idle (Function.update_self ..) hrest'.chunks hrest'.heap
  | some q =>
    have hpcs : ((s.countAlloc m).setPc i (.release q p)).pcs =
        Function.update (s.countAlloc m).pcs i (.release q p) := rfl
    constructor
    · refine ⟨insert p D, ?_⟩
      refine (hcount.stored.hold hhome ?_).same ⟨rfl, rfl, fun _ => rfl, rfl, rfl⟩
      apply hcount.stored.shelved.add (b := some i) hnew
      · rw [inHand_self, holds_self hpcs]
        rfl
      · intro r hr
        cases r with
        | none =>
          rw [inHand_none]
          rfl
        | some j => exact holds_of_turn hpcs (Option.some_ne_none j) hr
    · have hmid : LanesBut ((s.countAlloc m).setPc i (.release q p)) i := by
        refine hcount.lanes.same ⟨rfl, rfl, fun _ => rfl, rfl, rfl⟩ rfl ?_
        intro j hj
        exact Function.update_of_ne hj ..
      apply hmid.close hg
      rw [hpcs, Function.update_self]
      exact ⟨hrest'.chunks, hrest'.heap k hg⟩

/-- The call returns without a block; the one to be replaced goes back to its caller. -/
theorem allocFailed (h : MidCall s i old.toList D) (hrest : AtRest s i) :
    PoolOk (allocFailed s i old) := by
  have hpcs : (MemoryPool.allocFailed s i old).pcs = Function.update s.pcs i .idle := rfl
  have hself : (MemoryPool.allocFailed s i old).holds (some i) = [] := holds_self hpcs
  constructor
  · refine ⟨D, ?_⟩
    have hshelved : Shelved (MemoryPool.allocFailed s i old).holds D := by
      cases old with
      | none =>
        apply h.stored.shelved.congr _ rfl
        funext q
        cases q with
        | none =>
          rw [inHand_none]
          rfl
        | some j =>
          by_cases hj : j = i
          · rw [hj, inHand_self, hself]
            rfl
          · exact holds_of_turn hpcs (Option.some_ne_none j) fun he => hj (Option.some.inj he)
      | some q =>
        have hmem : q ∈ s.inHand i [q] (some i) := by
          rw [inHand_self]
          exact List.mem_cons_self
        apply h.stored.shelved.move (b := none) hmem (Option.some_ne_none i)
        · rw [hself]
          unfold Option.toList
          rw [inHand_self, List.erase_cons_head]
        · rw [inHand_none]
          rfl
        · intro r hr hnone
          exact holds_of_turn hpcs hnone hr
    exact (h.stored.reshelve hshelved fun _ hp => hp).same ⟨rfl, rfl, fun _ => rfl, rfl, rfl⟩
  · have hmid : LanesBut (MemoryPool.allocFailed s i old) i := by
      refine h.lanes.same ⟨rfl, rfl, fun _ => rfl, rfl, rfl⟩ rfl ?_
      intro j hj
      exact Function.update_of_ne hj ..
    exact hmid.idle (Function.update_self ..) hrest.chunks hrest.heap

end MidCall

/-! ### The heap of a thread in an allocation -/

theorem SpanOk.of_wf {x : Heap.SpanHead} (hx : Heap.SpanWf x) (hp : x.Parted) : SpanOk x where
  wf := { hx with full := fun hf => Heap.SpanStatus.noConfusion hf }
  parted := hp

theorem heapInv_wf {h : Heap.MemHeap} (hi : Heap.HeapInv h) :
    ∀ a ∈ h.owned, Heap.SpanWf (h.head a) := by
  obtain ⟨⟨ls, hg⟩, -⟩ := hi
  exact hg.wf

namespace MidCall

theorem works (h : MidCall s i l D) (hg : s.gHeap i = some k) {lists : Heap.MemHeap}
    (hi : Heap.HeapInv lists) (hw : Heap.Works (s.heap k).lists lists) :
    MidCall (s.setLists k lists) i l D := by
  apply h.setLists hg
  · rw [hw.owned]
    exact h.stored.used k
  · rw [hw.owned]
    exact h.stored.header k
  · intro a ha
    have hwf := heapInv_wf hi a ha
    rw [hw.owned] at ha
    exact .of_wf hwf ((h.stored.spans k a ha).parted.keeps (hw.heads a))
  · intro p _ howned hlive
    rw [hw.owned, (hw.heads p.span).live]
    exact ⟨howned, hlive⟩

theorem gives (h : MidCall s i l D) (hg : s.gHeap i = some k) {lists : Heap.MemHeap} {a b : ℕ}
    (hi : Heap.HeapInv lists) (howned : lists.owned = (s.heap k).lists.owned)
    (ha : a ∈ (s.heap k).lists.owned)
    (hat : Heap.Gives ((s.heap k).lists.head a) b (lists.head a))
    (hrest : ∀ d ≠ a, Heap.Keeps ((s.heap k).lists.head d) (lists.head d)) :
    MidCall (s.setLists k lists) i l D ∧ (s.setLists k lists).Home ⟨a, b⟩ ∧ ⟨a, b⟩ ∉ D := by
  have hheader : s.header a = .small k := h.stored.header k a ha
  have hparted := (h.stored.spans k a ha).parted
  refine ⟨?_, ?_, ?_⟩
  · apply h.setLists hg
    · rw [howned]
      exact h.stored.used k
    · rw [howned]
      exact h.stored.header k
    · intro d hd
      have hwf := heapInv_wf hi d hd
      rw [howned] at hd
      apply SpanOk.of_wf hwf
      by_cases hda : d = a
      · rw [hda]
        exact hparted.gives hat
      · exact (h.stored.spans k d hd).parted.keeps (hrest d hda)
    · intro p _ hp hlive
      rw [howned]
      refine ⟨hp, ?_⟩
      by_cases hpa : p.span = a
      · rw [hpa] at hlive ⊢
        rw [hat.live]
        exact List.mem_cons_of_mem b hlive
      · rw [(hrest _ hpa).live]
        exact hlive
  · refine (home_small (p := ⟨a, b⟩) (s := s.setLists k lists) hheader).mpr ?_
    rw [setLists_self, howned, hat.live]
    exact ⟨ha, List.mem_cons_self⟩
  · intro hD
    exact hparted.fresh hat ((home_small (p := ⟨a, b⟩) hheader).mp (h.stored.home _ hD)).2

theorem afterAlloc (h : MidCall s i old.toList D) (hg : s.gHeap i = some k)
    (hcpc : s.chunks.pcs i = .idle) {lists : Heap.MemHeap} (hi : Heap.HeapInv lists)
    (hturn : Heap.AllocTurn (s.heap k).lists lists) : PoolOk (afterAlloc s i k lists old) := by
  have hrest (hpc : lists.pc = .idle) : AtRest (s.setLists k lists) i := by
    refine AtRest.of_heap hg hcpc ?_ ?_
    · rw [setLists_self]
      exact hpc
    · rw [setLists_self]
      exact hi
  unfold MemoryPool.afterAlloc
  dsimp only
  cases hturn with
  | waits hpc hworks =>
    rw [if_neg hpc]
    apply (h.works hg hi hworks).close hg rfl
    rw [setLists_self]
    exact ⟨.inl hcpc, hpc, hi⟩
  | refused hpc hgiven hworks =>
    obtain ⟨g, hgiven⟩ := hgiven
    rw [if_pos hpc, hgiven]
    exact (h.works hg hi hworks).allocFailed (hrest hpc)
  | gives a b hpc hgiven howned ha hat hkeeps =>
    obtain ⟨g, hgiven⟩ := hgiven
    obtain ⟨hmid, hhome, hnew⟩ := h.gives hg hi howned ha hat hkeeps
    rw [if_pos hpc, hgiven]
    exact hmid.allocated (hrest hpc) hg k hhome hnew

end MidCall
end
end Xplatbase.MemoryPool
