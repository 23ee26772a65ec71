import Xplatbase.Lib.Chains
import Xplatbase.MemoryPool.PoolOthers

/-! The spans of every heap are in its lists, also after its thread has ended. -/
namespace Xplatbase.MemoryPool
open Xplatbase.Lib Xplatbase.Memory

variable {ι : Type*}

/-- The roots of the lists of a heap: `full_head`, and `spans[c]` for each class. -/
def roots (h : Heap.MemHeap) : Option (Fin memopClassCount) → Option ℕ
  | none => h.fullHead
  | some c => h.spans c

def Listed (h : Heap.MemHeap) : Prop := ∃ v, Chained h.next (roots h) v ↑h.owned

/-- The thread goes through a list of spans in `memop_on_ended_thread`. -/
def PoolPc.relinks : PoolPc → Bool
  | .endClass .. | .endFull .. => true
  | _ => false

/-- Where the spans of a heap are when its thread is at `pc`: the loops of `memop_on_ended_thread`
take one list out of its root at a time. -/
def PoolPc.Lists (pc : PoolPc) (h : Heap.MemHeap) : Prop :=
  match pc with
  | .endClass c span kept =>
    ∃ hc : c < memopClassCount, h.spans c = none ∧
      ∃ v, Chained h.next (opened (roots h) (some ⟨c, hc⟩) span kept) v ↑h.owned
  | .endFull span kept keptTail =>
    h.fullHead = none ∧ ∃ v, Chained h.next (opened (roots h) none span kept) v ↑h.owned ∧
      keptTail = (v (some none)).getLast?
  | _ => Listed h

section
variable {h h' : Heap.MemHeap} {pc : PoolPc}

theorem roots_class (h : Heap.MemHeap) (c : Fin memopClassCount) (o : Option ℕ) :
    roots { h with spans := Function.update h.spans c o } =
      Function.update (roots h) (some c) o := by
  funext i
  cases i with
  | none => exact (Function.update_of_ne (Option.some_ne_none c).symm o (roots h)).symm
  | some d =>
    by_cases hd : d = c
    · rw [hd, Function.update_self]
      exact Function.update_self c.val o h.spans
    · have hne : some d ≠ some c := fun he => hd (Option.some.inj he)
      rw [Function.update_of_ne hne]
      exact Function.update_of_ne (fun he => hd (Fin.ext he)) o h.spans

theorem roots_full (h : Heap.MemHeap) (first last : Option ℕ) :
    roots { h with fullHead := first, fullTail := last } =
      Function.update (roots h) none first := by
  funext i
  cases i with
  | none => exact (Function.update_self none first (roots h)).symm
  | some d =>
    rw [Function.update_of_ne (Option.some_ne_none d)]
    rfl

theorem roots_congr (hspans : h'.spans = h.spans) (hfull : h'.fullHead = h.fullHead) :
    roots h' = roots h := by
  funext i
  cases i with
  | none => exact hfull
  | some d => exact congrFun hspans d

theorem listed_of_heapInv (hi : Heap.HeapInv h) : Listed h := by
  obtain ⟨⟨ls, hg⟩, -⟩ := hi
  refine ⟨fun i => ls (i.map Fin.val), ?_, ?_⟩
  · intro i
    have hlinked := linked_of_dlinked (hg.lists.lists.linked (i.map Fin.val))
    cases i with
    | none =>
      rw [Option.map_none, ← hg.lists.fullFirst] at hlinked
      exact hlinked
    | some c =>
      rw [Option.map_some, ← hg.lists.first] at hlinked
      exact hlinked
  · constructor
    · exact fun _ => hg.lists.lists.nodup _
    · intro i j a hi hj
      have hhome := ((hg.lists.mem a _).mp hi).2.symm.trans ((hg.lists.mem a _).mp hj).2
      exact Option.map_injective Fin.val_injective hhome
    · intro a
      constructor
      · intro ha
        have hmem := (hg.lists.mem a _).mpr ⟨ha, rfl⟩
        cases hhome : (h.head a).home with
        | none =>
          rw [hhome] at hmem
          exact ⟨none, hmem⟩
        | some c =>
          rw [hhome] at hmem
          have hc := (hg.wf a ha).known
          rw [(Heap.SpanHead.home_eq_some.mp hhome).2] at hc
          exact ⟨some ⟨c, hc⟩, hmem⟩
      · rintro ⟨i, ha⟩
        exact ((hg.lists.mem a _).mp ha).1

theorem PoolPc.Lists.same (hpc : pc.Lists h) (hl : SameLinks h h') : pc.Lists h' := by
  have hroots := roots_congr hl.spans hl.fullHead
  cases pc with
  | endClass c span kept =>
    unfold PoolPc.Lists at hpc ⊢
    dsimp only
    rw [hl.spans, hl.next, hroots, hl.owned]
    exact hpc
  | endFull span kept keptTail =>
    unfold PoolPc.Lists at hpc ⊢
    dsimp only
    rw [hl.fullHead, hl.next, hroots, hl.owned]
    exact hpc
  | _ =>
    unfold PoolPc.Lists Listed at hpc ⊢
    dsimp only
    rw [hl.next, hroots, hl.owned]
    exact hpc

/-- The lists hold spans of the heap, and all of them but in the loops of
`memop_on_ended_thread`. -/
theorem PoolPc.Lists.spans (hpc : pc.Lists h) :
    ∃ v E, Chained h.next (roots h) v E ∧ (∀ a ∈ E, a ∈ h.owned) ∧
      (pc.relinks = false → ∀ a ∈ h.owned, a ∈ E) := by
  cases pc with
  | endClass c span kept =>
    obtain ⟨hc, hnone, v, hv⟩ := hpc
    obtain ⟨w, E, hw, hE⟩ := hv.others hnone
    exact ⟨w, E, hw, hE, fun hrelinks => Bool.noConfusion hrelinks⟩
  | endFull span kept keptTail =>
    obtain ⟨hnone, v, hv, -⟩ := hpc
    obtain ⟨w, E, hw, hE⟩ := hv.others hnone
    exact ⟨w, E, hw, hE, fun hrelinks => Bool.noConfusion hrelinks⟩
  | _ =>
    obtain ⟨v, hv⟩ := hpc
    exact ⟨v, _, hv, fun _ ha => ha, fun _ _ ha => ha⟩

end

variable [DecidableEq ι]

section
variable {s t u : PoolState ι} {i : ι} {k c a : ℕ} {now : BitVec 64}

/-! ### The end of a thread -/

theorem lists_endClassStart (h : Listed (s.heap k).lists) (hc : c < memopClassCount) :
    ((endClassStart s i k c).pcs i).Lists ((endClassStart s i k c).heap k).lists := by
  obtain ⟨v, hv⟩ := h
  unfold endClassStart
  dsimp only [PoolState.setPc]
  rw [Function.update_self, setLists_self]
  refine ⟨hc, Function.update_self .., ?_⟩
  rw [roots_class _ ⟨c, hc⟩, opened_update]
  exact ⟨_, hv.enter (some ⟨c, hc⟩)⟩

theorem lists_endFullStart (h : Listed (s.heap k).lists) :
    ((endFullStart s i k).pcs i).Lists ((endFullStart s i k).heap k).lists := by
  obtain ⟨v, hv⟩ := h
  unfold endFullStart
  dsimp only [PoolState.setPc]
  rw [Function.update_self, setLists_self]
  refine ⟨rfl, ?_⟩
  rw [roots_full, opened_update]
  refine ⟨_, hv.enter none, ?_⟩
  simp only [opened, Function.update_self]
  rfl

theorem lists_endClassStep {kept : Option ℕ}
    (h : (PoolPc.endClass c (some a) kept).Lists (s.heap k).lists) :
    ((endClassStep s i k c a kept now).pcs i).Lists
      ((endClassStep s i k c a kept now).heap k).lists := by
  obtain ⟨hc, hnone, v, hv⟩ := h
  obtain ⟨ha, w, hw, -⟩ := hv.pop none rfl
  rw [opened_rest] at hw
  unfold endClassStep
  dsimp only [PoolState.setPc]
  split_ifs
  · dsimp only
    rw [Function.update_self, setLists_self]
    refine ⟨hc, hnone, w, ?_⟩
    rw [Finset.coe_erase]
    exact hw
  · dsimp only
    rw [Function.update_self, setLists_self]
    have hpush := hw.push (fun hd => hd.2 rfl) (some (some ⟨c, hc⟩))
    rw [opened_kept, opened_self, Set.insert_sdiff_self_of_mem ha] at hpush
    exact ⟨hc, hnone, _, hpush⟩

theorem lists_endFullStep {kept keptTail : Option ℕ}
    (h : (PoolPc.endFull (some a) kept keptTail).Lists (s.heap k).lists) :
    ((endFullStep s i k a kept keptTail now).pcs i).Lists
      ((endFullStep s i k a kept keptTail now).heap k).lists := by
  obtain ⟨hnone, v, hv, htail⟩ := h
  obtain ⟨ha, w, hw, hsame⟩ := hv.pop none rfl
  rw [opened_rest] at hw
  rw [← hsame (some none) (Option.some_ne_none none)] at htail
  unfold endFullStep
  dsimp only [PoolState.setPc]
  by_cases hzero : ((Heap.spanTakeRemote (s.heap k).lists a).head a).used = 0
  · rw [if_pos hzero]
    dsimp only
    rw [Function.update_self, setLists_self]
    refine ⟨hnone, w, ?_, htail⟩
    rw [Finset.coe_erase]
    exact hw
  · rw [if_neg hzero]
    dsimp only
    rw [Function.update_self, setLists_self]
    have happend := hw.append (fun hd => hd.2 rfl) (some none)
    rw [← htail, opened_kept, opened_self, Set.insert_sdiff_self_of_mem ha] at happend
    refine ⟨hnone, _, happend, ?_⟩
    rw [Function.update_self, List.getLast?_concat]

/-- A step of `memop_on_ended_thread` loses no span of the heap but those that it releases. -/
theorem lists_endStep {pc : PoolPc} (h : pc.Lists (s.heap k).lists) (hpc : s.pcs i = pc)
    (hs : endStep s i k now pc = some t) : (t.pcs i).Lists (t.heap k).lists := by
  unfold MemoryPool.endStep at hs
  split at hs
  · obtain rfl := Option.some.inj hs
    exact lists_endClassStep h
  · rename_i c kept
    obtain rfl := Option.some.inj hs
    obtain ⟨hc, -, v, hv⟩ := h
    have hlisted : Listed ((s.setLists k { (s.heap k).lists with
        spans := Function.update (s.heap k).lists.spans c kept }).heap k).lists := by
      unfold Listed
      rw [setLists_self, roots_class _ ⟨c, hc⟩]
      exact ⟨_, hv.leave⟩
    split_ifs with hnext
    · exact lists_endClassStart hlisted hnext
    · exact lists_endFullStart hlisted
  · obtain rfl := Option.some.inj hs
    exact lists_endFullStep h
  · rename_i kept keptTail
    obtain ⟨chunks, -, rfl⟩ := Option.map_eq_some_iff.mp hs
    obtain ⟨-, v, hv, -⟩ := h
    dsimp only [PoolState.setPc]
    rw [Function.update_self, setLists_self]
    unfold PoolPc.Lists Listed
    dsimp only
    rw [roots_full]
    exact ⟨_, hv.leave⟩
  · obtain ⟨chunks, -, rfl⟩ := Option.map_eq_some_iff.mp hs
    dsimp only
    split_ifs
    · dsimp only [PoolState.setPc, PoolState.setHeap]
      rw [Function.update_self, Function.update_self]
      exact h
    · dsimp only
      rw [hpc]
      exact h
  · cases hs

theorem endStep_heaps (hg : s.gHeap i = some k) {pc : PoolPc}
    (hs : endStep s i k now pc = some t) :
    t.heaps = s.heaps ∧ (t.gHeap i = some k ∨ t.gHeap i = none ∧ t.pcs i = .idle) := by
  unfold MemoryPool.endStep at hs
  split at hs
  · obtain rfl := Option.some.inj hs
    unfold endClassStep
    dsimp only
    split_ifs
    · exact ⟨rfl, .inl hg⟩
    · exact ⟨rfl, .inl hg⟩
  · obtain rfl := Option.some.inj hs
    split_ifs
    · exact ⟨rfl, .inl hg⟩
    · exact ⟨rfl, .inl hg⟩
  · obtain rfl := Option.some.inj hs
    unfold endFullStep
    dsimp only
    split_ifs
    · exact ⟨rfl, .inl hg⟩
    · exact ⟨rfl, .inl hg⟩
    · exact ⟨rfl, .inl hg⟩
  · obtain ⟨chunks, -, rfl⟩ := Option.map_eq_some_iff.mp hs
    exact ⟨rfl, .inl hg⟩
  · obtain ⟨chunks, -, rfl⟩ := Option.map_eq_some_iff.mp hs
    dsimp only
    split_ifs
    · exact ⟨rfl, .inr ⟨Function.update_self .., Function.update_self ..⟩⟩
    · exact ⟨rfl, .inl hg⟩
  · cases hs

/-! ### Runs -/

/-- In every heap the spans are where the call of its thread says; a heap without a thread has all
of them in its lists. -/
structure Catalogued (s : PoolState ι) : Prop where
  nodup : s.heaps.Nodup
  owner : ∀ i k, s.gHeap i = some k → (s.pcs i).Lists (s.heap k).lists
  orphan : ∀ k ∈ s.heaps, (∀ i, s.gHeap i ≠ some k) → Listed (s.heap k).lists

namespace Catalogued

omit [DecidableEq ι] in
/-- A step of thread `i` that keeps the lists of its own heap. -/
theorem turn (h : Catalogued s) (hlanes : Lanes s) (hothers : OthersStand s t i)
    (hgrow : HeapsGrow s t i) (hown : ∀ k, t.gHeap i = some k → (t.pcs i).Lists (t.heap k).lists)
    (hleft : ∀ k, s.gHeap i = some k → t.gHeap i ≠ some k → Listed (t.heap k).lists) :
    Catalogued t where
  nodup := by
    rcases hgrow with heq | ⟨k, hk, heq, -⟩
    · rw [heq]
      exact h.nodup
    · rw [heq]
      exact List.nodup_cons.mpr ⟨hk, h.nodup⟩
  owner := by
    intro j k hg
    by_cases hj : j = i
    · rw [hj] at hg ⊢
      exact hown k hg
    · rw [hothers.gHeap j hj] at hg
      rw [hothers.pcs j hj]
      apply (h.owner j k hg).same
      apply hothers.links k ((lane_some hg).mp (hlanes.lane j)).1
      exact fun hi => hj (hlanes.once j i k hg hi)
  orphan := by
    intro k hk hno
    have hold : k ∈ s.heaps := by
      rcases hgrow with heq | ⟨m, -, heq, hm⟩
      · exact heq ▸ hk
      · rw [heq] at hk
        rcases List.mem_cons.mp hk with rfl | hk
        · exact absurd hm (hno i)
        · exact hk
    by_cases hi : s.gHeap i = some k
    · exact hleft k hi (hno i)
    · have hlisted : Listed (s.heap k).lists := by
        apply h.orphan k hold
        intro j hj
        by_cases hji : j = i
        · exact hi (hji ▸ hj)
        · exact hno j ((hothers.gHeap j hji).trans hj)
      have hpc : PoolPc.idle.Lists (s.heap k).lists := hlisted
      exact hpc.same (hothers.links k hold hi)

omit [DecidableEq ι] in
theorem outsideEnd (h : Catalogued s) (hlanes : Lanes s) (hout : OutsideEnd s t i)
    (hends : (s.pcs i).ends = false) (hok : Lanes t) : Catalogued t := by
  apply h.turn hlanes hout.others hout.grow
  · intro k hg
    have hst := hok.stands hg
    have hno := hout.ends hends
    cases hpc : t.pcs i with
    | idle =>
      rw [hpc] at hst
      exact listed_of_heapInv hst.2.2
    | refill old =>
      rw [hpc] at hst
      exact listed_of_heapInv hst.2.2
    | large size old =>
      rw [hpc] at hst
      exact listed_of_heapInv hst.2.2
    | release old new =>
      rw [hpc] at hst
      exact listed_of_heapInv hst.2.2
    | _ =>
      rw [hpc] at hno
      cases hno
  · exact fun k hk hne => absurd (hout.keeps k hk) hne

theorem callStep (h : Catalogued s) (hlanes : Lanes s) (hg : s.gHeap i = some k) {os : Option ℕ}
    (hs : callStep s i k os now = some t) (hok : Lanes t) : Catalogued t := by
  have hend {pc : PoolPc} (hpc : s.pcs i = pc) (hs : endStep s i k now pc = some t) :
      Catalogued t := by
    have hlists : (t.pcs i).Lists (t.heap k).lists := by
      apply lists_endStep _ hpc hs
      rw [← hpc]
      exact h.owner i k hg
    obtain ⟨hheaps, hkeep⟩ := endStep_heaps hg hs
    apply h.turn hlanes (.endStep hg hs) (.inl hheaps)
    · intro m hm
      rcases hkeep with hkeep | ⟨hnone, -⟩
      · obtain rfl := Option.some.inj (hkeep.symm.trans hm)
        exact hlists
      · rw [hnone] at hm
        cases hm
    · intro m hm hne
      obtain rfl := Option.some.inj (hg.symm.trans hm)
      rcases hkeep with hkeep | ⟨-, hidle⟩
      · exact absurd hkeep hne
      · rw [hidle] at hlists
        exact hlists
  unfold MemoryPool.callStep at hs
  cases hpc : s.pcs i with
  | idle =>
    rw [hpc] at hs
    cases hs
  | refill old =>
    rw [hpc] at hs
    refine h.outsideEnd hlanes (.of_inCall (.refillStep hg hs)) ?_ hok
    rw [hpc]
    rfl
  | large size old =>
    rw [hpc] at hs
    refine h.outsideEnd hlanes (.of_inCall (.largeStep hg hs)) ?_ hok
    rw [hpc]
    rfl
  | release old new =>
    rw [hpc] at hs
    obtain rfl := Option.some.inj hs
    have hends : (s.pcs i).ends = false := by
      rw [hpc]
      rfl
    refine h.outsideEnd hlanes (.of_inCall ?_) hends hok
    exact (InCall.memopFreeRaw s i old now).trans ((InCall.live ..).trans (.ret ..))
  | endClass c span kept =>
    rw [hpc] at hs
    exact hend hpc hs
  | endFull span kept keptTail =>
    rw [hpc] at hs
    exact hend hpc hs
  | endCache =>
    rw [hpc] at hs
    exact hend hpc hs

theorem endedThread (h : Catalogued s) (hlanes : Lanes s) (hidle : s.pcs i = .idle)
    (hg : s.gHeap i = some k) :
    Catalogued (endClassStart { s with chunks := s.chunks.setPc i .ending } i k 0) := by
  have hlists := h.owner i k hg
  rw [hidle] at hlists
  apply h.turn hlanes (i := i)
  · refine .of_own hg ?_ (fun _ _ => rfl) rfl (.inl rfl) ?_
    · exact fun j hj => Function.update_of_ne hj ..
    · exact fun m hm => setLists_of_ne _ _ hm
  · exact .inl rfl
  · intro m hm
    obtain rfl := Option.some.inj (hg.symm.trans hm)
    exact lists_endClassStart (s := { s with chunks := s.chunks.setPc i .ending }) hlists
      (by decide)
  · exact fun m hm hne => absurd hm hne

theorem step (h : Catalogued s) (hlanes : Lanes s) {l : PoolLabel ι} (hs : poolStep s l = some t)
    (hok : Lanes t) : Catalogued t := by
  have hidle {j : ι} (hpc : s.pcs j = .idle) : (s.pcs j).ends = false := by
    rw [hpc]
    rfl
  cases l with
  | createdThread i heap =>
    simp only [poolStep] at hs
    split_ifs at hs with hpc
    obtain ⟨⟨u, r⟩, hget, rfl⟩ := Option.map_eq_some_iff.mp hs
    exact h.outsideEnd hlanes (.getHeap hget) (hidle hpc) hok
  | endedThread i =>
    simp only [poolStep] at hs
    split_ifs at hs with hpc
    split at hs
    · rw [← Option.some.inj hs]
      exact h
    · rename_i k hg
      rw [← Option.some.inj hs]
      exact h.endedThread hlanes hpc hg
  | alloc i size heap =>
    simp only [poolStep] at hs
    split_ifs at hs with hpc
    exact h.outsideEnd hlanes (.memopAllocRaw hs) (hidle hpc) hok
  | free i ptr now =>
    simp only [poolStep] at hs
    split_ifs at hs with hpc
    cases ptr with
    | none =>
      rw [← Option.some.inj hs]
      exact h
    | some p =>
      dsimp only at hs
      split_ifs at hs
      obtain rfl := Option.some.inj hs
      exact h.outsideEnd hlanes (.freed s i p now) (hidle hpc) hok
  | realloc i ptr size heap now =>
    simp only [poolStep] at hs
    split_ifs at hs with hpc
    cases ptr with
    | none => exact h.outsideEnd hlanes (.memopAllocRaw hs) (hidle hpc) hok
    | some p =>
      dsimp only at hs
      split_ifs at hs
      exact h.outsideEnd hlanes (.memopReallocRaw hs) (hidle hpc) hok
  | step i os now =>
    simp only [poolStep] at hs
    split at hs
    · cases hs
    · rename_i k hg
      exact h.callStep hlanes hg hs hok
  | purge now =>
    rw [← Option.some.inj hs]
    exact ⟨h.nodup, h.owner, h.orphan⟩

theorem callsStep (h : Catalogued s) (hlanes : Lanes s) {l : PoolCall ι}
    (hs : poolCallStep s l = some t) (hok : Lanes t) : Catalogued t := by
  cases l with
  | calloc i count size heap =>
    simp only [poolCallStep] at hs
    split_ifs at hs with hpc
    have hidle : (s.pcs i).ends = false := by
      rw [hpc]
      rfl
    unfold memopCallocRaw at hs
    split_ifs at hs
    · obtain rfl := Option.some.inj hs
      exact h.outsideEnd hlanes (.of_inCall (.allocFailed ..)) hidle hok
    · exact h.outsideEnd hlanes (.memopAllocRaw hs) hidle hok
  | pool l => exact h.step hlanes hs hok

omit [DecidableEq ι] in
theorem spans (h : Catalogued s) (hk : k ∈ s.heaps) :
    ∃ v E, Chained (s.heap k).lists.next (roots (s.heap k).lists) v E ∧
      (∀ a ∈ E, a ∈ (s.heap k).lists.owned) ∧
      ((∀ i, s.gHeap i = some k → (s.pcs i).relinks = false) →
        ∀ a ∈ (s.heap k).lists.owned, a ∈ E) := by
  by_cases hown : ∃ i, s.gHeap i = some k
  · obtain ⟨i, hg⟩ := hown
    obtain ⟨v, E, hv, hE, hall⟩ := (h.owner i k hg).spans
    exact ⟨v, E, hv, hE, fun hno => hall (hno i hg)⟩
  · obtain ⟨v, hv⟩ := h.orphan k hk fun i hg => hown ⟨i, hg⟩
    exact ⟨v, _, hv, fun _ ha => ha, fun _ _ ha => ha⟩

omit [DecidableEq ι] in
theorem init : Catalogued (poolNew ι) where
  nodup := List.nodup_nil
  owner := fun _ _ hg => absurd hg (Option.some_ne_none _).symm
  orphan := fun _ hk _ => absurd hk List.not_mem_nil

end Catalogued

/-- In every state of every run each heap's spans are in its lists, but for the list that a thread
that ends is going through. -/
theorem catalogued_run (h : (poolCalls ι).ReachableWhen MapsUserSpace s) :
    PoolOk s ∧ Catalogued s := by
  refine System.ReachableWhen.invariant (P := fun s => PoolOk s ∧ Catalogued s) ?_ ?_ h
  · rintro _ rfl
    exact ⟨poolOk_init, .init⟩
  · rintro u l v ⟨hok, hcat⟩ hl hs
    have hok' := hok.callsStep hl hs
    exact ⟨hok', hcat.callsStep hok.lanes hs hok'.lanes⟩

end
end Xplatbase.MemoryPool
