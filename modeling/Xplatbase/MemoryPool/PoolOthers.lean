import Xplatbase.MemoryPool.PoolOverlap

/-! What a step of a call can change: of the other threads nothing, of the heaps that are not the
thread's own the headers of spans only, and the headers of LARGE blocks as `memop_alloc_large` writes
them. -/
namespace Xplatbase.MemoryPool
open Xplatbase.Lib Xplatbase.Memory

variable {ι : Type*}

/-- The lists of a heap are as they were, and so is its owner in `memop_refill`. -/
structure SameLinks (h h' : Heap.MemHeap) : Prop where
  spans : h'.spans = h.spans
  fullHead : h'.fullHead = h.fullHead
  next : h'.next = h.next
  owned : h'.owned = h.owned
  pc : h'.pc = h.pc

theorem SameLinks.refl (h : Heap.MemHeap) : SameLinks h h := ⟨rfl, rfl, rfl, rfl, rfl⟩

theorem SameLinks.trans {h h' h'' : Heap.MemHeap} (hl : SameLinks h h') (hl' : SameLinks h' h'') :
    SameLinks h h'' where
  spans := hl'.spans.trans hl.spans
  fullHead := hl'.fullHead.trans hl.fullHead
  next := hl'.next.trans hl.next
  owned := hl'.owned.trans hl.owned
  pc := hl'.pc.trans hl.pc

/-- The threads but `i` stand where they did, and the lists of the heaps but its own are as they
were. -/
structure OthersStand (s t : PoolState ι) (i : ι) : Prop where
  pcs : ∀ j ≠ i, t.pcs j = s.pcs j
  gHeap : ∀ j ≠ i, t.gHeap j = s.gHeap j
  heaps : ∀ k ∈ s.heaps, k ∈ t.heaps
  own : ∀ k ∈ s.heaps, t.gHeap i = some k → s.gHeap i = some k
  links : ∀ k ∈ s.heaps, s.gHeap i ≠ some k → SameLinks (s.heap k).lists (t.heap k).lists

/-- The thread is in `memop_on_ended_thread`. -/
def PoolPc.ends : PoolPc → Bool
  | .endClass .. | .endFull .. | .endCache => true
  | _ => false

/-- All that a step of a call but `memop_on_ended_thread` can change, by a thread that has its
heap. -/
structure InCall (s t : PoolState ι) (i : ι) : Prop where
  pcs : ∀ j ≠ i, t.pcs j = s.pcs j
  ends : (s.pcs i).ends = false → (t.pcs i).ends = false
  heaps : t.heaps = s.heaps
  gHeap : t.gHeap = s.gHeap
  links : ∀ k, s.gHeap i ≠ some k → SameLinks (s.heap k).lists (t.heap k).lists
  large : ∀ c x, t.header c = .large x →
    s.header c = .large x ∨ ∃ size, Heap.memopAllocLarge size true = .block x

section
variable {s t u : PoolState ι} {i j : ι} {k : ℕ} {old : Option Ptr} {size : BitVec 64} {p : Ptr}

namespace OthersStand

theorem refl (s : PoolState ι) (i : ι) : OthersStand s s i :=
  ⟨fun _ _ => rfl, fun _ _ => rfl, fun _ hk => hk, fun _ _ hk => hk, fun _ _ _ => .refl _⟩

theorem trans (h : OthersStand s t i) (h' : OthersStand t u i) : OthersStand s u i where
  pcs := fun j hj => (h'.pcs j hj).trans (h.pcs j hj)
  gHeap := fun j hj => (h'.gHeap j hj).trans (h.gHeap j hj)
  heaps := fun k hk => h'.heaps k (h.heaps k hk)
  own := fun k hk hg => h.own k hk (h'.own k (h.heaps k hk) hg)
  links := by
    intro k hk hno
    exact (h.links k hk hno).trans (h'.links k (h.heaps k hk) fun hg => hno (h.own k hk hg))

theorem of_own (hg : s.gHeap i = some k) (hpcs : ∀ j ≠ i, t.pcs j = s.pcs j)
    (hgs : ∀ j ≠ i, t.gHeap j = s.gHeap j) (hheaps : t.heaps = s.heaps)
    (hown : t.gHeap i = s.gHeap i ∨ t.gHeap i = none) (hheap : ∀ m ≠ k, t.heap m = s.heap m) :
    OthersStand s t i where
  pcs := hpcs
  gHeap := hgs
  heaps := fun _ hk => hheaps.symm ▸ hk
  own := by
    intro m _ hm
    rcases hown with hown | hown
    · exact hown.symm.trans hm
    · rw [hown] at hm
      cases hm
  links := by
    intro m _ hno
    have hne : m ≠ k := by
      rintro rfl
      exact hno hg
    rw [hheap m hne]
    exact .refl _

theorem outside (hheap : t.heap = s.heap) (hheaps : t.heaps = s.heaps) (hgs : t.gHeap = s.gHeap)
    (hpcs : t.pcs = s.pcs) : OthersStand s t i where
  pcs := fun j _ => congrFun hpcs j
  gHeap := fun j _ => congrFun hgs j
  heaps := fun _ hk => hheaps.symm ▸ hk
  own := fun _ _ hk => (congrFun hgs i).symm.trans hk
  links := fun k _ _ => by
    rw [hheap]
    exact .refl _

/-- Another thread's heap is where it was in `memop_refill`. -/
theorem place (h : OthersStand s t i) (hlanes : Lanes s) (hj : j ≠ i) (hk : s.gHeap j = some k) :
    (t.heap k).lists.pc = (s.heap k).lists.pc := by
  apply (h.links k ((lane_some hk).mp (hlanes.lane j)).1 _).pc
  exact fun hi => hj (hlanes.once j i k hk hi)

end OthersStand

/-! ### Calls that do not end the thread -/

namespace InCall

theorem others (h : InCall s t i) : OthersStand s t i where
  pcs := h.pcs
  gHeap := fun j _ => congrFun h.gHeap j
  heaps := fun _ hk => h.heaps.symm ▸ hk
  own := fun _ _ hk => (congrFun h.gHeap i).symm.trans hk
  links := fun k _ hno => h.links k hno

theorem trans (h : InCall s t i) (h' : InCall t u i) : InCall s u i where
  pcs := fun j hj => (h'.pcs j hj).trans (h.pcs j hj)
  ends := fun hs => h'.ends (h.ends hs)
  heaps := h'.heaps.trans h.heaps
  gHeap := h'.gHeap.trans h.gHeap
  links := by
    intro k hno
    have hno' : t.gHeap i ≠ some k := by
      rw [h.gHeap]
      exact hno
    exact (h.links k hno).trans (h'.links k hno')
  large := by
    intro c x hx
    rcases h'.large c x hx with hx | hx
    · exact h.large c x hx
    · exact .inr hx

/-- A step that writes to no list of spans and to no header. -/
theorem of_same (hs : SameStorage s t) (hgs : t.gHeap = s.gHeap)
    (hpcs : ∀ j ≠ i, t.pcs j = s.pcs j)
    (hends : (s.pcs i).ends = false → (t.pcs i).ends = false) : InCall s t i where
  pcs := hpcs
  ends := hends
  heaps := hs.heaps
  gHeap := hgs
  links := fun k _ => by
    rw [hs.lists k]
    exact .refl _
  large := fun c x hx => .inl (congrFun hs.header c ▸ hx)

/-- A step in the chunks, the headers, the mappings or what callers hold. -/
theorem outside (hheap : t.heap = s.heap) (hheaps : t.heaps = s.heaps) (hgs : t.gHeap = s.gHeap)
    (hpcs : t.pcs = s.pcs) (hlarge : ∀ c x, t.header c = .large x →
      s.header c = .large x ∨ ∃ size, Heap.memopAllocLarge size true = .block x) :
    InCall s t i where
  pcs := fun j _ => congrFun hpcs j
  ends := fun h => (congrArg PoolPc.ends (congrFun hpcs i)).trans h
  heaps := hheaps
  gHeap := hgs
  links := fun k _ => by
    rw [hheap]
    exact .refl _
  large := hlarge

theorem setHeader {o : SpanOwner} (ho : ∀ x, o = .large x →
    ∃ size, Heap.memopAllocLarge size true = .block x) (m : ℕ) :
    InCall s { s with header := Function.update s.header m o } i := by
  refine outside rfl rfl rfl rfl ?_
  intro c x hx
  dsimp only at hx
  by_cases hc : c = m
  · rw [hc, Function.update_self] at hx
    exact .inr (ho x hx)
  · rw [Function.update_of_ne hc] at hx
    exact .inl hx

/-- Whoever writes to a heap: it is its own, or the lists stay. -/
theorem setLists {lists : Heap.MemHeap}
    (hl : s.gHeap i = some k ∨ SameLinks (s.heap k).lists lists) :
    InCall s (s.setLists k lists) i where
  pcs := fun _ _ => rfl
  ends := id
  heaps := rfl
  gHeap := rfl
  links := by
    intro m hno
    by_cases hm : m = k
    · rw [hm, setLists_self]
      exact hl.resolve_left fun hg => hno (hm ▸ hg)
    · rw [setLists_of_ne s lists hm]
      exact .refl _
  large := fun _ _ hx => .inl hx

theorem live (s : PoolState ι) (i : ι) (live : List Ptr) : InCall s { s with live := live } i :=
  outside rfl rfl rfl rfl fun _ _ => .inl

theorem chunks (s : PoolState ι) (i : ι) (chunks : ChunkState ι) :
    InCall s { s with chunks := chunks } i :=
  outside rfl rfl rfl rfl fun _ _ => .inl

variable [DecidableEq ι]

theorem setPc (s : PoolState ι) (i : ι) {pc : PoolPc} (hpc : pc.ends = false) :
    InCall s (s.setPc i pc) i :=
  of_same ⟨rfl, rfl, fun _ => rfl, rfl, rfl⟩ rfl (fun _ hj => Function.update_of_ne hj ..)
    fun _ => (congrArg PoolPc.ends (Function.update_self ..)).trans hpc

theorem ret (s : PoolState ι) (i : ι) (call : CallEnd) : InCall s (s.ret i call) i := by
  have hidle : InCall s (s.setPc i .idle) i := setPc s i rfl
  exact hidle.trans (outside rfl rfl rfl rfl fun _ _ => .inl)

theorem allocated (s : PoolState ι) (i : ι) (k : ℕ) (q : Ptr) (old : Option Ptr) :
    InCall s (allocated s i k q old) i := by
  have hcount : InCall s (s.countAlloc k) i := .of_same (.countAlloc s k) rfl (fun _ _ => rfl) id
  apply hcount.trans
  cases old with
  | none => exact (live _ i _).trans (ret ..)
  | some p => exact setPc _ i rfl

theorem allocFailed (s : PoolState ι) (i : ι) (old : Option Ptr) :
    InCall s (allocFailed s i old) i :=
  (live s i _).trans (ret ..)

theorem afterAlloc (hg : s.gHeap i = some k) (lists : Heap.MemHeap) (old : Option Ptr) :
    InCall s (afterAlloc s i k lists old) i := by
  apply (setLists (.inl hg)).trans
  unfold MemoryPool.afterAlloc
  dsimp only
  split_ifs
  · split
    · exact allocated ..
    · exact allocFailed ..
  · exact setPc _ i rfl

theorem refillStep (hg : s.gHeap i = some k) {os : Option ℕ}
    (hs : refillStep s i k os old = some t) : InCall s t i := by
  cases refillStep_cases hs with
  | spans lists => exact afterAlloc hg lists old
  | acquires c chunks => exact InCall.chunks s i chunks
  | refused c chunks lists =>
    refine (InCall.chunks s i chunks).trans (afterAlloc ?_ lists old)
    exact hg
  | creates c m chunks =>
    apply (InCall.chunks s i chunks).trans
    have hsmall : ∀ x, SpanOwner.small k = .large x →
        ∃ size, Heap.memopAllocLarge size true = .block x := by
      intro x hx
      cases hx
    refine (setHeader hsmall m).trans (afterAlloc ?_ _ old)
    exact hg

theorem largeGiven (hg : s.gHeap i = some k) {x : Heap.LargeSpan}
    (hx : Heap.memopAllocLarge size true = .block x) (m : ℕ) (old : Option Ptr) :
    InCall s (largeGiven s i k m x old) i := by
  have hwritten : ∀ y, SpanOwner.large x = .large y →
      ∃ size, Heap.memopAllocLarge size true = .block y := by
    intro y hy
    obtain rfl := SpanOwner.large.inj hy
    exact ⟨size, hx⟩
  refine (setHeader hwritten m).trans ((setLists (.inl ?_)).trans (allocated ..))
  exact hg

theorem largeStep (hg : s.gHeap i = some k) {os : Option ℕ}
    (hs : largeStep s i k size os old = some t) : InCall s t i := by
  cases largeStep_cases hs with
  | acquires chunks => exact InCall.chunks s i chunks
  | noChunk chunks => exact (InCall.chunks s i chunks).trans (allocFailed ..)
  | chunk m x chunks _ _ hx =>
    refine (InCall.chunks s i chunks).trans (largeGiven ?_ hx m old)
    exact hg
  | noMapping => exact allocFailed ..
  | mapping m x _ _ _ hx =>
    have hmapped : InCall s { s with mappings := (m, largeUnits size) :: s.mappings } i :=
      outside rfl rfl rfl rfl fun _ _ => .inl
    refine hmapped.trans (largeGiven ?_ hx m old)
    exact hg

theorem memopFreeRaw (s : PoolState ι) (i : ι) (p : Ptr) (now : BitVec 64) :
    InCall s (memopFreeRaw s i p now) i := by
  have hfree (u : PoolState ι) : InCall u (u.countFree i) i := by
    obtain ⟨hpcs, hgs⟩ := countFree_rest u i
    exact of_same (.countFree u i) hgs (fun j _ => congrFun hpcs j)
      fun h => (congrArg PoolPc.ends (congrFun hpcs i)).trans h
  have hremote (u : PoolState ι) : InCall u (u.countRemoteFree i) i := by
    obtain ⟨hpcs, hgs⟩ := countRemoteFree_rest u i
    exact of_same (.countRemoteFree u i) hgs (fun j _ => congrFun hpcs j)
      fun h => (congrArg PoolPc.ends (congrFun hpcs i)).trans h
  unfold MemoryPool.memopFreeRaw
  cases s.header p.span with
  | large x =>
    dsimp only
    split_ifs
    · exact (hfree s).trans (InCall.chunks ..)
    · exact (hfree s).trans (outside rfl rfl rfl rfl fun _ _ => .inl)
  | small k =>
    have hpush : InCall s (s.setLists k (Heap.remotePush (s.heap k).lists p.span p.block)) i :=
      setLists (.inr ⟨rfl, rfl, rfl, rfl, rfl⟩)
    dsimp only
    split_ifs with hg
    · exact (setLists (.inl hg)).trans (hfree _)
    · exact ((setLists (.inl hg)).trans (hfree _)).trans (InCall.chunks ..)
    · exact hpush.trans (hremote _)

end InCall

/-! ### Calls that may take a heap -/

def HeapsGrow (s t : PoolState ι) (i : ι) : Prop :=
  t.heaps = s.heaps ∨ ∃ k ∉ s.heaps, t.heaps = k :: s.heaps ∧ t.gHeap i = some k

theorem HeapsGrow.inCall (h : HeapsGrow s t i) (h' : InCall t u i) : HeapsGrow s u i := by
  rcases h with h | ⟨k, hk, hheaps, hg⟩
  · exact .inl (h'.heaps.trans h)
  · exact .inr ⟨k, hk, h'.heaps.trans hheaps, (congrFun h'.gHeap i).trans hg⟩

/-- The step takes a heap at most, and is not one of `memop_on_ended_thread`. -/
structure OutsideEnd (s t : PoolState ι) (i : ι) : Prop where
  others : OthersStand s t i
  ends : (s.pcs i).ends = false → (t.pcs i).ends = false
  grow : HeapsGrow s t i
  keeps : ∀ k, s.gHeap i = some k → t.gHeap i = some k
  large : ∀ c x, t.header c = .large x →
    s.header c = .large x ∨ ∃ size, Heap.memopAllocLarge size true = .block x

namespace OutsideEnd

theorem of_inCall (h : InCall s t i) : OutsideEnd s t i :=
  ⟨h.others, h.ends, .inl h.heaps, fun _ hk => (congrFun h.gHeap i).trans hk, h.large⟩

theorem inCall (h : OutsideEnd s t i) (h' : InCall t u i) : OutsideEnd s u i where
  others := h.others.trans h'.others
  ends := fun hs => h'.ends (h.ends hs)
  grow := h.grow.inCall h'
  keeps := fun k hk => (congrFun h'.gHeap i).trans (h.keeps k hk)
  large := by
    intro c x hx
    rcases h'.large c x hx with hx | hx
    · exact h.large c x hx
    · exact .inr hx

variable [DecidableEq ι]

theorem heapCreate (hg : s.gHeap i = none) (hk : k ∉ s.heaps) :
    OutsideEnd s (heapCreate s i k) i where
  others := by
    constructor
    · exact fun _ _ => rfl
    · exact fun j hj => Function.update_of_ne hj ..
    · exact fun m hm => List.mem_cons_of_mem k hm
    · intro m hm hown
      have hself : (MemoryPool.heapCreate s i k).gHeap i = some k := Function.update_self ..
      obtain rfl := Option.some.inj (hself.symm.trans hown)
      exact absurd hm hk
    · intro m hm _
      have hne : m ≠ k := by
        rintro rfl
        exact hk hm
      simp only [MemoryPool.heapCreate, Function.update_of_ne hne]
      exact .refl _
  ends := id
  grow := .inr ⟨k, hk, rfl, Function.update_self ..⟩
  keeps := by
    intro m hm
    rw [hg] at hm
    cases hm
  large := fun _ _ hx => .inl hx

theorem getHeap {heap r : Option ℕ} (hget : getHeap s i heap = some (t, r)) :
    OutsideEnd s t i := by
  cases hg : s.gHeap i with
  | some k =>
    unfold MemoryPool.getHeap at hget
    rw [hg] at hget
    obtain ⟨rfl, -⟩ := Prod.mk.inj (Option.some.inj hget)
    exact ⟨.refl s i, id, .inl rfl, fun _ hk => hk, fun _ _ hx => .inl hx⟩
  | none =>
    rcases getHeap_cases hget with ⟨rfl, -⟩ | ⟨k, hk, rfl, -⟩
    · exact ⟨.refl t i, id, .inl rfl, fun _ hk => hk, fun _ _ hx => .inl hx⟩
    · exact heapCreate hg hk

/-- The heap that `get_heap` returns is the thread's own. -/
theorem getHeap_own {heap : Option ℕ}
    (hget : MemoryPool.getHeap s i heap = some (t, some k)) : t.gHeap i = some k := by
  rcases getHeap_cases hget with ⟨rfl, hg⟩ | ⟨m, -, rfl, hm⟩
  · exact hg.symm
  · exact (Function.update_self ..).trans hm.symm

theorem memopAllocRaw {heap : Option ℕ} (hs : memopAllocRaw s i size heap old = some t) :
    OutsideEnd s t i := by
  cases memopAllocRaw_cases hs with
  | nothing => exact of_inCall (.allocFailed ..)
  | noHeap u hget => exact (getHeap hget).inCall (.allocFailed ..)
  | large u k hget => exact (getHeap hget).inCall (.setPc u i rfl)
  | small u k c hget => exact (getHeap hget).inCall (.afterAlloc (getHeap_own hget) _ old)

theorem freed (s : PoolState ι) (i : ι) (p : Ptr) (now : BitVec 64) :
    OutsideEnd s ((memopFreeRaw { s with live := s.live.erase p } i p now).ret i .freed) i :=
  of_inCall ((InCall.live s i _).trans ((InCall.memopFreeRaw ..).trans (.ret ..)))

theorem memopReallocRaw {heap : Option ℕ} {now : BitVec 64}
    (hs : memopReallocRaw s i p size heap now = some t) : OutsideEnd s t i := by
  unfold MemoryPool.memopReallocRaw at hs
  split_ifs at hs
  · obtain rfl := Option.some.inj hs
    exact freed s i p now
  · obtain rfl := Option.some.inj hs
    exact of_inCall (.ret ..)
  · have hlive := InCall.live s i (s.live.erase p)
    have halloc := memopAllocRaw hs
    refine ⟨hlive.others.trans halloc.others, halloc.ends, halloc.grow, halloc.keeps, halloc.large⟩

end OutsideEnd

/-! ### The end of a thread -/

section
variable [DecidableEq ι]

theorem OthersStand.endStep (hg : s.gHeap i = some k) {now : BitVec 64} {pc : PoolPc}
    (hs : endStep s i k now pc = some t) : OthersStand s t i := by
  have hlists {u : PoolState ι} {pc : PoolPc}
      (hpcs : u.pcs = Function.update s.pcs i pc) (hgs : u.gHeap = s.gHeap)
      (hheaps : u.heaps = s.heaps) (hheap : ∀ m ≠ k, u.heap m = s.heap m) :
      OthersStand s u i := by
    refine .of_own hg ?_ (fun j _ => congrFun hgs j) hheaps (.inl (congrFun hgs i)) hheap
    intro j hj
    rw [hpcs, Function.update_of_ne hj]
  have hset {u : PoolState ι} {lists : Heap.MemHeap} (hu : ∀ m ≠ k, u.heap m = s.heap m) :
      ∀ m ≠ k, (u.setLists k lists).heap m = s.heap m :=
    fun m hm => (setLists_of_ne u lists hm).trans (hu m hm)
  unfold MemoryPool.endStep at hs
  split at hs
  · obtain rfl := Option.some.inj hs
    unfold endClassStep
    dsimp only
    split_ifs
    · exact hlists rfl rfl rfl (hset fun _ _ => rfl)
    · exact hlists rfl rfl rfl (hset fun _ _ => rfl)
  · obtain rfl := Option.some.inj hs
    split_ifs
    · exact hlists rfl rfl rfl (hset (hset fun _ _ => rfl))
    · exact hlists rfl rfl rfl (hset (hset fun _ _ => rfl))
  · obtain rfl := Option.some.inj hs
    unfold endFullStep
    dsimp only
    split_ifs
    · exact hlists rfl rfl rfl (hset fun _ _ => rfl)
    · exact hlists rfl rfl rfl (hset fun _ _ => rfl)
    · exact hlists rfl rfl rfl (hset fun _ _ => rfl)
  · obtain ⟨chunks, -, rfl⟩ := Option.map_eq_some_iff.mp hs
    exact hlists rfl rfl rfl (hset fun _ _ => rfl)
  · obtain ⟨chunks, -, rfl⟩ := Option.map_eq_some_iff.mp hs
    dsimp only
    split_ifs
    · refine .of_own hg ?_ ?_ rfl (.inr (Function.update_self ..))
        fun m hm => Function.update_of_ne hm ..
      · exact fun j hj => Function.update_of_ne hj ..
      · exact fun j hj => Function.update_of_ne hj ..
    · exact .outside rfl rfl rfl rfl
  · cases hs

end
end
end Xplatbase.MemoryPool
