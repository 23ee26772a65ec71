import Xplatbase.MemoryPool.PoolTurns

/-! No memory of the pool is lost: a chunk in use or a mapping is a span of a heap, or the memory of
a LARGE block. -/
namespace Xplatbase.MemoryPool
open Xplatbase.Lib Xplatbase.Memory

variable {ι : Type*}

/-- A heap has a span at chunk `c`. -/
def PoolState.Owned (s : PoolState ι) (c : ℕ) : Prop := ∃ k, c ∈ (s.heap k).lists.owned

/-- At chunk `c` lies a span of a heap, or a block in somebody's hands. -/
def PoolState.Taken (s : PoolState ι) (c : ℕ) : Prop :=
  s.Owned c ∨ ∃ q, ∃ p ∈ s.holds q, p.span = c

def Accounted (s : PoolState ι) : Prop := ∀ c n, s.Span c n → s.Taken c

/-- The block is in the hands of the callers or of the call of thread `i`. -/
def PoolState.AtHand (s : PoolState ι) (i : ι) (p : Ptr) : Prop :=
  p ∈ s.live ∨ p ∈ (s.pcs i).blocks

/-- No memory comes into use, and a heap has its spans as long as they are in use. -/
def SpansKept (s t : PoolState ι) : Prop :=
  ∀ c n, t.Span c n → s.Span c n ∧ (s.Owned c → t.Owned c)

def SpansStay (s t : PoolState ι) : Prop :=
  ∀ c n, t.Span c n → s.Span c n ∧ (s.Owned c → t.Owned c) ∨ t.Taken c

section
variable {s t u : PoolState ι} {i : ι} {k c n : ℕ} {p : Ptr} {lists : Heap.MemHeap}
  {v : Option ι → List Ptr} {D : Set Ptr}

theorem Accounted.of_spans (h : Accounted s) (hspans : SpansStay s t)
    (hheld : ∀ q, ∀ p ∈ s.holds q,
      (∃ r, p ∈ t.holds r) ∨ ∀ n, t.Span p.span n → t.Owned p.span) : Accounted t := by
  intro c n hc
  rcases hspans c n hc with ⟨hold, howned⟩ | htaken
  · rcases h c n hold with ho | ⟨q, p, hp, rfl⟩
    · exact .inl (howned ho)
    · rcases hheld q p hp with ⟨r, hr⟩ | hspan
      · exact .inr ⟨r, p, hr, rfl⟩
      · exact .inl (hspan n hc)
  · exact htaken

theorem holds_of_atHand (h : s.AtHand i p) : ∃ q, p ∈ s.holds q := by
  rcases h with hp | hp
  · exact ⟨none, hp⟩
  · exact ⟨some i, hp⟩

theorem SameStorage.owned (h : SameStorage s t) (hc : s.Owned c) : t.Owned c := by
  obtain ⟨k, hk⟩ := hc
  exact ⟨k, (h.lists k).symm ▸ hk⟩

theorem span_of_eq (hused : t.chunks.used = s.chunks.used) (hmaps : t.mappings = s.mappings)
    (h : t.Span c n) : s.Span c n := by
  unfold PoolState.Span at h ⊢
  rw [hused, hmaps] at h
  exact h

theorem SameStorage.span (h : SameStorage s t) (hc : t.Span c n) : s.Span c n :=
  span_of_eq (congrArg ChunkState.used h.chunks) h.mappings hc

theorem SpansKept.stay (h : SpansKept s t) : SpansStay s t := fun c n hc => .inl (h c n hc)

theorem SpansKept.trans (h : SpansKept s u) (h' : SpansStay u t) : SpansStay s t := by
  intro c n hc
  rcases h' c n hc with ⟨hmid, hto⟩ | htaken
  · obtain ⟨hold, hfrom⟩ := h c n hmid
    exact .inl ⟨hold, fun ho => hto (hfrom ho)⟩
  · exact .inr htaken

theorem SpansStay.of_same (h : SameStorage s t) : SpansStay s t :=
  fun _ _ hc => .inl ⟨h.span hc, h.owned⟩

theorem owned_setLists (hsub : c ∈ (s.heap k).lists.owned → c ∈ lists.owned) (hc : s.Owned c) :
    (s.setLists k lists).Owned c := by
  obtain ⟨m, hm⟩ := hc
  by_cases hmk : m = k
  · subst hmk
    refine ⟨m, ?_⟩
    rw [setLists_self]
    exact hsub hm
  · refine ⟨m, ?_⟩
    rw [setLists_of_ne s lists hmk]
    exact hm

theorem Stored.used_ne (h : Stored s v D) {a : ℕ} (ha : a ∈ s.chunks.used) {x : ℕ × ℕ}
    (hx : x ∈ s.mappings) : x.1 ≠ a := by
  have hapart := h.used_apart ha hx
  have hpos := h.apart.length x hx
  omega

end

/-! ### The steps of a call -/

theorem owned_allocTurn {h h' : Heap.MemHeap} (ht : Heap.AllocTurn h h') : h'.owned = h.owned := by
  cases ht with
  | waits _ hworks => exact hworks.owned
  | refused _ _ hworks => exact hworks.owned
  | gives _ _ _ _ howned _ _ _ => exact howned

/-- Thread `i` lets go of no block of `l`. -/
structure Holding (s t : PoolState ι) (i : ι) (l : List Ptr) : Prop where
  keeps : ∀ p ∈ l, t.AtHand i p
  spans : SpansStay s t

section
variable [DecidableEq ι] {s t u : PoolState ι} {i : ι} {k c : ℕ} {p : Ptr} {old : Option Ptr}
  {l : List Ptr} {now : BitVec 64} {lists : Heap.MemHeap}

omit [DecidableEq ι] in
/-- A step of thread `i` that lets go of no block it has at hand. -/
theorem Accounted.held (h : Accounted s) (hpcs : ∀ j ≠ i, t.pcs j = s.pcs j)
    (hheld : Holding s t i l) (hl : ∀ p, s.AtHand i p → p ∈ l) : Accounted t := by
  apply h.of_spans hheld.spans
  intro q p hp
  have hnear (hp : s.AtHand i p) : ∃ r, p ∈ t.holds r :=
    holds_of_atHand (hheld.keeps p (hl p hp))
  cases q with
  | none => exact .inl (hnear (.inl hp))
  | some j =>
    by_cases hj : j = i
    · subst hj
      exact .inl (hnear (.inr hp))
    · refine .inl ⟨some j, ?_⟩
      have hblocks : p ∈ (s.pcs j).blocks := hp
      rw [← hpcs j hj] at hblocks
      exact hblocks

omit [DecidableEq ι] in
/-- Of the chunks that come into use only the one that is returned is new. -/
theorem span_acquired {c : ChunkState ι} {r : Option ℕ} (h : Acquired i s.chunks c (some r))
    {d n : ℕ} (hd : ({ s with chunks := c } : PoolState ι).Span d n) : s.Span d n ∨ r = some d := by
  rcases hd with ⟨hone, hd⟩ | hd
  · have hin : d ∈ c.used := hd
    cases r with
    | none => exact .inl (.inl ⟨hone, h.1 ▸ hin⟩)
    | some m =>
      rw [h.1] at hin
      rcases List.mem_cons.mp hin with rfl | hin
      · exact .inr rfl
      · exact .inl (.inl ⟨hone, hin⟩)
  · exact .inl (.inr hd)

/-- What a step of `chunk_acquire` in the pool does to the chunks. -/
theorem acquired_of {v : Option ι → List Ptr} {D : Set Ptr} (hD : Stored s v D) {os : Option ℕ}
    {c : ChunkState ι} {r : Option (Option ℕ)}
    (hacq : poolAcquire s i os = some ({ s with chunks := c }, r)) : Acquired i s.chunks c r := by
  obtain ⟨c', hc', hstep, -⟩ := poolAcquire_cases hacq
  obtain rfl : c = c' := congrArg PoolState.chunks hc'
  exact (acquireStep_spec hD.chunks hstep).2.2.2.1

namespace Holding

theorem setPc (s : PoolState ι) (i : ι) {pc : PoolPc} (hpc : pc.blocks = old.toList) :
    Holding s (s.setPc i pc) i (old.toList ++ s.live) := by
  refine ⟨?_, .of_same ⟨rfl, rfl, fun _ => rfl, rfl, rfl⟩⟩
  intro p hp
  rcases List.mem_append.mp hp with hp | hp
  · refine .inr ?_
    have hself : (s.setPc i pc).pcs i = pc := Function.update_self ..
    rw [hself, hpc]
    exact hp
  · exact .inl hp

theorem allocFailed (s : PoolState ι) (i : ι) (old : Option Ptr) :
    Holding s (allocFailed s i old) i (old.toList ++ s.live) :=
  ⟨fun _ hp => .inl hp, .of_same (same_allocFailed s i old)⟩

theorem atHand_allocated (s : PoolState ι) (i : ι) (k : ℕ) (new : Ptr) (old : Option Ptr) :
    (MemoryPool.allocated s i k new old).AtHand i new := by
  cases old with
  | none => exact .inl List.mem_cons_self
  | some q =>
    refine .inr ?_
    have hself : (MemoryPool.allocated s i k new (some q)).pcs i = .release q new :=
      Function.update_self ..
    rw [hself]
    exact List.mem_cons_self

theorem allocated (s : PoolState ι) (i : ι) (k : ℕ) (new : Ptr) (old : Option Ptr) :
    Holding s (allocated s i k new old) i (old.toList ++ s.live) := by
  refine ⟨?_, .of_same (same_allocated s i k new old)⟩
  intro p hp
  cases old with
  | none => exact .inl (List.mem_cons_of_mem _ hp)
  | some q =>
    rcases List.mem_append.mp hp with hp | hp
    · refine .inr ?_
      have hself : (MemoryPool.allocated s i k new (some q)).pcs i = .release q new :=
        Function.update_self ..
      rw [hself]
      exact List.mem_cons_of_mem _ hp
    · exact .inl hp

/-- The blocks are at hand after a step of the heap, whatever it was. -/
theorem keeps_afterAlloc (s : PoolState ι) (i : ι) (k : ℕ) (lists : Heap.MemHeap)
    (old : Option Ptr) : ∀ p ∈ old.toList ++ s.live, (afterAlloc s i k lists old).AtHand i p := by
  have hlive : (s.setLists k lists).live = s.live := rfl
  rw [← hlive]
  unfold MemoryPool.afterAlloc
  dsimp only
  split_ifs
  · split
    · exact (allocated ..).keeps
    · exact (allocFailed ..).keeps
  · exact (setPc _ i rfl).keeps

/-- A step of the heap `k`, from a state `u` in which a chunk may have been taken for it. -/
theorem afterAlloc (hlive : u.live = s.live) (hheap : u.heap = s.heap)
    (hspans : ∀ c n, u.Span c n → s.Span c n ∨ c ∈ lists.owned)
    (hsub : ∀ c ∈ (s.heap k).lists.owned, c ∈ lists.owned) (i : ι) (old : Option Ptr) :
    Holding s (afterAlloc u i k lists old) i (old.toList ++ s.live) := by
  have hsame := same_afterAlloc u i k lists old
  constructor
  · rw [← hlive]
    exact keeps_afterAlloc u i k lists old
  · intro c n hc
    have hspan : u.Span c n := hsame.span hc
    rcases hspans c n hspan with hold | hin
    · refine .inl ⟨hold, fun ho => hsame.owned ?_⟩
      have hu : u.Owned c := by
        unfold PoolState.Owned
        rw [hheap]
        exact ho
      apply owned_setLists _ hu
      rw [hheap]
      exact hsub c
    · refine .inr (.inl (hsame.owned ⟨k, ?_⟩))
      rw [setLists_self]
      exact hin

theorem afterTurn (h : Heap.AllocTurn (s.heap k).lists lists) (i : ι) (old : Option Ptr) :
    Holding s (MemoryPool.afterAlloc s i k lists old) i (old.toList ++ s.live) :=
  afterAlloc rfl rfl (fun _ _ => .inl) (fun _ hc => (owned_allocTurn h).symm ▸ hc) i old

omit [DecidableEq ι] in
/-- A step in the chunks that takes none into use, within a call that holds `old`. -/
theorem chunks (hpc : (s.pcs i).blocks = old.toList) {c : ChunkState ι}
    (hused : c.used = s.chunks.used) :
    Holding s { s with chunks := c } i (old.toList ++ s.live) := by
  constructor
  · intro p hp
    rcases List.mem_append.mp hp with hp | hp
    · exact .inr (hpc.symm ▸ hp)
    · exact .inl hp
  · exact fun d n hd => .inl ⟨span_of_eq (t := { s with chunks := c }) hused rfl hd, id⟩

theorem refillStep (hok : PoolOk s) (hg : s.gHeap i = some k) {os : Option ℕ}
    (hpc : s.pcs i = .refill old) (hs : refillStep s i k os old = some t) :
    Holding s t i (old.toList ++ s.live) := by
  obtain ⟨D, hD⟩ := hok.stored
  have hblocks : (s.pcs i).blocks = old.toList := congrArg PoolPc.blocks hpc
  have hst := hok.lanes.stands hg
  rw [hpc] at hst
  obtain ⟨-, -, hi⟩ := hst
  have hacquired {c : ChunkState ι} {r : Option (Option ℕ)}
      (hacq : poolAcquire s i os = some ({ s with chunks := c }, r)) : Acquired i s.chunks c r :=
    acquired_of hD hacq
  cases refillStep_cases hs with
  | spans lists _ hlists => exact afterTurn (hi.turn (fun _ _ => rfl) hlists) i old
  | acquires c chunks _ hacq => exact Holding.chunks hblocks (hacquired hacq).1
  | refused c chunks lists _ hacq hlists =>
    have howned := owned_allocTurn (hi.turn (fun _ _ => rfl) hlists)
    apply Holding.afterAlloc
    · rfl
    · rfl
    · intro d n hd
      exact .inl ((span_acquired (hacquired hacq) hd).resolve_right (Option.some_ne_none d).symm)
    · exact fun _ hd => howned.symm ▸ hd
  | creates c m chunks _ hacq =>
    obtain ⟨-, -, howned, -⟩ := Heap.refillCreate_spec (s.heap k).lists c m
    apply Holding.afterAlloc
    · rfl
    · rfl
    · intro d n hd
      refine (span_acquired (hacquired hacq) hd).imp_right ?_
      intro hnew
      obtain rfl := Option.some.inj hnew
      rw [howned]
      exact Finset.mem_insert_self ..
    · intro d hd
      rw [howned]
      exact Finset.mem_insert_of_mem hd

theorem largeFailed (hlive : u.live = s.live) (hspans : SpansKept s u) :
    Holding s (MemoryPool.allocFailed u i old) i (old.toList ++ s.live) := by
  have hheld := allocFailed u i old
  rw [hlive] at hheld
  exact ⟨hheld.keeps, hspans.trans hheld.spans⟩

/-- A LARGE block is made at `m`, in the memory that the call has got for it. -/
theorem largeGiven {m : ℕ} (hlive : u.live = s.live) (hheap : u.heap = s.heap)
    (hspans : ∀ c n, u.Span c n → s.Span c n ∨ m = c) (x : Heap.LargeSpan) :
    Holding s (largeGiven u i k m x old) i (old.toList ++ s.live) := by
  have howned {c : ℕ} (hc : s.Owned c) : u.Owned c := by
    unfold PoolState.Owned
    rw [hheap]
    exact hc
  rw [← hlive]
  have hnew (w : PoolState ι) (hlive : w.live = u.live) (hspan : ∀ c n, w.Span c n → u.Span c n)
      (hown : ∀ c, u.Owned c → w.Owned c) :
      Holding s (MemoryPool.allocated w i k ⟨m, 0⟩ old) i (old.toList ++ u.live) := by
    have hsame := same_allocated w i k ⟨m, 0⟩ old
    constructor
    · rw [← hlive]
      exact (allocated w i k ⟨m, 0⟩ old).keeps
    · intro c n hc
      rcases hspans c n (hspan c n (hsame.span hc)) with hold | rfl
      · exact .inl ⟨hold, fun ho => hsame.owned (hown c (howned ho))⟩
      · obtain ⟨q, hq⟩ := holds_of_atHand (atHand_allocated w i k ⟨m, 0⟩ old)
        exact .inr (.inr ⟨q, _, hq, rfl⟩)
  exact hnew _ rfl (fun _ _ hc => hc) fun _ ho => owned_setLists (fun hm => hm) ho

theorem largeStep (hok : PoolOk s) {size : BitVec 64} {os : Option ℕ}
    (hpc : s.pcs i = .large size old) (hs : largeStep s i k size os old = some t) :
    Holding s t i (old.toList ++ s.live) := by
  obtain ⟨D, hD⟩ := hok.stored
  have hblocks : (s.pcs i).blocks = old.toList := congrArg PoolPc.blocks hpc
  have hacquired {c : ChunkState ι} {r : Option (Option ℕ)}
      (hacq : poolAcquire s i os = some ({ s with chunks := c }, r)) : Acquired i s.chunks c r :=
    acquired_of hD hacq
  cases largeStep_cases hs with
  | acquires chunks _ hacq => exact Holding.chunks hblocks (hacquired hacq).1
  | noChunk chunks _ hacq =>
    apply largeFailed
    · rfl
    · intro c n hc
      have hspan := span_acquired (hacquired hacq) hc
      exact ⟨hspan.resolve_right (Option.some_ne_none c).symm, id⟩
  | chunk m x chunks _ hacq =>
    apply largeGiven
    · rfl
    · rfl
    · intro c n hc
      exact (span_acquired (hacquired hacq) hc).imp_right Option.some.inj
  | noMapping => exact allocFailed ..
  | mapping m x =>
    apply largeGiven
    · rfl
    · rfl
    · rintro c n (hc | hc)
      · exact .inl (.inl hc)
      · -- the new mapping is that of the new block
        rcases List.mem_cons.mp hc with hnew | hc
        · exact .inr (Prod.mk.inj hnew).1.symm
        · exact .inl (.inr hc)

/-- A thread that has no heap yet may get one, with lists that are in order. -/
theorem getHeap_heap (hcreated : ∀ k ∉ s.heaps, (s.heap k).lists.owned = ∅)
    (hi : ∀ k, s.gHeap i = some k → Heap.HeapInv (s.heap k).lists) {heap r : Option ℕ}
    (hget : MemoryPool.getHeap s i heap = some (t, r)) :
    t.live = s.live ∧ SpansKept s t ∧ ∀ k, r = some k → Heap.HeapInv (t.heap k).lists := by
  rcases getHeap_cases hget with ⟨rfl, rfl⟩ | ⟨k, hk, rfl, rfl⟩
  · exact ⟨rfl, fun _ _ hc => ⟨hc, id⟩, hi⟩
  · refine ⟨rfl, ?_, ?_⟩
    · intro c n hc
      have hold : s.Span c n := hc
      refine ⟨hold, ?_⟩
      rintro ⟨m, hm⟩
      have hne : m ≠ k := by
        rintro rfl
        rw [hcreated m hk] at hm
        exact absurd hm (Finset.notMem_empty c)
      refine ⟨m, ?_⟩
      have hother : (heapCreate s i k).heap m = s.heap m := Function.update_of_ne hne ..
      rw [hother]
      exact hm
    · intro k' hk'
      obtain rfl := Option.some.inj hk'
      have hself : (heapCreate s i k).heap k = ⟨Heap.heapNew, true, 0, 0, 0⟩ :=
        Function.update_self ..
      rw [hself]
      exact heapInv_heapNew

theorem memopAllocRaw (hcreated : ∀ k ∉ s.heaps, (s.heap k).lists.owned = ∅)
    (hi : ∀ k, s.gHeap i = some k → Heap.HeapInv (s.heap k).lists) {size : BitVec 64}
    {heap : Option ℕ} (hs : memopAllocRaw s i size heap old = some t) :
    Holding s t i (old.toList ++ s.live) := by
  have hfrom {u w : PoolState ι} {r : Option ℕ}
      (hget : MemoryPool.getHeap s i heap = some (u, r)) (h : Holding u w i (old.toList ++ u.live)) :
      Holding s w i (old.toList ++ s.live) := by
    obtain ⟨hlive, hspans, -⟩ := getHeap_heap hcreated hi hget
    exact ⟨hlive ▸ h.keeps, hspans.trans h.spans⟩
  cases memopAllocRaw_cases hs with
  | nothing => exact allocFailed ..
  | noHeap u hget => exact hfrom hget (allocFailed ..)
  | large u k hget => exact hfrom hget (setPc _ i rfl)
  | small u k c hget =>
    obtain ⟨-, -, hinv⟩ := getHeap_heap hcreated hi hget
    obtain ⟨⟨ls, hgood⟩, -⟩ := hinv k rfl
    exact hfrom hget (afterTurn (hgood.turn_memopAllocRaw c) i old)

end Holding

end

end Xplatbase.MemoryPool
