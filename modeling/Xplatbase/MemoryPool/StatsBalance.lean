import Xplatbase.Lib.Tally
import Xplatbase.MemoryPool.PoolSteps

/-! The statistics of `memop_get_stats` balance: over every run the counters of the heaps add up to
the calls that allocated and freed, whoever made them. -/
namespace Xplatbase.MemoryPool
open Xplatbase.Lib Xplatbase.Memory

/-- 1 for a thread that holds the old block of a reallocation and has no new one. -/
def PoolPc.grows : PoolPc → ℕ
  | .refill (some _) => 1
  | .large _ (some _) => 1
  | _ => 0

/-- 1 for a thread that holds the old and the new block of a reallocation. -/
def PoolPc.moves : PoolPc → ℕ
  | .release _ _ => 1
  | _ => 0

/-- What a call that returned counts for: as an allocation, as a free, as a block more or less. -/
def CallEnd.allocs : CallEnd → ℕ
  | .allocated => 1
  | .moved => 1
  | _ => 0

def CallEnd.frees : CallEnd → ℕ
  | .freed => 1
  | .moved => 1
  | _ => 0

def CallEnd.news : CallEnd → ℕ
  | .allocated => 1
  | _ => 0

def CallEnd.gone : CallEnd → ℕ
  | .freed => 1
  | _ => 0

def PoolState.allocCount {ι : Type*} [DecidableEq ι] (s : PoolState ι) : BitVec 64 :=
  (memopGetStats s).allocCount

def PoolState.freeCount {ι : Type*} [DecidableEq ι] (s : PoolState ι) : BitVec 64 :=
  (memopGetStats s).freeCount

variable {ι : Type*} [DecidableEq ι] {s s' t : PoolState ι} {i : ι} {k a f : ℕ} {old : Option Ptr}

omit [DecidableEq ι] in
@[simp] theorem PoolState.setHeap_heap (s : PoolState ι) (k : ℕ) (h : PoolHeap) :
    (s.setHeap k h).heap = Function.update s.heap k h := rfl

/-! ### What a step adds to the statistics -/

/-- The statistics of `s'` are those of `s` and `a` allocations and `f` frees more. -/
structure Counted (s s' : PoolState ι) (a f : ℕ) : Prop where
  heaps : s'.heaps = s.heaps
  gHeap : s'.gHeap = s.gHeap
  allocs : s'.allocCount = s.allocCount + BitVec.ofNat 64 a
  frees : s'.freeCount = s.freeCount + BitVec.ofNat 64 f

namespace Counted

theorem of_eq (hh : s'.heaps = s.heaps) (hg : s'.gHeap = s.gHeap)
    (ha : ∀ k, (s'.heap k).sAlloc = (s.heap k).sAlloc)
    (hf : ∀ k, (s'.heap k).sFree = (s.heap k).sFree) : Counted s s' 0 0 := by
  constructor
  · exact hh
  · exact hg
  · simp only [PoolState.allocCount, memopGetStats, hh, ha]
    exact (BitVec.add_zero _).symm
  · simp only [PoolState.freeCount, memopGetStats, hh, hf]
    exact (BitVec.add_zero _).symm

theorem trans {b g : ℕ} (h : Counted s t a f) (h' : Counted t s' b g) :
    Counted s s' (a + b) (f + g) := by
  constructor
  · rw [h'.heaps, h.heaps]
  · rw [h'.gHeap, h.gHeap]
  · rw [h'.allocs, h.allocs, BitVec.ofNat_add, BitVec.add_assoc]
  · rw [h'.frees, h.frees, BitVec.ofNat_add, BitVec.add_assoc]

theorem other (h : Counted s t a f) (hh : s'.heaps = t.heaps) (hg : s'.gHeap = t.gHeap)
    (hm : s'.heap = t.heap) : Counted s s' a f := by
  have hsame : Counted t s' 0 0 :=
    of_eq hh hg (fun k => by rw [hm]) fun k => by rw [hm]
  exact h.trans hsame

theorem setHeap (hn : s.heaps.Nodup) (hk : k ∈ s.heaps) {h : PoolHeap}
    (ha : h.sAlloc = (s.heap k).sAlloc + BitVec.ofNat 64 a)
    (hf : h.sFree = (s.heap k).sFree + BitVec.ofNat 64 f) : Counted s (s.setHeap k h) a f := by
  have hsum (field : PoolHeap → BitVec 64) {n : ℕ}
      (hfield : field h = field (s.heap k) + BitVec.ofNat 64 n) :
      (s.heaps.map fun j => field ((s.setHeap k h).heap j)).sum =
        (s.heaps.map fun j => field (s.heap j)).sum + BitVec.ofNat 64 n := by
    have hupd := sum_map_update hn hk (field ∘ s.heap) (field h)
    rw [← Function.comp_update, hfield, Function.comp_apply, add_comm (field (s.heap k)),
      ← add_assoc] at hupd
    exact add_right_cancel hupd
  exact ⟨rfl, rfl, hsum PoolHeap.sAlloc ha, hsum PoolHeap.sFree hf⟩

theorem setHeap_same {h : PoolHeap} (ha : h.sAlloc = (s.heap k).sAlloc)
    (hf : h.sFree = (s.heap k).sFree) : Counted s (s.setHeap k h) 0 0 := by
  apply of_eq
  · rfl
  · rfl
  · intro j
    by_cases hj : j = k
    · rw [hj, PoolState.setHeap_heap, Function.update_self, ha]
    · rw [PoolState.setHeap_heap, Function.update_of_ne hj]
  · intro j
    by_cases hj : j = k
    · rw [hj, PoolState.setHeap_heap, Function.update_self, hf]
    · rw [PoolState.setHeap_heap, Function.update_of_ne hj]

theorem setLists (s : PoolState ι) (k : ℕ) (lists : Heap.MemHeap) :
    Counted s (s.setLists k lists) 0 0 :=
  setHeap_same rfl rfl

theorem countAlloc (hn : s.heaps.Nodup) (hk : k ∈ s.heaps) : Counted s (s.countAlloc k) 1 0 :=
  setHeap hn hk rfl (BitVec.add_zero _).symm

theorem countFree (hn : s.heaps.Nodup) (hk : k ∈ s.heaps) (hg : s.gHeap i = some k) :
    Counted s (s.countFree i) 0 1 := by
  unfold PoolState.countFree
  rw [hg]
  exact setHeap hn hk (BitVec.add_zero _).symm rfl

theorem countRemoteFree (hn : s.heaps.Nodup) (hk : k ∈ s.heaps) (hg : s.gHeap i = some k) :
    Counted s (s.countRemoteFree i) 0 1 := by
  unfold PoolState.countRemoteFree
  rw [hg]
  exact setHeap hn hk (BitVec.add_zero _).symm rfl

end Counted

/-- A free by a thread with a heap is counted once, in whatever branch it takes. -/
theorem Counted.memopFreeRaw (hn : s.heaps.Nodup) (hk : k ∈ s.heaps) (hg : s.gHeap i = some k)
    (p : Ptr) (now : BitVec 64) : Counted s (memopFreeRaw s i p now) 0 1 := by
  unfold MemoryPool.memopFreeRaw
  cases s.header p.span with
  | large x =>
    dsimp only
    have hc := Counted.countFree hn hk hg
    split_ifs
    · exact hc.other rfl rfl rfl
    · exact hc.other rfl rfl rfl
  | small owner =>
    dsimp only
    have hc (lists : Heap.MemHeap) : Counted s ((s.setLists owner lists).countFree i) 0 1 :=
      (Counted.setLists s owner lists).trans (.countFree hn hk hg)
    split_ifs
    · exact hc _
    · exact (hc _).other rfl rfl rfl
    · exact (Counted.setLists s owner _).trans (.countRemoteFree hn hk hg)

/-! ### Where a call has got to -/

structure Shifts (s s' : PoolState ι) (i : ι) (pc : PoolPc) : Prop where
  pcs : s'.pcs = Function.update s.pcs i pc
  live : s'.live = s.live
  calls : s'.calls = s.calls

/-! ### The invariant -/

section
variable [Fintype ι]

def PoolState.growing (s : PoolState ι) : ℕ := ∑ i, (s.pcs i).grows

def PoolState.moving (s : PoolState ι) : ℕ := ∑ i, (s.pcs i).moves

/-- The counters agree with the calls that returned, and the blocks with both. -/
structure StatsInv (s : PoolState ι) : Prop where
  nodup : s.heaps.Nodup
  listed : ∀ i k, s.gHeap i = some k → k ∈ s.heaps
  allocs : s.allocCount =
    BitVec.ofNat 64 (s.calls.count .allocated + s.calls.count .moved + s.moving)
  frees : s.freeCount = BitVec.ofNat 64 (s.calls.count .freed + s.calls.count .moved)
  blocks : s.live.length + s.growing + s.moving + s.calls.count .freed = s.calls.count .allocated

namespace StatsInv

/-- A step of thread `i` to `pc` that counts `a` allocations and `f` frees. -/
theorem turn (h : StatsInv s) (pc : PoolPc) (hc : Counted s s' a f)
    (hpcs : s'.pcs = Function.update s.pcs i pc)
    (ha : s'.calls.count .allocated + s'.calls.count .moved + pc.moves =
      s.calls.count .allocated + s.calls.count .moved + (s.pcs i).moves + a)
    (hf : s'.calls.count .freed + s'.calls.count .moved =
      s.calls.count .freed + s.calls.count .moved + f)
    (hb : s'.live.length + pc.grows + pc.moves + s'.calls.count .freed + s.calls.count .allocated =
      s.live.length + (s.pcs i).grows + (s.pcs i).moves + s.calls.count .freed +
        s'.calls.count .allocated) :
    StatsInv s' := by
  have hgrow : s'.growing + (s.pcs i).grows = s.growing + pc.grows := by
    unfold PoolState.growing
    rw [hpcs]
    exact sum_update PoolPc.grows s.pcs i pc
  have hmove : s'.moving + (s.pcs i).moves = s.moving + pc.moves := by
    unfold PoolState.moving
    rw [hpcs]
    exact sum_update PoolPc.moves s.pcs i pc
  constructor
  · rw [hc.heaps]
    exact h.nodup
  · rw [hc.heaps, hc.gHeap]
    exact h.listed
  · rw [hc.allocs, h.allocs, ← BitVec.ofNat_add]
    congr 1
    omega
  · rw [hc.frees, h.frees, ← BitVec.ofNat_add]
    congr 1
    omega
  · have hblocks := h.blocks
    omega

/-- A step within a call: no call returns, and the blocks only change hands. -/
theorem go (h : StatsInv s) (pc : PoolPc) (hc : Counted s s' a 0)
    (hpcs : s'.pcs = Function.update s.pcs i pc) (hcalls : s'.calls = s.calls)
    (hm : pc.moves = (s.pcs i).moves + a)
    (hb : s'.live.length + pc.grows + pc.moves =
      s.live.length + (s.pcs i).grows + (s.pcs i).moves) : StatsInv s' := by
  apply h.turn pc hc hpcs
  · rw [hcalls]
    omega
  · rw [hcalls, Nat.add_zero]
  · rw [hcalls]
    omega

theorem ret (h : StatsInv s) (call : CallEnd) (hc : Counted s s' a f)
    (hpcs : s'.pcs = Function.update s.pcs i .idle) (hcalls : s'.calls = call :: s.calls)
    (ha : call.allocs = (s.pcs i).moves + a) (hf : call.frees = f)
    (hb : s'.live.length + call.gone =
      s.live.length + (s.pcs i).grows + (s.pcs i).moves + call.news) : StatsInv s' := by
  have hcount (c : CallEnd) : s'.calls.count c = s.calls.count c + if call = c then 1 else 0 := by
    rw [hcalls, List.count_cons]
    simp only [beq_iff_eq]
  apply h.turn .idle hc hpcs
  · rw [hcount, hcount]
    cases call <;> simp [CallEnd.allocs, PoolPc.moves] at ha ⊢ <;> omega
  · rw [hcount, hcount]
    cases call <;> simp [CallEnd.frees] at hf ⊢ <;> omega
  · rw [hcount, hcount]
    cases call <;> simp [CallEnd.gone, CallEnd.news, PoolPc.moves, PoolPc.grows] at hb ⊢ <;> omega

/-- A call that holds `old` gets its block. -/
theorem allocated (h : StatsInv (s.setPc i (.refill old))) (hk : k ∈ s.heaps) (p : Ptr) :
    StatsInv (allocated s i k p old) := by
  have hsame : Counted (s.setPc i (.refill old)) s 0 0 :=
    .of_eq rfl rfl (fun _ => rfl) fun _ => rfl
  have hc : Counted (s.setPc i (.refill old)) (s.countAlloc k) 1 0 :=
    hsame.trans (.countAlloc h.nodup hk)
  cases old with
  | none =>
    apply h.ret .allocated (i := i)
    · exact hc.other rfl rfl rfl
    · exact (Function.update_idem ..).symm
    · rfl
    · simp [PoolState.setPc, CallEnd.allocs, PoolPc.moves]
    · rfl
    · simp [MemoryPool.allocated, PoolState.ret, PoolState.setPc, PoolState.countAlloc,
        PoolState.setHeap, PoolPc.moves, PoolPc.grows, CallEnd.gone, CallEnd.news]
  | some q =>
    apply h.go (.release q p) (i := i)
    · exact hc.other rfl rfl rfl
    · exact (Function.update_idem ..).symm
    · rfl
    · simp [PoolState.setPc, PoolPc.moves]
    · simp [MemoryPool.allocated, PoolState.setPc, PoolState.countAlloc, PoolState.setHeap,
        PoolPc.moves, PoolPc.grows]

theorem allocFailed (h : StatsInv (s.setPc i (.refill old))) : StatsInv (allocFailed s i old) := by
  apply h.ret .failed (i := i)
  · exact .of_eq rfl rfl (fun _ => rfl) fun _ => rfl
  · exact (Function.update_idem ..).symm
  · rfl
  · cases old <;> simp [PoolState.setPc, CallEnd.allocs, PoolPc.moves]
  · rfl
  · cases old <;> simp [MemoryPool.allocFailed, PoolState.ret, PoolState.setPc, PoolPc.moves,
      PoolPc.grows, CallEnd.gone, CallEnd.news]

theorem same (h : StatsInv s) (hc : Counted s s' 0 0) (hpcs : s'.pcs = s.pcs)
    (hlive : s'.live = s.live) (hcalls : s'.calls = s.calls) (i : ι) : StatsInv s' := by
  apply h.go (s.pcs i) (i := i) hc
  · rw [hpcs, Function.update_eq_self]
  · exact hcalls
  · rfl
  · rw [hlive]

/-- What a step does to the chunks, the span headers and the OS mappings is not accounted for. -/
theorem storage (h : StatsInv s) (hheaps : s'.heaps = s.heaps) (hheap : s'.heap = s.heap)
    (hg : s'.gHeap = s.gHeap) (hpcs : s'.pcs = s.pcs) (hlive : s'.live = s.live)
    (hcalls : s'.calls = s.calls) (i : ι) : StatsInv s' :=
  h.same (.of_eq hheaps hg (fun k => by rw [hheap]) fun k => by rw [hheap]) hpcs hlive hcalls i

/-- A thread outside any call that starts one which allocates. -/
theorem calling (h : StatsInv s) (hidle : s.pcs i = .idle) :
    StatsInv (s.setPc i (.refill none)) := by
  apply h.go (.refill none) (i := i)
  · exact .of_eq rfl rfl (fun _ => rfl) fun _ => rfl
  · rfl
  · rfl
  · rw [hidle]
    rfl
  · rw [hidle]
    rfl

theorem afterAlloc (h : StatsInv (s.setPc i (.refill old))) (hk : k ∈ s.heaps)
    (lists : Heap.MemHeap) : StatsInv (afterAlloc s i k lists old) := by
  have hset : StatsInv ((s.setLists k lists).setPc i (.refill old)) := by
    have hc : Counted (s.setPc i (.refill old)) ((s.setLists k lists).setPc i (.refill old)) 0 0 :=
      (Counted.setLists (s.setPc i (.refill old)) k lists).other rfl rfl rfl
    exact h.same hc rfl rfl rfl i
  unfold MemoryPool.afterAlloc
  dsimp only
  split_ifs with hidle
  · split
    · exact hset.allocated hk _
    · exact hset.allocFailed
  · exact hset

theorem heapCreate (h : StatsInv s) (hk : k ∉ s.heaps) : StatsInv (heapCreate s i k) := by
  have hsum (field : PoolHeap → BitVec 64) {x : PoolHeap} (hx : field x = 0) :
      ((k :: s.heaps).map (field ∘ Function.update s.heap k x)).sum =
        (s.heaps.map (field ∘ s.heap)).sum := by
    rw [Function.comp_update, List.map_cons, List.sum_cons, Function.update_self, hx,
      map_update_of_notMem hk, zero_add]
  have ha : (MemoryPool.heapCreate s i k).allocCount = s.allocCount := hsum PoolHeap.sAlloc rfl
  have hf : (MemoryPool.heapCreate s i k).freeCount = s.freeCount := hsum PoolHeap.sFree rfl
  constructor
  · exact List.nodup_cons.mpr ⟨hk, h.nodup⟩
  · intro j m hj
    change Function.update s.gHeap i (some k) j = some m at hj
    by_cases hji : j = i
    · rw [hji, Function.update_self] at hj
      rw [← Option.some.inj hj]
      exact List.mem_cons_self
    · rw [Function.update_of_ne hji] at hj
      exact List.mem_cons_of_mem k (h.listed j m hj)
  · rw [ha]
    exact h.allocs
  · rw [hf]
    exact h.frees
  · exact h.blocks

theorem memopAllocRaw (h : StatsInv (s.setPc i (.refill old))) {size : BitVec 64}
    {heap : Option ℕ} (hs : memopAllocRaw s i size heap old = some s') : StatsInv s' := by
  have hgot {t : PoolState ι} {r : Option ℕ} (hget : getHeap s i heap = some (t, r)) :
      StatsInv (t.setPc i (.refill old)) ∧ ∀ k, r = some k → k ∈ t.heaps := by
    rcases getHeap_cases hget with ⟨rfl, rfl⟩ | ⟨k, hk, rfl, rfl⟩
    · exact ⟨h, h.listed i⟩
    · refine ⟨h.heapCreate hk, ?_⟩
      intro j hj
      rw [← Option.some.inj hj]
      exact List.mem_cons_self
  cases memopAllocRaw_cases hs with
  | nothing => exact h.allocFailed
  | noHeap t hget => exact (hgot hget).1.allocFailed
  | large t k hget =>
    apply (hgot hget).1.go (.large size old) (i := i)
    · exact .of_eq rfl rfl (fun _ => rfl) fun _ => rfl
    · exact (Function.update_idem ..).symm
    · rfl
    · cases old <;> simp [PoolState.setPc, PoolPc.moves]
    · cases old <;> simp [PoolState.setPc, PoolPc.moves, PoolPc.grows]
  | small t k c hget => exact (hgot hget).1.afterAlloc ((hgot hget).2 k rfl) _

theorem refillStep (h : StatsInv s) (hpc : s.pcs i = .refill old) (hk : k ∈ s.heaps)
    {os : Option ℕ} (hs : refillStep s i k os old = some s') : StatsInv s' := by
  have hat : StatsInv (s.setPc i (.refill old)) := by
    rw [setPc_self hpc]
    exact h
  cases refillStep_cases hs with
  | spans lists => exact hat.afterAlloc hk lists
  | acquires c chunks => exact h.storage rfl rfl rfl rfl rfl rfl i
  | refused c chunks lists =>
    apply StatsInv.afterAlloc
    · exact hat.storage rfl rfl rfl rfl rfl rfl i
    · exact hk
  | creates c m chunks =>
    apply StatsInv.afterAlloc
    · exact hat.storage rfl rfl rfl rfl rfl rfl i
    · exact hk

theorem largeGiven (h : StatsInv (s.setPc i (.refill old))) (hk : k ∈ s.heaps) (m : ℕ)
    (x : Heap.LargeSpan) : StatsInv (largeGiven s i k m x old) := by
  unfold MemoryPool.largeGiven
  have hset := Counted.setLists (s.setPc i (.refill old)) k
    { (s.heap k).lists with spanAllocs := (s.heap k).lists.spanAllocs + 1 }
  apply StatsInv.allocated
  · exact h.same (hset.other rfl rfl rfl) rfl rfl rfl i
  · exact hk

/-- Waiting for the memory of a LARGE block holds what a refill holds. -/
theorem of_large (h : StatsInv s) {size : BitVec 64} (hpc : s.pcs i = .large size old) :
    StatsInv (s.setPc i (.refill old)) := by
  apply h.go (.refill old) (i := i)
  · exact .of_eq rfl rfl (fun _ => rfl) fun _ => rfl
  · rfl
  · rfl
  · rw [hpc]
    cases old <;> rfl
  · rw [hpc]
    cases old <;> rfl

theorem largeStep (h : StatsInv s) {size : BitVec 64} (hpc : s.pcs i = .large size old)
    (hk : k ∈ s.heaps) {os : Option ℕ} (hs : largeStep s i k size os old = some s') :
    StatsInv s' := by
  have hat := h.of_large hpc
  cases largeStep_cases hs with
  | acquires chunks => exact h.storage rfl rfl rfl rfl rfl rfl i
  | noChunk chunks =>
    apply StatsInv.allocFailed
    exact hat.storage rfl rfl rfl rfl rfl rfl i
  | chunk m x chunks =>
    apply StatsInv.largeGiven
    · exact hat.storage rfl rfl rfl rfl rfl rfl i
    · exact hk
  | noMapping => exact hat.allocFailed
  | mapping m x =>
    apply StatsInv.largeGiven
    · exact hat.storage rfl rfl rfl rfl rfl rfl i
    · exact hk

/-- A block that its caller gives up is freed, by a thread with a heap. -/
theorem freed (h : StatsInv s) (hpc : s.pcs i = .idle) {p : Ptr} (hp : p ∈ s.live)
    (hg : s.gHeap i = some k) (now : BitVec 64) :
    StatsInv ((memopFreeRaw { s with live := s.live.erase p } i p now).ret i .freed) := by
  have hc : Counted s (memopFreeRaw { s with live := s.live.erase p } i p now) 0 1 := by
    have hsame : Counted s { s with live := s.live.erase p } 0 0 :=
      .of_eq rfl rfl (fun _ => rfl) fun _ => rfl
    have hfree : Counted { s with live := s.live.erase p }
        (memopFreeRaw { s with live := s.live.erase p } i p now) 0 1 :=
      Counted.memopFreeRaw (s := { s with live := s.live.erase p }) h.nodup (h.listed i k hg) hg
        p now
    exact hsame.trans hfree
  obtain ⟨hpcs, hlive, hcalls⟩ :=
    memopFreeRaw_rest { s with live := s.live.erase p } i p now
  have hlen := List.length_erase_add_one hp
  apply h.ret .freed (i := i)
  · exact hc.other rfl rfl rfl
  · unfold PoolState.ret PoolState.setPc
    rw [hpcs]
  · unfold PoolState.ret PoolState.setPc
    rw [hcalls]
  · rw [hpc]
    rfl
  · rfl
  · unfold PoolState.ret PoolState.setPc
    rw [hlive, hpc]
    exact hlen

theorem memopReallocRaw (h : StatsInv s) (hpc : s.pcs i = .idle) {p : Ptr} (hp : p ∈ s.live)
    {size : BitVec 64} (hg : size = 0 → s.gHeap i ≠ none) {heap : Option ℕ} {now : BitVec 64}
    (hs : memopReallocRaw s i p size heap now = some s') : StatsInv s' := by
  unfold MemoryPool.memopReallocRaw at hs
  split_ifs at hs with hsize hkeep
  · obtain ⟨k, hk⟩ := Option.ne_none_iff_exists'.mp (hg hsize)
    rw [← Option.some.inj hs]
    exact h.freed hpc hp hk now
  · rw [← Option.some.inj hs]
    apply h.ret .inPlace (i := i)
    · exact .of_eq rfl rfl (fun _ => rfl) fun _ => rfl
    · rfl
    · rfl
    · rw [hpc]
      rfl
    · rfl
    · rw [hpc]
      rfl
  · apply StatsInv.memopAllocRaw _ hs
    have hlen := List.length_erase_add_one hp
    apply h.go (.refill (some p)) (i := i)
    · exact .of_eq rfl rfl (fun _ => rfl) fun _ => rfl
    · rfl
    · rfl
    · rw [hpc]
      rfl
    · rw [hpc]
      exact hlen

theorem moved (h : StatsInv s) {q p : Ptr} (hpc : s.pcs i = .release q p)
    (hg : s.gHeap i = some k) (now : BitVec 64) :
    StatsInv ({ memopFreeRaw s i q now with
      live := p :: (memopFreeRaw s i q now).live }.ret i .moved) := by
  have hc := Counted.memopFreeRaw h.nodup (h.listed i k hg) hg q now
  obtain ⟨hpcs, hlive, hcalls⟩ := memopFreeRaw_rest s i q now
  apply h.ret .moved (i := i)
  · exact hc.other rfl rfl rfl
  · unfold PoolState.ret PoolState.setPc
    dsimp only
    rw [hpcs]
  · unfold PoolState.ret PoolState.setPc
    dsimp only
    rw [hcalls]
  · rw [hpc]
    rfl
  · rfl
  · unfold PoolState.ret PoolState.setPc
    dsimp only
    rw [hlive, hpc]
    rfl

/-! ### The end of a thread -/

/-- A thread moves on between places at which it is in no call. -/
theorem ending (h : StatsInv s) {pc : PoolPc} (hc : Counted s s' 0 0) (hs : Shifts s s' i pc)
    (hnew : pc.grows = 0 ∧ pc.moves = 0) (hold : (s.pcs i).grows = 0 ∧ (s.pcs i).moves = 0) :
    StatsInv s' := by
  apply h.go pc hc hs.pcs hs.calls
  · rw [hnew.2, hold.2]
  · rw [hs.live, hnew.1, hnew.2, hold.1, hold.2]

theorem endClassStart (h : StatsInv s) (hold : (s.pcs i).grows = 0 ∧ (s.pcs i).moves = 0)
    (k c : ℕ) : StatsInv (endClassStart s i k c) := by
  have hc : Counted s (MemoryPool.endClassStart s i k c) 0 0 :=
    (Counted.setLists s k _).other rfl rfl rfl
  exact h.ending hc ⟨rfl, rfl, rfl⟩ ⟨rfl, rfl⟩ hold

theorem endFullStart (h : StatsInv s) (hold : (s.pcs i).grows = 0 ∧ (s.pcs i).moves = 0)
    (k : ℕ) : StatsInv (endFullStart s i k) := by
  have hc : Counted s (MemoryPool.endFullStart s i k) 0 0 :=
    (Counted.setLists s k _).other rfl rfl rfl
  exact h.ending hc ⟨rfl, rfl, rfl⟩ ⟨rfl, rfl⟩ hold

theorem endClassStep (h : StatsInv s) (hold : (s.pcs i).grows = 0 ∧ (s.pcs i).moves = 0)
    (k c a : ℕ) (kept : Option ℕ) (now : BitVec 64) :
    StatsInv (endClassStep s i k c a kept now) := by
  have hset (lists : Heap.MemHeap) : Counted s (s.setLists k lists) 0 0 := .setLists s k lists
  unfold MemoryPool.endClassStep
  dsimp only
  split_ifs
  · refine h.ending (i := i) ?_ ⟨rfl, rfl, rfl⟩ ⟨rfl, rfl⟩ hold
    exact (hset _).other rfl rfl rfl
  · refine h.ending (i := i) ?_ ⟨rfl, rfl, rfl⟩ ⟨rfl, rfl⟩ hold
    exact (hset _).other rfl rfl rfl

theorem endFullStep (h : StatsInv s) (hold : (s.pcs i).grows = 0 ∧ (s.pcs i).moves = 0)
    (k a : ℕ) (kept keptTail : Option ℕ) (now : BitVec 64) :
    StatsInv (endFullStep s i k a kept keptTail now) := by
  have hset (lists : Heap.MemHeap) : Counted s (s.setLists k lists) 0 0 := .setLists s k lists
  unfold MemoryPool.endFullStep
  dsimp only
  by_cases hused : ((Heap.spanTakeRemote (s.heap k).lists a).head a).used = 0
  · rw [if_pos hused]
    refine h.ending (i := i) ?_ ⟨rfl, rfl, rfl⟩ ⟨rfl, rfl⟩ hold
    exact (hset _).other rfl rfl rfl
  · rw [if_neg hused]
    refine h.ending (i := i) ?_ ⟨rfl, rfl, rfl⟩ ⟨rfl, rfl⟩ hold
    exact (hset _).other rfl rfl rfl

/-- A thread gives up its heap; the heap stays in the list. -/
theorem dropHeap (h : StatsInv s) (i : ι) :
    StatsInv { s with gHeap := Function.update s.gHeap i none } := by
  constructor
  · exact h.nodup
  · intro j k hj
    dsimp only at hj
    by_cases hji : j = i
    · rw [hji, Function.update_self] at hj
      cases hj
    · rw [Function.update_of_ne hji] at hj
      exact h.listed j k hj
  · exact h.allocs
  · exact h.frees
  · exact h.blocks

theorem endCacheStep (h : StatsInv s) (hold : (s.pcs i).grows = 0 ∧ (s.pcs i).moves = 0)
    {now : BitVec 64} (hs : endCacheStep s i k now = some s') : StatsInv s' := by
  obtain ⟨chunks, -, hchunks⟩ := Option.map_eq_some_iff.mp hs
  dsimp only at hchunks
  split_ifs at hchunks with hidle
  · rw [← hchunks]
    have hc : Counted s (s.setHeap k { s.heap k with active := false }) 0 0 :=
      .setHeap_same rfl rfl
    have hend : StatsInv { (({ s with chunks := chunks }.setHeap k
        { s.heap k with active := false }).setPc i .idle) with
        lanesDestroyed := s.lanesDestroyed + 1 } :=
      h.ending (i := i) (hc.other rfl rfl rfl) ⟨rfl, rfl, rfl⟩ ⟨rfl, rfl⟩ hold
    exact hend.dropHeap i
  · rw [← hchunks]
    exact h.storage rfl rfl rfl rfl rfl rfl i

theorem endStep (h : StatsInv s) {pc : PoolPc} (hpc : s.pcs i = pc) {now : BitVec 64}
    (hs : endStep s i k now pc = some s') : StatsInv s' := by
  cases pc with
  | idle => cases hs
  | refill old => cases hs
  | large size old => cases hs
  | release old new => cases hs
  | endClass c span kept =>
    have hold : (s.pcs i).grows = 0 ∧ (s.pcs i).moves = 0 := by
      rw [hpc]
      exact ⟨rfl, rfl⟩
    cases span with
    | some a =>
      rw [← Option.some.inj hs]
      exact h.endClassStep hold k c a kept now
    | none =>
      have hset (lists : Heap.MemHeap) : StatsInv (s.setLists k lists) :=
        h.same (.setLists s k lists) rfl rfl rfl i
      rw [← Option.some.inj hs]
      split_ifs
      · exact (hset _).endClassStart hold k (c + 1)
      · exact (hset _).endFullStart hold k
  | endFull span kept keptTail =>
    have hold : (s.pcs i).grows = 0 ∧ (s.pcs i).moves = 0 := by
      rw [hpc]
      exact ⟨rfl, rfl⟩
    cases span with
    | some a =>
      rw [← Option.some.inj hs]
      exact h.endFullStep hold k a kept keptTail now
    | none =>
      obtain ⟨chunks, -, hchunks⟩ := Option.map_eq_some_iff.mp hs
      rw [← hchunks]
      have hc := Counted.setLists s k
        { (s.heap k).lists with fullHead := kept, fullTail := keptTail }
      exact h.ending (i := i) (hc.other rfl rfl rfl) ⟨rfl, rfl, rfl⟩ ⟨rfl, rfl⟩ hold
  | endCache =>
    have hold : (s.pcs i).grows = 0 ∧ (s.pcs i).moves = 0 := by
      rw [hpc]
      exact ⟨rfl, rfl⟩
    exact h.endCacheStep hold hs

/-! ### The run -/

theorem callStep (h : StatsInv s) (hg : s.gHeap i = some k) {os : Option ℕ} {now : BitVec 64}
    (hs : callStep s i k os now = some s') : StatsInv s' := by
  have hk := h.listed i k hg
  unfold MemoryPool.callStep at hs
  cases hpc : s.pcs i with
  | idle =>
    rw [hpc] at hs
    cases hs
  | refill old =>
    rw [hpc] at hs
    exact h.refillStep hpc hk hs
  | large size old =>
    rw [hpc] at hs
    exact h.largeStep hpc hk hs
  | release old new =>
    rw [hpc] at hs
    rw [← Option.some.inj hs]
    exact h.moved hpc hg now
  | endClass c span kept =>
    rw [hpc] at hs
    exact h.endStep hpc hs
  | endFull span kept keptTail =>
    rw [hpc] at hs
    exact h.endStep hpc hs
  | endCache =>
    rw [hpc] at hs
    exact h.endStep hpc hs

end StatsInv

theorem statsInv_init : StatsInv (poolNew ι) where
  nodup := List.nodup_nil
  listed := by
    intro i k hk
    cases hk
  allocs := by
    simp [PoolState.allocCount, memopGetStats, poolNew, PoolState.moving, PoolPc.moves]
  frees := by
    simp [PoolState.freeCount, memopGetStats, poolNew]
  blocks := by
    simp [poolNew, PoolState.growing, PoolState.moving, PoolPc.moves, PoolPc.grows]

end

/-- A thread that frees a block has a heap. -/
def FreesWithHeap (s : PoolState ι) : PoolLabel ι → Prop
  | .free i (some _) _ => s.gHeap i ≠ none
  | .realloc i (some _) size _ _ => size = 0 → s.gHeap i ≠ none
  | _ => True

instance (s : PoolState ι) (l : PoolLabel ι) : Decidable (FreesWithHeap s l) := by
  unfold FreesWithHeap
  split <;> infer_instance

section
variable [Fintype ι]

theorem StatsInv.step (h : StatsInv s) {l : PoolLabel ι} (hl : FreesWithHeap s l)
    (hs : poolStep s l = some s') : StatsInv s' := by
  cases l with
  | createdThread i heap =>
    simp only [poolStep] at hs
    split_ifs at hs with hidle
    obtain ⟨⟨t, r⟩, hget, rfl⟩ := Option.map_eq_some_iff.mp hs
    rcases getHeap_cases hget with ⟨rfl, -⟩ | ⟨k, hk, rfl, -⟩
    · exact h
    · exact h.heapCreate hk
  | endedThread i =>
    simp only [poolStep] at hs
    split_ifs at hs with hidle
    split at hs
    · rw [← Option.some.inj hs]
      exact h
    · rename_i k hk
      rw [← Option.some.inj hs]
      have hsame : StatsInv { s with chunks := s.chunks.setPc i .ending } :=
        h.storage rfl rfl rfl rfl rfl rfl i
      apply hsame.endClassStart
      dsimp only
      rw [hidle]
      exact ⟨rfl, rfl⟩
  | alloc i size heap =>
    simp only [poolStep] at hs
    split_ifs at hs with hidle
    exact (h.calling hidle).memopAllocRaw hs
  | free i ptr now =>
    simp only [poolStep] at hs
    split_ifs at hs with hidle
    cases ptr with
    | none =>
      rw [← Option.some.inj hs]
      exact h
    | some p =>
      dsimp only at hs
      split_ifs at hs with hp
      obtain ⟨k, hk⟩ := Option.ne_none_iff_exists'.mp hl
      rw [← Option.some.inj hs]
      exact h.freed hidle hp hk now
  | realloc i ptr size heap now =>
    simp only [poolStep] at hs
    split_ifs at hs with hidle
    cases ptr with
    | none =>
      exact (h.calling hidle).memopAllocRaw hs
    | some p =>
      dsimp only at hs
      split_ifs at hs with hp
      exact h.memopReallocRaw hidle hp hl hs
  | step i os now =>
    simp only [poolStep] at hs
    split at hs
    · cases hs
    · rename_i k hk
      exact h.callStep hk hs
  | purge now =>
    rw [← Option.some.inj hs]
    constructor
    · exact h.nodup
    · exact h.listed
    · exact h.allocs
    · exact h.frees
    · exact h.blocks

theorem statsInv_run (h : (poolSystem ι).ReachableWhen FreesWithHeap s) : StatsInv s :=
  System.ReachableWhen.invariant
    (fun _ hs => hs ▸ statsInv_init)
    (fun _ _ _ hinv hl hs => hinv.step hl hs) h

/-- When no call is under way, the statistics count each block given and each one freed once, a
reallocation that moved as both, and their difference is the number of live blocks. -/
theorem memopGetStats_balanced (s : PoolState ι)
    (h : (poolSystem ι).ReachableWhen FreesWithHeap s) (hquiet : ∀ i, s.pcs i = .idle) :
    (memopGetStats s).allocCount =
        BitVec.ofNat 64 (s.calls.count .allocated + s.calls.count .moved) ∧
      (memopGetStats s).freeCount =
        BitVec.ofNat 64 (s.calls.count .freed + s.calls.count .moved) ∧
      s.calls.count .allocated = s.calls.count .freed + s.live.length ∧
      (memopGetStats s).allocCount - (memopGetStats s).freeCount =
        BitVec.ofNat 64 s.live.length := by
  have hinv := statsInv_run h
  have hmoving : s.moving = 0 := by
    unfold PoolState.moving
    simp [hquiet, PoolPc.moves]
  have hgrowing : s.growing = 0 := by
    unfold PoolState.growing
    simp [hquiet, PoolPc.grows]
  have ha := hinv.allocs
  have hf := hinv.frees
  have hb := hinv.blocks
  rw [hmoving, Nat.add_zero] at ha
  rw [hmoving, hgrowing] at hb
  refine ⟨ha, hf, by omega, ?_⟩
  change s.allocCount - s.freeCount = _
  have hsum : s.calls.count .allocated + s.calls.count .moved =
      s.live.length + (s.calls.count .freed + s.calls.count .moved) := by
    omega
  rw [ha, hf, hsum, BitVec.ofNat_add, BitVec.add_sub_cancel]

end

/-- Two threads and a LARGE block: a free by the other thread, a reallocation that moves, and the
end of the first thread, whose heap keeps its counts. -/
def sharedRun : List (PoolLabel Bool) :=
  [.alloc true 16 (some 100), .step true none 0, .step true (some 5) 0, .step true none 0,
    .alloc false 20000 (some 200), .step false none 0, .free false (some ⟨321, 0⟩) 0,
    .realloc true (some ⟨322, 0⟩) 16 none 0, .step true none 0, .endedThread true] ++
  List.replicate 40 (.step true none 0)

theorem memopGetStats_balanced_shared :
    ∃ s : PoolState Bool, (poolSystem Bool).ReachableWhen FreesWithHeap s ∧ s.gHeap true = none ∧
      s.calls = [.moved, .freed, .allocated, .allocated] ∧
      (memopGetStats s).allocCount = 3 ∧ (memopGetStats s).freeCount = 2 ∧
      (memopGetStats s).allocCount - (memopGetStats s).freeCount =
        BitVec.ofNat 64 s.live.length := by
  have hout : ((poolSystem Bool).execWhen FreesWithHeap (poolNew Bool) sharedRun).map
      (fun s => decide (s.gHeap true = none ∧ s.calls = [.moved, .freed, .allocated, .allocated] ∧
        (memopGetStats s).allocCount = 3 ∧ (memopGetStats s).freeCount = 2 ∧
        ∀ i, s.pcs i = .idle)) = some true := by
    decide +kernel
  obtain ⟨s, hrun, hend⟩ := Option.map_eq_some_iff.mp hout
  obtain ⟨hheap, hcalls, hallocs, hfrees, hquiet⟩ := of_decide_eq_true hend
  have hreach : (poolSystem Bool).ReachableWhen FreesWithHeap s := .exec (.init rfl) hrun
  exact ⟨s, hreach, hheap, hcalls, hallocs, hfrees,
    (memopGetStats_balanced s hreach hquiet).2.2.2⟩

end Xplatbase.MemoryPool
