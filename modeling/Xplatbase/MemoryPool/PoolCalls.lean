import Xplatbase.MemoryPool.PoolAlloc
import Xplatbase.MemoryPool.PoolSteps

/-! The allocating calls keep the invariant of the pool: `memop_alloc_raw`, `memop_refill` and
`memop_alloc_large`. -/
namespace Xplatbase.MemoryPool
open Xplatbase.Lib Xplatbase.Memory

variable {ι : Type*} [DecidableEq ι]

section
variable {s s' t : PoolState ι} {i : ι} {k m : ℕ} {l : List Ptr} {D : Set Ptr} {old : Option Ptr}
  {size : BitVec 64}

namespace MidCall

/-- Thread `i` stays at a place of its call. -/
theorem stay (h : MidCall s i (s.pcs i).blocks D) (hg : s.gHeap i = some k)
    (hst : (s.pcs i).Stands (s.chunks.pcs i) (s.heap k).lists) : PoolOk s where
  stored := by
    refine ⟨D, ?_⟩
    rw [← inHand_blocks s i]
    exact h.stored
  lanes := h.lanes.close hg hst

/-! ### Chunks -/

/-- A step of `chunk_acquire`; the chunk that it returns is in no other use. -/
theorem poolAcquire (h : MidCall s i l D) {os : Option ℕ} {r : Option (Option ℕ)}
    {c : ChunkState ι} (hs : poolAcquire s i os = some ({ s with chunks := c }, r)) :
    MidCall { s with chunks := c } i l D ∧ Acquired i s.chunks c r ∧
      ∀ m, r = some (some m) → ¬ ({ s with chunks := c } : PoolState ι).InUse D m := by
  obtain ⟨c', hc', hstep, hfree⟩ := poolAcquire_cases hs
  obtain rfl : c = c' := congrArg PoolState.chunks hc'
  obtain ⟨hc, hframe, hactive, hacq, hmapped⟩ := acquireStep_spec h.stored.chunks hstep
  have hapart : Apart s.mappings c.pool.mapped := by
    apply h.stored.apart.cons_segment
    intro b hb
    rcases hmapped b hb with hb | ⟨hpc, hos⟩
    · exact .inl hb
    · exact .inr (hfree b hpc hos)
  have hused : ∀ a ∈ s.chunks.used, a ∈ c.used := by
    intro a ha
    match r, hacq with
    | none, hacq => exact hacq.1.symm ▸ ha
    | some none, hacq => exact hacq.1.symm ▸ ha
    | some (some m), hacq =>
      rw [hacq.1]
      exact List.mem_cons_of_mem m ha
  have hstored : Stored { s with chunks := c } (s.inHand i l) D :=
    h.stored.setChunks hc hapart fun a ha _ => hused a ha
  refine ⟨⟨hstored, ?_⟩, hacq, ?_⟩
  · exact h.lanes.turn rfl rfl (fun _ _ => rfl) hframe hactive fun _ _ _ _ hst => hst
  · rintro m rfl
    have hcons : c.used = m :: s.chunks.used := hacq.1
    have hnodup : c.used.Nodup := hstored.nodup_used
    rw [hcons] at hnodup
    apply h.stored.not_inUse (List.nodup_cons.mp hnodup).1
    intro x hx
    apply hstored.used_apart _ hx
    rw [hcons]
    exact List.mem_cons_self

/-- The header of a chunk that is in no use is written. -/
theorem setHeader (h : MidCall s i l D) (hm : ¬ s.InUse D m) (o : SpanOwner) :
    MidCall { s with header := Function.update s.header m o } i l D where
  stored := h.stored.setHeader hm o
  lanes := h.lanes.turn rfl rfl (fun _ _ => rfl) ⟨fun _ _ => rfl, fun _ _ => rfl⟩ rfl
    fun _ _ _ _ hst => hst

/-! ### `memop_refill` -/

theorem created (h : MidCall s i old.toList D) (hg : s.gHeap i = some k)
    (hcpc : s.chunks.pcs i = .idle) {c : ℕ}
    (hi : Heap.HeapInv (Heap.refillCreate (s.heap k).lists c m)) (hused : m ∈ s.chunks.used)
    (hheader : s.header m = .small k) (hfree : ¬ s.InUse D m) :
    PoolOk (MemoryPool.afterAlloc s i k (Heap.refillCreate (s.heap k).lists c m) old) := by
  obtain ⟨hpc, hgiven, howned, hat, hrest⟩ := Heap.refillCreate_spec (s.heap k).lists c m
  generalize Heap.refillCreate (s.heap k).lists c m = lists at hi hpc hgiven howned hat hrest ⊢
  have hother : ∀ d ∈ (s.heap k).lists.owned, d ≠ m := by
    rintro d hd rfl
    exact hfree (.inl ⟨k, hd⟩)
  have hmid : MidCall (s.setLists k lists) i old.toList D := by
    apply h.setLists hg
    · intro a ha
      rw [howned] at ha
      rcases Finset.mem_insert.mp ha with rfl | ha
      · exact hused
      · exact h.stored.used k a ha
    · intro a ha
      rw [howned] at ha
      rcases Finset.mem_insert.mp ha with rfl | ha
      · exact hheader
      · exact h.stored.header k a ha
    · intro a ha
      have hwf := heapInv_wf hi a ha
      apply SpanOk.of_wf hwf
      rw [howned] at ha
      rcases Finset.mem_insert.mp ha with rfl | ha
      · have hempty : (Heap.createdSpan c).Parted := .refl _
        exact hempty.gives hat
      · rw [hrest a (hother a ha)]
        exact (h.stored.spans k a ha).parted
    · intro p _ hp hlive
      rw [howned, hrest _ (hother _ hp)]
      exact ⟨Finset.mem_insert_of_mem hp, hlive⟩
  have hlists := setLists_self s k lists
  have hat' : AtRest (s.setLists k lists) i := by
    refine AtRest.of_heap hg hcpc ?_ ?_
    · rw [hlists]
      exact hpc
    · rw [hlists]
      exact hi
  have hhome : (s.setLists k lists).Home ⟨m, 0⟩ := by
    refine (home_small (p := ⟨m, 0⟩) (s := s.setLists k lists) hheader).mpr ?_
    rw [hlists, howned, hat.live]
    exact ⟨Finset.mem_insert_self m _, List.mem_cons_self⟩
  have hnew : (⟨m, 0⟩ : Ptr) ∉ D := fun hD => hfree (.inr ⟨_, hD, rfl⟩)
  unfold MemoryPool.afterAlloc
  dsimp only
  rw [if_pos hpc, hgiven]
  exact hmid.allocated hat' hg k hhome hnew

end MidCall

theorem PoolOk.refillStep (h : PoolOk s) (hg : s.gHeap i = some k) (hpc : s.pcs i = .refill old)
    {os : Option ℕ} (hs : refillStep s i k os old = some s') : PoolOk s' := by
  obtain ⟨D, hmid⟩ := h.mid i
  have hst := h.lanes.stands hg
  rw [hpc] at hmid hst
  obtain ⟨hcpc, hne, hi⟩ := hst
  cases refillStep_cases hs with
  | spans lists hno hlists =>
    have hidle : s.chunks.pcs i = .idle := by
      rcases hcpc with hidle | ⟨⟨c, hc⟩, -⟩
      · exact hidle
      · exact absurd hc (hno c)
    exact hmid.afterAlloc hg hidle (hi.refill hlists) (hi.turn (fun _ _ => rfl) hlists)
  | acquires c chunks hat hacq =>
    obtain ⟨hmid', hacq', -⟩ := hmid.poolAcquire hacq
    have hblocks : (PoolPc.refill old).blocks = (s.pcs i).blocks := by rw [hpc]
    rw [hblocks] at hmid'
    apply hmid'.stay hg
    dsimp only
    rw [hpc]
    exact ⟨.inr ⟨⟨c, hat⟩, hacq'.2⟩, hne, hi⟩
  | refused c chunks lists hat hacq hlists =>
    obtain ⟨hmid', hacq', -⟩ := hmid.poolAcquire hacq
    exact hmid'.afterAlloc hg hacq'.2 (hi.refill hlists) (hi.turn (fun _ _ => rfl) hlists)
  | creates c m chunks hat hacq hlists =>
    obtain ⟨hmid', hacq', hnew⟩ := hmid.poolAcquire hacq
    have hfree := hnew m rfl
    have hused : m ∈ chunks.used := by
      rw [hacq'.1]
      exact List.mem_cons_self
    have hset := hmid'.setHeader hfree (.small k)
    exact hset.created hg hacq'.2 (hi.refill hlists) hused (Function.update_self ..) hfree

/-! ### `memop_alloc_large` -/

/-- What `memop_alloc_large` writes into the header of the memory it has got. -/
theorem memopAllocLarge_block {x : Heap.LargeSpan}
    (hx : Heap.memopAllocLarge size true = .block x) :
    0 < largeUnits size ∧ x.mapping = largeUnits size * memopSpanSize ∧
      x.blockCount.toNat = largeUnits size % 2 ^ 32 := by
  have hdvd : 65536 ∣ (Heap.largeTotal size).toNat := by
    rw [Heap.largeTotal_toNat]
    exact Nat.dvd_mul_left ..
  have hunits : largeUnits size = (Heap.largeTotal size).toNat / 65536 := by
    unfold largeUnits
    rw [BitVec.toNat_udiv]
    rfl
  rw [Heap.memopAllocLarge_eq] at hx
  split_ifs at hx with hlt
  obtain rfl := Heap.LargeResult.block.inj hx
  have hcount : ((Heap.largeTotal size / 65536).setWidth 32).toNat = largeUnits size % 2 ^ 32 := by
    rw [BitVec.toNat_setWidth, largeUnits]
  refine ⟨?_, ?_, hcount⟩
  · omega
  · rw [hunits]
    exact (Nat.div_mul_cancel hdvd).symm

theorem MidCall.largeGiven (h : MidCall s i old.toList D) (hrest : AtRest s i)
    (hg : s.gHeap i = some k) {m : ℕ} {x : Heap.LargeSpan} (hfree : ¬ s.InUse D m)
    (hheld : s.LargeHeld m x) : PoolOk (largeGiven s i k m x old) := by
  have hset := h.setHeader hfree (.large x)
  let s₁ : PoolState ι := { s with header := Function.update s.header m (.large x) }
  let lists : Heap.MemHeap :=
    { (s.heap k).lists with spanAllocs := (s.heap k).lists.spanAllocs + 1 }
  have hmid : MidCall (s₁.setLists k lists) i old.toList D := by
    apply hset.setLists hg
    · exact h.stored.used k
    · exact hset.stored.header k
    · exact h.stored.spans k
    · exact fun _ _ hp hlive => ⟨hp, hlive⟩
  have hrest' : AtRest (s₁.setLists k lists) i := by
    obtain ⟨hpc, ⟨ls, hgood⟩, hpcOk⟩ := hrest.heap k hg
    refine AtRest.of_heap hg hrest.chunks ?_ ?_
    · rw [setLists_self]
      exact hpc
    · rw [setLists_self]
      exact ⟨⟨ls, hgood.lists.records _ _ _ _, hgood.wf⟩, hpcOk⟩
  have hheader : (s₁.setLists k lists).header m = .large x := Function.update_self ..
  have hhome : (s₁.setLists k lists).Home ⟨m, 0⟩ :=
    (home_large (p := ⟨m, 0⟩) (s := s₁.setLists k lists) hheader).mpr
      ⟨rfl, hheld.mono id fun _ hm => hm⟩
  have hnew : (⟨m, 0⟩ : Ptr) ∉ D := fun hD => hfree (.inr ⟨_, hD, rfl⟩)
  exact hmid.allocated hrest' hg k hhome hnew

/-- How many chunks a process can address: `2^47` bytes. -/
def userChunks : ℕ := 2 ^ 31

/-- The length of the mapping that a call is about to ask the OS for. -/
def PoolPc.mapping : PoolPc → Option ℕ
  | .large size _ => if largeUnits size = 1 then none else some (largeUnits size)
  | _ => none

def PoolLabel.granted : PoolLabel ι → Option (ι × ℕ)
  | .step i (some m) _ => some (i, m)
  | _ => none

/-- The OS maps memory that a process can address. -/
def InUserSpace (s : PoolState ι) (l : PoolLabel ι) : Prop :=
  ∀ x ∈ l.granted, ∀ n ∈ (s.pcs x.1).mapping, x.2 + n ≤ userChunks

instance (s : PoolState ι) (l : PoolLabel ι) : Decidable (InUserSpace s l) :=
  inferInstanceAs (Decidable (∀ x ∈ l.granted, _))

theorem PoolOk.largeStep (h : PoolOk s) (hg : s.gHeap i = some k) (hpc : s.pcs i = .large size old)
    {os : Option ℕ}
    (huser : ∀ m, os = some m → largeUnits size ≠ 1 → m + largeUnits size ≤ userChunks)
    (hs : largeStep s i k size os old = some s') : PoolOk s' := by
  obtain ⟨D, hmid⟩ := h.mid i
  have hst := h.lanes.stands hg
  rw [hpc] at hmid hst
  obtain ⟨hcpc, hidle, hi⟩ := hst
  have hrest {c : ChunkState ι} (hc : c.pcs i = .idle) : AtRest { s with chunks := c } i :=
    .of_heap hg hc hidle hi
  have hcidle (hunits : largeUnits size ≠ 1) : s.chunks.pcs i = .idle :=
    hcpc.resolve_right fun hno => hunits hno.1
  cases largeStep_cases hs with
  | acquires chunks hunit hacq =>
    obtain ⟨hmid', hacq', -⟩ := hmid.poolAcquire hacq
    have hblocks : (PoolPc.large size old).blocks = (s.pcs i).blocks := by rw [hpc]
    rw [hblocks] at hmid'
    apply hmid'.stay hg
    dsimp only
    rw [hpc]
    exact ⟨.inr ⟨hunit, hacq'.2⟩, hidle, hi⟩
  | noChunk chunks hunit hacq =>
    obtain ⟨hmid', hacq', -⟩ := hmid.poolAcquire hacq
    exact hmid'.allocFailed (hrest hacq'.2)
  | chunk m x chunks hunit hacq hx =>
    obtain ⟨hmid', hacq', hnew⟩ := hmid.poolAcquire hacq
    obtain ⟨-, hmapping, hcount⟩ := memopAllocLarge_block hx
    rw [hunit] at hmapping hcount
    have hone : x.blockCount = 1 := BitVec.eq_of_toNat_eq hcount
    have hused : m ∈ chunks.used := by
      rw [hacq'.1]
      exact List.mem_cons_self
    exact hmid'.largeGiven (hrest hacq'.2) hg (hnew m rfl)
      (.inl ⟨hone, hmapping.trans (Nat.one_mul _), hused⟩)
  | noMapping hunits => exact hmid.allocFailed (hrest (hcidle hunits))
  | mapping m x hunits hos hfree hx =>
    obtain ⟨hpos, hmapping, hcount⟩ := memopAllocLarge_block hx
    have hbound := huser m hos hunits
    unfold userChunks at hbound
    rw [Nat.mod_eq_of_lt (by omega)] at hcount
    have hne : x.blockCount ≠ 1 := by
      intro hone
      rw [hone] at hcount
      exact hunits hcount.symm
    have hapart : Apart ((m, largeUnits size) :: s.mappings) s.chunks.pool.mapped :=
      hmid.stored.apart.cons_mapping hpos hfree.1 hfree.2
    have hstored : Stored { s with mappings := (m, largeUnits size) :: s.mappings }
        (s.inHand i old.toList) D :=
      hmid.stored.setMappings hapart fun _ _ _ hm => List.mem_cons_of_mem _ hm
    have hmid' : MidCall { s with mappings := (m, largeUnits size) :: s.mappings } i
        old.toList D :=
      ⟨hstored, hmid.lanes.turn rfl rfl (fun _ _ => rfl) ⟨fun _ _ => rfl, fun _ _ => rfl⟩ rfl
        fun _ _ _ _ hst => hst⟩
    apply hmid'.largeGiven ⟨hcidle hunits, (hrest (hcidle hunits)).heap⟩ hg
    · exact hmid.stored.unmapped_not_inUse hpos hfree
    · refine .inr ⟨hne, ?_, ?_⟩
      · rw [hcount]
        exact List.mem_cons_self
      · rw [hcount]
        exact hmapping

/-! ### `memop_alloc_raw` -/

theorem heapInv_heapNew : Heap.HeapInv Heap.heapNew :=
  Heap.heapSystem_inv (.init ⟨_, _, _, rfl⟩)

/-- `get_heap`, by a thread at rest. -/
theorem MidCall.getHeap (h : MidCall s i l D) (hrest : AtRest s i) {heap r : Option ℕ}
    (hget : getHeap s i heap = some (t, r)) :
    MidCall t i l D ∧ AtRest t i ∧ t.pcs = s.pcs ∧ ∀ k, r = some k → t.gHeap i = some k := by
  have hcases := getHeap_cases hget
  cases hg : s.gHeap i with
  | some k =>
    unfold MemoryPool.getHeap at hget
    rw [hg] at hget
    obtain ⟨rfl, rfl⟩ := Prod.mk.inj (Option.some.inj hget)
    refine ⟨h, hrest, rfl, ?_⟩
    intro j hj
    rw [hg, hj]
  | none =>
    rcases hcases with ⟨rfl, rfl⟩ | ⟨k, hk, rfl, rfl⟩
    · refine ⟨h, hrest, rfl, ?_⟩
      intro j hj
      exact hj
    · have hactive : (s.chunks.heaps i).active = false := by
        rw [h.lanes.active, hg]
        rfl
      have hlists (j : ℕ) (hj : j ≠ k) : ((heapCreate s i k).heap j).lists = (s.heap j).lists := by
        simp only [heapCreate, Function.update_of_ne hj]
      have hself : ((heapCreate s i k).heap k).lists = Heap.heapNew := by
        simp only [heapCreate, Function.update_self]
      have hgi : (heapCreate s i k).gHeap i = some k := Function.update_self ..
      have hgo (j : ι) (hj : j ≠ i) : (heapCreate s i k).gHeap j = s.gHeap j :=
        Function.update_of_ne hj ..
      have hknown (j : ι) (hj : j ≠ i) (n : ℕ) (hn : s.gHeap j = some n) : n ∈ s.heaps :=
        ((lane_some hn).mp (h.lanes.lane j hj)).1
      refine ⟨⟨?_, ?_⟩, ⟨hrest.chunks, ?_⟩, rfl, ?_⟩
      · exact h.stored.heapCreate i hk (h.stored.chunks.getHeap hrest.chunks hactive)
      · constructor
        · intro j hj
          apply (h.lanes.lane j hj).same (hgo j hj)
          · exact fun n hn => List.mem_cons_of_mem k hn
          · rfl
          · rfl
          · simp only [heapCreate, ChunkState.setHeap, Function.update_of_ne hj]
          · intro n hn hst
            have hne : n ≠ k := by
              rintro rfl
              exact hk (hknown j hj n hn)
            rw [hlists n hne]
            exact hst
        · intro a b n ha hb
          by_cases hai : a = i
          · by_cases hbi : b = i
            · rw [hai, hbi]
            · rw [hgo b hbi] at hb
              rw [hai, hgi] at ha
              obtain rfl := Option.some.inj ha
              exact absurd (hknown b hbi k hb) hk
          · rw [hgo a hai] at ha
            by_cases hbi : b = i
            · rw [hbi, hgi] at hb
              obtain rfl := Option.some.inj hb
              exact absurd (hknown a hai k ha) hk
            · rw [hgo b hbi] at hb
              exact h.lanes.once a b n ha hb
        · intro n hn
          rw [hgi] at hn
          obtain rfl := Option.some.inj hn
          exact List.mem_cons_self
        · rw [hgi]
          simp only [heapCreate, ChunkState.setHeap, Function.update_self, Option.isSome_some]
      · intro n hn
        rw [hgi] at hn
        obtain rfl := Option.some.inj hn
        rw [hself]
        exact ⟨rfl, heapInv_heapNew⟩
      · intro n hn
        rw [hgi, hn]

theorem MidCall.memopAllocRaw (h : MidCall s i old.toList D) (hrest : AtRest s i)
    {heap : Option ℕ} (hs : memopAllocRaw s i size heap old = some s') : PoolOk s' := by
  cases memopAllocRaw_cases hs with
  | nothing => exact h.allocFailed hrest
  | noHeap t hget =>
    obtain ⟨hmid, hat, -⟩ := h.getHeap hrest hget
    exact hmid.allocFailed hat
  | large t k hget =>
    obtain ⟨hmid, hat, -, hg⟩ := h.getHeap hrest hget
    obtain ⟨hpc, hi⟩ := hat.heap k (hg k rfl)
    exact hmid.close (hg k rfl) rfl ⟨.inl hat.chunks, hpc, hi⟩
  | small t k c hget hc =>
    obtain ⟨hmid, hat, -, hg⟩ := h.getHeap hrest hget
    obtain ⟨-, ⟨ls, hgood⟩, -⟩ := hat.heap k (hg k rfl)
    exact hmid.afterAlloc (hg k rfl) hat.chunks
      (hgood.memopAllocRaw (Heap.memopClassIndex_spec hc).1) (hgood.turn_memopAllocRaw c)

end
end Xplatbase.MemoryPool
