import Xplatbase.MemoryPool.PoolFrees

/-! The end of a thread keeps the invariant of the pool: it releases the spans that are empty and
leaves the others where they are. -/
namespace Xplatbase.MemoryPool
open Xplatbase.Lib Xplatbase.Memory

variable {ι : Type*} [DecidableEq ι]

section
variable {s s' : PoolState ι} {i : ι} {k a : ℕ} {D : Set Ptr} {lists : Heap.MemHeap}

/-- The lists of a heap from class `c` on, before the end of its thread looks at them. -/
structure Unvisited (h : Heap.MemHeap) (c : ℕ) (v : Option ℕ → List ℕ) (E : Set ℕ) : Prop where
  classes : ∀ d, c ≤ d → Linked h.next (h.spans d) (v (some d))
  full : Linked h.next h.fullHead (v none)
  shelved : Shelved v E
  owned : ∀ a ∈ E, a ∈ h.owned

namespace MidCall

theorem relink (h : MidCall s i [] D) (hg : s.gHeap i = some k)
    (howned : lists.owned = (s.heap k).lists.owned) (hhead : lists.head = (s.heap k).lists.head) :
    MidCall (s.setLists k lists) i [] D := by
  apply h.setLists hg
  · rw [howned]
    exact h.stored.used k
  · rw [howned]
    exact h.stored.header k
  · rw [howned, hhead]
    exact h.stored.spans k
  · rw [howned, hhead]
    exact fun _ _ hp hlive => ⟨hp, hlive⟩

/-- The owner drains a span, which leaves the heap only if it is dead. -/
theorem drain (h : MidCall s i [] D) (hg : s.gHeap i = some k) (ha : a ∈ (s.heap k).lists.owned)
    (hhead : lists.head = (Heap.spanTakeRemote (s.heap k).lists a).head)
    (howned : lists.owned = (s.heap k).lists.owned ∨
      lists.owned = (s.heap k).lists.owned.erase a ∧ (lists.head a).used = 0) :
    MidCall (s.setLists k lists) i [] D := by
  have hself : lists.head a = { (s.heap k).lists.head a with
      localFree := ((s.heap k).lists.head a).remoteFree.reverse ++
        ((s.heap k).lists.head a).localFree
      remoteFree := []
      used := ((s.heap k).lists.head a).used -
        BitVec.ofNat 32 ((s.heap k).lists.head a).remoteFree.length } := by
    rw [hhead]
    exact Heap.spanTakeRemote_self ..
  have hother : ∀ d ≠ a, lists.head d = (s.heap k).lists.head d := by
    intro d hd
    rw [hhead]
    exact Heap.MemHeap.setHead_of_ne _ _ hd
  have hsub : ∀ d ∈ lists.owned, d ∈ (s.heap k).lists.owned := by
    intro d hd
    rcases howned with ho | ⟨ho, -⟩
    · rw [ho] at hd
      exact hd
    · rw [ho] at hd
      exact Finset.mem_of_mem_erase hd
  have hok := h.stored.spans k a ha
  have hwf : Heap.SpanWf { lists.head a with state := .available } := by
    rw [hself]
    exact hok.wf.drain
  apply h.setLists hg
  · exact fun d hd => h.stored.used k d (hsub d hd)
  · exact fun d hd => h.stored.header k d (hsub d hd)
  · intro d hd
    by_cases hda : d = a
    · rw [hda]
      refine ⟨hwf, ?_⟩
      rw [hself]
      exact hok.parted.keeps (.drain _ _)
    · rw [hother d hda]
      exact h.stored.spans k d (hsub d hd)
  · intro p _ hin hlive
    by_cases hpa : p.span = a
    · rw [hpa] at hin hlive ⊢
      have hsame : (lists.head a).live = ((s.heap k).lists.head a).live := by rw [hself]
      rcases howned with ho | ⟨-, hzero⟩
      · rw [ho, hsame]
        exact ⟨hin, hlive⟩
      · have hdead : (lists.head a).live = [] := (hwf.dead hzero).2
        rw [← hsame, hdead] at hlive
        exact absurd hlive List.not_mem_nil
    · rw [hother _ hpa]
      refine ⟨?_, hlive⟩
      rcases howned with ho | ⟨ho, -⟩
      · rw [ho]
        exact hin
      · rw [ho]
        exact Finset.mem_erase.mpr ⟨hpa, hin⟩

theorem release (h : MidCall s i [] D) (ha : a ∈ s.chunks.used) (hheader : s.header a = .small k)
    (hout : a ∉ (s.heap k).lists.owned) (now : BitVec 64) :
    MidCall { s with chunks := chunkRelease s.chunks none a now } i [] D where
  stored := by
    apply h.stored.release now ha
    · rintro (⟨m, hm⟩ | ⟨p, hp, hpa⟩)
      · have hsmall := h.stored.header m a hm
        rw [hheader] at hsmall
        obtain rfl := SpanOwner.small.inj hsmall
        exact hout hm
      · rw [← hpa] at hheader hout
        exact hout ((home_small hheader).mp (h.stored.home p hp)).1
    · intro j hj
      cases hj
  lanes := h.lanes.release none a now

/-! ### The lists of spans -/

theorem endClassStart (h : MidCall s i [] D) (hg : s.gHeap i = some k)
    (hcpc : s.chunks.pcs i = .ending) {c : ℕ} {v : Option ℕ → List ℕ} {E : Set ℕ}
    (hun : Unvisited (s.heap k).lists c v E) : PoolOk (endClassStart s i k c) := by
  unfold MemoryPool.endClassStart
  dsimp only
  have hmid : MidCall (s.setLists k { (s.heap k).lists with
      spans := Function.update (s.heap k).lists.spans c none }) i [] D := h.relink hg rfl rfl
  apply hmid.close hg rfl
  rw [setLists_self]
  refine ⟨hcpc, v, E, ?_⟩
  constructor
  · exact hun.classes c (Nat.le_refl c)
  · intro b hb d hd
    obtain rfl := Option.some.inj hb
    dsimp only
    rw [Function.update_of_ne (Nat.ne_of_gt hd)]
    exact hun.classes d (Nat.le_of_lt hd)
  · exact fun _ => hun.full
  · exact hun.shelved
  · exact hun.owned

theorem endFullStart (h : MidCall s i [] D) (hg : s.gHeap i = some k)
    (hcpc : s.chunks.pcs i = .ending) {c : ℕ} {v : Option ℕ → List ℕ} {E : Set ℕ}
    (hun : Unvisited (s.heap k).lists c v E) : PoolOk (endFullStart s i k) := by
  unfold MemoryPool.endFullStart
  dsimp only
  have hmid : MidCall (s.setLists k { (s.heap k).lists with
      fullHead := none, fullTail := none }) i [] D := h.relink hg rfl rfl
  apply hmid.close hg rfl
  rw [setLists_self]
  refine ⟨hcpc, v, E, ?_, fun _ ht => nomatch ht⟩
  constructor
  · exact hun.full
  · exact fun _ hc => nomatch hc
  · exact fun hno => absurd rfl hno
  · exact hun.shelved
  · exact hun.owned

theorem endClassStep (h : MidCall s i [] D) (hg : s.gHeap i = some k)
    (hcpc : s.chunks.pcs i = .ending) {c : ℕ} {kept : Option ℕ} {v : Option ℕ → List ℕ} {E : Set ℕ}
    (hend : Ending (s.heap k).lists (some c) (some a) v E) (now : BitVec 64) :
    PoolOk (endClassStep s i k c a kept now) := by
  have ha := hend.owned a hend.mem
  have hused := h.stored.used k a ha
  have hheader := h.stored.header k a ha
  unfold MemoryPool.endClassStep
  dsimp only
  split_ifs with hzero
  · let lists : Heap.MemHeap := { Heap.spanTakeRemote (s.heap k).lists a with
      owned := (s.heap k).lists.owned.erase a }
    have hdrain : MidCall (s.setLists k lists) i [] D := h.drain hg ha rfl (.inr ⟨rfl, hzero⟩)
    have hself := setLists_self s k lists
    have hout : a ∉ ((s.setLists k lists).heap k).lists.owned := by
      rw [hself]
      exact Finset.notMem_erase a _
    have hrel := hdrain.release hused hheader hout now
    obtain ⟨-, hpcs, -, -⟩ := chunkRelease_spec s.chunks none a now
    apply hrel.close hg rfl
    have howned : ∀ d ∈ (s.heap k).lists.owned, d ≠ a → d ∈ lists.owned :=
      fun d hd hda => Finset.mem_erase.mpr ⟨hda, hd⟩
    have hnext : ∀ d ∈ E, d ≠ a → lists.next d = (s.heap k).lists.next d := fun _ _ _ => rfl
    obtain ⟨v', hvisit⟩ := hend.visit hnext rfl rfl howned
    dsimp only
    rw [hself]
    exact ⟨(congrFun hpcs i).trans hcpc, v', _, hvisit⟩
  · let lists : Heap.MemHeap := { Heap.spanTakeRemote (s.heap k).lists a with
      prev := setAt kept (some a) (Function.update (s.heap k).lists.prev a none)
      next := Function.update (s.heap k).lists.next a kept }
    have hdrain : MidCall (s.setLists k lists) i [] D := h.drain hg ha rfl (.inl rfl)
    apply hdrain.close hg rfl
    have hnext : ∀ d ∈ E, d ≠ a → lists.next d = (s.heap k).lists.next d :=
      fun d _ hda => Function.update_of_ne hda ..
    obtain ⟨v', hvisit⟩ := hend.visit hnext rfl rfl fun d hd _ => hd
    rw [setLists_self]
    exact ⟨hcpc, v', _, hvisit⟩

theorem endFullStep (h : MidCall s i [] D) (hg : s.gHeap i = some k)
    (hcpc : s.chunks.pcs i = .ending) {kept keptTail : Option ℕ} {v : Option ℕ → List ℕ} {E : Set ℕ}
    (hend : Ending (s.heap k).lists none (some a) v E) (htail : ∀ d, keptTail = some d → d ∉ E)
    (now : BitVec 64) : PoolOk (endFullStep s i k a kept keptTail now) := by
  have ha := hend.owned a hend.mem
  have hused := h.stored.used k a ha
  have hheader := h.stored.header k a ha
  unfold MemoryPool.endFullStep
  dsimp only
  by_cases hzero : ((Heap.spanTakeRemote (s.heap k).lists a).head a).used = 0
  · rw [if_pos hzero]
    let lists : Heap.MemHeap := { Heap.spanTakeRemote (s.heap k).lists a with
      owned := (s.heap k).lists.owned.erase a }
    have hdrain : MidCall (s.setLists k lists) i [] D := h.drain hg ha rfl (.inr ⟨rfl, hzero⟩)
    have hself := setLists_self s k lists
    have hout : a ∉ ((s.setLists k lists).heap k).lists.owned := by
      rw [hself]
      exact Finset.notMem_erase a _
    have hrel := hdrain.release hused hheader hout now
    obtain ⟨-, hpcs, -, -⟩ := chunkRelease_spec s.chunks none a now
    apply hrel.close hg rfl
    have howned : ∀ d ∈ (s.heap k).lists.owned, d ≠ a → d ∈ lists.owned :=
      fun d hd hda => Finset.mem_erase.mpr ⟨hda, hd⟩
    have hnext : ∀ d ∈ E, d ≠ a → lists.next d = (s.heap k).lists.next d := fun _ _ _ => rfl
    obtain ⟨v', hvisit⟩ := hend.visit hnext rfl rfl howned
    dsimp only
    rw [hself]
    exact ⟨(congrFun hpcs i).trans hcpc, v', _, hvisit, fun d hd hin => htail d hd hin.1⟩
  · rw [if_neg hzero]
    let lists : Heap.MemHeap := { Heap.spanTakeRemote (s.heap k).lists a with
      next := setAt keptTail (some a) (Function.update (s.heap k).lists.next a none)
      prev := Function.update (s.heap k).lists.prev a keptTail }
    have hdrain : MidCall (s.setLists k lists) i [] D := h.drain hg ha rfl (.inl rfl)
    have hnext : ∀ d ∈ E, d ≠ a → lists.next d = (s.heap k).lists.next d := by
      intro d hd hda
      have hne : keptTail ≠ some d := fun ht => htail d ht hd
      exact (setAt_of_ne _ hne).trans (Function.update_of_ne hda ..)
    apply hdrain.close hg rfl
    obtain ⟨v', hvisit⟩ := hend.visit hnext rfl rfl fun d hd _ => hd
    rw [setLists_self]
    refine ⟨hcpc, v', _, hvisit, ?_⟩
    intro d hd hin
    exact hin.2 (Option.some.inj hd).symm

end MidCall

theorem Ending.unvisited {h : Heap.MemHeap} {c : ℕ} {v : Option ℕ → List ℕ} {E : Set ℕ}
    (hend : Ending h (some c) none v E) (kept : Option ℕ) :
    Unvisited { h with spans := Function.update h.spans c kept } (c + 1) v E where
  classes := by
    intro d hd
    dsimp only
    rw [Function.update_of_ne (by omega)]
    exact hend.classes c rfl d hd
  full := hend.full (Option.some_ne_none c)
  shelved := hend.shelved
  owned := hend.owned

/-! ### The steps -/

theorem PoolOk.endedThread (h : PoolOk s) (hidle : s.pcs i = .idle) (hg : s.gHeap i = some k) :
    PoolOk (endClassStart { s with chunks := s.chunks.setPc i .ending } i k 0) := by
  obtain ⟨D, hmid, hrest⟩ := h.calling hidle
  have hcpc := hrest.chunks
  obtain ⟨v, E, hclasses, hfull, hshelved, howned⟩ := Ending.of_heapInv (hrest.heap k hg).2
  have hchunks : ChunkInv (s.chunks.setPc i .ending) := by
    apply hmid.stored.chunks.setPc
    · rw [hcpc]
      rfl
    · rfl
    · exact fun _ => ChunkPc.noConfusion
  have hstored : Stored { s with chunks := s.chunks.setPc i .ending } (s.inHand i []) D :=
    hmid.stored.setChunks hchunks hmid.stored.apart fun _ hd _ => hd
  have hlanes : LanesBut { s with chunks := s.chunks.setPc i .ending } i := by
    refine hmid.lanes.turn rfl rfl (fun _ _ => rfl) ⟨?_, fun _ _ => rfl⟩ rfl fun _ _ _ _ hst => hst
    intro j hj
    exact Function.update_of_ne hj ..
  have hmid' : MidCall { s with chunks := s.chunks.setPc i .ending } i [] D := ⟨hstored, hlanes⟩
  exact hmid'.endClassStart hg (Function.update_self ..)
    ⟨fun d _ => hclasses d, hfull, hshelved, howned⟩

theorem PoolOk.endCacheStep (h : PoolOk s) (hg : s.gHeap i = some k) (hpc : s.pcs i = .endCache)
    {now : BitVec 64} (hs : endCacheStep s i k now = some s') : PoolOk s' := by
  obtain ⟨D, hmid⟩ := h.mid i
  have hst := h.lanes.stands hg
  rw [hpc] at hmid hst
  obtain ⟨rest, hcpc⟩ := hst
  obtain ⟨chunks, hdrain, hchunks⟩ := Option.map_eq_some_iff.mp hs
  have hinv : ChunkInv chunks := hmid.stored.chunks.step hdrain
  unfold chunkStep at hdrain
  simp only [hcpc] at hdrain
  cases rest with
  | cons mem rest =>
    obtain rfl := Option.some.inj hdrain
    have hat : (Function.update s.chunks.pcs i (.draining rest)) i = .draining rest :=
      Function.update_self ..
    simp only [ChunkState.setPc, hat, reduceCtorEq, if_false] at hchunks
    obtain rfl := hchunks
    have hmapped := mapped_chunkReleaseLocked mem now s.chunks.pool
    have hstored : Stored { s with chunks := { s.chunks with
        pool := chunkReleaseLocked mem now s.chunks.pool
        pcs := Function.update s.chunks.pcs i (.draining rest) } } (s.inHand i []) D :=
      hmid.stored.setChunks hinv (hmid.stored.apart.mono hmapped) fun _ hd _ => hd
    have hlanes : LanesBut { s with chunks := { s.chunks with
        pool := chunkReleaseLocked mem now s.chunks.pool
        pcs := Function.update s.chunks.pcs i (.draining rest) } } i := by
      refine hmid.lanes.turn rfl rfl (fun _ _ => rfl) ⟨?_, fun _ _ => rfl⟩ rfl
        fun _ _ _ _ hst => hst
      intro j hj
      exact Function.update_of_ne hj ..
    have hblocks : (s.pcs i).blocks = [] := by
      rw [hpc]
      rfl
    rw [← hblocks] at hstored
    apply MidCall.stay ⟨hstored, hlanes⟩ hg
    dsimp only
    rw [hpc]
    exact ⟨rest, hat⟩
  | nil =>
    obtain rfl := Option.some.inj hdrain
    have hat : (Function.update s.chunks.pcs i .idle) i = .idle := Function.update_self ..
    simp only [ChunkState.setPc, ChunkState.setHeap, hat, if_true] at hchunks
    obtain rfl := hchunks
    have hsetHeap (j : ℕ) : (({ s with chunks := { s.chunks with
        heaps := Function.update s.chunks.heaps i ⟨false, [], 0⟩
        pcs := Function.update s.chunks.pcs i .idle } }.setHeap k
        { s.heap k with active := false }).heap j).lists = (s.heap j).lists := by
      simp only [PoolState.setHeap]
      by_cases hj : j = k
      · rw [hj, Function.update_self]
      · rw [Function.update_of_ne hj]
    have hstored : Stored { s with chunks := { s.chunks with
        heaps := Function.update s.chunks.heaps i ⟨false, [], 0⟩
        pcs := Function.update s.chunks.pcs i .idle } } (s.inHand i []) D :=
      hmid.stored.setChunks hinv hmid.stored.apart fun _ hd _ => hd
    constructor
    · refine ⟨D, ?_⟩
      let ended : PoolState ι := { ({ s with chunks := { s.chunks with
        heaps := Function.update s.chunks.heaps i ⟨false, [], 0⟩
        pcs := Function.update s.chunks.pcs i .idle } }.setHeap k
          { s.heap k with active := false }).setPc i .idle with
        lanesDestroyed := s.lanesDestroyed + 1
        gHeap := Function.update s.gHeap i none }
      have hholds : ended.holds = s.inHand i (PoolPc.blocks .idle) := holds_eq_inHand rfl rfl
      have hfinal : Stored ended (s.inHand i []) D := hstored.same ⟨rfl, rfl, hsetHeap, rfl, rfl⟩
      change Stored _ (s.inHand i (PoolPc.blocks .idle)) D at hfinal
      rw [← hholds] at hfinal
      exact hfinal
    · constructor
      · intro j
        by_cases hj : j = i
        · rw [hj]
          refine (lane_none (Function.update_self ..)).mpr ⟨Function.update_self .., hat, ?_⟩
          simp only [PoolState.setPc, PoolState.setHeap, Function.update_self]
        · apply (hmid.lanes.lane j hj).same
          · exact Function.update_of_ne hj ..
          · exact fun _ hm => hm
          · exact Function.update_of_ne hj ..
          · exact Function.update_of_ne hj ..
          · simp only [PoolState.setPc, PoolState.setHeap, Function.update_of_ne hj]
          · intro m _ hst
            have hl := hsetHeap m
            rw [← hl] at hst
            exact hst
      · intro a b m ha hb
        dsimp only at ha hb
        by_cases hai : a = i
        · rw [hai, Function.update_self] at ha
          cases ha
        · by_cases hbi : b = i
          · rw [hbi, Function.update_self] at hb
            cases hb
          · rw [Function.update_of_ne hai] at ha
            rw [Function.update_of_ne hbi] at hb
            exact h.lanes.once a b m ha hb

theorem PoolOk.endStep (h : PoolOk s) (hg : s.gHeap i = some k) {pc : PoolPc} (hpc : s.pcs i = pc)
    {now : BitVec 64} (hs : endStep s i k now pc = some s') : PoolOk s' := by
  obtain ⟨D, hmid⟩ := h.mid i
  have hst := h.lanes.stands hg
  rw [hpc] at hmid hst
  cases pc with
  | idle => cases hs
  | refill old => cases hs
  | large size old => cases hs
  | release old new => cases hs
  | endClass c span kept =>
    obtain ⟨hcpc, v, E, hend⟩ := hst
    cases span with
    | some a =>
      obtain rfl := Option.some.inj hs
      exact MidCall.endClassStep hmid hg hcpc hend now
    | none =>
      have hun := hend.unvisited kept
      have hset : MidCall (s.setLists k { (s.heap k).lists with
          spans := Function.update (s.heap k).lists.spans c kept }) i [] D :=
        MidCall.relink hmid hg rfl rfl
      rw [← setLists_self s k { (s.heap k).lists with
        spans := Function.update (s.heap k).lists.spans c kept }] at hun
      obtain rfl := Option.some.inj hs
      split_ifs
      · exact hset.endClassStart hg hcpc hun
      · exact hset.endFullStart hg hcpc hun
  | endFull span kept keptTail =>
    obtain ⟨hcpc, v, E, hend, htail⟩ := hst
    cases span with
    | some a =>
      obtain rfl := Option.some.inj hs
      exact MidCall.endFullStep hmid hg hcpc hend htail now
    | none =>
      obtain ⟨chunks, hlocal, rfl⟩ := Option.map_eq_some_iff.mp hs
      have hinv : ChunkInv chunks := hmid.stored.chunks.step hlocal
      unfold chunkStep at hlocal
      simp only [hcpc, if_true, Option.some.injEq] at hlocal
      obtain rfl := hlocal
      have hstored := hmid.stored.setChunks hinv hmid.stored.apart fun _ hd _ => hd
      have hactive : ∀ j, ((Function.update s.chunks.heaps i
          ⟨(s.chunks.heaps i).active, [], 0⟩) j).active = (s.chunks.heaps j).active := by
        intro j
        by_cases hj : j = i
        · rw [hj, Function.update_self]
        · rw [Function.update_of_ne hj]
      have hmid' : MidCall { s with chunks := ((s.chunks.setHeap i
          ⟨(s.chunks.heaps i).active, [], 0⟩).setPc i
          (.draining (s.chunks.heaps i).localCache)) } i [] D := by
        refine ⟨hstored, hmid.lanes.turn rfl rfl (fun _ _ => rfl) ⟨?_, fun j _ => hactive j⟩
          (hactive i) fun _ _ _ _ hst => hst⟩
        intro j hj
        exact Function.update_of_ne hj ..
      let lists : Heap.MemHeap := { (s.heap k).lists with fullHead := kept, fullTail := keptTail }
      have hset : MidCall (PoolState.setLists _ k lists) i [] D := hmid'.relink hg rfl rfl
      apply hset.close hg rfl
      exact ⟨_, Function.update_self ..⟩
  | endCache => exact h.endCacheStep hg hpc hs

end
end Xplatbase.MemoryPool
