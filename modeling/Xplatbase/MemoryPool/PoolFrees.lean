import Xplatbase.MemoryPool.PoolCalls

/-! A free keeps the invariant of the pool: by the owner of the span, by another thread, or of a
LARGE block; and so does `memop_realloc_raw`. -/
namespace Xplatbase.MemoryPool
open Xplatbase.Lib Xplatbase.Memory

variable {ι : Type*}

section
variable {s s' : PoolState ι} {i : ι} {k a b : ℕ} {D D' : Set Ptr} {p : Ptr}
  {v v' : Option ι → List Ptr}

/-- The blocks lie on the shelves `v`, and thread `i` has nothing under way but its call. -/
structure AtCall (s : PoolState ι) (i : ι) (v : Option ι → List Ptr) (D : Set Ptr) : Prop where
  stored : Stored s v D
  lanes : LanesBut s i
  rest : AtRest s i

/-! ### A block comes back to its span -/

/-- Block `b` of span `a` has come back, and the span has left its heap only if it is dead. -/
theorem Stored.regain (h : Stored s v D) (ha : a ∈ (s.heap k).lists.owned) (hnot : ⟨a, b⟩ ∉ D)
    {lists : Heap.MemHeap} (hb : b ∈ ((s.heap k).lists.head a).live)
    (howned : lists.owned = (s.heap k).lists.owned ∨
      lists.owned = (s.heap k).lists.owned.erase a ∧ (lists.head a).live = [])
    (hat : Heap.Regains ((s.heap k).lists.head a) b (lists.head a))
    (hrest : ∀ d ≠ a, lists.head d = (s.heap k).lists.head d)
    (hwf : Heap.SpanWf { lists.head a with state := .available }) :
    Stored (s.setLists k lists) v D := by
  have hk : k ∈ s.heaps := by
    by_contra hno
    rw [h.created k hno] at ha
    exact Finset.notMem_empty a ha
  have hsub : ∀ d ∈ lists.owned, d ∈ (s.heap k).lists.owned := by
    intro d hd
    rcases howned with ho | ⟨ho, -⟩
    · rw [ho] at hd
      exact hd
    · rw [ho] at hd
      exact Finset.mem_of_mem_erase hd
  apply h.setLists hk
  · exact fun d hd => h.used k d (hsub d hd)
  · exact fun d hd => h.header k d (hsub d hd)
  · intro d hd
    by_cases hda : d = a
    · rw [hda]
      exact ⟨hwf, (h.spans k a ha).parted.regains hat hb⟩
    · rw [hrest d hda]
      exact h.spans k d (hsub d hd)
  · intro p hp hin hlive
    by_cases hpa : p.span = a
    · have hne : p.block ≠ b := by
        intro hpb
        have hpe : p = ⟨a, b⟩ := by
          cases p
          simp only at hpa hpb
          rw [hpa, hpb]
        exact hnot (hpe ▸ hp)
      rw [hpa] at hin hlive ⊢
      have hback : p.block ∈ (lists.head a).live := by
        rw [hat.live]
        exact (List.mem_erase_of_ne hne).mpr hlive
      refine ⟨?_, hback⟩
      rcases howned with ho | ⟨-, hdead⟩
      · rw [ho]
        exact hin
      · rw [hdead] at hback
        exact absurd hback List.not_mem_nil
    · rw [hrest _ hpa]
      refine ⟨?_, hlive⟩
      rcases howned with ho | ⟨ho, -⟩
      · rw [ho]
        exact hin
      · rw [ho]
        exact Finset.mem_erase.mpr ⟨hpa, hin⟩

/-- A call in which a thread stands is not touched by a remote free. -/
theorem PoolPc.Stands.remotePush {pc : PoolPc} {cpc : ChunkPc} {h : Heap.MemHeap}
    (hst : pc.Stands cpc h) (ha : a ∈ h.owned) (hb : b ∈ (h.head a).live) :
    pc.Stands cpc (Heap.remotePush h a b) := by
  have hinv (hi : Heap.HeapInv h) : Heap.HeapInv (Heap.remotePush h a b) :=
    hi.step (l := .remoteFree a b) (if_pos ⟨ha, hb⟩)
  cases pc with
  | idle => exact ⟨hst.1, hst.2.1, hinv hst.2.2⟩
  | refill old => exact ⟨hst.1, hst.2.1, hinv hst.2.2⟩
  | large size old => exact ⟨hst.1, hst.2.1, hinv hst.2.2⟩
  | release old new => exact ⟨hst.1, hst.2.1, hinv hst.2.2⟩
  | endClass c span kept =>
    obtain ⟨hcpc, v, E, hend⟩ := hst
    exact ⟨hcpc, v, E, hend.congr rfl rfl rfl rfl⟩
  | endFull span kept keptTail =>
    obtain ⟨hcpc, v, E, hend, htail⟩ := hst
    exact ⟨hcpc, v, E, hend.congr rfl rfl rfl rfl, htail⟩
  | endCache => exact hst

namespace AtCall

/-- Only the storage, the heaps and the threads of a state matter. -/
theorem same (h : AtCall s i v D) (hs : SameStorage s s') (hgs : s'.gHeap = s.gHeap)
    (hpcs : ∀ j ≠ i, s'.pcs j = s.pcs j) : AtCall s' i v D where
  stored := h.stored.same hs
  lanes := h.lanes.same hs hgs hpcs
  rest := h.rest.same (by rw [hs.chunks]) hgs hs.lists

theorem countFree (h : AtCall s i v D) : AtCall (s.countFree i) i v D := by
  obtain ⟨hpcs, hgs⟩ := countFree_rest s i
  exact h.same (.countFree s i) hgs fun j _ => congrFun hpcs j

theorem countRemoteFree (h : AtCall s i v D) : AtCall (s.countRemoteFree i) i v D := by
  obtain ⟨hpcs, hgs⟩ := countRemoteFree_rest s i
  exact h.same (.countRemoteFree s i) hgs fun j _ => congrFun hpcs j

end AtCall

theorem PoolOk.atCall (h : PoolOk s) (hidle : s.pcs i = .idle) :
    ∃ D, AtCall s i s.holds D := by
  obtain ⟨D, hD⟩ := h.stored
  refine ⟨D, hD, h.lanes.but i, ?_⟩
  have hlane := h.lanes.lane i
  cases hg : s.gHeap i with
  | none =>
    refine ⟨((lane_none hg).mp hlane).2.1, ?_⟩
    intro k hk
    rw [hg] at hk
    cases hk
  | some k =>
    have hst := h.lanes.stands hg
    rw [hidle] at hst
    exact .of_heap hg hst.1 hst.2.1 hst.2.2

variable [DecidableEq ι]

/-! ### Chunks and mappings -/

theorem Stored.release (h : Stored s v D) {own : Option ι} (now : BitVec 64)
    (ha : a ∈ s.chunks.used) (hfree : ¬ s.InUse D a)
    (hown : ∀ j, own = some j → s.chunks.pcs j = .idle ∧ (s.chunks.heaps j).active = true) :
    Stored { s with chunks := chunkRelease s.chunks own a now } v D := by
  obtain ⟨hused, -, -, hmapped⟩ := chunkRelease_spec s.chunks own a now
  apply h.setChunks
  · exact h.chunks.release now ha hown
  · exact h.apart.mono hmapped
  · intro d hd hin
    rw [hused, h.nodup_used.mem_erase_iff]
    refine ⟨?_, hd⟩
    rintro rfl
    exact hfree hin

theorem LanesBut.release (h : LanesBut s i) (own : Option ι) (a : ℕ) (now : BitVec 64) :
    LanesBut { s with chunks := chunkRelease s.chunks own a now } i := by
  obtain ⟨-, hpcs, hactive, -⟩ := chunkRelease_spec s.chunks own a now
  refine h.turn rfl rfl (fun _ _ => rfl) ⟨?_, fun j _ => hactive j⟩ (hactive i)
    fun _ _ _ _ hst => hst
  exact fun j _ => congrFun hpcs j

namespace AtCall

/-- Thread `i` releases a chunk, to its own cache if it has one. -/
theorem release (h : AtCall s i v D) (now : BitVec 64) (ha : a ∈ s.chunks.used)
    (hfree : ¬ s.InUse D a) :
    AtCall { s with chunks := chunkRelease s.chunks ((s.gHeap i).map fun _ => i) a now } i v D where
  stored := by
    apply h.stored.release now ha hfree
    intro j hj
    obtain ⟨k, hk, rfl⟩ := Option.map_eq_some_iff.mp hj
    refine ⟨h.rest.chunks, ?_⟩
    rw [h.lanes.active, hk]
    rfl
  lanes := h.lanes.release _ a now
  rest := by
    obtain ⟨-, hpcs, -, -⟩ := chunkRelease_spec s.chunks ((s.gHeap i).map fun _ => i) a now
    exact h.rest.same hpcs rfl fun _ => rfl

/-- Thread `i` is in no call any more. -/
theorem done (h : AtCall s i v D) (hs : SameStorage s s') (hgs : s'.gHeap = s.gHeap)
    (hpcs : s'.pcs = Function.update s.pcs i .idle) (hholds : s'.holds = v) : PoolOk s' := by
  have hcall : AtCall s' i v D := by
    apply h.same hs hgs
    intro j hj
    rw [hpcs, Function.update_of_ne hj]
  constructor
  · refine ⟨D, ?_⟩
    rw [hholds]
    exact hcall.stored
  · apply hcall.lanes.idle _ hcall.rest.chunks hcall.rest.heap
    rw [hpcs, Function.update_self]

/-! ### `memop_free_raw` -/

theorem freeLarge (h : AtCall s i v D) (hp : p ∈ D) (hv : Shelved v' (D \ {p}))
    {x : Heap.LargeSpan} (hx : s.header p.span = .large x) (now : BitVec 64) :
    AtCall (memopFreeRaw s i p now) i v' (D \ {p}) := by
  obtain ⟨hblock, hheld⟩ := (home_large hx).mp (h.stored.home p hp)
  have hdrop : AtCall s i v' (D \ {p}) :=
    ⟨h.stored.reshelve hv fun _ hq => hq.1, h.lanes, h.rest⟩
  have hcount := hdrop.countFree
  -- a LARGE block is alone in its memory
  have hone : ∀ q ∈ D, q.span = p.span → q = p := by
    intro q hq hqp
    rw [← hqp] at hx
    obtain ⟨hqb, -⟩ := (home_large hx).mp (h.stored.home q hq)
    cases p
    cases q
    simp only at hblock hqb hqp
    rw [hblock, hqb, hqp]
  have hsame := SameStorage.countFree s i
  obtain ⟨-, hg⟩ := countFree_rest s i
  unfold MemoryPool.memopFreeRaw
  simp only [hx]
  split_ifs with hunit
  · rw [← hg]
    apply hcount.release now
    · rw [hsame.chunks]
      rcases hheld with ⟨-, -, hm⟩ | ⟨hne, -, -⟩
      · exact hm
      · exact absurd hunit hne
    · rintro (⟨k, hk⟩ | ⟨q, ⟨hq, hne⟩, hqp⟩)
      · have hsmall := hcount.stored.header k _ hk
        rw [hsame.header, hx] at hsmall
        cases hsmall
      · exact hne (hone q hq hqp)
  · have hm : (p.span, x.blockCount.toNat) ∈ (s.countFree i).mappings := by
      rw [hsame.mappings]
      rcases hheld with ⟨hno, -, -⟩ | ⟨-, hm, -⟩
      · exact absurd hno hunit
      · exact hm
    have hstored : Stored { s.countFree i with
        mappings := unmap (s.countFree i).mappings p.span x.blockCount.toNat } v' (D \ {p}) := by
      apply hcount.stored.setMappings (hcount.stored.apart.unmap hm)
      rintro q ⟨hq, hne⟩ n hn
      refine (hcount.stored.apart.mem_unmap hm _).mpr ⟨hn, ?_⟩
      exact fun hqp => hne (hone q hq hqp)
    constructor
    · exact hstored
    · exact hcount.lanes.turn rfl rfl (fun _ _ => rfl) ⟨fun _ _ => rfl, fun _ _ => rfl⟩ rfl
        fun _ _ _ _ hst => hst
    · exact hcount.rest.same rfl rfl fun _ => rfl

theorem freeLocal (h : AtCall s i v D) (hp : p ∈ D) (hv : Shelved v' (D \ {p}))
    (hk : s.header p.span = .small k) (hg : s.gHeap i = some k) (now : BitVec 64) :
    AtCall (memopFreeRaw s i p now) i v' (D \ {p}) := by
  obtain ⟨howned, hlive⟩ := (home_small hk).mp (h.stored.home p hp)
  obtain ⟨hpc, hi⟩ := h.rest.heap k hg
  obtain ⟨⟨state, hhead⟩, hother, hsame, hout⟩ :=
    Heap.memopFreeRaw_spec (s.heap k).lists p.span p.block
  have hwf := (heapInv_wf hi _ howned).free hlive
  have hi' : Heap.HeapInv (Heap.memopFreeRaw (s.heap k).lists p.span p.block) :=
    hi.step (l := .free p.span p.block) (if_pos ⟨hpc, howned, hlive⟩)
  have hused := h.stored.used k _ howned
  have hnot : p ∉ D \ {p} := fun hno => hno.2 rfl
  have hdrop : Stored s v' (D \ {p}) := h.stored.reshelve hv fun _ hq => hq.1
  unfold MemoryPool.memopFreeRaw
  simp only [hk, hg, if_true]
  generalize Heap.memopFreeRaw (s.heap k).lists p.span p.block = lists at *
  have hdead : lists.owned = (s.heap k).lists.owned ∨
      lists.owned = (s.heap k).lists.owned.erase p.span ∧ (lists.head p.span).live = [] := by
    rcases hout with ho | ⟨ho, hzero⟩
    · exact .inl ho
    · refine .inr ⟨ho, ?_⟩
      rw [hhead]
      exact (hwf.dead hzero).2
  have hstored : Stored (s.setLists k lists) v' (D \ {p}) := by
    apply hdrop.regain howned hnot hlive hdead _ hother
    · rw [hhead]
      exact hwf
    · rw [hhead]
      exact ⟨rfl, rfl, rfl, .refl _⟩
  have hlists := setLists_self s k lists
  have hcall : AtCall (s.setLists k lists) i v' (D \ {p}) := by
    constructor
    · exact hstored
    · refine h.lanes.turn rfl rfl (fun _ _ => rfl) ⟨fun _ _ => rfl, fun _ _ => rfl⟩ rfl ?_
      intro j m hj hm hst
      rw [setLists_of_ne s lists (h.lanes.other hg hj hm)]
      exact hst
    · refine AtRest.of_heap hg h.rest.chunks ?_ ?_
      · rw [hlists]
        exact hsame.trans hpc
      · rw [hlists]
        exact hi'
  have hcount := hcall.countFree
  have hstat := SameStorage.countFree (s.setLists k lists) i
  obtain ⟨-, hgs⟩ := countFree_rest (s.setLists k lists) i
  split_ifs with hin
  · exact hcount
  · have hgi : ((s.setLists k lists).countFree i).gHeap i = some k := (congrFun hgs i).trans hg
    have hheader : ((s.setLists k lists).countFree i).header = s.header := hstat.header
    have hcl : (((s.setLists k lists).countFree i).heap k).lists = lists :=
      (hstat.lists k).trans hlists
    have hin' : p.span ∈ ((s.setLists k lists).countFree i).chunks.used := by
      rw [hstat.chunks]
      exact hused
    have hfree : ¬ ((s.setLists k lists).countFree i).InUse (D \ {p}) p.span := by
      rintro (⟨m, hm⟩ | ⟨q, hq, hqp⟩)
      · have hsmall := hcount.stored.header m _ hm
        rw [hheader, hk] at hsmall
        obtain rfl := SpanOwner.small.inj hsmall
        rw [hcl] at hm
        exact hin hm
      · have hhome := hcount.stored.home q hq
        have hsmall : ((s.setLists k lists).countFree i).header q.span = .small k := by
          rw [hheader, hqp]
          exact hk
        have hqin := ((home_small hsmall).mp hhome).1
        rw [hcl, hqp] at hqin
        exact hin hqin
    have hrel := hcount.release now hin' hfree
    rw [hgi] at hrel
    exact hrel

theorem freeRemote (h : AtCall s i v D) (hp : p ∈ D) (hv : Shelved v' (D \ {p}))
    (hk : s.header p.span = .small k) (hg : s.gHeap i ≠ some k) (now : BitVec 64) :
    AtCall (memopFreeRaw s i p now) i v' (D \ {p}) := by
  obtain ⟨howned, hlive⟩ := (home_small hk).mp (h.stored.home p hp)
  obtain ⟨hat, hother⟩ := Heap.remotePush_spec (s.heap k).lists p.span p.block
  have hnot : p ∉ D \ {p} := fun hno => hno.2 rfl
  have hdrop : Stored s v' (D \ {p}) := h.stored.reshelve hv fun _ hq => hq.1
  unfold MemoryPool.memopFreeRaw
  simp only [hk, if_neg hg]
  apply countRemoteFree
  have hstored : Stored (s.setLists k (Heap.remotePush (s.heap k).lists p.span p.block)) v'
      (D \ {p}) := by
    refine hdrop.regain howned hnot hlive (.inl rfl) hat hother ?_
    have hpush := (h.stored.spans k _ howned).wf.push hlive
    unfold Heap.remotePush
    rw [Heap.MemHeap.setHead_self]
    exact hpush
  refine ⟨hstored, ?_, h.rest.chunks, ?_⟩
  · refine h.lanes.turn rfl rfl (fun _ _ => rfl) ⟨fun _ _ => rfl, fun _ _ => rfl⟩ rfl ?_
    intro j m hj hm hst
    by_cases hmk : m = k
    · rw [hmk] at hst ⊢
      rw [setLists_self]
      exact hst.remotePush howned hlive
    · rw [setLists_of_ne s _ hmk]
      exact hst
  · intro m hm
    have hne : m ≠ k := by
      rintro rfl
      exact hg hm
    rw [setLists_of_ne s _ hne]
    exact h.rest.heap m hm

/-- `memop_free_raw` of a block that is held takes it from its holder and nothing else. -/
theorem memopFreeRaw (h : AtCall s i v D) (hp : p ∈ D) (hv : Shelved v' (D \ {p}))
    (now : BitVec 64) : AtCall (memopFreeRaw s i p now) i v' (D \ {p}) := by
  cases hx : s.header p.span with
  | large x => exact h.freeLarge hp hv hx now
  | small k =>
    by_cases hg : s.gHeap i = some k
    · exact h.freeLocal hp hv hx hg now
    · exact h.freeRemote hp hv hx hg now

end AtCall

/-! ### Calls that free -/

theorem PoolOk.calling (h : PoolOk s) (hidle : s.pcs i = .idle) :
    ∃ D, MidCall s i [] D ∧ AtRest s i := by
  obtain ⟨D, hat⟩ := h.atCall hidle
  have hhands : s.inHand i [] = s.holds := by
    rw [← inHand_blocks s i, hidle]
    rfl
  refine ⟨D, ⟨?_, hat.lanes⟩, hat.rest⟩
  rw [hhands]
  exact hat.stored

theorem PoolOk.freed (h : PoolOk s) (hidle : s.pcs i = .idle) (hp : p ∈ s.live) (now : BitVec 64) :
    PoolOk ((memopFreeRaw { s with live := s.live.erase p } i p now).ret i .freed) := by
  obtain ⟨D, hat⟩ := h.atCall hidle
  let s₁ : PoolState ι := { s with live := s.live.erase p }
  have hcall : AtCall s₁ i s.holds D := hat.same ⟨rfl, rfl, fun _ => rfl, rfl, rfl⟩ rfl fun _ _ => rfl
  have hmem : p ∈ D := hat.stored.shelved.mem (p := none) hp
  have hv : Shelved s₁.holds (D \ {p}) := by
    apply hat.stored.shelved.take (a := none) hp rfl
    intro q hq
    cases q with
    | none => exact absurd rfl hq
    | some j => rfl
  obtain ⟨hpcs, hlive, -⟩ := memopFreeRaw_rest s₁ i p now
  have hret : (memopFreeRaw s₁ i p now).pcs i = .idle := by
    rw [hpcs]
    exact hidle
  refine (hcall.memopFreeRaw hmem hv now).done ⟨rfl, rfl, fun _ => rfl, rfl, rfl⟩ rfl rfl ?_
  have hsame : ((memopFreeRaw s₁ i p now).ret i .freed).pcs = s₁.pcs := by
    unfold PoolState.ret PoolState.setPc
    dsimp only
    rw [← hret, Function.update_eq_self, hpcs]
  have hsame' : ((memopFreeRaw s₁ i p now).ret i .freed).live = s₁.live := hlive
  funext q
  cases q with
  | none => exact hsame'
  | some j =>
    unfold PoolState.holds
    dsimp only
    rw [hsame]

theorem PoolOk.replacing (h : PoolOk s) (hidle : s.pcs i = .idle) (hp : p ∈ s.live) :
    ∃ D, Stored s s.holds D ∧ MidCall { s with live := s.live.erase p } i (some p).toList D ∧
      AtRest { s with live := s.live.erase p } i := by
  obtain ⟨D, hat⟩ := h.atCall hidle
  have hcall : AtCall { s with live := s.live.erase p } i s.holds D :=
    hat.same ⟨rfl, rfl, fun _ => rfl, rfl, rfl⟩ rfl fun _ _ => rfl
  have hhands : Shelved ({ s with live := s.live.erase p }.inHand i [p]) D := by
    apply hat.stored.shelved.move (a := none) (b := some i) hp (Option.some_ne_none i).symm
    · exact inHand_none ..
    · rw [inHand_self]
      unfold PoolState.holds
      dsimp only
      rw [hidle]
      rfl
    · intro q hq hi
      cases q with
      | none => exact absurd rfl hq
      | some j => exact inHand_of_ne _ _ fun he => hi (congrArg some he)
  exact ⟨D, hat.stored, ⟨hcall.stored.reshelve hhands fun _ hq => hq, hcall.lanes⟩, hcall.rest⟩

theorem PoolOk.memopReallocRaw (h : PoolOk s) (hidle : s.pcs i = .idle) (hp : p ∈ s.live)
    {size : BitVec 64} {heap : Option ℕ} {now : BitVec 64}
    (hs : memopReallocRaw s i p size heap now = some s') : PoolOk s' := by
  unfold MemoryPool.memopReallocRaw at hs
  split_ifs at hs with hsize hkeep
  · obtain rfl := Option.some.inj hs
    exact h.freed hidle hp now
  · obtain rfl := Option.some.inj hs
    obtain ⟨D, hat⟩ := h.atCall hidle
    have hpcs : (s.ret i .inPlace).pcs = s.pcs := by
      unfold PoolState.ret PoolState.setPc
      dsimp only
      rw [← hidle, Function.update_eq_self]
    refine hat.done ⟨rfl, rfl, fun _ => rfl, rfl, rfl⟩ rfl rfl ?_
    funext q
    cases q with
    | none => rfl
    | some j =>
      unfold PoolState.holds
      dsimp only
      rw [hpcs]
  · obtain ⟨D, -, hmid, hrest⟩ := h.replacing hidle hp
    exact hmid.memopAllocRaw hrest hs

theorem PoolOk.moved (h : PoolOk s) {q : Ptr} (hpc : s.pcs i = .release q p)
    (hg : s.gHeap i = some k) (now : BitVec 64) :
    PoolOk ({ memopFreeRaw s i q now with
      live := p :: (memopFreeRaw s i q now).live }.ret i .moved) := by
  obtain ⟨D, hD⟩ := h.stored
  have hst := h.lanes.stands hg
  rw [hpc] at hst
  have hrest : AtRest s i := .of_heap hg hst.1 hst.2.1 hst.2.2
  have hcall : AtCall s i s.holds D := ⟨hD, h.lanes.but i, hrest⟩
  have hhands : s.holds (some i) = [p, q] := by
    unfold PoolState.holds
    dsimp only
    rw [hpc]
    rfl
  have hne : p ≠ q := by
    have hnodup := hD.shelved.nodup (some i)
    rw [hhands] at hnodup
    intro he
    exact (List.nodup_cons.mp hnodup).1 (he ▸ List.mem_cons_self)
  have hmem : q ∈ s.holds (some i) := by
    rw [hhands]
    exact List.mem_cons_of_mem p List.mem_cons_self
  have htake : Shelved (s.inHand i [p]) (D \ {q}) := by
    apply hD.shelved.take hmem
    · rw [inHand_self, hhands, List.erase_cons_tail (by simpa using hne), List.erase_cons_head]
    · intro r hr
      exact Function.update_of_ne hr ..
  obtain ⟨hpcs, hlive, -⟩ := memopFreeRaw_rest s i q now
  let s₁ : PoolState ι := { memopFreeRaw s i q now with
    live := p :: (memopFreeRaw s i q now).live }.ret i .moved
  have hpcs₁ : s₁.pcs = Function.update s.pcs i .idle := by
    rw [← hpcs]
    rfl
  have hv : Shelved s₁.holds (D \ {q}) := by
    have hp : p ∈ s.inHand i [p] (some i) := by
      rw [inHand_self]
      exact List.mem_cons_self
    apply htake.move (b := none) hp (Option.some_ne_none i)
    · rw [inHand_self, List.erase_cons_head, holds_self hpcs₁]
      rfl
    · rw [inHand_none, ← hlive]
      rfl
    · intro r hr hnone
      exact holds_of_turn hpcs₁ hnone hr
  exact (hcall.memopFreeRaw (hD.shelved.mem hmem) hv now).done ⟨rfl, rfl, fun _ => rfl, rfl, rfl⟩
    rfl rfl rfl

end
end Xplatbase.MemoryPool
