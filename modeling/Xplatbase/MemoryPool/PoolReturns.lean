import Xplatbase.MemoryPool.PoolAccount

/-! What a free or the end of a thread takes out of use goes back to the chunks or to the OS: over
every run, all memory in use is accounted for. -/
namespace Xplatbase.MemoryPool
open Xplatbase.Lib Xplatbase.Memory

variable {ι : Type*} [DecidableEq ι]

/-! ### Spans that are given back -/

section
variable {s t u : PoolState ι} {i : ι} {k : ℕ} {p : Ptr} {old : Option Ptr} {l : List Ptr}
  {now : BitVec 64} {lists : Heap.MemHeap} {v : Option ι → List Ptr} {D : Set Ptr}

/-- The chunk at `a` is given back, after a step that took none. -/
theorem Stored.span_released (h : Stored s v D) {a : ℕ}
    (ha : a ∈ s.chunks.used) (hchunks : u.chunks = s.chunks) (hmaps : u.mappings = s.mappings)
    {own : Option ι} {c n : ℕ}
    (hc : ({ u with chunks := chunkRelease u.chunks own a now } : PoolState ι).Span c n) :
    s.Span c n ∧ c ≠ a := by
  rcases hc with ⟨hone, hc⟩ | hc
  · have hin : c ∈ (chunkRelease u.chunks own a now).used := hc
    rw [(chunkRelease_spec u.chunks own a now).1, hchunks, h.nodup_used.mem_erase_iff] at hin
    exact ⟨.inl ⟨hone, hin.2⟩, hin.1⟩
  · have hx : (c, n) ∈ s.mappings := hmaps ▸ hc
    exact ⟨.inr hx, h.used_ne ha hx⟩

/-- Memory in use after a free was in use before, and what heaps had there they have still. -/
theorem Stored.free_spans (h : Stored s v D) (hp : p ∈ D)
    (i : ι) (now : BitVec 64) {c n : ℕ} (hc : (memopFreeRaw s i p now).Span c n) :
    s.Span c n ∧ (s.Owned c → (memopFreeRaw s i p now).Owned c) ∧
      (c = p.span → (memopFreeRaw s i p now).Owned c) := by
  unfold memopFreeRaw at hc ⊢
  cases hheader : s.header p.span with
  | small k =>
    obtain ⟨howned, -⟩ := (home_small hheader).mp (h.home p hp)
    rw [hheader] at hc
    dsimp only at hc ⊢
    obtain ⟨-, -, -, hkeeps⟩ := Heap.memopFreeRaw_spec (s.heap k).lists p.span p.block
    generalize Heap.memopFreeRaw (s.heap k).lists p.span p.block = lists at *
    have hsame := SameStorage.countFree (s.setLists k lists) i
    split_ifs at hc ⊢ with hlocal hin
    · have hspan : s.Span c n := hsame.span hc
      have hown (d : ℕ) (hd : s.Owned d) : ((s.setLists k lists).countFree i).Owned d := by
        apply hsame.owned
        apply owned_setLists _ hd
        rcases hkeeps with he | ⟨he, -⟩
        · exact fun hm => he.symm ▸ hm
        · rw [he] at hin
          exact absurd hin (Finset.notMem_erase _ _)
      refine ⟨hspan, hown c, ?_⟩
      rintro rfl
      exact hown _ ⟨k, howned⟩
    · obtain ⟨hold, hne⟩ := h.span_released (h.used k _ howned) hsame.chunks hsame.mappings hc
      have hown (ho : s.Owned c) : ((s.setLists k lists).countFree i).Owned c := by
        apply hsame.owned
        apply owned_setLists _ ho
        rcases hkeeps with he | ⟨he, -⟩
        · exact fun hm => he.symm ▸ hm
        · rw [he]
          exact Finset.mem_erase_of_ne_of_mem hne
      exact ⟨hold, hown, fun he => absurd he hne⟩
    · let pushed := s.setLists k (Heap.remotePush (s.heap k).lists p.span p.block)
      have hremote := SameStorage.countRemoteFree pushed i
      have hspan : s.Span c n := hremote.span hc
      have hown (d : ℕ) (hd : s.Owned d) : (pushed.countRemoteFree i).Owned d :=
        hremote.owned (owned_setLists (fun hm => hm) hd)
      refine ⟨hspan, hown c, ?_⟩
      rintro rfl
      exact hown _ ⟨k, howned⟩
  | large x =>
    obtain ⟨-, hheld⟩ := (home_large hheader).mp (h.home p hp)
    rw [hheader] at hc
    dsimp only at hc ⊢
    have hsame := SameStorage.countFree s i
    split_ifs at hc ⊢ with hunit
    · have hu : p.span ∈ s.chunks.used := by
        rcases hheld with ⟨-, -, hu⟩ | ⟨hne, -⟩
        · exact hu
        · exact absurd hunit hne
      obtain ⟨hold, hne⟩ := h.span_released hu hsame.chunks hsame.mappings hc
      exact ⟨hold, fun ho => hsame.owned ho, fun he => absurd he hne⟩
    · have hm : (p.span, x.blockCount.toNat) ∈ s.mappings := by
        rcases hheld with ⟨hone, -⟩ | ⟨-, hm, -⟩
        · exact absurd hone hunit
        · exact hm
      have hold : s.Span c n ∧ c ≠ p.span := by
        rcases hc with ⟨hone, hc⟩ | hc
        · have hu : c ∈ s.chunks.used := hsame.chunks ▸ hc
          exact ⟨.inl ⟨hone, hu⟩, (h.used_ne hu hm).symm⟩
        · have hx : (c, n) ∈ unmap s.mappings p.span x.blockCount.toNat := hsame.mappings ▸ hc
          obtain ⟨hx, hne⟩ := (h.apart.mem_unmap hm _).mp hx
          exact ⟨.inr hx, hne⟩
      exact ⟨hold.1, fun ho => hsame.owned ho, fun he => absurd he hold.2⟩

theorem used_localToGlobal {c c' : ChunkState ι} (hs : chunkStep c (.localToGlobal i) = some c') :
    c'.used = c.used := by
  simp only [chunkStep] at hs
  split_ifs at hs
  rw [← Option.some.inj hs]
  rfl

theorem used_drain {c c' : ChunkState ι} (hs : chunkStep c (.drain i now) = some c') :
    c'.used = c.used := by
  simp only [chunkStep] at hs
  split at hs
  · rw [← Option.some.inj hs]
    rfl
  · rw [← Option.some.inj hs]
    rfl
  · cases hs

/-- The thread has looked at a list of its heap, and released nothing. -/
theorem kept_setLists (h : SpansKept s u) (howned : lists.owned = (u.heap k).lists.owned)
    (pc : PoolPc) : SpansKept s ((u.setLists k lists).setPc i pc) := by
  intro c n hc
  obtain ⟨hold, hown⟩ := h c n hc
  have hkeep : c ∈ (u.heap k).lists.owned → c ∈ lists.owned := by
    rw [howned]
    exact id
  exact ⟨hold, fun ho => owned_setLists hkeep (hown ho)⟩

/-- It has released the span at `a`. -/
theorem kept_released (h : Stored s v D) {a : ℕ}
    (ha : a ∈ (s.heap k).lists.owned) (howned : lists.owned = (s.heap k).lists.owned.erase a)
    (pc : PoolPc) :
    SpansKept s (({ s with chunks := chunkRelease s.chunks none a now }.setLists k lists).setPc i
      pc) := by
  intro c n hc
  obtain ⟨hold, hne⟩ := h.span_released (u := s) (h.used k a ha) rfl rfl hc
  refine ⟨hold, ?_⟩
  have hkeep : c ∈ (s.heap k).lists.owned → c ∈ lists.owned := by
    rw [howned]
    exact Finset.mem_erase_of_ne_of_mem hne
  exact owned_setLists (s := { s with chunks := chunkRelease s.chunks none a now }) hkeep

omit [DecidableEq ι] in
theorem kept_chunks {c : ChunkState ι} (hused : c.used = s.chunks.used) :
    SpansKept s { s with chunks := c } :=
  fun _ _ hd => ⟨span_of_eq (t := { s with chunks := c }) hused rfl hd, id⟩

/-- `memop_on_ended_thread` leaves its spans to a heap, but for those that go back to the chunks. -/
theorem kept_endStep (hok : PoolOk s) (hg : s.gHeap i = some k) {pc : PoolPc} (hpc : s.pcs i = pc)
    (hs : endStep s i k now pc = some t) : SpansKept s t := by
  obtain ⟨D, hD⟩ := hok.stored
  have hst := hok.lanes.stands hg
  have hself : SpansKept s s := fun _ _ hc => ⟨hc, id⟩
  rw [hpc] at hst
  unfold MemoryPool.endStep at hs
  cases pc with
  | endClass c span kept =>
    obtain ⟨-, v, E, hend⟩ := hst
    cases span with
    | some a =>
      have ha := hend.owned a hend.mem
      obtain rfl := Option.some.inj hs
      unfold endClassStep
      dsimp only
      split_ifs
      · exact kept_released hD ha rfl _
      · apply kept_setLists hself
        rfl
    | none =>
      obtain rfl := Option.some.inj hs
      have hlast : SpansKept s (s.setLists k { (s.heap k).lists with
          spans := Function.update (s.heap k).lists.spans c kept }) :=
        fun d n hd => ⟨hd, owned_setLists fun hm => hm⟩
      generalize s.setLists k { (s.heap k).lists with
        spans := Function.update (s.heap k).lists.spans c kept } = u at hlast ⊢
      unfold endClassStart endFullStart
      dsimp only
      split_ifs
      · apply kept_setLists hlast
        rfl
      · apply kept_setLists hlast
        rfl
  | endFull span kept keptTail =>
    obtain ⟨-, v, E, hend, -⟩ := hst
    cases span with
    | some a =>
      have ha := hend.owned a hend.mem
      obtain rfl := Option.some.inj hs
      unfold endFullStep
      dsimp only
      split_ifs
      · exact kept_released hD ha rfl _
      · apply kept_setLists hself
        rfl
      · apply kept_setLists hself
        rfl
    | none =>
      obtain ⟨chunks, hstep, rfl⟩ := Option.map_eq_some_iff.mp hs
      apply kept_setLists (kept_chunks (used_localToGlobal hstep))
      rfl
  | endCache =>
    obtain ⟨chunks, hstep, rfl⟩ := Option.map_eq_some_iff.mp hs
    have hchunks := kept_chunks (s := s) (used_drain hstep)
    dsimp only
    split_ifs
    · intro d n hd
      obtain ⟨hold, hown⟩ := hchunks d n hd
      have hinactive : SameStorage { s with chunks := chunks } (PoolState.setHeap
        { s with chunks := chunks } k { s.heap k with active := false }) := .setHeap _ k rfl
      exact ⟨hold, fun ho => hinactive.owned (hown ho)⟩
    · exact hchunks
  | _ => cases hs

/-! ### Runs -/

namespace Accounted

/-- A block that its caller or a call holds is freed, and the others stay in somebody's hands. -/
theorem afterFree (h : Accounted s) (hok : PoolOk s) {q : Option ι} (hp : p ∈ s.holds q)
    (hu : u = { s with live := u.live }) (i : ι) (now : BitVec 64)
    (hsame : SameStorage (memopFreeRaw u i p now) t)
    (hheld : ∀ q, ∀ p' ∈ s.holds q, p' ≠ p → ∃ r, p' ∈ t.holds r) : Accounted t := by
  obtain ⟨D, hD⟩ := hok.stored
  have hD' : Stored u s.holds D := by
    rw [hu]
    exact ⟨hD.chunks, hD.apart, hD.created, hD.used, hD.header, hD.spans, hD.shelved, hD.home⟩
  have hfree {c n : ℕ} (hc : t.Span c n) := hD'.free_spans (hD.shelved.mem hp) i now (hsame.span hc)
  apply h.of_spans
  · intro c n hc
    obtain ⟨hold, hown, -⟩ := hfree hc
    rw [hu] at hold
    have hfrom (ho : s.Owned c) : u.Owned c := by
      rw [hu]
      exact ho
    exact .inl ⟨hold, fun ho => hsame.owned (hown (hfrom ho))⟩
  · intro q p' hp'
    by_cases hne : p' = p
    · refine .inr ?_
      intro n hc
      rw [hne] at hc ⊢
      exact hsame.owned ((hfree hc).2.2 rfl)
    · exact .inl (hheld q p' hp' hne)

/-- `memop_free_raw` by a caller. -/
theorem freedLive (h : Accounted s) (hok : PoolOk s) (hidle : s.pcs i = .idle) (hp : p ∈ s.live)
    (now : BitVec 64) :
    Accounted ((memopFreeRaw { s with live := s.live.erase p } i p now).ret i .freed) := by
  obtain ⟨hpcs, hlive, -⟩ := memopFreeRaw_rest { s with live := s.live.erase p } i p now
  refine h.afterFree hok (q := none) hp (u := { s with live := s.live.erase p }) rfl i now ?_ ?_
  · exact ⟨rfl, rfl, fun _ => rfl, rfl, rfl⟩
  intro q p' hp' hne
  cases q with
  | none =>
    have hlast : p' ∈ (memopFreeRaw { s with live := s.live.erase p } i p now).live := by
      rw [hlive]
      exact (List.mem_erase_of_ne hne).mpr hp'
    exact ⟨none, hlast⟩
  | some j =>
    have hj : j ≠ i := by
      rintro rfl
      have hblocks : p' ∈ (s.pcs j).blocks := hp'
      rw [hidle] at hblocks
      exact absurd hblocks List.not_mem_nil
    refine ⟨some j, ?_⟩
    have hother : ((memopFreeRaw { s with live := s.live.erase p } i p now).ret i .freed).pcs j =
        s.pcs j := (Function.update_of_ne hj ..).trans (congrFun hpcs j)
    unfold PoolState.holds
    dsimp only
    rw [hother]
    exact hp'

/-- The block that a reallocation replaces is freed, and its caller has the new one. -/
theorem moved (h : Accounted s) (hok : PoolOk s) {new : Ptr} (hpc : s.pcs i = .release p new)
    (now : BitVec 64) :
    Accounted ({ memopFreeRaw s i p now with
      live := new :: (memopFreeRaw s i p now).live }.ret i .moved) := by
  obtain ⟨hpcs, hlive, -⟩ := memopFreeRaw_rest s i p now
  have hp : p ∈ s.holds (some i) := holds_release hpc ▸ List.mem_cons_of_mem new List.mem_cons_self
  refine h.afterFree hok hp (u := s) rfl i now ?_ ?_
  · exact ⟨rfl, rfl, fun _ => rfl, rfl, rfl⟩
  intro q p' hp' hne
  cases q with
  | none =>
    refine ⟨none, ?_⟩
    have hcons : p' ∈ new :: s.live := List.mem_cons_of_mem new hp'
    rw [← hlive] at hcons
    exact hcons
  | some j =>
    by_cases hj : j = i
    · subst hj
      rw [holds_release hpc] at hp'
      rcases List.mem_cons.mp hp' with rfl | hp'
      · exact ⟨none, List.mem_cons_self⟩
      · exact absurd (List.mem_singleton.mp hp') hne
    · refine ⟨some j, ?_⟩
      have hother : ({ memopFreeRaw s i p now with
          live := new :: (memopFreeRaw s i p now).live }.ret i .moved).pcs j = s.pcs j :=
        (Function.update_of_ne hj ..).trans (congrFun hpcs j)
      unfold PoolState.holds
      dsimp only
      rw [hother]
      exact hp'

omit [DecidableEq ι] in
/-- A step of a call that has `old` to replace. -/
theorem inCall (h : Accounted s) (hpcs : ∀ j ≠ i, t.pcs j = s.pcs j)
    (hpc : (s.pcs i).blocks = old.toList) (hheld : Holding s t i (old.toList ++ s.live)) :
    Accounted t := by
  apply h.held hpcs hheld
  rintro p (hp | hp)
  · exact List.mem_append_right _ hp
  · rw [hpc] at hp
    exact List.mem_append_left _ hp

omit [DecidableEq ι] in
theorem called (h : Accounted s) (hpcs : ∀ j ≠ i, t.pcs j = s.pcs j) (hidle : s.pcs i = .idle)
    (hheld : Holding s t i l) (hl : ∀ p ∈ s.live, p ∈ l) : Accounted t := by
  apply h.held hpcs hheld
  rintro p (hp | hp)
  · exact hl p hp
  · rw [hidle] at hp
    exact absurd hp List.not_mem_nil

omit [DecidableEq ι] in
theorem same (h : Accounted s) (hpcs : ∀ j ≠ i, t.pcs j = s.pcs j) (hblocks : (s.pcs i).blocks = [])
    (hlive : t.live = s.live) (hspans : SpansKept s t) : Accounted t := by
  have hheld : Holding s t i s.live := ⟨fun p hp => .inl (hlive ▸ hp), hspans.stay⟩
  apply h.held hpcs hheld
  rintro p (hp | hp)
  · exact hp
  · rw [hblocks] at hp
    exact absurd hp List.not_mem_nil

theorem callStep (h : Accounted s) (hok : PoolOk s) (hg : s.gHeap i = some k) {os : Option ℕ}
    (hs : callStep s i k os now = some t) : Accounted t := by
  have hend {pc : PoolPc} (hpc : s.pcs i = pc) (hblocks : pc.blocks = [])
      (hs : endStep s i k now pc = some t) : Accounted t := by
    obtain ⟨hlive, -⟩ := endStep_rest hpc hs
    exact h.same (OthersStand.endStep hg hs).pcs (hpc ▸ hblocks) hlive (kept_endStep hok hg hpc hs)
  unfold MemoryPool.callStep at hs
  cases hpc : s.pcs i with
  | idle =>
    rw [hpc] at hs
    cases hs
  | refill old =>
    rw [hpc] at hs
    exact h.inCall (InCall.refillStep hg hs).pcs (congrArg PoolPc.blocks hpc)
      (.refillStep hok hg hpc hs)
  | large size old =>
    rw [hpc] at hs
    exact h.inCall (InCall.largeStep hg hs).pcs (congrArg PoolPc.blocks hpc)
      (.largeStep hok hpc hs)
  | release old new =>
    rw [hpc] at hs
    obtain rfl := Option.some.inj hs
    exact h.moved hok hpc now
  | endClass c span kept =>
    rw [hpc] at hs
    exact hend hpc rfl hs
  | endFull span kept keptTail =>
    rw [hpc] at hs
    exact hend hpc rfl hs
  | endCache =>
    rw [hpc] at hs
    exact hend hpc rfl hs

omit [DecidableEq ι] in
/-- At the beginning of a call the lists of the own heap are in order. -/
theorem heapInv_of_idle (hok : PoolOk s) (hidle : s.pcs i = .idle) :
    ∀ k, s.gHeap i = some k → Heap.HeapInv (s.heap k).lists := by
  intro k hg
  have hst := hok.lanes.stands hg
  rw [hidle] at hst
  exact hst.2.2

theorem memopAllocRaw (h : Accounted s) (hok : PoolOk s) (hidle : s.pcs i = .idle)
    {size : BitVec 64} {heap : Option ℕ} (hs : memopAllocRaw s i size heap none = some t) :
    Accounted t := by
  obtain ⟨D, hD⟩ := hok.stored
  apply h.called (OutsideEnd.memopAllocRaw hs).others.pcs hidle
  · exact .memopAllocRaw hD.created (heapInv_of_idle hok hidle) hs
  · exact fun _ hp => hp

theorem memopReallocRaw (h : Accounted s) (hok : PoolOk s) (hidle : s.pcs i = .idle)
    (hp : p ∈ s.live) {size : BitVec 64} {heap : Option ℕ}
    (hs : memopReallocRaw s i p size heap now = some t) : Accounted t := by
  have hpcs := (OutsideEnd.memopReallocRaw hs).others.pcs
  unfold MemoryPool.memopReallocRaw at hs
  split_ifs at hs
  · obtain rfl := Option.some.inj hs
    exact h.freedLive hok hidle hp now
  · obtain rfl := Option.some.inj hs
    exact h.same hpcs (congrArg PoolPc.blocks hidle) rfl fun _ _ hc => ⟨hc, id⟩
  · obtain ⟨D, hD⟩ := hok.stored
    have hi := heapInv_of_idle hok hidle
    have hheld := Holding.memopAllocRaw (s := { s with live := s.live.erase p }) hD.created hi hs
    have hfrom : Holding s t i ((some p).toList ++ s.live.erase p) := ⟨hheld.keeps, hheld.spans⟩
    apply h.called hpcs hidle hfrom
    intro q hq
    by_cases hqp : q = p
    · rw [hqp]
      exact List.mem_append_left _ List.mem_cons_self
    · exact List.mem_append_right _ ((List.mem_erase_of_ne hqp).mpr hq)

theorem step (h : Accounted s) (hok : PoolOk s) {l : PoolLabel ι} (hs : poolStep s l = some t) :
    Accounted t := by
  cases l with
  | createdThread i heap =>
    simp only [poolStep] at hs
    split_ifs at hs with hpc
    obtain ⟨⟨u, r⟩, hget, rfl⟩ := Option.map_eq_some_iff.mp hs
    obtain ⟨D, hD⟩ := hok.stored
    obtain ⟨hlive, hspans, -⟩ := Holding.getHeap_heap hD.created (heapInv_of_idle hok hpc) hget
    exact h.same (OutsideEnd.getHeap hget).others.pcs (congrArg PoolPc.blocks hpc) hlive hspans
  | endedThread i =>
    simp only [poolStep] at hs
    split_ifs at hs with hpc
    split at hs
    · rw [← Option.some.inj hs]
      exact h
    · rename_i k hg
      rw [← Option.some.inj hs]
      have hstart : SpansKept s { s with chunks := s.chunks.setPc i .ending } :=
        fun _ _ hc => ⟨hc, id⟩
      refine h.same (i := i) ?_ (congrArg PoolPc.blocks hpc) ?_ ?_
      · exact fun j hj => Function.update_of_ne hj ..
      · rfl
      · apply kept_setLists hstart
        rfl
  | alloc i size heap =>
    simp only [poolStep] at hs
    split_ifs at hs with hpc
    exact h.memopAllocRaw hok hpc hs
  | free i ptr now =>
    simp only [poolStep] at hs
    split_ifs at hs with hpc
    cases ptr with
    | none =>
      rw [← Option.some.inj hs]
      exact h
    | some p =>
      dsimp only at hs
      split_ifs at hs with hp
      obtain rfl := Option.some.inj hs
      exact h.freedLive hok hpc hp now
  | realloc i ptr size heap now =>
    simp only [poolStep] at hs
    split_ifs at hs with hpc
    cases ptr with
    | none => exact h.memopAllocRaw hok hpc hs
    | some p =>
      dsimp only at hs
      split_ifs at hs with hp
      exact h.memopReallocRaw hok hpc hp hs
  | step i os now =>
    simp only [poolStep] at hs
    split at hs
    · cases hs
    · rename_i k hg
      exact h.callStep hok hg hs
  | purge now =>
    rw [← Option.some.inj hs]
    exact h

theorem callsStep (h : Accounted s) (hok : PoolOk s) {l : PoolCall ι}
    (hs : poolCallStep s l = some t) : Accounted t := by
  cases l with
  | calloc i count size heap =>
    simp only [poolCallStep] at hs
    split_ifs at hs with hpc
    unfold memopCallocRaw at hs
    split_ifs at hs
    · have hzero : MemoryPool.memopAllocRaw s i 0 heap none = some t := hs
      exact h.memopAllocRaw hok hpc hzero
    · exact h.memopAllocRaw hok hpc hs
  | pool l => exact h.step hok hs

end Accounted

end

end Xplatbase.MemoryPool
