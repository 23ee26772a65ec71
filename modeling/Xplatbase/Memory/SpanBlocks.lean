import Xplatbase.Memory.HeapInvariant

/-! The blocks of the spans of a heap: each one ever given waits on a list of its span or is held by
a caller, and what each step of the heap does to them. -/
namespace Xplatbase.Memory.Heap
open Xplatbase.Lib

def SpanHead.waiting (x : SpanHead) : List ℕ := x.localFree ++ x.remoteFree

def SpanHead.Parted (x : SpanHead) : Prop := (x.waiting ++ x.live).Perm (List.range x.bumpIdx)

structure Keeps (x y : SpanHead) : Prop where
  classId : y.classId = x.classId
  bumpIdx : y.bumpIdx = x.bumpIdx
  live : y.live = x.live
  waiting : y.waiting.Perm x.waiting

/-- Block `b` of a span is given, one that waits or the next one never given. -/
structure Gives (x : SpanHead) (b : ℕ) (y : SpanHead) : Prop where
  classId : y.classId = x.classId
  live : y.live = b :: x.live
  origin : (x.waiting.Perm (b :: y.waiting) ∧ y.bumpIdx = x.bumpIdx) ∨
    b = x.bumpIdx ∧ y.bumpIdx = x.bumpIdx + 1 ∧ y.waiting.Perm x.waiting

/-- Block `b` of a span comes back. -/
structure Regains (x : SpanHead) (b : ℕ) (y : SpanHead) : Prop where
  classId : y.classId = x.classId
  bumpIdx : y.bumpIdx = x.bumpIdx
  live : y.live = x.live.erase b
  waiting : y.waiting.Perm (b :: x.waiting)

section
variable {x y z : SpanHead} {b : ℕ}

namespace SpanHead.Parted

theorem nodup (h : x.Parted) : (x.waiting ++ x.live).Nodup :=
  h.nodup_iff.mpr List.nodup_range

theorem lt_bumpIdx (h : x.Parted) (hb : b ∈ x.live) : b < x.bumpIdx :=
  List.mem_range.mp (h.subset (List.mem_append_right _ hb))

theorem keeps (h : x.Parted) (hk : Keeps x y) : y.Parted := by
  unfold SpanHead.Parted
  rw [hk.live, hk.bumpIdx]
  exact (hk.waiting.append_right _).trans h

theorem fresh (h : x.Parted) (hg : Gives x b y) : b ∉ x.live := by
  intro hb
  rcases hg.origin with ⟨hw, -⟩ | ⟨rfl, -, -⟩
  · have hmem : b ∈ x.waiting := hw.symm.subset List.mem_cons_self
    exact (List.nodup_append.mp h.nodup).2.2 b hmem b hb rfl
  · exact absurd (h.lt_bumpIdx hb) (Nat.lt_irrefl _)

theorem gives (h : x.Parted) (hg : Gives x b y) : y.Parted := by
  unfold SpanHead.Parted
  rw [hg.live]
  rcases hg.origin with ⟨hw, hbump⟩ | ⟨hb, hbump, hw⟩
  · rw [hbump]
    have hcons : (b :: y.waiting ++ x.live).Perm (x.waiting ++ x.live) :=
      hw.symm.append_right x.live
    exact (List.perm_middle.trans hcons).trans h
  · rw [hbump, List.range_succ, hb]
    have hsame : (y.waiting ++ x.live).Perm (List.range x.bumpIdx) :=
      (hw.append_right x.live).trans h
    exact List.perm_middle.trans ((hsame.cons _).trans (List.perm_append_singleton _ _).symm)

theorem regains (h : x.Parted) (hr : Regains x b y) (hb : b ∈ x.live) : y.Parted := by
  unfold SpanHead.Parted
  rw [hr.live, hr.bumpIdx]
  have hcons : (b :: x.waiting ++ x.live.erase b).Perm (x.waiting ++ x.live) :=
    List.perm_middle.symm.trans ((List.perm_cons_erase hb).symm.append_left x.waiting)
  exact ((hr.waiting.append_right _).trans hcons).trans h

end SpanHead.Parted

theorem Keeps.refl (x : SpanHead) : Keeps x x :=
  ⟨rfl, rfl, rfl, .refl _⟩

theorem Keeps.trans (h : Keeps x y) (h' : Keeps y z) : Keeps x z where
  classId := h'.classId.trans h.classId
  bumpIdx := h'.bumpIdx.trans h.bumpIdx
  live := h'.live.trans h.live
  waiting := h'.waiting.trans h.waiting

theorem Keeps.gives (h : Keeps x y) (hg : Gives y b z) : Gives x b z where
  classId := hg.classId.trans h.classId
  live := by rw [hg.live, h.live]
  origin := by
    rcases hg.origin with ⟨hw, hbump⟩ | ⟨hb, hbump, hw⟩
    · exact .inl ⟨h.waiting.symm.trans hw, hbump.trans h.bumpIdx⟩
    · exact .inr ⟨hb.trans h.bumpIdx, by rw [hbump, h.bumpIdx], hw.trans h.waiting⟩

/-- A drain moves blocks from one list of the span to the other. -/
theorem Keeps.drain (x : SpanHead) (used : BitVec 32) :
    Keeps x { x with
      localFree := x.remoteFree.reverse ++ x.localFree
      remoteFree := []
      used := used } where
  classId := rfl
  bumpIdx := rfl
  live := rfl
  waiting := by
    unfold SpanHead.waiting
    rw [List.append_nil]
    exact ((List.reverse_perm _).append_right _).trans List.perm_append_comm

theorem Gives.local {rest : List ℕ} (hb : x.localFree = b :: rest) (used : BitVec 32) :
    Gives x b { x with localFree := rest, used := used, live := b :: x.live } where
  classId := rfl
  live := rfl
  origin := by
    refine .inl ⟨?_, rfl⟩
    unfold SpanHead.waiting
    rw [hb]
    exact .refl _

theorem Gives.bump (x : SpanHead) (used : BitVec 32) :
    Gives x x.bumpIdx { x with
      bumpIdx := x.bumpIdx + 1
      used := used
      live := x.bumpIdx :: x.live } where
  classId := rfl
  live := rfl
  origin := .inr ⟨rfl, rfl, .refl _⟩

end

/-! ### Steps of an allocation -/

structure Works (h h' : MemHeap) : Prop where
  owned : h'.owned = h.owned
  heads : ∀ d, Keeps (h.head d) (h'.head d)

/-- How a step of an allocation over the spans of the heap ends: in `memop_refill`, without a block,
or with one. -/
inductive AllocTurn (h h' : MemHeap) : Prop
  | waits (hpc : h'.pc ≠ .idle) (hworks : Works h h')
  | refused (hpc : h'.pc = .idle) (hgiven : ∃ g, h'.given = none :: g) (hworks : Works h h')
  | gives (a b : ℕ) (hpc : h'.pc = .idle) (hgiven : ∃ g, h'.given = some (a, b) :: g)
      (howned : h'.owned = h.owned) (ha : a ∈ h.owned) (hat : Gives (h.head a) b (h'.head a))
      (hrest : ∀ d ≠ a, Keeps (h.head d) (h'.head d))

section
variable {h h' h₀ : MemHeap} {a b c : ℕ}

theorem Works.moveTo (h : MemHeap) (pc : HeapPc) : Works h { h with pc := pc } :=
  ⟨rfl, fun d => .refl (h.head d)⟩

theorem Works.trans (hw : Works h₀ h) (hw' : Works h h') : Works h₀ h' :=
  ⟨hw'.owned.trans hw.owned, fun d => (hw.heads d).trans (hw'.heads d)⟩

theorem Works.of_update {x : SpanHead} (howned : h'.owned = h.owned)
    (hhead : h'.head = Function.update h.head a x) (hx : Keeps (h.head a) x) : Works h h' := by
  constructor
  · exact howned
  · intro d
    rw [hhead]
    by_cases hd : d = a
    · rw [hd, Function.update_self]
      exact hx
    · rw [Function.update_of_ne hd]
      exact .refl _

theorem AllocTurn.of_works (hw : Works h₀ h) (ht : AllocTurn h h') : AllocTurn h₀ h' := by
  cases ht with
  | waits hpc hworks => exact .waits hpc (hw.trans hworks)
  | refused hpc hgiven hworks => exact .refused hpc hgiven (hw.trans hworks)
  | gives a b hpc hgiven howned ha hat hrest =>
    apply AllocTurn.gives a b hpc hgiven (howned.trans hw.owned)
    · rw [← hw.owned]
      exact ha
    · exact (hw.heads a).gives hat
    · exact fun d hd => (hw.heads d).trans (hrest d hd)

theorem works_retire (h : MemHeap) (c a : ℕ) :
    Works h (heapFullPushTail (heapListUnlink h c a) a) :=
  .of_update rfl rfl ⟨rfl, rfl, rfl, .refl _⟩

theorem works_rotate (h : MemHeap) (a : ℕ) : Works h (heapFullPushTail (heapFullUnlink h a) a) := by
  have hunlink : Works h (heapFullUnlink h a) := .of_update rfl rfl ⟨rfl, rfl, rfl, .refl _⟩
  exact hunlink.trans (.of_update rfl rfl ⟨rfl, rfl, rfl, .refl _⟩)

theorem works_reactivate (h : MemHeap) (c a : ℕ) :
    Works h (heapListInsertHead (heapFullUnlink h a) c a) :=
  .of_update rfl rfl ⟨rfl, rfl, rfl, .refl _⟩

theorem works_spanTakeRemote (h : MemHeap) (a : ℕ) : Works h (spanTakeRemote h a) :=
  .of_update rfl rfl (.drain (h.head a) _)

/-- From label `got` on, whether or not the span moves to the front of its class. -/
theorem refillGot_spec (h : MemHeap) (c a b : ℕ) :
    (refillGot h c a b).pc = .idle ∧ (refillGot h c a b).given = some (a, b) :: h.given ∧
      (refillGot h c a b).owned = h.owned ∧
      (refillGot h c a b).head = Function.update h.head a
        { h.head a with used := (h.head a).used + 1, live := b :: (h.head a).live } := by
  unfold refillGot
  split_ifs
  · exact ⟨rfl, rfl, rfl, rfl⟩
  · exact ⟨rfl, rfl, rfl, rfl⟩

/-- After the header has lost block `b`, it is given. -/
theorem turn_refillGot {x : SpanHead} (ha : a ∈ h.owned)
    (hx : Gives (h.head a) b { x with used := x.used + 1, live := b :: x.live }) :
    AllocTurn h (refillGot (h.setHead a x) c a b) := by
  obtain ⟨hpc, hgiven, howned, hhead⟩ := refillGot_spec (h.setHead a x) c a b
  apply AllocTurn.gives (h := h) a b hpc ⟨_, hgiven⟩ howned ha
  · rw [hhead, Function.update_self, MemHeap.setHead_self]
    exact hx
  · intro d hd
    rw [hhead, Function.update_of_ne hd, MemHeap.setHead_of_ne h x hd]
    exact .refl _

theorem turn_refillLocal (ha : a ∈ h.owned) (hne : (h.head a).localFree ≠ []) :
    AllocTurn h (refillLocal h c a) := by
  obtain ⟨b, rest, hb⟩ := List.exists_cons_of_ne_nil hne
  unfold refillLocal
  simp only [hb]
  exact turn_refillGot ha (.local hb _)

theorem turn_refillProbe (h : MemHeap) (c k : ℕ) (start : Option ℕ) :
    AllocTurn h (refillProbe h c k start) := by
  rcases refillProbe_cases h c k start with hp | ⟨fs, -, hp⟩
  · rw [hp]
    exact .waits HeapPc.noConfusion (.moveTo h _)
  · rw [hp]
    exact .waits HeapPc.noConfusion (.moveTo h _)

theorem turn_refillFrom {o : Option ℕ} (ho : ∀ a, o = some a → a ∈ h.owned) :
    AllocTurn h (refillFrom h c o) := by
  cases o with
  | none => exact turn_refillProbe h c 0 none
  | some a =>
    have ha := ho a rfl
    simp only [refillFrom]
    split_ifs with hne hlt
    · exact turn_refillLocal ha hne
    · exact turn_refillGot ha (.bump (h.head a) _)
    · exact .waits HeapPc.noConfusion (.moveTo h _)

theorem HeapGood.turn_refillEmpty {ls : Option ℕ → List ℕ} (hg : HeapGood h ls)
    {site : RefillSite} (hpc : PcOk h (.drain c site a)) :
    AllocTurn h (Heap.refillEmpty h c a site) := by
  cases site with
  | classList =>
    obtain ⟨-, ha, hs⟩ := hpc
    have hretire := hg.retire ha hs
    unfold Heap.refillEmpty
    apply AllocTurn.of_works (works_retire h c a)
    apply turn_refillFrom
    intro d hd
    rw [← hg.lists.next_first ha] at hd
    exact (hretire.lists.mem_of_first hd).1
  | full k start =>
    unfold Heap.refillEmpty
    split_ifs
    · exact turn_refillProbe h c (k + 1) (some start)
    · exact .of_works (works_rotate h a) (turn_refillProbe _ c (k + 1) (some start))

theorem HeapGood.turn_refillDrained {ls : Option ℕ → List ℕ} (hg : HeapGood h ls)
    {site : RefillSite} (hpc : PcOk h (.take c site a)) :
    AllocTurn h (Heap.refillDrained (spanTakeRemote h a) c a site) := by
  apply AllocTurn.of_works (works_spanTakeRemote h a)
  cases site with
  | classList =>
    obtain ⟨-, ha, -, hr⟩ := hpc
    exact turn_refillLocal (hg.lists.mem_of_first ha).1 (spanTakeRemote_local hr)
  | full k start =>
    obtain ⟨-, ha, hr⟩ := hpc
    have howned : a ∈ h.owned := (hg.lists.mem_of_fullFirst ha).1
    unfold Heap.refillDrained
    apply AllocTurn.of_works (works_reactivate (spanTakeRemote h a) _ a)
    dsimp only
    split_ifs
    · apply turn_refillLocal
      · exact howned
      · have hlocal := spanTakeRemote_local (h := h) hr
        change ((Heap.reviveFull h a).head a).localFree ≠ []
        rw [reviveFull_self]
        exact hlocal
    · exact turn_refillProbe _ c (k + 1) (some start)

theorem refillCreate_spec (h : MemHeap) (c m : ℕ) :
    (refillCreate h c m).pc = .idle ∧ (refillCreate h c m).given = some (m, 0) :: h.given ∧
      (refillCreate h c m).owned = insert m h.owned ∧
      Gives (createdSpan c) 0 ((refillCreate h c m).head m) ∧
      ∀ d ≠ m, (refillCreate h c m).head d = h.head d := by
  let h₁ : MemHeap := { heapListInsertHead { h with
      head := Function.update h.head m (createdSpan c)
      next := Function.update h.next m none
      prev := Function.update h.prev m none
      owned := insert m h.owned } c m with spanAllocs := h.spanAllocs + 1 }
  have hcreate : refillCreate h c m =
      refillGot (h₁.setHead m { createdSpan c with bumpIdx := 1 }) c m 0 := rfl
  obtain ⟨hpc, hgiven, howned, hhead⟩ :=
    refillGot_spec (h₁.setHead m { createdSpan c with bumpIdx := 1 }) c m 0
  rw [hcreate]
  refine ⟨hpc, hgiven, howned, ?_, ?_⟩
  · rw [hhead, Function.update_self, MemHeap.setHead_self]
    exact .bump (createdSpan c) _
  · intro d hd
    have hsame : h₁.head d = h.head d := Function.update_of_ne hd ..
    rw [hhead, Function.update_of_ne hd, MemHeap.setHead_of_ne _ _ hd, hsame]

theorem HeapGood.turn_memopAllocRaw {ls : Option ℕ → List ℕ} (hg : HeapGood h ls) (c : ℕ) :
    AllocTurn h (Heap.memopAllocRaw h c) := by
  have hfrom : AllocTurn h (Heap.refillFrom h c (h.spans c)) := by
    apply turn_refillFrom
    intro a ha
    exact (hg.lists.mem_of_first ha).1
  unfold Heap.memopAllocRaw
  cases ha : h.spans c with
  | none =>
    rw [ha] at hfrom
    exact hfrom
  | some a =>
    rw [ha] at hfrom
    obtain ⟨hd, -⟩ := hg.lists.mem_of_first ha
    simp only
    split
    · rename_i b rest hb
      have hturn : AllocTurn h
          (refillGot (h.setHead a { h.head a with localFree := rest }) c a b) :=
        turn_refillGot hd (.local hb _)
      rw [refillGot_first (by exact ha)] at hturn
      exact hturn
    · split_ifs with hlt
      · have hturn : AllocTurn h (refillGot
            (h.setHead a { h.head a with bumpIdx := (h.head a).bumpIdx + 1 }) c a _) :=
          turn_refillGot hd (.bump (h.head a) _)
        rw [refillGot_first (by exact ha)] at hturn
        exact hturn
      · exact hfrom

/-- One step of the owner in `memop_refill`, short of a new span. -/
theorem HeapInv.turn (hi : HeapInv h) {chunk : Option ℕ}
    (hchunk : ∀ c, h.pc = .create c → chunk = none) (hs : memopRefill h chunk = some h') :
    AllocTurn h h' := by
  obtain ⟨⟨ls, hg⟩, hpc⟩ := hi
  unfold memopRefill at hs
  cases hat : h.pc with
  | idle => simp only [hat, reduceCtorEq] at hs
  | drain c site a =>
    rw [hat] at hpc
    simp only [hat, Option.some.injEq] at hs
    split_ifs at hs with hr
    · rw [← hs]
      exact hg.turn_refillEmpty hpc
    · rw [← hs]
      exact .waits HeapPc.noConfusion (.moveTo h _)
  | take c site a =>
    rw [hat] at hpc
    simp only [hat, Option.some.injEq] at hs
    rw [← hs]
    exact hg.turn_refillDrained hpc
  | create c =>
    simp only [hat, hchunk c hat, Option.some.injEq] at hs
    rw [← hs]
    exact .refused rfl ⟨_, rfl⟩ ⟨rfl, fun d => .refl (h.head d)⟩

/-! ### Frees -/

/-- A span with `used` zero is dead: no block of it is held or on the way back. -/
theorem SpanWf.dead {x : SpanHead} (hx : SpanWf x) (hused : x.used = 0) :
    x.remoteFree = [] ∧ x.live = [] := by
  have hcount := congrArg BitVec.toNat hx.used
  have hblocks := hx.blocks
  have hbump := hx.bump
  have hfits := (spanBlockCount_bounds hx.known).2
  rw [hx.counted] at hbump
  rw [hused, BitVec.toNat_ofNat, Nat.mod_eq_of_lt (by omega)] at hcount
  have hzero : 0 = x.remoteFree.length + x.live.length := hcount
  constructor
  · exact List.length_eq_zero_iff.mp (by omega)
  · exact List.length_eq_zero_iff.mp (by omega)

/-- A local free puts the block back, and a span that it releases has `used` zero. -/
theorem memopFreeRaw_spec (h : MemHeap) (a b : ℕ) :
    (∃ state, (memopFreeRaw h a b).head a = { h.head a with
      localFree := b :: (h.head a).localFree
      used := (h.head a).used - 1
      live := (h.head a).live.erase b
      state := state }) ∧
      (∀ d ≠ a, (memopFreeRaw h a b).head d = h.head d) ∧ (memopFreeRaw h a b).pc = h.pc ∧
      ((memopFreeRaw h a b).owned = h.owned ∨
        (memopFreeRaw h a b).owned = h.owned.erase a ∧ (h.head a).used - 1 = 0) := by
  unfold memopFreeRaw
  dsimp only
  split_ifs with hfull hempty
  · refine ⟨⟨.available, ?_⟩, ?_, rfl, .inl rfl⟩
    · simp only [heapListInsertHead, heapFullUnlink, MemHeap.setHead, Function.update_self]
    · intro d hd
      simp only [heapListInsertHead, heapFullUnlink, MemHeap.setHead, Function.update_of_ne hd]
  · refine ⟨⟨(h.head a).state, ?_⟩, ?_, rfl, .inr ⟨rfl, hempty.1⟩⟩
    · exact Function.update_self ..
    · intro d hd
      exact Function.update_of_ne hd ..
  · refine ⟨⟨(h.head a).state, ?_⟩, ?_, rfl, .inl rfl⟩
    · exact Function.update_self ..
    · intro d hd
      exact Function.update_of_ne hd ..

theorem remotePush_spec (h : MemHeap) (a b : ℕ) :
    Regains (h.head a) b ((remotePush h a b).head a) ∧
      ∀ d ≠ a, (remotePush h a b).head d = h.head d := by
  unfold remotePush
  constructor
  · rw [MemHeap.setHead_self]
    exact ⟨rfl, rfl, rfl, List.perm_middle⟩
  · intro d hd
    exact MemHeap.setHead_of_ne h _ hd

end
end Xplatbase.Memory.Heap
