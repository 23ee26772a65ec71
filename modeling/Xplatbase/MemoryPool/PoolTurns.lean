import Xplatbase.MemoryPool.Realloc

/-! What each step of the pool does to the blocks whose bytes matter to a caller, while all threads
move: it gives one, frees one, puts one in the place of another, or leaves them as they are. -/
namespace Xplatbase.MemoryPool
open Xplatbase.Lib Xplatbase.Memory

variable {ι : Type*}

def PoolPc.lent : PoolPc → Option Ptr
  | .refill old => old
  | .large _ old => old
  | .release old _ => some old
  | _ => none

/-- A caller holds `p`, or has handed it to a call that is to replace it. -/
def PoolState.Kept (s : PoolState ι) (p : Ptr) : Prop :=
  p ∈ s.live ∨ ∃ i, (s.pcs i).lent = some p

section
variable {s t u : PoolState ι} {i j : ι} {k : ℕ} {old : Option Ptr} {size : BitVec 64} {p : Ptr}

/-! ### Places -/

theorem classId_spanTakeRemote (h : Heap.MemHeap) (a c : ℕ) :
    ((Heap.spanTakeRemote h a).head c).classId = (h.head c).classId := by
  by_cases hc : c = a
  · rw [hc, Heap.spanTakeRemote_self]
  · exact congrArg Heap.SpanHead.classId (Heap.MemHeap.setHead_of_ne _ _ hc)

variable [DecidableEq ι]

/-- The end of a thread changes no header and no class. -/
theorem placeKept_endStep {now : BitVec 64} {pc : PoolPc} (hs : endStep s i k now pc = some t)
    (c : ℕ) : PlaceKept s t c := by
  have hset {u : PoolState ι} {lists : Heap.MemHeap} {pc : PoolPc} (hu : PlaceKept s u c)
      (hclass : (lists.head c).classId = ((u.heap k).lists.head c).classId) :
      PlaceKept s ((u.setLists k lists).setPc i pc) c := by
    have hlists := hu.trans (PlaceKept.setLists c hclass)
    exact ⟨hlists.header, hlists.classId⟩
  have hchunks (chunks : ChunkState ι) : PlaceKept s { s with chunks := chunks } c :=
    ⟨rfl, fun _ _ => rfl⟩
  have hdrain (a : ℕ) := classId_spanTakeRemote (s.heap k).lists a c
  unfold MemoryPool.endStep at hs
  split at hs
  · obtain rfl := Option.some.inj hs
    unfold endClassStep
    dsimp only
    split_ifs
    · apply hset (hchunks _)
      exact hdrain _
    · apply hset (.refl ..)
      exact hdrain _
  · obtain rfl := Option.some.inj hs
    split_ifs
    · apply hset
      · apply PlaceKept.setLists
        rfl
      · rfl
    · apply hset
      · apply PlaceKept.setLists
        rfl
      · rfl
  · obtain rfl := Option.some.inj hs
    unfold endFullStep
    dsimp only
    split_ifs
    · apply hset (hchunks _)
      exact hdrain _
    · apply hset (.refl ..)
      exact hdrain _
    · apply hset (.refl ..)
      exact hdrain _
  · obtain ⟨chunks, -, rfl⟩ := Option.map_eq_some_iff.mp hs
    apply hset (hchunks _)
    rfl
  · obtain ⟨chunks, -, rfl⟩ := Option.map_eq_some_iff.mp hs
    dsimp only
    split_ifs
    · have hactive : SameStorage { s with chunks := chunks } ({ s with chunks := chunks }.setHeap k
          { s.heap k with active := false }) := .setHeap _ k rfl
      have hkept := PlaceKept.of_same hactive c
      exact ⟨hkept.header, hkept.classId⟩
    · exact hchunks chunks
  · cases hs

end

section
variable {s t u : PoolState ι} {i j : ι} {k : ℕ} {old ptr : Option Ptr} {size : BitVec 64} {p : Ptr}

/-! ### What is under way -/

def PoolPc.allocating : PoolPc → Bool
  | .refill _ | .large _ _ | .release _ _ => true
  | _ => false

/-- If the call of thread `i` allocates, it is for `size` bytes, and the block that it has got is one
for that size. -/
inductive Asks (s : PoolState ι) (i : ι) (size : BitVec 64) : Prop
  | no (hpc : (s.pcs i).allocating = false)
  | awaits (old : Option Ptr) (hat : Awaiting s i size old)
  | holds (p new : Ptr) (hpc : s.pcs i = .release p new)
      (hroom : ∀ n, RoomFor size n → n ≤ s.usable new)

/-- The block that a reallocation has got is one for its size. -/
theorem Asks.room {new : Ptr} (h : Asks s i size) (hpc : s.pcs i = .release p new) :
    ∀ n, RoomFor size n → n ≤ s.usable new := by
  cases h with
  | no hno =>
    rw [hpc] at hno
    cases hno
  | awaits old hat =>
    cases hat with
    | large hpc' _ =>
      rw [hpc] at hpc'
      cases hpc'
    | refill k c hpc' _ _ _ =>
      rw [hpc] at hpc'
      cases hpc'
  | holds p' new' hpc' hroom =>
    obtain ⟨-, rfl⟩ := PoolPc.release.inj (hpc.symm.trans hpc')
    exact hroom

theorem Asks.other (h : Asks s j size) (hlanes : Lanes s) (hothers : OthersStand s t i)
    (hj : j ≠ i) (hplaces : PlacesKept s t) : Asks t j size := by
  have hpcs := hothers.pcs j hj
  cases h with
  | no hpc => exact .no (by rw [hpcs, hpc])
  | awaits old hat =>
    refine .awaits old ?_
    cases hat with
    | large hpc hclass => exact .large (hpcs.trans hpc) hclass
    | refill k c hpc hg hclass hat =>
      refine .refill k c (hpcs.trans hpc) ((hothers.gHeap j hj).trans hg) hclass ?_
      rw [hothers.place hlanes hj hg]
      exact hat
  | holds p new hpc hroom =>
    have hnew : new ∈ s.holds (some j) := holds_release hpc ▸ List.mem_cons_self
    refine .holds p new (hpcs.trans hpc) ?_
    rw [(hplaces _ new hnew).usable]
    exact hroom

/-- What a step of the pool, by a thread if it has one, does to the blocks of the callers; `ptr` is
the block that the call is given, if the step is its first. -/
inductive PoolTurn (s t : PoolState ι) (thread : Option ι) (size : BitVec 64) (ptr : Option Ptr) :
    Prop
  | quiet (hkept : ∀ q, t.Kept q ↔ s.Kept q)
      (hcalls : t.calls = s.calls ∨ t.calls = .failed :: s.calls)
  | given (i : ι) (new : Ptr) (hi : thread = some i) (hlive : t.live = new :: s.live)
      (hcalls : t.calls = .allocated :: s.calls) (hroom : ∀ n, RoomFor size n → n ≤ t.usable new)
      (hnew : ¬ s.Kept new)
      (hkept : ∀ q, t.Kept q ↔ q = new ∨ s.Kept q)
  | freed (p : Ptr) (hptr : ptr = some p) (hp : p ∈ s.live) (hcalls : t.calls = .freed :: s.calls)
      (hkept : ∀ q, t.Kept q ↔ s.Kept q ∧ q ≠ p)
  | moved (i : ι) (p new : Ptr) (hi : thread = some i) (hpc : s.pcs i = .release p new)
      (hcalls : t.calls = .moved :: s.calls) (hroom : ∀ n, RoomFor size n → n ≤ s.usable new)
      (hnew : ¬ s.Kept new) (hkept : ∀ q, t.Kept q ↔ q = new ∨ s.Kept q ∧ q ≠ p)
  | inPlace (i : ι) (p : Ptr) (hi : thread = some i) (hptr : ptr = some p) (hp : p ∈ s.live)
      (hcalls : t.calls = .inPlace :: s.calls) (hsize : size.toNat ≤ s.usable p)
      (hkept : ∀ q, t.Kept q ↔ s.Kept q)

/-- A step of thread `i`, in a call for `size` bytes if the call allocates. -/
structure CallTurn (s t : PoolState ι) (i : ι) (size : BitVec 64) (ptr : Option Ptr) : Prop where
  turn : PoolTurn s t (some i) size ptr
  places : PlacesKept s t
  others : OthersStand s t i
  asks : Asks t i size
  /-- A block that is to be replaced was so before, or the call is given it. -/
  lent : ∀ q, (t.pcs i).lent = some q → (s.pcs i).lent = some q ∨ ptr = some q

theorem PoolPc.mem_blocks {pc : PoolPc} {q : Ptr} (hq : pc.lent = some q) : q ∈ pc.blocks := by
  cases pc with
  | refill old => exact Option.mem_toList.mpr hq
  | large size old => exact Option.mem_toList.mpr hq
  | release old new =>
    obtain rfl := Option.some.inj hq
    exact List.mem_cons_of_mem new List.mem_cons_self
  | _ => cases hq

theorem lent_held {q : Ptr} (hq : (s.pcs i).lent = some q) : q ∈ s.holds (some i) :=
  PoolPc.mem_blocks hq

theorem PoolState.Kept.held {q : Ptr} (h : s.Kept q) : ∃ r, q ∈ s.holds r := by
  rcases h with hq | ⟨j, hj⟩
  · exact ⟨none, hq⟩
  · exact ⟨some j, lent_held hj⟩

/-- The blocks of the callers, but for those in the calls of the other threads. -/
def PoolState.Near (s : PoolState ι) (i : ι) (q : Ptr) : Prop :=
  q ∈ s.live ∨ (s.pcs i).lent = some q

/-- The blocks that the calls of the other threads are to replace. -/
def PoolState.Far (s : PoolState ι) (i : ι) (q : Ptr) : Prop :=
  ∃ j, j ≠ i ∧ (s.pcs j).lent = some q

theorem kept_iff (s : PoolState ι) (i : ι) (q : Ptr) : s.Kept q ↔ s.Near i q ∨ s.Far i q := by
  unfold PoolState.Kept PoolState.Near PoolState.Far
  constructor
  · rintro (hq | ⟨j, hj⟩)
    · exact .inl (.inl hq)
    · rcases eq_or_ne j i with rfl | hji
      · exact .inl (.inr hj)
      · exact .inr ⟨j, hji, hj⟩
  · rintro ((hq | hq) | ⟨j, -, hj⟩)
    · exact .inl hq
    · exact .inr ⟨i, hq⟩
    · exact .inr ⟨j, hj⟩

theorem OthersStand.far (h : OthersStand s t i) (q : Ptr) : t.Far i q ↔ s.Far i q := by
  unfold PoolState.Far
  constructor
  · rintro ⟨j, hj, hq⟩
    exact ⟨j, hj, h.pcs j hj ▸ hq⟩
  · rintro ⟨j, hj, hq⟩
    refine ⟨j, hj, ?_⟩
    rw [h.pcs j hj]
    exact hq

theorem PoolOk.apart (h : PoolOk s) {q : Ptr} (hq : q ∈ s.live) (j : ι) :
    q ∉ s.holds (some j) := by
  obtain ⟨D, hD⟩ := h.stored
  intro hj
  exact Option.some_ne_none j (hD.shelved.once (some j) none q hj hq)

theorem PoolOk.not_far (h : PoolOk s) {q : Ptr} (hq : q ∈ s.live ∨ q ∈ s.holds (some i)) :
    ¬ s.Far i q := by
  rintro ⟨j, hj, hlent⟩
  have hheld := lent_held hlent
  rcases hq with hq | hq
  · exact h.apart hq j hheld
  · obtain ⟨D, hD⟩ := h.stored
    exact hj (Option.some.inj (hD.shelved.once (some j) (some i) q hheld hq))

theorem PoolOk.nodup_live (h : PoolOk s) : s.live.Nodup := by
  obtain ⟨D, hD⟩ := h.stored
  exact hD.shelved.nodup none

/-- The new block of a reallocation is not yet a caller's. -/
theorem PoolOk.new_not_kept (h : PoolOk s) {new : Ptr} (hpc : s.pcs i = .release p new) :
    ¬ s.Kept new := by
  have hhands := holds_release hpc
  have hnew : new ∈ s.holds (some i) := hhands ▸ List.mem_cons_self
  obtain ⟨D, hD⟩ := h.stored
  have hnodup := hD.shelved.nodup (some i)
  rw [hhands] at hnodup
  rw [kept_iff s i]
  rintro ((hq | hq) | hq)
  · exact h.apart hq i hnew
  · rw [hpc] at hq
    obtain rfl := Option.some.inj hq
    exact (List.nodup_cons.mp hnodup).1 List.mem_cons_self
  · exact h.not_far (.inr hnew) hq

theorem kept_same (h : OthersStand s t i) (hnear : ∀ q, t.Near i q ↔ s.Near i q) (q : Ptr) :
    t.Kept q ↔ s.Kept q := by
  rw [kept_iff t i, kept_iff s i, hnear, h.far]

theorem near_of_eq (hlive : t.live = s.live) (hlent : (t.pcs i).lent = (s.pcs i).lent) (q : Ptr) :
    t.Near i q ↔ s.Near i q := by
  unfold PoolState.Near
  rw [hlive, hlent]

theorem CallTurn.still (hlive : t.live = s.live) (hcalls : t.calls = s.calls)
    (hlent : (t.pcs i).lent = (s.pcs i).lent) (hno : (t.pcs i).allocating = false)
    (hplaces : PlacesKept s t) (hothers : OthersStand s t i) : CallTurn s t i size ptr :=
  ⟨.quiet (kept_same hothers (near_of_eq hlive hlent)) (.inl hcalls), hplaces, hothers, .no hno,
    fun _ hq => .inl (hlent ▸ hq)⟩

/-! ### Allocations -/

theorem Awaiting.lent (h : Awaiting t i size old) : (t.pcs i).lent = old := by
  cases h with
  | large hpc _ =>
    rw [hpc]
    rfl
  | refill k c hpc _ _ _ =>
    rw [hpc]
    rfl

/-- A step of an allocation, from a state `u` in which the call has the block to be replaced. -/
theorem AllocOutcome.turn (h : AllocOutcome u t i size old) (hcalls : u.calls = s.calls)
    (hnear : ∀ q, s.Near i q ↔ q ∈ u.live ∨ old = some q) (hlive : old = none → u.live = s.live)
    (hold : ∀ q, old = some q → (s.pcs i).lent = some q ∨ ptr = some q) (hok : PoolOk t)
    (hplaces : PlacesKept s t) (hothers : OthersStand s t i) : CallTurn s t i size ptr := by
  have hheld (hl : t.live = u.live) (hlent : (t.pcs i).lent = old) (q : Ptr) :
      t.Near i q ↔ s.Near i q := by
    rw [hnear]
    unfold PoolState.Near
    rw [hl, hlent]
  have hidle (hpc : t.pcs i = .idle) : (t.pcs i).lent = none ∧ (t.pcs i).allocating = false := by
    rw [hpc]
    exact ⟨rfl, rfl⟩
  have hnone (hlent : (t.pcs i).lent = none) (q : Ptr) (hq : (t.pcs i).lent = some q) :
      (s.pcs i).lent = some q ∨ ptr = some q := by
    rw [hlent] at hq
    cases hq
  cases h with
  | awaits hat hl hc =>
    exact ⟨.quiet (kept_same hothers (hheld hl hat.lent)) (.inl (hc.trans hcalls)), hplaces,
      hothers, .awaits old hat, fun q hq => hold q (hat.lent.symm.trans hq)⟩
  | failed hpc hl hc =>
    obtain ⟨hlent, hno⟩ := hidle hpc
    have hsame (q : Ptr) : t.Near i q ↔ s.Near i q := by
      rw [hnear]
      unfold PoolState.Near
      rw [hl, hlent, List.mem_append, Option.mem_toList]
      simp only [reduceCtorEq, or_false]
      exact Or.comm
    exact ⟨.quiet (kept_same hothers hsame) (.inr (hcalls ▸ hc)), hplaces, hothers, .no hno,
      hnone hlent⟩
  | given new hpc hl hc hroom =>
    obtain ⟨hlent, hno⟩ := hidle hpc
    rw [hlive rfl] at hl hnear
    have hnewLive : new ∈ t.live := hl ▸ List.mem_cons_self
    have hnodup := hok.nodup_live
    rw [hl] at hnodup
    refine ⟨.given i new rfl hl (hcalls ▸ hc) hroom ?_ ?_, hplaces, hothers, .no hno, hnone hlent⟩
    · rw [kept_iff s i, hnear, ← hothers.far]
      rintro ((hq | hq) | hq)
      · exact (List.nodup_cons.mp hnodup).1 hq
      · cases hq
      · exact hok.not_far (.inl hnewLive) hq
    · intro q
      rw [kept_iff t i, kept_iff s i, hnear, hothers.far]
      unfold PoolState.Near
      rw [hl, hlent, List.mem_cons]
      simp only [reduceCtorEq, or_false, or_assoc]
  | got new hpc hl hc hroom =>
    have hlent := congrArg PoolPc.lent hpc
    exact ⟨.quiet (kept_same hothers (hheld hl hlent)) (.inl (hc.trans hcalls)), hplaces,
      hothers, .holds _ new hpc hroom, fun q hq => hold q (hlent.symm.trans hq)⟩

end

/-! ### The steps -/

section
variable [DecidableEq ι] {s t u : PoolState ι} {i j : ι} {k : ℕ} {size : BitVec 64} {p : Ptr}
  {ptr : Option Ptr} {now : BitVec 64}

/-- `get_heap` alone. -/
theorem PoolOk.getHeap_turn (h : PoolOk s) (hidle : s.pcs i = .idle) {heap r : Option ℕ}
    (hs : getHeap s i heap = some (t, r)) : CallTurn s t i size ptr := by
  obtain ⟨D, hD⟩ := h.stored
  obtain ⟨hlive, hcalls, hpcs⟩ : t.live = s.live ∧ t.calls = s.calls ∧ t.pcs = s.pcs := by
    rcases getHeap_cases hs with ⟨rfl, -⟩ | ⟨k, -, rfl, -⟩
    · exact ⟨rfl, rfl, rfl⟩
    · exact ⟨rfl, rfl, rfl⟩
  apply CallTurn.still hlive hcalls
  · rw [hpcs]
  · rw [hpcs, hidle]
    rfl
  · exact fun r q hq => hD.place_getHeap (hD.shelved.mem hq) hs
  · exact (OutsideEnd.getHeap hs).others

/-- `memop_alloc_raw` begins. -/
theorem PoolOk.alloc_turn (h : PoolOk s) (hidle : s.pcs i = .idle) {heap : Option ℕ}
    (hs : MemoryPool.memopAllocRaw s i size heap none = some t) (hok : PoolOk t) :
    CallTurn s t i size ptr := by
  obtain ⟨D, hmid, hrest⟩ := h.calling hidle
  have hmid' : MidCall s i (none : Option Ptr).toList D := hmid
  have hheld : s.inHand i [] = s.holds := by
    rw [← inHand_blocks s i, hidle]
    rfl
  obtain ⟨hout, hkept⟩ := hmid'.memopAllocRaw_outcome hrest hs
  apply hout.turn rfl _ (fun _ => rfl) (fun _ hq => by cases hq) hok _
    (OutsideEnd.memopAllocRaw hs).others
  · intro q
    unfold PoolState.Near
    rw [hidle]
    rfl
  · intro r q hq
    rw [← hheld] at hq
    exact hkept q (hmid.stored.shelved.mem hq)

/-- `memop_realloc_raw` begins with an allocation in the place of `p`. -/
theorem PoolOk.replace_turn (h : PoolOk s) (hidle : s.pcs i = .idle) (hp : p ∈ s.live)
    {heap : Option ℕ}
    (hs : MemoryPool.memopAllocRaw { s with live := s.live.erase p } i size heap (some p) = some t)
    (hok : PoolOk t) (hothers : OthersStand s t i) : CallTurn s t i size (some p) := by
  obtain ⟨hout, hkept⟩ := h.memopAllocRaw_outcome hidle hp hs
  refine hout.turn (s := s) rfl ?_ (fun hno => ?_) (fun _ hq => .inr hq) hok hkept hothers
  · intro q
    unfold PoolState.Near
    rw [hidle]
    have hperm := (List.perm_cons_erase hp).mem_iff (a := q)
    rw [List.mem_cons] at hperm
    rw [hperm, Option.some.injEq]
    simp only [PoolPc.lent, reduceCtorEq, or_false]
    rw [or_comm, eq_comm]
  · cases hno

theorem PoolOk.freed_turn (h : PoolOk s) (hidle : s.pcs i = .idle) (hp : p ∈ s.live)
    (ht : t = (memopFreeRaw { s with live := s.live.erase p } i p now).ret i .freed) :
    CallTurn s t i size (some p) := by
  obtain ⟨-, hlive, hcalls⟩ := memopFreeRaw_rest { s with live := s.live.erase p } i p now
  have hothers : OthersStand s t i := by
    rw [ht]
    exact (OutsideEnd.freed s i p now).others
  have hplaces : PlacesKept s t := by
    intro r q _
    have hfree := placeKept_memopFreeRaw { s with live := s.live.erase p } i p now q.span
    rw [ht]
    exact ⟨hfree.header, hfree.classId⟩
  have hlive' : t.live = s.live.erase p := by
    rw [ht]
    exact hlive
  have hpc : t.pcs i = .idle := by
    rw [ht]
    exact Function.update_self ..
  refine ⟨.freed p rfl hp ?_ ?_, hplaces, hothers, .no ?_, fun _ hq => ?_⟩
  · rw [ht]
    exact congrArg (CallEnd.freed :: ·) hcalls
  · intro q
    rw [kept_iff t i, kept_iff s i, hothers.far]
    unfold PoolState.Near
    rw [hlive', hpc, hidle, h.nodup_live.mem_erase_iff]
    have hfar : s.Far i q → q ≠ p := by
      rintro hq rfl
      exact h.not_far (.inl hp) hq
    simp only [PoolPc.lent, reduceCtorEq, or_false]
    constructor
    · rintro (⟨hne, hq⟩ | hq)
      · exact ⟨.inl hq, hne⟩
      · exact ⟨.inr hq, hfar hq⟩
    · rintro ⟨hq | hq, hne⟩
      · exact .inl ⟨hne, hq⟩
      · exact .inr hq
  · rw [hpc]
    rfl
  · rw [hpc] at hq
    cases hq

theorem PoolOk.inPlace_turn (h : PoolOk s) (hl : LargeWritten s) (hidle : s.pcs i = .idle)
    (hp : p ∈ s.live) (hkeep : keepsBlock s p size = true) :
    CallTurn s (s.ret i .inPlace) i size (some p) := by
  have hothers := (InCall.ret s i .inPlace).others
  have hpc : (s.ret i .inPlace).pcs i = .idle := Function.update_self ..
  have hlent : ((s.ret i .inPlace).pcs i).lent = (s.pcs i).lent := by rw [hpc, hidle]
  refine ⟨.inPlace i p rfl rfl hp rfl (h.keepsBlock_fits hl hp hkeep) ?_, ?_, hothers, .no ?_,
    fun _ hq => .inl (hlent ▸ hq)⟩
  · exact kept_same hothers (near_of_eq rfl hlent)
  · exact fun _ _ _ => ⟨rfl, fun _ _ => rfl⟩
  · rw [hpc]
    rfl

theorem PoolOk.moved_turn (h : PoolOk s) {new : Ptr} (hpc : s.pcs i = .release p new)
    (hroom : ∀ n, RoomFor size n → n ≤ s.usable new)
    (ht : t = { memopFreeRaw s i p now with
      live := new :: (memopFreeRaw s i p now).live }.ret i .moved) : CallTurn s t i size ptr := by
  obtain ⟨-, hlive, hcalls⟩ := memopFreeRaw_rest s i p now
  have hothers : OthersStand s t i := by
    rw [ht]
    exact ((InCall.memopFreeRaw s i p now).trans ((InCall.live ..).trans (.ret ..))).others
  have hplaces : PlacesKept s t := by
    intro r q _
    have hfree := placeKept_memopFreeRaw s i p now q.span
    rw [ht]
    exact ⟨hfree.header, hfree.classId⟩
  have hlive' : t.live = new :: s.live := by
    rw [ht]
    exact congrArg (new :: ·) hlive
  have hpc' : t.pcs i = .idle := by
    rw [ht]
    exact Function.update_self ..
  have hhands := holds_release hpc
  have hpHeld : p ∈ s.holds (some i) := hhands ▸ List.mem_cons_of_mem new List.mem_cons_self
  have hlent : (s.pcs i).lent = some p := by
    rw [hpc]
    rfl
  refine ⟨.moved i p new rfl hpc ?_ hroom (h.new_not_kept hpc) ?_, hplaces, hothers, .no ?_,
    fun _ hq => ?_⟩
  · rw [ht]
    exact congrArg (CallEnd.moved :: ·) hcalls
  · intro q
    rw [kept_iff t i, kept_iff s i, hothers.far]
    unfold PoolState.Near
    rw [hlive', hpc', hlent, List.mem_cons, Option.some.injEq]
    have hnear : q ∈ s.live → q ≠ p := by
      rintro hq rfl
      exact h.apart hq i hpHeld
    have hfar : s.Far i q → q ≠ p := by
      rintro hq rfl
      exact h.not_far (.inr hpHeld) hq
    simp only [PoolPc.lent, reduceCtorEq, or_false]
    constructor
    · rintro ((rfl | hq) | hq)
      · exact .inl rfl
      · exact .inr ⟨.inl (.inl hq), hnear hq⟩
      · exact .inr ⟨.inr hq, hfar hq⟩
    · rintro (rfl | ⟨(hq | rfl) | hq, hqp⟩)
      · exact .inl (.inl rfl)
      · exact .inl (.inr hq)
      · exact absurd rfl hqp
      · exact .inr hq
  · rw [hpc']
    rfl
  · rw [hpc'] at hq
    cases hq

/-- The end of a thread touches neither the callers' blocks nor the calls before it. -/
theorem endStep_rest {pc : PoolPc} (hpc : s.pcs i = pc) (hs : endStep s i k now pc = some t) :
    t.live = s.live ∧ t.calls = s.calls ∧
      ∃ pc', t.pcs i = pc' ∧ pc'.lent = none ∧ pc'.allocating = false := by
  unfold MemoryPool.endStep at hs
  split at hs
  · obtain rfl := Option.some.inj hs
    unfold endClassStep
    dsimp only
    split_ifs
    · exact ⟨rfl, rfl, _, Function.update_self .., rfl, rfl⟩
    · exact ⟨rfl, rfl, _, Function.update_self .., rfl, rfl⟩
  · obtain rfl := Option.some.inj hs
    split_ifs
    · exact ⟨rfl, rfl, _, Function.update_self .., rfl, rfl⟩
    · exact ⟨rfl, rfl, _, Function.update_self .., rfl, rfl⟩
  · obtain rfl := Option.some.inj hs
    unfold endFullStep
    dsimp only
    split_ifs
    · exact ⟨rfl, rfl, _, Function.update_self .., rfl, rfl⟩
    · exact ⟨rfl, rfl, _, Function.update_self .., rfl, rfl⟩
    · exact ⟨rfl, rfl, _, Function.update_self .., rfl, rfl⟩
  · obtain ⟨chunks, -, rfl⟩ := Option.map_eq_some_iff.mp hs
    exact ⟨rfl, rfl, _, Function.update_self .., rfl, rfl⟩
  · obtain ⟨chunks, -, rfl⟩ := Option.map_eq_some_iff.mp hs
    dsimp only
    split_ifs
    · exact ⟨rfl, rfl, _, Function.update_self .., rfl, rfl⟩
    · exact ⟨rfl, rfl, _, hpc, rfl, rfl⟩
  · cases hs

theorem endStep_turn (hg : s.gHeap i = some k) {pc : PoolPc} (hpc : s.pcs i = pc)
    (hno : pc.lent = none) (hs : MemoryPool.endStep s i k now pc = some t) :
    CallTurn s t i size ptr := by
  obtain ⟨hlive, hcalls, pc', hpc', hlent, hno'⟩ := endStep_rest hpc hs
  apply CallTurn.still hlive hcalls
  · rw [hpc', hpc, hlent, hno]
  · rw [hpc', hno']
  · exact fun r q _ => placeKept_endStep hs q.span
  · exact .endStep hg hs

theorem PoolOk.callStep_turn (h : PoolOk s) (hasks : Asks s i size) (hg : s.gHeap i = some k)
    {os : Option ℕ} (hs : MemoryPool.callStep s i k os now = some t) (hok : PoolOk t) :
    CallTurn s t i size ptr := by
  have hnear {old : Option Ptr} (hlent : (s.pcs i).lent = old) (q : Ptr) :
      s.Near i q ↔ q ∈ s.live ∨ old = some q := by
    unfold PoolState.Near
    rw [hlent]
  unfold MemoryPool.callStep at hs
  cases hpc : s.pcs i with
  | idle =>
    rw [hpc] at hs
    cases hs
  | refill old =>
    rw [hpc] at hs
    cases hasks with
    | no hno =>
      rw [hpc] at hno
      cases hno
    | holds p new hpc' _ =>
      rw [hpc] at hpc'
      cases hpc'
    | awaits old' hat =>
      cases hat with
      | large hpc' _ =>
        rw [hpc] at hpc'
        cases hpc'
      | refill k' c hpc' hg' hclass hat =>
        obtain rfl := Option.some.inj (hg'.symm.trans hg)
        obtain ⟨hout, hplaces⟩ := h.refillStep_outcome hg hpc hclass hat hs
        exact hout.turn rfl (hnear (congrArg PoolPc.lent hpc)) (fun _ => rfl)
          (fun _ hq => .inl ((congrArg PoolPc.lent hpc).trans hq)) hok hplaces
          (InCall.refillStep hg hs).others
  | large size' old =>
    rw [hpc] at hs
    cases hasks with
    | no hno =>
      rw [hpc] at hno
      cases hno
    | holds p new hpc' _ =>
      rw [hpc] at hpc'
      cases hpc'
    | awaits old' hat =>
      cases hat with
      | refill k' c hpc' _ _ _ =>
        rw [hpc] at hpc'
        cases hpc'
      | large hpc' hclass =>
        obtain ⟨rfl, -⟩ := PoolPc.large.inj (hpc.symm.trans hpc')
        obtain ⟨hout, hplaces⟩ := h.largeStep_outcome hpc hclass hs
        exact hout.turn rfl (hnear (congrArg PoolPc.lent hpc)) (fun _ => rfl)
          (fun _ hq => .inl ((congrArg PoolPc.lent hpc).trans hq)) hok hplaces
          (InCall.largeStep hg hs).others
  | release p new =>
    rw [hpc] at hs
    exact h.moved_turn hpc (hasks.room hpc) (Option.some.inj hs).symm
  | endClass c span kept =>
    rw [hpc] at hs
    exact endStep_turn hg hpc rfl hs
  | endFull span kept keptTail =>
    rw [hpc] at hs
    exact endStep_turn hg hpc rfl hs
  | endCache =>
    rw [hpc] at hs
    exact endStep_turn hg hpc rfl hs

/-- The sizes of a `memop_calloc_raw` overflow. -/
theorem refused_turn (hidle : s.pcs i = .idle) :
    CallTurn s (MemoryPool.allocFailed s i none) i size ptr := by
  have hothers := (InCall.allocFailed s i none).others
  have hpc : (MemoryPool.allocFailed s i none).pcs i = .idle := Function.update_self ..
  have hlent : ((MemoryPool.allocFailed s i none).pcs i).lent = (s.pcs i).lent := by
    rw [hpc, hidle]
  refine ⟨.quiet (kept_same hothers (near_of_eq rfl hlent)) (.inr rfl), ?_, hothers, .no ?_,
    fun _ hq => .inl (hlent ▸ hq)⟩
  · exact fun _ _ _ => .of_same (same_allocFailed ..) _
  · rw [hpc]
    rfl

/-- `memop_realloc_raw` begins. -/
theorem PoolOk.realloc_turn (h : PoolOk s) (hl : LargeWritten s) (hidle : s.pcs i = .idle)
    (hp : p ∈ s.live) {heap : Option ℕ}
    (hs : MemoryPool.memopReallocRaw s i p size heap now = some t) (hok : PoolOk t) :
    CallTurn s t i size (some p) := by
  have hothers := (OutsideEnd.memopReallocRaw hs).others
  unfold MemoryPool.memopReallocRaw at hs
  split_ifs at hs with hzero hkeep
  · exact h.freed_turn hidle hp (Option.some.inj hs).symm
  · obtain rfl := Option.some.inj hs
    exact h.inPlace_turn hl hidle hp hkeep
  · exact h.replace_turn hidle hp hs hok hothers

theorem ended_turn (hidle : s.pcs i = .idle) (hg : s.gHeap i = some k)
    (ht : t = endClassStart { s with chunks := s.chunks.setPc i .ending } i k 0) :
    CallTurn s t i size ptr := by
  have hpc : t.pcs i = .endClass 0 ((s.heap k).lists.spans 0) none := by
    rw [ht]
    exact Function.update_self ..
  apply CallTurn.still
  · rw [ht]
    rfl
  · rw [ht]
    rfl
  · rw [hpc, hidle]
    rfl
  · rw [hpc]
    rfl
  · intro r q _
    have hset : PlaceKept s (s.setLists k { (s.heap k).lists with
        spans := Function.update (s.heap k).lists.spans 0 none }) q.span := .setLists _ rfl
    rw [ht]
    exact ⟨hset.header, hset.classId⟩
  · rw [ht]
    refine .of_own hg ?_ (fun _ _ => rfl) rfl (.inl rfl) ?_
    · exact fun j hj => Function.update_of_ne hj ..
    · exact fun m hm => setLists_of_ne _ _ hm

end
end Xplatbase.MemoryPool
