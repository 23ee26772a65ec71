import Xplatbase.Memory.RefillSteps
import Xplatbase.MemoryPool.PoolOthers

/-! A call of the pool leaves every block that is held where it lies. -/
namespace Xplatbase.MemoryPool
open Xplatbase.Lib Xplatbase.Memory

variable {ι : Type*}

/-- What decides where the blocks of span `c` lie is as it was: its header, and its class. -/
structure PlaceKept (s s' : PoolState ι) (c : ℕ) : Prop where
  header : s'.header c = s.header c
  classId : ∀ k, s.header c = .small k →
    ((s'.heap k).lists.head c).classId = ((s.heap k).lists.head c).classId

/-- `memop_usable_size`: the stride of the class, or what the header of a LARGE block says. -/
def memopUsableSize (s : PoolState ι) (p : Ptr) : BitVec 64 :=
  match s.header p.span with
  | .small k => (classStride ((s.heap k).lists.head p.span).classId).setWidth 64
  | .large x => x.stride.setWidth 64

namespace PlaceKept

variable {s s' t : PoolState ι} {c k : ℕ} {p : Ptr}

theorem refl (s : PoolState ι) (c : ℕ) : PlaceKept s s c := ⟨rfl, fun _ _ => rfl⟩

theorem trans (h : PlaceKept s s' c) (h' : PlaceKept s' t c) : PlaceKept s t c where
  header := h'.header.trans h.header
  classId := fun k hk => (h'.classId k (h.header.trans hk)).trans (h.classId k hk)

theorem of_same (hs : SameStorage s s') (c : ℕ) : PlaceKept s s' c where
  header := congrFun hs.header c
  classId := fun k _ => by rw [hs.lists k]

theorem setLists {lists : Heap.MemHeap} (c : ℕ)
    (hclass : (lists.head c).classId = ((s.heap k).lists.head c).classId) :
    PlaceKept s (s.setLists k lists) c where
  header := rfl
  classId := by
    intro j _
    by_cases hj : j = k
    · rw [hj, setLists_self]
      exact hclass
    · rw [setLists_of_ne s lists hj]

theorem setHeader {m : ℕ} (o : SpanOwner) (hc : c ≠ m) :
    PlaceKept s { s with header := Function.update s.header m o } c where
  header := Function.update_of_ne hc ..
  classId := fun _ _ => rfl

theorem usable (h : PlaceKept s s' p.span) : s'.usable p = s.usable p := by
  unfold PoolState.usable
  rw [h.header]
  cases hx : s.header p.span with
  | small k =>
    dsimp only
    rw [h.classId k hx]
  | large x => rfl

theorem address (h : PlaceKept s s' p.span) : s'.address p = s.address p := by
  unfold PoolState.address
  rw [h.header]
  cases hx : s.header p.span with
  | small k =>
    dsimp only
    rw [h.classId k hx]
  | large x => rfl

theorem bytes (h : PlaceKept s s' p.span) : s'.bytes p = s.bytes p := by
  unfold PoolState.bytes
  rw [h.address, h.usable]

theorem usableSize (h : PlaceKept s s' p.span) : memopUsableSize s' p = memopUsableSize s p := by
  unfold memopUsableSize
  rw [h.header]
  cases hx : s.header p.span with
  | small k =>
    dsimp only
    rw [h.classId k hx]
  | large x => rfl

/-- A step of an allocation over the spans of a heap changes no class. -/
theorem turn {lists : Heap.MemHeap} (hturn : Heap.AllocTurn (s.heap k).lists lists) (c : ℕ) :
    PlaceKept s (s.setLists k lists) c := by
  apply setLists
  cases hturn with
  | waits _ hworks => exact (hworks.heads c).classId
  | refused _ _ hworks => exact (hworks.heads c).classId
  | gives a _ _ _ _ _ hat hrest =>
    by_cases hc : c = a
    · rw [hc]
      exact hat.classId
    · exact (hrest c hc).classId

end PlaceKept

section
variable [DecidableEq ι] {s s' t : PoolState ι} {i : ι} {k : ℕ} {D : Set Ptr} {p q : Ptr}
  {l : List Ptr} {size : BitVec 64} {old : Option Ptr}

theorem placeKept_memopFreeRaw (s : PoolState ι) (i : ι) (p : Ptr) (now : BitVec 64) (c : ℕ) :
    PlaceKept s (memopFreeRaw s i p now) c := by
  unfold memopFreeRaw
  cases hx : s.header p.span with
  | large x =>
    have hcount := PlaceKept.of_same (SameStorage.countFree s i) c
    dsimp only
    split_ifs
    · exact ⟨hcount.header, hcount.classId⟩
    · exact ⟨hcount.header, hcount.classId⟩
  | small k =>
    have hlocal : PlaceKept s (s.setLists k
        (Heap.memopFreeRaw (s.heap k).lists p.span p.block)) c := by
      obtain ⟨⟨state, hself⟩, hother, -⟩ :=
        Heap.memopFreeRaw_spec (s.heap k).lists p.span p.block
      apply PlaceKept.setLists
      by_cases hc : c = p.span
      · rw [hc, hself]
      · rw [hother c hc]
    have hremote : PlaceKept s (s.setLists k
        (Heap.remotePush (s.heap k).lists p.span p.block)) c := by
      obtain ⟨hself, hother⟩ := Heap.remotePush_spec (s.heap k).lists p.span p.block
      apply PlaceKept.setLists
      by_cases hc : c = p.span
      · rw [hc, hself.classId]
      · rw [hother c hc]
    have hcount := hlocal.trans (.of_same (.countFree _ i) c)
    dsimp only
    split_ifs
    · exact hcount
    · exact ⟨hcount.header, hcount.classId⟩
    · exact hremote.trans (.of_same (.countRemoteFree _ i) c)

/-! ### The steps of an allocation -/

omit [DecidableEq ι] in
theorem Stored.known {v : Option ι → List Ptr} (h : Stored s v D) (hp : p ∈ D)
    (hx : s.header p.span = .small k) : k ∈ s.heaps := by
  obtain ⟨howned, -⟩ := (home_small hx).mp (h.home p hp)
  by_contra hk
  rw [h.created k hk] at howned
  exact absurd howned (Finset.notMem_empty _)

theorem Stored.place_getHeap {v : Option ι → List Ptr} (h : Stored s v D) (hp : p ∈ D)
    {heap r : Option ℕ} (hget : getHeap s i heap = some (t, r)) : PlaceKept s t p.span := by
  rcases getHeap_cases hget with ⟨rfl, -⟩ | ⟨k, hk, rfl, -⟩
  · exact .refl ..
  · constructor
    · rfl
    · intro j hj
      have hne : j ≠ k := by
        rintro rfl
        exact hk (h.known hp hj)
      simp only [MemoryPool.heapCreate, Function.update_of_ne hne]

/-- Where the allocation of thread `i`, in the place of `old` if it is a reallocation, stands while
it has no new block. -/
inductive Awaiting (s : PoolState ι) (i : ι) (size : BitVec 64) (old : Option Ptr) : Prop
  | large (hpc : s.pcs i = .large size old) (hclass : memopClassIndex size = none)
  | refill (k c : ℕ) (hpc : s.pcs i = .refill old) (hg : s.gHeap i = some k)
      (hclass : memopClassIndex size = some c) (hat : (s.heap k).lists.pc.classId = some c)

/-- A block that an allocation of `size` bytes gives has room for `n`. A LARGE one has no less than
its mapping, and that is small where rounding the size up wraps. -/
def RoomFor (size : BitVec 64) (n : ℕ) : Prop :=
  match memopClassIndex size with
  | some _ => n ≤ size.toNat
  | none => ∀ x, Heap.memopAllocLarge size true = .block x → n ≤ x.mapping - memopSpanHeader

/-- What a step of that call comes to: it goes on, fails, or has a block of the size, for its caller
or to replace the old one. -/
inductive AllocOutcome (s s' : PoolState ι) (i : ι) (size : BitVec 64) : Option Ptr → Prop
  | awaits {old : Option Ptr} (hat : Awaiting s' i size old) (hlive : s'.live = s.live)
      (hcalls : s'.calls = s.calls) : AllocOutcome s s' i size old
  | failed {old : Option Ptr} (hpc : s'.pcs i = .idle) (hlive : s'.live = old.toList ++ s.live)
      (hcalls : s'.calls = .failed :: s.calls) : AllocOutcome s s' i size old
  | given (new : Ptr) (hpc : s'.pcs i = .idle) (hlive : s'.live = new :: s.live)
      (hcalls : s'.calls = .allocated :: s.calls) (hroom : ∀ n, RoomFor size n → n ≤ s'.usable new) :
      AllocOutcome s s' i size none
  | got {p : Ptr} (new : Ptr) (hpc : s'.pcs i = .release p new) (hlive : s'.live = s.live)
      (hcalls : s'.calls = s.calls) (hroom : ∀ n, RoomFor size n → n ≤ s'.usable new) :
      AllocOutcome s s' i size (some p)

omit [DecidableEq ι] in
/-- Only what callers hold and the calls before the step matter. -/
theorem AllocOutcome.of_eq (h : AllocOutcome t s' i size old) (hlive : t.live = s.live)
    (hcalls : t.calls = s.calls) : AllocOutcome s s' i size old := by
  cases h with
  | awaits hat hl hc => exact .awaits hat (hl.trans hlive) (hc.trans hcalls)
  | failed hpc hl hc => exact .failed hpc (hlive ▸ hl) (hcalls ▸ hc)
  | given new hpc hl hc hroom => exact .given new hpc (hlive ▸ hl) (hcalls ▸ hc) hroom
  | got new hpc hl hc hroom => exact .got new hpc (hl.trans hlive) (hc.trans hcalls) hroom

theorem same_allocated (s : PoolState ι) (i : ι) (k : ℕ) (q : Ptr) (old : Option Ptr) :
    SameStorage s (allocated s i k q old) := by
  have hcount := SameStorage.countAlloc s k
  cases old with
  | none => exact ⟨rfl, rfl, hcount.lists, rfl, rfl⟩
  | some p => exact ⟨rfl, rfl, hcount.lists, rfl, rfl⟩

theorem same_allocFailed (s : PoolState ι) (i : ι) (old : Option Ptr) :
    SameStorage s (allocFailed s i old) :=
  ⟨rfl, rfl, fun _ => rfl, rfl, rfl⟩

theorem same_afterAlloc (s : PoolState ι) (i : ι) (k : ℕ) (lists : Heap.MemHeap)
    (old : Option Ptr) : SameStorage (s.setLists k lists) (afterAlloc s i k lists old) := by
  unfold afterAlloc
  dsimp only
  split_ifs
  · split
    · exact same_allocated ..
    · exact same_allocFailed ..
  · exact ⟨rfl, rfl, fun _ => rfl, rfl, rfl⟩

theorem placeKept_afterAlloc {lists : Heap.MemHeap} (c : ℕ)
    (hclass : (lists.head c).classId = ((s.heap k).lists.head c).classId) :
    PlaceKept s (afterAlloc s i k lists old) c :=
  (PlaceKept.setLists c hclass).trans (.of_same (same_afterAlloc ..) c)

theorem outcome_allocFailed (s : PoolState ι) (i : ι) (size : BitVec 64) (old : Option Ptr) :
    AllocOutcome s (allocFailed s i old) i size old :=
  .failed (Function.update_self ..) rfl rfl

theorem outcome_allocated (k : ℕ) (hroom : ∀ n, RoomFor size n → n ≤ s.usable q) :
    AllocOutcome s (allocated s i k q old) i size old := by
  have hplace : PlaceKept s (allocated s i k q old) q.span := .of_same (same_allocated ..) _
  rw [← hplace.usable] at hroom
  cases old with
  | none => exact .given q (Function.update_self ..) rfl rfl hroom
  | some p => exact .got q (Function.update_self ..) rfl rfl hroom

/-- The heap has moved on in an allocation of the class of the size. -/
theorem outcome_afterAlloc (hg : s.gHeap i = some k) {c : ℕ} (hc : memopClassIndex size = some c)
    {lists : Heap.MemHeap} (hturned : Heap.Turned c (s.heap k).lists lists)
    (hgives : Heap.GivesClass c (s.heap k).lists.given lists)
    (hheader : ∀ a b g, lists.pc = .idle → lists.given = some (a, b) :: g →
      s.header a = .small k) : AllocOutcome s (afterAlloc s i k lists old) i size old := by
  unfold afterAlloc
  dsimp only
  rcases hturned with ⟨hat, -⟩ | ⟨hpc, o, hgiven⟩
  · have hne : lists.pc ≠ .idle := by
      intro hidle
      rw [hidle] at hat
      cases hat
    rw [if_neg hne]
    refine .awaits (.refill k c (Function.update_self ..) hg hc ?_) rfl rfl
    change ((s.setLists k lists).heap k).lists.pc.classId = some c
    rw [setLists_self]
    exact hat
  · rw [if_pos hpc, hgiven]
    cases o with
    | none => exact (outcome_allocFailed (s.setLists k lists) i size old).of_eq rfl rfl
    | some ab =>
      obtain ⟨a, b⟩ := ab
      refine (outcome_allocated (s := s.setLists k lists) k ?_).of_eq rfl rfl
      have hx : (s.setLists k lists).header a = .small k := hheader a b _ hpc hgiven
      intro n hn
      have hle : n ≤ size.toNat := by
        unfold RoomFor at hn
        rw [hc] at hn
        exact hn
      unfold PoolState.usable
      dsimp only
      rw [hx]
      dsimp only
      rw [setLists_self, hgives a b hgiven]
      exact hle.trans (Heap.memopClassIndex_fits hc).2

omit [DecidableEq ι] in
/-- A block that the heap gives lies in a span of the heap. -/
theorem Stored.given_header {v : Option ι → List Ptr} (h : Stored s v D) {lists : Heap.MemHeap}
    (hturn : Heap.AllocTurn (s.heap k).lists lists) (a b : ℕ) (g : List (Option (ℕ × ℕ)))
    (hpc : lists.pc = .idle) (hgiven : lists.given = some (a, b) :: g) :
    s.header a = .small k := by
  cases hturn with
  | waits hne _ => exact absurd hpc hne
  | refused _ hnone _ =>
    obtain ⟨g', hnone⟩ := hnone
    rw [hgiven] at hnone
    cases hnone
  | gives a' b' _ hsome _ ha _ _ =>
    obtain ⟨g', hsome⟩ := hsome
    rw [hgiven] at hsome
    cases hsome
    exact h.header k a ha

def PlacesKept (s s' : PoolState ι) : Prop := ∀ r, ∀ q ∈ s.holds r, PlaceKept s s' q.span

theorem PoolOk.refillStep_outcome (h : PoolOk s) (hg : s.gHeap i = some k)
    (hpc : s.pcs i = .refill old) {c : ℕ} (hc : memopClassIndex size = some c)
    (hat : (s.heap k).lists.pc.classId = some c) {os : Option ℕ}
    (hs : MemoryPool.refillStep s i k os old = some s') :
    AllocOutcome s s' i size old ∧ PlacesKept s s' := by
  obtain ⟨D, hmid⟩ := h.mid i
  have hi : Heap.HeapInv (s.heap k).lists := by
    have hst := h.lanes.stands hg
    rw [hpc] at hst
    exact hst.2.2
  have hheld : ∀ r, ∀ q ∈ s.holds r, q ∈ D := by
    intro r q hq
    rw [← inHand_blocks s i] at hq
    exact hmid.stored.shelved.mem hq
  have hchunks (c : ChunkState ι) (q : Ptr) : PlaceKept s { s with chunks := c } q.span :=
    ⟨rfl, fun _ _ => rfl⟩
  cases refillStep_cases hs with
  | spans lists hno hlists =>
    have hturn := hi.turn (fun _ _ => rfl) hlists
    constructor
    · apply outcome_afterAlloc hg hc (hi.turned hat hlists)
      · exact hi.givesClass (l := .owner none) hlists hat
      · exact hmid.stored.given_header hturn
    · intro r q _
      exact (PlaceKept.turn hturn q.span).trans (.of_same (same_afterAlloc ..) _)
  | acquires d chunks => exact ⟨.awaits (.refill k c hpc hg hc hat) rfl rfl, fun _ q _ => hchunks _ q⟩
  | refused d chunks lists hcreate hacq hlists =>
    have hturned := hi.turned hat hlists
    have hgives := hi.givesClass (l := .owner none) hlists hat
    unfold Heap.memopRefill at hlists
    simp only [hcreate] at hlists
    obtain rfl := Option.some.inj hlists
    constructor
    · refine (outcome_afterAlloc (s := { s with chunks := chunks }) hg hc hturned hgives
        ?_).of_eq rfl rfl
      intro a b g _ hgiven
      cases hgiven
    · intro r q _
      exact (hchunks _ q).trans (placeKept_afterAlloc q.span rfl)
  | creates d m chunks hcreate hacq hlists =>
    obtain ⟨-, -, hnew⟩ := hmid.poolAcquire hacq
    have hturned := hi.turned hat hlists
    have hgives := hi.givesClass (l := .owner (some m)) hlists hat
    obtain ⟨-, hgiven, -, -, hrest⟩ := Heap.refillCreate_spec (s.heap k).lists d m
    constructor
    · refine (outcome_afterAlloc (s := { s with
        chunks := chunks, header := Function.update s.header m (.small k) }) hg hc hturned
        hgives ?_).of_eq rfl rfl
      intro a b g _ hgiven'
      rw [hgiven] at hgiven'
      cases hgiven'
      exact Function.update_self ..
    · intro r q hq
      have hne : q.span ≠ m := fun he => hnew m rfl (.inr ⟨q, hheld r q hq, he⟩)
      have hheader : PlaceKept s
          { s with chunks := chunks, header := Function.update s.header m (.small k) } q.span :=
        ⟨Function.update_of_ne hne .., fun _ _ => rfl⟩
      refine hheader.trans (placeKept_afterAlloc q.span ?_)
      rw [hrest q.span hne]

def Rounds (size : BitVec 64) : Prop := size.toNat + 65599 < 2 ^ 64

instance (size : BitVec 64) : Decidable (Rounds size) :=
  inferInstanceAs (Decidable (_ < _))

/-- A wrapped size is one that no mapping is asked for, or one of the last 63, for which there is
one chunk. -/
theorem RoomFor.of_lt (hsize : size.toNat < 2 ^ 64 - 63) : RoomFor size size.toNat := by
  unfold RoomFor
  split
  · exact Nat.le_refl _
  · intro x hx
    have htotal := Heap.largeTotal_toNat size
    rw [Heap.memopAllocLarge_eq] at hx
    split_ifs at hx with hlt
    obtain rfl := Heap.LargeResult.block.inj hx
    unfold memopSpanHeader
    dsimp only
    omega

theorem Rounds.room (h : Rounds size) : RoomFor size size.toNat := by
  apply RoomFor.of_lt
  unfold Rounds at h
  omega

/-- A LARGE block of the size is made at `m`. -/
theorem outcome_largeGiven (hclass : memopClassIndex size = none) {x : Heap.LargeSpan}
    (hx : Heap.memopAllocLarge size true = .block x) (m : ℕ) :
    AllocOutcome s (largeGiven s i k m x old) i size old := by
  have hheader : Function.update s.header m (.large x) m = .large x := Function.update_self ..
  refine (outcome_allocated k ?_).of_eq rfl rfl
  intro n hn
  unfold RoomFor at hn
  rw [hclass] at hn
  unfold PoolState.usable
  change n ≤ (match Function.update s.header m (.large x) m with
    | .small _ => _
    | .large x => x.mapping - memopSpanHeader)
  rw [hheader]
  exact hn x hx

theorem placeKept_largeGiven {m c : ℕ} (x : Heap.LargeSpan) (hc : c ≠ m) :
    PlaceKept s (largeGiven s i k m x old) c := by
  have hset := PlaceKept.setHeader (s := s) (.large x) hc
  apply hset.trans
  refine (PlaceKept.setLists c ?_).trans (.of_same (same_allocated ..) c)
  rfl

theorem PoolOk.largeStep_outcome (h : PoolOk s) (hpc : s.pcs i = .large size old)
    (hclass : memopClassIndex size = none) {os : Option ℕ}
    (hs : MemoryPool.largeStep s i k size os old = some s') :
    AllocOutcome s s' i size old ∧ PlacesKept s s' := by
  obtain ⟨D, hmid⟩ := h.mid i
  have hheld : ∀ r, ∀ q ∈ s.holds r, q ∈ D := by
    intro r q hq
    rw [← inHand_blocks s i] at hq
    exact hmid.stored.shelved.mem hq
  have hchunks (c : ChunkState ι) (q : Ptr) : PlaceKept s { s with chunks := c } q.span :=
    ⟨rfl, fun _ _ => rfl⟩
  cases largeStep_cases hs with
  | acquires chunks => exact ⟨.awaits (.large hpc hclass) rfl rfl, fun _ q _ => hchunks _ q⟩
  | noChunk chunks =>
    refine ⟨(outcome_allocFailed { s with chunks := chunks } i size old).of_eq rfl rfl, ?_⟩
    exact fun _ q _ => (hchunks _ q).trans (.of_same (same_allocFailed ..) _)
  | chunk m x chunks hunit hacq hx =>
    obtain ⟨-, -, hnew⟩ := hmid.poolAcquire hacq
    refine ⟨(outcome_largeGiven hclass hx m).of_eq rfl rfl, ?_⟩
    intro r q hq
    refine (hchunks chunks q).trans (placeKept_largeGiven x ?_)
    rintro rfl
    exact hnew q.span rfl (.inr ⟨q, hheld r q hq, rfl⟩)
  | noMapping =>
    exact ⟨outcome_allocFailed s i size old, fun _ q _ => .of_same (same_allocFailed ..) _⟩
  | mapping m x hunits hos hfree hx =>
    refine ⟨(outcome_largeGiven hclass hx m).of_eq rfl rfl, ?_⟩
    intro r q hq
    have hmapped : PlaceKept s
        { s with mappings := (m, largeUnits size) :: s.mappings } q.span := ⟨rfl, fun _ _ => rfl⟩
    refine hmapped.trans (placeKept_largeGiven x ?_)
    rintro rfl
    exact hmid.stored.unmapped_not_inUse (memopAllocLarge_block hx).1 hfree
      (.inr ⟨q, hheld r q hq, rfl⟩)

theorem MidCall.memopAllocRaw_outcome (h : MidCall s i old.toList D) (hrest : AtRest s i)
    {heap : Option ℕ} (hs : MemoryPool.memopAllocRaw s i size heap old = some s') :
    AllocOutcome s s' i size old ∧ ∀ q ∈ D, PlaceKept s s' q.span := by
  have hgot {t : PoolState ι} {r : Option ℕ} (hget : MemoryPool.getHeap s i heap = some (t, r)) :
      (∀ q ∈ D, PlaceKept s t q.span) ∧ t.live = s.live ∧ t.calls = s.calls := by
    refine ⟨fun q hq => h.stored.place_getHeap hq hget, ?_⟩
    rcases getHeap_cases hget with ⟨rfl, -⟩ | ⟨k, -, rfl, -⟩
    · exact ⟨rfl, rfl⟩
    · exact ⟨rfl, rfl⟩
  cases memopAllocRaw_cases hs with
  | nothing => exact ⟨outcome_allocFailed s i size old, fun q _ => .of_same (same_allocFailed ..) _⟩
  | noHeap t hget =>
    obtain ⟨hplaces, hlive, hcalls⟩ := hgot hget
    refine ⟨(outcome_allocFailed t i size old).of_eq hlive hcalls, ?_⟩
    intro q hq
    exact (hplaces q hq).trans (.of_same (same_allocFailed ..) _)
  | large t k hget hc =>
    obtain ⟨hplaces, hlive, hcalls⟩ := hgot hget
    refine ⟨.awaits (.large (Function.update_self ..) hc) hlive hcalls, ?_⟩
    intro q hq
    exact (hplaces q hq).trans ⟨rfl, fun _ _ => rfl⟩
  | small t k c hget hc =>
    obtain ⟨hplaces, hlive, hcalls⟩ := hgot hget
    obtain ⟨hmid, hat, -, hg⟩ := h.getHeap hrest hget
    have hgk := hg k rfl
    obtain ⟨-, ⟨ls, hgood⟩, -⟩ := hat.heap k hgk
    have hturn := hgood.turn_memopAllocRaw c
    constructor
    · refine (outcome_afterAlloc hgk hc (Heap.turned_memopAllocRaw _ c) hgood.givesClass_alloc
        ?_).of_eq hlive hcalls
      exact hmid.stored.given_header hturn
    · intro q hq
      exact (hplaces q hq).trans
        ((PlaceKept.turn hturn q.span).trans (.of_same (same_afterAlloc ..) _))

/-- The first step of a reallocation: the call takes `p` into its hands. -/
theorem PoolOk.memopAllocRaw_outcome (h : PoolOk s) (hidle : s.pcs i = .idle) (hp : p ∈ s.live)
    {heap : Option ℕ}
    (hs : MemoryPool.memopAllocRaw { s with live := s.live.erase p } i size heap (some p) =
      some s') :
    AllocOutcome { s with live := s.live.erase p } s' i size (some p) ∧ PlacesKept s s' := by
  obtain ⟨D, hstored, hmid, hrest⟩ := h.replacing hidle hp
  obtain ⟨hout, hkept⟩ := hmid.memopAllocRaw_outcome hrest hs
  refine ⟨hout, ?_⟩
  intro r q hq
  have hlive : PlaceKept s { s with live := s.live.erase p } q.span := ⟨rfl, fun _ _ => rfl⟩
  exact hlive.trans (hkept q (hstored.shelved.mem hq))

/-- The end of a thread writes to no header of a span, and asks the OS for nothing. -/
theorem endStep_headers {now : BitVec 64} {pc : PoolPc} (hs : endStep s i k now pc = some s') :
    s'.header = s.header ∧ s'.mappings = s.mappings := by
  unfold endStep at hs
  split at hs
  · obtain rfl := Option.some.inj hs
    unfold endClassStep
    dsimp only
    split_ifs
    · exact ⟨rfl, rfl⟩
    · exact ⟨rfl, rfl⟩
  · obtain rfl := Option.some.inj hs
    split_ifs
    · exact ⟨rfl, rfl⟩
    · exact ⟨rfl, rfl⟩
  · obtain rfl := Option.some.inj hs
    unfold endFullStep
    dsimp only
    split_ifs
    · exact ⟨rfl, rfl⟩
    · exact ⟨rfl, rfl⟩
    · exact ⟨rfl, rfl⟩
  · obtain ⟨chunks, -, rfl⟩ := Option.map_eq_some_iff.mp hs
    exact ⟨rfl, rfl⟩
  · obtain ⟨chunks, -, rfl⟩ := Option.map_eq_some_iff.mp hs
    dsimp only
    split_ifs
    · exact ⟨rfl, rfl⟩
    · exact ⟨rfl, rfl⟩
  · cases hs

/-! ### The headers of LARGE blocks -/

/-- What a header says of a LARGE block was written by `memop_alloc_large`. -/
def LargeWritten (s : PoolState ι) : Prop :=
  ∀ c x, s.header c = .large x → ∃ size, Heap.memopAllocLarge size true = .block x

namespace LargeWritten

omit [DecidableEq ι] in
theorem of_header (h : LargeWritten s) (hheader : s'.header = s.header) : LargeWritten s' := by
  unfold LargeWritten
  rw [hheader]
  exact h

omit [DecidableEq ι] in
theorem inCall (h : LargeWritten s) (hs : InCall s s' i) : LargeWritten s' := by
  intro c x hx
  rcases hs.large c x hx with hx | hx
  · exact h c x hx
  · exact hx

omit [DecidableEq ι] in
theorem outsideEnd (h : LargeWritten s) (hs : OutsideEnd s s' i) : LargeWritten s' := by
  intro c x hx
  rcases hs.large c x hx with hx | hx
  · exact h c x hx
  · exact hx

theorem callStep (h : LargeWritten s) (hg : s.gHeap i = some k) {os : Option ℕ} {now : BitVec 64}
    (hs : callStep s i k os now = some s') : LargeWritten s' := by
  unfold MemoryPool.callStep at hs
  split at hs
  · cases hs
  · exact h.inCall (.refillStep hg hs)
  · exact h.inCall (.largeStep hg hs)
  · obtain rfl := Option.some.inj hs
    exact h.inCall ((InCall.memopFreeRaw ..).trans ((InCall.live ..).trans (.ret ..)))
  · exact h.of_header (endStep_headers hs).1

theorem step (h : LargeWritten s) {l : PoolLabel ι} (hs : poolStep s l = some s') :
    LargeWritten s' := by
  cases l with
  | createdThread i heap =>
    simp only [poolStep] at hs
    split_ifs at hs
    obtain ⟨⟨t, r⟩, hget, rfl⟩ := Option.map_eq_some_iff.mp hs
    exact h.outsideEnd (.getHeap hget)
  | endedThread i =>
    simp only [poolStep] at hs
    split_ifs at hs
    split at hs
    · rw [← Option.some.inj hs]
      exact h
    · rw [← Option.some.inj hs]
      exact h.of_header rfl
  | alloc i size heap =>
    simp only [poolStep] at hs
    split_ifs at hs
    exact h.outsideEnd (.memopAllocRaw hs)
  | free i ptr now =>
    simp only [poolStep] at hs
    split_ifs at hs
    cases ptr with
    | none =>
      rw [← Option.some.inj hs]
      exact h
    | some p =>
      dsimp only at hs
      split_ifs at hs
      rw [← Option.some.inj hs]
      exact h.outsideEnd (.freed s i p now)
  | realloc i ptr size heap now =>
    simp only [poolStep] at hs
    split_ifs at hs
    cases ptr with
    | none => exact h.outsideEnd (.memopAllocRaw hs)
    | some p =>
      dsimp only at hs
      split_ifs at hs
      exact h.outsideEnd (.memopReallocRaw hs)
  | step i os now =>
    simp only [poolStep] at hs
    split at hs
    · cases hs
    · rename_i k hg
      exact h.callStep hg hs
  | purge now =>
    rw [← Option.some.inj hs]
    exact h.of_header rfl

theorem callsStep (h : LargeWritten s) {l : PoolCall ι} (hs : poolCallStep s l = some s') :
    LargeWritten s' := by
  cases l with
  | calloc i count size heap =>
    simp only [poolCallStep] at hs
    split_ifs at hs
    unfold memopCallocRaw at hs
    split_ifs at hs
    · rw [← Option.some.inj hs]
      exact h.of_header rfl
    · exact h.outsideEnd (.memopAllocRaw hs)
  | pool l => exact h.step hs

end LargeWritten

theorem largeWritten_run (h : (poolCalls ι).ReachableWhen MapsUserSpace s) : LargeWritten s := by
  apply System.ReachableWhen.invariant _ _ h
  · rintro s rfl c x hx
    cases hx
  · exact fun _ _ _ hinv _ hs => hinv.callsStep hs

end
end Xplatbase.MemoryPool
