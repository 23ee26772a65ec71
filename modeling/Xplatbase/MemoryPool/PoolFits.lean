import Xplatbase.MemoryPool.PoolMemory

/-! Where no call copies or clears more than its new block has room for, the records of the pool are
written by the pool alone, and its blocks stay apart. A reallocation of a longer block to a size that
wraps writes over the header of the next span. -/
namespace Xplatbase.MemoryPool
open Xplatbase.Lib Xplatbase.Memory

variable {ι : Type*}

section
variable {s t : PoolState ι} {i : ι} {p : Ptr} {l : PoolCall ι} {size : BitVec 64}

/-! ### A step of the pool -/

/-- A step of the pool, with what the allocating calls of the threads are for. -/
structure Turned (s t : PoolState ι) (thread : Option ι) (asked : ι → BitVec 64)
    (ptr : Option Ptr) : Prop where
  turn : PoolTurn s t thread ((thread.map asked).getD 0) ptr
  places : PlacesKept s t
  asks : ∀ j, Asks t j (asked j)
  lent : ∀ j q, (t.pcs j).lent = some q →
    (s.pcs j).lent = some q ∨ thread = some j ∧ ptr = some q

theorem CallTurn.turned {asked : ι → BitVec 64} {ptr : Option Ptr}
    (h : CallTurn s t i (asked i) ptr) (hlanes : Lanes s) (hasks : ∀ j, Asks s j (asked j)) :
    Turned s t (some i) asked ptr where
  turn := h.turn
  places := h.places
  asks := by
    intro j
    rcases eq_or_ne j i with rfl | hj
    · exact h.asks
    · exact (hasks j).other hlanes h.others hj h.places
  lent := by
    intro j q hq
    rcases eq_or_ne j i with rfl | hj
    · exact (h.lent q hq).imp_right fun hptr => ⟨rfl, hptr⟩
    · rw [h.others.pcs j hj] at hq
      exact .inl hq

theorem Asks.idle (hidle : s.pcs i = .idle) (size : BitVec 64) :
    Asks s i size :=
  .no (by rw [hidle]; rfl)

/-- Only a step that gives a block returns as `memop_alloc_raw` does. -/
theorem PoolTurn.given_of_calls {thread : Option ι}
    {ptr : Option Ptr} (h : PoolTurn s t thread size ptr)
    (hc : t.calls = .allocated :: s.calls) :
    ∃ new, t.live = new :: s.live ∧ (∀ n, RoomFor size n → n ≤ t.usable new) ∧
      ¬ s.Kept new := by
  have hne {call : CallEnd} (hc' : t.calls = call :: s.calls) : call = .allocated :=
    (List.cons.inj (hc'.symm.trans hc)).1
  cases h with
  | quiet _ hcalls =>
    rcases hcalls with hcalls | hcalls
    · exact absurd (hcalls.symm.trans hc) (List.cons_ne_self _ _).symm
    · cases hne hcalls
  | given i new _ hlive _ hroom hnew _ => exact ⟨new, hlive, hroom, hnew⟩
  | freed _ _ _ hcalls _ => cases hne hcalls
  | moved _ _ _ _ _ hcalls _ _ _ => cases hne hcalls
  | inPlace _ _ _ _ _ hcalls _ _ => cases hne hcalls

variable [DecidableEq ι]

/-- A thread that makes an allocating call was in none. -/
theorem idle_of_asks (hs : poolCallStep s l = some t) {x : ι × BitVec 64 × Bool}
    (hx : l.asks = some x) : s.pcs x.1 = .idle := by
  cases l with
  | calloc i count size heap =>
    simp only [PoolCall.asks] at hx
    split_ifs at hx
    obtain rfl := Option.some.inj hx
    simp only [poolCallStep] at hs
    split_ifs at hs with hidle
    exact hidle
  | pool l =>
    cases l with
    | alloc i size heap =>
      obtain rfl := Option.some.inj hx
      simp only [poolCallStep, poolStep] at hs
      split_ifs at hs with hidle
      exact hidle
    | realloc i ptr size heap now =>
      obtain rfl := Option.some.inj hx
      simp only [poolCallStep, poolStep] at hs
      split_ifs at hs with hidle
      exact hidle
    | createdThread i heap => cases hx
    | endedThread i => cases hx
    | free i ptr now => cases hx
    | step i os now => cases hx
    | purge now => cases hx

theorem PoolOk.calls_turn (h : PoolOk s) (hl : LargeWritten s)
    {asked : ι → BitVec 64} (hasks : ∀ i, Asks s i (asked i))
    (hasked : ∀ x ∈ l.asks, asked x.1 = x.2.1) (hs : poolCallStep s l = some t)
    (hok : PoolOk t) : Turned s t l.thread asked l.ptr := by
  cases l with
  | calloc i count size heap =>
    apply CallTurn.turned _ h.lanes hasks
    simp only [poolCallStep] at hs
    split_ifs at hs with hidle
    unfold MemoryPool.memopCallocRaw at hs
    simp only [PoolCall.asks] at hasked
    split_ifs at hs hasked with hoverflow
    · rw [← Option.some.inj hs]
      exact refused_turn hidle
    · have heq := hasked _ rfl
      dsimp only at heq
      rw [heq]
      exact h.alloc_turn hidle hs hok
  | pool l =>
    simp only [poolCallStep] at hs
    cases l with
    | createdThread i heap =>
      apply CallTurn.turned _ h.lanes hasks
      simp only [poolStep] at hs
      split_ifs at hs with hidle
      obtain ⟨⟨u, r⟩, hget, rfl⟩ := Option.map_eq_some_iff.mp hs
      exact h.getHeap_turn hidle hget
    | endedThread i =>
      apply CallTurn.turned _ h.lanes hasks
      simp only [poolStep] at hs
      split_ifs at hs with hidle
      split at hs
      · rw [← Option.some.inj hs]
        exact .still rfl rfl rfl (by rw [hidle]; rfl) (fun _ q _ => .refl s q.span) (.refl s i)
      · rename_i k hk
        exact ended_turn hidle hk (Option.some.inj hs).symm
    | alloc i size heap =>
      apply CallTurn.turned _ h.lanes hasks
      simp only [poolStep] at hs
      split_ifs at hs with hidle
      have heq := hasked _ rfl
      dsimp only at heq
      rw [heq]
      exact h.alloc_turn hidle hs hok
    | free i ptr now =>
      apply CallTurn.turned _ h.lanes hasks
      simp only [poolStep] at hs
      split_ifs at hs with hidle
      cases ptr with
      | none =>
        rw [← Option.some.inj hs]
        exact .still rfl rfl rfl (by rw [hidle]; rfl) (fun _ q _ => .refl s q.span) (.refl s i)
      | some p =>
        dsimp only at hs
        split_ifs at hs with hp
        exact h.freed_turn hidle hp (Option.some.inj hs).symm
    | realloc i ptr size heap now =>
      apply CallTurn.turned _ h.lanes hasks
      simp only [poolStep] at hs
      split_ifs at hs with hidle
      have heq := hasked _ rfl
      dsimp only at heq
      rw [heq]
      cases ptr with
      | none => exact h.alloc_turn hidle hs hok
      | some p =>
        dsimp only at hs
        split_ifs at hs with hp
        exact h.realloc_turn hl hidle hp hs hok
    | step i os now =>
      apply CallTurn.turned _ h.lanes hasks
      simp only [poolStep] at hs
      split at hs
      · cases hs
      · rename_i k hk
        exact h.callStep_turn (hasks i) hk hs hok
    | purge now =>
      obtain rfl := Option.some.inj hs
      refine ⟨.quiet (fun _ => Iff.rfl) (.inl rfl), fun _ _ _ => ⟨rfl, fun _ _ => rfl⟩, ?_,
        fun _ _ hq => .inl hq⟩
      intro j
      cases hasks j with
      | no hpc => exact .no hpc
      | awaits old hat =>
        refine .awaits old ?_
        cases hat with
        | large hpc hclass => exact .large hpc hclass
        | refill k c hpc hg hclass hat => exact .refill k c hpc hg hclass hat
      | holds p new hpc hroom => exact .holds p new hpc hroom

/-- A step is one of the pool, goes on with a copy past its block, or writes to blocks. -/
inductive MemoryTurn (s : MemoryState ι) : MemoryLabel ι → MemoryState ι → Prop
  | call (l : PoolCall ι) (junk : ℕ → UInt8) (t : PoolState ι)
      (ht : poolCallStep s.pool l = some t) :
      MemoryTurn s (.call l junk) ((s.asking l).after l t junk)
  | spill {s' : MemoryState ι} (i : ι) (r : ChunkRecord) (c last : ℕ)
      (hspilling : s.spilling i = some (c, last)) : MemoryTurn s (.spill i r) s'
  | write (l : MemoryLabel ι) (mem : ℕ → UInt8) : MemoryTurn s l { s with mem := mem }

theorem memoryStep_cases {s s' : MemoryState ι} {l : MemoryLabel ι}
    (hs : memoryStep s l = some s') : MemoryTurn s l s' := by
  cases l with
  | call l junk =>
    simp only [memoryStep] at hs
    split_ifs at hs
    obtain ⟨t, ht, rfl⟩ := Option.map_eq_some_iff.mp hs
    exact .call l junk t ht
  | spill i r =>
    simp only [memoryStep, MemoryState.spill] at hs
    split at hs
    · cases hs
    · rename_i c last hspilling
      exact .spill i r c last hspilling
  | store p offset byte =>
    simp only [memoryStep] at hs
    split_ifs at hs
    obtain rfl := Option.some.inj hs
    exact .write _ _
  | copy dst dstOffset src size offset =>
    simp only [memoryStep] at hs
    split_ifs at hs
    obtain rfl := Option.some.inj hs
    exact .write _ _
  | append dst src size offset =>
    simp only [memoryStep] at hs
    split_ifs at hs
    obtain rfl := Option.some.inj hs
    exact .write _ _

end

/-! ### What fits -/

section
variable {s : PoolState ι} {p : Ptr} {size : BitVec 64} {m n : ℕ}

theorem RoomFor.mono (h : RoomFor size n) (hm : m ≤ n) : RoomFor size m := by
  unfold RoomFor at h ⊢
  split
  · rename_i c hc
    rw [hc] at h
    exact hm.trans h
  · rename_i hc
    rw [hc] at h
    exact fun x hx => hm.trans (h x hx)

/-- Whatever the size, a LARGE block has all of its first chunk but the header. -/
theorem RoomFor.chunk (hsize : 2 ^ 64 - 63 ≤ size.toNat) :
    RoomFor size (memopSpanSize - memopSpanHeader) := by
  unfold RoomFor
  split
  · rename_i c hc
    have hlt := size.isLt
    unfold memopSpanSize memopSpanHeader
    omega
  · intro x hx
    have htotal := Heap.largeTotal_toNat size
    rw [Heap.memopAllocLarge_eq] at hx
    split_ifs at hx with hlt
    obtain rfl := Heap.LargeResult.block.inj hx
    unfold memopSpanSize memopSpanHeader
    dsimp only
    omega

theorem copyLength_fits (h : size.toNat < 2 ^ 64 - 63 ∨
    (memopUsableSize s p).toNat ≤ memopSpanSize - memopSpanHeader) :
    RoomFor size (copyLength s p size) := by
  by_cases hlt : size.toNat < 2 ^ 64 - 63
  · exact (RoomFor.of_lt hlt).mono copyLength_le_size
  · have hle : copyLength s p size ≤ memopSpanSize - memopSpanHeader :=
      copyLength_le_usable.trans (h.resolve_left hlt)
    exact (RoomFor.chunk (Nat.le_of_not_lt hlt)).mono hle

end

/-- What `memop_calloc_raw` clears fits in its block. -/
theorem PoolCall.Fits.clears {s : PoolState ι} {l : PoolCall ι} {i : ι} {size : BitVec 64}
    (h : l.Fits s) (hx : l.asks = some (i, size, true)) : RoomFor size size.toNat := by
  cases l with
  | calloc j count each heap =>
    simp only [PoolCall.asks] at hx
    split_ifs at hx with hoverflow
    obtain ⟨-, rfl, -⟩ := Prod.mk.inj (Option.some.inj hx)
    exact .of_lt (h.resolve_left hoverflow)
  | pool l =>
    cases l with
    | _ => cases hx

/-- A call that is given a block to replace is a reallocation. -/
theorem realloc_of_lent [DecidableEq ι] {s t : PoolState ι} {l : PoolCall ι} {i : ι} {p : Ptr}
    (hs : poolCallStep s l = some t) (hi : l.thread = some i) (hptr : l.ptr = some p)
    (hp : (t.pcs i).lent = some p) :
    ∃ size heap now, l = .pool (.realloc i (some p) size heap now) := by
  cases l with
  | calloc => cases hptr
  | pool l =>
    cases l with
    | realloc j ptr size heap now =>
      obtain rfl := Option.some.inj hi
      obtain rfl : ptr = some p := hptr
      exact ⟨size, heap, now, rfl⟩
    | free j ptr now =>
      obtain rfl := Option.some.inj hi
      obtain rfl : ptr = some p := hptr
      simp only [poolCallStep, poolStep] at hs
      split_ifs at hs
      rw [← Option.some.inj hs] at hp
      simp only [PoolState.ret, PoolState.setPc, Function.update_self] at hp
      cases hp
    | createdThread | endedThread | alloc | step | purge => cases hptr

/-- Nothing that was or is to be copied or cleared passes the end of its block. -/
structure Fitting (s : MemoryState ι) : Prop where
  ok : PoolOk s.pool
  large : LargeWritten s.pool
  asks : ∀ i, Asks s.pool i (s.asked i)
  copies : ∀ i p, (s.pool.pcs i).lent = some p →
    RoomFor (s.asked i) (copyLength s.pool p (s.asked i))
  clears : ∀ i, s.clears i = true → RoomFor (s.asked i) (s.asked i).toNat
  within : ∀ i, s.spilling i = none

namespace Fitting
variable [DecidableEq ι] {s s' : MemoryState ι} {t : PoolState ι} {l : PoolCall ι} {i : ι} {p : Ptr}
  {junk : ℕ → UInt8}

theorem asking (h : Fitting s) (hl : l.Fits s.pool) (ht : poolCallStep s.pool l = some t) :
    Fitting (s.asking l) := by
  unfold MemoryState.asking
  split
  · exact h
  · rename_i i size clear hx
    have hidle := idle_of_asks ht hx
    refine ⟨h.ok, h.large, ?_, ?_, ?_, h.within⟩
    · intro j
      rcases eq_or_ne j i with rfl | hj
      · exact .idle hidle _
      · dsimp only
        rw [Function.update_of_ne hj]
        exact h.asks j
    · intro j p hp
      have hj : j ≠ i := by
        rintro rfl
        rw [hidle] at hp
        cases hp
      dsimp only
      rw [Function.update_of_ne hj]
      exact h.copies j p hp
    · intro j hclear
      dsimp only at hclear ⊢
      rcases eq_or_ne j i with rfl | hj
      · rw [Function.update_self] at hclear ⊢
        rw [hclear] at hx
        exact hl.clears hx
      · rw [Function.update_of_ne hj] at hclear ⊢
        exact h.clears j hclear

/-- What a reallocation under way is to copy fits in its block, behind a step to `t` too. -/
theorem copies_after (h : Fitting s) (hl : l.Fits s.pool) (ht : poolCallStep s.pool l = some t)
    (hasked : ∀ x ∈ l.asks, s.asked x.1 = x.2.1)
    (hturn : Turned s.pool t l.thread s.asked l.ptr) (hp : (t.pcs i).lent = some p) :
    RoomFor (s.asked i) (copyLength t p (s.asked i)) := by
  rcases hturn.lent i p hp with hbefore | ⟨hi, hptr⟩
  · rw [(hturn.places _ p (lent_held hbefore)).copyLength]
    exact h.copies i p hbefore
  · obtain ⟨size, heap, now, rfl⟩ := realloc_of_lent ht hi hptr hp
    obtain rfl : s.asked i = size := hasked _ rfl
    have hlive : p ∈ s.pool.live := by
      simp only [poolCallStep, poolStep] at ht
      split_ifs at ht with _ hlive
      exact hlive
    rw [(hturn.places none p hlive).copyLength]
    exact copyLength_fits hl

/-- The state behind a step of the pool to `t`. -/
theorem after (h : Fitting s) (hl : l.Fits s.pool) (ht : poolCallStep s.pool l = some t)
    (hasked : ∀ x ∈ l.asks, s.asked x.1 = x.2.1) (hok : PoolOk t) (hlarge : LargeWritten t)
    (hturn : Turned s.pool t l.thread s.asked l.ptr) : Fitting (s.after l t junk) := by
  have hcopies : ∀ i p, (t.pcs i).lent = some p →
      RoomFor (s.asked i) (copyLength t p (s.asked i)) :=
    fun i p hp => h.copies_after hl ht hasked hturn hp
  refine ⟨hok, hlarge, hturn.asks, hcopies, h.clears, ?_⟩
  intro j
  unfold MemoryState.after MemoryState.spillingAfter
  dsimp only
  cases hi : l.thread with
  | none => exact h.within j
  | some i =>
    dsimp only
    by_cases hj : j = i
    · rw [hj, Function.update_self]
      rw [hi] at hturn
      unfold spills
      split
      · rename_i old new hpc
        have hlent : (t.pcs i).lent = some old := congrArg PoolPc.lent hpc
        exact if_pos ((hturn.asks i).room hpc _ (hcopies i old hlent))
      · split_ifs with hgiven
        · obtain ⟨new, hlive, hroom, -⟩ := hturn.turn.given_of_calls hgiven.2
          rw [hlive]
          exact if_pos (hroom _ (h.clears i hgiven.1))
        · rfl
    · rw [Function.update_of_ne hj]
      exact h.within j

theorem step (h : Fitting s) {l : MemoryLabel ι} (hl : CallsFit s l)
    (hs : memoryStep s l = some s') : Fitting s' := by
  cases memoryStep_cases hs with
  | call l junk t ht =>
    obtain ⟨huser, hfits⟩ := hl
    have hasking := h.asking hfits ht
    have hpool : (s.asking l).pool = s.pool := asking_pool s l
    have hok := h.ok.callsStep huser ht
    apply hasking.after (hpool ▸ hfits) (hpool ▸ ht) (fun x hx => asking_asked hx) hok
      (h.large.callsStep ht)
    rw [hpool]
    exact h.ok.calls_turn h.large (hpool ▸ hasking.asks) (fun x hx => asking_asked hx) ht hok
  | spill i r c last hspilling =>
    rw [h.within i] at hspilling
    cases hspilling
  | write l mem => exact ⟨h.ok, h.large, h.asks, h.copies, h.clears, h.within⟩

omit [DecidableEq ι] in
theorem init (mem : ℕ → UInt8) : Fitting (memoryNew ι mem) where
  ok := poolOk_init
  large := fun _ _ hx => by cases hx
  asks := fun _ => .no rfl
  copies := fun _ _ hp => by cases hp
  clears := fun _ hclear => by cases hclear
  within := fun _ => rfl

end Fitting

section
variable [DecidableEq ι] {s : MemoryState ι}

theorem fitting_run (h : (memorySystem ι).ReachableWhen CallsFit s) : Fitting s :=
  System.ReachableWhen.invariant
    (by rintro _ ⟨mem, rfl⟩; exact .init mem)
    (fun _ _ _ hinv hl hs => hinv.step hl hs) h

/-- Where every call fits, the pool moves by its own steps only. -/
theorem pool_run (h : (memorySystem ι).ReachableWhen CallsFit s) :
    (poolCalls ι).ReachableWhen MapsUserSpace s.pool := by
  induction h with
  | init h =>
    obtain ⟨mem, rfl⟩ := h
    exact .init rfl
  | step l h hl hs ih =>
    cases memoryStep_cases hs with
    | call l junk t ht => exact .step l ih hl.1 ht
    | spill i r c last hspilling =>
      rw [(fitting_run h).within i] at hspilling
      cases hspilling
    | write l mem => exact ih

end

variable [DecidableEq ι]

def callLabels (ls : List (PoolCall Bool)) : List (MemoryLabel Bool) :=
  ls.map fun l => .call l fun _ => 0

/-- Two threads: two small blocks and a LARGE one, a free by the other thread, and a reallocation
that has its new block and not yet freed the old one. -/
def overlapRun : List (PoolCall Bool) :=
  [.pool (.alloc true 16 (some 100)), .pool (.step true none 0), .pool (.step true (some 5) 0),
    .pool (.step true none 0), .calloc true 4 4 none, .pool (.alloc false 200000 (some 200)),
    .pool (.step false (some 1000) 0), .pool (.free false (some ⟨321, 0⟩) 0),
    .pool (.realloc true (some ⟨321, 1⟩) 3000 none 0), .pool (.step true none 0)]

/-- A `MemSpan` with this `block_count`, and zeros in all its other fields. -/
def forgedSpan (blockCount : ℕ) : ChunkRecord where
  owner := .small 0
  next := none
  prev := none
  head := ⟨0, [], [], [], 0, .available, 0, blockCount⟩
  cached := []
  segment := ⟨0, 0, 0⟩
  segments := []

/-- A thread has 20000 bytes in chunk 321 and 16 in chunk 322, and frees the first. It then puts a 1
at 65520 into a block of 200000 bytes, and reallocates that to `2^64 - 1`: the new block is chunk 321
again, and 262080 bytes are copied to it, those at 65472 over the header of chunk 322. The next 16
bytes are those that it has already. -/
def wrappedRun : List (MemoryLabel Bool) :=
  callLabels [.pool (.alloc true 20000 (some 100)), .pool (.step true none 0),
      .pool (.step true (some 5) 0), .pool (.step true none 0),
      .pool (.alloc true 16 none), .pool (.step true none 0),
      .pool (.free true (some ⟨321, 0⟩) 0), .pool (.alloc true 200000 none),
      .pool (.step true (some 1000) 0)] ++
    .store ⟨1000, 0⟩ 65520 1 ::
    callLabels [.pool (.realloc true (some ⟨1000, 0⟩) (2 ^ 64 - 1) none 0),
      .pool (.step true none 0)] ++
    [.spill true (forgedSpan 1), .spill true (forgedSpan 0), .spill true (forgedSpan 0)] ++
    callLabels [.pool (.step true none 0), .pool (.alloc true 16 none)]

end Xplatbase.MemoryPool
