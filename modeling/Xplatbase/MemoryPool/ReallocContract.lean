import Xplatbase.MemoryPool.PoolBounds
import Xplatbase.MemoryPool.ReallocEnds

/-! When `memop_realloc_raw` keeps what it promises: a block of 4 GB or more has a 32-bit size in its
header, and no more than that is copied. -/
namespace Xplatbase.MemoryPool
open Xplatbase.Lib Xplatbase.Memory

variable {ι : Type*} [DecidableEq ι]

section
variable {s s' t : PoolState ι} {mem : ℕ → UInt8} {i : ι} {p q : Ptr} {size : BitVec 64}
  {oldSize k m : ℕ}

def oneSmall : List (PoolCall Bool) :=
  [.pool (.alloc true 16 (some 100)), .pool (.step true none 0), .pool (.step true (some 5) 0),
    .pool (.step true none 0)]

/-- A step that the OS gives no memory to, and that clears what it writes. -/
def refusedStep : StepInput := ⟨none, 0, fun _ => 0⟩

/-- The block of 16 bytes, and a run that replaces it by one of 3000. -/
theorem oneSmall_grows :
    ∃ (s : MemoryState Bool) (r : PoolState Bool × (ℕ → UInt8)),
      (memorySystem Bool).ReachableWhen CallsFit s ∧
      reallocRun s.pool UInt8.ofNat true ⟨321, 0⟩ 3000 refusedStep [refusedStep, refusedStep] =
        some r ∧
      s.pool.pcs true = .idle ∧ ⟨321, 0⟩ ∈ s.pool.live ∧ 16 ≤ s.pool.usable ⟨321, 0⟩ ∧
      16 ≤ (memopUsableSize s.pool ⟨321, 0⟩).toNat ∧ r.1.pcs true = .idle ∧
      r.1.live = [⟨322, 0⟩] := by
  have hout : (((memorySystem Bool).execWhen CallsFit (memoryNew Bool fun _ => 0)
      (callLabels oneSmall)).bind fun s =>
      (reallocRun s.pool UInt8.ofNat true ⟨321, 0⟩ 3000 refusedStep [refusedStep, refusedStep]).map
        fun r => decide (s.pool.pcs true = .idle ∧ ⟨321, 0⟩ ∈ s.pool.live ∧
          16 ≤ s.pool.usable ⟨321, 0⟩ ∧ 16 ≤ (memopUsableSize s.pool ⟨321, 0⟩).toNat ∧
          r.1.pcs true = .idle ∧ r.1.live = [⟨322, 0⟩])) = some true := by
    decide +kernel
  obtain ⟨s, hrun, hout⟩ := Option.bind_eq_some_iff.mp hout
  obtain ⟨r, hr, hend⟩ := Option.map_eq_some_iff.mp hout
  exact ⟨s, r, .exec (.init ⟨_, rfl⟩) hrun, hr, of_decide_eq_true hend⟩

omit [DecidableEq ι] in
/-- What is not covered is a LARGE block, on its way to another. -/
theorem LargeWritten.uncovered (h : LargeWritten s) (hold : oldSize ≤ s.usable p)
    (hno : ¬ Covered s p oldSize size) :
    (∃ x, s.header p.span = .large x) ∧ 65472 ≤ (memopUsableSize s p).toNat ∧
      (memopUsableSize s p).toNat < size.toNat ∧ (memopUsableSize s p).toNat < oldSize := by
  obtain ⟨hlt, holdLt⟩ := not_or.mp hno
  rw [BitVec.le_def] at hlt
  have hlarge : ∃ x, s.header p.span = .large x := by
    cases hx : s.header p.span with
    | large x => exact ⟨x, rfl⟩
    | small k =>
      exfalso
      apply holdLt
      unfold memopUsableSize
      unfold PoolState.usable at hold
      rw [hx] at hold ⊢
      dsimp only at hold ⊢
      rw [BitVec.toNat_setWidth_of_le (by decide)]
      exact hold
  refine ⟨hlarge, ?_, Nat.lt_of_not_le hlt, Nat.lt_of_not_le holdLt⟩
  obtain ⟨x, hx⟩ := hlarge
  obtain ⟨asked, hblock⟩ := h p.span x hx
  have htotal := Heap.largeTotal_toNat asked
  rw [Heap.memopAllocLarge_eq] at hblock
  split_ifs at hblock with hlt
  obtain rfl := Heap.LargeResult.block.inj hblock
  unfold memopUsableSize
  rw [hx]
  dsimp only
  rw [Heap.largeSize_toNat (Nat.le_of_not_lt hlt)]
  omega

omit [DecidableEq ι] in
theorem writeRecords_self (s s' : PoolState ι) (mem : ℕ → UInt8) :
    writeRecords s s' mem mem = mem := by
  funext a
  unfold writeRecords
  exact ite_self _

/-- Room for a mapping of the length that `memop_alloc_large` asks for. -/
def HasRoom (s : PoolState ι) (size : BitVec 64) : Prop :=
  ∃ m, Unmapped s m (largeUnits size) ∧ m + largeUnits size ≤ userChunks

/-- The thread comes to `memop_alloc_large`, with whatever heap `calloc` gives it. -/
theorem realloc_toLarge (hidle : s.pcs i = .idle) (hp : p ∈ s.live) (hsize : size ≠ 0)
    (hclass : memopClassIndex size = none) (hkeep : keepsBlock s p size = false) :
    ∃ answer k t, poolStep s (.realloc i (some p) size answer 0) = some t ∧
      t.gHeap i = some k ∧ t.pcs i = .large size (some p) ∧ t.mappings = s.mappings ∧
      t.chunks.pool = s.chunks.pool ∧ t.header = s.header := by
  simp only [poolStep, if_pos hidle, if_pos hp]
  unfold memopReallocRaw memopAllocRaw getHeap
  simp only [if_neg hsize, hkeep, Bool.false_eq_true, if_false]
  cases hg : s.gHeap i with
  | some k =>
    refine ⟨none, k, { s with live := s.live.erase p }.setPc i (.large size (some p)), ?_, hg,
      Function.update_self .., rfl, rfl, rfl⟩
    simp only [Option.map_some, hclass]
  | none =>
    obtain ⟨k, hk⟩ := Infinite.exists_notMem_finset s.heaps.toFinset
    have hk' : k ∉ s.heaps := fun hmem => hk (List.mem_toFinset.mpr hmem)
    refine ⟨some k, k,
      (heapCreate { s with live := s.live.erase p } i k).setPc i (.large size (some p)), ?_,
      Function.update_self .., Function.update_self .., rfl, rfl, rfl⟩
    simp only [if_neg hk', Option.map_some, hclass]

theorem largeGot_block {mem : Option ℕ} {x : Heap.LargeSpan} (hmem : mem = some m)
    (hblock : Heap.memopAllocLarge size mem.isSome = .block x) :
    ∃ t, largeGot s i k size mem (some p) = some t ∧ t.gHeap = s.gHeap ∧
      t.pcs i = .release p ⟨m, 0⟩ ∧ t.header = Function.update s.header m (.large x) := by
  unfold largeGot
  rw [hblock]
  subst hmem
  exact ⟨_, rfl, rfl, Function.update_self .., rfl⟩

theorem largeStep_mapped (hrounds : Rounds size) (hunits : largeUnits size ≠ 1)
    (hfree : Unmapped s m (largeUnits size)) :
    ∃ t x, largeStep s i k size (some m) (some p) = some t ∧ t.gHeap = s.gHeap ∧
      t.pcs i = .release p ⟨m, 0⟩ ∧ t.header = Function.update s.header m (.large x) := by
  have hblock := Heap.memopAllocLarge_eq size
  have htotal := Heap.largeTotal_toNat size
  have hle : ¬ (Heap.largeTotal size).toNat < 64 := by
    unfold Rounds at hrounds
    omega
  rw [if_neg hle] at hblock
  unfold largeStep
  rw [if_neg hunits]
  dsimp only
  rw [if_pos hfree]
  obtain ⟨t, ht, hgHeap, hpc, hheader⟩ := largeGot_block
    (s := { s with mappings := (m, largeUnits size) :: s.mappings }) (i := i) (k := k) (p := p)
    rfl hblock
  exact ⟨t, _, ht, hgHeap, hpc, hheader⟩

theorem largeUnits_eq (hrounds : Rounds size) :
    largeUnits size = (size.toNat + 65599) / 65536 := by
  have htotal := Heap.largeTotal_toNat size
  unfold Rounds at hrounds
  unfold largeUnits
  rw [BitVec.toNat_udiv, htotal]
  change _ / 65536 = _
  omega

/-- The call goes on until it has copied the old block. -/
theorem realloc_toRelease (hidle : s.pcs i = .idle) (hp : p ∈ s.live) (hsize : size ≠ 0)
    (hclass : memopClassIndex size = none) (hkeep : keepsBlock s p size = false)
    (hrounds : Rounds size) (hunits : largeUnits size ≠ 1)
    (hfree : Unmapped s m (largeUnits size)) (hbound : m + largeUnits size ≤ userChunks) :
    ∃ answer k s₁ s₂ x, poolStep s (.realloc i (some p) size answer 0) = some s₁ ∧
      s₁.pcs i = .large size (some p) ∧ InUserSpace s₁ (.step i (some m) 0) ∧
      poolStep s₁ (.step i (some m) 0) = some s₂ ∧ s₂.gHeap i = some k ∧
      s₂.pcs i = .release p ⟨m, 0⟩ ∧ s₂.header = Function.update s.header m (.large x) := by
  obtain ⟨answer, k, s₁, hs₁, hg₁, hpc₁, hmap₁, hpool₁, hheader₁⟩ :=
    realloc_toLarge hidle hp hsize hclass hkeep
  have hfree₁ : Unmapped s₁ m (largeUnits size) := by
    unfold Unmapped
    rw [hmap₁, hpool₁]
    exact hfree
  obtain ⟨s₂, x, hs₂, hg₂, hpc₂, hheader₂⟩ :=
    largeStep_mapped (i := i) (k := k) (p := p) hrounds hunits hfree₁
  refine ⟨answer, k, s₁, s₂, x, hs₁, hpc₁, ?_, ?_, ?_, hpc₂, ?_⟩
  · intro z hz n hn
    obtain rfl := Option.some.inj hz
    rw [hpc₁] at hn
    have hn' : some (largeUnits size) = some n := (if_neg hunits).symm.trans hn
    obtain rfl := Option.some.inj hn'
    exact hbound
  · simp only [poolStep, hg₁, callStep, hpc₁]
    exact hs₂
  · rw [hg₂]
    exact hg₁
  · rw [hheader₂, hheader₁]

/-- `memop_realloc_raw` after the old block is freed. -/
def movedTo (s : PoolState ι) (i : ι) (p new : Ptr) : PoolState ι :=
  { memopFreeRaw s i p 0 with live := new :: (memopFreeRaw s i p 0).live }.ret i .moved

/-- The run of these steps: the new block gets a copy of the old one. -/
theorem reallocRun_moves {s₁ s₂ : PoolState ι} {answer os : Option ℕ} {new : Ptr}
    (hs₁ : poolStep s (.realloc i (some p) size answer 0) = some s₁)
    (hpc₁ : s₁.pcs i = .large size (some p)) (huser : InUserSpace s₁ (.step i os 0))
    (hs₂ : poolStep s₁ (.step i os 0) = some s₂) (hg₂ : s₂.gHeap i = some k)
    (hpc₂ : s₂.pcs i = .release p new) (mem : ℕ → UInt8) :
    let moved := memcpy mem (s₂.address new) (s₂.address p) (copyLength s₂ p size)
    reallocRun s mem i p size ⟨answer, 0, mem⟩ [⟨os, 0, mem⟩, ⟨none, 0, moved⟩] =
      some (movedTo s₂ i p new, moved) := by
  intro moved
  have hstep₃ : poolStep s₂ (.step i none 0) = some (movedTo s₂ i p new) := by
    simp only [poolStep, hg₂, callStep, hpc₂]
    rfl
  have hcopied₁ : copied s₁ i size mem = mem := by
    unfold copied
    rw [hpc₁]
  have hcopied₂ : copied s₂ i size mem = moved := by
    unfold copied
    rw [hpc₂]
  have hne₁ : s₁.pcs i ≠ .idle := by
    rw [hpc₁]
    exact PoolPc.noConfusion
  have hne₂ : s₂.pcs i ≠ .idle := by
    rw [hpc₂]
    exact PoolPc.noConfusion
  have huser₃ : InUserSpace s₂ (.step i none 0) := by
    intro z hz
    cases hz
  unfold reallocRun
  rw [hs₁]
  dsimp only
  rw [writeRecords_self]
  unfold reallocSteps
  rw [if_neg (not_or.mpr ⟨hne₁, not_not.mpr huser⟩), hs₂]
  dsimp only
  rw [hcopied₁, writeRecords_self]
  unfold reallocSteps
  rw [if_neg (not_or.mpr ⟨hne₂, not_not.mpr huser₃⟩), hstep₃]
  dsimp only
  rw [hcopied₂, writeRecords_self]
  rfl

/-- A copy that stops before a byte does not bring it along. -/
theorem memcpy_stops (mem : ℕ → UInt8) (dst src n : ℕ) (hne : dst ≠ src) (hmem : ∀ a, mem a =
    if a = src + n then 1 else 0) : memcpy mem dst src n (dst + n) ≠ mem (src + n) := by
  have hout : ¬ (dst ≤ dst + n ∧ dst + n < dst + n) := by omega
  have hapart : dst + n ≠ src + n := by omega
  rw [memcpy_of_not_mem _ _ _ _ hout, hmem, hmem, if_neg hapart, if_pos rfl]
  decide

omit [DecidableEq ι] in
theorem address_large {x : Heap.LargeSpan} {q : Ptr} (hq : s.header q.span = .large x) :
    s.address q = q.span * memopSpanSize + memopSpanHeader := by
  unfold PoolState.address
  rw [hq]

theorem uncovered_loses (h : PoolOk s) (hl : LargeWritten s) (hidle : s.pcs i = .idle)
    (hp : p ∈ s.live) (hsize : size ≠ 0) (hrounds : Rounds size) (hold : oldSize ≤ s.usable p)
    (hno : ¬ Covered s p oldSize size) (hroom : HasRoom s size) :
    ∃ mem first rest r new, reallocRun s mem i p size first rest = some r ∧ r.1.pcs i = .idle ∧
      reallocReturned r.1 p = some new ∧
      ∃ n < min oldSize size.toNat, r.2 (r.1.address new + n) ≠ mem (s.address p + n) := by
  obtain ⟨⟨x, hx⟩, hbig, hltSize, hltOld⟩ := hl.uncovered hold hno
  obtain ⟨m, hfree, hbound⟩ := hroom
  obtain ⟨D, hD⟩ := h.stored
  have hclass : memopClassIndex size = none := Heap.memopClassIndex_none (by omega)
  have hkeep : keepsBlock s p size = false := by
    unfold keepsBlock
    rw [hx, hclass]
    exact decide_eq_false fun hle => hno (.inl (by unfold memopUsableSize; rw [hx]; exact hle))
  have hunitsEq := largeUnits_eq hrounds
  have hne : m ≠ p.span := by
    rintro rfl
    exact hD.unmapped_not_inUse (by omega) hfree (.inr ⟨p, hD.shelved.mem (p := none) hp, rfl⟩)
  obtain ⟨answer, k, s₁, s₂, y, hs₁, hpc₁, huser, hs₂, hg₂, hpc₂, hheader₂⟩ :=
    realloc_toRelease hidle hp hsize hclass hkeep hrounds (by omega) hfree hbound
  have hnew₂ : s₂.header m = .large y := by
    rw [hheader₂]
    exact Function.update_self ..
  have hold₂ : s₂.header p.span = .large x := by
    rw [hheader₂, Function.update_of_ne (Ne.symm hne)]
    exact hx
  have hnew₃ : (movedTo s₂ i p ⟨m, 0⟩).header m = .large y :=
    (placeKept_memopFreeRaw s₂ i p 0 m).header.trans hnew₂
  have hcopy : copyLength s₂ p size = (memopUsableSize s p).toNat := by
    have hsame : memopUsableSize s₂ p = memopUsableSize s p := by
      unfold memopUsableSize
      rw [hold₂, hx]
    unfold copyLength
    rw [hsame, if_neg (fun hlt => by rw [BitVec.lt_def] at hlt; omega)]
  let mem : ℕ → UInt8 := fun a => if a = s.address p + (memopUsableSize s p).toNat then 1 else 0
  refine ⟨mem, _, _, _, ⟨m, 0⟩, reallocRun_moves hs₁ hpc₁ huser hs₂ hg₂ hpc₂ mem,
    Function.update_self .., rfl, (memopUsableSize s p).toNat, Nat.lt_min.mpr ⟨hltOld, hltSize⟩, ?_⟩
  have hfrom : s₂.address p = s.address p := (address_large hold₂).trans (address_large hx).symm
  have hto : (movedTo s₂ i p ⟨m, 0⟩).address ⟨m, 0⟩ = s₂.address ⟨m, 0⟩ :=
    (address_large hnew₃).trans (address_large hnew₂).symm
  dsimp only
  rw [hto, hfrom, hcopy]
  apply memcpy_stops _ _ _ _ _ fun _ => rfl
  rw [address_large hnew₂, address_large hx]
  intro he
  dsimp only at he
  exact hne (Nat.eq_of_mul_eq_mul_right (by decide : 0 < memopSpanSize) (by omega))

/-- What the 32-bit size does not cover is lost: with room for a new block there is a run that
returns it with other bytes. -/
theorem realloc_loses (s : PoolState ι) (h : (poolCalls ι).ReachableWhen MapsUserSpace s) (i : ι)
    (p : Ptr) (size : BitVec 64) (oldSize : ℕ) (hidle : s.pcs i = .idle) (hp : p ∈ s.live)
    (hsize : size ≠ 0) (hrounds : Rounds size) (hold : oldSize ≤ s.usable p)
    (hno : ¬ Covered s p oldSize size) (hroom : HasRoom s size) :
    ∃ mem first rest r new, reallocRun s mem i p size first rest = some r ∧
      reallocReturned r.1 p = some new ∧
      ∃ n < min oldSize size.toNat, r.2 (r.1.address new + n) ≠ mem (s.address p + n) := by
  obtain ⟨mem, first, rest, r, new, hr, -, hreturned, hlost⟩ :=
    uncovered_loses (poolOk_run h) (largeWritten_run h) hidle hp hsize hrounds hold hno hroom
  exact ⟨mem, first, rest, r, new, hr, hreturned, hlost⟩

def oneLarge : List (PoolCall Bool) :=
  [.pool (.alloc true 4294967296 (some 100)), .pool (.step true (some 2000000) 0)]

/-- The block of 4 GB is there, and room for one of 8 GB. -/
theorem oneLarge_uncovered :
    ∃ s : MemoryState Bool, (memorySystem Bool).ReachableWhen CallsFit s ∧
      s.pool.pcs true = .idle ∧ ⟨2000000, 0⟩ ∈ s.pool.live ∧
      4294967296 ≤ s.pool.usable ⟨2000000, 0⟩ ∧
      ¬ Covered s.pool ⟨2000000, 0⟩ 4294967296 8589934592 ∧ HasRoom s.pool 8589934592 := by
  have hout : ((memorySystem Bool).execWhen CallsFit (memoryNew Bool fun _ => 0)
      (callLabels oneLarge)).map (fun s => decide (s.pool.pcs true = .idle ∧
        ⟨2000000, 0⟩ ∈ s.pool.live ∧ 4294967296 ≤ s.pool.usable ⟨2000000, 0⟩ ∧
        (memopUsableSize s.pool ⟨2000000, 0⟩).toNat = 65472 ∧
        Unmapped s.pool 10000000 (largeUnits 8589934592))) = some true := by
    decide +kernel
  obtain ⟨s, hrun, hend⟩ := Option.map_eq_some_iff.mp hout
  obtain ⟨hidle, hp, hold, hsize, hroom⟩ := of_decide_eq_true hend
  refine ⟨s, .exec (.init ⟨_, rfl⟩) hrun, hidle, hp, hold, ?_, 10000000, hroom, by decide⟩
  rintro (hle | hle)
  · rw [BitVec.le_def, hsize] at hle
    exact absurd hle (by decide)
  · rw [hsize] at hle
    exact absurd hle (by decide)

theorem realloc_loses_large :
    ∃ s : PoolState Bool, (poolCalls Bool).ReachableWhen MapsUserSpace s ∧
      ∃ mem first rest r new, reallocRun s mem true ⟨2000000, 0⟩ 8589934592 first rest = some r ∧
        reallocReturned r.1 ⟨2000000, 0⟩ = some new ∧
        ∃ n < min 4294967296 8589934592,
          r.2 (r.1.address new + n) ≠ mem (s.address ⟨2000000, 0⟩ + n) := by
  obtain ⟨s, hreach, hidle, hp, hold, hno, hroom⟩ := oneLarge_uncovered
  have hpool : (poolCalls Bool).ReachableWhen MapsUserSpace s.pool := pool_run hreach
  exact ⟨s.pool, hpool, realloc_loses s.pool hpool true ⟨2000000, 0⟩ 8589934592 4294967296 hidle hp
    (by decide) (by decide) hold hno hroom⟩

/-! ### The contract, for every size -/

/-- Every run of the call that returns does as it promises. -/
def KeepsContract (s : PoolState ι) (i : ι) (p : Ptr) (oldSize : ℕ) (size : BitVec 64) : Prop :=
  ∀ mem first rest r, reallocRun s mem i p size first rest = some r → r.1.pcs i = .idle →
    ReallocContract s r.1 mem r.2 p oldSize size

theorem keepsContract_of_covered (h : PoolOk s) (hl : LargeWritten s) (hidle : s.pcs i = .idle)
    (hp : p ∈ s.live) (hsize : size ≠ 0) (hrounds : Rounds size) (hold : oldSize ≤ s.usable p)
    (hcovered : Covered s p oldSize size) : KeepsContract s i p oldSize size := by
  intro mem first rest r hr hend
  rcases h.reallocRun_goesWell hl hidle hp hsize hold hrounds hr with hreplacing | ⟨-, hcontract⟩
  · exact absurd hend hreplacing.not_idle
  · exact hcontract hcovered

theorem covered_of_keepsContract (h : PoolOk s) (hl : LargeWritten s) (hidle : s.pcs i = .idle)
    (hp : p ∈ s.live) (hsize : size ≠ 0) (hrounds : Rounds size) (hold : oldSize ≤ s.usable p)
    (hroom : HasRoom s size) (hkeeps : KeepsContract s i p oldSize size) :
    Covered s p oldSize size := by
  by_contra hno
  obtain ⟨mem, first, rest, r, new, hr, hend, hreturned, n, hn, hlost⟩ :=
    uncovered_loses h hl hidle hp hsize hrounds hold hno hroom
  obtain ⟨-, -, hbytes, -⟩ := (hkeeps mem first rest r hr hend).returned new hreturned
  exact hlost (hbytes n hn)

/-- What every step of the pool keeps is kept by a call. -/
theorem reallocRun_invariant {P : PoolState ι → Prop} (hstep : ∀ s l s', P s → InUserSpace s l →
    poolStep s l = some s' → P s') (h : P s) {first : StepInput} {rest : List StepInput}
    {r : PoolState ι × (ℕ → UInt8)} (hr : reallocRun s mem i p size first rest = some r) :
    P r.1 := by
  have hsteps : ∀ (rest : List StepInput) (s : PoolState ι) (mem : ℕ → UInt8), P s →
      reallocSteps i size rest s mem = some r → P r.1 := by
    intro rest
    induction rest with
    | nil =>
      intro s mem h hr
      rw [← Option.some.inj hr]
      exact h
    | cons x rest ih =>
      intro s mem h hr
      unfold reallocSteps at hr
      split_ifs at hr with hno
      split at hr
      · cases hr
      · rename_i s' hs'
        exact ih s' _ (hstep s _ s' h (not_not.mp (not_or.mp hno).2) hs') hr
  unfold reallocRun at hr
  split at hr
  · cases hr
  · rename_i s' hs'
    exact hsteps rest s' _ (hstep s _ s' h (fun x hx => by cases hx) hs') hr

/-- No block is as long as a size whose rounding wraps. -/
theorem unmet_of_wraps (h : PoolOk s) (huser : InUser s) (hrounds : ¬ Rounds size)
    {first : StepInput} {rest : List StepInput} {r : PoolState ι × (ℕ → UInt8)}
    (hr : reallocRun s mem i p size first rest = some r)
    (hcontract : ReallocContract s r.1 mem r.2 p oldSize size) :
    reallocReturned r.1 p = none := by
  have hend : PoolOk r.1 ∧ InUser r.1 :=
    reallocRun_invariant (P := fun s => PoolOk s ∧ InUser s)
      (fun _ _ _ h hl hs => ⟨h.1.step hl hs, h.2.step hl hs⟩) ⟨h, huser⟩ hr
  cases hreturned : reallocReturned r.1 p with
  | none => rfl
  | some new =>
    obtain ⟨hlive, hsize, -⟩ := hcontract.returned new hreturned
    have hle : r.1.usable new ≤ maxBlock := hend.1.usable_le hend.2 (r := none) hlive
    unfold maxBlock at hle
    unfold Rounds at hrounds
    omega

/-- The contract of `memop_realloc_raw` and `memop_realloc`, of a block in any state that is reached
by calls that fit: for a size that rounds up without wrapping each call ends, and does as it promises
if the 32-bit size covers what is to be preserved. With room for a mapping that is the only case. For
a size that wraps no block that is returned is long enough. -/
theorem realloc_contract (s : MemoryState ι) (h : (memorySystem ι).ReachableWhen CallsFit s) (i : ι)
    (p : Ptr) (size : BitVec 64) (oldSize : ℕ) (hidle : s.pool.pcs i = .idle)
    (hp : p ∈ s.pool.live) (hsize : size ≠ 0) (hold : oldSize ≤ s.pool.usable p) :
    (Rounds size → ReallocEnds s.pool i p size ∧
      (Covered s.pool p oldSize size → KeepsContract s.pool i p oldSize size) ∧
      (HasRoom s.pool size → KeepsContract s.pool i p oldSize size →
        Covered s.pool p oldSize size)) ∧
    (¬ Rounds size → ∀ mem first rest r, reallocRun s.pool mem i p size first rest = some r →
      ReallocContract s.pool r.1 mem r.2 p oldSize size → reallocReturned r.1 p = none) := by
  have hfit := fitting_run h
  constructor
  · intro hrounds
    refine ⟨hfit.ok.reallocEnds hfit.large hidle hp hsize hrounds, ?_, ?_⟩
    · exact keepsContract_of_covered hfit.ok hfit.large hidle hp hsize hrounds hold
    · exact covered_of_keepsContract hfit.ok hfit.large hidle hp hsize hrounds hold
  · exact fun hrounds mem first rest r => unmet_of_wraps hfit.ok (inUser_run (pool_run h)) hrounds

theorem realloc_contract_grows :
    ∃ (s : MemoryState Bool) (r : PoolState Bool × (ℕ → UInt8)),
      (memorySystem Bool).ReachableWhen CallsFit s ∧ r.1.live = [⟨322, 0⟩] ∧
      reallocRun s.pool UInt8.ofNat true ⟨321, 0⟩ 3000 refusedStep [refusedStep, refusedStep] =
        some r ∧
      ReallocEnds s.pool true ⟨321, 0⟩ 3000 ∧ KeepsContract s.pool true ⟨321, 0⟩ 16 3000 := by
  obtain ⟨s, r, hreach, hr, hidle, hp, hold, hcovered, -, hlive⟩ := oneSmall_grows
  obtain ⟨hrounds, -⟩ := realloc_contract s hreach true ⟨321, 0⟩ 3000 16 hidle hp (by decide) hold
  obtain ⟨hends, hkeeps, -⟩ := hrounds (by decide)
  exact ⟨s, r, hreach, hlive, hr, hends, hkeeps (.inr hcovered)⟩

/-- A block of 4 GB that is to grow to 8 GB. -/
theorem realloc_contract_lost :
    ∃ s : MemoryState Bool, (memorySystem Bool).ReachableWhen CallsFit s ∧
      s.pool.pcs true = .idle ∧ ⟨2000000, 0⟩ ∈ s.pool.live ∧
      4294967296 ≤ s.pool.usable ⟨2000000, 0⟩ ∧
      ¬ KeepsContract s.pool true ⟨2000000, 0⟩ 4294967296 8589934592 := by
  obtain ⟨s, hreach, hidle, hp, hold, hno, hroom⟩ := oneLarge_uncovered
  have hfit := fitting_run hreach
  refine ⟨s, hreach, hidle, hp, hold, fun hkeeps => hno ?_⟩
  exact covered_of_keepsContract hfit.ok hfit.large hidle hp (by decide) (by decide) hold hroom
    hkeeps

end
end Xplatbase.MemoryPool
