import Xplatbase.MemoryPool.Realloc

/-! A call of `memop_realloc_raw` comes to its end, and is never stuck on the way. -/
namespace Xplatbase.MemoryPool
open Xplatbase.Lib Xplatbase.Memory

variable {ι : Type*}

/-- A bound on the steps of `chunk_acquire` that are left. -/
def acquireBound : ChunkPc → ℕ
  | .idle => 2
  | .mapping => 1
  | _ => 0

/-- A bound on the steps that are left of a `memop_realloc_raw` of thread `i`, which has heap `k`. -/
def callBound (s : PoolState ι) (i : ι) (k : ℕ) : ℕ :=
  match s.pcs i with
  | .refill _ => 3 * Heap.refillBound (s.heap k).lists + acquireBound (s.chunks.pcs i) + 2
  | .large _ _ => acquireBound (s.chunks.pcs i) + 2
  | .release _ _ => 1
  | _ => 0

section
variable [DecidableEq ι] {s₀ s s' t : PoolState ι} {mem₀ mem mem' : ℕ → UInt8} {i : ι} {k : ℕ}
  {p : Ptr} {size : BitVec 64} {old : Option Ptr} {os : Option ℕ} {oldSize : ℕ}

/-! ### The end -/

theorem poolAcquire_bound (hs : poolAcquire s i os = some (t, none)) :
    t.pcs = s.pcs ∧ t.heap = s.heap ∧ t.gHeap = s.gHeap ∧
      acquireBound (t.chunks.pcs i) < acquireBound (s.chunks.pcs i) := by
  obtain ⟨chunks, rfl, hstep, -⟩ := poolAcquire_cases hs
  refine ⟨rfl, rfl, rfl, ?_⟩
  unfold acquireStep at hstep
  dsimp only
  cases hpc : s.chunks.pcs i with
  | idle =>
    rw [hpc] at hstep
    obtain ⟨rfl, hnone⟩ := Prod.mk.inj (Option.some.inj hstep)
    split_ifs at hnone with hmapping
    rw [hmapping]
    exact Nat.lt_succ_self 1
  | mapping =>
    rw [hpc] at hstep
    cases os with
    | none => cases hstep
    | some b =>
      dsimp only at hstep
      split_ifs at hstep
      obtain ⟨rfl, -⟩ := Prod.mk.inj (Option.some.inj hstep)
      have hlinking : (segOsAlloc s.chunks i b).pcs i = .linking b := Function.update_self ..
      rw [hlinking]
      exact Nat.one_pos
  | linking b =>
    rw [hpc] at hstep
    cases hstep
  | ending =>
    rw [hpc] at hstep
    cases hstep
  | draining l =>
    rw [hpc] at hstep
    cases hstep

omit [DecidableEq ι] in
theorem callBound_idle (hpc : s.pcs i = .idle) : callBound s i k = 0 := by
  unfold callBound
  rw [hpc]

theorem callBound_allocated (q : Ptr) : callBound (allocated s i k q (some p)) i k = 1 := by
  have hpc : (allocated s i k q (some p)).pcs i = .release p q := Function.update_self ..
  unfold callBound
  rw [hpc]

theorem callBound_allocFailed : callBound (allocFailed s i old) i k = 0 :=
  callBound_idle (Function.update_self ..)

theorem callBound_afterAlloc (lists : Heap.MemHeap) :
    (afterAlloc s i k lists (some p)).gHeap = s.gHeap ∧
      callBound (afterAlloc s i k lists (some p)) i k ≤
        3 * Heap.refillBound lists + acquireBound (s.chunks.pcs i) + 2 := by
  unfold afterAlloc
  dsimp only
  split_ifs
  · split
    · rw [callBound_allocated]
      exact ⟨rfl, by omega⟩
    · rw [callBound_allocFailed]
      exact ⟨rfl, Nat.zero_le _⟩
  · refine ⟨rfl, ?_⟩
    have hpc : ((s.setLists k lists).setPc i (.refill (some p))).pcs i = .refill (some p) :=
      Function.update_self ..
    have hlists : (((s.setLists k lists).setPc i (.refill (some p))).heap k).lists = lists :=
      setLists_self s k lists
    unfold callBound
    rw [hpc]
    dsimp only
    rw [hlists]
    exact Nat.le_refl _

theorem PoolOk.refillStep_bound (h : PoolOk s) (hg : s.gHeap i = some k)
    (hpc : s.pcs i = .refill (some p)) (hs : MemoryPool.refillStep s i k os (some p) = some s') :
    s'.gHeap = s.gHeap ∧ callBound s' i k < callBound s i k := by
  have hst := h.lanes.stands hg
  rw [hpc] at hst
  obtain ⟨-, -, hi⟩ := hst
  have hbound : callBound s i k =
      3 * Heap.refillBound (s.heap k).lists + acquireBound (s.chunks.pcs i) + 2 := by
    unfold callBound
    rw [hpc]
  have hgot {u : PoolState ι} {chunk : Option ℕ} {lists : Heap.MemHeap}
      (hlists : Heap.memopRefill (s.heap k).lists chunk = some lists)
      (hidle : u.chunks.pcs i = .idle) (hgHeap : u.gHeap = s.gHeap) :
      (afterAlloc u i k lists (some p)).gHeap = s.gHeap ∧
        callBound (afterAlloc u i k lists (some p)) i k < callBound s i k := by
    have hlt := hi.refillBound_lt hlists
    refine ⟨(callBound_afterAlloc lists).1.trans hgHeap,
      Nat.lt_of_le_of_lt (callBound_afterAlloc lists).2 ?_⟩
    rw [hidle, hbound]
    change 3 * Heap.refillBound lists + 2 + 2 < _
    omega
  cases refillStep_cases hs with
  | spans lists _ hlists =>
    have hlt := hi.refillBound_lt hlists
    obtain ⟨hgHeap, hle⟩ := callBound_afterAlloc (s := s) (i := i) (k := k) (p := p) lists
    exact ⟨hgHeap, by omega⟩
  | acquires c chunks _ hacq =>
    obtain ⟨hpcs, hheap, hgHeap, hlt⟩ := poolAcquire_bound hacq
    refine ⟨hgHeap, ?_⟩
    rw [hbound]
    unfold callBound
    rw [hpcs, hpc, hheap]
    dsimp only
    dsimp only at hlt
    omega
  | refused c chunks lists _ hacq hlists =>
    obtain ⟨D, hmid⟩ := h.mid i
    obtain ⟨-, hacq', -⟩ := hmid.poolAcquire hacq
    exact hgot hlists hacq'.2 rfl
  | creates c m chunks _ hacq hlists =>
    obtain ⟨D, hmid⟩ := h.mid i
    obtain ⟨-, hacq', -⟩ := hmid.poolAcquire hacq
    exact hgot hlists hacq'.2 rfl

theorem callBound_largeGiven (m : ℕ) (x : Heap.LargeSpan) :
    callBound (largeGiven s i k m x (some p)) i k ≤ 1 := by
  unfold largeGiven
  rw [callBound_allocated]

theorem largeStep_bound (hpc : s.pcs i = .large size (some p))
    (hs : largeStep s i k size os (some p) = some s') :
    s'.gHeap = s.gHeap ∧ callBound s' i k < callBound s i k := by
  have hbound : callBound s i k = acquireBound (s.chunks.pcs i) + 2 := by
    unfold callBound
    rw [hpc]
  have hfailed (u : PoolState ι) : callBound (allocFailed u i (some p)) i k < callBound s i k := by
    rw [callBound_allocFailed]
    omega
  have hgiven (u : PoolState ι) (m : ℕ) (x : Heap.LargeSpan) :
      callBound (largeGiven u i k m x (some p)) i k < callBound s i k := by
    have hle := callBound_largeGiven (s := u) (i := i) (k := k) (p := p) m x
    omega
  cases largeStep_cases hs with
  | acquires chunks _ hacq =>
    obtain ⟨hpcs, -, hgHeap, hlt⟩ := poolAcquire_bound hacq
    refine ⟨hgHeap, ?_⟩
    rw [hbound]
    unfold callBound
    rw [hpcs, hpc]
    dsimp only
    dsimp only at hlt
    omega
  | noChunk chunks => exact ⟨rfl, hfailed _⟩
  | chunk m x chunks => exact ⟨rfl, hgiven _ m x⟩
  | noMapping => exact ⟨rfl, hfailed _⟩
  | mapping m x => exact ⟨rfl, hgiven _ m x⟩

omit [DecidableEq ι] in
theorem PoolOk.heap_of_call (h : PoolOk s) (hne : s.pcs i ≠ .idle) : ∃ k, s.gHeap i = some k := by
  cases hg : s.gHeap i with
  | none => exact absurd ((lane_none hg).mp (h.lanes.lane i)).1 hne
  | some k => exact ⟨k, rfl⟩

omit [DecidableEq ι] in
theorem Replacing.not_idle (h : Replacing s₀ mem₀ i p size s mem) : s.pcs i ≠ .idle := by
  intro hidle
  rcases h.stage with hat | ⟨new, hpc, -⟩
  · cases hat with
    | large hpc _ =>
      rw [hidle] at hpc
      cases hpc
    | refill k c hpc _ _ _ =>
      rw [hidle] at hpc
      cases hpc
  · rw [hidle] at hpc
    cases hpc

theorem memopFreeRaw_gHeap (s : PoolState ι) (i : ι) (p : Ptr) (now : BitVec 64) :
    (memopFreeRaw s i p now).gHeap = s.gHeap := by
  unfold memopFreeRaw
  cases s.header p.span with
  | large x =>
    have hcount := (countFree_rest s i).2
    dsimp only
    split_ifs
    · exact hcount
    · exact hcount
  | small k =>
    dsimp only
    split_ifs
    · exact (countFree_rest _ i).2
    · exact (countFree_rest _ i).2
    · exact (countRemoteFree_rest _ i).2

theorem Replacing.bound_lt (h : Replacing s₀ mem₀ i p size s mem) (hg : s.gHeap i = some k)
    {now : BitVec 64} (hs : poolStep s (.step i os now) = some s') :
    s'.gHeap = s.gHeap ∧ callBound s' i k < callBound s i k := by
  simp only [poolStep, hg] at hs
  unfold callStep at hs
  rcases h.stage with hat | ⟨new, hpc, -⟩
  · cases hat with
    | large hpc _ =>
      rw [hpc] at hs
      exact largeStep_bound hpc hs
    | refill k' c hpc _ _ _ =>
      rw [hpc] at hs
      exact h.ok.refillStep_bound hg hpc hs
  · rw [hpc] at hs
    have hbound : callBound s i k = 1 := by
      unfold callBound
      rw [hpc]
    rw [hbound, ← Option.some.inj hs]
    constructor
    · exact memopFreeRaw_gHeap s i p now
    · rw [callBound_idle (Function.update_self ..)]
      exact Nat.one_pos

theorem GoesWell.length_le (hp : p ∈ s₀.live) (hsize : size ≠ 0) (hold : oldSize ≤ s₀.usable p)
    (hrounds : Rounds size) (rest : List StepInput)
    (h : GoesWell s₀ mem₀ i p oldSize size s mem) (hg : s.gHeap i = some k) {r}
    (hs : reallocSteps i size rest s mem = some r) : rest.length ≤ callBound s i k := by
  induction rest generalizing s mem with
  | nil => exact Nat.zero_le _
  | cons x rest ih =>
    unfold reallocSteps at hs
    split_ifs at hs with hno
    obtain ⟨hne, huser⟩ := not_or.mp hno
    split at hs
    · cases hs
    · rename_i t ht
      rcases h with hreplacing | ⟨hidle, -⟩
      · obtain ⟨hgHeap, hlt⟩ := hreplacing.bound_lt hg ht
        have hwell := hreplacing.step hp hsize hold hrounds (not_not.mp huser) ht
        have hle := ih hwell (hgHeap ▸ hg) hs
        rw [List.length_cons]
        omega
      · exact absurd hidle hne

/-! ### The way there -/

theorem poolAcquire_refused (hat : Acquiring (s.chunks.pcs i)) :
    ∃ r, poolAcquire s i none = some r := by
  have hstep : ∃ r, acquireStep s.chunks i none = some r := by
    unfold acquireStep
    rcases hat with hpc | hpc | ⟨b, hpc⟩
    · rw [hpc]
      exact ⟨_, rfl⟩
    · rw [hpc]
      exact ⟨_, rfl⟩
    · rw [hpc]
      exact ⟨_, rfl⟩
  obtain ⟨⟨chunks, chunk⟩, hstep⟩ := hstep
  refine ⟨({ s with chunks := chunks }, chunk), ?_⟩
  unfold poolAcquire
  rw [hstep]
  dsimp only
  split
  · contradiction
  · rfl

theorem largeGot_some (hrounds : Rounds size) (mem : Option ℕ) :
    ∃ s', largeGot s i k size mem old = some s' := by
  unfold largeGot
  cases mem with
  | none => exact ⟨_, rfl⟩
  | some m =>
    have htotal := Heap.largeTotal_toNat size
    have hblock := Heap.memopAllocLarge_eq size
    unfold Rounds at hrounds
    rw [if_neg (by omega)] at hblock
    rw [Option.isSome_some, hblock]
    exact ⟨_, rfl⟩

theorem Replacing.step_refused (h : Replacing s₀ mem₀ i p size s mem) (hrounds : Rounds size)
    (now : BitVec 64) : ∃ s', poolStep s (.step i none now) = some s' := by
  obtain ⟨k, hg⟩ := h.ok.heap_of_call h.not_idle
  have hst := h.ok.lanes.stands hg
  simp only [poolStep, hg]
  unfold callStep
  rcases h.stage with hat | ⟨new, hpc, -⟩
  · cases hat with
    | large hpc _ =>
      rw [hpc] at hst ⊢
      obtain ⟨hcpc, -⟩ := hst
      dsimp only
      unfold largeStep
      split_ifs with hunit
      · have hacq : Acquiring (s.chunks.pcs i) := by
          rcases hcpc with hidle | ⟨-, hacq⟩
          · exact .inl hidle
          · exact hacq
        obtain ⟨⟨t, r⟩, hr⟩ := poolAcquire_refused hacq
        rw [hr]
        cases r with
        | none => exact ⟨_, rfl⟩
        | some m => exact largeGot_some hrounds m
      · exact largeGot_some hrounds none
    | refill k' c hpc _ _ _ =>
      rw [hpc] at hst ⊢
      obtain ⟨hcpc, hne, -⟩ := hst
      dsimp only
      unfold refillStep
      cases hat : (s.heap k).lists.pc with
      | idle => exact absurd hat hne
      | drain c site a =>
        unfold Heap.memopRefill
        rw [hat]
        exact ⟨_, rfl⟩
      | take c site a =>
        unfold Heap.memopRefill
        rw [hat]
        exact ⟨_, rfl⟩
      | create c =>
        have hacq : Acquiring (s.chunks.pcs i) := by
          rcases hcpc with hidle | ⟨-, hacq⟩
          · exact .inl hidle
          · exact hacq
        obtain ⟨⟨t, r⟩, hr⟩ := poolAcquire_refused hacq
        obtain ⟨D, hmid⟩ := h.ok.mid i
        obtain ⟨chunks, rfl, -⟩ := poolAcquire_cases hr
        obtain ⟨-, -, hnew⟩ := hmid.poolAcquire hr
        rw [hr]
        cases r with
        | none => exact ⟨_, rfl⟩
        | some chunk =>
          dsimp only
          unfold Heap.memopRefill
          rw [hat]
          cases chunk with
          | none => exact ⟨_, rfl⟩
          | some m =>
            have hfree : m ∉ (s.heap k).lists.owned := fun hm => hnew m rfl (.inl ⟨k, hm⟩)
            dsimp only
            rw [if_neg hfree]
            exact ⟨_, rfl⟩
  · rw [hpc]
    exact ⟨_, rfl⟩

theorem reallocSteps_append (rest : List StepInput) (x : StepInput) (s : PoolState ι)
    (mem : ℕ → UInt8) : reallocSteps i size (rest ++ [x]) s mem =
      (reallocSteps i size rest s mem).bind fun r => reallocSteps i size [x] r.1 r.2 := by
  induction rest generalizing s mem with
  | nil => rfl
  | cons y rest ih =>
    rw [List.cons_append]
    unfold reallocSteps
    split_ifs
    · rfl
    · split
      · rfl
      · exact ih ..

structure ReallocEnds (s : PoolState ι) (i : ι) (p : Ptr) (size : BitVec 64) : Prop where
  bound : ∀ first, ∃ n, ∀ mem rest r,
    reallocRun s mem i p size first rest = some r → rest.length ≤ n
  begins : ∀ first mem, first.answer = none → ∃ r, reallocRun s mem i p size first [] = some r
  goesOn : ∀ first mem rest r, reallocRun s mem i p size first rest = some r →
    r.1.pcs i ≠ .idle → ∀ x : StepInput, x.answer = none →
      ∃ r', reallocRun s mem i p size first (rest ++ [x]) = some r'

theorem reallocBegins_refused (hidle : s.pcs i = .idle) (hp : p ∈ s.live) (size : BitVec 64)
    (now : BitVec 64) : ∃ s', poolStep s (.realloc i (some p) size none now) = some s' := by
  simp only [poolStep, if_pos hidle, if_pos hp]
  unfold memopReallocRaw
  split_ifs with hzero
  · exact ⟨_, rfl⟩
  · exact ⟨_, rfl⟩
  · unfold memopAllocRaw getHeap
    rw [if_neg hzero]
    dsimp only
    cases s.gHeap i with
    | none => exact ⟨_, rfl⟩
    | some k => exact ⟨_, rfl⟩

theorem PoolOk.reallocEnds (h : PoolOk s) (hl : LargeWritten s) (hidle : s.pcs i = .idle)
    (hp : p ∈ s.live) (hsize : size ≠ 0) (hrounds : Rounds size) : ReallocEnds s i p size where
  bound := by
    intro first
    cases hs : poolStep s (.realloc i (some p) size first.answer first.now) with
    | none =>
      refine ⟨0, ?_⟩
      intro mem rest r hr
      unfold reallocRun at hr
      rw [hs] at hr
      cases hr
    | some s₁ =>
      refine ⟨callBound s₁ i ((s₁.gHeap i).getD 0), ?_⟩
      intro mem rest r hr
      unfold reallocRun at hr
      rw [hs] at hr
      have hwell : GoesWell s mem i p 0 size s₁ (writeRecords s s₁ first.junk mem) :=
        h.reallocBegins hl hidle hp hsize (Nat.zero_le _) hrounds hs
      cases hg : s₁.gHeap i with
      | some k => exact hwell.length_le hp hsize (Nat.zero_le _) hrounds rest hg hr
      | none =>
        cases rest with
        | nil => exact Nat.zero_le _
        | cons x rest =>
          unfold reallocSteps at hr
          dsimp only at hr
          split_ifs at hr with hno
          rcases hwell with hreplacing | ⟨hidle₁, -⟩
          · obtain ⟨k, hk⟩ := hreplacing.ok.heap_of_call hreplacing.not_idle
            rw [hg] at hk
            cases hk
          · exact absurd (Or.inl hidle₁) hno
  begins := by
    intro first mem hnone
    obtain ⟨s', hs'⟩ := reallocBegins_refused hidle hp size first.now
    unfold reallocRun
    rw [hnone, hs']
    exact ⟨_, rfl⟩
  goesOn := by
    intro first mem rest r hr hne x hx
    have hwell := h.reallocRun_goesWell hl hidle hp hsize (Nat.zero_le _) hrounds hr
    rcases hwell with hreplacing | ⟨hidle', -⟩
    · obtain ⟨s', hs'⟩ := hreplacing.step_refused hrounds x.now
      have huser : InUserSpace r.1 (.step i x.answer x.now) := by
        rw [hx]
        intro y hy
        cases hy
      have hlast : ∃ r', reallocSteps i size [x] r.1 r.2 = some r' := by
        refine ⟨(s', writeRecords r.1 s' x.junk (copied r.1 i size r.2)), ?_⟩
        unfold reallocSteps
        rw [if_neg (not_or.mpr ⟨hne, not_not.mpr huser⟩), hx, hs']
        rfl
      obtain ⟨r', hr'⟩ := hlast
      refine ⟨r', ?_⟩
      unfold reallocRun at hr ⊢
      cases hs : poolStep s (.realloc i (some p) size first.answer first.now) with
      | none =>
        rw [hs] at hr
        cases hr
      | some s₁ =>
        rw [hs] at hr
        dsimp only at hr ⊢
        rw [reallocSteps_append, hr]
        exact hr'
    · exact absurd hidle' hne

end
end Xplatbase.MemoryPool
