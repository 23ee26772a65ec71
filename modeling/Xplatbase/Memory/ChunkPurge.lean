import Xplatbase.Memory.ChunkConservation

/-! The automatic purge: which segments it returns, by how much it shrinks the global cache, and
where it stops. A history beside the state tells since when a segment is idle. -/
namespace Xplatbase.Memory
open Xplatbase.Lib

/-! ### The two passes -/

/-- The condition of the first pass for one segment. -/
def Eligible (header : ℕ → MemSegment) (now : BitVec 64) (b : ℕ) : Prop :=
  (header b).live = 0 ∧ memopPurgeDelayMs ≤ now - (header b).idleSince

def carvedChunks (header : ℕ → MemSegment) (segs : List ℕ) : ℤ :=
  (segs.map fun b => ((header b).nextChunk : ℤ) - 1).sum

instance (header : ℕ → MemSegment) (now : BitVec 64) (b : ℕ) : Decidable (Eligible header now b) :=
  inferInstanceAs (Decidable (_ ∧ _))

theorem purgeDoom_cons (header : ℕ → MemSegment) (now : BitVec 64) (target : ℤ) (b : ℕ)
    (rest : List ℕ) :
    purgeDoom header now false target (b :: rest) =
      if 0 < target then
        if Eligible header now b then
          let r := purgeDoom header now false (target - ((header b).nextChunk - 1)) rest
          (r.1, b :: r.2)
        else
          let r := purgeDoom header now false target rest
          (b :: r.1, r.2)
      else (b :: rest, []) := by
  simp only [purgeDoom, Eligible, Bool.false_eq_true, false_or, if_false]
  rfl

section passes
variable {header : ℕ → MemSegment} {now : BitVec 64} {target : ℤ} {segs : List ℕ}

theorem purgeDoom_eligible :
    ∀ b ∈ (purgeDoom header now false target segs).2, Eligible header now b := by
  induction segs generalizing target with
  | nil =>
    intro b hb
    cases hb
  | cons b rest ih =>
    rw [purgeDoom_cons]
    split_ifs with _ hb
    · rintro c (_ | ⟨_, hc⟩)
      · exact hb
      · exact ih c hc
    · exact ih
    · intro c hc
      cases hc

/-- The first pass stops with a rest of the target only behind the last segment. -/
theorem purgeDoom_kept
    (hrest : 0 < target - carvedChunks header (purgeDoom header now false target segs).2) :
    ∀ b ∈ (purgeDoom header now false target segs).1, ¬Eligible header now b := by
  induction segs generalizing target with
  | nil =>
    intro b hb
    cases hb
  | cons b rest ih =>
    rw [purgeDoom_cons] at hrest ⊢
    split_ifs at hrest ⊢ with hgo hb
    · apply ih
      simp only [carvedChunks, List.map_cons, List.sum_cons] at hrest ⊢
      omega
    · rintro c (_ | ⟨_, hc⟩)
      · exact hb
      · exact ih hrest c hc
    · simp only [carvedChunks, List.map_nil, List.sum_nil] at hrest
      omega

variable (now) in
/-- The last segment may take more than was left of the target, by less than its size. -/
theorem purgeDoom_rest (hsize : ∀ b ∈ segs, (header b).nextChunk ≤ memopSegSpans)
    (htarget : -(memopSegSpans - 2 : ℤ) ≤ target) :
    -(memopSegSpans - 2 : ℤ) ≤
      target - carvedChunks header (purgeDoom header now false target segs).2 := by
  induction segs generalizing target with
  | nil =>
    simp only [purgeDoom, carvedChunks, List.map_nil, List.sum_nil]
    omega
  | cons b rest ih =>
    have hrest : ∀ c ∈ rest, (header c).nextChunk ≤ memopSegSpans :=
      fun c hc => hsize c (List.mem_cons_of_mem b hc)
    rw [purgeDoom_cons]
    split_ifs with hgo hb
    · have hb' := hsize b List.mem_cons_self
      have hnext := ih hrest
        (by omega : -(memopSegSpans - 2 : ℤ) ≤ target - (((header b).nextChunk : ℤ) - 1))
      simp only [carvedChunks, List.map_cons, List.sum_cons] at hnext ⊢
      omega
    · exact ih hrest htarget
    · simp only [carvedChunks, List.map_nil, List.sum_nil]
      omega

end passes

theorem length_filter_cons {b : ℕ} {doomed : List ℕ} (hb : b ∉ doomed) (cache : List ℕ) :
    (cache.filter (memopSegOf · ∈ b :: doomed)).length =
      (cache.filter (memopSegOf · = b)).length + (cache.filter (memopSegOf · ∈ doomed)).length := by
  induction cache with
  | nil => rfl
  | cons c cache ih =>
    simp only [List.filter_cons, decide_eq_true_eq, List.mem_cons] at ih ⊢
    by_cases hc : memopSegOf c = b
    · have hd : memopSegOf c ∉ doomed := by
        rw [hc]
        exact hb
      rw [if_pos (Or.inl hc), if_pos hc, if_neg hd, List.length_cons, List.length_cons, ih]
      omega
    · by_cases hd : memopSegOf c ∈ doomed
      · rw [if_pos (Or.inr hd), if_neg hc, if_pos hd, List.length_cons, List.length_cons, ih]
        omega
      · rw [if_neg (fun h => h.elim hc hd), if_neg hc, if_neg hd, ih]

namespace PoolInv

variable {P : Type*} {v : P → List ℕ} {global : P} {g g' : MemPool}

/-- An idle segment has all its carved chunks in the global cache. -/
theorem cached_length (h : PoolInv v global g) {b : ℕ} (hb : b ∈ g.mapped)
    (h0 : (g.header b).live = 0) :
    ((g.spanCache.filter (memopSegOf · = b)).length : ℤ) = ((g.header b).nextChunk : ℤ) - 1 := by
  have hnodup : (g.spanCache.filter (memopSegOf · = b)).Nodup := by
    rw [← h.cache]
    exact (h.shelved.nodup global).filter _
  have himage : (g.spanCache.filter (memopSegOf · = b)).toFinset =
      (Finset.Ico 1 (g.header b).nextChunk).image fun k => b * memopSegSpans + k := by
    ext c
    rw [List.mem_toFinset, List.mem_filter, decide_eq_true_eq, Finset.mem_image]
    constructor
    · rintro ⟨hc, rfl⟩
      rw [← h.cache] at hc
      obtain ⟨-, h1, hn⟩ := h.carved hc
      exact ⟨c % memopSegSpans, Finset.mem_Ico.mpr ⟨h1, hn⟩, memopSegOf_mod c⟩
    · rintro ⟨k, hk, rfl⟩
      obtain ⟨h1, hn⟩ := Finset.mem_Ico.mp hk
      have hlt : k < memopSegSpans := lt_of_lt_of_le hn (h.bound b hb).2
      have hseg := memopSegOf_add b k hlt
      refine ⟨?_, hseg⟩
      rw [← h.cache]
      apply h.cached_of_live_eq_zero
      · refine ⟨?_, ?_, ?_⟩
        · rw [hseg]
          exact hb
        · rw [add_mod_memopSegSpans b k hlt]
          exact h1
        · rw [add_mod_memopSegSpans b k hlt, hseg]
          exact hn
      · rw [hseg]
        exact h0
  have h1 := (h.bound b hb).1
  rw [← List.toFinset_card_of_nodup hnodup, himage,
    Finset.card_image_of_injective _ (fun i j hij => Nat.add_left_cancel hij), Nat.card_Ico]
  omega

theorem doomed_length (h : PoolInv v global g) {doomed : List ℕ} (hnodup : doomed.Nodup)
    (hmapped : ∀ b ∈ doomed, b ∈ g.mapped) (hdead : ∀ b ∈ doomed, (g.header b).live = 0) :
    ((g.spanCache.filter (memopSegOf · ∈ doomed)).length : ℤ) = carvedChunks g.header doomed := by
  induction doomed with
  | nil => simp [carvedChunks]
  | cons b doomed ih =>
    obtain ⟨hb, hd⟩ := List.nodup_cons.mp hnodup
    have hrest := ih hd (fun c hc => hmapped c (List.mem_cons_of_mem b hc))
      fun c hc => hdead c (List.mem_cons_of_mem b hc)
    have hone := h.cached_length (hmapped b List.mem_cons_self) (hdead b List.mem_cons_self)
    rw [length_filter_cons hb, Nat.cast_add, hone, hrest]
    rfl

/-- The second pass takes as many chunks as the first subtracted from the target. -/
theorem purge_count (h : PoolInv v global g) {doomed : List ℕ} (hp : Purged g g' doomed) :
    g'.cacheCount = g.cacheCount - carvedChunks g.header doomed := by
  have hall : (g'.segments ++ doomed).Nodup := hp.segments.nodup_iff.mpr h.nodup
  have hdoomed := h.doomed_length (List.nodup_append.mp hall).2.1
    (fun b hb => h.mapped b (hp.segments.subset (List.mem_append_right _ hb))) hp.dead
  have hsplit : (g.spanCache.filter (memopSegOf · ∈ doomed)).length + g'.spanCache.length =
      g.spanCache.length := by
    rw [hp.spanCache]
    have hlen := List.length_eq_length_filter_add (l := g.spanCache) (memopSegOf · ∈ doomed)
    simp only [decide_not] at hlen ⊢
    omega
  have hcount := hp.count
  omega

end PoolInv

/-! ### The automatic call -/

/-- `cache_avg` after an evaluation. -/
def MemPool.nextAvg (g : MemPool) : ℤ :=
  g.cacheAvg + (g.cacheCount - g.cacheAvg).tdiv (2 ^ memopPurgeEwmaShift)

/-- `chunk_release` of `mem` gets through `memop_purge_locked` to `purge_apply_locked`. -/
def PurgeCalled (mem : ℕ) (now : BitVec 64) (g : MemPool) : Prop :=
  (g.header (memopSegOf mem)).live = 0 ∧ ¬now - g.lastPurgeMs < memopPurgePeriodMs ∧
    (g.purging = false → memopPurgeHigh < g.nextAvg) ∧
    (g.purging = true → memopPurgeLow ≤ g.nextAvg) ∧ memopPurgeLow < g.cacheCount

instance (mem : ℕ) (now : BitVec 64) (g : MemPool) : Decidable (PurgeCalled mem now g) :=
  inferInstanceAs (Decidable (_ ∧ _))

theorem memopPurgeLocked_called {mem : ℕ} {now : BitVec 64} {g : MemPool}
    (h : PurgeCalled mem now g) :
    memopPurgeLocked now g = purgeApplyLocked now false (g.cacheCount - memopPurgeLow)
      { g with lastPurgeMs := now, cacheAvg := g.nextAvg, purging := true } := by
  obtain ⟨-, hperiod, hstart, hstop, htarget⟩ := h
  unfold memopPurgeLocked
  rw [if_neg hperiod]
  dsimp only
  rw [if_neg fun hc => hc.2 (hstart hc.1), if_neg fun hc => absurd (hstop hc.1) (not_le.mpr hc.2),
    if_pos (by omega)]
  rfl

/-! ### The time a segment is idle -/

/-- A state with the last reading of the clock, and the reading at which the count of live chunks
of a segment last became zero. -/
structure TimedChunks (ι : Type*) where
  chunks : ChunkState ι
  clock : BitVec 64
  idleFrom : ℕ → BitVec 64

/-- The reading of the clock in a step; `clock` where the step reads none. -/
def ChunkLabel.now {ι : Type*} (clock : BitVec 64) : ChunkLabel ι → BitVec 64
  | .release _ _ now => now
  | .endSpan _ _ now => now
  | .drain _ now => now
  | .purge now => now
  | _ => clock

variable {ι : Type*} [DecidableEq ι]

/-- The clock is monotonic; what it shows when a segment becomes idle is kept. -/
def timedStep (t : TimedChunks ι) (l : ChunkLabel ι) : Option (TimedChunks ι) :=
  if t.clock ≤ l.now t.clock then
    (chunkStep t.chunks l).map fun s =>
      { chunks := s
        clock := l.now t.clock
        idleFrom := fun b =>
          if (t.chunks.pool.header b).live ≠ 0 ∧ (s.pool.header b).live = 0 then l.now t.clock
          else t.idleFrom b }
  else none

def timedSystem (ι : Type*) [DecidableEq ι] : System (TimedChunks ι) (ChunkLabel ι) where
  init := fun t => t = ⟨memopInit ι, 0, fun _ => 0⟩
  step := timedStep

def released (s : ChunkState ι) : ChunkLabel ι → Option ℕ
  | .release i mem _ =>
    if (s.heaps i).active = true ∧ (s.heaps i).localCount < memopHeapCacheMax then none else some mem
  | .endSpan _ mem _ => some mem
  | .drain i _ =>
    match s.pcs i with
    | .draining (mem :: _) => some mem
    | _ => none
  | _ => none

/-- Segment `b` has no live chunk and had none for at least `MEMOP_PURGE_DELAY_MS`. -/
def TimedChunks.Idle (t : TimedChunks ι) (g : MemPool) (b : ℕ) : Prop :=
  (g.header b).live = 0 ∧ (t.idleFrom b).toNat + 500 ≤ t.clock.toNat

variable {s s' : ChunkState ι} {t t' : TimedChunks ι} {l : ChunkLabel ι} {mem : ℕ}

/-- A step puts a chunk on the global cache in one way only. -/
theorem released_spec (clock : BitVec 64) (hs : chunkStep s l = some s')
    (hr : released s l = some mem) :
    (∃ a, a ≠ .spanCache ∧ mem ∈ s.shelf a) ∧
      s'.pool = chunkReleaseLocked mem (l.now clock) s.pool := by
  cases l with
  | release i c now =>
    simp only [released] at hr
    split_ifs at hr with hlocal
    obtain rfl : c = mem := Option.some.inj hr
    simp only [chunkStep] at hs
    split_ifs at hs with hc hact
    · obtain rfl := Option.some.inj hs
      refine ⟨⟨.used, by simp, hc.2⟩, ?_⟩
      unfold chunkRelease
      dsimp only
      rw [if_neg fun hlt => hlocal ⟨hact, hlt⟩]
      rfl
    · obtain rfl := Option.some.inj hs
      exact ⟨⟨.used, by simp, hc.2⟩, rfl⟩
  | endSpan i c now =>
    obtain rfl : c = mem := Option.some.inj hr
    simp only [chunkStep] at hs
    split_ifs at hs with hc
    obtain rfl := Option.some.inj hs
    exact ⟨⟨.used, by simp, hc.2⟩, rfl⟩
  | drain i now =>
    simp only [released] at hr
    simp only [chunkStep] at hs
    cases hpc : s.pcs i with
    | draining rest =>
      cases rest with
      | nil =>
        rw [hpc] at hr
        cases hr
      | cons c rest =>
        rw [hpc] at hr hs
        obtain rfl := Option.some.inj hr
        obtain rfl := Option.some.inj hs
        refine ⟨⟨.transit i, by simp, ?_⟩, rfl⟩
        simp only [ChunkState.shelf, hpc, ChunkPc.transit, List.mem_cons_self]
    | _ =>
      rw [hpc] at hr
      cases hr
  | _ => cases hr

/-- The pool as `memop_purge_locked` finds it. -/
theorem ChunkInv.pushed (h : ChunkInv s) (now : BitVec 64) {a : ChunkPlace ι} (ha : a ≠ .spanCache)
    (hmem : mem ∈ s.shelf a) :
    ∃ v : ChunkPlace ι → List ℕ, PoolInv v .spanCache (chunkToGlobal mem now s.pool) := by
  refine ⟨Function.update (Function.update s.shelf a ((s.shelf a).erase mem)) .spanCache
    (mem :: s.shelf .spanCache), ?_⟩
  apply h.pool.push now hmem ha (Function.update_self ..)
  · rw [Function.update_of_ne ha, Function.update_self]
  · intro p hpa hpg
    rw [Function.update_of_ne hpg, Function.update_of_ne hpa]

theorem header_chunkToGlobal (mem : ℕ) (now : BitVec 64) (g : MemPool)
    (hlive : 1 ≤ (g.header (memopSegOf mem)).live) (b : ℕ) :
    ((chunkToGlobal mem now g).header b).live ≠ 0 ∨
      (chunkToGlobal mem now g).header b = g.header b ∨
      ((g.header b).live ≠ 0 ∧ ((chunkToGlobal mem now g).header b).idleSince = now) := by
  simp only [chunkToGlobal, MemPool.setHeader]
  by_cases hb : b = memopSegOf mem
  · rw [hb, Function.update_self]
    dsimp only
    by_cases hone : (g.header (memopSegOf mem)).live - 1 = 0
    · refine Or.inr (Or.inr ⟨by omega, ?_⟩)
      rw [if_pos (by rw [if_pos (by omega)]; exact hone)]
    · left
      rw [if_pos (by omega)]
      exact hone
  · right
    left
    rw [Function.update_of_ne hb]

theorem header_setHeader_live (g : MemPool) (m : ℕ) (seg : MemSegment) (hseg : seg.live ≠ 0)
    (b : ℕ) :
    ((g.setHeader m seg).header b).live ≠ 0 ∨ (g.setHeader m seg).header b = g.header b := by
  simp only [MemPool.setHeader]
  by_cases hb : b = m
  · left
    rw [hb, Function.update_self]
    exact hseg
  · right
    rw [Function.update_of_ne hb]

theorem header_chunkAcquireLocked {g g' : MemPool} {c : ℕ}
    (hq : chunkAcquireLocked g = some (c, g')) (b : ℕ) :
    (g'.header b).live ≠ 0 ∨ g'.header b = g.header b := by
  unfold chunkAcquireLocked at hq
  split at hq
  · obtain ⟨-, rfl⟩ := Prod.mk.inj (Option.some.inj hq)
    exact header_setHeader_live _ _ _ (Nat.succ_ne_zero _) b
  · split at hq
    · dsimp only at hq
      split_ifs at hq
      obtain ⟨-, rfl⟩ := Prod.mk.inj (Option.some.inj hq)
      exact header_setHeader_live _ _ _ (Nat.succ_ne_zero _) b
    · cases hq

/-- What a step does to the header of a segment without live chunks after it. -/
theorem ChunkInv.header_step (h : ChunkInv s) (clock : BitVec 64) (hs : chunkStep s l = some s')
    (b : ℕ) :
    (s'.pool.header b).live ≠ 0 ∨ s'.pool.header b = s.pool.header b ∨
      ((s.pool.header b).live ≠ 0 ∧ (s'.pool.header b).idleSince = l.now clock) := by
  have hsame : s'.pool.header = s.pool.header → s'.pool.header b = s.pool.header b :=
    fun he => congrFun he b
  cases hr : released s l with
  | some mem =>
    obtain ⟨⟨a, ha, hmem⟩, hpool⟩ := released_spec clock hs hr
    obtain ⟨doomed, hp⟩ := chunkReleaseLocked_purged mem (l.now clock) s.pool
    rw [hpool, hp.header]
    exact header_chunkToGlobal mem _ s.pool (h.pool.live_pos ha hmem) b
  | none =>
    cases l with
    | getHeap i =>
      simp only [chunkStep] at hs
      split_ifs at hs
      obtain rfl := Option.some.inj hs
      exact Or.inr (Or.inl rfl)
    | acquire i =>
      simp only [chunkStep] at hs
      split_ifs at hs
      obtain rfl := Option.some.inj hs
      unfold chunkAcquire
      split
      · exact Or.inr (Or.inl rfl)
      · split
        · rename_i c g hq
          rcases header_chunkAcquireLocked hq b with hlive | hkept
          · exact Or.inl hlive
          · exact Or.inr (Or.inl hkept)
        · exact Or.inr (Or.inl rfl)
    | segOsAlloc i base =>
      simp only [chunkStep] at hs
      split_ifs at hs
      cases base with
      | none =>
        obtain rfl := Option.some.inj hs
        exact Or.inr (Or.inl rfl)
      | some m =>
        dsimp only at hs
        split_ifs at hs
        obtain rfl := Option.some.inj hs
        rcases header_setHeader_live { s.pool with mapped := m :: s.pool.mapped } m ⟨2, 1, 0⟩
          Nat.one_ne_zero b with hlive | hkept
        · exact Or.inl hlive
        · exact Or.inr (Or.inl hkept)
    | link i =>
      simp only [chunkStep] at hs
      split at hs
      · obtain rfl := Option.some.inj hs
        exact Or.inr (Or.inl rfl)
      · cases hs
    | release i c now =>
      simp only [released] at hr
      split_ifs at hr with hlocal
      simp only [chunkStep] at hs
      split_ifs at hs with hc
      · obtain rfl := Option.some.inj hs
        unfold chunkRelease
        dsimp only
        rw [if_pos hlocal.2]
        exact Or.inr (Or.inl rfl)
      · exact absurd hlocal.1 ‹_›
    | endThread i =>
      simp only [chunkStep] at hs
      split_ifs at hs
      obtain rfl := Option.some.inj hs
      exact Or.inr (Or.inl rfl)
    | endSpan i c now => cases hr
    | localToGlobal i =>
      simp only [chunkStep] at hs
      split_ifs at hs
      obtain rfl := Option.some.inj hs
      exact Or.inr (Or.inl rfl)
    | drain i now =>
      simp only [chunkStep] at hs
      split at hs
      · rename_i mem rest hpc
        simp only [released, hpc] at hr
        cases hr
      · obtain rfl := Option.some.inj hs
        exact Or.inr (Or.inl rfl)
      · cases hs
    | purge now =>
      obtain rfl := Option.some.inj hs
      exact Or.inr (Or.inl rfl)

/-- A step of the pool at a later reading is a step with the clock. -/
theorem timedStep_of_chunkStep (hs : chunkStep t.chunks l = some s)
    (hclock : t.clock ≤ l.now t.clock) :
    ∃ t', timedStep t l = some t' ∧ t'.chunks = s ∧ t'.clock = l.now t.clock := by
  unfold timedStep
  rw [if_pos hclock, hs]
  exact ⟨_, rfl, rfl, rfl⟩

/-- A segment without live chunks carries the reading at which it became idle. -/
structure TimedInv (t : TimedChunks ι) : Prop where
  chunks : ChunkInv t.chunks
  idle : ∀ b, (t.chunks.pool.header b).live = 0 →
    (t.chunks.pool.header b).idleSince = t.idleFrom b ∧ t.idleFrom b ≤ t.clock

theorem TimedInv.step (h : TimedInv t) (hs : timedStep t l = some t') :
    TimedInv t' ∧ chunkStep t.chunks l = some t'.chunks ∧ t.clock ≤ t'.clock ∧
      t'.clock = l.now t.clock := by
  unfold timedStep at hs
  split_ifs at hs with hclock
  obtain ⟨s, hstep, rfl⟩ := Option.map_eq_some_iff.mp hs
  refine ⟨⟨h.chunks.step hstep, ?_⟩, hstep, hclock, rfl⟩
  intro b hb
  dsimp only at hb ⊢
  rcases h.chunks.header_step t.clock hstep b with hlive | hsame | ⟨hbefore, hnow⟩
  · exact absurd hb hlive
  · rw [hsame] at hb ⊢
    rw [if_neg fun hc => hc.1 hb]
    obtain ⟨hsince, hle⟩ := h.idle b hb
    exact ⟨hsince, BitVec.le_trans hle hclock⟩
  · rw [if_pos ⟨hbefore, hb⟩]
    exact ⟨hnow, BitVec.le_refl _⟩

theorem timedSystem_inv (h : (timedSystem ι).Reachable t) : TimedInv t := by
  apply h.invariant
  · rintro t rfl
    exact ⟨.init, fun b _ => ⟨rfl, BitVec.le_refl _⟩⟩
  · intro t l t' ht hs
    exact (ht.step hs).1

omit [DecidableEq ι] in
/-- The test of the first pass measures the time a segment is idle. -/
theorem TimedInv.eligible_iff (h : TimedInv t) {g : MemPool}
    (hg : g.header = t.chunks.pool.header) (b : ℕ) : Eligible g.header t.clock b ↔ t.Idle g b := by
  unfold Eligible TimedChunks.Idle
  rw [hg]
  apply and_congr_right
  intro hlive
  obtain ⟨hsince, hle⟩ := h.idle b hlive
  rw [hsince, BitVec.le_def, BitVec.toNat_sub_of_le hle]
  have hle' := BitVec.le_def.mp hle
  have hdelay : memopPurgeDelayMs.toNat = 500 := rfl
  omega

/-- An automatic purge, called in a step that puts chunk `mem` on the global cache: it returns
segments that are idle for long enough, never the one of `mem`; the cache loses their carved
chunks and ends at most a segment below the low mark, and above it only when no idle segment is
left. -/
theorem automaticPurge_bounded (h : (timedSystem ι).Reachable t) (hs : timedStep t l = some t')
    (hr : released t.chunks l = some mem)
    (hcall : PurgeCalled mem (l.now t.clock) (chunkToGlobal mem (l.now t.clock) t.chunks.pool)) :
    ∃ (g : MemPool) (returned : List ℕ),
      g = chunkToGlobal mem (l.now t.clock) t.chunks.pool ∧
      (t'.chunks.pool.segments ++ returned).Perm g.segments ∧
      t'.chunks.pool.mapped = g.mapped.filter (· ∉ returned) ∧
      (∀ b ∈ returned, t'.Idle g b ∧ b ≠ memopSegOf mem) ∧
      t'.chunks.pool.cacheCount = g.cacheCount - carvedChunks g.header returned ∧
      memopPurgeLow - (memopSegSpans - 2) ≤ t'.chunks.pool.cacheCount ∧
      (memopPurgeLow < t'.chunks.pool.cacheCount →
        ∀ b ∈ t'.chunks.pool.segments, ¬t'.Idle g b) := by
  obtain ⟨hinv', hstep, -, hclock⟩ := (timedSystem_inv h).step hs
  have hinv := (timedSystem_inv h).chunks
  obtain ⟨⟨a, ha, hmem⟩, hpool⟩ := released_spec t.clock hstep hr
  rw [← hclock] at hcall hpool ⊢
  obtain ⟨v, hg⟩ := hinv.pushed t'.clock ha hmem
  generalize hgdef : chunkToGlobal mem t'.clock t.chunks.pool = g at hcall hg
  have hresult : t'.chunks.pool = purgeApplyLocked t'.clock false (g.cacheCount - memopPurgeLow)
      { g with lastPurgeMs := t'.clock, cacheAvg := g.nextAvg, purging := true } := by
    rw [hpool]
    unfold chunkReleaseLocked
    dsimp only
    rw [hgdef, if_pos hcall.1, memopPurgeLocked_called hcall]
  have hheader : g.header = t'.chunks.pool.header := by
    rw [hresult]
    rfl
  have hpurged : Purged g t'.chunks.pool
      (purgeDoom g.header t'.clock false (g.cacheCount - memopPurgeLow) g.segments).2 := by
    rw [hresult]
    obtain ⟨hsegs, hd, hc, hn, hm, hh⟩ := purgeApplyLocked_purged t'.clock false
      (g.cacheCount - memopPurgeLow)
      { g with lastPurgeMs := t'.clock, cacheAvg := g.nextAvg, purging := true }
    exact ⟨hsegs, hd, hc, hn, hm, hh⟩
  have hcount := hg.purge_count hpurged
  refine ⟨g, _, rfl, hpurged.segments, hpurged.mapped, ?_, hcount, ?_, ?_⟩
  · intro b hb
    have heligible := purgeDoom_eligible b hb
    refine ⟨(hinv'.eligible_iff hheader b).mp heligible, ?_⟩
    rintro rfl
    have hsince : (g.header (memopSegOf mem)).idleSince = t'.clock := by
      have hlive := hcall.1
      rw [← hgdef] at hlive ⊢
      simp only [chunkToGlobal, MemPool.setHeader, Function.update_self] at hlive ⊢
      rw [if_pos hlive]
    have hdelay := heligible.2
    rw [hsince, BitVec.sub_self] at hdelay
    exact absurd hdelay (by decide)
  · have hrest := purgeDoom_rest t'.clock
      (fun b hb => (hg.bound b (hg.mapped b hb)).2)
      (by have htarget := hcall.2.2.2.2; unfold memopSegSpans; omega :
        -(memopSegSpans - 2 : ℤ) ≤ g.cacheCount - memopPurgeLow)
    omega
  · intro habove b hb hidle
    rw [hresult] at hb
    apply purgeDoom_kept _ b hb
    · exact (hinv'.eligible_iff hheader b).mpr hidle
    · dsimp only
      omega

/-! ### A run with a purge -/

/-- One thread without a heap at time 0, before any evaluation of the purge. -/
structure Early (t : TimedChunks Unit) (pc : ChunkPc) : Prop where
  reach : (timedSystem Unit).Reachable t
  pc : t.chunks.pcs () = pc
  heap : (t.chunks.heaps ()).active = false
  clock : t.clock = 0
  last : t.chunks.pool.lastPurgeMs = 0
  avg : t.chunks.pool.cacheAvg = 0
  purging : t.chunks.pool.purging = false

namespace Early

variable {t : TimedChunks Unit} {s : ChunkState Unit} {l : ChunkLabel Unit} {pc : ChunkPc} {c : ℕ}

/-- A step at time 0 that leaves the heap and the purge alone. -/
theorem next (h : Early t pc) (pc' : ChunkPc) (hs : chunkStep t.chunks l = some s)
    (hl : l.now 0 = 0) (hpc : s.pcs () = pc') (hheap : s.heaps = t.chunks.heaps)
    (hlast : s.pool.lastPurgeMs = t.chunks.pool.lastPurgeMs)
    (havg : s.pool.cacheAvg = t.chunks.pool.cacheAvg)
    (hpurging : s.pool.purging = t.chunks.pool.purging) :
    ∃ t', Early t' pc' ∧ t'.chunks = s := by
  obtain ⟨t', hstep, rfl, hclock⟩ := timedStep_of_chunkStep (t := t) hs
    (by rw [h.clock, hl]; exact BitVec.le_refl _)
  refine ⟨t', ⟨h.reach.next hstep, hpc, ?_, ?_, ?_, ?_, ?_⟩, rfl⟩
  · rw [hheap, h.heap]
  · rw [hclock, h.clock, hl]
  · rw [hlast, h.last]
  · rw [havg, h.avg]
  · rw [hpurging, h.purging]

theorem map (h : Early t .idle) (hc : t.chunks.pool.spanCache = [])
    (hq : chunkAcquireLocked t.chunks.pool = none) :
    ∃ t', Early t' .idle ∧ t'.chunks.pool.spanCache = [] ∧
      t'.chunks.pool.cacheCount = t.chunks.pool.cacheCount ∧
      t'.chunks.used.length = t.chunks.used.length + 1 := by
  have hacquire : chunkStep t.chunks (.acquire ()) = some (t.chunks.setPc () .mapping) := by
    simp only [chunkStep, h.pc, if_true, chunkAcquire, h.heap, hq]
  obtain ⟨t1, h1, ht1⟩ := h.next .mapping hacquire rfl rfl rfl rfl rfl rfl
  obtain ⟨b, hb⟩ := Infinite.exists_notMem_finset t1.chunks.pool.mapped.toFinset
  rw [List.mem_toFinset] at hb
  have hmap : chunkStep t1.chunks (.segOsAlloc () (some b)) =
      some (segOsAlloc t1.chunks () b) := by
    simp only [chunkStep, h1.pc, if_true, if_neg hb]
  obtain ⟨t2, h2, ht2⟩ := h1.next (.linking b) hmap rfl rfl rfl rfl rfl rfl
  have hlink : chunkStep t2.chunks (.link ()) = some (segLink t2.chunks () b) := by
    simp only [chunkStep, h2.pc]
  obtain ⟨t3, h3, ht3⟩ := h2.next .idle hlink rfl rfl rfl rfl rfl rfl
  refine ⟨t3, h3, ?_, ?_, ?_⟩
  · rw [ht3]
    change t2.chunks.pool.spanCache = []
    rw [ht2]
    change t1.chunks.pool.spanCache = []
    rw [ht1]
    exact hc
  · rw [ht3]
    change t2.chunks.pool.cacheCount = _
    rw [ht2]
    change t1.chunks.pool.cacheCount = _
    rw [ht1]
    rfl
  · rw [ht3]
    change t2.chunks.used.length + 1 = _
    rw [ht2]
    change t1.chunks.used.length + 1 = _
    rw [ht1]
    rfl

theorem acquire (h : Early t .idle) (hc : t.chunks.pool.spanCache = []) :
    ∃ t', Early t' .idle ∧ t'.chunks.pool.spanCache = [] ∧
      t'.chunks.pool.cacheCount = t.chunks.pool.cacheCount ∧
      t'.chunks.used.length = t.chunks.used.length + 1 := by
  cases hq : chunkAcquireLocked t.chunks.pool with
  | none => exact h.map hc hq
  | some r =>
    have hstep : chunkStep t.chunks (.acquire ()) =
        some { t.chunks with pool := r.2, used := r.1 :: t.chunks.used } := by
      simp only [chunkStep, h.pc, if_true, chunkAcquire, h.heap, hq]
    unfold chunkAcquireLocked at hq
    rw [hc] at hq
    dsimp only at hq
    cases hsegs : t.chunks.pool.segments with
    | nil =>
      rw [hsegs] at hq
      cases hq
    | cons b rest =>
      rw [hsegs] at hq
      dsimp only at hq
      split_ifs at hq
      obtain rfl := Option.some.inj hq
      obtain ⟨t', h', ht'⟩ := h.next .idle hstep rfl h.pc rfl rfl rfl rfl
      refine ⟨t', h', ?_, ?_, ?_⟩
      · rw [ht']
        exact hc
      · rw [ht']
        rfl
      · rw [ht']
        rfl

/-- A chunk in use goes to the global cache; no period has passed yet. -/
theorem release (h : Early t .idle) {rest : List ℕ} (hused : t.chunks.used = c :: rest) :
    ∃ t', Early t' .idle ∧ t'.chunks.used = rest ∧
      t'.chunks.pool.cacheCount = t.chunks.pool.cacheCount + 1 := by
  have hmem : c ∈ t.chunks.used := by
    rw [hused]
    exact List.mem_cons_self
  have hstep : chunkStep t.chunks (.release () c 0) =
      some (chunkRelease t.chunks none c 0) := by
    simp only [chunkStep, h.pc, hmem, h.heap, Bool.false_eq_true, and_self, if_true, if_false]
  have hpool : (chunkRelease t.chunks none c 0).pool = chunkToGlobal c 0 t.chunks.pool := by
    change chunkReleaseLocked c 0 t.chunks.pool = _
    unfold chunkReleaseLocked
    dsimp only
    split_ifs
    · unfold memopPurgeLocked
      rw [if_pos]
      change 0 - t.chunks.pool.lastPurgeMs < memopPurgePeriodMs
      rw [h.last]
      decide
    · rfl
  obtain ⟨t', h', ht'⟩ := h.next .idle hstep rfl h.pc rfl (by rw [hpool]; rfl) (by rw [hpool]; rfl)
    (by rw [hpool]; rfl)
  refine ⟨t', h', ?_, ?_⟩
  · rw [ht']
    change t.chunks.used.erase c = rest
    rw [hused, List.erase_cons_head]
  · rw [ht', hpool]
    rfl

theorem init : Early ⟨memopInit Unit, 0, fun _ => 0⟩ .idle :=
  ⟨.init rfl, rfl, rfl, rfl, rfl, rfl, rfl⟩

theorem acquires (n : ℕ) :
    ∃ t, Early t .idle ∧ t.chunks.pool.spanCache = [] ∧ t.chunks.pool.cacheCount = 0 ∧
      t.chunks.used.length = n := by
  induction n with
  | zero => exact ⟨_, init, rfl, rfl, rfl⟩
  | succ n ih =>
    obtain ⟨t, h, hc, hcount, hlen⟩ := ih
    obtain ⟨t', h', hc', hcount', hlen'⟩ := h.acquire hc
    exact ⟨t', h', hc', hcount'.trans hcount, by rw [hlen', hlen]⟩

theorem releases (h : Early t .idle) {given : List ℕ} (hused : t.chunks.used = given ++ [c]) :
    ∃ t', Early t' .idle ∧ t'.chunks.used = [c] ∧
      t'.chunks.pool.cacheCount = t.chunks.pool.cacheCount + given.length := by
  induction given generalizing t with
  | nil =>
    refine ⟨t, h, hused, ?_⟩
    rw [List.length_nil, Nat.cast_zero, add_zero]
  | cons a given ih =>
    obtain ⟨t1, h1, hused1, hcount1⟩ := h.release hused
    obtain ⟨t', h', hused', hcount'⟩ := ih h1 hused1
    refine ⟨t', h', hused', ?_⟩
    rw [hcount', hcount1, List.length_cons]
    push_cast
    omega

theorem live_last (h : Early t .idle) (hused : t.chunks.used = [c]) :
    (t.chunks.pool.header (memopSegOf c)).live = 1 := by
  have hinv := (timedSystem_inv h.reach).chunks
  have hmem : c ∈ t.chunks.shelf .used := by
    change c ∈ t.chunks.used
    rw [hused]
    exact List.mem_cons_self
  obtain ⟨hmapped, -⟩ := hinv.pool.carved hmem
  apply Nat.le_antisymm _ (hinv.pool.live_pos (by simp) hmem)
  rw [hinv.pool.live _ hmapped, outside_eq]
  apply Finset.card_le_one_iff_subset_singleton.mpr
  refine ⟨c % memopSegSpans, fun k hk => ?_⟩
  obtain ⟨⟨h1, hn⟩, hout⟩ := mem_outsideOf.mp hk
  have hlt : k < memopSegSpans := lt_of_lt_of_le hn (hinv.pool.bound _ hmapped).2
  have hcarved : t.chunks.pool.Carved (memopSegOf c * memopSegSpans + k) := by
    unfold MemPool.Carved
    rw [memopSegOf_add _ k hlt, add_mod_memopSegSpans _ k hlt]
    exact ⟨hmapped, h1, hn⟩
  obtain ⟨p, hp⟩ := (hinv.pool.shelved.mem_iff _).mp hcarved
  rw [Finset.mem_singleton]
  cases p with
  | spanCache => exact absurd hp hout
  | localCache i =>
    simp only [ChunkState.shelf, (hinv.heap i).inactive h.heap, List.not_mem_nil] at hp
  | used =>
    simp only [ChunkState.shelf, hused, List.mem_singleton] at hp
    rw [← hp, add_mod_memopSegSpans _ k hlt]
  | transit i => simp only [ChunkState.shelf, h.pc, ChunkPc.transit, List.not_mem_nil] at hp

end Early

/-- One thread takes 5001 chunks and gives them back; the last one comes at 1000 ms. -/
theorem automaticPurge_bounded_last :
    ∃ (t t' : TimedChunks Unit) (l : ChunkLabel Unit) (g : MemPool) (returned : List ℕ),
      (timedSystem Unit).Reachable t ∧ timedStep t l = some t' ∧
      (t'.chunks.pool.segments ++ returned).Perm g.segments ∧ (∀ b ∈ returned, t'.Idle g b) ∧
      g.cacheCount = 5001 ∧
      t'.chunks.pool.cacheCount = g.cacheCount - carvedChunks g.header returned ∧
      memopPurgeLow - (memopSegSpans - 2) ≤ t'.chunks.pool.cacheCount := by
  obtain ⟨t0, h0, -, hcount0, hlen⟩ := Early.acquires 5001
  have hne : t0.chunks.used ≠ [] := List.ne_nil_of_length_eq_add_one hlen
  have hgiven : t0.chunks.used.dropLast.length = 5000 := by
    rw [List.length_dropLast, hlen]
  obtain ⟨t, h, hused, hcount⟩ := h0.releases (List.dropLast_append_getLast hne).symm
  generalize t0.chunks.used.getLast hne = c at hused
  rw [hcount0, hgiven] at hcount
  have hin : c ∈ t.chunks.used := by
    rw [hused]
    exact List.mem_cons_self
  have hstep : chunkStep t.chunks (.release () c 1000) =
      some (chunkRelease t.chunks none c 1000) := by
    simp only [chunkStep, h.pc, hin, h.heap, Bool.false_eq_true, and_self, if_true, if_false]
  obtain ⟨t', hs, -, -⟩ := timedStep_of_chunkStep (t := t) hstep 
    (by rw [h.clock]; exact BitVec.le_def.mpr (Nat.zero_le _))
  have hr : released t.chunks (.release () c 1000) = some c := by
    simp only [released, h.heap, Bool.false_eq_true, false_and, if_false]
  have hcall : PurgeCalled c 1000 (chunkToGlobal c 1000 t.chunks.pool) := by
    have hlast : (chunkToGlobal c 1000 t.chunks.pool).lastPurgeMs = 0 := h.last
    have hpurging : (chunkToGlobal c 1000 t.chunks.pool).purging = false := h.purging
    have havg : (chunkToGlobal c 1000 t.chunks.pool).nextAvg = 1250 := by
      change t.chunks.pool.cacheAvg +
        (t.chunks.pool.cacheCount + 1 - t.chunks.pool.cacheAvg).tdiv (2 ^ memopPurgeEwmaShift) = _
      rw [h.avg, hcount]
      rfl
    refine ⟨?_, ?_, ?_, ?_, ?_⟩
    · simp only [chunkToGlobal, MemPool.setHeader, Function.update_self, h.live_last hused]
      rfl
    · rw [hlast]
      decide
    · intro
      rw [havg]
      decide
    · intro hp
      rw [hpurging] at hp
      cases hp
    · change memopPurgeLow < t.chunks.pool.cacheCount + 1
      rw [hcount]
      decide
  obtain ⟨g, returned, hg, hperm, -, hidle, hcache, hlow, -⟩ :=
    automaticPurge_bounded h.reach hs hr hcall
  refine ⟨t, t', _, g, returned, h.reach, hs, hperm, fun b hb => (hidle b hb).1, ?_, hcache, hlow⟩
  rw [hg]
  change t.chunks.pool.cacheCount + 1 = 5001
  rw [hcount]
  rfl

end Xplatbase.Memory
