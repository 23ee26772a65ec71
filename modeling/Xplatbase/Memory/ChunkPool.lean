import Xplatbase.Lib.Shelves
import Xplatbase.Memory.Chunks

/-! The invariant of the pool under `cache_lock`, kept by each critical section. It is stated for
any shelves of which one is the global cache. -/
namespace Xplatbase.Memory
open Xplatbase.Lib

/-! ### Counting the chunks outside the global cache -/

theorem memopSegOf_add (b k : ℕ) (hk : k < memopSegSpans) :
    memopSegOf (b * memopSegSpans + k) = b := by
  unfold memopSegOf memopSegSpans at *
  omega

theorem memopSegOf_mod (c : ℕ) :
    memopSegOf c * memopSegSpans + c % memopSegSpans = c := by
  unfold memopSegOf memopSegSpans
  omega

theorem memopSegOf_mod_lt (c : ℕ) :
    c % memopSegSpans < memopSegSpans := by
  apply Nat.mod_lt
  decide

theorem add_mod_memopSegSpans (b k : ℕ) (hk : k < memopSegSpans) :
    (b * memopSegSpans + k) % memopSegSpans = k := by
  unfold memopSegSpans at *
  omega

/-- The chunks `1 .. n - 1` of segment `b` that a list does not hold. -/
def outsideOf (cache : List ℕ) (b n : ℕ) : Finset ℕ :=
  (Finset.Ico 1 n).filter fun k => b * memopSegSpans + k ∉ cache

theorem outside_eq (g : MemPool) (b : ℕ) :
    g.outside b = (outsideOf g.spanCache b (g.header b).nextChunk).card :=
  rfl

theorem mem_outsideOf {cache : List ℕ} {b n k : ℕ} :
    k ∈ outsideOf cache b n ↔ (1 ≤ k ∧ k < n) ∧ b * memopSegSpans + k ∉ cache := by
  unfold outsideOf
  rw [Finset.mem_filter, Finset.mem_Ico]

theorem outsideOf_congr {cache cache' : List ℕ} {b n : ℕ}
    (h : ∀ k, 1 ≤ k → k < n → (b * memopSegSpans + k ∈ cache' ↔ b * memopSegSpans + k ∈ cache)) :
    outsideOf cache' b n = outsideOf cache b n := by
  ext k
  rw [mem_outsideOf, mem_outsideOf]
  constructor
  · rintro ⟨hk, hc⟩
    exact ⟨hk, fun hm => hc ((h k hk.1 hk.2).mpr hm)⟩
  · rintro ⟨hk, hc⟩
    exact ⟨hk, fun hm => hc ((h k hk.1 hk.2).mp hm)⟩

theorem outsideOf_cons (cache : List ℕ) {b n k : ℕ} (hk : 1 ≤ k) (hn : k < n)
    (hc : b * memopSegSpans + k ∉ cache) :
    (outsideOf ((b * memopSegSpans + k) :: cache) b n).card + 1 = (outsideOf cache b n).card := by
  have hmem : k ∈ outsideOf cache b n := mem_outsideOf.mpr ⟨⟨hk, hn⟩, hc⟩
  have herase : outsideOf ((b * memopSegSpans + k) :: cache) b n = (outsideOf cache b n).erase k := by
    ext j
    rw [Finset.mem_erase, mem_outsideOf, mem_outsideOf, List.mem_cons, not_or]
    constructor
    · rintro ⟨hj, hne, hj'⟩
      exact ⟨fun he => hne (by rw [he]), hj, hj'⟩
    · rintro ⟨hne, hj, hj'⟩
      exact ⟨hj, fun he => hne (Nat.add_left_cancel he), hj'⟩
  rw [herase, Finset.card_erase_add_one hmem]

theorem outsideOf_cons_of_ne {cache : List ℕ} {b n c : ℕ} (hn : n ≤ memopSegSpans)
    (hc : memopSegOf c ≠ b) :
    outsideOf (c :: cache) b n = outsideOf cache b n := by
  apply outsideOf_congr
  intro k _ hk
  rw [List.mem_cons]
  constructor
  · rintro (rfl | hm)
    · exact absurd (memopSegOf_add b k (by omega)) hc
    · exact hm
  · exact .inr

/-- The bump of `next_chunk`: the new chunk is outside. -/
theorem outsideOf_succ {cache : List ℕ} {b n : ℕ} (hn : 1 ≤ n)
    (hc : b * memopSegSpans + n ∉ cache) :
    (outsideOf cache b (n + 1)).card = (outsideOf cache b n).card + 1 := by
  have hmem : n ∉ outsideOf cache b n := by
    rw [mem_outsideOf]
    omega
  have hins : outsideOf cache b (n + 1) = insert n (outsideOf cache b n) := by
    ext k
    rw [Finset.mem_insert, mem_outsideOf, mem_outsideOf]
    constructor
    · rintro ⟨⟨hk, hkn⟩, hm⟩
      by_cases he : k = n
      · exact .inl he
      · exact .inr ⟨⟨hk, by omega⟩, hm⟩
    · rintro (rfl | ⟨⟨hk, hkn⟩, hm⟩)
      · exact ⟨⟨hn, by omega⟩, hc⟩
      · exact ⟨⟨hk, by omega⟩, hm⟩
  rw [hins, Finset.card_insert_of_notMem hmem]

/-! ### What a purge removes -/

/-- A purge takes away segments without a chunk outside the global cache, and their chunks. -/
structure Purged (g g' : MemPool) (doomed : List ℕ) : Prop where
  segments : (g'.segments ++ doomed).Perm g.segments
  dead : ∀ b ∈ doomed, (g.header b).live = 0
  spanCache : g'.spanCache = g.spanCache.filter (memopSegOf · ∉ doomed)
  count : g'.cacheCount - g'.spanCache.length = g.cacheCount - g.spanCache.length
  mapped : g'.mapped = g.mapped.filter (· ∉ doomed)
  header : g'.header = g.header

theorem purgeDoom_perm (header : ℕ → MemSegment) (now : BitVec 64) (force : Bool) (target : ℤ)
    (segs : List ℕ) :
    ((purgeDoom header now force target segs).1 ++ (purgeDoom header now force target segs).2).Perm
      segs := by
  induction segs generalizing target with
  | nil => exact .nil
  | cons b rest ih =>
    unfold purgeDoom
    split_ifs
    · exact List.perm_middle.trans ((ih _).cons b)
    · exact List.perm_middle.trans ((ih _).cons b)
    · exact (ih _).cons b
    · rw [List.append_nil]

theorem purgeDoom_dead (header : ℕ → MemSegment) (now : BitVec 64) (force : Bool) (target : ℤ)
    (segs : List ℕ) :
    ∀ b ∈ (purgeDoom header now force target segs).2, (header b).live = 0 := by
  induction segs generalizing target with
  | nil =>
    intro b hb
    cases hb
  | cons b rest ih =>
    unfold purgeDoom
    split_ifs with _ hlive
    · rintro c (_ | ⟨_, hc⟩)
      · exact hlive.1
      · exact ih _ c hc
    · rintro c (_ | ⟨_, hc⟩)
      · exact hlive.1
      · exact ih _ c hc
    · exact ih _
    · intro c hc
      cases hc

/-- The forced pass leaves no segment with `live` zero. -/
theorem purgeDoom_force (header : ℕ → MemSegment) (now : BitVec 64) (target : ℤ)
    (segs : List ℕ) :
    ∀ b ∈ (purgeDoom header now true target segs).1, (header b).live ≠ 0 := by
  induction segs generalizing target with
  | nil =>
    intro b hb
    cases hb
  | cons b rest ih =>
    unfold purgeDoom
    rw [if_pos (Or.inl rfl)]
    by_cases hlive : (header b).live = 0
    · rw [if_pos ⟨hlive, .inl rfl⟩]
      exact ih _
    · rw [if_neg fun h => hlive h.1]
      rintro c (_ | ⟨_, hc⟩)
      · exact hlive
      · exact ih _ c hc

theorem purgeExtract_fst (doomed : List ℕ) (cache : List ℕ) (n : ℤ) :
    (purgeExtract doomed cache n).1 = cache.filter (memopSegOf · ∉ doomed) := by
  induction cache generalizing n with
  | nil => rfl
  | cons c rest ih =>
    unfold purgeExtract
    split_ifs with hc
    · rw [ih, List.filter_cons_of_neg (by simpa using hc)]
    · rw [List.filter_cons_of_pos (by simpa using hc), ← ih]

theorem purgeExtract_snd (doomed : List ℕ) (cache : List ℕ) (n : ℤ) :
    (purgeExtract doomed cache n).2 - (purgeExtract doomed cache n).1.length =
      n - cache.length := by
  induction cache generalizing n with
  | nil => rfl
  | cons c rest ih =>
    unfold purgeExtract
    split_ifs
    · rw [ih, List.length_cons]
      push_cast
      omega
    · have := ih n
      simp only [List.length_cons]
      push_cast
      omega

theorem purgeApplyLocked_purged (now : BitVec 64) (force : Bool) (target : ℤ) (g : MemPool) :
    Purged g (purgeApplyLocked now force target g)
      (purgeDoom g.header now force target g.segments).2 where
  segments := purgeDoom_perm g.header now force target g.segments
  dead := purgeDoom_dead g.header now force target g.segments
  spanCache := purgeExtract_fst _ g.spanCache g.cacheCount
  count := purgeExtract_snd _ g.spanCache g.cacheCount
  mapped := rfl
  header := rfl

theorem Purged.refl (g g' : MemPool) (hs : g'.segments = g.segments)
    (hc : g'.spanCache = g.spanCache) (hn : g'.cacheCount = g.cacheCount)
    (hm : g'.mapped = g.mapped) (hh : g'.header = g.header) :
    Purged g g' [] := by
  constructor
  · rw [List.append_nil, hs]
  · intro b hb
    cases hb
  · rw [hc]
    simp
  · rw [hn, hc]
  · rw [hm]
    simp
  · exact hh

theorem memopPurgeLocked_purged (now : BitVec 64) (g : MemPool) :
    ∃ doomed, Purged g (memopPurgeLocked now g) doomed := by
  unfold memopPurgeLocked
  split_ifs
  · exact ⟨[], .refl _ _ rfl rfl rfl rfl rfl⟩
  all_goals
    dsimp only
    split_ifs
  · exact ⟨[], .refl _ _ rfl rfl rfl rfl rfl⟩
  · exact ⟨[], .refl _ _ rfl rfl rfl rfl rfl⟩
  · obtain ⟨hs, hd, hc, hn, hm, hh⟩ := purgeApplyLocked_purged now false
      (g.cacheCount - memopPurgeLow) { g with
        lastPurgeMs := now
        cacheAvg := g.cacheAvg + (g.cacheCount - g.cacheAvg).tdiv (2 ^ memopPurgeEwmaShift)
        purging := true }
    exact ⟨_, hs, hd, hc, hn, hm, hh⟩
  · exact ⟨[], .refl _ _ rfl rfl rfl rfl rfl⟩

theorem chunkReleaseLocked_purged (c : ℕ) (now : BitVec 64) (g : MemPool) :
    ∃ doomed, Purged (chunkToGlobal c now g) (chunkReleaseLocked c now g) doomed := by
  unfold chunkReleaseLocked
  dsimp only
  split_ifs
  · exact memopPurgeLocked_purged now (chunkToGlobal c now g)
  · exact ⟨[], .refl _ _ rfl rfl rfl rfl rfl⟩

theorem Purged.mem_segments {g g' : MemPool} {doomed : List ℕ} (h : Purged g g' doomed) {b : ℕ}
    (hb : b ∈ g'.segments) :
    b ∈ g.segments :=
  h.segments.subset (List.mem_append_left _ hb)

/-- What a purge leaves mapped was mapped, and stays in the list of segments. -/
theorem Purged.mem_mapped {g g' : MemPool} {doomed : List ℕ} (h : Purged g g' doomed) {b : ℕ}
    (hb : b ∈ g'.mapped) :
    b ∈ g.mapped ∧ (b ∈ g.segments → b ∈ g'.segments) := by
  rw [h.mapped, List.mem_filter, decide_eq_true_eq] at hb
  refine ⟨hb.1, fun hs => ?_⟩
  rcases List.mem_append.mp (h.segments.symm.subset hs) with hs' | hd
  · exact hs'
  · exact absurd hd hb.2

/-! ### The invariant -/

structure PoolInv {P : Type*} (v : P → List ℕ) (global : P) (g : MemPool) : Prop where
  cache : v global = g.spanCache
  shelved : Shelved v {c | g.Carved c}
  nodup : g.segments.Nodup
  mapped : ∀ b ∈ g.segments, b ∈ g.mapped
  bound : ∀ b ∈ g.mapped, 1 ≤ (g.header b).nextChunk ∧ (g.header b).nextChunk ≤ memopSegSpans
  live : ∀ b ∈ g.mapped, (g.header b).live = g.outside b
  count : g.cacheCount = g.spanCache.length

namespace PoolInv

variable {P : Type*} {v v' : P → List ℕ} {global a b : P} {g g' : MemPool} {c : ℕ}

theorem carved (h : PoolInv v global g) {p : P} (hc : c ∈ v p) : g.Carved c :=
  h.shelved.mem hc

/-- A chunk that lies outside the global cache keeps its segment alive. -/
theorem live_pos (h : PoolInv v global g) {p : P} (hp : p ≠ global) (hc : c ∈ v p) :
    1 ≤ (g.header (memopSegOf c)).live := by
  obtain ⟨hm, h1, hn⟩ := h.carved hc
  rw [h.live _ hm, outside_eq]
  apply Finset.card_pos.mpr
  refine ⟨c % memopSegSpans, mem_outsideOf.mpr ⟨⟨h1, hn⟩, ?_⟩⟩
  rw [memopSegOf_mod, ← h.cache]
  exact h.shelved.not_mem hc hp

/-- Chunks move between shelves other than the global cache. -/
theorem reshelve (h : PoolInv v global g) (hv : v' global = v global)
    (hs : Shelved v' {c | g.Carved c}) : PoolInv v' global g :=
  { h with
    cache := hv.trans h.cache
    shelved := hs }

/-- The OS gives a mapping: a header in chunk 0 and chunk 1 carved, outside the cache. -/
theorem map (h : PoolInv v global g) {m : ℕ} (hm : m ∉ g.mapped) (ha : a ≠ global)
    (hv : v' a = (m * memopSegSpans + 1) :: v a) (hrest : ∀ p, p ≠ a → v' p = v p) :
    PoolInv v' global
      ({ g with mapped := m :: g.mapped }.setHeader m ⟨2, 1, 0⟩) := by
  have hseg : memopSegOf (m * memopSegSpans + 1) = m := memopSegOf_add m 1 (by decide)
  have hmod : (m * memopSegSpans + 1) % memopSegSpans = 1 := add_mod_memopSegSpans m 1 (by decide)
  have hnew : m * memopSegSpans + 1 ∉ {c | g.Carved c} := by
    rintro ⟨hc, -⟩
    exact hm (hseg ▸ hc)
  have hcarved : {c | ({ g with mapped := m :: g.mapped }.setHeader m ⟨2, 1, 0⟩).Carved c} =
      insert (m * memopSegSpans + 1) {c | g.Carved c} := by
    ext c
    simp only [MemPool.Carved, MemPool.setHeader, Set.mem_ofPred_eq, Set.mem_insert_iff,
      List.mem_cons]
    by_cases hc : memopSegOf c = m
    · rw [hc, Function.update_self]
      have := memopSegOf_mod c
      rw [hc] at this
      dsimp only
      constructor
      · rintro ⟨-, h1, h2⟩
        have hk : c % memopSegSpans = 1 := by omega
        exact .inl (by rw [← this, hk])
      · rintro (rfl | ⟨hm', -⟩)
        · exact ⟨.inl rfl, by omega, by omega⟩
        · exact absurd hm' hm
    · rw [Function.update_of_ne hc]
      constructor
      · rintro ⟨hm', hk⟩
        exact .inr ⟨hm'.resolve_left hc, hk⟩
      · rintro (rfl | ⟨hm', hk⟩)
        · exact absurd hseg hc
        · exact ⟨.inr hm', hk⟩
  have hother (b : ℕ) (hb : b ∈ g.mapped) : b ≠ m := fun he => hm (he ▸ hb)
  constructor
  · rw [hrest global (Ne.symm ha), h.cache]
    rfl
  · rw [hcarved]
    exact h.shelved.add hnew hv hrest
  · exact h.nodup
  · intro b hb
    exact List.mem_cons_of_mem m (h.mapped b hb)
  · rintro b (_ | ⟨_, hb⟩)
    · simp only [MemPool.setHeader, Function.update_self]
      decide
    · simp only [MemPool.setHeader, Function.update_of_ne (hother b hb)]
      exact h.bound b hb
  · rintro b (_ | ⟨_, hb⟩)
    · simp only [outside_eq, MemPool.setHeader, Function.update_self]
      have hout : outsideOf g.spanCache m 2 = {1} := by
        ext k
        rw [mem_outsideOf, Finset.mem_singleton]
        constructor
        · rintro ⟨hk, -⟩
          omega
        · rintro rfl
          refine ⟨by omega, fun hc => hnew ?_⟩
          rw [← h.cache] at hc
          exact h.carved hc
      rw [hout, Finset.card_singleton]
    · simp only [outside_eq, MemPool.setHeader, Function.update_of_ne (hother b hb)]
      exact h.live b hb
  · exact h.count

theorem link (h : PoolInv v global g) {m : ℕ} (hm : m ∈ g.mapped) (hn : m ∉ g.segments)
    (hv : v' global = v global) (hs : Shelved v' {c | g.Carved c}) :
    PoolInv v' global { g with segments := m :: g.segments } where
  cache := hv.trans h.cache
  shelved := hs
  nodup := List.nodup_cons.mpr ⟨hn, h.nodup⟩
  mapped := by
    rintro b (_ | ⟨_, hb⟩)
    · exact hm
    · exact h.mapped b hb
  bound := h.bound
  live := h.live
  count := h.count

/-- A write of a header that leaves `next_chunk`. -/
theorem nextChunk_setHeader (g : MemPool) (m : ℕ) (seg : MemSegment)
    (hn : seg.nextChunk = (g.header m).nextChunk) (b : ℕ) :
    ((g.setHeader m seg).header b).nextChunk = (g.header b).nextChunk := by
  simp only [MemPool.setHeader]
  by_cases hb : b = m
  · rw [hb, Function.update_self, hn]
  · rw [Function.update_of_ne hb]

theorem carved_congr {g g' : MemPool} (hm : g'.mapped = g.mapped)
    (hn : ∀ b, (g'.header b).nextChunk = (g.header b).nextChunk) :
    {c | g'.Carved c} = {c | g.Carved c} := by
  ext c
  simp only [MemPool.Carved, Set.mem_ofPred_eq, hm, hn]

theorem pop (h : PoolInv v global g) {rest : List ℕ} (hg : g.spanCache = c :: rest)
    (ha : a ≠ global) (hv : v' global = rest) (hva : v' a = c :: v a)
    (hrest : ∀ p, p ≠ global → p ≠ a → v' p = v p) :
    PoolInv v' global
      ({ g with spanCache := rest, cacheCount := g.cacheCount - 1 }.setHeader (memopSegOf c)
        { g.header (memopSegOf c) with live := (g.header (memopSegOf c)).live + 1 }) := by
  have hcv : c ∈ v global := by
    rw [h.cache, hg]
    exact List.mem_cons_self
  obtain ⟨hm, h1, hn⟩ := h.carved hcv
  have hnot : c ∉ rest := by
    have := h.shelved.nodup global
    rw [h.cache, hg] at this
    exact (List.nodup_cons.mp this).1
  have hnext := nextChunk_setHeader
    { g with spanCache := rest, cacheCount := g.cacheCount - 1 } (memopSegOf c)
    { g.header (memopSegOf c) with live := (g.header (memopSegOf c)).live + 1 } rfl
  constructor
  · exact hv
  · have he : v' global = (v global).erase c := by rw [hv, h.cache, hg, List.erase_cons_head]
    exact (h.shelved.move hcv (Ne.symm ha) he hva hrest).congr rfl (carved_congr rfl hnext)
  · exact h.nodup
  · exact h.mapped
  · intro b hb
    rw [hnext]
    exact h.bound b hb
  · intro b hb
    rw [outside_eq]
    simp only [MemPool.setHeader]
    by_cases hbm : b = memopSegOf c
    · rw [hbm, Function.update_self, h.live _ hm, outside_eq, hg]
      have hk := memopSegOf_mod c
      have hcons := outsideOf_cons rest h1 hn (by rw [hk]; exact hnot)
      rw [hk] at hcons
      exact hcons
    · rw [Function.update_of_ne hbm, h.live b hb, outside_eq, hg,
        outsideOf_cons_of_ne (h.bound b hb).2 (Ne.symm hbm)]
  · have := h.count
    rw [hg, List.length_cons] at this
    push_cast at this
    simp only [MemPool.setHeader]
    omega

theorem bump (h : PoolInv v global g) {m : ℕ} (hm : m ∈ g.mapped)
    (hlt : (g.header m).nextChunk < memopSegSpans) (ha : a ≠ global)
    (hva : v' a = (m * memopSegSpans + (g.header m).nextChunk) :: v a)
    (hrest : ∀ p, p ≠ a → v' p = v p) :
    PoolInv v' global (g.setHeader m { g.header m with
      nextChunk := (g.header m).nextChunk + 1
      live := (g.header m).live + 1 }) := by
  obtain ⟨h1, -⟩ := h.bound m hm
  have hseg := memopSegOf_add m _ hlt
  have hmod := add_mod_memopSegSpans m _ hlt
  have hnew : m * memopSegSpans + (g.header m).nextChunk ∉ {c | g.Carved c} := by
    rintro ⟨-, -, hk⟩
    rw [hseg, hmod] at hk
    omega
  have hcarved : {c | (g.setHeader m { g.header m with
        nextChunk := (g.header m).nextChunk + 1
        live := (g.header m).live + 1 }).Carved c} =
      insert (m * memopSegSpans + (g.header m).nextChunk) {c | g.Carved c} := by
    ext c
    simp only [MemPool.Carved, MemPool.setHeader, Set.mem_ofPred_eq, Set.mem_insert_iff]
    by_cases hc : memopSegOf c = m
    · rw [hc, Function.update_self]
      have := memopSegOf_mod c
      rw [hc] at this
      constructor
      · rintro ⟨-, hc1, hc2⟩
        by_cases he : c % memopSegSpans = (g.header m).nextChunk
        · exact .inl (by omega)
        · exact .inr ⟨hm, hc1, by dsimp only at hc2; omega⟩
      · rintro (rfl | ⟨-, hc1, hc2⟩)
        · exact ⟨hm, by omega, by dsimp only; omega⟩
        · exact ⟨hm, hc1, by dsimp only; omega⟩
    · rw [Function.update_of_ne hc]
      constructor
      · exact .inr
      · rintro (rfl | hk)
        · exact absurd hseg hc
        · exact hk
  constructor
  · rw [hrest global (Ne.symm ha), h.cache]
    rfl
  · rw [hcarved]
    exact h.shelved.add hnew hva hrest
  · exact h.nodup
  · exact h.mapped
  · intro b hb
    simp only [MemPool.setHeader]
    by_cases hbm : b = m
    · rw [hbm, Function.update_self]
      exact ⟨by dsimp only; omega, by dsimp only; omega⟩
    · rw [Function.update_of_ne hbm]
      exact h.bound b hb
  · intro b hb
    rw [outside_eq]
    simp only [MemPool.setHeader]
    by_cases hbm : b = m
    · rw [hbm, Function.update_self, h.live m hm, outside_eq, outsideOf_succ h1]
      rw [← h.cache]
      exact fun hc => hnew (h.carved hc)
    · rw [Function.update_of_ne hbm]
      exact h.live b hb
  · exact h.count

/-- A chunk goes to the global cache; the guard `live > 0` holds. -/
theorem push (h : PoolInv v global g) (now : BitVec 64) (hc : c ∈ v a) (ha : a ≠ global)
    (hv : v' global = c :: v global) (hva : v' a = (v a).erase c)
    (hrest : ∀ p, p ≠ a → p ≠ global → v' p = v p) :
    PoolInv v' global (chunkToGlobal c now g) := by
  obtain ⟨hm, h1, hn⟩ := h.carved hc
  have hpos := h.live_pos ha hc
  have hnot : c ∉ g.spanCache := by
    rw [← h.cache]
    exact h.shelved.not_mem hc ha
  have hnext (b : ℕ) :
      ((chunkToGlobal c now g).header b).nextChunk = (g.header b).nextChunk := by
    unfold chunkToGlobal
    rw [nextChunk_setHeader]
    rfl
  constructor
  · rw [hv, h.cache]
    rfl
  · exact (h.shelved.move hc ha hva hv hrest).congr rfl (carved_congr rfl hnext)
  · exact h.nodup
  · exact h.mapped
  · intro b hb
    rw [hnext]
    exact h.bound b hb
  · intro b hb
    rw [outside_eq]
    simp only [chunkToGlobal, MemPool.setHeader]
    by_cases hbm : b = memopSegOf c
    · rw [hbm, Function.update_self, if_pos (by omega), h.live _ hm, outside_eq]
      have hk := memopSegOf_mod c
      have hcons := outsideOf_cons g.spanCache h1 hn (by rw [hk]; exact hnot)
      rw [hk] at hcons
      dsimp only
      omega
    · rw [Function.update_of_ne hbm, h.live b hb, outside_eq,
        outsideOf_cons_of_ne (h.bound b hb).2 (Ne.symm hbm)]
  · have := h.count
    simp only [chunkToGlobal, MemPool.setHeader, List.length_cons]
    push_cast
    omega

/-- All carved chunks of a segment with `live` zero are in the global cache. -/
theorem cached_of_live_eq_zero (h : PoolInv v global g) (hc : g.Carved c)
    (h0 : (g.header (memopSegOf c)).live = 0) :
    c ∈ v global := by
  obtain ⟨p, hp⟩ := (h.shelved.mem_iff c).mp hc
  by_cases hpg : p = global
  · exact hpg ▸ hp
  · have := h.live_pos hpg hp
    omega

theorem purge (h : PoolInv v global g) {doomed : List ℕ} (hp : Purged g g' doomed)
    (hv : v' global = g'.spanCache) (hrest : ∀ p, p ≠ global → v' p = v p) :
    PoolInv v' global g' := by
  have hnodup : (g'.segments ++ doomed).Nodup := hp.segments.nodup_iff.mpr h.nodup
  have hkept (b : ℕ) : b ∈ g'.mapped ↔ b ∈ g.mapped ∧ b ∉ doomed := by
    rw [hp.mapped, List.mem_filter, decide_eq_true_eq]
  constructor
  · exact hv
  · have hD : {c | g'.Carved c} =
        {c | c ∈ {c | g.Carved c} ∧ decide (memopSegOf c ∉ doomed) = true} := by
      ext c
      simp only [MemPool.Carved, Set.mem_ofPred_eq, hkept, hp.header, decide_eq_true_eq]
      constructor
      · rintro ⟨⟨hm, hd⟩, hk⟩
        exact ⟨⟨hm, hk⟩, hd⟩
      · rintro ⟨⟨hm, hk⟩, hd⟩
        exact ⟨⟨hm, hd⟩, hk⟩
    rw [hD]
    apply h.shelved.discard _ _ hrest
    · intro c hc hd
      apply h.cached_of_live_eq_zero hc
      exact hp.dead _ (by simpa using hd)
    · rw [hv, h.cache, hp.spanCache]
  · exact (List.nodup_append.mp hnodup).1
  · intro b hb
    rw [hkept]
    refine ⟨h.mapped b (hp.segments.subset (List.mem_append_left _ hb)), ?_⟩
    intro hd
    exact (List.nodup_append.mp hnodup).2.2 b hb b hd rfl
  · intro b hb
    rw [hp.header]
    exact h.bound b ((hkept b).mp hb).1
  · intro b hb
    obtain ⟨hm, hd⟩ := (hkept b).mp hb
    rw [hp.header, h.live b hm, outside_eq, outside_eq, hp.header]
    congr 1
    symm
    apply outsideOf_congr
    intro k _ hk
    have := (h.bound b hm).2
    rw [hp.spanCache, List.mem_filter, memopSegOf_add b k (by omega)]
    simp [hd]
  · have := hp.count
    have := h.count
    omega

/-- The critical section of `chunk_release`. -/
theorem release (h : PoolInv v global g) (now : BitVec 64) (hc : c ∈ v a) (ha : a ≠ global)
    (hv : v' global = (chunkReleaseLocked c now g).spanCache) (hva : v' a = (v a).erase c)
    (hrest : ∀ p, p ≠ a → p ≠ global → v' p = v p) [DecidableEq P] :
    PoolInv v' global (chunkReleaseLocked c now g) := by
  have hpush : PoolInv (Function.update v' global (c :: v global)) global
      (chunkToGlobal c now g) := by
    apply h.push now hc ha (Function.update_self ..)
    · rw [Function.update_of_ne ha, hva]
    · intro p hpa hpg
      rw [Function.update_of_ne hpg, hrest p hpa hpg]
  have hother (p : P) (hp : p ≠ global) : v' p = Function.update v' global (c :: v global) p :=
    (Function.update_of_ne hp ..).symm
  obtain ⟨doomed, hp⟩ := chunkReleaseLocked_purged c now g
  exact hpush.purge hp hv hother

/-- The critical section of `chunk_acquire`. -/
theorem acquire (h : PoolInv v global g) (hq : chunkAcquireLocked g = some (c, g'))
    (ha : a ≠ global) (hv : v' global = g'.spanCache) (hva : v' a = c :: v a)
    (hrest : ∀ p, p ≠ global → p ≠ a → v' p = v p) :
    PoolInv v' global g' ∧ g'.segments = g.segments ∧ g'.mapped = g.mapped := by
  unfold chunkAcquireLocked at hq
  split at hq
  · rename_i hg
    obtain ⟨rfl, rfl⟩ := Prod.mk.inj (Option.some.inj hq)
    exact ⟨h.pop hg ha hv hva hrest, rfl, rfl⟩
  · rename_i hg
    split at hq
    · rename_i b rest hs
      dsimp only at hq
      split_ifs at hq with hlt
      obtain ⟨rfl, rfl⟩ := Prod.mk.inj (Option.some.inj hq)
      have hb : b ∈ g.mapped := h.mapped b (hs ▸ List.mem_cons_self)
      refine ⟨h.bump hb hlt ha hva ?_, rfl, rfl⟩
      intro p hp
      by_cases hpg : p = global
      · rw [hpg, hv, h.cache]
        rfl
      · exact hrest p hpg hp
    · cases hq

end PoolInv
end Xplatbase.Memory
