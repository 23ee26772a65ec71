import Xplatbase.Memory.ChunkConservation
import Xplatbase.Memory.SpanBlocks
import Xplatbase.MemoryPool.PoolFrame

/-! Where the blocks of the pool lie: a small one in a span of a heap, a LARGE one in a chunk or a
mapping of its own. The blocks are kept on shelves, one for the callers and one for each call. -/
namespace Xplatbase.MemoryPool
open Xplatbase.Lib Xplatbase.Memory

variable {ι : Type*}

/-- The blocks that a call holds: the one it replaces, and the new one. -/
def PoolPc.blocks : PoolPc → List Ptr
  | .refill old => old.toList
  | .large _ old => old.toList
  | .release old new => [new, old]
  | _ => []

/-- Who holds a block: the callers (`none`) or the call of a thread. -/
def PoolState.holds (s : PoolState ι) : Option ι → List Ptr
  | none => s.live
  | some i => (s.pcs i).blocks

/-- A span that is in use, whatever its list. -/
structure SpanOk (x : Heap.SpanHead) : Prop where
  wf : Heap.SpanWf { x with state := .available }
  parted : x.Parted

/-- The LARGE block at `m` has a chunk, or a mapping of the length that its header says. -/
def PoolState.LargeHeld (s : PoolState ι) (m : ℕ) (x : Heap.LargeSpan) : Prop :=
  (x.blockCount = 1 ∧ x.mapping = memopSpanSize ∧ m ∈ s.chunks.used) ∨
    (x.blockCount ≠ 1 ∧ (m, x.blockCount.toNat) ∈ s.mappings ∧
      x.mapping = x.blockCount.toNat * memopSpanSize)

def PoolState.Home (s : PoolState ι) (p : Ptr) : Prop :=
  match s.header p.span with
  | .small k =>
    p.span ∈ (s.heap k).lists.owned ∧ p.block ∈ ((s.heap k).lists.head p.span).live
  | .large x => p.block = 0 ∧ s.LargeHeld p.span x

/-- The mappings lie apart, from each other and from the segments. -/
structure Apart (mappings : List (ℕ × ℕ)) (mapped : List ℕ) : Prop where
  between : ∀ x ∈ mappings, ∀ y ∈ mappings, x ≠ y → x.1 + x.2 ≤ y.1 ∨ y.1 + y.2 ≤ x.1
  length : ∀ x ∈ mappings, 0 < x.2
  segments : ∀ b ∈ mapped, ∀ x ∈ mappings,
    (b + 1) * memopSegSpans ≤ x.1 ∨ x.1 + x.2 ≤ b * memopSegSpans

/-- The shelves `v` hold the blocks of `D`, and each of them has its place. -/
structure Stored (s : PoolState ι) (v : Option ι → List Ptr) (D : Set Ptr) : Prop where
  chunks : ChunkInv s.chunks
  apart : Apart s.mappings s.chunks.pool.mapped
  created : ∀ k ∉ s.heaps, (s.heap k).lists.owned = ∅
  used : ∀ k, ∀ a ∈ (s.heap k).lists.owned, a ∈ s.chunks.used
  header : ∀ k, ∀ a ∈ (s.heap k).lists.owned, s.header a = .small k
  spans : ∀ k, ∀ a ∈ (s.heap k).lists.owned, SpanOk ((s.heap k).lists.head a)
  shelved : Shelved v D
  home : ∀ p ∈ D, s.Home p

/-- A heap has a span in chunk `a`, or a block lies there. -/
def PoolState.InUse (s : PoolState ι) (D : Set Ptr) (a : ℕ) : Prop :=
  (∃ k, a ∈ (s.heap k).lists.owned) ∨ ∃ p ∈ D, p.span = a

namespace Apart

variable {mappings : List (ℕ × ℕ)} {mapped mapped' : List ℕ} {m n : ℕ}

theorem unique (h : Apart mappings mapped) {x y : ℕ × ℕ} (hx : x ∈ mappings) (hy : y ∈ mappings)
    (hxy : x.1 = y.1) : x = y := by
  by_contra hne
  have hapart := h.between x hx y hy hne
  have hlx := h.length x hx
  have hly := h.length y hy
  omega

theorem mono (h : Apart mappings mapped) (hsub : ∀ b ∈ mapped', b ∈ mapped) :
    Apart mappings mapped' where
  between := h.between
  length := h.length
  segments := fun b hb => h.segments b (hsub b hb)

theorem cons_segment (h : Apart mappings mapped)
    (hsub : ∀ b ∈ mapped', b ∈ mapped ∨ ∀ x ∈ mappings,
      (b + 1) * memopSegSpans ≤ x.1 ∨ x.1 + x.2 ≤ b * memopSegSpans) :
    Apart mappings mapped' where
  between := h.between
  length := h.length
  segments := by
    intro b hb
    rcases hsub b hb with hb | hb
    · exact h.segments b hb
    · exact hb

theorem cons_mapping (h : Apart mappings mapped) (hn : 0 < n)
    (hsegs : ∀ b ∈ mapped, m + n ≤ b * memopSegSpans ∨ (b + 1) * memopSegSpans ≤ m)
    (hmaps : ∀ x ∈ mappings, m + n ≤ x.1 ∨ x.1 + x.2 ≤ m) :
    Apart ((m, n) :: mappings) mapped where
  between := by
    intro x hx y hy hne
    rcases List.mem_cons.mp hx with rfl | hx
    · rcases List.mem_cons.mp hy with rfl | hy
      · exact absurd rfl hne
      · exact hmaps y hy
    · rcases List.mem_cons.mp hy with rfl | hy
      · exact (hmaps x hx).symm
      · exact h.between x hx y hy hne
  length := by
    intro x hx
    rcases List.mem_cons.mp hx with rfl | hx
    · exact hn
    · exact h.length x hx
  segments := by
    intro b hb x hx
    rcases List.mem_cons.mp hx with rfl | hx
    · exact (hsegs b hb).symm
    · exact h.segments b hb x hx

theorem mem_unmap (h : Apart mappings mapped) (hm : (m, n) ∈ mappings) (x : ℕ × ℕ) :
    x ∈ unmap mappings m n ↔ x ∈ mappings ∧ x.1 ≠ m := by
  unfold unmap
  rw [List.mem_flatMap]
  constructor
  · rintro ⟨y, hy, hx⟩
    split_ifs at hx with hym hyn
    · exact absurd hx List.not_mem_nil
    · have heq := h.unique hy hm hym
      rw [heq] at hyn
      exact absurd (Nat.le_refl n) hyn
    · obtain rfl := List.mem_singleton.mp hx
      exact ⟨hy, hym⟩
  · rintro ⟨hx, hne⟩
    refine ⟨x, hx, ?_⟩
    rw [if_neg hne]
    exact List.mem_singleton.mpr rfl

theorem unmap (h : Apart mappings mapped) (hm : (m, n) ∈ mappings) :
    Apart (unmap mappings m n) mapped where
  between := by
    intro x hx y hy
    exact h.between x ((h.mem_unmap hm x).mp hx).1 y ((h.mem_unmap hm y).mp hy).1
  length := fun x hx => h.length x ((h.mem_unmap hm x).mp hx).1
  segments := fun b hb x hx => h.segments b hb x ((h.mem_unmap hm x).mp hx).1

end Apart

section
variable {s s' : PoolState ι} {p : Ptr} {k : ℕ} {x : Heap.LargeSpan}

theorem home_small (hp : s.header p.span = .small k) :
    s.Home p ↔ p.span ∈ (s.heap k).lists.owned ∧
      p.block ∈ ((s.heap k).lists.head p.span).live := by
  unfold PoolState.Home
  rw [hp]

theorem home_large (hp : s.header p.span = .large x) :
    s.Home p ↔ p.block = 0 ∧ s.LargeHeld p.span x := by
  unfold PoolState.Home
  rw [hp]

theorem PoolState.LargeHeld.mono {m : ℕ} (h : s.LargeHeld m x)
    (hused : m ∈ s.chunks.used → m ∈ s'.chunks.used)
    (hmap : ∀ n, (m, n) ∈ s.mappings → (m, n) ∈ s'.mappings) : s'.LargeHeld m x := by
  rcases h with ⟨hx, hb, hm⟩ | ⟨hx, hm, hb⟩
  · exact .inl ⟨hx, hb, hused hm⟩
  · exact .inr ⟨hx, hmap _ hm, hb⟩

/-- A block keeps its place in a state that is the same for it. -/
theorem PoolState.Home.mono (h : s.Home p) (hheader : s'.header p.span = s.header p.span)
    (hsmall : ∀ k, s.header p.span = .small k → p.span ∈ (s.heap k).lists.owned →
      p.block ∈ ((s.heap k).lists.head p.span).live →
      p.span ∈ (s'.heap k).lists.owned ∧ p.block ∈ ((s'.heap k).lists.head p.span).live)
    (hused : p.span ∈ s.chunks.used → p.span ∈ s'.chunks.used)
    (hmap : ∀ n, (p.span, n) ∈ s.mappings → (p.span, n) ∈ s'.mappings) : s'.Home p := by
  cases hp : s.header p.span with
  | small k =>
    obtain ⟨howned, hlive⟩ := (home_small hp).mp h
    exact (home_small (hheader.trans hp)).mpr (hsmall k hp howned hlive)
  | large x =>
    obtain ⟨hblock, hheld⟩ := (home_large hp).mp h
    exact (home_large (hheader.trans hp)).mpr ⟨hblock, hheld.mono hused hmap⟩

theorem PoolState.Home.same (h : s.Home p) (hs : SameStorage s s') : s'.Home p := by
  apply h.mono
  · rw [hs.header]
  · intro k _ howned hlive
    rw [hs.lists]
    exact ⟨howned, hlive⟩
  · rw [hs.chunks]
    exact id
  · rw [hs.mappings]
    exact fun _ hm => hm

end

namespace Stored

variable {s s' : PoolState ι} {v v' : Option ι → List Ptr} {D D' : Set Ptr} {a k m : ℕ} {p : Ptr}

theorem same (h : Stored s v D) (hs : SameStorage s s') : Stored s' v D where
  chunks := hs.chunks ▸ h.chunks
  apart := by
    rw [hs.chunks, hs.mappings]
    exact h.apart
  created := by
    intro k hk
    rw [hs.heaps] at hk
    rw [hs.lists]
    exact h.created k hk
  used := by
    intro k
    rw [hs.lists, hs.chunks]
    exact h.used k
  header := by
    intro k
    rw [hs.lists, hs.header]
    exact h.header k
  spans := by
    intro k
    rw [hs.lists]
    exact h.spans k
  shelved := h.shelved
  home := fun p hp => (h.home p hp).same hs

theorem reshelve (h : Stored s v D) (hv : Shelved v' D') (hD : ∀ p ∈ D', p ∈ D) :
    Stored s v' D' :=
  { h with
    shelved := hv
    home := fun p hp => h.home p (hD p hp) }

theorem hold (h : Stored s v D) (hp : s.Home p) (hv : Shelved v' (insert p D)) :
    Stored s v' (insert p D) :=
  { h with
    shelved := hv
    home := by
      rintro q (rfl | hq)
      · exact hp
      · exact h.home q hq }

/-- A chunk in use lies in a segment, behind its header. -/
theorem segment (h : Stored s v D) (ha : a ∈ s.chunks.used) :
    memopSegOf a ∈ s.chunks.pool.mapped ∧ 1 ≤ a % memopSegSpans := by
  have hshelf : a ∈ s.chunks.shelf .used := ha
  obtain ⟨hmapped, hfirst, -⟩ := h.chunks.pool.carved hshelf
  exact ⟨hmapped, hfirst⟩

theorem used_apart (h : Stored s v D) (ha : a ∈ s.chunks.used) {x : ℕ × ℕ}
    (hx : x ∈ s.mappings) : a + 1 ≤ x.1 ∨ x.1 + x.2 ≤ a := by
  have hseg := h.apart.segments _ (h.segment ha).1 x hx
  have hmod := memopSegOf_mod a
  have hlt := memopSegOf_mod_lt a
  unfold memopSegSpans at *
  omega

theorem nodup_used (h : Stored s v D) : s.chunks.used.Nodup :=
  h.chunks.pool.shelved.nodup .used

/-- Where a block lies, a chunk is in use or a mapping begins. -/
theorem place (h : Stored s v D) (hp : p ∈ D) :
    p.span ∈ s.chunks.used ∨ ∃ n, (p.span, n) ∈ s.mappings := by
  have hhome := h.home p hp
  cases hx : s.header p.span with
  | small k => exact .inl (h.used k _ ((home_small hx).mp hhome).1)
  | large x =>
    rcases ((home_large hx).mp hhome).2 with ⟨-, -, hm⟩ | ⟨-, hm, -⟩
    · exact .inl hm
    · exact .inr ⟨_, hm⟩

theorem not_inUse (h : Stored s v D) (hm : m ∉ s.chunks.used)
    (hmaps : ∀ x ∈ s.mappings, m + 1 ≤ x.1 ∨ x.1 + x.2 ≤ m) : ¬ s.InUse D m := by
  rintro (⟨k, hk⟩ | ⟨p, hp, rfl⟩)
  · exact hm (h.used k m hk)
  · rcases h.place hp with hu | ⟨n, hn⟩
    · exact hm hu
    · have hapart := hmaps _ hn
      have hlen := h.apart.length _ hn
      dsimp only at hapart hlen
      omega

theorem unmapped_not_inUse (h : Stored s v D) {n : ℕ} (hn : 0 < n) (hm : Unmapped s m n) :
    ¬ s.InUse D m := by
  have hchunk : m ∉ s.chunks.used := by
    intro hu
    have hseg := hm.1 _ (h.segment hu).1
    have hmod := memopSegOf_mod m
    have hlt := memopSegOf_mod_lt m
    unfold memopSegSpans at *
    omega
  rintro (⟨k, hk⟩ | ⟨p, hp, rfl⟩)
  · exact hchunk (h.used k m hk)
  · rcases h.place hp with hu | ⟨l, hl⟩
    · exact hchunk hu
    · have hapart := hm.2 _ hl
      have hlen := h.apart.length _ hl
      dsimp only at hapart hlen
      omega

theorem setChunks (h : Stored s v D) {c : ChunkState ι} (hc : ChunkInv c)
    (hmapped : Apart s.mappings c.pool.mapped)
    (hused : ∀ a ∈ s.chunks.used, s.InUse D a → a ∈ c.used) :
    Stored { s with chunks := c } v D where
  chunks := hc
  apart := hmapped
  created := h.created
  used := fun k a ha => hused a (h.used k a ha) (.inl ⟨k, ha⟩)
  header := h.header
  spans := h.spans
  shelved := h.shelved
  home := by
    intro p hp
    apply (h.home p hp).mono
    · rfl
    · exact fun _ _ howned hlive => ⟨howned, hlive⟩
    · exact fun hu => hused _ hu (.inr ⟨p, hp, rfl⟩)
    · exact fun _ hm => hm

/-- The header of a chunk that is not in use is written. -/
theorem setHeader (h : Stored s v D) (hm : ¬ s.InUse D m) (o : SpanOwner) :
    Stored { s with header := Function.update s.header m o } v D :=
  { h with
    header := by
      intro k a ha
      have hne : a ≠ m := by
        rintro rfl
        exact hm (.inl ⟨k, ha⟩)
      exact (Function.update_of_ne hne ..).trans (h.header k a ha)
    home := by
      intro p hp
      have hne : p.span ≠ m := by
        intro he
        exact hm (.inr ⟨p, hp, he⟩)
      apply (h.home p hp).mono
      · exact Function.update_of_ne hne ..
      · exact fun _ _ howned hlive => ⟨howned, hlive⟩
      · exact id
      · exact fun _ hu => hu }

theorem setMappings (h : Stored s v D) {maps : List (ℕ × ℕ)}
    (hmaps : Apart maps s.chunks.pool.mapped)
    (hkept : ∀ p ∈ D, ∀ n, (p.span, n) ∈ s.mappings → (p.span, n) ∈ maps) :
    Stored { s with mappings := maps } v D :=
  { h with
    apart := hmaps
    home := by
      intro p hp
      apply (h.home p hp).mono
      · rfl
      · exact fun _ _ howned hlive => ⟨howned, hlive⟩
      · exact id
      · exact hkept p hp }

/-- Heap `k` gets other lists, in which the blocks that are held stay. -/
theorem setLists (h : Stored s v D) {lists : Heap.MemHeap} (hk : k ∈ s.heaps)
    (hused : ∀ a ∈ lists.owned, a ∈ s.chunks.used)
    (hheader : ∀ a ∈ lists.owned, s.header a = .small k)
    (hspans : ∀ a ∈ lists.owned, SpanOk (lists.head a))
    (hheld : ∀ p ∈ D, p.span ∈ (s.heap k).lists.owned →
      p.block ∈ ((s.heap k).lists.head p.span).live →
      p.span ∈ lists.owned ∧ p.block ∈ (lists.head p.span).live) :
    Stored (s.setLists k lists) v D := by
  have hself := setLists_self s k lists
  have hother (j : ℕ) (hj : j ≠ k) : ((s.setLists k lists).heap j).lists = (s.heap j).lists := by
    rw [setLists_of_ne s lists hj]
  constructor
  · exact h.chunks
  · exact h.apart
  · intro j hj
    have hne : j ≠ k := by
      rintro rfl
      exact hj hk
    rw [hother j hne]
    exact h.created j hj
  · intro j
    by_cases hj : j = k
    · rw [hj, hself]
      exact hused
    · rw [hother j hj]
      exact h.used j
  · intro j
    by_cases hj : j = k
    · rw [hj, hself]
      exact hheader
    · rw [hother j hj]
      exact h.header j
  · intro j
    by_cases hj : j = k
    · rw [hj, hself]
      exact hspans
    · rw [hother j hj]
      exact h.spans j
  · exact h.shelved
  · intro p hp
    apply (h.home p hp).mono
    · rfl
    · intro j hj howned hlive
      by_cases hjk : j = k
      · rw [hjk] at howned hlive ⊢
        rw [hself]
        exact hheld p hp howned hlive
      · rw [hother j hjk]
        exact ⟨howned, hlive⟩
    · exact id
    · exact fun _ hm => hm

theorem heapCreate [DecidableEq ι] (h : Stored s v D) (i : ι) (hk : k ∉ s.heaps)
    (hc : ChunkInv (s.chunks.setHeap i ⟨true, [], 0⟩)) : Stored (heapCreate s i k) v D := by
  have hself : ((MemoryPool.heapCreate s i k).heap k).lists = Heap.heapNew := by
    simp only [MemoryPool.heapCreate, Function.update_self]
  have hother (j : ℕ) (hj : j ≠ k) :
      ((MemoryPool.heapCreate s i k).heap j).lists = (s.heap j).lists := by
    simp only [MemoryPool.heapCreate, Function.update_of_ne hj]
  have hnone : ((MemoryPool.heapCreate s i k).heap k).lists.owned = ∅ := by
    rw [hself]
    rfl
  constructor
  · exact hc
  · exact h.apart
  · intro j hj
    obtain ⟨hne, hj⟩ := not_or.mp (List.mem_cons.not.mp hj)
    rw [hother j hne]
    exact h.created j hj
  · intro j a ha
    by_cases hj : j = k
    · rw [hj, hnone] at ha
      exact absurd ha (Finset.notMem_empty a)
    · rw [hother j hj] at ha
      exact h.used j a ha
  · intro j a ha
    by_cases hj : j = k
    · rw [hj, hnone] at ha
      exact absurd ha (Finset.notMem_empty a)
    · rw [hother j hj] at ha
      exact h.header j a ha
  · intro j a ha
    by_cases hj : j = k
    · rw [hj, hnone] at ha
      exact absurd ha (Finset.notMem_empty a)
    · rw [hother j hj] at ha ⊢
      exact h.spans j a ha
  · exact h.shelved
  · intro p hp
    apply (h.home p hp).mono
    · rfl
    · intro j _ howned hlive
      have hne : j ≠ k := by
        rintro rfl
        rw [h.created j hk] at howned
        exact absurd howned (Finset.notMem_empty _)
      rw [hother j hne]
      exact ⟨howned, hlive⟩
    · exact id
    · exact fun _ hm => hm

end Stored
end Xplatbase.MemoryPool
