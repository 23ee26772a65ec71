import Xplatbase.Lib.LinkedList
import Xplatbase.Lib.Shelves
import Xplatbase.Memory.Span

/-! Accounting of the blocks of a span: each block ever given is live, on one of the two lists or
held by one remote free, and `used` counts those that the owner has not taken back. -/
namespace Xplatbase.Memory
open Xplatbase.Lib

/-- Where a block ever given lies. `drained` is the list that the owner is walking. -/
inductive BlockPlace
  | live
  | freeing
  | localFree
  | remoteFree
  | drained
  deriving DecidableEq

def OwnerPc.node : OwnerPc → Option ℕ
  | .walking b _ => b
  | _ => none

def OwnerPc.count : OwnerPc → BitVec 32
  | .walking _ n => n
  | _ => 0

/-- The blocks that `used` counts. -/
def usedBlocks (v : BlockPlace → List ℕ) : ℕ :=
  (v .live).length + (v .freeing).length + (v .remoteFree).length + (v .drained).length

structure SpanInv {ι : Type*} (s : SpanState ι) (v : BlockPlace → List ℕ) : Prop where
  live : v .live = s.live
  freeing : v .freeing = s.freeing
  shelved : Shelved v {b | b < s.span.bumpIdx}
  localFree : Linked s.span.next s.span.localFree (v .localFree)
  remoteFree : Linked s.span.next s.span.remoteFree (v .remoteFree)
  drained : Linked s.span.next s.owner.node (v .drained)
  used : s.span.used = BitVec.ofNat 32 (usedBlocks v) + s.owner.count
  bump : s.span.bumpIdx ≤ s.span.blockCount
  fits : s.span.blockCount < 2 ^ 32
  held : ∀ i b, (s.remotes i).block = some b → b ∈ s.freeing
  holder : ∀ b ∈ s.freeing, ∃ i, (s.remotes i).block = some b
  once : ∀ i j b, (s.remotes i).block = some b → (s.remotes j).block = some b → i = j
  linked : ∀ i b head, s.remotes i = .cas b head → s.span.next b = head

namespace SpanInv

variable {ι : Type*} {s s' : SpanState ι} {v : BlockPlace → List ℕ} {b : ℕ}

theorem drained_nil (h : SpanInv s v) (ho : s.owner.node = none) : v .drained = [] := by
  have hd := h.drained
  rw [ho] at hd
  exact hd.eq_nil

/-- A write to the word of a block that is on no list and in no remote free. -/
theorem linked_update (h : SpanInv s v) (hb : b ∉ s.freeing) (w : Option ℕ) :
    ∀ i c head, s.remotes i = .cas c head → Function.update s.span.next b w c = head := by
  intro i c head hi
  have hc : c ∈ s.freeing := by
    apply h.held i
    rw [hi]
    rfl
  have hcb : c ≠ b := by
    rintro rfl
    exact hb hc
  rw [Function.update_of_ne hcb]
  exact h.linked i c head hi

theorem not_mem (h : SpanInv s v) {p q : BlockPlace} (hb : b ∈ v p) (hpq : p ≠ q) : b ∉ v q :=
  h.shelved.not_mem hb hpq

/-! ### The owner -/

theorem alloc (h : SpanInv s v) (ho : s.owner = .idle) (hs : spanAlloc s = some s') :
    ∃ v', SpanInv s' v' := by
  unfold spanAlloc at hs
  split at hs
  · rename_i b hb
    obtain rfl := Option.some.inj hs
    have hl := h.localFree
    rw [hb] at hl
    obtain ⟨t, ht, hlink⟩ := hl.eq_cons
    have hmem : b ∈ v .localFree := by
      rw [ht]
      exact List.mem_cons_self
    refine ⟨Function.update (Function.update v .localFree t) .live (b :: s.live), ?_⟩
    constructor
    · simp
    · simp [h.freeing]
    · apply h.shelved.move hmem (b := .live) (by simp)
      · simp [ht]
      · simp [h.live]
      · intro p h1 h2
        rw [Function.update_of_ne h2, Function.update_of_ne h1]
    · simpa using hlink
    · simpa using h.remoteFree
    · simpa using h.drained
    · have hu := h.used
      simp only [usedBlocks, ho, OwnerPc.count, h.live] at hu
      simp only [usedBlocks, ho, OwnerPc.count, hu]
      simp
      bv_omega
    · exact h.bump
    · exact h.fits
    · exact h.held
    · exact h.holder
    · exact h.once
    · exact h.linked
  · split_ifs at hs with hlt
    obtain rfl := Option.some.inj hs
    refine ⟨Function.update v .live (s.span.bumpIdx :: s.live), ?_⟩
    constructor
    · simp
    · simp [h.freeing]
    · have hD : {b | b < s.span.bumpIdx + 1} = insert s.span.bumpIdx {b | b < s.span.bumpIdx} := by
        ext b
        simp only [Set.mem_ofPred_eq, Set.mem_insert_iff]
        omega
      dsimp only
      rw [hD]
      apply h.shelved.add (b := .live)
      · simp
      · simp [h.live]
      · intro p hp
        rw [Function.update_of_ne hp]
    · simpa using h.localFree
    · simpa using h.remoteFree
    · simpa using h.drained
    · have hu := h.used
      simp only [usedBlocks, ho, OwnerPc.count, h.live] at hu
      simp only [usedBlocks, ho, OwnerPc.count, hu]
      simp
      bv_omega
    · exact hlt
    · exact h.fits
    · exact h.held
    · exact h.holder
    · exact h.once
    · exact h.linked

/-- The lists on which block `b` is not keep their links. -/
theorem not_freeing (h : SpanInv s v) {p : BlockPlace} (hb : b ∈ v p) (hp : p ≠ .freeing) :
    b ∉ s.freeing := by
  rw [← h.freeing]
  exact h.not_mem hb hp

theorem free (h : SpanInv s v) (ho : s.owner = .idle) (hb : b ∈ s.live) :
    ∃ v', SpanInv (spanFree s b) v' := by
  rw [← h.live] at hb
  unfold spanFree
  refine ⟨Function.update (Function.update v .live (s.live.erase b)) .localFree
    (b :: v .localFree), ?_⟩
  constructor
  · simp
  · simp [h.freeing]
  · apply h.shelved.move hb (b := .localFree) (by simp)
    · simp [h.live]
    · simp
    · intro p h1 h2
      rw [Function.update_of_ne h2, Function.update_of_ne h1]
  · simpa using h.localFree.push (h.not_mem hb (by simp))
  · simpa using h.remoteFree.update (h.not_mem hb (by simp)) _
  · simpa using h.drained.update (h.not_mem hb (by simp)) _
  · have hu := h.used
    have hlen := List.length_erase_of_mem hb
    have hpos := List.length_pos_of_mem hb
    rw [← h.live]
    simp only [usedBlocks, ho, OwnerPc.count] at hu
    simp only [usedBlocks, ho, OwnerPc.count, hu]
    simp [hlen]
    bv_omega
  · exact h.bump
  · exact h.fits
  · exact h.held
  · exact h.holder
  · exact h.once
  · exact h.linked_update (h.not_freeing hb (by simp)) _

theorem setOwner (h : SpanInv s v) (ho : s.owner.node = none) (hn : s.owner.count = 0)
    {pc : OwnerPc} (hpc : pc.node = none) (hc : pc.count = 0) :
    SpanInv { s with owner := pc } v :=
  { h with
    drained := by
      dsimp only
      rw [hpc, ← ho]
      exact h.drained
    used := by
      dsimp only
      rw [hc, ← hn]
      exact h.used }

theorem drainRemote (h : SpanInv s v) (hs : spanDrainRemote s = some s') :
    ∃ v', SpanInv s' v' := by
  unfold spanDrainRemote at hs
  split at hs
  · cases hs
  · rename_i head ho
    have hnil := h.drained_nil (by rw [ho]; rfl)
    split_ifs at hs with hhead
    · obtain rfl := Option.some.inj hs
      refine ⟨Function.update (Function.update v .remoteFree []) .drained (v .remoteFree), ?_⟩
      constructor
      · simp [h.live]
      · simp [h.freeing]
      · apply h.shelved.pour (a := .remoteFree) (b := .drained) hnil
        · simp
        · simp
        · intro p h1 h2
          rw [Function.update_of_ne h2, Function.update_of_ne h1]
      · simpa using h.localFree
      · simp [Linked]
      · rw [← hhead]
        simpa [OwnerPc.node] using h.remoteFree
      · have hu := h.used
        simp only [usedBlocks, ho, OwnerPc.count, hnil, List.length_nil] at hu
        simp [usedBlocks, OwnerPc.count, hu]
      · exact h.bump
      · exact h.fits
      · exact h.held
      · exact h.holder
      · exact h.once
      · exact h.linked
    · obtain rfl := Option.some.inj hs
      exact ⟨v, h.setOwner (by rw [ho]; rfl) (by rw [ho]; rfl) rfl rfl⟩
  · rename_i b n ho
    obtain rfl := Option.some.inj hs
    have hd := h.drained
    rw [ho] at hd
    obtain ⟨t, ht, hlink⟩ := hd.eq_cons
    have hb : b ∈ v .drained := by
      rw [ht]
      exact List.mem_cons_self
    have hbt : b ∉ t := by
      have := h.shelved.nodup .drained
      rw [ht] at this
      exact (List.nodup_cons.mp this).1
    refine ⟨Function.update (Function.update v .drained t) .localFree (b :: v .localFree), ?_⟩
    constructor
    · simp [h.live]
    · simp [h.freeing]
    · apply h.shelved.move hb (b := .localFree) (by simp)
      · simp [ht]
      · simp
      · intro p h1 h2
        rw [Function.update_of_ne h2, Function.update_of_ne h1]
    · simpa using h.localFree.push (h.not_mem hb (by simp))
    · simpa using h.remoteFree.update (h.not_mem hb (by simp)) _
    · simpa [OwnerPc.node] using hlink.update hbt _
    · have hu := h.used
      simp only [usedBlocks, ho, OwnerPc.count, ht, List.length_cons] at hu
      simp [usedBlocks, OwnerPc.count, hu]
      bv_omega
    · exact h.bump
    · exact h.fits
    · exact h.held
    · exact h.holder
    · exact h.once
    · exact h.linked_update (h.not_freeing hb (by simp)) _
  · rename_i n ho
    obtain rfl := Option.some.inj hs
    have hnil := h.drained_nil (by rw [ho]; rfl)
    refine ⟨v, ?_⟩
    constructor
    · exact h.live
    · exact h.freeing
    · exact h.shelved
    · exact h.localFree
    · exact h.remoteFree
    · rw [hnil]
      rfl
    · have hu := h.used
      rw [ho] at hu
      dsimp only [OwnerPc.count] at hu ⊢
      bv_omega
    · exact h.bump
    · exact h.fits
    · exact h.held
    · exact h.holder
    · exact h.once
    · exact h.linked

/-! ### The other threads -/

theorem userWrite (h : SpanInv s v) (hb : b ∈ s.live) (w : Option ℕ) :
    SpanInv { s with span := { s.span with next := Function.update s.span.next b w } } v := by
  rw [← h.live] at hb
  exact
    { h with
      localFree := h.localFree.update (h.not_mem hb (by simp)) w
      remoteFree := h.remoteFree.update (h.not_mem hb (by simp)) w
      drained := h.drained.update (h.not_mem hb (by simp)) w
      linked := h.linked_update (h.not_freeing hb (by simp)) w }

/-- What `used` counts fits in the span. -/
theorem usedBlocks_lt (h : SpanInv s v) :
    usedBlocks v < 2 ^ 32 := by
  have hdis (p q : BlockPlace) (hpq : p ≠ q) : ∀ a ∈ v p, ∀ b ∈ v q, a ≠ b := by
    rintro a ha b hb rfl
    exact hpq (h.shelved.once p q a ha hb)
  have hnodup : (v .live ++ (v .freeing ++ (v .remoteFree ++ v .drained))).Nodup := by
    simp only [List.nodup_append, h.shelved.nodup, List.mem_append, true_and]
    refine ⟨⟨hdis _ _ (by simp), ?_⟩, ?_⟩
    · rintro a ha b (hb | hb)
      · exact hdis _ _ (by simp) a ha b hb
      · exact hdis _ _ (by simp) a ha b hb
    · rintro a ha b (hb | hb | hb)
      · exact hdis _ _ (by simp) a ha b hb
      · exact hdis _ _ (by simp) a ha b hb
      · exact hdis _ _ (by simp) a ha b hb
  have hsub : v .live ++ (v .freeing ++ (v .remoteFree ++ v .drained)) ⊆
      List.range s.span.bumpIdx := by
    intro b hb
    rw [List.mem_range]
    simp only [List.mem_append] at hb
    rcases hb with hb | hb | hb | hb <;> exact h.shelved.mem hb
  have hlen := (List.subperm_of_subset hnodup hsub).length_le
  rw [List.length_range] at hlen
  simp only [List.length_append] at hlen
  have := h.bump
  have := h.fits
  unfold usedBlocks
  omega

theorem init (classId : ℕ) (next : ℕ → Option ℕ) :
    SpanInv (⟨spanCreate classId next, .idle, fun _ => .idle, [], []⟩ : SpanState ι)
      fun _ => [] := by
  constructor
  · rfl
  · rfl
  · constructor
    · exact fun _ => List.nodup_nil
    · intro p q b hb
      cases hb
    · intro b
      constructor
      · intro hb
        cases hb
      · rintro ⟨p, hb⟩
        cases hb
  · rfl
  · rfl
  · rfl
  · rfl
  · exact Nat.zero_le _
  · calc spanBlockCount classId ≤ memopSpanSize - memopSpanHeader := Nat.div_le_self _ _
      _ < 2 ^ 32 := by decide
  · intro i b hb
    cases hb
  · intro b hb
    cases hb
  · intro i j b hb
    cases hb
  · intro i b head hb
    cases hb

variable [DecidableEq ι] {i : ι}

theorem remoteStart (h : SpanInv s v) (hi : s.remotes i = .idle) (hb : b ∈ s.live) :
    ∃ v', SpanInv { s.setRemote i (.write b s.span.remoteFree) with
      live := s.live.erase b
      freeing := b :: s.freeing } v' := by
  rw [← h.live] at hb
  have hnew := h.not_freeing hb (by simp)
  refine ⟨Function.update (Function.update v .live (s.live.erase b)) .freeing (b :: s.freeing), ?_⟩
  constructor
  · simp
  · simp
  · apply h.shelved.move hb (b := .freeing) (by simp)
    · simp [h.live]
    · simp [h.freeing]
    · intro p h1 h2
      rw [Function.update_of_ne h2, Function.update_of_ne h1]
  · simpa [SpanState.setRemote] using h.localFree
  · simpa [SpanState.setRemote] using h.remoteFree
  · simpa [SpanState.setRemote] using h.drained
  · have hu := h.used
    have hlen := List.length_erase_of_mem hb
    have hpos := List.length_pos_of_mem hb
    rw [← h.live]
    simp only [usedBlocks] at hu
    simp only [SpanState.setRemote, usedBlocks, hu]
    simp [hlen, h.freeing]
    congr 1
    omega
  · exact h.bump
  · exact h.fits
  · intro j c hj
    by_cases hji : j = i
    · subst hji
      simp only [SpanState.setRemote, Function.update_self, RemotePc.block,
        Option.some.injEq] at hj
      rw [← hj]
      exact List.mem_cons_self
    · simp only [SpanState.setRemote, Function.update_of_ne hji] at hj
      exact List.mem_cons_of_mem _ (h.held j c hj)
  · rintro c (_ | ⟨_, hc⟩)
    · exact ⟨i, by simp [SpanState.setRemote, RemotePc.block]⟩
    · obtain ⟨j, hj⟩ := h.holder c hc
      have hji : j ≠ i := by
        rintro rfl
        rw [hi] at hj
        cases hj
      exact ⟨j, by simpa [SpanState.setRemote, Function.update_of_ne hji] using hj⟩
  · intro j k c hj hk
    by_cases hji : j = i <;> by_cases hki : k = i
    · rw [hji, hki]
    · subst hji
      simp only [SpanState.setRemote, Function.update_self, Function.update_of_ne hki,
        RemotePc.block, Option.some.injEq] at hj hk
      exact absurd (h.held k c hk) (hj ▸ hnew)
    · subst hki
      simp only [SpanState.setRemote, Function.update_self, Function.update_of_ne hji,
        RemotePc.block, Option.some.injEq] at hj hk
      exact absurd (h.held j c hj) (hk ▸ hnew)
    · simp only [SpanState.setRemote, Function.update_of_ne hji, Function.update_of_ne hki] at hj hk
      exact h.once j k c hj hk
  · intro j c head hj
    by_cases hji : j = i
    · subst hji
      simp [SpanState.setRemote] at hj
    · simp only [SpanState.setRemote, Function.update_of_ne hji] at hj
      exact h.linked j c head hj

/-- A remote free moves on with the block that it holds. -/
theorem setRemote (h : SpanInv s v) {pc : RemotePc} (hpc : pc.block = (s.remotes i).block)
    (hlink : ∀ c head, pc = .cas c head → s.span.next c = head) :
    SpanInv (s.setRemote i pc) v := by
  have hblock (j : ι) : ((s.setRemote i pc).remotes j).block = (s.remotes j).block := by
    by_cases hji : j = i
    · subst hji
      simpa [SpanState.setRemote] using hpc
    · simp [SpanState.setRemote, Function.update_of_ne hji]
  exact
    { h with
      held := fun j c hj => h.held j c (hblock j ▸ hj)
      holder := fun c hc => by
        obtain ⟨j, hj⟩ := h.holder c hc
        exact ⟨j, by rw [hblock, hj]⟩
      once := fun j k c hj hk => h.once j k c (hblock j ▸ hj) (hblock k ▸ hk)
      linked := fun j c head hj => by
        by_cases hji : j = i
        · subst hji
          simp only [SpanState.setRemote, Function.update_self] at hj
          exact hlink c head hj
        · simp only [SpanState.setRemote, Function.update_of_ne hji] at hj
          exact h.linked j c head hj }

theorem remoteFreeStep (h : SpanInv s v) (hs : spanRemoteFree s i = some s') :
    ∃ v', SpanInv s' v' := by
  unfold spanRemoteFree at hs
  split at hs
  · cases hs
  · rename_i b head hi
    obtain rfl := Option.some.inj hs
    have hb : b ∈ v .freeing := by
      rw [h.freeing]
      exact h.held i b (by rw [hi]; rfl)
    have hwrite : SpanInv { s with
        span := { s.span with next := Function.update s.span.next b head } } v :=
      { h with
        localFree := h.localFree.update (h.not_mem hb (by simp)) head
        remoteFree := h.remoteFree.update (h.not_mem hb (by simp)) head
        drained := h.drained.update (h.not_mem hb (by simp)) head
        linked := by
          intro j c hd hj
          have hcb : c ≠ b := by
            rintro rfl
            have := h.once i j c (by rw [hi]; rfl) (by rw [hj]; rfl)
            subst this
            rw [hi] at hj
            cases hj
          dsimp only
          rw [Function.update_of_ne hcb]
          exact h.linked j c hd hj }
    have hheld : (RemotePc.cas b head).block = (s.remotes i).block := by rw [hi]; rfl
    refine ⟨v, hwrite.setRemote hheld ?_⟩
    intro c hd hc
    obtain ⟨rfl, rfl⟩ := RemotePc.cas.inj hc
    exact Function.update_self ..
  · rename_i b head hi
    have hbs : b ∈ s.freeing := h.held i b (by rw [hi]; rfl)
    have hb : b ∈ v .freeing := by
      rw [h.freeing]
      exact hbs
    split_ifs at hs with hhead
    · obtain rfl := Option.some.inj hs
      have hnodup : s.freeing.Nodup := h.freeing ▸ h.shelved.nodup .freeing
      refine ⟨Function.update (Function.update v .freeing (s.freeing.erase b)) .remoteFree
        (b :: v .remoteFree), ?_⟩
      constructor
      · simp [SpanState.setRemote, h.live]
      · simp
      · apply h.shelved.move hb (b := .remoteFree) (by simp)
        · simp [h.freeing]
        · simp
        · intro p h1 h2
          rw [Function.update_of_ne h2, Function.update_of_ne h1]
      · simpa using h.localFree
      · -- the link written before the exchange is the head found by it
        have hlink := h.linked i b head hi
        rw [← hhead] at hlink
        simpa using h.remoteFree.cons hlink
      · simpa [SpanState.setRemote] using h.drained
      · have hu := h.used
        have hlen := List.length_erase_of_mem hbs
        have hpos := List.length_pos_of_mem hbs
        simp only [usedBlocks, h.freeing] at hu
        simp only [SpanState.setRemote, usedBlocks, hu]
        simp [hlen]
        congr 1
        omega
      · exact h.bump
      · exact h.fits
      · intro j c hj
        by_cases hji : j = i
        · subst hji
          simp [SpanState.setRemote, RemotePc.block] at hj
        · simp only [SpanState.setRemote, Function.update_of_ne hji] at hj
          have hcb : c ≠ b := by
            rintro rfl
            exact hji (h.once j i c hj (by rw [hi]; rfl))
          exact (hnodup.mem_erase_iff).mpr ⟨hcb, h.held j c hj⟩
      · intro c hc
        obtain ⟨hcb, hc⟩ := (hnodup.mem_erase_iff).mp hc
        obtain ⟨j, hj⟩ := h.holder c hc
        have hji : j ≠ i := by
          rintro rfl
          rw [hi] at hj
          exact hcb (Option.some.inj hj).symm
        exact ⟨j, by simpa [SpanState.setRemote, Function.update_of_ne hji] using hj⟩
      · intro j k c hj hk
        by_cases hji : j = i
        · subst hji
          simp [SpanState.setRemote, RemotePc.block] at hj
        · by_cases hki : k = i
          · subst hki
            simp [SpanState.setRemote, RemotePc.block] at hk
          · simp only [SpanState.setRemote, Function.update_of_ne hji,
              Function.update_of_ne hki] at hj hk
            exact h.once j k c hj hk
      · intro j c hd hj
        by_cases hji : j = i
        · subst hji
          simp [SpanState.setRemote] at hj
        · simp only [SpanState.setRemote, Function.update_of_ne hji] at hj
          exact h.linked j c hd hj
    · obtain rfl := Option.some.inj hs
      refine ⟨v, h.setRemote (by rw [hi]; rfl) ?_⟩
      intro c hd hc
      cases hc

/-! ### Runs -/

theorem step (h : SpanInv s v) {l : SpanLabel ι} (hs : spanStep s l = some s') :
    ∃ v', SpanInv s' v' := by
  cases l with
  | alloc =>
    simp only [spanStep] at hs
    split_ifs at hs with ho
    exact h.alloc ho hs
  | free b =>
    simp only [spanStep] at hs
    split_ifs at hs with hc
    obtain rfl := Option.some.inj hs
    exact h.free hc.1 hc.2
  | drain =>
    simp only [spanStep] at hs
    split_ifs at hs with ho
    split at hs
    · obtain rfl := Option.some.inj hs
      exact ⟨v, h⟩
    · obtain rfl := Option.some.inj hs
      exact ⟨v, h.setOwner (by rw [ho]; rfl) (by rw [ho]; rfl) rfl rfl⟩
  | owner => exact h.drainRemote hs
  | remoteFree i b =>
    simp only [spanStep] at hs
    split_ifs at hs with hc
    obtain rfl := Option.some.inj hs
    exact h.remoteStart hc.1 hc.2
  | remote i => exact h.remoteFreeStep hs
  | userWrite b w =>
    simp only [spanStep] at hs
    split_ifs at hs with hb
    obtain rfl := Option.some.inj hs
    exact ⟨v, h.userWrite hb w⟩

end SpanInv

variable {ι : Type*} [DecidableEq ι] {s : SpanState ι}

theorem spanSystem_inv {classId : ℕ} (h : (spanSystem ι classId).Reachable s) :
    ∃ v, SpanInv s v := by
  apply h.invariant
  · rintro s ⟨next, rfl⟩
    exact ⟨_, .init classId next⟩
  · rintro s l s' ⟨v, hv⟩ hs
    exact hv.step hs

/-- Every block ever given is in one place, once; `freeing` are the blocks of remote frees under
way. Between two operations of the owner nothing is being drained and `used` is exact, so that a
span with `used` zero is dead. -/
theorem span_accounting (classId : ℕ) (s : SpanState ι)
    (h : (spanSystem ι classId).Reachable s) :
    ∃ v : BlockPlace → List ℕ, v .live = s.live ∧ v .freeing = s.freeing ∧
      Linked s.span.next s.span.localFree (v .localFree) ∧
      Linked s.span.next s.span.remoteFree (v .remoteFree) ∧
      (∀ p, (v p).Nodup ∧ ∀ b ∈ v p, b < s.span.bumpIdx) ∧
      (∀ b < s.span.bumpIdx, ∃! p, b ∈ v p) ∧
      (∀ b, b ∈ s.freeing ↔ ∃! i, (s.remotes i).block = some b) ∧
      (s.owner = .idle → v .drained = [] ∧
        s.span.used.toNat = s.live.length + s.freeing.length + (v .remoteFree).length ∧
        (s.span.used = 0 → s.live = [] ∧ s.freeing = [] ∧ s.span.remoteFree = none)) := by
  obtain ⟨v, hv⟩ := spanSystem_inv h
  refine ⟨v, hv.live, hv.freeing, hv.localFree, hv.remoteFree, fun p => ?_, fun b hb => ?_,
    fun b => ?_, fun ho => ?_⟩
  · exact ⟨hv.shelved.nodup p, fun b hb => hv.shelved.mem hb⟩
  · exact hv.shelved.existsUnique hb
  · constructor
    · intro hb
      obtain ⟨i, hi⟩ := hv.holder b hb
      exact ⟨i, hi, fun j hj => hv.once j i b hj hi⟩
    · rintro ⟨i, hi, -⟩
      exact hv.held i b hi
  · have hnil := hv.drained_nil (by rw [ho]; rfl)
    have hlt := hv.usedBlocks_lt
    have hcount : s.span.used.toNat =
        s.live.length + s.freeing.length + (v .remoteFree).length := by
      rw [hv.used, ho, ← hv.live, ← hv.freeing]
      simp only [OwnerPc.count, BitVec.ofNat_eq_ofNat, BitVec.add_zero, BitVec.toNat_ofNat]
      rw [Nat.mod_eq_of_lt hlt]
      simp only [usedBlocks, hnil, List.length_nil, Nat.add_zero]
    refine ⟨hnil, hcount, fun h0 => ?_⟩
    have hzero : s.span.used.toNat = 0 := by
      rw [h0]
      rfl
    have hremote : v .remoteFree = [] := List.length_eq_zero_iff.mp (by omega)
    have hlink := hv.remoteFree
    rw [hremote] at hlink
    exact ⟨List.length_eq_zero_iff.mp (by omega), List.length_eq_zero_iff.mp (by omega), hlink⟩

/-- Two threads free a block each. The second finds the list changed and then drained, and
publishes its block while the owner still walks the first. -/
def remoteRaceRun : List (SpanLabel Bool) :=
  [.alloc, .alloc, .remoteFree false 0, .remote false, .remoteFree true 1, .remote true,
    .remote false, .remote true, .drain, .owner, .remote true, .remote true, .owner, .remote true,
    .remote true, .owner]

theorem span_accounting_race :
    ∃ s, (spanSystem Bool 0).exec ⟨spanCreate 0 fun _ => none, .idle, fun _ => .idle, [], []⟩
        remoteRaceRun = some s ∧
      s.owner = .idle ∧ s.span.localFree = some 0 ∧ s.span.remoteFree = some 1 ∧
      ∃ v : BlockPlace → List ℕ, Linked s.span.next s.span.remoteFree (v .remoteFree) ∧
        s.span.used.toNat = s.live.length + s.freeing.length + (v .remoteFree).length := by
  have hout : ((spanSystem Bool 0).exec
      ⟨spanCreate 0 fun _ => none, .idle, fun _ => .idle, [], []⟩ remoteRaceRun).map
        (fun s => (s.owner, s.span.localFree, s.span.remoteFree)) =
      some (.idle, some 0, some 1) := by
    decide +kernel
  obtain ⟨s, hrun, hs⟩ := Option.map_eq_some_iff.mp hout
  simp only [Prod.mk.injEq] at hs
  have hreach : (spanSystem Bool 0).Reachable s := System.Reachable.exec (.init ⟨_, rfl⟩) hrun
  obtain ⟨v, -, -, -, hremote, -, -, -, hidle⟩ := span_accounting 0 s hreach
  exact ⟨s, hrun, hs.1, hs.2.1, hs.2.2, v, hremote, (hidle hs.1).2.1⟩

end Xplatbase.Memory
