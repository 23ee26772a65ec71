import Xplatbase.ThreadPool.Ring
import Mathlib.Data.List.Nodup
import Mathlib.Order.Interval.Finset.Nat

/-! The ring neither loses, duplicates nor corrupts a task. Positions are counted without
wrapping; `turn j` is the position cell `j` serves now and `full j` tells whether its task is
published. A 32-bit comparison is exact because everything it can meet lies within one wrap. -/
namespace Xplatbase.ThreadPool
open Xplatbase.Lib

variable {ι τ : Type*}

structure RingView where
  turn : ℕ → ℕ
  full : ℕ → Bool

namespace RingView

/-- Cell of position `p` waits for the producer that claims, or has claimed, `p`. -/
def Free (v : RingView) (n p : ℕ) : Prop := v.turn (p % n) = p ∧ v.full (p % n) = false

/-- The task of position `p` is published and its cell not recycled. -/
def Ready (v : RingView) (n p : ℕ) : Prop := v.turn (p % n) = p ∧ v.full (p % n) = true

theorem Ready.not_free {v : RingView} {n p q : ℕ} (hp : v.Ready n p) (hq : v.Free n q) :
    p % n ≠ q % n := fun h => by
  have := hp.2
  rw [h, hq.2] at this
  simp at this

def publish (v : RingView) (j : ℕ) : RingView :=
  { v with full := Function.update v.full j true }

def recycle (v : RingView) (n j : ℕ) : RingView :=
  ⟨Function.update v.turn j (v.turn j + n), Function.update v.full j false⟩

variable {v : RingView} {n b q : ℕ}

theorem free_publish (hb : v.Free n b) :
    (v.publish (b % n)).Free n q ↔ v.Free n q ∧ q ≠ b := by
  by_cases hq : q % n = b % n
  · simp only [Free, publish, hq, Function.update_self, Bool.true_eq_false, and_false, hb.1,
      false_iff, not_and, not_not]
    exact fun h => h.1.symm
  · simp only [Free, publish, Function.update_of_ne hq, ne_eq, iff_self_and]
    rintro - rfl
    exact hq rfl

theorem ready_publish (hb : v.Free n b) :
    (v.publish (b % n)).Ready n q ↔ v.Ready n q ∨ q = b := by
  by_cases hq : q % n = b % n
  · simp only [Ready, publish, hq, Function.update_self, and_true, hb.1, hb.2,
      Bool.false_eq_true, and_false, false_or]
    exact eq_comm
  · simp only [Ready, publish, Function.update_of_ne hq, iff_self_or]
    rintro rfl
    exact absurd rfl hq

theorem free_recycle (hb : v.Ready n b) :
    (v.recycle n (b % n)).Free n q ↔ v.Free n q ∨ q = b + n := by
  by_cases hq : q % n = b % n
  · simp only [Free, recycle, hq, Function.update_self, hb.1, hb.2, and_true,
      Bool.true_eq_false, and_false, false_or]
    exact eq_comm
  · simp only [Free, recycle, Function.update_of_ne hq, iff_self_or]
    rintro rfl
    exact absurd (Nat.add_mod_right b n) hq

theorem ready_recycle (hb : v.Ready n b) :
    (v.recycle n (b % n)).Ready n q ↔ v.Ready n q ∧ q ≠ b := by
  by_cases hq : q % n = b % n
  · simp only [Ready, recycle, hq, Function.update_self, Bool.false_eq_true, and_false, hb.1,
      false_iff, not_and, not_not]
    exact fun h => h.1.symm
  · simp only [Ready, recycle, Function.update_of_ne hq, ne_eq, iff_self_and]
    rintro - rfl
    exact hq rfl

end RingView

theorem RingCap.two_le (c : RingCap) : 2 ≤ c.size :=
  Nat.pow_le_pow_right Nat.two_pos c.one_le

theorem RingCap.size_le (c : RingCap) : c.size ≤ 2 ^ 30 :=
  Nat.pow_le_pow_right Nat.two_pos c.le_thirty

@[simp] theorem RingCap.cell_ofNat (c : RingCap) (p : ℕ) :
    c.cell (BitVec.ofNat 32 p) = p % c.size :=
  c.ofNat_and_mask (le_trans c.le_thirty (by omega)) p

/-- The positions thread `i` has won and not finished with. -/
def RingThread.Holds (b p : ℕ) : RingThread τ → Prop
  | .pushCopy _ _ | .pushPublish _ _ => p = b
  | .popCopy _ n k | .popRecycle _ n k => b + k ≤ p ∧ p < b + n
  | _ => False

/-- What a thread knows. Before its CAS a thread only relies on its reads if the counter it
loaded has not moved since. -/
def RingThreadOk (c : RingCap) (h : RingHistory ι τ) (v : RingView) (i : ι) :
    RingThread τ → Prop
  | .idle | .pushReload _ => True
  | .pushSeq _ pos => ∃ P, pos = BitVec.ofNat 32 P ∧ P ≤ h.claimed.length ∧
      h.claimed.length ≤ P + (h.ops - h.loadedAt i)
  | .pushCas _ pos => ∃ P, pos = BitVec.ofNat 32 P ∧ P ≤ h.claimed.length ∧
      h.claimed.length ≤ P + (h.ops - h.loadedAt i) ∧ (h.claimed.length = P → v.Free c.size P)
  | .pushCopy t pos => pos = BitVec.ofNat 32 (h.base i) ∧ v.Free c.size (h.base i) ∧
      h.claimed[h.base i]? = some t ∧ h.base i ∉ h.filled
  | .pushPublish t pos => pos = BitVec.ofNat 32 (h.base i) ∧ v.Free c.size (h.base i) ∧
      h.claimed[h.base i]? = some t ∧ h.base i ∈ h.filled
  | .popLoad max => 1 ≤ max ∧ max < 2 ^ 31
  | .popSeq max pos n => n < max ∧ max < 2 ^ 31 ∧ ∃ P, pos = BitVec.ofNat 32 P ∧ P ≤ h.taken ∧
      h.claimed.length ≤ P + c.size + (h.ops - h.loadedAt i) ∧
      (h.taken = P → ∀ m < n, v.Ready c.size (P + m))
  | .popCas max pos n => 0 < n ∧ 1 ≤ max ∧ max < 2 ^ 31 ∧ ∃ P, pos = BitVec.ofNat 32 P ∧
      P ≤ h.taken ∧ h.claimed.length ≤ P + c.size + (h.ops - h.loadedAt i) ∧
      (h.taken = P → ∀ m < n, v.Ready c.size (P + m))
  | .popCopy pos n k => pos = BitVec.ofNat 32 (h.base i) ∧ k < n ∧ h.base i + n ≤ h.taken ∧
      ∀ m, k ≤ m → m < n → v.Ready c.size (h.base i + m) ∧
        ∀ t, (h.base i + m, t) ∉ h.delivered
  | .popRecycle pos n k => pos = BitVec.ofNat 32 (h.base i) ∧ k < n ∧ h.base i + n ≤ h.taken ∧
      (∃ t, (h.base i + k, t) ∈ h.delivered) ∧ v.Ready c.size (h.base i + k) ∧
      ∀ m, k < m → m < n → v.Ready c.size (h.base i + m) ∧
        ∀ t, (h.base i + m, t) ∉ h.delivered

structure RingInv (c : RingCap) (s : RingState ι τ) (h : RingHistory ι τ) (v : RingView) :
    Prop where
  tail : s.ring.tail = BitVec.ofNat 32 h.claimed.length
  head : s.ring.head = BitVec.ofNat 32 h.taken
  seq : ∀ j < c.size,
    (s.ring.cells j).seq = BitVec.ofNat 32 (v.turn j + (v.full j).toNat)
  turn_mod : ∀ j < c.size, v.turn j % c.size = j
  behind : ∀ p < h.claimed.length, p ≤ v.turn (p % c.size)
  ahead : ∀ j < c.size, v.turn j < h.taken + c.size
  full_lt : ∀ j < c.size, v.full j = true → v.turn j < h.claimed.length
  taken_done : ∀ p < h.taken, p < v.turn (p % c.size) ∨ v.Ready c.size p
  taken_le : h.taken ≤ h.claimed.length
  loaded_le : ∀ i, h.loadedAt i ≤ h.ops
  thread : ∀ i, RingThreadOk c h v i (s.thread i)
  holder_unique : ∀ i j p, (s.thread i).Holds (h.base i) p → (s.thread j).Holds (h.base j) p →
    i = j
  held : ∀ p < h.claimed.length, v.Free c.size p ∨ p < h.taken ∧ v.Ready c.size p →
    ∃ i, (s.thread i).Holds (h.base i) p
  filled_lt : ∀ p ∈ h.filled, p < h.claimed.length
  ready_filled : ∀ p, v.Ready c.size p → p ∈ h.filled
  ready_pushed : ∀ p, v.Ready c.size p → p ∈ h.pushed
  content : ∀ p ∈ h.filled, (∀ t, (p, t) ∉ h.delivered) →
    h.claimed[p]? = some (s.ring.cells (p % c.size)).t
  recycled : ∀ p, p ∈ h.recycled ↔ p < v.turn (p % c.size)
  recycled_delivered : ∀ p ∈ h.recycled, ∃ t, (p, t) ∈ h.delivered
  delivered_taken : ∀ d ∈ h.delivered, d.1 < h.taken ∧ h.claimed[d.1]? = some d.2 ∧
    d.1 ∈ h.pushed
  delivered_once : (h.delivered.map Prod.fst).Nodup

theorem getElem?_prefix {l l' : List τ} (hp : l <+: l') {k : ℕ} {t : τ} (h : l[k]? = some t) :
    l'[k]? = some t := by
  obtain ⟨m, rfl⟩ := hp
  rw [List.getElem?_append_left (List.getElem?_eq_some_iff.mp h).1, h]

/-- What a thread knows survives the steps of the others: counters only grow, and nobody
else touches the positions it holds. -/
theorem RingThreadOk.mono {c : RingCap} {h h' : RingHistory ι τ} {v v' : RingView} {i : ι}
    {p : RingThread τ} (hp : RingThreadOk c h v i p)
    (hclaimed : h.claimed <+: h'.claimed) (htaken : h.taken ≤ h'.taken)
    (hloaded : h.loadedAt i ≤ h.ops) (hl : h'.loadedAt i = h.loadedAt i)
    (hb : h'.base i = h.base i)
    (hops : h'.claimed.length + h.ops ≤ h.claimed.length + h'.ops)
    (hfree : h'.claimed.length = h.claimed.length →
      v.Free c.size h.claimed.length → v'.Free c.size h.claimed.length)
    (hready : h'.taken = h.taken → ∀ q, h.taken ≤ q → v.Ready c.size q → v'.Ready c.size q)
    (hheld : ∀ q, p.Holds (h.base i) q → (v.Free c.size q → v'.Free c.size q) ∧
      (v.Ready c.size q → v'.Ready c.size q) ∧ (q ∈ h'.filled ↔ q ∈ h.filled) ∧
      ∀ t, (q, t) ∈ h'.delivered ↔ (q, t) ∈ h.delivered) :
    RingThreadOk c h' v' i p := by
  have hlen := hclaimed.length_le
  cases p with
  | idle => trivial
  | pushReload t => trivial
  | popLoad max => exact hp
  | pushSeq t pos =>
    obtain ⟨P, hpos, hP, hT⟩ := hp
    exact ⟨P, hpos, by omega, by omega⟩
  | pushCas t pos =>
    obtain ⟨P, hpos, hP, hT, hf⟩ := hp
    refine ⟨P, hpos, by omega, by omega, fun he => ?_⟩
    obtain rfl : h.claimed.length = P := by omega
    exact hfree he (hf rfl)
  | pushCopy t pos =>
    obtain ⟨hpos, hf, ht, hn⟩ := hp
    obtain ⟨h1, -, h3, -⟩ := hheld (h.base i) rfl
    rw [RingThreadOk, hb]
    exact ⟨hpos, h1 hf, getElem?_prefix hclaimed ht, fun hm => hn (h3.mp hm)⟩
  | pushPublish t pos =>
    obtain ⟨hpos, hf, ht, hn⟩ := hp
    obtain ⟨h1, -, h3, -⟩ := hheld (h.base i) rfl
    rw [RingThreadOk, hb]
    exact ⟨hpos, h1 hf, getElem?_prefix hclaimed ht, h3.mpr hn⟩
  | popSeq max pos n =>
    obtain ⟨hn, hmax, P, hpos, hP, hT, hr⟩ := hp
    refine ⟨hn, hmax, P, hpos, by omega, by omega, fun he m hm => ?_⟩
    exact hready (by omega) _ (by omega) (hr (by omega) m hm)
  | popCas max pos n =>
    obtain ⟨hn, hmax, hmax', P, hpos, hP, hT, hr⟩ := hp
    refine ⟨hn, hmax, hmax', P, hpos, by omega, by omega, fun he m hm => ?_⟩
    exact hready (by omega) _ (by omega) (hr (by omega) m hm)
  | popCopy pos n k =>
    obtain ⟨hpos, hk, hbt, hr⟩ := hp
    rw [RingThreadOk, hb]
    refine ⟨hpos, hk, by omega, fun m hkm hmn => ?_⟩
    obtain ⟨-, h2, -, h4⟩ := hheld (h.base i + m) ⟨by omega, by omega⟩
    exact ⟨h2 (hr m hkm hmn).1, fun t ht => (hr m hkm hmn).2 t ((h4 t).mp ht)⟩
  | popRecycle pos n k =>
    obtain ⟨hpos, hk, hbt, ⟨t, ht⟩, hrk, hr⟩ := hp
    rw [RingThreadOk, hb]
    obtain ⟨-, h2, -, h4⟩ := hheld (h.base i + k) ⟨by omega, by omega⟩
    refine ⟨hpos, hk, by omega, ⟨t, (h4 t).mpr ht⟩, h2 hrk, fun m hkm hmn => ?_⟩
    obtain ⟨-, h2, -, h4⟩ := hheld (h.base i + m) ⟨by omega, by omega⟩
    exact ⟨h2 (hr m hkm hmn).1, fun t ht => (hr m hkm hmn).2 t ((h4 t).mp ht)⟩

namespace RingInv

variable {c : RingCap} {s : RingState ι τ} {h : RingHistory ι τ} {v : RingView}

theorem claimed_le (hs : RingInv c s h v) {j : ℕ} (hj : j < c.size) :
    h.claimed.length ≤ v.turn j + c.size := by
  by_contra hlt
  have := hs.behind (v.turn j + c.size) (by omega)
  rw [Nat.add_mod_right, hs.turn_mod j hj] at this
  have := c.size_pos
  omega

/-- At most `size` positions are claimed and not taken. -/
theorem claimed_le_taken (hs : RingInv c s h v) : h.claimed.length ≤ h.taken + c.size := by
  by_contra hlt
  have hb := hs.behind (h.taken + c.size) (by omega)
  rw [Nat.add_mod_right] at hb
  have := hs.ahead (h.taken % c.size) (Nat.mod_lt _ c.size_pos)
  omega

theorem ready_lt (hs : RingInv c s h v) {p : ℕ} (hp : v.Ready c.size p) :
    p < h.claimed.length := by
  have := hs.full_lt (p % c.size) (Nat.mod_lt _ c.size_pos) hp.2
  rwa [hp.1] at this

theorem holds_lt (hs : RingInv c s h v) {i : ι} {p : ℕ}
    (hp : (s.thread i).Holds (h.base i) p) : p < h.claimed.length := by
  have ht := hs.thread i
  have hle := hs.taken_le
  cases hpc : s.thread i <;> rw [hpc] at hp ht <;> simp only [RingThread.Holds] at hp
  · subst hp
    exact (List.getElem?_eq_some_iff.mp ht.2.2.1).1
  · subst hp
    exact (List.getElem?_eq_some_iff.mp ht.2.2.1).1
  · have := ht.2.2.1
    omega
  · have := ht.2.2.1
    omega

/-- A position is held either free by its producer or ready by its consumer. -/
theorem holds_state (hs : RingInv c s h v) {i : ι} {p : ℕ}
    (hp : (s.thread i).Holds (h.base i) p) :
    v.Free c.size p ∧ h.taken ≤ p ∨ v.Ready c.size p ∧ p < h.taken := by
  have ht := hs.thread i
  have hfree : ∀ q, v.Free c.size q → h.taken ≤ q := by
    intro q hq
    by_contra hlt
    rcases hs.taken_done q (by omega) with hd | hd
    · rw [hq.1] at hd
      omega
    · exact hd.not_free hq rfl
  cases hpc : s.thread i <;> rw [hpc] at hp ht <;> simp only [RingThread.Holds] at hp
  · subst hp
    exact .inl ⟨ht.2.1, hfree _ ht.2.1⟩
  · subst hp
    exact .inl ⟨ht.2.1, hfree _ ht.2.1⟩
  · obtain ⟨m, rfl⟩ := Nat.exists_eq_add_of_le (show h.base i ≤ p by omega)
    exact .inr ⟨(ht.2.2.2 m (by omega) (by omega)).1, by have := ht.2.2.1; omega⟩
  · obtain ⟨m, rfl⟩ := Nat.exists_eq_add_of_le (show h.base i ≤ p by omega)
    have := ht.2.2.1
    refine .inr ⟨?_, by omega⟩
    rename_i k
    rcases Nat.eq_or_lt_of_le (show k ≤ m by omega) with rfl | hlt
    · exact ht.2.2.2.2.1
    · exact (ht.2.2.2.2.2 m hlt (by omega)).1

/-- A step inside one thread that moves no counter, no cell and no held position. -/
theorem setThread [DecidableEq ι] (hs : RingInv c s h v) {i : ι} {p : RingThread τ}
    (hp : RingThreadOk c h v i p)
    (hholds : ∀ q, p.Holds (h.base i) q ↔ (s.thread i).Holds (h.base i) q) :
    RingInv c { s with thread := Function.update s.thread i p } h v := by
  have hiff : ∀ j q, (Function.update s.thread i p j).Holds (h.base j) q ↔
      (s.thread j).Holds (h.base j) q := by
    intro j q
    by_cases hj : j = i
    · subst hj
      rw [Function.update_self]
      exact hholds q
    · rw [Function.update_of_ne hj]
  refine { hs with thread := fun j => ?_, holder_unique := fun j k q hjq hkq => ?_, held := ?_ }
  · by_cases hj : j = i
    · subst hj
      simpa only [Function.update_self] using hp
    · simpa only [Function.update_of_ne hj] using hs.thread j
  · exact hs.holder_unique j k q ((hiff j q).mp hjq) ((hiff k q).mp hkq)
  · intro q hq hst
    obtain ⟨j, hj⟩ := hs.held q hq hst
    exact ⟨j, (hiff j q).mpr hj⟩

/-- A load of `tail` or `head` by a thread that relies on no earlier load. -/
theorem load [DecidableEq ι] (hs : RingInv c s h v) {i : ι}
    (hi : RingThreadOk c (h.record i .loaded) v i (s.thread i)) :
    RingInv c s (h.record i .loaded) v := by
  have hl : ∀ j, j ≠ i → (h.record i .loaded).loadedAt j = h.loadedAt j := fun j hj =>
    Function.update_of_ne hj _ _
  refine { hs with loaded_le := fun j => ?_, thread := fun j => ?_ }
  · by_cases hj : j = i
    · subst hj
      simp [RingHistory.record]
    · rw [hl j hj]
      exact hs.loaded_le j
  · by_cases hj : j = i
    · subst hj
      exact hi
    · exact (hs.thread j).mono (List.prefix_refl _) le_rfl (hs.loaded_le j) (hl j hj) rfl le_rfl
        (fun _ => id) (fun _ _ _ => id) fun _ _ => ⟨id, id, Iff.rfl, fun _ => Iff.rfl⟩

/-- `pool_cas32(&r->tail, pos, pos+1u)` succeeds. -/
theorem claimPush [DecidableEq ι] (hs : RingInv c s h v) {i : ι} {t : τ} {pos : BitVec 32}
    (hpc : s.thread i = .pushCas t pos) (hcas : s.ring.tail = pos)
    (hrecent : h.ops - h.loadedAt i < 2 ^ 31) :
    RingInv c ⟨{ s.ring with tail := pos + 1 }, Function.update s.thread i (.pushCopy t pos)⟩
      (h.record i (.pushClaimed t)) v := by
  have hi := hs.thread i
  rw [hpc] at hi
  obtain ⟨P, rfl, hP, hT, hf⟩ := hi
  -- the counter did not wrap since the load, so it did not move
  have hsz := c.size_le
  obtain rfl : h.claimed.length = P :=
    ofNat_inj_near (hs.tail.symm.trans hcas) (by omega) (by omega)
  have hfree := hf rfl
  have hnohold : ∀ q, ¬ (s.thread i).Holds (h.base i) q := fun q hq => by
    rw [hpc] at hq
    exact hq
  have hbase : ∀ j, j ≠ i → (h.record i (.pushClaimed t)).base j = h.base j := fun j hj =>
    Function.update_of_ne hj _ _
  have hbi : (h.record i (.pushClaimed t)).base i = h.claimed.length := Function.update_self ..
  have hholds : ∀ j q, (Function.update s.thread i (.pushCopy t (BitVec.ofNat 32 h.claimed.length))
      j).Holds ((h.record i (.pushClaimed t)).base j) q ↔
        (j = i ∧ q = h.claimed.length) ∨ (s.thread j).Holds (h.base j) q := by
    intro j q
    by_cases hj : j = i
    · subst hj
      rw [Function.update_self, hbi]
      exact ⟨fun hq => .inl ⟨rfl, hq⟩, fun hq => hq.elim And.right fun hq => (hnohold q hq).elim⟩
    · rw [Function.update_of_ne hj, hbase j hj]
      simp [hj]
  have happ : ∀ {k : ℕ} {u : τ}, h.claimed[k]? = some u → (h.claimed ++ [t])[k]? = some u :=
    getElem?_prefix (List.prefix_append _ _)
  have hlen : (h.claimed ++ [t]).length = h.claimed.length + 1 := by simp
  constructor
  · simp only [RingHistory.record, hlen, BitVec.ofNat_add]
    rfl
  · exact hs.head
  · exact hs.seq
  · exact hs.turn_mod
  · intro p hp
    simp only [RingHistory.record, hlen] at hp
    rcases Nat.lt_succ_iff_lt_or_eq.mp hp with hp | rfl
    · exact hs.behind p hp
    · exact hfree.1.ge
  · exact hs.ahead
  · intro j hj hfull
    simp only [RingHistory.record, hlen]
    exact Nat.lt_succ_of_lt (hs.full_lt j hj hfull)
  · exact hs.taken_done
  · simp only [RingHistory.record, hlen]
    exact Nat.le_succ_of_le hs.taken_le
  · exact fun j => Nat.le_succ_of_le (hs.loaded_le j)
  · intro j
    by_cases hj : j = i
    · subst hj
      simp only [Function.update_self, RingThreadOk, hbi]
      refine ⟨trivial, hfree, by simp [RingHistory.record], fun hm => ?_⟩
      exact absurd (hs.filled_lt _ hm) (lt_irrefl _)
    · simp only [Function.update_of_ne hj]
      refine (hs.thread j).mono (List.prefix_append _ _) le_rfl (hs.loaded_le j) rfl (hbase j hj)
        ?_ (fun he => ?_) (fun _ _ _ => id) fun _ _ => ⟨id, id, Iff.rfl, fun _ => Iff.rfl⟩
      · simp only [RingHistory.record, hlen]
        omega
      · simp only [RingHistory.record, hlen] at he
        omega
  · intro j k q hjq hkq
    have hlt : ∀ m, (s.thread m).Holds (h.base m) h.claimed.length → False := fun m hm =>
      lt_irrefl _ (hs.holds_lt hm)
    rcases (hholds j q).mp hjq with ⟨hj, hq⟩ | hjq' <;>
      rcases (hholds k q).mp hkq with ⟨hk, hq'⟩ | hkq'
    · rw [hj, hk]
    · exact (hlt k (hq ▸ hkq')).elim
    · exact (hlt j (hq' ▸ hjq')).elim
    · exact hs.holder_unique j k q hjq' hkq'
  · intro q hq hst
    simp only [RingHistory.record, hlen] at hq
    rcases Nat.lt_succ_iff_lt_or_eq.mp hq with hq | rfl
    · obtain ⟨j, hj⟩ := hs.held q hq hst
      exact ⟨j, (hholds j q).mpr (.inr hj)⟩
    · exact ⟨i, (hholds i _).mpr (.inl ⟨rfl, rfl⟩)⟩
  · intro q hq
    simp only [RingHistory.record, hlen]
    exact Nat.lt_succ_of_lt (hs.filled_lt q hq)
  · exact hs.ready_filled
  · exact hs.ready_pushed
  · exact fun q hq hd => happ (hs.content q hq hd)
  · exact hs.recycled
  · exact hs.recycled_delivered
  · intro d hd
    obtain ⟨h1, h2, h3⟩ := hs.delivered_taken d hd
    exact ⟨h1, happ h2, h3⟩
  · exact hs.delivered_once

/-- The cell a producer is about to fill holds no task that is still to be copied. -/
theorem refilled (hs : RingInv c s h v) {i : ι} {t : τ} {pos : BitVec 32}
    (hpc : s.thread i = .pushCopy t pos) {q : ℕ} (hq : q ∈ h.filled)
    (hmod : q % c.size = h.base i % c.size) : ∃ u, (q, u) ∈ h.delivered := by
  have hi := hs.thread i
  rw [hpc] at hi
  obtain ⟨-, hfree, -, hnew⟩ := hi
  have hne : q ≠ h.base i := fun he => hnew (he ▸ hq)
  have hle := hs.behind q (hs.filled_lt q hq)
  rw [hmod, hfree.1] at hle
  exact hs.recycled_delivered q ((hs.recycled q).mpr (by rw [hmod, hfree.1]; omega))

/-- `c->t = *t` by the producer that won position `base i`. -/
theorem fill [DecidableEq ι] (hs : RingInv c s h v) {i : ι} {t : τ} {pos : BitVec 32}
    (hpc : s.thread i = .pushCopy t pos) :
    RingInv c ⟨s.ring.setTask (c.cell pos) t, Function.update s.thread i (.pushPublish t pos)⟩
      (h.record i .filled) v := by
  have hi := hs.thread i
  rw [hpc] at hi
  obtain ⟨rfl, hfree, ht, hnew⟩ := hi
  have hiff : ∀ j q, (Function.update s.thread i (.pushPublish t (BitVec.ofNat 32 (h.base i)))
      j).Holds (h.base j) q ↔ (s.thread j).Holds (h.base j) q := by
    intro j q
    by_cases hj : j = i
    · subst hj
      rw [Function.update_self, hpc]
      exact Iff.rfl
    · rw [Function.update_of_ne hj]
  have hown : ∀ {j}, j ≠ i → ¬ (s.thread j).Holds (h.base j) (h.base i) := fun hj hq =>
    hj (hs.holder_unique _ i _ hq (by rw [hpc]; rfl))
  refine { hs with
    seq := fun j hj => ?_, thread := fun j => ?_
    holder_unique := fun j k q hj hk => hs.holder_unique j k q ((hiff j q).mp hj) ((hiff k q).mp hk)
    held := fun q hq hst => ?_, filled_lt := fun q hq => ?_
    ready_filled := fun q hq => List.mem_cons_of_mem _ (hs.ready_filled q hq)
    content := fun q hq hd => ?_ }
  · simpa using hs.seq j hj
  · by_cases hj : j = i
    · subst hj
      simp only [Function.update_self]
      exact ⟨rfl, hfree, ht, List.mem_cons_self⟩
    · simp only [Function.update_of_ne hj]
      refine (hs.thread j).mono (List.prefix_refl _) le_rfl (hs.loaded_le j) rfl rfl le_rfl
        (fun _ => id) (fun _ _ _ => id) fun q hq => ⟨id, id, ?_, fun _ => Iff.rfl⟩
      simp only [RingHistory.record, List.mem_cons, or_iff_right_iff_imp]
      rintro rfl
      exact absurd hq (hown hj)
  · obtain ⟨j, hj⟩ := hs.held q hq hst
    exact ⟨j, (hiff j q).mpr hj⟩
  · rcases List.mem_cons.mp hq with rfl | hq
    · exact (List.getElem?_eq_some_iff.mp ht).1
    · exact hs.filled_lt q hq
  · rcases List.mem_cons.mp hq with rfl | hq
    · simpa [PoolRing.setTask_t, RingHistory.record] using ht
    · have hmod : q % c.size ≠ h.base i % c.size := fun hm =>
        (hs.refilled hpc hq hm).elim hd
      simpa [PoolRing.setTask_t, RingHistory.record, hmod] using hs.content q hq hd

/-- `pool_st32_rel(&c->seq, pos+1u)`: the task becomes visible to consumers. -/
theorem publish [DecidableEq ι] (hs : RingInv c s h v) {i : ι} {t : τ} {pos : BitVec 32}
    (hpc : s.thread i = .pushPublish t pos) :
    RingInv c ⟨s.ring.setSeq (c.cell pos) (pos + 1), Function.update s.thread i .idle⟩
      (h.record i .pushed) (v.publish (h.base i % c.size)) := by
  have hi := hs.thread i
  rw [hpc] at hi
  obtain ⟨rfl, hfree, ht, hfilled⟩ := hi
  have hlt := (List.getElem?_eq_some_iff.mp ht).1
  have hown : ∀ {j}, j ≠ i → ¬ (s.thread j).Holds (h.base j) (h.base i) := fun hj hq =>
    hj (hs.holder_unique _ i _ hq (by rw [hpc]; rfl))
  have hholds : ∀ j q, (Function.update s.thread i .idle j).Holds (h.base j) q →
      j ≠ i ∧ (s.thread j).Holds (h.base j) q := by
    intro j q hq
    by_cases hj : j = i
    · subst hj
      rw [Function.update_self] at hq
      exact hq.elim
    · rw [Function.update_of_ne hj] at hq
      exact ⟨hj, hq⟩
  have hturn : (v.publish (h.base i % c.size)).turn = v.turn := rfl
  have hmod : h.base i % c.size < c.size := Nat.mod_lt _ c.size_pos
  refine { hs with
    seq := fun j hj => ?_, full_lt := fun j hj hf => ?_
    taken_done := fun q hq => (hs.taken_done q hq).imp id fun hr =>
      (RingView.ready_publish hfree).mpr (.inl hr)
    thread := fun j => ?_
    holder_unique := fun j k q hj hk =>
      hs.holder_unique j k q (hholds j q hj).2 (hholds k q hk).2
    held := fun q hq hst => ?_
    ready_filled := fun q hq => ?_, ready_pushed := fun q hq => ?_
    content := fun q hq hd => ?_
    delivered_taken := fun d hd => ?_ }
  · by_cases hjc : j = h.base i % c.size
    · subst hjc
      simp [PoolRing.setSeq_seq, RingView.publish, hfree.1, BitVec.ofNat_add]
    · simpa [PoolRing.setSeq_seq, RingView.publish, hjc] using hs.seq j hj
  · rw [hturn]
    by_cases hjc : j = h.base i % c.size
    · subst hjc
      rwa [hfree.1]
    · simp only [RingView.publish, Function.update_of_ne hjc] at hf
      exact hs.full_lt j hj hf
  · by_cases hj : j = i
    · subst hj
      simp only [Function.update_self]
      trivial
    · simp only [Function.update_of_ne hj]
      refine (hs.thread j).mono (List.prefix_refl _) le_rfl (hs.loaded_le j) rfl rfl le_rfl
        (fun _ hf => (RingView.free_publish hfree).mpr ⟨hf, hlt.ne'⟩)
        (fun _ q _ hr => (RingView.ready_publish hfree).mpr (.inl hr))
        fun q hq => ⟨fun hf => ?_, fun hr => (RingView.ready_publish hfree).mpr (.inl hr),
          Iff.rfl, fun _ => Iff.rfl⟩
      refine (RingView.free_publish hfree).mpr ⟨hf, ?_⟩
      rintro rfl
      exact hown hj hq
  · have hst' : q ≠ h.base i ∧ (v.Free c.size q ∨ q < h.taken ∧ v.Ready c.size q) := by
      rcases hst with hf | ⟨hqt, hr⟩
      · exact ⟨((RingView.free_publish hfree).mp hf).2, .inl ((RingView.free_publish hfree).mp hf).1⟩
      · have hne : q ≠ h.base i := by
          rintro rfl
          have hst := hs.holds_state (i := i) (p := h.base i) (by rw [hpc]; rfl)
          rcases hst with ⟨-, hle⟩ | ⟨hr', -⟩
          · exact absurd hqt hle.not_gt
          · exact hr'.not_free hfree rfl
        exact ⟨hne, .inr ⟨hqt, ((RingView.ready_publish hfree).mp hr).resolve_right hne⟩⟩
    obtain ⟨j, hj⟩ := hs.held q hq hst'.2
    have hji : j ≠ i := by
      rintro rfl
      rw [hpc] at hj
      exact hst'.1 hj
    exact ⟨j, by simpa only [Function.update_of_ne hji, RingHistory.record] using hj⟩
  · rcases (RingView.ready_publish hfree).mp hq with hr | rfl
    · exact hs.ready_filled q hr
    · exact hfilled
  · rcases (RingView.ready_publish hfree).mp hq with hr | rfl
    · exact List.mem_cons_of_mem _ (hs.ready_pushed q hr)
    · exact List.mem_cons_self
  · simpa [RingHistory.record] using hs.content q hq hd
  · obtain ⟨h1, h2, h3⟩ := hs.delivered_taken d hd
    exact ⟨h1, h2, List.mem_cons_of_mem _ h3⟩

/-- `pool_cas32(&r->head, pos, pos+(uint32_t)n)` succeeds: `n` positions are won at once. -/
theorem claimPop [DecidableEq ι] (hs : RingInv c s h v) {i : ι} {max n : ℕ} {pos : BitVec 32}
    (hpc : s.thread i = .popCas max pos n) (hcas : s.ring.head = pos)
    (hrecent : h.ops - h.loadedAt i < 2 ^ 31) :
    RingInv c ⟨{ s.ring with head := pos + BitVec.ofNat 32 n },
      Function.update s.thread i (.popCopy pos n 0)⟩ (h.record i (.popClaimed n)) v := by
  have hi := hs.thread i
  rw [hpc] at hi
  obtain ⟨hn, -, -, P, rfl, hP, hT, hr⟩ := hi
  have hsz := c.size_le
  have htl := hs.taken_le
  obtain rfl : h.taken = P :=
    ofNat_inj_near (hs.head.symm.trans hcas) (by omega) (by omega)
  have hready := hr rfl
  have hbase : ∀ j, j ≠ i → (h.record i (.popClaimed n)).base j = h.base j := fun j hj =>
    Function.update_of_ne hj _ _
  have hbi : (h.record i (.popClaimed n)).base i = h.taken := Function.update_self ..
  have hnohold : ∀ q, ¬ (s.thread i).Holds (h.base i) q := fun q hq => by
    rw [hpc] at hq
    exact hq
  have hholds : ∀ j q, (Function.update s.thread i (.popCopy (BitVec.ofNat 32 h.taken) n 0)
      j).Holds ((h.record i (.popClaimed n)).base j) q ↔
        (j = i ∧ h.taken ≤ q ∧ q < h.taken + n) ∨ (s.thread j).Holds (h.base j) q := by
    intro j q
    by_cases hj : j = i
    · subst hj
      rw [Function.update_self, hbi]
      exact ⟨fun hq => .inl ⟨rfl, hq⟩, fun hq => hq.elim And.right fun hq => (hnohold q hq).elim⟩
    · rw [Function.update_of_ne hj, hbase j hj]
      simp [hj]
  have hwon : ∀ q, h.taken ≤ q → q < h.taken + n → v.Ready c.size q := by
    intro q hle hlt
    obtain ⟨m, rfl⟩ := Nat.exists_eq_add_of_le hle
    exact hready m (by omega)
  have hothers : ∀ j q, h.taken ≤ q → q < h.taken + n → ¬ (s.thread j).Holds (h.base j) q := by
    intro j q hle hlt hq
    rcases hs.holds_state hq with ⟨hf, -⟩ | ⟨-, hlt'⟩
    · exact (hwon q hle hlt).not_free hf rfl
    · omega
  refine { hs with
    head := by simp only [RingHistory.record, BitVec.ofNat_add]
    ahead := fun j hj => ?_, taken_done := fun p hp => ?_, taken_le := ?_
    loaded_le := fun j => Nat.le_succ_of_le (hs.loaded_le j)
    thread := fun j => ?_, holder_unique := fun j k q hjq hkq => ?_, held := fun q hq hst => ?_
    delivered_taken := fun d hd => ?_ }
  · have := hs.ahead j hj
    simp only [RingHistory.record]
    omega
  · rcases Nat.lt_or_ge p h.taken with hlt | hge
    · exact hs.taken_done p hlt
    · exact .inr (hwon p hge hp)
  · have := hs.ready_lt (hready (n - 1) (by omega))
    simp only [RingHistory.record]
    omega
  · by_cases hj : j = i
    · subst hj
      simp only [Function.update_self, RingThreadOk, hbi]
      refine ⟨trivial, hn, le_rfl, fun m _ hm => ⟨hready m hm, fun t ht => ?_⟩⟩
      have := (hs.delivered_taken _ ht).1
      omega
    · simp only [Function.update_of_ne hj]
      refine (hs.thread j).mono (List.prefix_refl _) (Nat.le_add_right _ _) (hs.loaded_le j) rfl
        (hbase j hj) ?_ (fun _ => id) (fun he => ?_) fun _ _ => ⟨id, id, Iff.rfl, fun _ => Iff.rfl⟩
      · simp only [RingHistory.record]
        omega
      · simp only [RingHistory.record] at he
        omega
  · rcases (hholds j q).mp hjq with ⟨hj, hq⟩ | hjq' <;>
      rcases (hholds k q).mp hkq with ⟨hk, hq'⟩ | hkq'
    · rw [hj, hk]
    · exact (hothers k q hq.1 hq.2 hkq').elim
    · exact (hothers j q hq'.1 hq'.2 hjq').elim
    · exact hs.holder_unique j k q hjq' hkq'
  · have hcase : (h.taken ≤ q ∧ q < h.taken + n) ∨
        (v.Free c.size q ∨ q < h.taken ∧ v.Ready c.size q) := by
      rcases hst with hf | ⟨hqt, hr'⟩
      · exact .inr (.inl hf)
      · rcases Nat.lt_or_ge q h.taken with hlt | hge
        · exact .inr (.inr ⟨hlt, hr'⟩)
        · exact .inl ⟨hge, hqt⟩
    rcases hcase with hq' | hst'
    · exact ⟨i, (hholds i q).mpr (.inl ⟨rfl, hq'⟩)⟩
    · obtain ⟨j, hj⟩ := hs.held q hq hst'
      exact ⟨j, (hholds j q).mpr (.inr hj)⟩
  · have := hs.delivered_taken d hd
    exact ⟨Nat.lt_add_right n this.1, this.2⟩

/-- `out[i] = c->t` by the consumer that won position `base i + k`. -/
theorem copy [DecidableEq ι] (hs : RingInv c s h v) {i : ι} {n k : ℕ} {pos : BitVec 32}
    (hpc : s.thread i = .popCopy pos n k) :
    RingInv c { s with thread := Function.update s.thread i (.popRecycle pos n k) }
      (h.record i (.copied k (s.ring.cells (c.cell (pos + BitVec.ofNat 32 k))).t)) v := by
  have hi := hs.thread i
  rw [hpc] at hi
  obtain ⟨rfl, hk, hbt, hr⟩ := hi
  obtain ⟨hready, hnew⟩ := hr k le_rfl hk
  have hcell : c.cell (BitVec.ofNat 32 (h.base i) + BitVec.ofNat 32 k) =
      (h.base i + k) % c.size := by rw [← BitVec.ofNat_add, c.cell_ofNat]
  rw [hcell]
  have hiff : ∀ j q, (Function.update s.thread i (.popRecycle (BitVec.ofNat 32 (h.base i)) n k)
      j).Holds (h.base j) q ↔ (s.thread j).Holds (h.base j) q := by
    intro j q
    by_cases hj : j = i
    · subst hj
      rw [Function.update_self, hpc]
      exact Iff.rfl
    · rw [Function.update_of_ne hj]
  have hown : ∀ {j}, j ≠ i → ¬ (s.thread j).Holds (h.base j) (h.base i + k) := fun hj hq =>
    hj (hs.holder_unique _ i _ hq (by rw [hpc]; exact ⟨le_rfl, by omega⟩))
  refine { hs with
    thread := fun j => ?_
    holder_unique := fun j k' q hj hk' =>
      hs.holder_unique j k' q ((hiff j q).mp hj) ((hiff k' q).mp hk')
    held := fun q hq hst => ?_
    content := fun q hq hd => hs.content q hq fun t ht => hd t (List.mem_cons_of_mem _ ht)
    recycled_delivered := fun q hq => (hs.recycled_delivered q hq).imp fun t ht =>
      List.mem_cons_of_mem _ ht
    delivered_taken := fun d hd => ?_, delivered_once := ?_ }
  · by_cases hj : j = i
    · subst hj
      simp only [Function.update_self]
      refine ⟨rfl, hk, hbt, ⟨_, List.mem_cons_self⟩, hready, fun m hkm hm => ?_⟩
      refine ⟨(hr m hkm.le hm).1, fun t ht => ?_⟩
      rcases List.mem_cons.mp ht with he | ht
      · have : h.base j + m = h.base j + k := (Prod.mk.inj he).1
        omega
      · exact (hr m hkm.le hm).2 t ht
    · simp only [Function.update_of_ne hj]
      refine (hs.thread j).mono (List.prefix_refl _) le_rfl (hs.loaded_le j) rfl rfl le_rfl
        (fun _ => id) (fun _ _ _ => id) fun q hq => ⟨id, id, Iff.rfl, fun t => ?_⟩
      simp only [RingHistory.record, List.mem_cons, or_iff_right_iff_imp, Prod.mk.injEq]
      rintro ⟨rfl, -⟩
      exact absurd hq (hown hj)
  · obtain ⟨j, hj⟩ := hs.held q hq hst
    exact ⟨j, (hiff j q).mpr hj⟩
  · rcases List.mem_cons.mp hd with rfl | hd
    · exact ⟨show h.base i + k < h.taken by omega,
        hs.content _ (hs.ready_filled _ hready) hnew, hs.ready_pushed _ hready⟩
    · exact hs.delivered_taken d hd
  · refine List.nodup_cons.mpr ⟨fun hm => ?_, hs.delivered_once⟩
    obtain ⟨⟨q, t⟩, hd, rfl⟩ := List.mem_map.mp hm
    exact hnew t hd

/-- `pool_st32_rel(&c->seq, pos+i+r->mask+1u)`: the cell serves the next lap. -/
theorem recycle [DecidableEq ι] (hs : RingInv c s h v) {i : ι} {n k : ℕ} {pos : BitVec 32}
    (hpc : s.thread i = .popRecycle pos n k) :
    RingInv c ⟨s.ring.setSeq (c.cell (pos + BitVec.ofNat 32 k))
        (pos + BitVec.ofNat 32 k + BitVec.ofNat 32 c.mask + 1),
      Function.update s.thread i (if k + 1 < n then .popCopy pos n (k + 1) else .idle)⟩
      (h.record i (.recycled k)) (v.recycle c.size ((h.base i + k) % c.size)) := by
  have hi := hs.thread i
  rw [hpc] at hi
  obtain ⟨rfl, hk, hbt, ⟨t, ht⟩, hready, hr⟩ := hi
  have hpos := c.size_pos
  have hnext : BitVec.ofNat 32 (h.base i) + BitVec.ofNat 32 k + BitVec.ofNat 32 c.mask + 1 =
      BitVec.ofNat 32 (h.base i + k + c.size) := by
    rw [show h.base i + k + c.size = h.base i + k + c.mask + 1 by
      rw [Pow2.mask]; omega, BitVec.ofNat_add, BitVec.ofNat_add, BitVec.ofNat_add]
    rfl
  have hcell : c.cell (BitVec.ofNat 32 (h.base i) + BitVec.ofNat 32 k) =
      (h.base i + k) % c.size := by rw [← BitVec.ofNat_add, c.cell_ofNat]
  rw [hnext, hcell]
  generalize hb : h.base i + k = b at *
  have hbH : b < h.taken := by omega
  have hturn : ∀ j, v.turn j ≤ (v.recycle c.size (b % c.size)).turn j := by
    intro j
    by_cases hj : j = b % c.size <;> simp [RingView.recycle, hj]
  have hown : ∀ {j}, j ≠ i → ¬ (s.thread j).Holds (h.base j) b := fun hj hq =>
    hj (hs.holder_unique _ i _ hq (by rw [hpc]; exact ⟨by omega, by omega⟩))
  have hholds : ∀ j q, (Function.update s.thread i (if k + 1 < n then
      .popCopy (BitVec.ofNat 32 (h.base i)) n (k + 1) else .idle) j).Holds (h.base j) q ↔
        (s.thread j).Holds (h.base j) q ∧ q ≠ b := by
    intro j q
    by_cases hj : j = i
    · subst hj
      rw [Function.update_self, hpc]
      split_ifs with hkn <;> simp only [RingThread.Holds]
      · omega
      · exact ⟨False.elim, fun hq => by omega⟩
    · rw [Function.update_of_ne hj, iff_self_and]
      rintro hq rfl
      exact hown hj hq
  refine { hs with
    seq := fun j hj => ?_, turn_mod := fun j hj => ?_, behind := fun p hp => ?_
    ahead := fun j hj => ?_, full_lt := fun j hj hf => ?_, taken_done := fun p hp => ?_
    thread := fun j => ?_
    holder_unique := fun j l q hjq hlq =>
      hs.holder_unique j l q ((hholds j q).mp hjq).1 ((hholds l q).mp hlq).1
    held := fun q hq hst => ?_
    ready_filled := fun q hq => hs.ready_filled q ((RingView.ready_recycle hready).mp hq).1
    ready_pushed := fun q hq => hs.ready_pushed q ((RingView.ready_recycle hready).mp hq).1
    content := fun q hq hd => ?_
    recycled := fun q => ?_
    recycled_delivered := fun q hq => ?_ }
  · by_cases hjc : j = b % c.size
    · subst hjc
      simp [PoolRing.setSeq_seq, RingView.recycle, hready.1]
    · simpa [PoolRing.setSeq_seq, RingView.recycle, hjc] using hs.seq j hj
  · by_cases hjc : j = b % c.size
    · subst hjc
      simp [RingView.recycle, hready.1]
    · simpa [RingView.recycle, hjc] using hs.turn_mod j hj
  · exact le_trans (hs.behind p hp) (hturn _)
  · by_cases hjc : j = b % c.size
    · subst hjc
      simpa [RingHistory.record, RingView.recycle, hready.1] using hbH
    · simpa [RingHistory.record, RingView.recycle, hjc] using hs.ahead j hj
  · by_cases hjc : j = b % c.size
    · subst hjc
      simp [RingView.recycle] at hf
    · simp only [RingView.recycle, Function.update_of_ne hjc] at hf ⊢
      exact hs.full_lt j hj hf
  · rcases hs.taken_done p hp with hlt | hr'
    · exact .inl (lt_of_lt_of_le hlt (hturn _))
    · by_cases hpb : p = b
      · subst hpb
        exact .inl (by simpa [RingView.recycle, hready.1] using hpos)
      · exact .inr ((RingView.ready_recycle hready).mpr ⟨hr', hpb⟩)
  · by_cases hj : j = i
    · subst hj
      simp only [Function.update_self]
      split_ifs with hkn
      · refine ⟨rfl, hkn, hbt, fun m hkm hm => ?_⟩
        obtain ⟨hr1, hr2⟩ := hr m hkm hm
        exact ⟨(RingView.ready_recycle hready).mpr ⟨hr1, show h.base j + m ≠ b by omega⟩, hr2⟩
      · trivial
    · simp only [Function.update_of_ne hj]
      refine (hs.thread j).mono (List.prefix_refl _) le_rfl (hs.loaded_le j) rfl rfl le_rfl
        (fun _ hf => (RingView.free_recycle hready).mpr (.inl hf))
        (fun _ q hq hr' => (RingView.ready_recycle hready).mpr ⟨hr', by omega⟩)
        fun q hq => ⟨fun hf => (RingView.free_recycle hready).mpr (.inl hf),
          fun hr' => (RingView.ready_recycle hready).mpr ⟨hr', ?_⟩, Iff.rfl, fun _ => Iff.rfl⟩
      rintro rfl
      exact hown hj hq
  · have hst' : q ≠ b ∧ (v.Free c.size q ∨ q < h.taken ∧ v.Ready c.size q) := by
      rcases hst with hf | ⟨hqt, hr'⟩
      · rcases (RingView.free_recycle hready).mp hf with hf | rfl
        · exact ⟨fun he => hready.not_free hf (by rw [he]), .inl hf⟩
        · -- the next position of this cell cannot be claimed yet
          have := hs.behind _ hq
          rw [Nat.add_mod_right, hready.1] at this
          omega
      · obtain ⟨hr', hne⟩ := (RingView.ready_recycle hready).mp hr'
        exact ⟨hne, .inr ⟨hqt, hr'⟩⟩
    obtain ⟨j, hj⟩ := hs.held q hq hst'.2
    exact ⟨j, (hholds j q).mpr ⟨hj, hst'.1⟩⟩
  · simpa [RingHistory.record] using hs.content q hq hd
  · simp only [RingHistory.record, hb, List.mem_cons, hs.recycled q]
    by_cases hqc : q % c.size = b % c.size
    · simp only [RingView.recycle, hqc, Function.update_self, hready.1]
      refine ⟨by omega, fun hlt => ?_⟩
      by_contra hne
      have := slot_inj hqc hlt (by omega)
      omega
    · simp only [RingView.recycle, Function.update_of_ne hqc, or_iff_right_iff_imp]
      rintro rfl
      exact absurd rfl hqc
  · simp only [RingHistory.record, hb, List.mem_cons] at hq
    rcases hq with rfl | hq
    · exact ⟨t, ht⟩
    · exact hs.recycled_delivered q hq

/-- The producer's check is exact while `tail` has not moved. -/
theorem free_of_seq (hs : RingInv c s h v)
    (hseq : (s.ring.cells (h.claimed.length % c.size)).seq = BitVec.ofNat 32 h.claimed.length) :
    v.Free c.size h.claimed.length := by
  generalize hT : h.claimed.length = T at *
  have hj : T % c.size < c.size := Nat.mod_lt _ c.size_pos
  have h1 := hs.claimed_le hj
  have h2 := hs.ahead _ hj
  have h3 := hs.taken_le
  have hsz := c.size_le
  have h2le := c.two_le
  have hmod := hs.turn_mod _ hj
  have heq := ofNat_inj_near ((hs.seq _ hj).symm.trans hseq)
    (by have := Bool.toNat_le (v.full (T % c.size)); omega) (by omega)
  cases hf : v.full (T % c.size) with
  | false =>
    rw [hf] at heq
    exact ⟨heq, hf⟩
  | true =>
    rw [hf, Bool.toNat_true] at heq
    have := slot_inj hmod (by omega) (by omega)
    omega

/-- The consumer's check is exact while `head` has not moved. -/
theorem ready_of_seq (hs : RingInv c s h v) {m : ℕ} (hm : m < 2 ^ 31)
    (hseq : (s.ring.cells ((h.taken + m) % c.size)).seq = BitVec.ofNat 32 (h.taken + m + 1)) :
    v.Ready c.size (h.taken + m) := by
  have hj : (h.taken + m) % c.size < c.size := Nat.mod_lt _ c.size_pos
  have h1 := hs.claimed_le hj
  have h2 := hs.ahead _ hj
  have h3 := hs.taken_le
  have hsz := c.size_le
  have h2le := c.two_le
  have hmod := hs.turn_mod _ hj
  have heq := ofNat_inj_near ((hs.seq _ hj).symm.trans hseq)
    (by have := Bool.toNat_le (v.full ((h.taken + m) % c.size)); omega) (by omega)
  cases hf : v.full ((h.taken + m) % c.size) with
  | true =>
    rw [hf, Bool.toNat_true] at heq
    exact ⟨by omega, hf⟩
  | false =>
    rw [hf, Bool.toNat_false] at heq
    have := slot_inj hmod (by omega) (by omega)
    omega

theorem run_step [DecidableEq ι] (hs : RingInv c s h v) {i : ι} {r : PoolRing τ}
    {p : RingThread τ} {e : RingEvent τ} (hrecent : RecentLoad (s, h) (.run i))
    (hstep : ringStep c.toPow2 s.ring (s.thread i) = some (r, p, e)) :
    ∃ v', RingInv c ⟨r, Function.update s.thread i p⟩ (h.record i e) v' := by
  have hi := hs.thread i
  cases hpc : s.thread i with
  | idle => simp [hpc, ringStep] at hstep
  | pushSeq t pos =>
    rw [hpc] at hi hstep
    obtain ⟨P, rfl, hP, hT⟩ := hi
    simp only [ringStep, c.cell_ofNat] at hstep
    split_ifs at hstep with hz hneg <;> simp only [Option.some.injEq, Prod.mk.injEq] at hstep <;>
      obtain ⟨rfl, rfl, rfl⟩ := hstep
    · refine ⟨v, hs.setThread ⟨P, rfl, hP, hT, fun he => ?_⟩ fun q => by rw [hpc]; exact Iff.rfl⟩
      subst he
      have hz' := BitVec.toInt_inj.mp (hz.trans BitVec.toInt_zero.symm)
      exact hs.free_of_seq (by bv_omega)
    · exact ⟨v, hs.setThread trivial fun q => by rw [hpc]; exact Iff.rfl⟩
    · exact ⟨v, hs.setThread trivial fun q => by rw [hpc]; exact Iff.rfl⟩
  | pushCas t pos =>
    rw [hpc] at hstep
    simp only [ringStep] at hstep
    split_ifs at hstep with hcas <;> simp only [Option.some.injEq, Prod.mk.injEq] at hstep <;>
      obtain ⟨rfl, rfl, rfl⟩ := hstep
    · exact ⟨v, hs.claimPush hpc hcas (hrecent (by rw [hpc]; rfl))⟩
    · exact ⟨v, hs.setThread trivial fun q => by rw [hpc]; exact Iff.rfl⟩
  | pushReload t =>
    rw [hpc] at hstep
    simp only [ringStep, Option.some.injEq, Prod.mk.injEq] at hstep
    obtain ⟨rfl, rfl, rfl⟩ := hstep
    refine ⟨v, (hs.load (by rw [hpc]; trivial)).setThread ⟨_, hs.tail, le_rfl, ?_⟩ fun q => ?_⟩
    · exact Nat.le_add_right _ _
    · rw [hpc]
      exact Iff.rfl
  | pushCopy t pos =>
    rw [hpc] at hstep
    simp only [ringStep, Option.some.injEq, Prod.mk.injEq] at hstep
    obtain ⟨rfl, rfl, rfl⟩ := hstep
    exact ⟨v, hs.fill hpc⟩
  | pushPublish t pos =>
    rw [hpc] at hstep
    simp only [ringStep, Option.some.injEq, Prod.mk.injEq] at hstep
    obtain ⟨rfl, rfl, rfl⟩ := hstep
    exact ⟨_, hs.publish hpc⟩
  | popLoad max =>
    rw [hpc] at hi hstep
    simp only [ringStep, Option.some.injEq, Prod.mk.injEq] at hstep
    obtain ⟨rfl, rfl, rfl⟩ := hstep
    refine ⟨v, (hs.load (by rw [hpc]; exact hi)).setThread ⟨by have := hi.1; omega, hi.2, _,
      hs.head, le_rfl, ?_, fun _ m hm => (Nat.not_lt_zero m hm).elim⟩ fun q => ?_⟩
    · exact le_trans hs.claimed_le_taken (Nat.le_add_right _ _)
    · rw [hpc]
      exact Iff.rfl
  | popSeq max pos n =>
    rw [hpc] at hi hstep
    obtain ⟨hn, hmax, P, rfl, hP, hT, hr⟩ := hi
    simp only [ringStep, ← BitVec.ofNat_add, c.cell_ofNat] at hstep
    split_ifs at hstep with hz hlt h0 <;>
      simp only [Option.some.injEq, Prod.mk.injEq] at hstep <;> obtain ⟨rfl, rfl, rfl⟩ := hstep
    all_goals refine ⟨v, hs.setThread ?_ fun q => by rw [hpc]; exact Iff.rfl⟩
    · refine ⟨hlt, hmax, P, rfl, hP, hT, fun he m hm => ?_⟩
      rcases Nat.lt_succ_iff_lt_or_eq.mp hm with hm | rfl
      · exact hr he m hm
      · subst he
        exact hs.ready_of_seq (by omega) (by rw [BitVec.ofNat_add _ 1]; bv_omega)
    · refine ⟨by omega, by omega, hmax, P, rfl, hP, hT, fun he m hm => ?_⟩
      rcases Nat.lt_succ_iff_lt_or_eq.mp hm with hm | rfl
      · exact hr he m hm
      · subst he
        exact hs.ready_of_seq (by omega) (by rw [BitVec.ofNat_add _ 1]; bv_omega)
    · trivial
    · exact ⟨by omega, by omega, hmax, P, rfl, hP, hT, hr⟩
  | popCas max pos n =>
    rw [hpc] at hi hstep
    simp only [ringStep] at hstep
    split_ifs at hstep with hcas <;> simp only [Option.some.injEq, Prod.mk.injEq] at hstep <;>
      obtain ⟨rfl, rfl, rfl⟩ := hstep
    · exact ⟨v, hs.claimPop hpc hcas (hrecent (by rw [hpc]; rfl))⟩
    · exact ⟨v, hs.setThread ⟨hi.2.1, hi.2.2.1⟩ fun q => by rw [hpc]; exact Iff.rfl⟩
  | popCopy pos n k =>
    rw [hpc] at hstep
    simp only [ringStep, Option.some.injEq, Prod.mk.injEq] at hstep
    obtain ⟨rfl, rfl, rfl⟩ := hstep
    exact ⟨v, hs.copy hpc⟩
  | popRecycle pos n k =>
    rw [hpc] at hstep
    simp only [ringStep, Option.some.injEq, Prod.mk.injEq] at hstep
    obtain ⟨rfl, rfl, rfl⟩ := hstep
    exact ⟨_, hs.recycle hpc⟩

theorem step [DecidableEq ι] (hs : RingInv c s h v) {l : RingLabel ι τ}
    (hrecent : RecentLoad (s, h) l) {i : ι} {s' : RingState ι τ} {e : RingEvent τ}
    (hstep : ringStepAt c.toPow2 s l = some (i, s', e)) : ∃ v', RingInv c s' (h.record i e) v' := by
  cases l with
  | push j t =>
    cases hpc : s.thread j <;> simp only [ringStepAt, hpc, Option.some.injEq, Prod.mk.injEq,
      reduceCtorEq] at hstep
    obtain ⟨rfl, rfl, rfl⟩ := hstep
    refine ⟨v, (hs.load (by rw [hpc]; trivial)).setThread ⟨_, hs.tail, le_rfl, ?_⟩ fun q => ?_⟩
    · exact Nat.le_add_right _ _
    · rw [hpc]
      exact Iff.rfl
  | pop j max =>
    cases hpc : s.thread j <;> simp only [ringStepAt, hpc, reduceCtorEq] at hstep
    split_ifs at hstep with hmax
    simp only [Option.some.injEq, Prod.mk.injEq] at hstep
    obtain ⟨rfl, rfl, rfl⟩ := hstep
    exact ⟨v, hs.setThread hmax fun q => by rw [hpc]; exact Iff.rfl⟩
  | run j =>
    obtain ⟨⟨r, p, e'⟩, hd, heq⟩ := Option.map_eq_some_iff.mp hstep
    simp only [Prod.mk.injEq] at heq
    obtain ⟨rfl, rfl, rfl⟩ := heq
    exact hs.run_step hrecent hd

end RingInv

theorem ringSystem_inv [DecidableEq ι] {c : RingCap} {p : RingState ι τ × RingHistory ι τ}
    (hr : (ringSystem c.toPow2).ReachableWhen RecentLoad p) : ∃ v, RingInv c p.1 p.2 v := by
  refine hr.invariant (P := fun p => ∃ v, RingInv c p.1 p.2 v) ?_ ?_
  · rintro _ ⟨task, rfl⟩
    refine ⟨⟨id, fun _ => false⟩, ?_⟩
    constructor <;> simp +contextual [poolRingInit, RingView.Ready, RingThread.Holds,
      RingThreadOk, Nat.mod_eq_of_lt, Nat.mod_le]
  · rintro ⟨s, h⟩ l p' ⟨v, hs⟩ hl hstep
    obtain ⟨⟨i, s', e⟩, he, rfl⟩ := Option.map_eq_some_iff.mp hstep
    exact hs.step hl he

/-- Tasks go through the ring once, in claim order and unchanged: what a pop copies out for the
`k`-th position won on `head` is the task of the `k`-th push that won `tail`, that push returned
true, a drained ring has delivered them all, and no cell is rewritten before its task was
copied, so at most `size` claimed positions are not recycled. -/
theorem poolRing_delivers_once [DecidableEq ι] (c : RingCap) (s : RingState ι τ)
    (h : RingHistory ι τ) (hr : (ringSystem c.toPow2).ReachableWhen RecentLoad (s, h)) :
    (∀ d ∈ h.delivered, d.1 < h.taken ∧ h.claimed[d.1]? = some d.2 ∧ d.1 ∈ h.pushed) ∧
      (h.delivered.map Prod.fst).Nodup ∧
      ((∀ i, s.thread i = .idle) → s.ring.head = s.ring.tail →
        ∀ p < h.claimed.length, ∃ t, (p, t) ∈ h.delivered) ∧
      h.taken ≤ h.claimed.length ∧
      (∀ p ∈ h.filled, (∀ t, (p, t) ∉ h.delivered) →
        h.claimed[p]? = some (s.ring.cells (p % c.size)).t) ∧
      (∀ l i s', ringStepAt c.toPow2 s l = some (i, s', .filled) →
        ∀ q ∈ h.filled, q % c.size = h.base i % c.size → ∃ t, (q, t) ∈ h.delivered) ∧
      ((Finset.range h.claimed.length).filter (· ∉ h.recycled)).card ≤ c.size := by
  obtain ⟨v, hs⟩ : ∃ v, RingInv c s h v := ringSystem_inv hr
  refine ⟨hs.delivered_taken, hs.delivered_once, fun hidle heq p hp => ?_, hs.taken_le,
    hs.content, fun l i s' hstep q hq hmod => ?_, ?_⟩
  · -- with nobody holding a position, everything taken is recycled
    have hle := hs.claimed_le_taken
    have htl := hs.taken_le
    have hsz := c.size_le
    have hall : h.taken = h.claimed.length :=
      ofNat_inj_near (hs.head.symm.trans (heq.trans hs.tail)) (by omega) (by omega)
    rcases hs.taken_done p (by omega) with hlt | hready
    · exact hs.recycled_delivered p ((hs.recycled p).mpr hlt)
    · obtain ⟨i, hi⟩ := hs.held p hp (.inr ⟨by omega, hready⟩)
      have hi' : (s.thread i).Holds (h.base i) p := hi
      rw [hidle i] at hi'
      exact hi'.elim
  · cases l with
    | push j t => cases hpc : s.thread j <;> simp [ringStepAt, hpc] at hstep
    | pop j max => cases hpc : s.thread j <;> simp [ringStepAt, hpc] at hstep
    | run j =>
      obtain ⟨⟨r, p, e⟩, hd, heq⟩ := Option.map_eq_some_iff.mp hstep
      simp only [Prod.mk.injEq] at heq
      obtain ⟨rfl, -, rfl⟩ := heq
      cases hpc : s.thread j <;> simp only [hpc, ringStep] at hd <;> try split_ifs at hd
      all_goals simp only [Option.some.injEq, Prod.mk.injEq, reduceCtorEq, and_false] at hd
      exact hs.refilled hpc hq hmod
  · calc ((Finset.range h.claimed.length).filter (· ∉ h.recycled)).card
        ≤ (Finset.Ico (h.claimed.length - c.size) h.claimed.length).card := by
          refine Finset.card_le_card fun p hp => ?_
          obtain ⟨hp, hrec⟩ := Finset.mem_filter.mp hp
          have hlt := Finset.mem_range.mp hp
          have hle := hs.claimed_le (Nat.mod_lt p c.size_pos)
          rw [hs.recycled, not_lt] at hrec
          exact Finset.mem_Ico.mpr ⟨by omega, hlt⟩
      _ ≤ c.size := by
          rw [Nat.card_Ico]
          omega

def ringPairCap : RingCap := ⟨⟨1⟩, Nat.one_pos, by decide⟩

def ringPairRun : List (RingLabel Bool ℕ) :=
  [.push true 7] ++ List.replicate 4 (.run true) ++ [.push true 8] ++
    List.replicate 4 (.run true) ++ [.pop false 3] ++ List.replicate 9 (.run false)

theorem poolRing_delivers_once_pair :
    ∃ s h, (ringSystem ringPairCap.toPow2).execWhen RecentLoad (poolRingInit fun _ => 0) ringPairRun =
        some (s, h) ∧
      h.delivered = [(1, 8), (0, 7)] ∧ (h.delivered.map Prod.fst).Nodup := by
  have hout : ((ringSystem ringPairCap.toPow2).execWhen RecentLoad (poolRingInit fun _ => 0)
      ringPairRun).map (fun p => p.2.delivered) = some [(1, 8), (0, 7)] := by decide +kernel
  obtain ⟨⟨s, h⟩, hrun, hdel⟩ := Option.map_eq_some_iff.mp hout
  have hinit : (ringSystem ringPairCap.toPow2).ReachableWhen RecentLoad
      (poolRingInit fun _ : ℕ => 0 : RingState Bool ℕ × RingHistory Bool ℕ) := .init ⟨_, rfl⟩
  exact ⟨s, h, hrun, hdel, (poolRing_delivers_once ringPairCap s h (hinit.exec hrun)).2.1⟩

end Xplatbase.ThreadPool
