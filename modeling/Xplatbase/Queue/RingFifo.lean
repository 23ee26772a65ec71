import Mathlib.Data.Fintype.Basic
import Xplatbase.Lib.Pow2
import Xplatbase.Lib.System
import Xplatbase.Queue.RingQueue

/-! A ring queue is a first-in first-out queue of the capacity it was given. Positions are counted
from the start, without wrapping; the sequence number of a cell is its position when the cell is
free and one more when it holds an item, which is one state too few for a single cell. -/
namespace Xplatbase.Queue
open Xplatbase.Lib

variable {n : ℕ}

/-! ### Capacities -/

theorem exists_two_pow_of_land (m : ℕ) (hm : 0 < m) (h : m &&& (m - 1) = 0) : ∃ e, m = 2 ^ e := by
  induction m using Nat.strong_induction_on with
  | _ m ih =>
    have hdiv : m / 2 &&& (m - 1) / 2 = 0 := by rw [← Nat.and_div_two, h]
    rcases Nat.even_or_odd' m with ⟨k, rfl | rfl⟩
    · have hk : (2 * k - 1) / 2 = k - 1 := by omega
      rw [Nat.mul_div_cancel_left k Nat.two_pos, hk] at hdiv
      obtain ⟨e, he⟩ := ih k (by omega) (by omega) hdiv
      exact ⟨e + 1, by rw [pow_succ, he, Nat.mul_comm]⟩
    · have hl : (2 * k + 1) / 2 = k := by omega
      have hr : (2 * k + 1 - 1) / 2 = k := by omega
      rw [hl, hr, Nat.and_self] at hdiv
      exact ⟨0, by rw [hdiv]; rfl⟩

/-- The capacities that `ring_queue_init` accepts. -/
theorem ringQueueInit_accepts {capacity : ℤ} (h : (ringQueueInit capacity true true).capacity ≠ 0) :
    ∃ c : Pow2, c.exp ≤ 30 ∧ capacity = c.size ∧
      ringQueueInit capacity true true = ⟨0, 0, c.size, c.mask,
        some fun i => BitVec.ofNat 32 i, some fun _ => 0⟩ := by
  have hok : ¬(capacity ≤ 0 ∨ 2 ^ 30 < capacity ∨
      capacity.toNat &&& (capacity.toNat - 1) ≠ 0) := fun hbad =>
    h (by rw [ringQueueInit, if_pos hbad])
  have hval : ringQueueInit capacity true true = ⟨0, 0, capacity.toNat, capacity.toNat - 1,
      some fun i => BitVec.ofNat 32 i, some fun _ => 0⟩ := by
    rw [ringQueueInit, if_neg hok]
    rfl
  push Not at hok
  obtain ⟨e, he⟩ := exists_two_pow_of_land capacity.toNat (by omega) hok.2.2
  refine ⟨⟨e⟩, ?_, ?_, ?_⟩
  · by_contra hlt
    have hexp : 30 < e := not_le.mp hlt
    have : 2 ^ 31 ≤ 2 ^ e := Nat.pow_le_pow_right Nat.two_pos (by omega)
    have := hok.2.1
    omega
  · have : capacity = capacity.toNat := by omega
    rw [this, he]
    rfl
  · rw [hval, he]
    rfl

/-! ### The queue that a ring holds -/

/-- The ring holds the items of `q`, the oldest at position `H`. -/
structure Holds (c : Pow2) (r : RingQueue) (buf : Buffer) (seqno : ℕ → BitVec 32) (guard : ℕ → ℤ)
    (H : ℕ) (q : List (Item n)) : Prop where
  capacity : r.capacity = c.size
  mask : r.mask = c.mask
  seqnos : r.seqno = some seqno
  guards : r.peekGuard = some guard
  head : r.head = BitVec.ofNat 32 H
  tail : r.tail = BitVec.ofNat 32 (H + q.length)
  length : q.length ≤ c.size
  held : ∀ i < q.length, seqno ((H + i) % c.size) = BitVec.ofNat 32 (H + i + 1)
  free : ∀ i, q.length ≤ i → i < c.size → seqno ((H + i) % c.size) = BitVec.ofNat 32 (H + i)
  guard : ∀ j < c.size, guard j = 0
  items : ∀ i x, q[i]? = some x → buf.load ((H + i) % c.size * n) n = x

theorem load_store_self (buf : Buffer) (off : ℕ) (item : Item n) :
    (buf.store off item).load off n = item := by
  funext i
  have hi := i.isLt
  simp [Buffer.load, Buffer.store]

theorem load_store_other (buf : Buffer) {p p' : ℕ} (item : Item n) (h : p ≠ p') :
    (buf.store (p * n) item).load (p' * n) n = buf.load (p' * n) n := by
  funext i
  have hi := i.isLt
  have hout : ¬(p * n ≤ p' * n + i ∧ p' * n + i < p * n + n) := by
    rintro ⟨hlo, hhi⟩
    rcases Nat.lt_or_gt_of_ne h with hlt | hlt
    · have : (p + 1) * n ≤ p' * n := Nat.mul_le_mul_right n hlt
      rw [Nat.add_mul, Nat.one_mul] at this
      omega
    · have : (p' + 1) * n ≤ p * n := Nat.mul_le_mul_right n hlt
      rw [Nat.add_mul, Nat.one_mul] at this
      omega
  simp [Buffer.load, Buffer.store, hout]

theorem ofNat_succ (a : ℕ) : BitVec.ofNat 32 (a + 1) = BitVec.ofNat 32 a + 1 :=
  BitVec.ofNat_add a 1

theorem ofNat_sub_add (a k : ℕ) :
    BitVec.ofNat 32 (a + k) - BitVec.ofNat 32 a = BitVec.ofNat 32 k := by
  rw [BitVec.ofNat_add, BitVec.add_comm, BitVec.add_sub_cancel]

/-- A sequence number that is behind by less than half the range counts as negative. -/
theorem msb_sub_add (a k : ℕ) (hk : 0 < k) (hk' : k ≤ 2 ^ 31) :
    (BitVec.ofNat 32 a - BitVec.ofNat 32 (a + k)).msb = true := by
  rw [BitVec.msb_eq_decide, BitVec.toNat_sub, BitVec.toNat_ofNat, BitVec.toNat_ofNat]
  exact decide_eq_true (by omega)

theorem sub_add_ne_zero (a k : ℕ) (hk : 0 < k) (hk' : k ≤ 2 ^ 31) :
    BitVec.ofNat 32 a - BitVec.ofNat 32 (a + k) ≠ 0 := fun h => by
  have := msb_sub_add a k hk hk'
  rw [h] at this
  cases this

namespace Holds

variable {c : Pow2} {r : RingQueue} {buf : Buffer} {seqno : ℕ → BitVec 32} {guard : ℕ → ℤ} {H : ℕ}
  {q : List (Item n)} {fuel : ℕ} {item x : Item n}

theorem pos (h : Holds c r buf seqno guard H q) (hc : c.exp ≤ 30) (p : ℕ) :
    r.pos (BitVec.ofNat 32 p) = p % c.size := by
  rw [RingQueue.pos, h.mask]
  exact c.ofNat_and_mask (by omega) p

theorem size_le (hc : c.exp ≤ 30) : c.size ≤ 2 ^ 30 := Nat.pow_le_pow_right Nat.two_pos hc

theorem count (h : Holds c r buf seqno guard H q) (hc : c.exp ≤ 30) :
    ringQueueCount r = q.length := by
  have hsize := size_le hc
  have hpos := c.size_pos
  have hlen := h.length
  have hsub : (r.tail - r.head).toNat = q.length := by
    rw [h.tail, h.head, ofNat_sub_add, BitVec.toNat_ofNat, Nat.mod_eq_of_lt (by omega)]
  unfold ringQueueCount
  rw [hsub, h.capacity, if_neg (by omega), if_neg (by omega)]

theorem full (h : Holds c r buf seqno guard H q) (hc : c.exp ≤ 30) :
    ringQueueFull r = decide (c.size ≤ q.length) := by
  have hpos := c.size_pos
  unfold ringQueueFull
  rw [h.count hc, h.capacity]
  simp only [decide_eq_decide]
  omega

theorem empty (h : Holds c r buf seqno guard H q) (hc : c.exp ≤ 30) :
    ringQueueEmpty r = decide (q = []) := by
  unfold ringQueueEmpty
  rw [h.count hc]
  simp only [decide_eq_decide]
  exact List.length_eq_zero_iff

theorem slot_ne {i : ℕ} (hi : i < q.length) (hlt : q.length < c.size) :
    (H + i) % c.size ≠ (H + q.length) % c.size := fun he => by
  have := slot_inj he (by omega) (by omega)
  omega

/-! ### One call -/

theorem push (fuel : ℕ) (item : Item n) (h : Holds c r buf seqno guard H q) (hc : c.exp ≤ 30)
    (hn : 0 < n)
    (hlt : q.length < c.size) :
    ∃ r' seqno' guard', ringQueuePush (fuel + 1) r buf item =
        some (r', buf.store ((H + q.length) % c.size * n) item, true) ∧
      Holds c r' (buf.store ((H + q.length) % c.size * n) item) seqno' guard' H (q ++ [item]) := by
  have hpos := c.size_pos
  have htail : r.pos r.tail = (H + q.length) % c.size := by rw [h.tail, h.pos hc]
  have hslot : (H + q.length) % c.size < c.size := Nat.mod_lt _ hpos
  have hval : ringQueuePush (fuel + 1) r buf item =
      some ({ r with
        peekGuard := some (Function.update (Function.update guard ((H + q.length) % c.size) (-1))
          ((H + q.length) % c.size) 0)
        seqno := some (Function.update seqno ((H + q.length) % c.size) (r.tail + 1))
        tail := r.tail + 1 }, buf.store ((H + q.length) % c.size * n) item, true) := by
    rw [ringQueuePush, h.seqnos, h.guards]
    dsimp only
    rw [if_neg (by simp [h.full hc]; omega)]
    simp only [ringWriterLock, htail, h.guard _ hslot, if_pos]
    rfl
  refine ⟨_, _, _, hval, ⟨h.capacity, h.mask, rfl, rfl, h.head, ?_, ?_, fun i hi => ?_,
    fun i hi hi' => ?_, fun j hj => ?_, fun i x hx => ?_⟩⟩
  · show r.tail + 1 = _
    rw [h.tail, List.length_append, List.length_singleton, ← Nat.add_assoc, ofNat_succ]
  · rw [List.length_append, List.length_singleton]
    omega
  · rw [List.length_append, List.length_singleton] at hi
    rcases Nat.lt_succ_iff_lt_or_eq.mp hi with hi | rfl
    · rw [Function.update_of_ne (slot_ne hi hlt), h.held i hi]
    · rw [Function.update_self, h.tail, ofNat_succ]
  · rw [List.length_append, List.length_singleton] at hi
    have hne : (H + i) % c.size ≠ (H + q.length) % c.size := fun he => by
      have := slot_inj he (by omega) (by omega)
      omega
    rw [Function.update_of_ne hne, h.free i (by omega) hi']
  · by_cases hj' : j = (H + q.length) % c.size
    · rw [hj', Function.update_self]
    · rw [Function.update_of_ne hj', Function.update_of_ne hj', h.guard j hj]
  · rcases Nat.lt_or_ge i q.length with hi | hi
    · rw [List.getElem?_append_left hi] at hx
      rw [load_store_other buf item (slot_ne hi hlt).symm, h.items i x hx]
    · rw [List.getElem?_append_right hi] at hx
      obtain ⟨hi', rfl⟩ := List.getElem?_eq_some_iff.mp hx
      obtain rfl : i = q.length := by
        simp only [List.length_singleton] at hi'
        omega
      simp [load_store_self]

theorem push_full (h : Holds c r buf seqno guard H q) (hc : c.exp ≤ 30)
    (hfull : c.size ≤ q.length) : ringQueuePush fuel r buf item = some (r, buf, false) := by
  rw [ringQueuePush, h.seqnos, h.guards]
  dsimp only
  rw [if_pos (.inr (by simpa [h.full hc] using hfull))]

theorem pushMp_eq_push (h : Holds c r buf seqno guard H q) (hc : c.exp ≤ 30) (hn : 0 < n)
    (hlt : q.length < c.size) :
    ringQueuePushMp (fuel + 1) r buf item = ringQueuePush (fuel + 1) r buf item := by
  have hseq : seqno (r.pos r.tail) - r.tail = 0 := by
    rw [h.tail, h.pos hc, h.free q.length le_rfl hlt, BitVec.sub_self]
    rfl
  have hpos : ∀ t p, RingQueue.pos { r with tail := t } p = r.pos p := fun _ _ => rfl
  rw [ringQueuePush, ringQueuePushMp, h.seqnos, h.guards]
  dsimp only
  rw [if_neg (by omega), if_neg (by simp [h.full hc]; omega)]
  simp only [ringQueuePushMpLoop, hseq, if_pos, Option.bind_some, hpos]

theorem pushMp_full (h : Holds c r buf seqno guard H q) (hc : c.exp ≤ 30) (hn : 0 < n)
    (hfull : c.size ≤ q.length) (htwo : 1 < c.size) :
    ringQueuePushMp (fuel + 1) r buf item = some (r, buf, false) := by
  have hlen := h.length
  have hsize := size_le hc
  have hseq : seqno (r.pos r.tail) - r.tail =
      BitVec.ofNat 32 (H + 1) - BitVec.ofNat 32 (H + 1 + (c.size - 1)) := by
    have hmod : (H + q.length) % c.size = (H + 0) % c.size := by
      rw [le_antisymm hlen hfull, Nat.add_mod_right, Nat.add_zero]
    rw [h.tail, h.pos hc, hmod, h.held 0 (by omega)]
    congr 2
    omega
  rw [ringQueuePushMp, h.seqnos, h.guards]
  dsimp only
  rw [if_neg (by omega)]
  simp only [ringQueuePushMpLoop, hseq, sub_add_ne_zero (H + 1) (c.size - 1) (by omega) (by omega),
    msb_sub_add (H + 1) (c.size - 1) (by omega) (by omega), if_false, if_true, Option.bind_some]

/-- The one cell of a full ring of capacity 1 looks free to `ring_queue_push_mp_`. -/
theorem pushMp_single (fuel : ℕ) (item : Item n) (h : Holds c r buf seqno guard H q)
    (hc : c.exp ≤ 30) (hn : 0 < n)
    (hfull : c.size ≤ q.length) (hone : c.size ≤ 1) :
    ∃ r' buf', ringQueuePushMp (fuel + 1) r buf item = some (r', buf', true) := by
  have hlen := h.length
  have hpos := c.size_pos
  have hsize : c.size = 1 := by omega
  have hzero : ∀ p, r.pos (BitVec.ofNat 32 p) = 0 := fun p => by
    rw [h.pos hc, hsize, Nat.mod_one]
  have hseq : seqno (r.pos r.tail) - r.tail = 0 := by
    have := h.held 0 (by omega)
    rw [hsize, Nat.mod_one] at this
    rw [h.tail, hzero, this, show q.length = 1 by omega, BitVec.sub_self]
    rfl
  have hguard : guard (r.pos r.tail) = 0 := by
    rw [h.tail, hzero]
    exact h.guard 0 hpos
  have hpos' : ∀ t p, RingQueue.pos { r with tail := t } p = r.pos p := fun _ _ => rfl
  have hval : ringQueuePushMp (fuel + 1) r buf item = some ({ r with
      peekGuard := some (Function.update (Function.update guard (r.pos r.tail) (-1)) (r.pos r.tail) 0)
      seqno := some (Function.update seqno (r.pos r.tail) (r.tail + 1))
      tail := r.tail + 1 }, buf.store (r.pos r.tail * n) item, true) := by
    rw [ringQueuePushMp, h.seqnos, h.guards]
    dsimp only
    rw [if_neg (by omega)]
    simp only [ringQueuePushMpLoop, hseq, if_pos, Option.bind_some, hpos', ringWriterLock, hguard]
    rfl
  exact ⟨_, _, hval⟩

theorem pop (h : Holds c r buf seqno guard H (x :: q)) (hc : c.exp ≤ 30) (hn : 0 < n) :
    ∃ r' seqno', ringQueuePop r buf n = (r', some x) ∧ Holds c r' buf seqno' guard (H + 1) q := by
  have hlen := h.length
  rw [List.length_cons] at hlen
  have hhead : r.pos r.head = H % c.size := by rw [h.head, h.pos hc]
  have hload : buf.load (H % c.size * n) n = x := h.items 0 x rfl
  have hval : ringQueuePop r buf n = ({ r with
      seqno := some (Function.update seqno (H % c.size) (r.head + BitVec.ofNat 32 r.capacity))
      head := r.head + 1 }, some x) := by
    rw [ringQueuePop, h.seqnos]
    dsimp only
    rw [if_neg (by simp [h.empty hc]; omega), hhead, hload]
  refine ⟨_, _, hval, ⟨h.capacity, h.mask, rfl, h.guards, ?_, ?_, by omega, fun i hi => ?_,
    fun i hi hi' => ?_, h.guard, fun i y hy => ?_⟩⟩
  · show r.head + 1 = _
    rw [h.head, ofNat_succ]
  · show r.tail = _
    rw [h.tail, List.length_cons]
    congr 1
    omega
  · have hne : (H + 1 + i) % c.size ≠ H % c.size := fun he => by
      have := slot_inj he (by omega) (by omega)
      omega
    rw [Function.update_of_ne hne, Nat.add_right_comm H 1 i, Nat.add_assoc H i 1,
      h.held (i + 1) (by rw [List.length_cons]; omega)]
  · by_cases hlast : i = c.size - 1
    · have hwrap : H + 1 + i = H + c.size := by omega
      rw [hwrap, Nat.add_mod_right, Function.update_self, h.head, h.capacity, ← BitVec.ofNat_add]
    · have hne : (H + 1 + i) % c.size ≠ H % c.size := fun he => by
        have := slot_inj he (by omega) (by omega)
        omega
      rw [Function.update_of_ne hne, Nat.add_right_comm H 1 i, Nat.add_assoc H i 1,
        h.free (i + 1) (by rw [List.length_cons]; omega) (by omega)]
  · rw [Nat.add_right_comm H 1 i, Nat.add_assoc H i 1]
    exact h.items (i + 1) y (by rwa [List.getElem?_cons_succ])

theorem pop_empty (h : Holds c r buf seqno guard H ([] : List (Item n))) (hc : c.exp ≤ 30) :
    ringQueuePop r buf n = (r, none) := by
  rw [ringQueuePop, h.seqnos]
  dsimp only
  rw [if_pos (.inr (by simp [h.empty hc]))]

theorem popMc_eq_pop (h : Holds c r buf seqno guard H (x :: q)) (hc : c.exp ≤ 30) (hn : 0 < n) :
    ringQueuePopMc (fuel + 1) r buf n = some (ringQueuePop r buf n) := by
  have hseq : seqno (r.pos r.head) - (r.head + 1) = 0 := by
    have := h.held 0 (by rw [List.length_cons]; omega)
    rw [Nat.add_zero] at this
    rw [h.head, h.pos hc, this, ofNat_succ, BitVec.sub_self]
    rfl
  have hpos : ∀ t p, RingQueue.pos { r with head := t } p = r.pos p := fun _ _ => rfl
  rw [ringQueuePop, ringQueuePopMc, h.seqnos]
  dsimp only
  rw [if_neg (by omega), if_neg (by simp [h.empty hc]; omega)]
  simp only [ringQueuePopMcLoop, hseq, if_pos, Option.map_some, hpos]

theorem popMc_empty (h : Holds c r buf seqno guard H ([] : List (Item n))) (hc : c.exp ≤ 30)
    (hn : 0 < n) : ringQueuePopMc (fuel + 1) r buf n = some (r, none) := by
  have hseq : seqno (r.pos r.head) - (r.head + 1) =
      BitVec.ofNat 32 H - BitVec.ofNat 32 (H + 1) := by
    have := h.free 0 (Nat.zero_le _) c.size_pos
    rw [Nat.add_zero] at this
    rw [h.head, h.pos hc, this, ofNat_succ]
  rw [ringQueuePopMc, h.seqnos]
  dsimp only
  rw [if_neg (by omega)]
  simp only [ringQueuePopMcLoop, hseq, sub_add_ne_zero H 1 Nat.one_pos (by omega),
    msb_sub_add H 1 Nat.one_pos (by omega), if_false, if_true, Option.map_some]

theorem peek (h : Holds c r buf seqno guard H (x :: q)) (hc : c.exp ≤ 30) (hn : 0 < n) :
    ∃ r' guard', ringQueuePeek r buf n = (r', some x) ∧
      Holds c r' buf seqno guard' H (x :: q) := by
  have hhead : r.pos r.head = H % c.size := by rw [h.head, h.pos hc]
  have hslot : H % c.size < c.size := Nat.mod_lt _ c.size_pos
  have hseq : seqno (H % c.size) = r.head + 1 := by
    have := h.held 0 (by rw [List.length_cons]; omega)
    rw [Nat.add_zero] at this
    rw [this, h.head, ofNat_succ]
  have hload : buf.load (H % c.size * n) n = x := h.items 0 x rfl
  have hval : ringQueuePeek r buf n = ({ r with
      peekGuard := some (ringReaderUnlock (Function.update guard (H % c.size) (0 + 1))
        (H % c.size)) }, some x) := by
    have hlock : ringReaderLock guard (H % c.size) =
        some (Function.update guard (H % c.size) (0 + 1)) := by
      simp [ringReaderLock, h.guard _ hslot]
    simp only [ringQueuePeek, h.seqnos, h.guards, if_neg (Nat.pos_iff_ne_zero.mp hn),
      ringQueuePeekLoop, hhead, hseq, hlock, ne_eq, not_true_eq_false, if_false, if_true, and_self,
      hload]
  refine ⟨_, _, hval, { h with guards := rfl, guard := fun j hj => ?_ }⟩
  rw [ringReaderUnlock]
  by_cases hj' : j = H % c.size
  · rw [hj', Function.update_self, Function.update_self]
    rfl
  · rw [Function.update_of_ne hj', Function.update_of_ne hj', h.guard j hj]

theorem peek_empty (h : Holds c r buf seqno guard H ([] : List (Item n))) (hc : c.exp ≤ 30)
    (hn : 0 < n) : ringQueuePeek r buf n = (r, none) := by
  have hseq : seqno (r.pos r.head) ≠ r.head + 1 := by
    have := h.free 0 (Nat.zero_le _) c.size_pos
    rw [Nat.add_zero] at this
    rw [h.head, h.pos hc, this]
    intro he
    apply sub_add_ne_zero H 1 Nat.one_pos (by omega)
    rw [ofNat_succ, ← he, BitVec.sub_self]
    rfl
  have hback : { r with peekGuard := some guard } = r := by rw [← h.guards]
  rw [ringQueuePeek, h.seqnos, h.guards]
  dsimp only
  rw [if_neg (by omega), ringQueuePeekLoop, if_pos hseq, hback]

end Holds

/-! ### Runs -/

inductive RingOp (n : ℕ)
  | push (x : Item n)
  | pushMp (x : Item n)
  | pop
  | popMc
  | peek

inductive RingAnswer (n : ℕ)
  | pushed (ok : Bool)
  | got (x : Option (Item n))

def fifoStep (capacity : ℕ) (q : List (Item n)) : RingOp n → List (Item n) × RingAnswer n
  | .push x | .pushMp x =>
    if q.length < capacity then (q ++ [x], .pushed true) else (q, .pushed false)
  | .pop | .popMc => (q.tail, .got q.head?)
  | .peek => (q, .got q.head?)

def ringCall (fuel : ℕ) (s : RingQueue × Buffer) :
    RingOp n → Option ((RingQueue × Buffer) × RingAnswer n)
  | .push x => (ringQueuePush fuel s.1 s.2 x).map fun (r, buf, ok) => ((r, buf), .pushed ok)
  | .pushMp x => (ringQueuePushMp fuel s.1 s.2 x).map fun (r, buf, ok) => ((r, buf), .pushed ok)
  | .pop =>
    let (r, x) := ringQueuePop s.1 s.2 n
    some ((r, s.2), .got x)
  | .popMc => (ringQueuePopMc fuel s.1 s.2 n).map fun (r, x) => ((r, s.2), .got x)
  | .peek =>
    let (r, x) := ringQueuePeek s.1 s.2 n
    some ((r, s.2), .got x)

def ringFifo (capacity : ℤ) (n : ℕ) :
    System ((RingQueue × Buffer) × List (Item n)) (ℕ × RingOp n) where
  init := fun p => p.1.1 = ringQueueInit capacity true true ∧ p.2 = []
  step := fun p l => (ringCall l.1 p.1 l.2).map fun (s', _) =>
    (s', (fifoStep capacity.toNat p.2 l.2).1)

/-- A push of the multi-producer kind has room, or the ring more than one cell. -/
def HasRoom (r : RingQueue) : RingOp n → Prop
  | .pushMp _ => 1 < r.capacity ∨ ringQueueFull r = false
  | _ => True

instance (r : RingQueue) : (op : RingOp n) → Decidable (HasRoom r op)
  | .pushMp _ => inferInstanceAs (Decidable (_ ∨ _))
  | .push _ | .pop | .popMc | .peek => .isTrue trivial

theorem ringCall_fifo {c : Pow2} {s : RingQueue × Buffer} {seqno : ℕ → BitVec 32} {guard : ℕ → ℤ}
    {H : ℕ} {q : List (Item n)} (h : Holds c s.1 s.2 seqno guard H q) (hc : c.exp ≤ 30)
    (hn : 0 < n) (fuel : ℕ) {op : RingOp n} (hop : HasRoom s.1 op) :
    ∃ s' seqno' guard' H', ringCall (fuel + 1) s op = some (s', (fifoStep c.size q op).2) ∧
      Holds c s'.1 s'.2 seqno' guard' H' (fifoStep c.size q op).1 := by
  have hlen := h.length
  cases op with
  | push x =>
    rcases Nat.lt_or_ge q.length c.size with hlt | hge
    · obtain ⟨r', seqno', guard', hval, hh⟩ := h.push fuel x hc hn hlt
      refine ⟨(r', s.2.store ((H + q.length) % c.size * n) x), seqno', guard', H, ?_, ?_⟩
      · simp only [ringCall, hval, Option.map_some, fifoStep, if_pos hlt]
      · simpa only [fifoStep, if_pos hlt] using hh
    · refine ⟨s, seqno, guard, H, ?_, ?_⟩
      · simp only [ringCall, h.push_full hc hge, Option.map_some, fifoStep, if_neg (not_lt.mpr hge)]
      · simpa only [fifoStep, if_neg (not_lt.mpr hge)] using h
  | pushMp x =>
    rcases Nat.lt_or_ge q.length c.size with hlt | hge
    · obtain ⟨r', seqno', guard', hval, hh⟩ := h.push fuel x hc hn hlt
      refine ⟨(r', s.2.store ((H + q.length) % c.size * n) x), seqno', guard', H, ?_, ?_⟩
      · simp only [ringCall, h.pushMp_eq_push hc hn hlt, hval, Option.map_some, fifoStep, if_pos hlt]
      · simpa only [fifoStep, if_pos hlt] using hh
    · have htwo : 1 < c.size := by
        rcases hop with hop | hop
        · rwa [h.capacity] at hop
        · rw [h.full hc] at hop
          exact absurd hge (of_decide_eq_false hop)
      refine ⟨s, seqno, guard, H, ?_, ?_⟩
      · simp only [ringCall, h.pushMp_full hc hn hge htwo, Option.map_some, fifoStep,
          if_neg (not_lt.mpr hge)]
      · simpa only [fifoStep, if_neg (not_lt.mpr hge)] using h
  | pop =>
    cases q with
    | nil =>
      refine ⟨s, seqno, guard, H, ?_, h⟩
      simp only [ringCall, h.pop_empty hc]
      rfl
    | cons x q =>
      obtain ⟨r', seqno', hval, hh⟩ := h.pop hc hn
      refine ⟨(r', s.2), seqno', guard, H + 1, ?_, hh⟩
      simp only [ringCall, hval]
      rfl
  | popMc =>
    cases q with
    | nil =>
      refine ⟨s, seqno, guard, H, ?_, h⟩
      simp only [ringCall, h.popMc_empty hc hn]
      rfl
    | cons x q =>
      obtain ⟨r', seqno', hval, hh⟩ := h.pop hc hn
      refine ⟨(r', s.2), seqno', guard, H + 1, ?_, hh⟩
      simp only [ringCall, h.popMc_eq_pop hc hn, hval]
      rfl
  | peek =>
    cases q with
    | nil =>
      refine ⟨s, seqno, guard, H, ?_, h⟩
      simp only [ringCall, h.peek_empty hc hn]
      rfl
    | cons x q =>
      obtain ⟨r', guard', hval, hh⟩ := h.peek hc hn
      refine ⟨(r', s.2), seqno, guard', H, ?_, hh⟩
      simp only [ringCall, hval]
      rfl

theorem ringFifo_inv {capacity : ℤ} (hcap : (ringQueueInit capacity true true).capacity ≠ 0)
    (hn : 0 < n) {s : RingQueue × Buffer} {q : List (Item n)}
    (hr : (ringFifo capacity n).ReachableWhen (fun p l => 0 < l.1 ∧ HasRoom p.1.1 l.2) (s, q)) :
    ∃ c : Pow2, c.exp ≤ 30 ∧ capacity = c.size ∧
      ∃ seqno guard H, Holds c s.1 s.2 seqno guard H q := by
  obtain ⟨c, hc, hsize, hinit⟩ := ringQueueInit_accepts hcap
  refine ⟨c, hc, hsize, ?_⟩
  refine hr.invariant (P := fun p => ∃ seqno guard H, Holds c p.1.1 p.1.2 seqno guard H p.2)
    (fun p hp => ?_) (fun p l p' h hl hs => ?_)
  · obtain ⟨⟨r, buf⟩, q⟩ := p
    obtain ⟨rfl, rfl⟩ : r = ringQueueInit capacity true true ∧ q = [] := hp
    rw [hinit]
    refine ⟨_, _, 0, ⟨rfl, rfl, rfl, rfl, rfl, rfl, Nat.zero_le _, fun i hi => ?_,
      fun i _ hi => ?_, fun _ _ => rfl, fun i x hx => ?_⟩⟩
    · cases hi
    · simp only [Nat.zero_add, Nat.mod_eq_of_lt hi]
    · cases hx
  · obtain ⟨seqno, guard, H, h⟩ := h
    obtain ⟨fuel, op⟩ := l
    obtain ⟨fuel, rfl⟩ : ∃ k, fuel = k + 1 := ⟨fuel - 1, by have := hl.1; dsimp only at this; omega⟩
    obtain ⟨s', seqno', guard', H', hval, hh⟩ := ringCall_fifo h hc hn fuel hl.2
    obtain ⟨⟨s₁, a⟩, hcall, rfl⟩ := Option.map_eq_some_iff.mp hs
    obtain ⟨rfl, -⟩ := Prod.mk.inj (Option.some.inj (hcall.symm.trans hval))
    rw [hsize, Int.toNat_natCast]
    exact ⟨seqno', guard', H', hh⟩

/-- In every run whose multi-producer pushes have room when the capacity is 1, the ring answers as
a first-in first-out queue of its capacity does, and its count is the number of items held. A call
ends as soon as its loops may turn once. Such a push without room is the only call that does not
answer so. -/
theorem ringQueue_fifo {capacity : ℤ} (hcap : (ringQueueInit capacity true true).capacity ≠ 0)
    (hn : 0 < n) {s : RingQueue × Buffer} {q : List (Item n)}
    (hr : (ringFifo capacity n).ReachableWhen (fun p l => 0 < l.1 ∧ HasRoom p.1.1 l.2) (s, q)) :
    ringQueueCount s.1 = q.length ∧ (q.length : ℤ) ≤ capacity ∧ ∀ fuel (op : RingOp n),
      (∃ s', ringCall (fuel + 1) s op = some (s', (fifoStep capacity.toNat q op).2)) ↔
        HasRoom s.1 op := by
  obtain ⟨c, hc, rfl, seqno, guard, H, h⟩ := ringFifo_inv hcap hn hr
  refine ⟨h.count hc, by exact_mod_cast h.length, fun fuel op => ⟨fun ⟨s', hs⟩ => ?_, fun hop => ?_⟩⟩
  · cases op with
    | pushMp x =>
      by_contra hno
      simp only [HasRoom, not_or, Bool.not_eq_false, h.capacity, h.full hc, decide_eq_true_eq,
        not_lt] at hno
      obtain ⟨r', buf', hval⟩ := h.pushMp_single fuel x hc hn hno.2 hno.1
      rw [ringCall, hval] at hs
      simp only [Option.map_some, Int.toNat_natCast, fifoStep, if_neg (not_lt.mpr hno.2),
        Option.some.injEq, Prod.mk.injEq, RingAnswer.pushed.injEq, reduceCtorEq, and_false] at hs
    | _ => trivial
  · obtain ⟨s', -, -, -, hval, -⟩ := ringCall_fifo h hc hn fuel hop
    exact ⟨s', by rw [Int.toNat_natCast]; exact hval⟩

/-- Two cells, filled by the two kinds of push and emptied by the two kinds of pop. -/
theorem ringQueue_fifo_pair : ∃ (s : RingQueue × Buffer) (q : List (Item 1)),
    (ringFifo 2 1).ReachableWhen (fun p l => 0 < l.1 ∧ HasRoom p.1.1 l.2) (s, q) ∧
    q = [fun _ => 9] ∧ ringQueueCount s.1 = q.length ∧ (q.length : ℤ) ≤ 2 ∧
    ∀ fuel (op : RingOp 1),
      (∃ s', ringCall (fuel + 1) s op = some (s', (fifoStep (2 : ℤ).toNat q op).2)) ↔
        HasRoom s.1 op := by
  have hout : ((ringFifo 2 1).execWhen (fun p l => 0 < l.1 ∧ HasRoom p.1.1 l.2)
      ((ringQueueInit 2 true true, fun _ => 0), [])
      [(1, .push fun _ => 7), (1, .pushMp fun _ => 8), (1, .pushMp fun _ => 5), (1, .peek),
        (1, .pop), (1, .push fun _ => 9), (1, .popMc)]).map Prod.snd =
      some [fun _ => 9] := by decide +kernel
  obtain ⟨⟨s, q⟩, hrun, hq⟩ := Option.map_eq_some_iff.mp hout
  have hr := System.ReachableWhen.exec (S := ringFifo 2 1) (.init ⟨rfl, rfl⟩) hrun
  exact ⟨s, q, hr, hq, ringQueue_fifo (by decide) Nat.one_pos hr⟩

/-- The cell at `head` is ahead of it: two items were pushed there. -/
def RingQueue.overrun (r : RingQueue) : Bool :=
  match r.seqno with
  | some seqno =>
    let diff := seqno (r.pos r.head) - (r.head + 1)
    diff ≠ 0 && !diff.msb
  | none => false

theorem ringQueuePopMcLoop_overrun {r : RingQueue} {seqno : ℕ → BitVec 32}
    (hs : r.seqno = some seqno) (h : r.overrun = true) (fuel : ℕ) :
    ringQueuePopMcLoop r seqno fuel = none := by
  simp only [RingQueue.overrun, hs, Bool.and_eq_true, decide_eq_true_eq, Bool.not_eq_true'] at h
  induction fuel with
  | zero => rfl
  | succ fuel ih =>
    simp only [ringQueuePopMcLoop, if_neg h.1, h.2, ih]
    rfl

theorem ringQueuePopMc_overrun {r : RingQueue} (hn : 0 < n) (h : r.overrun = true) (fuel : ℕ)
    (buf : Buffer) : ringQueuePopMc fuel r buf n = none := by
  cases hs : r.seqno with
  | none => simp [RingQueue.overrun, hs] at h
  | some seqno =>
    simp only [ringQueuePopMc, hs, if_neg (Nat.pos_iff_ne_zero.mp hn),
      ringQueuePopMcLoop_overrun hs h, Option.map_none]

def RingAnswer.ok : RingAnswer n → Bool
  | .pushed ok => ok
  | .got x => x.isSome

/-- Capacity 1: a second `ring_queue_push_mp_` succeeds although the one cell holds an item, and
a `ring_queue_pop_mc_` after it never ends. -/
theorem ringQueue_fifo_single : ∃ (s s' : RingQueue × Buffer) (q : List (Item 1))
    (a : RingAnswer 1), (ringFifo 1 1).Reachable (s, q) ∧ q = [fun _ => 7] ∧
      ringCall 1 s (.pushMp fun _ => 8) = some (s', a) ∧ a.ok = true ∧
      ∀ fuel, ringCall fuel s' (.popMc : RingOp 1) = none := by
  have hout : ((ringFifo 1 1).exec ((ringQueueInit 1 true true, fun _ => 0), [])
      [(1, .push fun _ => 7)]).map (fun p => (p.2, (ringCall 1 p.1 (.pushMp fun _ : Fin 1 => 8)).map
        fun (s', a) => (a.ok, s'.1.overrun))) =
      some ([fun _ => 7], some (true, true)) := by decide +kernel
  obtain ⟨⟨s, q⟩, hrun, hq⟩ := Option.map_eq_some_iff.mp hout
  simp only [Prod.mk.injEq] at hq
  obtain ⟨⟨s', a⟩, hcall, ha⟩ := Option.map_eq_some_iff.mp hq.2
  simp only [Prod.mk.injEq] at ha
  have hr := System.Reachable.exec (S := ringFifo 1 1) (.init ⟨rfl, rfl⟩) hrun
  refine ⟨s, s', q, a, hr, hq.1, hcall, ha.1, fun fuel => ?_⟩
  rw [ringCall, ringQueuePopMc_overrun Nat.one_pos ha.2]
  rfl

end Xplatbase.Queue
