import Xplatbase.Queue.RingFifo
import Xplatbase.Queue.RingPeekInv
import Xplatbase.Queue.RingSpsc

/-! Between one producer and one consumer, the ring queue is a bounded queue whose calls take effect
at once. The count that a call begins with is out of date when it is used, but only to the side
that does no harm: the other party can but make room for a push, and items for a pop. -/
namespace Xplatbase.Queue
open Xplatbase.Lib

variable {ι : Type*} {n : ℕ} {c : QueueCap} {r r' : RingShared} {H : ℕ} {q : List (Item n)}
  {pc : ProducerPc n} {cc : ConsumerPc n}

/-! ### Positions and counts -/

@[simp] theorem QueueCap.cell_ofNat (c : QueueCap) (p : ℕ) :
    c.cell (BitVec.ofNat 32 p) = p % c.size :=
  c.ofNat_and_mask (le_trans c.le_thirty (by omega)) p

theorem QueueCap.size_lt (c : QueueCap) : c.size < 2 ^ 31 :=
  Nat.lt_of_le_of_lt (Nat.pow_le_pow_right Nat.two_pos c.le_thirty) (by omega)

/-- The count is that of the items between the positions. -/
theorem clampCount_ofNat (c : QueueCap) (P : ℕ) {m : ℕ} (hm : m ≤ c.size) :
    clampCount c.toPow2 (BitVec.ofNat 32 (P + m) - BitVec.ofNat 32 P) = m := by
  have hlt := c.size_lt
  unfold clampCount
  rw [ofNat_sub_add, BitVec.toNat_ofNat, Nat.mod_eq_of_lt (by omega), if_neg (by omega)]

theorem room_le (c : Pow2) (n : ℕ) : room c n ≤ c.size := by
  unfold room
  split_ifs with hn
  · exact Nat.zero_le _
  · exact Nat.le_refl _

theorem room_eq (c : Pow2) (hn : 0 < n) : room c n = c.size := if_neg hn.ne'

/-! ### What the two calls know -/

/-- What the producer's count knows. The head that it loaded last may be out of date. -/
def ProducerCount (c : Pow2) (r : RingShared) (H : ℕ) (q : List (Item n)) : CountPc → Prop
  | .headAgain _ _ t => t = r.tail
  | .lastTail h => ∃ P ≤ H, h = BitVec.ofNat 32 P ∧ H + q.length ≤ P + c.size
  | .head _ | .tail _ _ | .lastHead => True

def ProducerOk (c : Pow2) (r : RingShared) (H : ℕ) (q : List (Item n)) : ProducerPc n → Prop
  | .count _ p => 0 < n ∧ ProducerCount c r H q p
  | .loadTail _ => q.length < room c n
  | .writerLock _ t => q.length < room c n ∧ t = r.tail
  | .copy x t k => q.length < room c n ∧ t = r.tail ∧ Stored r.buf (c.cell t) x k
  | .writerUnlock x t | .publish x t =>
    q.length < room c n ∧ t = r.tail ∧ Stored r.buf (c.cell t) x n
  | .advance x => q.length < room c n ∧ Stored r.buf (c.cell r.tail) x n
  | .idle | .check _ | .returns _ => True

/-- What the consumer's count knows. No one else moves the head, so the first round suffices. -/
def ConsumerCount (r : RingShared) (H : ℕ) (q : List (Item n)) : CountPc → Prop
  | .head _ => True
  | .tail _ h => h = r.head
  | .headAgain _ h t => h = r.head ∧ ∃ m ≤ q.length, t = BitVec.ofNat 32 (H + m)
  | .lastHead | .lastTail _ => False

def ConsumerOk (r : RingShared) (H : ℕ) (q : List (Item n)) : ConsumerPc n → Prop
  | .count p => ConsumerCount r H q p
  | .loadHead => q ≠ []
  | .copy h k item => h = r.head ∧ ∃ x ∈ q.head?, item.Read x k
  | .recycle _ item | .advance item => item ∈ q.head?
  | .idle | .check | .returns _ => True

/-- The ring holds the items of `q`, the oldest at position `H`, while the two calls are where they
are. -/
structure SpscInv (c : Pow2) (r : RingShared) (pc : ProducerPc n) (cc : ConsumerPc n) (H : ℕ)
    (q : List (Item n)) : Prop where
  head : r.head = BitVec.ofNat 32 H
  tail : r.tail = BitVec.ofNat 32 (H + q.length)
  length : q.length ≤ room c n
  stored : ∀ k x, q[k]? = some x → Stored r.buf ((H + k) % c.size) x n
  producer : ProducerOk c r H q pc
  consumer : ConsumerOk r H q cc

structure SameRing (r r' : RingShared) : Prop where
  head : r'.head = r.head
  tail : r'.tail = r.tail
  buf : r'.buf = r.buf

theorem ProducerOk.same (h : ProducerOk c.toPow2 r H q pc) (hr : SameRing r r') :
    ProducerOk c.toPow2 r' H q pc := by
  cases pc with
  | count x p =>
    refine ⟨h.1, ?_⟩
    cases p with
    | headAgain retry hd t => exact h.2.trans hr.tail.symm
    | lastTail hd => exact h.2
    | _ => trivial
  | writerLock x t => exact ⟨h.1, h.2.trans hr.tail.symm⟩
  | copy x t k => exact ⟨h.1, h.2.1.trans hr.tail.symm, hr.buf.symm ▸ h.2.2⟩
  | writerUnlock x t => exact ⟨h.1, h.2.1.trans hr.tail.symm, hr.buf.symm ▸ h.2.2⟩
  | publish x t => exact ⟨h.1, h.2.1.trans hr.tail.symm, hr.buf.symm ▸ h.2.2⟩
  | advance x =>
    refine ⟨h.1, ?_⟩
    rw [hr.tail, hr.buf]
    exact h.2
  | _ => exact h

theorem ConsumerOk.same (h : ConsumerOk r H q cc) (hr : r'.head = r.head) :
    ConsumerOk r' H q cc := by
  cases cc with
  | count p =>
    cases p with
    | tail retry hd => exact Eq.trans h hr.symm
    | headAgain retry hd t => exact ⟨h.1.trans hr.symm, h.2⟩
    | _ => exact h
  | copy hd k item => exact ⟨h.1.trans hr.symm, h.2⟩
  | _ => exact h

theorem SpscInv.same (h : SpscInv c.toPow2 r pc cc H q) (hr : SameRing r r') :
    SpscInv c.toPow2 r' pc cc H q where
  head := hr.head.trans h.head
  tail := hr.tail.trans h.tail
  length := h.length
  stored := hr.buf.symm ▸ h.stored
  producer := h.producer.same hr
  consumer := h.consumer.same hr.head

theorem peekStep_sameRing {p p' : QueueThread n} {e : QueueEvent n}
    (h : peekStep c.toPow2 r p = some (r', p', e)) : SameRing r r' := by
  unfold peekStep at h
  split at h <;> try split_ifs at h
  all_goals cases h
  all_goals exact ⟨rfl, rfl, rfl⟩

/-! ### The producer -/

section producer

theorem SpscInv.full_iff (h : SpscInv c.toPow2 r pc cc H q) (hn : 0 < n) :
    c.size ≤ clampCount c.toPow2 (r.tail - r.head) ↔ room c.toPow2 n ≤ q.length := by
  have hlen := h.length
  rw [room_eq c.toPow2 hn] at hlen ⊢
  rw [h.head, h.tail, clampCount_ofNat c H hlen]

/-- The slot behind the last item is that of none of them. -/
theorem SpscInv.slot_free (h : SpscInv c.toPow2 r pc cc H q) (hroom : q.length < room c.toPow2 n)
    {k : ℕ} {x : Item n} (hk : q[k]? = some x) : (H + k) % c.size ≠ c.cell r.tail := by
  have hlt : k < q.length := (List.getElem?_eq_some_iff.mp hk).1
  have hle := room_le c.toPow2 n
  rw [h.tail, c.cell_ofNat]
  intro he
  have := slot_inj he (by omega) (by omega)
  omega

/-- A step of the producer that leaves the items as they are, and the consumer. -/
theorem SpscInv.stay (h : SpscInv c.toPow2 r pc cc H q) {pc' : ProducerPc n} (hr : SameRing r r')
    (hpc : ProducerOk c.toPow2 r' H q pc') : SpscInv c.toPow2 r' pc' cc H q :=
  { h.same hr with producer := hpc }

theorem SpscInv.producer_count {x : Item n} {p : CountPc}
    (h : SpscInv c.toPow2 r (.count x p) cc H q)
    (hs : producerStep c.toPow2 r (.count x p) = some (r', pc)) :
    SpscInv c.toPow2 r' pc cc H q ∧ (boundedQueue (Item n) (room c.toPow2 n)).PhaseTurn q
      ((ProducerPc.count x p).phase c.toPow2 r) q (pc.phase c.toPow2 r') := by
  obtain ⟨hn, hp⟩ := h.producer
  have hlen := h.length
  rw [room_eq c.toPow2 hn] at hlen
  have hsame : SameRing r r := ⟨rfl, rfl, rfl⟩
  cases p with
  | head retry =>
    cases hs
    exact ⟨h.stay hsame ⟨hn, trivial⟩, .stays⟩
  | tail retry hd =>
    cases hs
    exact ⟨h.stay hsame ⟨hn, rfl⟩, .stays⟩
  | headAgain retry hd t =>
    obtain rfl : t = r.tail := hp
    simp only [producerStep, countStep] at hs
    by_cases hhead : hd = r.head
    · subst hhead
      rw [if_pos rfl] at hs
      cases hs
      split_ifs with hfull
      · exact ⟨h.stay hsame trivial, .takesEffect (.full ((h.full_iff hn).mp hfull))⟩
      · exact ⟨h.stay hsame (not_le.mp ((h.full_iff hn).not.mp hfull)), .stays⟩
    · rw [if_neg hhead] at hs
      cases hs
      split_ifs
      · exact ⟨h.stay hsame ⟨hn, trivial⟩, .stays⟩
      · exact ⟨h.stay hsame ⟨hn, trivial⟩, .stays⟩
  | lastHead =>
    cases hs
    refine ⟨h.stay hsame ⟨hn, H, Nat.le_refl H, h.head, Nat.add_le_add_left hlen H⟩, ?_⟩
    simp only [ProducerPc.phase]
    split_ifs with hfull
    · exact .takesEffect (.full ((h.full_iff hn).mp hfull))
    · exact .stays
  | lastTail hd =>
    obtain ⟨P, hP, rfl, hle⟩ := hp
    have hcount : clampCount c.toPow2 (r.tail - BitVec.ofNat 32 P) = H + q.length - P := by
      rw [h.tail, show H + q.length = P + (H + q.length - P) by omega,
        clampCount_ofNat c P (by omega)]
      omega
    cases hs
    simp only [ProducerPc.phase, hcount]
    split_ifs with hfull
    · exact ⟨h.stay hsame trivial, .stays⟩
    · refine ⟨h.stay hsame ?_, .stays⟩
      show q.length < room c.toPow2 n
      rw [room_eq c.toPow2 hn]
      omega

/-- One more byte of the item is in its slot, which no item in the queue has. -/
theorem SpscInv.producer_copy {x : Item n} {t : BitVec 32} {k : ℕ}
    (h : SpscInv c.toPow2 r (.copy x t k) cc H q) (hk : k < n) :
    SpscInv c.toPow2 { r with buf := Function.update r.buf (c.cell t * n + k) (x ⟨k, hk⟩) }
      (if k + 1 < n then .copy x t (k + 1) else .writerUnlock x t) cc H q := by
  obtain ⟨hroom, rfl, hstored⟩ := h.producer
  have hnext := hstored.next hk
  refine ⟨h.head, h.tail, h.length, ?_, ?_, h.consumer.same rfl⟩
  · intro m y hy
    exact (h.stored m y hy).other (h.slot_free hroom hy) hk _
  · split_ifs with hmore
    · exact ⟨hroom, rfl, hnext⟩
    · obtain rfl : n = k + 1 := by omega
      exact ⟨hroom, rfl, hnext⟩

theorem SpscInv.producer_advance {x : Item n} (h : SpscInv c.toPow2 r (.advance x) cc H q) :
    SpscInv c.toPow2 { r with tail := r.tail + 1 } (.returns true) cc H (q ++ [x]) := by
  obtain ⟨hroom, hstored⟩ := h.producer
  have hlength : (q ++ [x]).length = q.length + 1 := List.length_append
  refine ⟨h.head, ?_, ?_, ?_, trivial, ?_⟩
  · show r.tail + 1 = _
    rw [hlength, h.tail, ← Nat.add_assoc, ofNat_succ]
  · rw [hlength]
    exact hroom
  · intro k y hy
    rcases Nat.lt_or_ge k q.length with hk | hk
    · rw [List.getElem?_append_left hk] at hy
      exact h.stored k y hy
    · rw [List.getElem?_append_right hk] at hy
      obtain ⟨hk', rfl⟩ := List.getElem?_eq_some_iff.mp hy
      obtain rfl : k = q.length := by
        have : k - q.length < 1 := hk'
        omega
      rw [h.tail, c.cell_ofNat] at hstored
      simpa using hstored
  · have hcons := h.consumer
    have hhead : ∀ y ∈ q.head?, y ∈ (q ++ [x]).head? := by
      intro y hy
      rw [List.head?_append, Option.mem_def.mp hy]
      rfl
    cases cc with
    | count p =>
      cases p with
      | headAgain retry hd t =>
        obtain ⟨hhd, m, hm, ht⟩ := hcons
        exact ⟨hhd, m, by omega, ht⟩
      | _ => exact hcons
    | loadHead => exact List.append_ne_nil_of_left_ne_nil hcons _
    | copy hd k item =>
      obtain ⟨hhd, y, hy, hread⟩ := hcons
      exact ⟨hhd, y, hhead y hy, hread⟩
    | recycle hd item => exact hhead item hcons
    | advance item => exact hhead item hcons
    | _ => trivial

theorem SpscInv.producer_step {pc' : ProducerPc n} (h : SpscInv c.toPow2 r pc cc H q)
    (hs : producerStep c.toPow2 r pc = some (r', pc')) :
    ∃ q', SpscInv c.toPow2 r' pc' cc H q' ∧ (boundedQueue (Item n) (room c.toPow2 n)).PhaseTurn q
      (pc.phase c.toPow2 r) q' (pc'.phase c.toPow2 r') := by
  have hsame : SameRing r r := ⟨rfl, rfl, rfl⟩
  cases pc with
  | idle => cases hs
  | check x =>
    cases hs
    refine ⟨q, ?_⟩
    split_ifs with hn
    · refine ⟨h.stay hsame trivial, .takesEffect (.full ?_)⟩
      rw [room, if_pos hn]
      exact Nat.zero_le _
    · exact ⟨h.stay hsame ⟨Nat.pos_of_ne_zero hn, trivial⟩, .stays⟩
  | count x p => exact ⟨q, h.producer_count hs⟩
  | loadTail x =>
    cases hs
    exact ⟨q, h.stay hsame ⟨h.producer, rfl⟩, .stays⟩
  | writerLock x t =>
    simp only [producerStep] at hs
    split_ifs at hs
    · cases hs
      refine ⟨q, h.stay ⟨rfl, rfl, rfl⟩ ⟨h.producer.1, h.producer.2, ?_⟩, .stays⟩
      intro m hm
      exact absurd hm (Nat.not_lt_zero _)
    · cases hs
      exact ⟨q, h.stay hsame h.producer, .stays⟩
  | copy x t k =>
    simp only [producerStep] at hs
    split_ifs at hs with hk hmore
    · cases hs
      have hinv := h.producer_copy hk
      rw [if_pos hmore] at hinv
      exact ⟨q, hinv, .stays⟩
    · cases hs
      have hinv := h.producer_copy hk
      rw [if_neg hmore] at hinv
      exact ⟨q, hinv, .stays⟩
  | writerUnlock x t =>
    cases hs
    exact ⟨q, h.stay ⟨rfl, rfl, rfl⟩ h.producer, .stays⟩
  | publish x t =>
    cases hs
    obtain ⟨hroom, rfl, hstored⟩ := h.producer
    exact ⟨q, h.stay ⟨rfl, rfl, rfl⟩ ⟨hroom, hstored⟩, .stays⟩
  | advance x =>
    cases hs
    exact ⟨q ++ [x], h.producer_advance, .takesEffect (.pushed h.producer.1)⟩
  | returns ok =>
    cases hs
    exact ⟨q, h.stay hsame trivial, .returns⟩

end producer

/-! ### The consumer -/

section consumer

/-- A step of the consumer that leaves the items as they are, and the producer. -/
theorem SpscInv.wait (h : SpscInv c.toPow2 r pc cc H q) {cc' : ConsumerPc n} (hr : SameRing r r')
    (hcc : ConsumerOk r' H q cc') : SpscInv c.toPow2 r' pc cc' H q :=
  { h.same hr with consumer := hcc }

theorem SpscInv.consumer_count {p : CountPc} (h : SpscInv c.toPow2 r pc (.count p) H q)
    (hs : consumerStep c.toPow2 r (.count p) = some (r', cc)) :
    SpscInv c.toPow2 r' pc cc H q ∧ (boundedQueue (Item n) (room c.toPow2 n)).PhaseTurn q
      (ConsumerPc.count p : ConsumerPc n).phase q cc.phase := by
  have hp := h.consumer
  have hsame : SameRing r r := ⟨rfl, rfl, rfl⟩
  have hlen := h.length.trans (room_le c.toPow2 n)
  have hsize := c.size_lt
  cases p with
  | head retry =>
    cases hs
    exact ⟨h.wait hsame rfl, .stays⟩
  | tail retry hd =>
    obtain rfl : hd = r.head := hp
    cases hs
    refine ⟨h.wait hsame ⟨rfl, q.length, Nat.le_refl _, h.tail⟩, ?_⟩
    simp only [ConsumerPc.phase]
    split_ifs with hempty
    · rw [h.head, h.tail] at hempty
      have hzero : H + q.length = H := ofNat_inj_near hempty (by omega) (by omega)
      obtain rfl : q = [] := List.length_eq_zero_iff.mp (by omega)
      exact .takesEffect .empty
    · exact .stays
  | headAgain retry hd t =>
    obtain ⟨rfl, m, hm, rfl⟩ := hp
    have hcount : clampCount c.toPow2 (BitVec.ofNat 32 (H + m) - r.head) = m := by
      rw [h.head, clampCount_ofNat c H (hm.trans hlen)]
    have hiff : BitVec.ofNat 32 (H + m) = r.head ↔ m = 0 := by
      rw [h.head]
      constructor
      · intro he
        have := ofNat_inj_near he (by omega) (by omega)
        omega
      · rintro rfl
        rfl
    simp only [consumerStep, countStep, if_true, hcount] at hs
    cases hs
    simp only [ConsumerPc.phase, hiff]
    split_ifs with hzero
    · exact ⟨h.wait hsame trivial, .stays⟩
    · refine ⟨h.wait hsame ?_, .stays⟩
      rintro rfl
      exact hzero (Nat.le_zero.mp hm)
  | lastHead => exact hp.elim
  | lastTail hd => exact hp.elim

/-- The oldest item is taken. The producer, wherever it is, has the more room. -/
theorem SpscInv.consumer_advance {item : Item n} (h : SpscInv c.toPow2 r pc (.advance item) H q) :
    ∃ q', q = item :: q' ∧
      SpscInv c.toPow2 { r with head := r.head + 1 } pc (.returns (some item)) (H + 1) q' := by
  obtain ⟨q', rfl⟩ := List.head?_eq_some_iff.mp h.consumer
  have hlen : (item :: q').length = q'.length + 1 := rfl
  have hlength := h.length
  have hpos : H + 1 + q'.length = H + (item :: q').length := by omega
  refine ⟨q', rfl, ?_, ?_, by omega, ?_, ?_, trivial⟩
  · show r.head + 1 = _
    rw [h.head, ofNat_succ]
  · rw [hpos]
    exact h.tail
  · intro k x hk
    have := h.stored (k + 1) x hk
    rwa [show H + 1 + k = H + (k + 1) by omega]
  · have hprod := h.producer
    cases pc with
    | count x p =>
      refine ⟨hprod.1, ?_⟩
      cases p with
      | lastTail hd =>
        obtain ⟨P, hP, hhd, hle⟩ := hprod.2
        exact ⟨P, by omega, hhd, by omega⟩
      | headAgain retry hd t => exact hprod.2
      | _ => trivial
    | loadTail x => exact Nat.lt_of_succ_lt hprod
    | writerLock x t => exact ⟨Nat.lt_of_succ_lt hprod.1, hprod.2⟩
    | copy x t k => exact ⟨Nat.lt_of_succ_lt hprod.1, hprod.2⟩
    | writerUnlock x t => exact ⟨Nat.lt_of_succ_lt hprod.1, hprod.2⟩
    | publish x t => exact ⟨Nat.lt_of_succ_lt hprod.1, hprod.2⟩
    | advance x => exact ⟨Nat.lt_of_succ_lt hprod.1, hprod.2⟩
    | _ => trivial

theorem SpscInv.consumer_step {cc' : ConsumerPc n} (h : SpscInv c.toPow2 r pc cc H q)
    (hs : consumerStep c.toPow2 r cc = some (r', cc')) :
    ∃ H' q', SpscInv c.toPow2 r' pc cc' H' q' ∧ r'.tail = r.tail ∧
      (boundedQueue (Item n) (room c.toPow2 n)).PhaseTurn q cc.phase q' cc'.phase := by
  have hsame : SameRing r r := ⟨rfl, rfl, rfl⟩
  cases cc with
  | idle => cases hs
  | check =>
    cases hs
    refine ⟨H, q, ?_⟩
    split_ifs with hn
    · have hlength := h.length
      rw [room, if_pos hn] at hlength
      obtain rfl : q = [] := List.length_eq_zero_iff.mp (Nat.le_zero.mp hlength)
      exact ⟨h.wait hsame trivial, rfl, .takesEffect .empty⟩
    · exact ⟨h.wait hsame trivial, rfl, .stays⟩
  | count p =>
    obtain ⟨hinv, hturn⟩ := h.consumer_count hs
    refine ⟨H, q, hinv, ?_, hturn⟩
    simp only [consumerStep] at hs
    split at hs
    · cases hs
      rfl
    · cases hs
      rfl
  | loadHead =>
    cases hs
    obtain ⟨x, q', rfl⟩ := List.exists_cons_of_ne_nil h.consumer
    refine ⟨H, _, h.wait hsame ⟨rfl, x, rfl, ?_⟩, rfl, .stays⟩
    intro m hm
    exact absurd hm (Nat.not_lt_zero _)
  | copy hd k item =>
    obtain ⟨rfl, x, hx, hread⟩ := h.consumer
    have hbyte := h.stored 0 x (List.head?_eq_getElem? ▸ hx)
    simp only [consumerStep] at hs
    split_ifs at hs with hk hmore
    · cases hs
      refine ⟨H, q, h.wait hsame ⟨rfl, x, hx, hread.next hk ?_⟩, rfl, .stays⟩
      rw [h.head, c.cell_ofNat]
      exact hbyte ⟨k, hk⟩ hk
    · cases hs
      obtain rfl : n = k + 1 := by omega
      have hall := hread.next (b := r.buf (c.cell r.head * (k + 1) + k)) hk (by
        rw [h.head, c.cell_ofNat]
        exact hbyte ⟨k, hk⟩ hk)
      refine ⟨H, q, h.wait hsame ?_, rfl, .stays⟩
      show _ ∈ q.head?
      rwa [hall.eq]
  | recycle hd item =>
    cases hs
    exact ⟨H, q, h.wait ⟨rfl, rfl, rfl⟩ h.consumer, rfl, .stays⟩
  | advance item =>
    cases hs
    obtain ⟨q', rfl, hinv⟩ := h.consumer_advance
    exact ⟨H + 1, q', hinv, rfl, .takesEffect .popped⟩
  | returns item =>
    cases hs
    exact ⟨H, q, h.wait hsame trivial, rfl, .returns⟩

end consumer

/-! ### The queue -/

section runs
variable {s t : SpscState ι n}
  {a : ObjectState QueueParty (List (Item n)) (QueueOp (Item n)) (QueueAnswer (Item n))}

/-- The ring holds what the queue does, and its calls are as far. -/
structure HoldsQueue (c : Pow2) (s : SpscState ι n)
    (a : ObjectState QueueParty (List (Item n)) (QueueOp (Item n)) (QueueAnswer (Item n))) :
    Prop where
  inv : ∃ H, SpscInv c s.ring s.producer s.consumer H a.value
  phase : a.phase = s.phase c

theorem ProducerPc.phase_same (pc : ProducerPc n) (hr : r'.tail = r.tail) :
    pc.phase c.toPow2 r' = pc.phase c.toPow2 r := by
  cases pc with
  | count x p =>
    cases p with
    | lastTail h => simp only [ProducerPc.phase, hr]
    | _ => rfl
  | _ => rfl

theorem HoldsQueue.turn (h : HoldsQueue c.toPow2 s a) {H : ℕ} {q : List (Item n)} (i : QueueParty)
    (hinv : SpscInv c.toPow2 t.ring t.producer t.consumer H q)
    (hothers : ∀ j ≠ i, t.phase c.toPow2 j = s.phase c.toPow2 j)
    (hturn : (boundedQueue (Item n) (room c.toPow2 n)).PhaseTurn a.value (s.phase c.toPow2 i) q
      (t.phase c.toPow2 i)) :
    ∃ b, ((boundedQueue (Item n) (room c.toPow2 n)).atomicSpec QueueParty).Turn a
      ((s.phase c.toPow2 i).event i (t.phase c.toPow2 i)) b ∧ HoldsQueue c.toPow2 t b := by
  rw [← h.phase] at hturn hothers ⊢
  exact ⟨⟨q, t.phase c.toPow2⟩, hturn.turn hothers, ⟨H, hinv⟩, rfl⟩

variable [DecidableEq ι]

theorem HoldsQueue.step (h : HoldsQueue c.toPow2 s a) {l : SpscLabel ι n}
    (hs : spscStep c.toPow2 s l = some t) :
    ∃ b, ((boundedQueue (Item n) (room c.toPow2 n)).atomicSpec QueueParty).Turn a
      (s.event c.toPow2 l t) b ∧ HoldsQueue c.toPow2 t b := by
  obtain ⟨H, hinv⟩ := h.inv
  cases l with
  | push x =>
    obtain ⟨r, pc, cc, peekers⟩ := s
    cases pc with
    | idle =>
      cases hs
      refine h.turn (t := ⟨r, .check x, cc, peekers⟩) .producer { hinv with producer := trivial } ?_
        .calls
      rintro (_ | _) hj
      · exact absurd rfl hj
      · rfl
    | _ => cases hs
  | pop =>
    obtain ⟨r, pc, cc, peekers⟩ := s
    cases cc with
    | idle =>
      cases hs
      refine h.turn (t := ⟨r, pc, .check, peekers⟩) .consumer { hinv with consumer := trivial } ?_
        .calls
      rintro (_ | _) hj
      · rfl
      · exact absurd rfl hj
    | _ => cases hs
  | producer =>
    obtain ⟨⟨r, pc⟩, hstep, rfl⟩ := Option.map_eq_some_iff.mp hs
    obtain ⟨q, hinv', hturn⟩ := hinv.producer_step hstep
    refine h.turn .producer hinv' ?_ hturn
    rintro (_ | _) hj
    · exact absurd rfl hj
    · rfl
  | consumer =>
    obtain ⟨⟨r, cc⟩, hstep, rfl⟩ := Option.map_eq_some_iff.mp hs
    obtain ⟨H', q, hinv', htail, hturn⟩ := hinv.consumer_step hstep
    refine h.turn .consumer hinv' ?_ hturn
    rintro (_ | _) hj
    · exact s.producer.phase_same htail
    · exact absurd rfl hj
  | peek i =>
    refine ⟨a, rfl, ?_⟩
    simp only [spscStep] at hs
    split at hs
    · cases hs
      exact ⟨⟨H, hinv⟩, h.phase⟩
    · cases hs
  | peeker i =>
    obtain ⟨⟨r, p, e⟩, hstep, rfl⟩ := Option.map_eq_some_iff.mp hs
    have hsame := peekStep_sameRing hstep
    refine ⟨a, rfl, ⟨H, hinv.same hsame⟩, h.phase.trans (funext ?_)⟩
    rintro (_ | _)
    · exact (s.producer.phase_same hsame.tail).symm
    · rfl

theorem HoldsQueue.start (n : ℕ) (c : QueueCap) (s : SpscState ι n)
    (hinit : (spscSystem c.toPow2).init s) :
    ∃ a, ((boundedQueue (Item n) (room c.toPow2 n)).atomicSpec QueueParty).init a ∧
      HoldsQueue c.toPow2 s a := by
  obtain ⟨buf, rfl⟩ := hinit
  refine ⟨_, rfl, ⟨0, rfl, rfl, Nat.zero_le _, ?_, trivial, trivial⟩, funext ?_⟩
  · intro k x hk
    cases hk
  · rintro (_ | _)
    · rfl
    · rfl

/-- The items that pops take are those that pushes put in, in the same order and each once, and what
is in between is in the ring, no more of it than the capacity. -/
theorem spsc_fifo (s t : SpscState ι n) (c : QueueCap)
    (es : List (CallEvent QueueParty (QueueOp (Item n)) (QueueAnswer (Item n))))
    (hinit : (spscSystem c.toPow2).init s)
    (hrun : (spscSystem c.toPow2).Shows (fun _ _ => True) (SpscState.event c.toPow2) s es t) :
    ∃ q, pushedItems (effects es) = poppedItems (effects es) ++ q ∧
      q.length ≤ room c.toPow2 n ∧ ∃ H, SpscInv c.toPow2 t.ring t.producer t.consumer H q := by
  have hsim : (spscSystem c.toPow2 : System (SpscState ι n) _).Simulates (fun _ _ => True)
      (SpscState.event c.toPow2)
      ((boundedQueue (Item n) (room c.toPow2 n)).atomicSpec QueueParty) (HoldsQueue c.toPow2) :=
    ⟨HoldsQueue.start n c, fun _ _ _ _ h _ hs => h.step hs⟩
  obtain ⟨a, b, ha, hpath, hb⟩ := hsim.run hinit hrun
  have hruns := SeqObject.path_runs hpath
  obtain rfl : a = ⟨[], fun _ => .idle⟩ := ha
  obtain ⟨hitems, hlen⟩ := queue_runs hruns
  exact ⟨b.value, hitems, hlen, hb.inv⟩

/-- Two pushes of one byte each to a ring of two, the second while a pop takes the first. -/
def twoPushes : List (SpscLabel Unit 1) :=
  .push (fun _ => 7) :: List.replicate 11 .producer ++ .pop :: List.replicate 5 .consumer ++
    .push (fun _ => 9) :: List.replicate 10 .producer ++ List.replicate 4 .consumer

theorem spsc_fifo_two :
    ∃ (t : SpscState Unit 1) (q : List (Item 1))
      (es : List (CallEvent QueueParty (QueueOp (Item 1)) (QueueAnswer (Item 1)))),
      poppedItems (effects es) = [fun _ => 7] ∧ pushedItems (effects es) = (fun _ => 7) :: q ∧
        q = [fun _ => 9] ∧
        ∃ H, SpscInv (QueueCap.mk ⟨1⟩ (by decide)).toPow2 t.ring t.producer t.consumer H q := by
  have hout : ((spscSystem ⟨1⟩).showWhen (fun _ _ => True) (SpscState.event ⟨1⟩)
      (spscNew Unit 1 fun _ => 0) [] twoPushes).map (fun r => decide
        (poppedItems (effects r.1) = [fun _ => 7] ∧
          pushedItems (effects r.1) = [fun _ => 7, fun _ => 9])) = some true := by
    decide +kernel
  obtain ⟨⟨es, t⟩, hshow, hend⟩ := Option.map_eq_some_iff.mp hout
  obtain ⟨hpopped, hpushed⟩ := of_decide_eq_true hend
  obtain ⟨q, hitems, -, hinv⟩ := spsc_fifo (spscNew Unit 1 fun _ => 0) t ⟨⟨1⟩, by decide⟩ es
    ⟨_, rfl⟩ (System.Shows.refl.follow hshow)
  rw [hpopped] at hitems
  have hq : q = [fun _ => 9] := by
    rw [hpushed] at hitems
    exact (List.cons.inj hitems).2.symm
  exact ⟨t, q, es, hpopped, hitems, hq, hinv⟩

end runs
end Xplatbase.Queue
