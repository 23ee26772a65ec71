import Xplatbase.Queue.RingPeek
import Xplatbase.ThreadPool.RingDelivery
import Mathlib.Data.Finset.Card

/-! Pushes, pops and peeks of the ring queue under any interleaving. Its positions follow those of
the typed ring of a shard, whose cell holds the item at once; what is new is that bytes move one by
one and that a reader's count keeps producers out of its slot. -/
namespace Xplatbase.Queue
open Xplatbase.Lib Xplatbase.ThreadPool

variable {ι : Type*} {n : ℕ}

/-- The thread of the typed ring it is; the guard and the bytes are steps of none. -/
def QueueThread.typed : QueueThread n → RingThread (Item n)
  | .pushLoad x => .pushReload x
  | .pushSeq x t => .pushSeq x t
  | .pushCas x t => .pushCas x t
  | .writerLock x t | .pushCopy x t _ => .pushCopy x t
  | .writerUnlock x t | .pushPublish x t => .pushPublish x t
  | .popLoad => .popLoad 1
  | .popSeq h => .popSeq 1 h 0
  | .popCas h => .popCas 1 h 1
  | .popCopy h _ _ => .popCopy h 1 0
  | .popRecycle h _ => .popRecycle h 1 0
  | _ => .idle

/-- The typed ring, with the item each cell was filled with last. -/
def QueueState.typed (s : QueueState ι n) (cells : ℕ → Item n) : RingState ι (Item n) :=
  ⟨⟨s.ring.tail, s.ring.head, fun j => ⟨s.ring.seqno j, cells j⟩⟩, fun i => (s.thread i).typed⟩

/-- The first `k` bytes of slot `j` are those of `x`. -/
def Stored (buf : Buffer) (j : ℕ) (x : Item n) (k : ℕ) : Prop :=
  ∀ m : Fin n, m.val < k → buf (j * n + m) = x m

/-- The first `k` bytes read are those of `x`. -/
def Item.Read (item x : Item n) (k : ℕ) : Prop :=
  ∀ m : Fin n, m.val < k → item m = x m

def QueueThread.won : QueueThread n → Option (BitVec 32)
  | .writerLock _ t | .pushCopy _ t _ | .writerUnlock _ t | .pushPublish _ t => some t
  | _ => none

def QueueThread.Past : QueueThread n → Prop
  | .pushCopy _ _ _ | .writerUnlock _ _ | .pushPublish _ _ => True
  | _ => False

def QueueThread.relies (c : Pow2) : QueueThread n → Option ℕ
  | .pushCopy _ t _ | .writerUnlock _ t | .pushPublish _ t => some (c.cell t)
  | .peekCopy h _ _ => some (c.cell h)
  | _ => none

/-- While a reader that met position `P` at the head keeps its slot, the slot gets at most to the
next lap, and no producer publishes there. -/
def Lap (c : RingCap) (s : QueueState ι n) (h : QueueHistory ι n) (v : RingView) (P : ℕ) : Prop :=
  v.turn (P % c.size) ≤ P + c.size ∧ (v.turn (P % c.size) = P + c.size →
    v.full (P % c.size) = false ∧ ∀ i, (s.thread i).Past → h.ring.base i ≠ P + c.size)

def QueueThreadOk (c : RingCap) (s : QueueState ι n) (h : QueueHistory ι n) (v : RingView) (i : ι) :
    QueueThread n → Prop
  | .pushCopy x t k => Stored s.ring.buf (c.cell t) x k
  | .writerUnlock x t | .pushPublish x t => Stored s.ring.buf (c.cell t) x n
  | .popCopy _ k item => ∃ x, h.ring.claimed[h.ring.base i]? = some x ∧ item.Read x k
  | .popRecycle _ item => h.ring.claimed[h.ring.base i]? = some item
  | .readerCas _ _ readers => 0 ≤ readers
  | .peekCheck _ hd => ∃ P, hd = BitVec.ofNat 32 P ∧ P ≤ h.ring.taken ∧
      (v.Ready c.size P → P ∈ h.fronts i) ∧ Lap c s h v P
  | .peekCopy hd k item => ∃ P x, h.ring.claimed[P]? = some x ∧ P ∈ h.fronts i ∧
      Stored s.ring.buf (c.cell hd) x n ∧ item.Read x k
  | .readerUnlock _ item => ∃ P, h.ring.claimed[P]? = some item ∧ P ∈ h.fronts i
  | _ => True

/-- The guard of slot `j`: a writer alone, or the number of its readers. -/
def GuardOk (c : Pow2) (s : QueueState ι n) (j : ℕ) : Prop :=
  (s.ring.peekGuard j = -1 ∧ (∃ i, (s.thread i).writes c = some j) ∧
    ∀ i, (s.thread i).reads c ≠ some j) ∨
  ((∀ i, (s.thread i).writes c ≠ some j) ∧ ∃ readers : Finset ι,
    s.ring.peekGuard j = readers.card ∧ ∀ i, i ∈ readers ↔ (s.thread i).reads c = some j)

structure PeekInv (c : RingCap) (s : QueueState ι n) (h : QueueHistory ι n) (v : RingView)
    (cells : ℕ → Item n) : Prop where
  ring : RingInv c (s.typed cells) h.ring v
  bytes : ∀ p x, v.Ready c.size p → h.ring.claimed[p]? = some x →
    Stored s.ring.buf (p % c.size) x n
  thread : ∀ i, QueueThreadOk c s h v i (s.thread i)
  guard : ∀ j, GuardOk c.toPow2 s j
  fronts : ∀ i, ∀ p ∈ s.ring.front c.toPow2 h.ring.taken, p ∈ h.fronts i
  popped : h.popped.map Prod.fst = h.ring.recycled
  popped_once : (h.popped.map Prod.fst).Nodup
  popped_item : ∀ d ∈ h.popped, h.ring.claimed[d.1]? = some d.2
  peeked : ∀ d ∈ h.peeked, ∃ p ∈ d.2, h.ring.claimed[p]? = some d.1

/-! ### Bytes -/

theorem slot_bytes_ne {j j' : ℕ} (hj : j' ≠ j) {m m' : ℕ} (hm : m < n) (hm' : m' < n) :
    j' * n + m' ≠ j * n + m := by
  intro he
  apply hj
  have hdiv := congrArg (· / n) he
  simpa [Nat.add_comm _ m', Nat.add_comm _ m, Nat.add_mul_div_right, Nat.div_eq_of_lt hm,
    Nat.div_eq_of_lt hm', show 0 < n by omega] using hdiv

theorem Stored.other {buf : Buffer} {j j' k l : ℕ} {x : Item n} (h : Stored buf j' x l)
    (hj : j' ≠ j) (hk : k < n) (b : UInt8) :
    Stored (Function.update buf (j * n + k) b) j' x l := by
  intro m hm
  rw [Function.update_of_ne (slot_bytes_ne hj hk m.isLt)]
  exact h m hm

theorem Stored.next {buf : Buffer} {j k : ℕ} {x : Item n} (h : Stored buf j x k) (hk : k < n) :
    Stored (Function.update buf (j * n + k) (x ⟨k, hk⟩)) j x (k + 1) := by
  intro m hm
  by_cases hmk : m.val = k
  · rw [hmk, Function.update_self]
    congr 1
    exact Fin.ext hmk.symm
  · rw [Function.update_of_ne (by omega)]
    exact h m (by omega)

theorem Item.Read.next {item x : Item n} {k : ℕ} {b : UInt8} (h : item.Read x k) (hk : k < n)
    (hb : b = x ⟨k, hk⟩) :
    (item.setByte k b).Read x (k + 1) := by
  intro m hm
  unfold Item.setByte
  split_ifs with hmk
  · rw [hb]
    congr 1
    exact Fin.ext hmk.symm
  · exact h m (by omega)

theorem Item.Read.eq {item x : Item n} (h : item.Read x n) :
    item = x :=
  funext fun m => h m m.isLt

/-! ### Slots -/

section slots
variable {c : RingCap} {s : QueueState ι n} {h : QueueHistory ι n} {v : RingView}
  {cells : ℕ → Item n}

theorem won_state (hr : RingInv c (s.typed cells) h.ring v) {i : ι} {t : BitVec 32}
    (ht : (s.thread i).won = some t) :
    t = BitVec.ofNat 32 (h.ring.base i) ∧ v.Free c.size (h.ring.base i) ∧
      (s.thread i).typed.Holds (h.ring.base i) (h.ring.base i) := by
  have hi : RingThreadOk c h.ring v i (s.thread i).typed := hr.thread i
  cases hpc : s.thread i <;> rw [hpc] at ht hi <;> cases ht <;>
    exact ⟨hi.1, hi.2.1, rfl⟩

/-- Only one producer at a time is between its position and its publication in a slot. -/
theorem won_unique (hr : RingInv c (s.typed cells) h.ring v) {i k : ι} {t t' : BitVec 32}
    (ht : (s.thread i).won = some t) (ht' : (s.thread k).won = some t')
    (hcell : c.cell t = c.cell t') :
    i = k := by
  obtain ⟨rfl, hfree, hholds⟩ := won_state hr ht
  obtain ⟨rfl, hfree', hholds'⟩ := won_state hr ht'
  rw [c.cell_ofNat, c.cell_ofNat] at hcell
  have hbase : h.ring.base i = h.ring.base k := by rw [← hfree.1, ← hfree'.1, hcell]
  apply hr.holder_unique i k (h.ring.base i) hholds
  show (s.thread k).typed.Holds _ _
  rw [hbase]
  exact hholds'

theorem past_won {p : QueueThread n} (hp : p.Past) :
    ∃ t, p.won = some t := by
  cases p <;> first | exact ⟨_, rfl⟩ | exact hp.elim

theorem writes_won {p : QueueThread n} {j : ℕ} (hp : p.writes c.toPow2 = some j) :
    ∃ t, p.won = some t ∧ c.cell t = j := by
  cases p <;> cases hp <;> exact ⟨_, rfl, rfl⟩

theorem relies_cases {p : QueueThread n} {j : ℕ} (hp : p.relies c.toPow2 = some j) :
    (∃ t, p.won = some t ∧ c.cell t = j) ∨ p.reads c.toPow2 = some j := by
  cases p <;> cases hp <;> first | exact Or.inl ⟨_, rfl, rfl⟩ | exact Or.inr rfl

theorem writes_unique (hr : RingInv c (s.typed cells) h.ring v) {i k : ι} {j : ℕ}
    (hi : (s.thread i).writes c.toPow2 = some j) (hk : (s.thread k).writes c.toPow2 = some j) :
    i = k := by
  obtain ⟨t, ht, hj⟩ := writes_won hi
  obtain ⟨t', ht', hj'⟩ := writes_won hk
  exact won_unique hr ht ht' (hj.trans hj'.symm)

end slots

/-! ### The guard -/

section guard
variable {c : Pow2} {s : QueueState ι n} {r : RingShared} {i : ι} {p : QueueThread n} {j : ℕ}

theorem GuardOk.free (h : GuardOk c s j) (hg : s.ring.peekGuard j = 0) :
    (∀ k, (s.thread k).writes c ≠ some j) ∧ ∀ k, (s.thread k).reads c ≠ some j := by
  rcases h with ⟨hneg, -⟩ | ⟨hw, readers, hcard, hmem⟩
  · omega
  · rw [hg] at hcard
    have hempty : readers = ∅ := Finset.card_eq_zero.mp (by omega)
    refine ⟨hw, fun k hk => ?_⟩
    have := (hmem k).mpr hk
    rw [hempty] at this
    simp at this

theorem GuardOk.reader (h : GuardOk c s j) (hi : (s.thread i).reads c = some j) :
    ∀ k, (s.thread k).writes c ≠ some j := by
  rcases h with ⟨-, -, hno⟩ | ⟨hw, -⟩
  · exact absurd hi (hno i)
  · exact hw

variable [DecidableEq ι]

theorem GuardOk.same (h : GuardOk c s j) (hg : r.peekGuard = s.ring.peekGuard)
    (hw : p.writes c = (s.thread i).writes c) (hr : p.reads c = (s.thread i).reads c) :
    GuardOk c (s.setThread r i p) j := by
  have hw' : ∀ k, ((s.setThread r i p).thread k).writes c = (s.thread k).writes c := by
    intro k
    by_cases hk : k = i
    · rw [hk, setThread_self, hw]
    · rw [setThread_other s r p hk]
  have hr' : ∀ k, ((s.setThread r i p).thread k).reads c = (s.thread k).reads c := by
    intro k
    by_cases hk : k = i
    · rw [hk, setThread_self, hr]
    · rw [setThread_other s r p hk]
  simpa only [GuardOk, hw', hr', show (s.setThread r i p).ring.peekGuard = s.ring.peekGuard from hg]
    using h

theorem GuardOk.other (h : GuardOk c s j) (hg : r.peekGuard j = s.ring.peekGuard j)
    (hw : (s.thread i).writes c ≠ some j) (hw' : p.writes c ≠ some j)
    (hr : (s.thread i).reads c ≠ some j) (hr' : p.reads c ≠ some j) :
    GuardOk c (s.setThread r i p) j := by
  have hwiff : ∀ k, ((s.setThread r i p).thread k).writes c = some j ↔
      (s.thread k).writes c = some j := by
    intro k
    by_cases hk : k = i
    · rw [hk, setThread_self]
      exact iff_of_false hw' hw
    · rw [setThread_other s r p hk]
  have hriff : ∀ k, ((s.setThread r i p).thread k).reads c = some j ↔
      (s.thread k).reads c = some j := by
    intro k
    by_cases hk : k = i
    · rw [hk, setThread_self]
      exact iff_of_false hr' hr
    · rw [setThread_other s r p hk]
  simpa only [GuardOk, ne_eq, hwiff, hriff,
    show (s.setThread r i p).ring.peekGuard j = s.ring.peekGuard j from hg] using h

theorem GuardOk.writerLock (h : GuardOk c s j) (hg : s.ring.peekGuard j = 0)
    (hp : p.writes c = some j) (hpr : p.reads c = none) (hr : r.peekGuard j = -1) :
    GuardOk c (s.setThread r i p) j := by
  refine Or.inl ⟨hr, ⟨i, ?_⟩, fun k => ?_⟩
  · rw [setThread_self]
    exact hp
  · by_cases hk : k = i
    · rw [hk, setThread_self, hpr]
      exact Option.some_ne_none j ∘ Eq.symm
    · rw [setThread_other s r p hk]
      exact (h.free hg).2 k

theorem GuardOk.writerUnlock (h : GuardOk c s j) (hi : (s.thread i).writes c = some j)
    (hone : ∀ k, (s.thread k).writes c = some j → k = i) (hp : p.writes c = none)
    (hpr : p.reads c = none) (hr : r.peekGuard j = 0) :
    GuardOk c (s.setThread r i p) j := by
  have hno : ∀ k, (s.thread k).reads c ≠ some j := fun k hk => h.reader hk i hi
  refine Or.inr ⟨fun k => ?_, ∅, hr, fun k => ?_⟩
  · by_cases hk : k = i
    · rw [hk, setThread_self, hp]
      exact Option.some_ne_none j ∘ Eq.symm
    · rw [setThread_other s r p hk]
      exact fun hw => hk (hone k hw)
  · apply iff_of_false (Finset.notMem_empty k)
    by_cases hk : k = i
    · rw [hk, setThread_self, hpr]
      exact Option.some_ne_none j ∘ Eq.symm
    · rw [setThread_other s r p hk]
      exact hno k

theorem GuardOk.readerLock (h : GuardOk c s j) (hg : 0 ≤ s.ring.peekGuard j)
    (hi : (s.thread i).reads c = none) (hp : p.reads c = some j) (hpw : p.writes c = none)
    (hr : r.peekGuard j = s.ring.peekGuard j + 1) :
    GuardOk c (s.setThread r i p) j := by
  rcases h with ⟨hneg, -⟩ | ⟨hw, readers, hcard, hmem⟩
  · omega
  · have hnot : i ∉ readers := fun hin => by
      have := (hmem i).mp hin
      rw [hi] at this
      cases this
    refine Or.inr ⟨fun k => ?_, insert i readers, ?_, fun k => ?_⟩
    · by_cases hk : k = i
      · rw [hk, setThread_self, hpw]
        exact Option.some_ne_none j ∘ Eq.symm
      · rw [setThread_other s r p hk]
        exact hw k
    · rw [Finset.card_insert_of_notMem hnot]
      show r.peekGuard j = _
      rw [hr, hcard]
      rfl
    · rw [Finset.mem_insert]
      by_cases hk : k = i
      · rw [hk, setThread_self]
        exact iff_of_true (Or.inl rfl) hp
      · rw [setThread_other s r p hk, ← hmem k]
        exact or_iff_right hk

theorem GuardOk.readerUnlock (h : GuardOk c s j) (hi : (s.thread i).reads c = some j)
    (hp : p.reads c = none) (hpw : p.writes c = none)
    (hr : r.peekGuard j = s.ring.peekGuard j - 1) :
    GuardOk c (s.setThread r i p) j := by
  rcases h with ⟨-, -, hno⟩ | ⟨hw, readers, hcard, hmem⟩
  · exact absurd hi (hno i)
  · have hin : i ∈ readers := (hmem i).mpr hi
    have hpos := Finset.card_pos.mpr ⟨i, hin⟩
    refine Or.inr ⟨fun k => ?_, readers.erase i, ?_, fun k => ?_⟩
    · by_cases hk : k = i
      · rw [hk, setThread_self, hpw]
        exact Option.some_ne_none j ∘ Eq.symm
      · rw [setThread_other s r p hk]
        exact hw k
    · rw [Finset.card_erase_of_mem hin]
      show r.peekGuard j = _
      omega
    · rw [Finset.mem_erase]
      by_cases hk : k = i
      · rw [hk, setThread_self]
        apply iff_of_false (fun hne => hne.1 rfl)
        rw [hp]
        exact Option.some_ne_none j ∘ Eq.symm
      · rw [setThread_other s r p hk, hmem k]
        exact and_iff_right hk

end guard

/-! ### What a step leaves alone -/

section step
variable {c : RingCap} {s s' : QueueState ι n} {h h' : QueueHistory ι n} {v v' : RingView}
  {cells : ℕ → Item n}

theorem QueueThreadOk.mono {k : ι} {q : QueueThread n} (hq : QueueThreadOk c s h v k q)
    (hclaimed : h.ring.claimed <+: h'.ring.claimed) (htaken : h.ring.taken ≤ h'.ring.taken)
    (hbase : h'.ring.base k = h.ring.base k) (hfronts : ∀ p ∈ h.fronts k, p ∈ h'.fronts k)
    (hbuf : ∀ j x m, q.relies c.toPow2 = some j → Stored (n := n) s.ring.buf j x m →
      Stored s'.ring.buf j x m)
    (hready : ∀ p ≤ h.ring.taken, v'.Ready c.size p → v.Ready c.size p ∨ p ∈ h'.fronts k)
    (hlap : ∀ p, q.reads c.toPow2 = some (p % c.size) → Lap c s h v p → Lap c s' h' v' p) :
    QueueThreadOk c s' h' v' k q := by
  cases q with
  | pushCopy x t k' => exact hbuf _ _ _ rfl hq
  | writerUnlock x t => exact hbuf _ _ _ rfl hq
  | pushPublish x t => exact hbuf _ _ _ rfl hq
  | popCopy hd k' item =>
    obtain ⟨x, hx, hread⟩ := hq
    exact ⟨x, by rw [hbase]; exact getElem?_prefix hclaimed hx, hread⟩
  | popRecycle hd item =>
    show h'.ring.claimed[h'.ring.base k]? = some item
    rw [hbase]
    exact getElem?_prefix hclaimed hq
  | readerCas retry hd readers => exact hq
  | peekCheck retry hd =>
    obtain ⟨P, rfl, hP, hfront, hl⟩ := hq
    refine ⟨P, rfl, le_trans hP htaken, fun hr => ?_, hlap P ?_ hl⟩
    · rcases hready P hP hr with hold | hnew
      · exact hfronts P (hfront hold)
      · exact hnew
    · rw [QueueThread.reads, c.cell_ofNat]
  | peekCopy hd k' item =>
    obtain ⟨P, x, hx, hP, hst, hread⟩ := hq
    exact ⟨P, x, getElem?_prefix hclaimed hx, hfronts P hP, hbuf _ _ _ rfl hst, hread⟩
  | readerUnlock hd item =>
    obtain ⟨P, hx, hP⟩ := hq
    exact ⟨P, getElem?_prefix hclaimed hx, hfronts P hP⟩
  | _ => trivial

theorem Lap.same {P : ℕ} (hl : Lap c s h v P)
    (hpast : ∀ k, (s'.thread k).Past → h'.ring.base k = P + c.size →
      (s.thread k).Past ∧ h.ring.base k = P + c.size) :
    Lap c s' h' v P :=
  ⟨hl.1, fun ht => ⟨(hl.2 ht).1, fun k hk hb => by
    obtain ⟨hk', hb'⟩ := hpast k hk hb
    exact (hl.2 ht).2 k hk' hb'⟩⟩

theorem PeekInv.popByte (hs : PeekInv c s h v cells) {i : ι} {hd : BitVec 32} {m : ℕ}
    {item : Item n} (hpc : s.thread i = .popCopy hd m item)
    (hm : m < n) :
    ∃ x, h.ring.claimed[h.ring.base i]? = some x ∧ v.Ready c.size (h.ring.base i) ∧
      (∀ y, (h.ring.base i, y) ∉ h.ring.delivered) ∧ hd = BitVec.ofNat 32 (h.ring.base i) ∧
      (item.setByte m (s.ring.buf (c.cell hd * n + m))).Read x (m + 1) := by
  have hi : RingThreadOk c h.ring v i (s.thread i).typed := hs.ring.thread i
  have hown := hs.thread i
  rw [hpc] at hi hown
  obtain ⟨rfl, -, -, hready⟩ := hi
  obtain ⟨x, hx, hread⟩ := hown
  obtain ⟨hr, hnew⟩ := hready 0 le_rfl Nat.one_pos
  refine ⟨x, hx, hr, hnew, rfl, hread.next hm ?_⟩
  rw [c.cell_ofNat]
  exact hs.bytes _ x hr hx ⟨m, hm⟩ hm

/-- The second look at `seqno` finds the item of the position published, on its own lap. -/
theorem PeekInv.ready_of_check (hs : PeekInv c s h v cells) {i : ι} {hd : BitVec 32} {retry : ℕ}
    (hpc : s.thread i = .peekCheck retry hd)
    (hseq : s.ring.seqno (c.cell hd) = hd + 1) :
    ∃ P, hd = BitVec.ofNat 32 P ∧ v.Ready c.size P ∧ P ∈ h.fronts i := by
  have hown := hs.thread i
  rw [hpc] at hown
  obtain ⟨P, rfl, hP, hfront, hle, hlap⟩ := hown
  have hj : P % c.size < c.size := Nat.mod_lt _ c.size_pos
  have hsz := c.size_le
  have h2 := c.two_le
  have hmod := hs.ring.turn_mod _ hj
  have hlow : P ≤ v.turn (P % c.size) + c.size := by
    by_contra hlt
    have hprev := hs.ring.taken_done (P - c.size) (by omega)
    have hslot : (P - c.size) % c.size = P % c.size := by
      conv_rhs => rw [← Nat.sub_add_cancel (show c.size ≤ P by omega), Nat.add_mod_right]
    rw [RingView.Ready, hslot] at hprev
    omega
  rw [c.cell_ofNat] at hseq
  have heq : v.turn (P % c.size) + (v.full (P % c.size)).toNat = P + 1 := by
    have hf := Bool.toNat_le (v.full (P % c.size))
    refine ofNat_inj_near ((hs.ring.seq _ hj).symm.trans (hseq.trans ?_)) (by omega) (by omega)
    rw [BitVec.ofNat_add]
    rfl
  have hready : v.Ready c.size P := by
    cases hf : v.full (P % c.size) with
    | true =>
      rw [hf, Bool.toNat_true] at heq
      exact ⟨by omega, hf⟩
    | false =>
      rw [hf, Bool.toNat_false] at heq
      have := slot_inj hmod (by omega) (by omega)
      omega
  exact ⟨P, rfl, hready, hfront hready⟩

/-- The byte a reader copies is the item's: no producer is at the slot. -/
theorem PeekInv.peekByte (hs : PeekInv c s h v cells) {i : ι} {hd : BitVec 32} {m : ℕ}
    {item : Item n} (hpc : s.thread i = .peekCopy hd m item)
    (hm : m < n) :
    ∃ P x, h.ring.claimed[P]? = some x ∧ P ∈ h.fronts i ∧ Stored s.ring.buf (c.cell hd) x n ∧
      (item.setByte m (s.ring.buf (c.cell hd * n + m))).Read x (m + 1) := by
  have hown := hs.thread i
  rw [hpc] at hown
  obtain ⟨P, x, hx, hP, hst, hread⟩ := hown
  exact ⟨P, x, hx, hP, hst, hread.next hm (hst ⟨m, hm⟩ hm)⟩

def QueueThread.Free (c : RingCap) (s : QueueState ι n) (h : QueueHistory ι n) (v : RingView)
    (i : ι) (p : QueueThread n) : Prop :=
  p.typed = .idle ∧ ¬p.Past ∧ p.writes c.toPow2 = none ∧ p.reads c.toPow2 = none ∧
    QueueThreadOk c s h v i p

theorem peekRetry_free (i : ι) (retry : ℕ) : (peekRetry retry : QueueThread n).Free c s h v i := by
  unfold peekRetry
  split_ifs
  · exact ⟨rfl, id, rfl, rfl, trivial⟩
  · exact ⟨rfl, id, rfl, rfl, trivial⟩

theorem readerTry_free (i : ι) (retry : ℕ) (hd : BitVec 32) (readers : ℤ) :
    (readerTry retry hd readers : QueueThread n).Free c s h v i := by
  unfold readerTry
  split_ifs with hr
  · exact peekRetry_free i retry
  · exact ⟨rfl, id, rfl, rfl, by
      show 0 ≤ readers
      omega⟩

theorem typed_fill (seqno : ℕ → BitVec 32) (cells : ℕ → Item n) (a : ℕ) (x : Item n) :
    (fun j => (⟨seqno j, Function.update cells a x j⟩ : PoolCell (Item n))) =
      Function.update (fun j => ⟨seqno j, cells j⟩) a ⟨seqno a, x⟩ := by
  funext j
  by_cases hj : j = a
  · subst hj
    simp
  · simp [hj]

theorem typed_seqno (seqno : ℕ → BitVec 32) (cells : ℕ → Item n) (a : ℕ) (q : BitVec 32) :
    (fun j => (⟨Function.update seqno a q j, cells j⟩ : PoolCell (Item n))) =
      Function.update (fun j => ⟨seqno j, cells j⟩) a ⟨q, cells a⟩ := by
  funext j
  by_cases hj : j = a
  · subst hj
    simp
  · simp [hj]

theorem idle_of_start {i : ι} {p q : QueueThread n} (hst : queueStart s i q = some p) :
    s.thread i = .idle ∧ (p = .idle ∨ p = q) := by
  unfold queueStart at hst
  split at hst
  · rename_i hidle
    refine ⟨hidle, ?_⟩
    split_ifs at hst
    · exact Or.inl (Option.some.inj hst).symm
    · exact Or.inr (Option.some.inj hst).symm
  · cases hst

/-- The front is the oldest item not popped as soon as it is published. -/
theorem front_of_ready {g : RingHistory ι (Item n)} (hr : RingInv c (s.typed cells) g v)
    (hready : v.Ready c.size g.taken) :
    g.taken ∈ s.ring.front c.toPow2 g.taken := by
  have hseq := hr.seq _ (Nat.mod_lt g.taken c.size_pos)
  rw [hready.1, hready.2] at hseq
  have hhead : s.ring.head = BitVec.ofNat 32 g.taken := hr.head
  have hnext : s.ring.seqno (c.cell s.ring.head) = s.ring.head + 1 := by
    rw [hhead, c.cell_ofNat]
    apply hseq.trans
    rw [Bool.toNat_true, BitVec.ofNat_add]
    rfl
  unfold RingShared.front
  rw [if_pos hnext]
  exact List.mem_singleton_self _

/-- The slot a producer writes to is one nobody else relies on. -/
theorem PeekInv.relies_ne (hs : PeekInv c s h v cells) {i k : ι} {j j' : ℕ}
    (hi : (s.thread i).writes c.toPow2 = some j) (hk : k ≠ i)
    (hrel : (s.thread k).relies c.toPow2 = some j') :
    j' ≠ j := by
  rintro rfl
  rcases relies_cases hrel with ⟨t', ht', hj'⟩ | hread
  · obtain ⟨t, ht, hj⟩ := writes_won hi
    exact hk (won_unique hs.ring ht' ht (hj'.trans hj.symm))
  · exact (hs.guard _).reader hread i hi

variable [DecidableEq ι] {i k : ι} {r : RingShared} {p : QueueThread n} {e : QueueEvent n}

theorem record_claimed (h : RingHistory ι (Item n)) (i : ι) (e : RingEvent (Item n)) :
    h.claimed <+: (h.record i e).claimed := by
  cases e <;> first | exact List.prefix_refl _ | exact List.prefix_append _ _

theorem record_taken (h : RingHistory ι (Item n)) (i : ι) (e : RingEvent (Item n)) :
    h.taken ≤ (h.record i e).taken := by
  cases e <;> first | exact le_rfl | exact Nat.le_add_right _ _

theorem record_base (h : RingHistory ι (Item n)) (e : RingEvent (Item n)) (hk : k ≠ i) :
    (h.record i e).base k = h.base k := by
  cases e <;> first | rfl | exact Function.update_of_ne hk _ _

theorem record_fronts (hk : k ≠ i) :
    (h.record c.toPow2 i e r).fronts k =
      r.front c.toPow2 (h.ring.record i e.ringEvent).taken ++ h.fronts k := by
  cases e <;> simp [QueueHistory.record, hk]

theorem front_record (k : ι) :
    ∀ q ∈ r.front c.toPow2 (h.ring.record i e.ringEvent).taken,
      q ∈ (h.record c.toPow2 i e r).fronts k := by
  intro q hq
  cases e <;> simp only [QueueHistory.record]
  case peekStarted =>
    split_ifs
    · exact hq
    · exact List.mem_append_left _ hq
  all_goals exact List.mem_append_left _ hq

theorem typed_setThread (s : QueueState ι n) (r : RingShared) (i : ι) (p : QueueThread n)
    (cells : ℕ → Item n) :
    (s.setThread r i p).typed cells =
      ⟨⟨r.tail, r.head, fun j => ⟨r.seqno j, cells j⟩⟩,
        Function.update (s.typed cells).thread i p.typed⟩ := by
  unfold QueueState.typed QueueState.setThread
  congr 1
  funext k
  by_cases hk : k = i
  · subst hk
    simp
  · simp [hk]

/-- The invariant after a step of thread `i`, from what the step does to each part. -/
theorem PeekInv.next (hs : PeekInv c s h v cells) {cells' : ℕ → Item n}
    (hring : RingInv c ((s.setThread r i p).typed cells') (h.ring.record i e.ringEvent) v')
    (hbytes : ∀ q x, v'.Ready c.size q → h.ring.claimed[q]? = some x →
      Stored r.buf (q % c.size) x n)
    (hclaim : ∀ q, v'.Ready c.size q → q < h.ring.claimed.length)
    (hown : QueueThreadOk c (s.setThread r i p) (h.record c.toPow2 i e r) v' i p)
    (hbuf : ∀ k ≠ i, ∀ j x m, (s.thread k).relies c.toPow2 = some j →
      Stored (n := n) s.ring.buf j x m → Stored r.buf j x m)
    (hready : ∀ q ≤ h.ring.taken, v'.Ready c.size q →
      v.Ready c.size q ∨ q ∈ r.front c.toPow2 (h.ring.record i e.ringEvent).taken)
    (hlap : ∀ k ≠ i, ∀ P, (s.thread k).reads c.toPow2 = some (P % c.size) → Lap c s h v P →
      Lap c (s.setThread r i p) (h.record c.toPow2 i e r) v' P)
    (hguard : ∀ j, GuardOk c.toPow2 (s.setThread r i p) j)
    (hrec : ∀ k, e ≠ .ring (.recycled k))
    (hpopped : ∀ item, e = .popped item → h.ring.claimed[h.ring.base i]? = some item ∧
      h.ring.base i ∉ h.ring.recycled)
    (hpeeked : ∀ item, e = .peeked item →
      ∃ q ∈ h.fronts i, h.ring.claimed[q]? = some item) :
    PeekInv c (s.setThread r i p) (h.record c.toPow2 i e r) v' cells' where
  ring := hring
  bytes q x hq hx := by
    apply hbytes q x hq
    have hlt := hclaim q hq
    obtain ⟨l, hl⟩ := record_claimed h.ring i e.ringEvent
    have hx' : (h.ring.record i e.ringEvent).claimed[q]? = some x := hx
    rw [← hl, List.getElem?_append_left hlt] at hx'
    exact hx'
  thread k := by
    by_cases hk : k = i
    · subst hk
      rw [setThread_self]
      exact hown
    · rw [setThread_other s r p hk]
      refine (hs.thread k).mono (record_claimed _ _ _) (record_taken _ _ _)
        (record_base _ _ hk) (fun q hq => ?_) (hbuf k hk) (fun q hq hr => ?_) (hlap k hk)
      · rw [record_fronts hk]
        exact List.mem_append_right _ hq
      · exact (hready q hq hr).imp_right (front_record k q)
  guard := hguard
  fronts k q hq := front_record k q hq
  popped := by
    have hold := hs.popped
    cases e with
    | ring e =>
      cases e with
      | recycled k => exact absurd rfl (hrec k)
      | _ => exact hold
    | popped item => exact congrArg (h.ring.base i :: ·) hold
    | _ => exact hold
  popped_once := by
    have hold := hs.popped_once
    cases e with
    | popped item =>
      refine List.nodup_cons.mpr ⟨?_, hold⟩
      rw [hs.popped]
      exact (hpopped item rfl).2
    | _ => exact hold
  popped_item d hd := by
    have hold : ∀ d ∈ h.popped, (h.ring.record i e.ringEvent).claimed[d.1]? = some d.2 :=
      fun d hd => getElem?_prefix (record_claimed _ _ _) (hs.popped_item d hd)
    cases e with
    | popped item =>
      rcases List.mem_cons.mp hd with rfl | hd
      · exact (hpopped item rfl).1
      · exact hold d hd
    | _ => exact hold d hd
  peeked d hd := by
    have hold : ∀ d ∈ h.peeked,
        ∃ q ∈ d.2, (h.ring.record i e.ringEvent).claimed[q]? = some d.1 := by
      intro d hd
      obtain ⟨q, hq, hx⟩ := hs.peeked d hd
      exact ⟨q, hq, getElem?_prefix (record_claimed _ _ _) hx⟩
    cases e with
    | peeked item =>
      rcases List.mem_cons.mp hd with rfl | hd
      · exact hpeeked item rfl
      · exact hold d hd
    | _ => exact hold d hd

theorem PeekInv.stay (hs : PeekInv c s h v cells)
    (hring : RingInv c ((s.setThread r i p).typed cells) (h.ring.record i e.ringEvent) v)
    (hown : QueueThreadOk c (s.setThread r i p) (h.record c.toPow2 i e r) v i p)
    (hbuf : r.buf = s.ring.buf)
    (hpast : p.Past → ∀ P, (∃ k ≠ i, (s.thread k).reads c.toPow2 = some (P % c.size)) →
      (h.ring.record i e.ringEvent).base i = P + c.size →
        (s.thread i).Past ∧ h.ring.base i = P + c.size)
    (hguard : ∀ j, GuardOk c.toPow2 (s.setThread r i p) j)
    (hrec : ∀ k, e ≠ .ring (.recycled k)) (hpopped : ∀ item, e ≠ .popped item)
    (hpeeked : ∀ item, e = .peeked item →
      ∃ q ∈ h.fronts i, h.ring.claimed[q]? = some item) :
    PeekInv c (s.setThread r i p) (h.record c.toPow2 i e r) v cells := by
  refine hs.next hring (fun q x hq hx => ?_) (fun q hq => hs.ring.ready_lt hq) hown
    (fun k _ j x m _ hst => ?_) (fun q _ hq => Or.inl hq) (fun k hk P hread hl => ?_) hguard hrec
    (fun item he => absurd he (hpopped item)) hpeeked
  · rw [hbuf]
    exact hs.bytes q x hq hx
  · rw [hbuf]
    exact hst
  · refine hl.same fun k' hk' hb => ?_
    by_cases heq : k' = i
    · subst heq
      rw [setThread_self] at hk'
      exact hpast hk' P ⟨k, hk, hread⟩ hb
    · rw [setThread_other s r p heq] at hk'
      refine ⟨hk', ?_⟩
      rw [← hb]
      exact (record_base h.ring e.ringEvent heq).symm

/-- The typed ring does not notice a step that leaves its words alone. -/
theorem typed_stay (hs : PeekInv c s h v cells) (ht : r.tail = s.ring.tail)
    (hh : r.head = s.ring.head) (hq : r.seqno = s.ring.seqno)
    (hp : RingThreadOk c h.ring v i p.typed)
    (hholds : ∀ q, p.typed.Holds (h.ring.base i) q ↔
      (s.thread i).typed.Holds (h.ring.base i) q) :
    RingInv c ((s.setThread r i p).typed cells) h.ring v := by
  rw [typed_setThread, ht, hh, hq]
  exact hs.ring.setThread hp hholds

theorem PeekInv.quiet (hs : PeekInv c s h v cells)
    (hp : RingThreadOk c h.ring v i p.typed)
    (hholds : ∀ q, p.typed.Holds (h.ring.base i) q ↔
      (s.thread i).typed.Holds (h.ring.base i) q)
    (hown : QueueThreadOk c (s.setThread s.ring i p) (h.record c.toPow2 i e s.ring) v i p)
    (hpast : p.Past → (s.thread i).Past)
    (hw : p.writes c.toPow2 = (s.thread i).writes c.toPow2)
    (hr : p.reads c.toPow2 = (s.thread i).reads c.toPow2)
    (he : h.ring.record i e.ringEvent = h.ring) (hpopped : ∀ item, e ≠ .popped item)
    (hpeeked : ∀ item, e ≠ .peeked item) :
    PeekInv c (s.setThread s.ring i p) (h.record c.toPow2 i e s.ring) v cells := by
  refine hs.stay ?_ hown rfl (fun hp P _ hb => ⟨hpast hp, ?_⟩)
    (fun j => (hs.guard j).same rfl hw hr) (fun k hk => ?_) hpopped
    (fun item hi => absurd hi (hpeeked item))
  · rw [he]
    exact typed_stay hs rfl rfl rfl hp hholds
  · rw [he] at hb
    exact hb
  · rw [hk] at he
    exact List.cons_ne_self _ _ (congrArg RingHistory.recycled he)

theorem PeekInv.start (hs : PeekInv c s h v cells) {q : QueueThread n}
    (hst : queueStart s i q = some p) (hq : q = .popLoad ∨ q = .peekLoad 0 ∨ ∃ x, q = .pushLoad x)
    (he : e = .ring .none ∨ e = .peekStarted) :
    PeekInv c (s.setThread s.ring i p) (h.record c.toPow2 i e s.ring) v cells := by
  obtain ⟨hidle, hp⟩ := idle_of_start hst
  have hp' : p = .idle ∨ p = .popLoad ∨ p = .peekLoad 0 ∨ ∃ x, p = .pushLoad x := by
    rcases hp with rfl | rfl
    · exact Or.inl rfl
    · exact Or.inr hq
  refine hs.quiet ?_ ?_ ?_ ?_ ?_ ?_ ?_ ?_ ?_
  · rcases hp' with rfl | rfl | rfl | ⟨x, rfl⟩
    · trivial
    · exact ⟨le_rfl, by decide⟩
    · trivial
    · trivial
  · rw [hidle]
    rcases hp' with rfl | rfl | rfl | ⟨x, rfl⟩ <;> exact fun q => Iff.rfl
  · rcases hp' with rfl | rfl | rfl | ⟨x, rfl⟩ <;> trivial
  · rcases hp' with rfl | rfl | rfl | ⟨x, rfl⟩ <;> exact False.elim
  · rw [hidle]
    rcases hp' with rfl | rfl | rfl | ⟨x, rfl⟩ <;> rfl
  · rw [hidle]
    rcases hp' with rfl | rfl | rfl | ⟨x, rfl⟩ <;> rfl
  · rcases he with rfl | rfl <;> rfl
  · rcases he with rfl | rfl <;> exact nofun
  · rcases he with rfl | rfl <;> exact nofun

end step

end Xplatbase.Queue
