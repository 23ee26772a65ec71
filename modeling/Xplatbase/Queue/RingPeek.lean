import Xplatbase.Queue.RingQueue
import Xplatbase.ThreadPool.Ring

/-! The ring queue between threads: `ring_queue_push_mp_`, `ring_queue_pop_mc_` and
`ring_queue_peek_`, one atomic access or one byte of a `memcpy` per step. -/
namespace Xplatbase.Queue
open Xplatbase.Lib Xplatbase.ThreadPool

structure RingShared where
  tail : BitVec 32
  head : BitVec 32
  seqno : ℕ → BitVec 32
  peekGuard : ℕ → ℤ
  buf : Buffer

/-- Where a thread stands: the next access of the call it is in. `t` and `h` are the positions it
loaded, `k` counts the bytes already copied and `retry` the rounds of a peek. -/
inductive QueueThread (n : ℕ)
  | idle
  | pushLoad (x : Item n)
  | pushSeq (x : Item n) (t : BitVec 32)
  | pushCas (x : Item n) (t : BitVec 32)
  | writerLock (x : Item n) (t : BitVec 32)
  | pushCopy (x : Item n) (t : BitVec 32) (k : ℕ)
  | writerUnlock (x : Item n) (t : BitVec 32)
  | pushPublish (x : Item n) (t : BitVec 32)
  | popLoad
  | popSeq (h : BitVec 32)
  | popCas (h : BitVec 32)
  | popCopy (h : BitVec 32) (k : ℕ) (item : Item n)
  | popRecycle (h : BitVec 32) (item : Item n)
  | peekLoad (retry : ℕ)
  | peekSeq (retry : ℕ) (h : BitVec 32)
  | readerGet (retry : ℕ) (h : BitVec 32)
  | readerCas (retry : ℕ) (h : BitVec 32) (readers : ℤ)
  | peekHead (retry : ℕ) (h : BitVec 32)
  | peekCheck (retry : ℕ) (h : BitVec 32)
  | peekCopy (h : BitVec 32) (k : ℕ) (item : Item n)
  | readerUnlock (h : BitVec 32) (item : Item n)
  | peekRelease (retry : ℕ) (h : BitVec 32)

inductive QueueLabel (ι : Type*) (n : ℕ)
  | push (i : ι) (x : Item n)
  | pop (i : ι)
  | peek (i : ι)
  | run (i : ι)

inductive QueueEvent (n : ℕ)
  | ring (e : RingEvent (Item n))
  | popped (item : Item n)
  | peekStarted
  | peeked (item : Item n)

structure QueueState (ι : Type*) (n : ℕ) where
  ring : RingShared
  thread : ι → QueueThread n

variable {ι : Type*} {n : ℕ}

/-- Thread `i` makes a step to `p` that leaves `r`. -/
def QueueState.setThread [DecidableEq ι] (s : QueueState ι n) (r : RingShared) (i : ι)
    (p : QueueThread n) : QueueState ι n :=
  ⟨r, Function.update s.thread i p⟩

@[simp] theorem setThread_self [DecidableEq ι] (s : QueueState ι n) (r : RingShared) (i : ι)
    (p : QueueThread n) :
    (s.setThread r i p).thread i = p := by
  simp [QueueState.setThread]

theorem setThread_other [DecidableEq ι] (s : QueueState ι n) (r : RingShared) {i k : ι}
    (p : QueueThread n) (hk : k ≠ i) :
    (s.setThread r i p).thread k = s.thread k := by
  simp [QueueState.setThread, hk]

/-- One byte of `memcpy(item, buffer + off, n)`. -/
def Item.setByte (item : Item n) (k : ℕ) (b : UInt8) : Item n := fun j =>
  if j.val = k then b else item j

def RingShared.readerUnlock (r : RingShared) (pos : ℕ) : RingShared :=
  { r with peekGuard := Function.update r.peekGuard pos (r.peekGuard pos - 1) }

def peekRetry (retry : ℕ) : QueueThread n :=
  if retry + 1 < 4 then .peekLoad (retry + 1) else .idle

/-- `ring_reader_lock` once it knows the count. -/
def readerTry (retry : ℕ) (h : BitVec 32) (readers : ℤ) : QueueThread n :=
  if readers < 0 ∨ readers = 2 ^ 31 - 1 then peekRetry retry else .readerCas retry h readers

/-- The steps of `ring_queue_push_mp_`, with `ring_writer_lock` and `ring_writer_unlock`. -/
def pushStep (c : Pow2) (r : RingShared) :
    QueueThread n → Option (RingShared × QueueThread n × QueueEvent n)
  | .pushLoad x => some (r, .pushSeq x r.tail, .ring .loaded)
  | .pushSeq x t =>
    let diff := r.seqno (c.cell t) - t
    if diff = 0 then some (r, .pushCas x t, .ring .none)
    else if diff.msb then some (r, .idle, .ring .pushFull)
    else some (r, .pushLoad x, .ring .none)
  | .pushCas x t =>
    if r.tail = t then some ({ r with tail := t + 1 }, .writerLock x t, .ring (.pushClaimed x))
    else some (r, .pushLoad x, .ring .none)
  | .writerLock x t =>
    if r.peekGuard (c.cell t) = 0 then
      some ({ r with peekGuard := Function.update r.peekGuard (c.cell t) (-1) },
        .pushCopy x t 0, .ring .none)
    else some (r, .writerLock x t, .ring .none)
  | .pushCopy x t k =>
    if hk : k < n then
      some ({ r with buf := Function.update r.buf (c.cell t * n + k) (x ⟨k, hk⟩) },
        if k + 1 < n then .pushCopy x t (k + 1) else .writerUnlock x t,
        .ring (if k + 1 < n then .none else .filled))
    else none
  | .writerUnlock x t =>
    some ({ r with peekGuard := Function.update r.peekGuard (c.cell t) 0 },
      .pushPublish x t, .ring .none)
  | .pushPublish _ t =>
    some ({ r with seqno := Function.update r.seqno (c.cell t) (t + 1) }, .idle, .ring .pushed)
  | _ => none

/-- The steps of `ring_queue_pop_mc_`. -/
def popStep (c : Pow2) (r : RingShared) :
    QueueThread n → Option (RingShared × QueueThread n × QueueEvent n)
  | .popLoad => some (r, .popSeq r.head, .ring .loaded)
  | .popSeq h =>
    let diff := r.seqno (c.cell h) - (h + 1)
    if diff = 0 then some (r, .popCas h, .ring .none)
    else if diff.msb then some (r, .idle, .ring .popEmpty)
    else some (r, .popLoad, .ring .none)
  | .popCas h =>
    if r.head = h then
      some ({ r with head := h + 1 }, .popCopy h 0 (fun _ => 0), .ring (.popClaimed 1))
    else some (r, .popLoad, .ring .none)
  | .popCopy h k item =>
    if k < n then
      let item := item.setByte k (r.buf (c.cell h * n + k))
      some (r, if k + 1 < n then .popCopy h (k + 1) item else .popRecycle h item,
        .ring (if k + 1 < n then .none else .copied 0 item))
    else none
  | .popRecycle h item =>
    some ({ r with seqno := Function.update r.seqno (c.cell h) (h + BitVec.ofNat 32 c.size) },
      .idle, .popped item)
  | _ => none

/-- The steps of `ring_queue_peek_`, with `ring_reader_lock` and `ring_reader_unlock`. -/
def peekStep (c : Pow2) (r : RingShared) :
    QueueThread n → Option (RingShared × QueueThread n × QueueEvent n)
  | .peekLoad retry => some (r, .peekSeq retry r.head, .ring .none)
  | .peekSeq retry h =>
    if r.seqno (c.cell h) ≠ h + 1 then some (r, .idle, .ring .none)
    else some (r, .readerGet retry h, .ring .none)
  | .readerGet retry h => some (r, readerTry retry h (r.peekGuard (c.cell h)), .ring .none)
  | .readerCas retry h readers =>
    if r.peekGuard (c.cell h) = readers then
      some ({ r with peekGuard := Function.update r.peekGuard (c.cell h) (readers + 1) },
        .peekHead retry h, .ring .none)
    else some (r, readerTry retry h (r.peekGuard (c.cell h)), .ring .none)
  | .peekHead retry h =>
    some (r, if r.head = h then .peekCheck retry h else .peekRelease retry h, .ring .none)
  | .peekCheck retry h =>
    some (r, if r.seqno (c.cell h) = h + 1 then .peekCopy h 0 (fun _ => 0)
      else .peekRelease retry h, .ring .none)
  | .peekCopy h k item =>
    if k < n then
      let item := item.setByte k (r.buf (c.cell h * n + k))
      some (r, if k + 1 < n then .peekCopy h (k + 1) item else .readerUnlock h item, .ring .none)
    else none
  | .readerUnlock h item =>
    some (r.readerUnlock (c.cell h), .idle, .peeked item)
  | .peekRelease retry h =>
    some (r.readerUnlock (c.cell h), peekRetry retry, .ring .none)
  | _ => none

def queueStep (c : Pow2) (r : RingShared) (p : QueueThread n) :
    Option (RingShared × QueueThread n × QueueEvent n) :=
  (pushStep c r p).or ((popStep c r p).or (peekStep c r p))

/-- What the threads have done. `ring` numbers the items in the order in which their positions
were won on `tail`. `popped` and `peeked` list what the calls returned: a pop with the number of
its position, a peek with the numbers of the items that were at the front during the call, as
`fronts` collects them. -/
structure QueueHistory (ι : Type*) (n : ℕ) where
  ring : RingHistory ι (Item n)
  popped : List (ℕ × Item n)
  fronts : ι → List ℕ
  peeked : List (Item n × List ℕ)

/-- The front is the oldest item not popped, once it is published. -/
def RingShared.front (c : Pow2) (r : RingShared) (taken : ℕ) : List ℕ :=
  if r.seqno (c.cell r.head) = r.head + 1 then [taken] else []

def QueueEvent.ringEvent : QueueEvent n → RingEvent (Item n)
  | .ring e => e
  | .popped _ => .recycled 0
  | .peekStarted | .peeked _ => .none

/-- The record of thread `i`'s step, which leads to `r`. -/
def QueueHistory.record [DecidableEq ι] (c : Pow2) (h : QueueHistory ι n) (i : ι)
    (e : QueueEvent n) (r : RingShared) : QueueHistory ι n :=
  let ring := h.ring.record i e.ringEvent
  let front := r.front c ring.taken
  { ring
    popped := match e with
      | .popped item => (h.ring.base i, item) :: h.popped
      | _ => h.popped
    fronts := fun j => match e with
      | .peekStarted => if j = i then front else front ++ h.fronts j
      | _ => front ++ h.fronts j
    peeked := match e with
      | .peeked item => (item, h.fronts i) :: h.peeked
      | _ => h.peeked }

/-- A call starts at an idle thread; with items of no bytes it returns false at once. -/
def queueStart (s : QueueState ι n) (i : ι) (p : QueueThread n) : Option (QueueThread n) :=
  match s.thread i with
  | .idle => some (if n = 0 then .idle else p)
  | _ => none

def queueStepAt [DecidableEq ι] (c : Pow2) (s : QueueState ι n) :
    QueueLabel ι n → Option (ι × QueueState ι n × QueueEvent n)
  | .push i x => (queueStart s i (.pushLoad x)).map fun p =>
    (i, s.setThread s.ring i p, .ring .none)
  | .pop i => (queueStart s i .popLoad).map fun p =>
    (i, s.setThread s.ring i p, .ring .none)
  | .peek i => (queueStart s i (.peekLoad 0)).map fun p =>
    (i, s.setThread s.ring i p, .peekStarted)
  | .run i => (queueStep c s.ring (s.thread i)).map fun (r, p, e) =>
    (i, s.setThread r i p, e)

/-- `ring_queue_init`, over a buffer that holds anything. -/
def queueInit (buf : Buffer) : QueueState ι n × QueueHistory ι n :=
  (⟨⟨0, 0, fun i => BitVec.ofNat 32 i, fun _ => 0, buf⟩, fun _ => .idle⟩,
    ⟨⟨[], 0, [], [], [], [], fun _ => 0, 0, fun _ => 0⟩, [], fun _ => [], []⟩)

def queueSystem [DecidableEq ι] (c : Pow2) :
    System (QueueState ι n × QueueHistory ι n) (QueueLabel ι n) where
  init := fun p => ∃ buf, p = queueInit buf
  step := fun (s, h) l => (queueStepAt c s l).map fun (i, s', e) => (s', h.record c i e s'.ring)

/-- The next access of the thread is a CAS on `tail` or `head`. -/
def QueueThread.comparing : QueueThread n → Bool
  | .pushCas _ _ | .popCas _ => true
  | _ => false

/-- Fewer than 2^31 calls have won their CAS since the load that this CAS compares with. -/
def RecentRead (p : QueueState ι n × QueueHistory ι n) : QueueLabel ι n → Prop
  | .run i => (p.1.thread i).comparing = true → p.2.ring.ops - p.2.ring.loadedAt i < 2 ^ 31
  | _ => True

instance (p : QueueState ι n × QueueHistory ι n) :
    (l : QueueLabel ι n) → Decidable (RecentRead p l)
  | .run i => inferInstanceAs (Decidable ((p.1.thread i).comparing = true → _))
  | .push _ _ | .pop _ | .peek _ => .isTrue trivial

def QueueThread.writes (c : Pow2) : QueueThread n → Option ℕ
  | .pushCopy _ t _ | .writerUnlock _ t => some (c.cell t)
  | _ => none

def QueueThread.reads (c : Pow2) : QueueThread n → Option ℕ
  | .peekHead _ h | .peekCheck _ h | .peekCopy h _ _ | .readerUnlock h _ | .peekRelease _ h =>
    some (c.cell h)
  | _ => none

end Xplatbase.Queue
