import Xplatbase.Lib.AtomicObject
import Xplatbase.Queue.RingPeek

/-! The ring queue between one producer and one consumer, each with its own plain calls:
`ring_queue_push_` and `ring_queue_pop_`, with the `ring_queue_count` that they begin with, one
atomic access or one byte of a `memcpy` per step. Any number of threads peek meanwhile. -/
namespace Xplatbase.Queue
open Xplatbase.Lib

/-- A capacity that `ring_queue_init` accepts. -/
structure QueueCap extends Pow2 where
  le_thirty : exp ≤ 30

/-- Where `ring_queue_count` stands: `h` and `t` are what it loaded, `retry` counts its rounds. -/
inductive CountPc
  | head (retry : ℕ)
  | tail (retry : ℕ) (h : BitVec 32)
  | headAgain (retry : ℕ) (h t : BitVec 32)
  /-- Behind the rounds: it takes what it gets. -/
  | lastHead
  | lastTail (h : BitVec 32)

/-- Where `ring_queue_push_` stands; `k` counts the bytes already copied. -/
inductive ProducerPc (n : ℕ)
  | idle
  | check (x : Item n)
  | count (x : Item n) (p : CountPc)
  | loadTail (x : Item n)
  | writerLock (x : Item n) (t : BitVec 32)
  | copy (x : Item n) (t : BitVec 32) (k : ℕ)
  | writerUnlock (x : Item n) (t : BitVec 32)
  | publish (x : Item n) (t : BitVec 32)
  | advance (x : Item n)
  | returns (ok : Bool)

/-- Where `ring_queue_pop_` stands. -/
inductive ConsumerPc (n : ℕ)
  | idle
  | check
  | count (p : CountPc)
  | loadHead
  | copy (h : BitVec 32) (k : ℕ) (item : Item n)
  | recycle (h : BitVec 32) (item : Item n)
  | advance (item : Item n)
  | returns (item : Option (Item n))

structure SpscState (ι : Type*) (n : ℕ) where
  ring : RingShared
  producer : ProducerPc n
  consumer : ConsumerPc n
  peekers : ι → QueueThread n

inductive SpscLabel (ι : Type*) (n : ℕ)
  | push (x : Item n)
  | pop
  | peek (i : ι)
  | producer
  | consumer
  | peeker (i : ι)

inductive QueueParty
  | producer
  | consumer
  deriving DecidableEq

variable {ι : Type*} {n : ℕ}

def clampCount (c : Pow2) (count : BitVec 32) : ℕ :=
  if c.size < count.toNat then c.size else count.toNat

/-- A step of `ring_queue_count`, the last of which returns the count. -/
def countStep (c : Pow2) (r : RingShared) : CountPc → CountPc ⊕ ℕ
  | .head retry => .inl (.tail retry r.head)
  | .tail retry h => .inl (.headAgain retry h r.tail)
  | .headAgain retry h t =>
    if h = r.head then .inr (clampCount c (t - h))
    else .inl (if retry + 1 < 4 then .head (retry + 1) else .lastHead)
  | .lastHead => .inl (.lastTail r.head)
  | .lastTail h => .inr (clampCount c (r.tail - h))

/-- A step of `ring_queue_push_`. -/
def producerStep (c : Pow2) (r : RingShared) : ProducerPc n → Option (RingShared × ProducerPc n)
  | .check x => some (r, if n = 0 then .returns false else .count x (.head 0))
  | .count x p =>
    match countStep c r p with
    | .inl p => some (r, .count x p)
    | .inr count => some (r, if c.size ≤ count then .returns false else .loadTail x)
  | .loadTail x => some (r, .writerLock x r.tail)
  | .writerLock x t =>
    if r.peekGuard (c.cell t) = 0 then
      some ({ r with peekGuard := Function.update r.peekGuard (c.cell t) (-1) }, .copy x t 0)
    else some (r, .writerLock x t)
  | .copy x t k =>
    if hk : k < n then
      some ({ r with buf := Function.update r.buf (c.cell t * n + k) (x ⟨k, hk⟩) },
        if k + 1 < n then .copy x t (k + 1) else .writerUnlock x t)
    else none
  | .writerUnlock x t =>
    some ({ r with peekGuard := Function.update r.peekGuard (c.cell t) 0 }, .publish x t)
  | .publish x t =>
    some ({ r with seqno := Function.update r.seqno (c.cell t) (t + 1) }, .advance x)
  | .advance _ => some ({ r with tail := r.tail + 1 }, .returns true)
  | .returns _ => some (r, .idle)
  | .idle => none

/-- A step of `ring_queue_pop_`. -/
def consumerStep (c : Pow2) (r : RingShared) : ConsumerPc n → Option (RingShared × ConsumerPc n)
  | .check => some (r, if n = 0 then .returns none else .count (.head 0))
  | .count p =>
    match countStep c r p with
    | .inl p => some (r, .count p)
    | .inr count => some (r, if count = 0 then .returns none else .loadHead)
  | .loadHead => some (r, .copy r.head 0 fun _ => 0)
  | .copy h k item =>
    if k < n then
      let item := item.setByte k (r.buf (c.cell h * n + k))
      some (r, if k + 1 < n then .copy h (k + 1) item else .recycle h item)
    else none
  | .recycle h item =>
    some ({ r with seqno := Function.update r.seqno (c.cell h) (h + BitVec.ofNat 32 c.size) },
      .advance item)
  | .advance item => some ({ r with head := r.head + 1 }, .returns (some item))
  | .returns _ => some (r, .idle)
  | .idle => none

def spscStep [DecidableEq ι] (c : Pow2) (s : SpscState ι n) :
    SpscLabel ι n → Option (SpscState ι n)
  | .push x =>
    match s.producer with
    | .idle => some { s with producer := .check x }
    | _ => none
  | .pop =>
    match s.consumer with
    | .idle => some { s with consumer := .check }
    | _ => none
  | .peek i =>
    match s.peekers i with
    | .idle =>
      some { s with
        peekers := Function.update s.peekers i (if n = 0 then .idle else .peekLoad 0) }
    | _ => none
  | .producer =>
    (producerStep c s.ring s.producer).map fun (r, p) => { s with ring := r, producer := p }
  | .consumer =>
    (consumerStep c s.ring s.consumer).map fun (r, p) => { s with ring := r, consumer := p }
  | .peeker i =>
    (peekStep c s.ring (s.peekers i)).map fun (r, p, _) =>
      { s with ring := r, peekers := Function.update s.peekers i p }

/-- `ring_queue_init`, over a buffer that holds anything. -/
def spscNew (ι : Type*) (n : ℕ) (buf : Buffer) : SpscState ι n :=
  ⟨⟨0, 0, fun i => BitVec.ofNat 32 i, fun _ => 0, buf⟩, .idle, .idle, fun _ => .idle⟩

def spscSystem [DecidableEq ι] (c : Pow2) : System (SpscState ι n) (SpscLabel ι n) where
  init := fun s => ∃ buf, s = spscNew ι n buf
  step := spscStep c

/-! ### What the calls come to -/

/-- The push in progress. A queue found full was so when `ring_queue_count` loaded the head. -/
def ProducerPc.phase (c : Pow2) (r : RingShared) :
    ProducerPc n → CallPhase (QueueOp (Item n)) (QueueAnswer (Item n))
  | .idle => .idle
  | .count x (.lastTail h) =>
    if c.size ≤ clampCount c (r.tail - h) then .answered .full else .called (.push x)
  | .check x | .count x _ | .loadTail x | .writerLock x _ | .copy x _ _ | .writerUnlock x _
  | .publish x _ | .advance x => .called (.push x)
  | .returns ok => .answered (if ok then .pushed else .full)

/-- The pop in progress. A queue found empty was so when `ring_queue_count` loaded the tail. -/
def ConsumerPc.phase : ConsumerPc n → CallPhase (QueueOp (Item n)) (QueueAnswer (Item n))
  | .idle => .idle
  | .count (.headAgain _ h t) => if t = h then .answered .empty else .called .pop
  | .check | .count _ | .loadHead | .copy _ _ _ | .recycle _ _ | .advance _ => .called .pop
  | .returns item => .answered (item.elim .empty .popped)

def SpscState.phase (c : Pow2) (s : SpscState ι n) :
    QueueParty → CallPhase (QueueOp (Item n)) (QueueAnswer (Item n))
  | .producer => s.producer.phase c s.ring
  | .consumer => s.consumer.phase

/-- What may be seen of a step: the calls, their returns, and where they take effect. -/
def SpscState.event (c : Pow2) (s : SpscState ι n) : SpscLabel ι n → SpscState ι n →
    Option (CallEvent QueueParty (QueueOp (Item n)) (QueueAnswer (Item n)))
  | .push _, t | .producer, t => (s.phase c .producer).event .producer (t.phase c .producer)
  | .pop, t | .consumer, t => (s.phase c .consumer).event .consumer (t.phase c .consumer)
  | .peek _, _ | .peeker _, _ => none

def room (c : Pow2) (n : ℕ) : ℕ := if n = 0 then 0 else c.size

end Xplatbase.Queue
