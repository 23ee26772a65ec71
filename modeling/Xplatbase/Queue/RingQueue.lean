import Mathlib.Logic.Function.Basic
import Mathlib.Data.Nat.Bitwise

/-! The bounded queue of `ring_queue.c`, each call running alone. A loop that waits for another
thread takes fuel: it ends only when its exit is reached. -/
namespace Xplatbase.Queue

/-- The bytes of one item of `n` bytes. -/
abbrev Item (n : ℕ) := Fin n → UInt8

abbrev Buffer := ℕ → UInt8

/-- `memcpy(buffer + off, item, n)`. -/
def Buffer.store {n : ℕ} (buf : Buffer) (off : ℕ) (item : Item n) : Buffer := fun a =>
  if h : off ≤ a ∧ a < off + n then item ⟨a - off, by omega⟩ else buf a

/-- `memcpy(item, buffer + off, n)`. -/
def Buffer.load (buf : Buffer) (off n : ℕ) : Item n := fun i => buf (off + i)

/-- `seqno` and `peekGuard` are `none` where the source has a null pointer. -/
structure RingQueue where
  tail : BitVec 32
  head : BitVec 32
  capacity : ℕ
  mask : ℕ
  seqno : Option (ℕ → BitVec 32)
  peekGuard : Option (ℕ → ℤ)

/-- `ring_queue_init`; the flags tell whether the two allocations succeed. -/
def ringQueueInit (capacity : ℤ) (seqnoOk guardOk : Bool) : RingQueue :=
  if capacity ≤ 0 ∨ 2 ^ 30 < capacity ∨ capacity.toNat &&& (capacity.toNat - 1) ≠ 0 then
    ⟨0, 0, 0, 0, none, none⟩
  else if seqnoOk && guardOk then
    ⟨0, 0, capacity.toNat, capacity.toNat - 1, some fun i => BitVec.ofNat 32 i, some fun _ => 0⟩
  else ⟨0, 0, 0, 0, none, none⟩

/-- `(int)(i & (uint32_t)r->mask)`. -/
def RingQueue.pos (r : RingQueue) (i : BitVec 32) : ℕ := (i &&& BitVec.ofNat 32 r.mask).toNat

/-- `ring_queue_count`; alone, its two loads of `head` agree. -/
def ringQueueCount (r : RingQueue) : ℕ :=
  if r.capacity ≤ 0 then 0
  else if r.capacity < (r.tail - r.head).toNat then r.capacity
  else (r.tail - r.head).toNat

def ringQueueEmpty (r : RingQueue) : Bool := ringQueueCount r = 0

def ringQueueFull (r : RingQueue) : Bool := r.capacity ≤ 0 ∨ r.capacity ≤ ringQueueCount r

/-- `ring_writer_lock`. -/
def ringWriterLock (guard : ℕ → ℤ) (pos : ℕ) : ℕ → Option (ℕ → ℤ)
  | 0 => none
  | fuel + 1 =>
    if guard pos = 0 then some (Function.update guard pos (-1)) else ringWriterLock guard pos fuel

/-- `ring_reader_lock`; alone, its CAS succeeds. -/
def ringReaderLock (guard : ℕ → ℤ) (pos : ℕ) : Option (ℕ → ℤ) :=
  let readers := guard pos
  if readers < 0 ∨ readers = 2 ^ 31 - 1 then none
  else some (Function.update guard pos (readers + 1))

def ringReaderUnlock (guard : ℕ → ℤ) (pos : ℕ) : ℕ → ℤ :=
  Function.update guard pos (guard pos - 1)

variable {n : ℕ}

def ringQueuePush (fuel : ℕ) (r : RingQueue) (buf : Buffer) (item : Item n) :
    Option (RingQueue × Buffer × Bool) :=
  match r.seqno, r.peekGuard with
  | some seqno, some guard =>
    if n = 0 ∨ ringQueueFull r then some (r, buf, false)
    else
      let t := r.tail
      let pos := r.pos t
      (ringWriterLock guard pos fuel).map fun guard =>
        ({ r with
            peekGuard := some (Function.update guard pos 0)
            seqno := some (Function.update seqno pos (t + 1))
            tail := r.tail + 1 },
          buf.store (pos * n) item, true)
  | _, _ => some (r, buf, false)

def ringQueuePop (r : RingQueue) (buf : Buffer) (n : ℕ) : RingQueue × Option (Item n) :=
  match r.seqno with
  | some seqno =>
    if n = 0 ∨ ringQueueEmpty r then (r, none)
    else
      let h := r.head
      let pos := r.pos h
      ({ r with
          seqno := some (Function.update seqno pos (h + BitVec.ofNat 32 r.capacity))
          head := r.head + 1 },
        some (buf.load (pos * n) n))
  | none => (r, none)

/-- The retries of `ring_queue_peek_`. -/
def ringQueuePeekLoop (r : RingQueue) (buf : Buffer) (n : ℕ) (seqno : ℕ → BitVec 32)
    (guard : ℕ → ℤ) : ℕ → RingQueue × Option (Item n)
  | 0 => ({ r with peekGuard := some guard }, none)
  | retry + 1 =>
    let h := r.head
    let pos := r.pos h
    if seqno pos ≠ h + 1 then ({ r with peekGuard := some guard }, none)
    else
      match ringReaderLock guard pos with
      | none => ringQueuePeekLoop r buf n seqno guard retry
      | some guard =>
        if r.head = h ∧ seqno pos = h + 1 then
          ({ r with peekGuard := some (ringReaderUnlock guard pos) }, some (buf.load (pos * n) n))
        else ringQueuePeekLoop r buf n seqno (ringReaderUnlock guard pos) retry

def ringQueuePeek (r : RingQueue) (buf : Buffer) (n : ℕ) : RingQueue × Option (Item n) :=
  match r.seqno, r.peekGuard with
  | some seqno, some guard =>
    if n = 0 then (r, none) else ringQueuePeekLoop r buf n seqno guard 4
  | _, _ => (r, none)

/-- The loop of `ring_queue_push_mp_`: the position won on `tail`, or `none` when full. -/
def ringQueuePushMpLoop (r : RingQueue) (seqno : ℕ → BitVec 32) :
    ℕ → Option (RingQueue × Option (BitVec 32))
  | 0 => none
  | fuel + 1 =>
    let t := r.tail
    let diff := seqno (r.pos t) - t
    if diff = 0 then
      if r.tail = t then some ({ r with tail := t + 1 }, some t)
      else ringQueuePushMpLoop r seqno fuel
    else if diff.msb then some (r, none)
    else ringQueuePushMpLoop r seqno fuel

def ringQueuePushMp (fuel : ℕ) (r : RingQueue) (buf : Buffer) (item : Item n) :
    Option (RingQueue × Buffer × Bool) :=
  match r.seqno, r.peekGuard with
  | some seqno, some guard =>
    if n = 0 then some (r, buf, false)
    else
      (ringQueuePushMpLoop r seqno fuel).bind fun (r, won) =>
        match won with
        | none => some (r, buf, false)
        | some t =>
          let pos := r.pos t
          (ringWriterLock guard pos fuel).map fun guard =>
            ({ r with
                peekGuard := some (Function.update guard pos 0)
                seqno := some (Function.update seqno pos (t + 1)) },
              buf.store (pos * n) item, true)
  | _, _ => some (r, buf, false)

/-- The loop of `ring_queue_pop_mc_`: the position won on `head`, or `none` when empty. -/
def ringQueuePopMcLoop (r : RingQueue) (seqno : ℕ → BitVec 32) :
    ℕ → Option (RingQueue × Option (BitVec 32))
  | 0 => none
  | fuel + 1 =>
    let h := r.head
    let diff := seqno (r.pos h) - (h + 1)
    if diff = 0 then
      if r.head = h then some ({ r with head := h + 1 }, some h)
      else ringQueuePopMcLoop r seqno fuel
    else if diff.msb then some (r, none)
    else ringQueuePopMcLoop r seqno fuel

def ringQueuePopMc (fuel : ℕ) (r : RingQueue) (buf : Buffer) (n : ℕ) :
    Option (RingQueue × Option (Item n)) :=
  match r.seqno with
  | some seqno =>
    if n = 0 then some (r, none)
    else
      (ringQueuePopMcLoop r seqno fuel).map fun (r, won) =>
        match won with
        | none => (r, none)
        | some h =>
          let pos := r.pos h
          ({ r with
              seqno := some (Function.update seqno pos (h + BitVec.ofNat 32 r.capacity)) },
            some (buf.load (pos * n) n))
  | none => some (r, none)

end Xplatbase.Queue
