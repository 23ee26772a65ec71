import Xplatbase.Lib.System
import Xplatbase.Lib.Pow2
import Mathlib.Logic.Function.Basic

/-! The bounded Chase-Lev deque of a worker: `pool_deque_push`, `pool_deque_take` and
`pool_deque_steal`, one atomic load, store or CAS per step. A slot is two atomics, so a
thief may read one half before and one half after the owner rewrites it. -/
namespace Xplatbase.ThreadPool
open Xplatbase.Lib

structure PoolTask (F A : Type*) where
  fn : F
  arg : A

structure PoolDeque (F A : Type*) where
  top : ℕ
  bottom : ℕ
  buf : ℕ → PoolTask F A

/-- Where the owner stands: the next access of `pool_deque_push` or `pool_deque_take`,
with the local variables that are still needed. -/
inductive DequeOwner (F A : Type*)
  | idle
  | pushTop (t : PoolTask F A) (b : ℕ)
  | pushFn (t : PoolTask F A) (b : ℕ)
  | pushArg (t : PoolTask F A) (b : ℕ)
  | pushBottom (t : PoolTask F A) (b : ℕ)
  | takeTest (b : ℕ)
  | takeReserve (b : ℕ)
  | takeTop (b : ℕ)
  | takeFn (b t : ℕ)
  | takeArg (b t : ℕ) (fn : F)
  | takeCas (b : ℕ) (out : PoolTask F A)
  | takeRestore (b : ℕ) (out : Option (PoolTask F A))

/-- Where a thief stands inside `pool_deque_steal`. -/
inductive DequeThief (F A : Type*)
  | idle
  | loadBottom (t : ℕ)
  | readFn (t : ℕ)
  | readArg (t : ℕ) (fn : F)
  | cas (t : ℕ) (x : PoolTask F A)

structure DequeState (ι F A : Type*) where
  deque : PoolDeque F A
  owner : DequeOwner F A
  thief : ι → DequeThief F A

inductive DequeLabel (ι F A : Type*)
  | push (t : PoolTask F A)
  | take
  | owner
  | steal (i : ι)
  | thief (i : ι)

/-- What a step returns to its caller; `none` inside a call. -/
inductive DequeEvent (F A : Type*)
  | none
  | pushed (b : ℕ) (t : PoolTask F A)
  | pushFull
  | took (b : ℕ) (t : PoolTask F A)
  | takeEmpty
  | stole (i : ℕ) (t : PoolTask F A)
  | stealFailed

variable {ι F A : Type*}

def PoolDeque.setFn (d : PoolDeque F A) (i : ℕ) (fn : F) : PoolDeque F A :=
  { d with buf := Function.update d.buf i { d.buf i with fn } }

def PoolDeque.setArg (d : PoolDeque F A) (i : ℕ) (arg : A) : PoolDeque F A :=
  { d with buf := Function.update d.buf i { d.buf i with arg } }

/-- `pool_deque_push` and `pool_deque_take` after their first load. -/
def dequeOwnerStep (cap : Pow2) (d : PoolDeque F A) :
    DequeOwner F A → Option (PoolDeque F A × DequeOwner F A × DequeEvent F A)
  | .idle => none
  | .pushTop t b =>
    if d.top + cap.size ≤ b then some (d, .idle, .pushFull) else some (d, .pushFn t b, .none)
  | .pushFn t b => some (d.setFn (b &&& cap.mask) t.fn, .pushArg t b, .none)
  | .pushArg t b => some (d.setArg (b &&& cap.mask) t.arg, .pushBottom t b, .none)
  | .pushBottom t b => some ({ d with bottom := b + 1 }, .idle, .pushed b t)
  | .takeTest b =>
    -- fast path for an empty deque: no store, no fence
    if b ≤ d.top then some (d, .idle, .takeEmpty) else some (d, .takeReserve (b - 1), .none)
  | .takeReserve b => some ({ d with bottom := b }, .takeTop b, .none)
  | .takeTop b =>
    if d.top ≤ b then some (d, .takeFn b d.top, .none) else some (d, .takeRestore b none, .none)
  | .takeFn b t => some (d, .takeArg b t (d.buf (b &&& cap.mask)).fn, .none)
  | .takeArg b t fn =>
    let out : PoolTask F A := ⟨fn, (d.buf (b &&& cap.mask)).arg⟩
    if t = b then some (d, .takeCas b out, .none) else some (d, .idle, .took b out)
  | .takeCas b out =>
    if d.top = b then some ({ d with top := b + 1 }, .takeRestore b (some out), .none)
    else some (d, .takeRestore b none, .none)
  | .takeRestore b out =>
    some ({ d with bottom := b + 1 }, .idle, match out with
      | some t => .took b t
      | none => .takeEmpty)

/-- `pool_deque_steal` after its first load. -/
def dequeThiefStep (cap : Pow2) (d : PoolDeque F A) :
    DequeThief F A → Option (PoolDeque F A × DequeThief F A × DequeEvent F A)
  | .idle => none
  | .loadBottom t =>
    if t < d.bottom then some (d, .readFn t, .none) else some (d, .idle, .stealFailed)
  | .readFn t => some (d, .readArg t (d.buf (t &&& cap.mask)).fn, .none)
  | .readArg t fn => some (d, .cas t ⟨fn, (d.buf (t &&& cap.mask)).arg⟩, .none)
  | .cas t x =>
    if d.top = t then some ({ d with top := t + 1 }, .idle, .stole t x)
    else some (d, .idle, .stealFailed)

def dequeStep [DecidableEq ι] (cap : Pow2) (s : DequeState ι F A) :
    DequeLabel ι F A → Option (DequeState ι F A × DequeEvent F A)
  | .push t =>
    match s.owner with
    | .idle => some ({ s with owner := .pushTop t s.deque.bottom }, .none)
    | _ => none
  | .take =>
    match s.owner with
    | .idle => some ({ s with owner := .takeTest s.deque.bottom }, .none)
    | _ => none
  | .owner =>
    (dequeOwnerStep cap s.deque s.owner).map fun (d, o, e) => ({ s with deque := d, owner := o }, e)
  | .steal i =>
    match s.thief i with
    | .idle =>
      some ({ s with thief := Function.update s.thief i (.loadBottom s.deque.top) }, .none)
    | _ => none
  | .thief i =>
    (dequeThiefStep cap s.deque (s.thief i)).map fun (d, p, e) =>
      ({ s with deque := d, thief := Function.update s.thief i p }, e)

/-- What the callers have seen. Pushes are numbered in order; `pushOf i` is the number of the
last push at index `i`, so a value returned from index `i` is the value of push `pushOf i`.
`returned` and `stolen` hold these numbers, newest first. -/
structure DequeHistory (F A : Type*) where
  pushed : List (PoolTask F A)
  pushOf : ℕ → ℕ
  returned : List (ℕ × PoolTask F A)
  stolen : List ℕ

def DequeHistory.record (h : DequeHistory F A) : DequeEvent F A → DequeHistory F A
  | .pushed b t =>
    { h with pushed := h.pushed ++ [t], pushOf := Function.update h.pushOf b h.pushed.length }
  | .took b t => { h with returned := (h.pushOf b, t) :: h.returned }
  | .stole i t =>
    { h with returned := (h.pushOf i, t) :: h.returned, stolen := h.pushOf i :: h.stolen }
  | _ => h

/-- `pool_deque_init`: both indices 0; the slots hold whatever the allocation held. -/
def poolDequeInit (buf : ℕ → PoolTask F A) : DequeState ι F A × DequeHistory F A :=
  (⟨⟨0, 0, buf⟩, .idle, fun _ => .idle⟩, ⟨[], fun _ => 0, [], []⟩)

def dequeSystem [DecidableEq ι] (cap : Pow2) :
    System (DequeState ι F A × DequeHistory F A) (DequeLabel ι F A) where
  init := fun p => ∃ buf, p = poolDequeInit buf
  step := fun (s, h) l => (dequeStep cap s l).map fun (s', e) => (s', h.record e)

end Xplatbase.ThreadPool
