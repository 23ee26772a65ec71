import Xplatbase.Lib.System
import Xplatbase.Threads.ThreadList

/-! Model of `thread_create`, `thread_join`, `thread_enum` and `tfun` of `thread_handler.c`. What a
thread does between taking and releasing `ThreadsLock` is one step, except the enumeration, which
holds the lock while its callback runs. -/
namespace Xplatbase.Threads
open Xplatbase.Lib

/-- What is under way for the memory of a `Thread`: the `thread_create` that makes it, or the
`thread_join` that waits for it. -/
inductive OwnerPc (η : Type*)
  /-- Not allocated. -/
  | free
  /-- In `thread_create`, before `thread_handler_init_once`. -/
  | initing
  /-- Before `add_list`. -/
  | adding
  /-- Before `CreateThread`. -/
  | creating
  /-- `CreateThread` returned, `thr->Thr` not yet written. -/
  | storing (Thr : Option η)
  /-- Before the `remove_list` of a creation that failed. -/
  | removing
  /-- Before the `free` of a creation that failed. -/
  | freeing
  /-- Before the return of the `Thread`. -/
  | returning
  /-- `thread_create` has returned it, and no `thread_join` has taken it. -/
  | returned
  /-- In `thread_join`, waiting for the thread to end. -/
  | waiting
  /-- In `thread_join`, before `free`. -/
  | joining
  deriving DecidableEq

/-- Where the created thread stands in `tfun`. -/
inductive BodyPc
  /-- Not created, or gone. -/
  | absent
  /-- Before the callbacks are read. -/
  | entering
  /-- Before the return of its function. -/
  | running
  /-- Before `remove_list`. -/
  | ending
  | exited
  deriving DecidableEq

/-- `handle` is what the OS gave for the thread; the code knows it only through `Thr`. -/
structure ThreadRec (η : Type*) where
  Thr : Option η
  Joined : Bool
  owner : OwnerPc η
  body : BodyPc
  handle : Option η

/-- Where a thread stands in `thread_enum`; `passed` are the threads given to the callback. -/
inductive EnumPc (ι : Type*)
  | idle
  /-- Before `thread_handler_init_once`. -/
  | initing
  /-- Before `thread_lock`. -/
  | locking
  /-- At the test `i < Threads.Count`. -/
  | enumerating (i : ℕ) (passed : List ι)
  /-- In the callback, on entry `i`. -/
  | calling (i : ℕ) (thr : ι) (passed : List ι)
  /-- After `thread_unlock`. -/
  | unlocked (passed : List ι)
  deriving DecidableEq

/-- `due k thr` records that `thread_create` had returned `thr` when the enumeration of `k` began,
and that the thread's function has not returned since. -/
structure RegistryState (ι κ η : Type*) where
  threads : ThreadList ι
  inited : Bool
  lock : Option κ
  recs : ι → ThreadRec η
  calls : κ → EnumPc ι
  due : κ → ι → Bool

inductive RegistryLabel (ι κ η : Type*)
  /-- `malloc` gives the memory of `thr` to a `thread_create`. -/
  | create (thr : ι)
  /-- The next step of the call that owns `thr`; `created` is the answer of `CreateThread`. -/
  | owner (thr : ι) (created : Option η)
  | join (thr : ι)
  | body (thr : ι)
  | enumerate (k : κ)
  | next (k : κ)
  deriving DecidableEq

variable {ι κ η : Type*} [DecidableEq ι] [DecidableEq κ]

def RegistryState.setRec (s : RegistryState ι κ η) (thr : ι) (r : ThreadRec η) :
    RegistryState ι κ η :=
  { s with recs := Function.update s.recs thr r }

def RegistryState.setCall (s : RegistryState ι κ η) (k : κ) (pc : EnumPc ι) :
    RegistryState ι κ η :=
  { s with calls := Function.update s.calls k pc }

/-- `thread_handler_init_once`. -/
def RegistryState.initOnce (s : RegistryState ι κ η) : RegistryState ι κ η :=
  if s.inited then s else { s with threads := createList, inited := true }

/-- The calls of `thread_create` and `thread_join`. -/
def ownerStep (s : RegistryState ι κ η) (thr : ι) (created : Option η) :
    Option (RegistryState ι κ η) :=
  let r := s.recs thr
  match r.owner with
  | .free => none
  | .initing =>
    if s.lock = none then some (s.initOnce.setRec thr { r with owner := .adding }) else none
  | .adding =>
    if s.lock = none then
      some ({ s with threads := addList s.threads thr }.setRec thr { r with owner := .creating })
    else none
  | .creating =>
    match created with
    | none => some (s.setRec thr { r with owner := .storing none })
    | some h =>
      some (s.setRec thr { r with owner := .storing (some h), body := .entering, handle := some h })
  | .storing Thr =>
    some (s.setRec thr { r with Thr := Thr, owner := if Thr = none then .removing else .returning })
  | .removing =>
    if s.lock = none then
      some ({ s with threads := removeList s.threads thr }.setRec thr { r with owner := .freeing })
    else none
  | .freeing => some (s.setRec thr { r with owner := .free })
  | .returning => some (s.setRec thr { r with owner := .returned })
  | .returned => none
  | .waiting =>
    if r.body = .exited then some (s.setRec thr { r with owner := .joining, Joined := true })
    else none
  | .joining => some (s.setRec thr { r with owner := .free, body := .absent })

/-- `tfun`. -/
def bodyStep (s : RegistryState ι κ η) (thr : ι) : Option (RegistryState ι κ η) :=
  let r := s.recs thr
  match r.body with
  | .absent => none
  | .entering => if s.lock = none then some (s.setRec thr { r with body := .running }) else none
  | .running =>
    some ({ s with due := fun k t => if t = thr then false else s.due k t }.setRec thr
      { r with body := .ending })
  | .ending =>
    if s.lock = none then
      some ({ s with threads := removeList s.threads thr }.setRec thr { r with body := .exited })
    else none
  | .exited => none

/-- `thread_enum`. -/
def enumStep (s : RegistryState ι κ η) (k : κ) : Option (RegistryState ι κ η) :=
  match s.calls k with
  | .idle => none
  | .initing => if s.lock = none then some (s.initOnce.setCall k .locking) else none
  | .locking =>
    if s.lock = none then some ({ s with lock := some k }.setCall k (.enumerating 0 [])) else none
  | .enumerating i passed =>
    if i < s.threads.Count then
      (s.threads.Items i).map fun thr => s.setCall k (.calling i thr (passed ++ [thr]))
    else some ({ s with lock := none }.setCall k (.unlocked passed))
  | .calling i _ passed => some (s.setCall k (.enumerating (i + 1) passed))
  | .unlocked _ => some (s.setCall k .idle)

/-- `thread_create` has returned the thread, and its function has not returned. -/
def ThreadRec.due (r : ThreadRec η) : Bool :=
  match r.owner, r.body with
  | .returned, .entering => true
  | .returned, .running => true
  | .waiting, .entering => true
  | .waiting, .running => true
  | _, _ => false

def registryStep (s : RegistryState ι κ η) : RegistryLabel ι κ η → Option (RegistryState ι κ η)
  | .create thr =>
    match (s.recs thr).owner with
    | .free => some (s.setRec thr
      { Thr := none, Joined := false, owner := .initing, body := .absent, handle := none })
    | _ => none
  | .owner thr created => ownerStep s thr created
  | .join thr =>
    match (s.recs thr).owner with
    | .returned => some (s.setRec thr
      { s.recs thr with owner := if (s.recs thr).Joined then .joining else .waiting })
    | _ => none
  | .body thr => bodyStep s thr
  | .enumerate k =>
    if s.calls k = .idle then
      some ({ s with due := Function.update s.due k fun t => (s.recs t).due }.setCall k .initing)
    else none
  | .next k => enumStep s k

def unregistered (ι κ η : Type*) : RegistryState ι κ η where
  threads := .zero
  inited := false
  lock := none
  recs := fun _ =>
    { Thr := none, Joined := false, owner := .free, body := .absent, handle := none }
  calls := fun _ => .idle
  due := fun _ _ => false

def registrySystem (ι κ η : Type*) [DecidableEq ι] [DecidableEq κ] :
    System (RegistryState ι κ η) (RegistryLabel ι κ η) where
  init := fun s => s = unregistered ι κ η
  step := registryStep

/-- A creation between `add_list` and the store of the handle, or the removal after a failure. -/
def OwnerPc.Unset : OwnerPc η → Prop
  | .creating => True
  | .storing _ => True
  | .removing => True
  | _ => False

instance (pc : OwnerPc η) : Decidable pc.Unset := by
  cases pc <;> unfold OwnerPc.Unset <;> infer_instance

def EnumPc.passed : EnumPc ι → List ι
  | .enumerating _ passed => passed
  | .calling _ _ passed => passed
  | .unlocked passed => passed
  | _ => []

end Xplatbase.Threads
