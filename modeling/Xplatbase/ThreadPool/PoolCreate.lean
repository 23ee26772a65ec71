import Mathlib.Logic.Function.Basic
import Mathlib.Data.List.Count
import Xplatbase.Lib.CInt
import Xplatbase.Lib.Loop

/-! The construction of a pool and its undoing: `pool_create_relative`, the destroy routine it
falls back on, and the pointers, threads and timer each of them touches. `none` is a null or
dangling dereference, a double free, or a wait that never ends. -/
namespace Xplatbase.ThreadPool.Create
open Xplatbase.Lib

inductive Res
  | pool
  | ctrs
  | shards
  | workers
  | cells (s : ℕ)
  | buf (i : ℕ)
  deriving DecidableEq

inductive PoolThread
  | worker (i : ℕ)
  | monitor
  deriving DecidableEq

inductive PoolEvent
  | alloc (r : Res)
  | free (r : Res)
  | start (t : PoolThread)
  | join (t : PoolThread)
  | waitInit
  | waitShutdown
  deriving DecidableEq

/-- What the allocator, the thread starts and `thread_wait_init` answer; `true` fails. -/
structure Failures where
  alloc : Res → Bool
  start : PoolThread → Bool
  waitInit : Bool

structure PoolDims where
  nCore : ℤ
  nWorkers : ℤ
  nElastic : ℤ
  nTotal : ℤ
  nShards : ℤ
  nCtrs : ℤ

def poolDims (cores : ℤ) : PoolDims :=
  let cores := if cores < 1 then 1 else cores
  let nw := if cores < 1 then 1 else cores
  let nc := (toInt32 (cores * 7)).tdiv 10
  let nc := if nc < 1 then 1 else nc
  let nc := if nc > nw then nw else nc
  let ne := (toInt32 (cores * 1)).tdiv 1
  let ne := if ne < 0 then 0 else ne
  let nt := toInt32 (nw + ne)
  let G := cores.tdiv 4
  let G := if G < 1 then 1 else G
  ⟨nc, nw, ne, nt, G, toInt32 (G + nt)⟩

/-- A pool under construction: which pointer fields are set, which blocks are allocated, which
thread handles are set, and everything done so far, oldest first. -/
structure Making where
  ptr : Res → Bool
  live : Res → Bool
  ctr : ℕ → ℤ
  handle : PoolThread → Bool
  stop : Bool
  waitInited : Bool
  trace : List PoolEvent

def Making.none : Making :=
  ⟨fun _ => false, fun _ => false, fun _ => 0, fun _ => false, false, false, []⟩

namespace Making

def calloc (f : Failures) (r : Res) (s : Making) : Bool × Making :=
  if f.alloc r then (false, s)
  else (true, { s with
    ptr := Function.update s.ptr r true
    live := Function.update s.live r true
    trace := s.trace ++ [.alloc r] })

/-- A read or write through the pointer `r`. -/
def deref (r : Res) (s : Making) : Option Making :=
  if s.ptr r && s.live r then some s else Option.none

def free (r : Res) (s : Making) : Option Making :=
  if s.ptr r then
    if s.live r then
      some { s with live := Function.update s.live r false, trace := s.trace ++ [.free r] }
    else Option.none
  else some s

def setNull (r : Res) (s : Making) : Making :=
  { s with ptr := Function.update s.ptr r false }

def poolThreadStart (f : Failures) (t : PoolThread) (s : Making) : Bool × Making :=
  if f.start t then (false, s)
  else (true, { s with
    handle := Function.update s.handle t true
    trace := s.trace ++ [.start t] })

/-- `thread_join` of a handle field: nothing when it is NULL, and NULL afterwards. -/
def poolThreadJoin (t : PoolThread) (s : Making) : Making :=
  if s.handle t then
    { s with handle := Function.update s.handle t false, trace := s.trace ++ [.join t] }
  else s

def setStop (s : Making) : Making := { s with stop := true }

end Making

def threadWaitInit (f : Failures) (s : Making) : Making :=
  if f.waitInit then s else { s with waitInited := true, trace := s.trace ++ [.waitInit] }

def threadWaitShutdown (s : Making) : Making :=
  { s with trace := s.trace ++ [.waitShutdown] }

def poolRingInit (f : Failures) (i : ℕ) (s : Making) : Option (Bool × Making) :=
  (s.deref .shards).map fun s => s.calloc f (.cells i)

def poolRingFree (i : ℕ) (s : Making) : Option Making :=
  ((s.deref .shards).bind (·.free (.cells i))).map (·.setNull (.cells i))

def poolDequeInit (f : Failures) (i : ℕ) (s : Making) : Option (Bool × Making) :=
  (s.deref .workers).map fun s => s.calloc f (.buf i)

def poolDequeFree (i : ℕ) (s : Making) : Option Making :=
  ((s.deref .workers).bind (·.free (.buf i))).map (·.setNull (.buf i))

/-- The sum `pool_total_pending` forms; with no counter it touches nothing. -/
def poolTotalPending (d : PoolDims) (s : Making) : Option ℤ :=
  if d.nCtrs ≤ 0 then some 0
  else (s.deref .ctrs).map fun s => ((List.range d.nCtrs.toNat).map s.ctr).sum

/-- Nobody else runs while a pool is built, so a positive sum is never seen to drop. -/
def poolWaitIdleRelative (d : PoolDims) (s : Making) : Option Making :=
  (poolTotalPending d s).bind fun n => if 0 < n then none else some s

/-- The part of `pool_destroy_relative` under `if (!stop)`. -/
def stopThreads (d : PoolDims) (s : Making) : Option Making :=
  if s.stop then some s
  else (poolWaitIdleRelative d s).bind fun s =>
    let s := s.setStop.poolThreadJoin .monitor
    if s.ptr .workers then
      forUpTo (fun i s => (s.deref .workers).map (·.poolThreadJoin (.worker i))) d.nTotal.toNat s
    else some s

def freeWorkers (d : PoolDims) (s : Making) : Option Making :=
  if s.ptr .workers then (forUpTo poolDequeFree d.nTotal.toNat s).bind (·.free .workers)
  else some s

def freeShards (d : PoolDims) (s : Making) : Option Making :=
  if s.ptr .shards then (forUpTo poolRingFree d.nShards.toNat s).bind (·.free .shards)
  else some s

/-- What `pool_destroy_relative` frees once no thread is left. -/
def freeAll (d : PoolDims) (s : Making) : Option Making :=
  (freeWorkers d s).bind fun s => (freeShards d s).bind fun s => (s.free .ctrs).bind fun s =>
    (if s.waitInited then threadWaitShutdown s else s).free .pool

def poolDestroyRelative (d : PoolDims) (s : Making) : Option Making :=
  if s.ptr .pool then
    (s.deref .pool).bind fun s => (stopThreads d s).bind fun s => freeAll d s
  else some s

/-- `pool_destroy_relative(pool); return NULL;` -/
def giveUp (d : PoolDims) (s : Making) : Option (Bool × Making) :=
  (poolDestroyRelative d s).map fun s => (false, s)

/-- `stop = 1`, then wake and join the workers below `n`. -/
def stopWorkers (n : ℕ) (s : Making) : Option Making :=
  forUpTo (fun i s => (s.deref .workers).map (·.poolThreadJoin (.worker i))) n s.setStop

/-- `true` stands for the pool, `false` for NULL. -/
def poolCreateRelative (cores : ℤ) (f : Failures) : Option (Bool × Making) :=
  let d := poolDims cores
  match Making.none.calloc f .pool with
  | (false, s) => some (false, s)
  | (true, s) =>
    let s := (s.calloc f .ctrs).2
    let s := (s.calloc f .shards).2
    let s := (s.calloc f .workers).2
    if !s.ptr .ctrs || !s.ptr .shards || !s.ptr .workers then giveUp d s
    else
      let s := threadWaitInit f s
      (tryUpTo (poolRingInit f) d.nShards.toNat s).bind fun
      | (some _, s) => giveUp d s
      | (none, s) =>
        (tryUpTo (poolDequeInit f) d.nTotal.toNat s).bind fun
        | (some _, s) => giveUp d s
        | (none, s) =>
          (tryUpTo (fun i s => (s.deref .workers).map (·.poolThreadStart f (.worker i)))
            d.nTotal.toNat s).bind fun
          | (some i, s) => (stopWorkers i s).bind (giveUp d)
          | (none, s) =>
            match s.poolThreadStart f .monitor with
            | (false, s) => (stopWorkers d.nTotal.toNat s).bind (giveUp d)
            | (true, s) => some (true, s)

def PoolEvent.frees : PoolEvent → Prop
  | .free _ => True
  | _ => False

def PoolEvent.ofThread : PoolEvent → Prop
  | .start _ | .join _ => True
  | _ => False

/-- Nothing is left of the attempt: each block and each thread was given back exactly once, no
thread was started or joined after the first free, and the timer was released if it was taken. -/
structure Undone (trace : List PoolEvent) : Prop where
  joined : ∀ t, trace.count (.join t) = trace.count (.start t)
  started_once : ∀ t, trace.count (.start t) ≤ 1
  joined_first : trace.Pairwise fun a b => a.frees → ¬b.ofThread
  freed : ∀ r, trace.count (.free r) = trace.count (.alloc r)
  allocated_once : ∀ r, trace.count (.alloc r) ≤ 1
  shutdown : trace.count .waitShutdown = if .waitInit ∈ trace then 1 else 0

/-- A pool with every worker and the monitor running, none of its memory freed. -/
structure Running (d : PoolDims) (trace : List PoolEvent) : Prop where
  workers : ∀ i : ℕ, i < d.nTotal → .start (.worker i) ∈ trace ∧ .join (.worker i) ∉ trace
  monitor : .start .monitor ∈ trace ∧ .join .monitor ∉ trace
  kept : ∀ r, .free r ∉ trace
  held : .waitShutdown ∉ trace

def AllOrNothing (d : PoolDims) : Option (Bool × Making) → Prop
  | some (true, s) => Running d s.trace
  | some (false, s) => Undone s.trace
  | none => False

variable {d : PoolDims} {f : Failures} {s : Making}

theorem count_snoc (l : List PoolEvent) (a b : PoolEvent) :
    (l ++ [b]).count a = l.count a + if b = a then 1 else 0 := by
  rw [List.count_append, List.count_singleton]
  simp only [beq_iff_eq]

theorem order_snoc {l : List PoolEvent} {b : PoolEvent}
    (hl : l.Pairwise fun a b => a.frees → ¬b.ofThread)
    (hb : b.ofThread → ∀ r, .free r ∉ l) :
    (l ++ [b]).Pairwise fun a b => a.frees → ¬b.ofThread := by
  refine List.pairwise_append.mpr ⟨hl, List.pairwise_singleton _ _, ?_⟩
  intro a ha c hc hfree hthread
  obtain rfl := List.mem_singleton.mp hc
  cases a with
  | free r => exact hb hthread r ha
  | _ => exact hfree

structure Tally (s : Making) : Prop where
  allocs : ∀ r, s.trace.count (.alloc r) = s.trace.count (.free r) + (s.live r).toNat
  allocs_le : ∀ r, s.trace.count (.alloc r) ≤ 1
  starts : ∀ t, s.trace.count (.start t) = s.trace.count (.join t) + (s.handle t).toNat
  starts_le : ∀ t, s.trace.count (.start t) ≤ 1
  inits : s.trace.count .waitInit = s.waitInited.toNat
  order : s.trace.Pairwise fun a b => a.frees → ¬b.ofThread

/-- Before anything is freed: the pointer fields are exactly the blocks held, and the loops of
`pool_destroy_relative` reach every one of them. -/
structure Owned (d : PoolDims) (s : Making) : Prop extends Tally s where
  own : ∀ r, s.ptr r = s.live r
  unfreed : ∀ r, .free r ∉ s.trace
  pool : s.ptr .pool = true
  cells : ∀ i, s.ptr (.cells i) = true → s.ptr .shards = true ∧ i < d.nShards.toNat
  bufs : ∀ i, s.ptr (.buf i) = true → s.ptr .workers = true ∧ i < d.nTotal.toNat
  handles : ∀ i, s.handle (.worker i) = true → s.ptr .workers = true ∧ i < d.nTotal.toNat
  held : .waitShutdown ∉ s.trace
  idle : ∀ i, s.ctr i = 0

/-- The destroy loops reach `r`. -/
def InReach (d : PoolDims) (s : Making) : Res → Prop
  | .cells i => s.ptr .shards = true ∧ i < d.nShards.toNat
  | .buf i => s.ptr .workers = true ∧ i < d.nTotal.toNat
  | _ => True

theorem Owned.deref (h : Owned d s) {r : Res} (hr : s.ptr r = true) :
    s.deref r = some s := by
  simp [Making.deref, ← h.own, hr]

theorem Owned.calloc (h : Owned d s) {r : Res} (hr : s.ptr r = false) (hd : InReach d s r) :
    Owned d (s.calloc f r).2 := by
  unfold Making.calloc
  split_ifs with hf
  · exact h
  have hlive : s.live r = false := h.own r ▸ hr
  have hfree : s.trace.count (.free r) = 0 := List.count_eq_zero.mpr (h.unfreed r)
  have hgrow : ∀ q, s.ptr q = true → Function.update s.ptr r true q = true := by
    intro q hq
    by_cases hqr : q = r
    · rw [hqr, Function.update_self]
    · rw [Function.update_of_ne hqr, hq]
  exact
    { allocs := by
        intro q
        by_cases hqr : q = r
        · subst hqr
          simp [h.allocs q, hlive]
        · simp [h.allocs q, hqr, Ne.symm hqr]
      allocs_le := by
        intro q
        have hq := h.allocs_le q
        by_cases hqr : q = r
        · subst hqr
          simp [h.allocs q, hlive, hfree]
        · simpa [count_snoc, Ne.symm hqr] using hq
      starts := by simpa [count_snoc] using h.starts
      starts_le := by simpa [count_snoc] using h.starts_le
      inits := by simpa [count_snoc] using h.inits
      order := order_snoc h.order (by intro hb; cases hb)
      own := by
        intro q
        by_cases hqr : q = r
        · subst hqr
          simp
        · simp [Function.update_of_ne hqr, h.own q]
      unfreed := by simpa using h.unfreed
      pool := hgrow _ h.pool
      cells := by
        intro i hi
        by_cases hir : Res.cells i = r
        · subst hir
          exact ⟨hgrow _ hd.1, hd.2⟩
        · have := h.cells i (by simpa [Function.update_of_ne hir] using hi)
          exact ⟨hgrow _ this.1, this.2⟩
      bufs := by
        intro i hi
        by_cases hir : Res.buf i = r
        · subst hir
          exact ⟨hgrow _ hd.1, hd.2⟩
        · have := h.bufs i (by simpa [Function.update_of_ne hir] using hi)
          exact ⟨hgrow _ this.1, this.2⟩
      handles := fun i hi => ⟨hgrow _ (h.handles i hi).1, (h.handles i hi).2⟩
      held := by simpa using h.held
      idle := h.idle }

theorem Owned.join (h : Owned d s) (t : PoolThread) :
    Owned d (s.poolThreadJoin t) := by
  unfold Making.poolThreadJoin
  split_ifs with ht
  · exact
      { h with
        allocs := by simpa [count_snoc] using h.allocs
        allocs_le := by simpa [count_snoc] using h.allocs_le
        starts := by
          intro u
          by_cases hut : u = t
          · subst hut
            simp [h.starts u, ht]
          · simp [h.starts u, hut, Ne.symm hut]
        starts_le := by simpa [count_snoc] using h.starts_le
        inits := by simpa [count_snoc] using h.inits
        order := order_snoc h.order fun _ => h.unfreed
        unfreed := by simpa using h.unfreed
        handles := by
          intro i hi
          by_cases hit : PoolThread.worker i = t
          · simp [hit] at hi
          · exact h.handles i (by simpa [Function.update_of_ne hit] using hi)
        held := by simpa using h.held }
  · exact h

theorem Owned.setStop (h : Owned d s) :
    Owned d s.setStop :=
  { h with }

theorem poolThreadJoin_handle (s : Making) (t u : PoolThread) :
    (s.poolThreadJoin t).handle u = (s.handle u && decide (u ≠ t)) := by
  unfold Making.poolThreadJoin
  by_cases hut : u = t
  · subst hut
    split_ifs with hu <;> simp [hu]
  · split_ifs <;> simp [hut]

theorem poolThreadJoin_ptr (s : Making) (t : PoolThread) :
    (s.poolThreadJoin t).ptr = s.ptr ∧ (s.poolThreadJoin t).stop = s.stop := by
  unfold Making.poolThreadJoin
  split_ifs <;> exact ⟨rfl, rfl⟩

/-- Joining the workers below `n` leaves no handle among them. -/
theorem joinWorkers (h : Owned d s) (hw : s.ptr .workers = true) (n : ℕ) :
    ∃ s', forUpTo (fun i s => (s.deref .workers).map (·.poolThreadJoin (.worker i))) n s =
        some s' ∧ Owned d s' ∧ s'.ptr = s.ptr ∧ s'.stop = s.stop ∧
      ∀ t, s'.handle t = true → s.handle t = true ∧ ∀ j < n, t ≠ .worker j := by
  refine forUpTo_rule _ (fun i s' => Owned d s' ∧ s'.ptr = s.ptr ∧ s'.stop = s.stop ∧
    ∀ t, s'.handle t = true → s.handle t = true ∧ ∀ j < i, t ≠ .worker j)
    ⟨h, rfl, rfl, fun t ht => ⟨ht, by omega⟩⟩ ?_
  rintro i t - ⟨ho, hptr, hstop, hh⟩
  refine ⟨t.poolThreadJoin (.worker i), ?_, ho.join _, ?_, ?_, ?_⟩
  · rw [ho.deref (hptr ▸ hw), Option.map_some]
  · rw [(poolThreadJoin_ptr t _).1, hptr]
  · rw [(poolThreadJoin_ptr t _).2, hstop]
  · intro u hu
    rw [poolThreadJoin_handle] at hu
    simp only [Bool.and_eq_true, decide_eq_true_eq] at hu
    refine ⟨(hh u hu.1).1, fun j hj => ?_⟩
    rcases Nat.lt_succ_iff_lt_or_eq.mp hj with hj | rfl
    · exact (hh u hu.1).2 j hj
    · exact hu.2

/-- While the blocks go back: those of `todo` are held as `p` says, the others are gone. -/
structure Clearing (p : Res → Bool) (w : Bool) (todo : Res → Prop) (s : Making) : Prop
    extends Tally s where
  joined : ∀ t, s.handle t = false
  held : .waitShutdown ∉ s.trace
  timer : s.waitInited = w
  kept : ∀ r, todo r → s.ptr r = p r ∧ s.live r = p r
  gone : ∀ r, ¬todo r → s.live r = false

variable {p : Res → Bool} {w : Bool} {todo : Res → Prop}

theorem Clearing.deref (h : Clearing p w todo s) {r : Res} (hr : todo r) (hp : p r = true) :
    s.deref r = some s := by
  simp [Making.deref, h.kept r hr, hp]

theorem Clearing.shrink (h : Clearing p w todo s) {todo' : Res → Prop}
    (hsub : ∀ r, todo' r → todo r) (hnull : ∀ r, todo r → ¬todo' r → p r = false) :
    Clearing p w todo' s :=
  { h with
    kept := fun r hr => h.kept r (hsub r hr)
    gone := fun r hr => by
      by_cases ht : todo r
      · rw [(h.kept r ht).2, hnull r ht hr]
      · exact h.gone r ht }

theorem Clearing.setNull (h : Clearing p w todo s) {r : Res} (hr : ¬todo r) :
    Clearing p w todo (s.setNull r) :=
  { h with
    kept := fun q hq => by
      have hqr : q ≠ r := fun he => hr (he ▸ hq)
      simpa [Making.setNull, Function.update_of_ne hqr] using h.kept q hq }

theorem Clearing.free (h : Clearing p w todo s) {r : Res} (hr : todo r) :
    ∃ s', s.free r = some s' ∧ Clearing p w (fun q => todo q ∧ q ≠ r) s' := by
  obtain ⟨hptr, hlive⟩ := h.kept r hr
  cases hp : p r with
  | false =>
    refine ⟨s, by simp [Making.free, hptr, hp], h.shrink (fun q hq => hq.1) ?_⟩
    rintro q hq hnot
    have : q = r := by
      by_contra hne
      exact hnot ⟨hq, hne⟩
    rw [this, hp]
  | true =>
    refine ⟨_, by simp [Making.free, hptr, hlive, hp]; rfl, ?_⟩
    exact
      { allocs := by
          intro q
          by_cases hqr : q = r
          · subst hqr
            simp [h.allocs q, hlive, hp]
          · simp [h.allocs q, hqr, Ne.symm hqr]
        allocs_le := by simpa [count_snoc] using h.allocs_le
        starts := by simpa [count_snoc] using h.starts
        starts_le := by simpa [count_snoc] using h.starts_le
        inits := by simpa [count_snoc] using h.inits
        order := order_snoc h.order (by intro hb; cases hb)
        joined := h.joined
        held := by simpa using h.held
        timer := h.timer
        kept := fun q hq => by simpa [Function.update_of_ne hq.2] using h.kept q hq.1
        gone := fun q hq => by
          by_cases hqr : q = r
          · simp [hqr]
          · have hgone := h.gone q fun ht => hq ⟨ht, hqr⟩
            simpa [Function.update_of_ne hqr] using hgone }

/-- One owner array and the blocks its entries point to, freed entries first. -/
theorem Clearing.group (h : Clearing p w todo s) (o : Res) (item : ℕ → Res) {n : ℕ}
    (ho : todo o) (hitems : ∀ j, todo (item j)) (hne : ∀ j, item j ≠ o)
    (hinj : Function.Injective item) (hp : ∀ j, p (item j) = true → p o = true ∧ j < n) :
    ∃ s', (if s.ptr o then
        (forUpTo (fun i (s : Making) =>
          ((s.deref o).bind (·.free (item i))).map (·.setNull (item i))) n s).bind (·.free o)
      else some s) = some s' ∧
      Clearing p w (fun q => todo q ∧ q ≠ o ∧ ∀ j, q ≠ item j) s' := by
  have hptr := (h.kept o ho).1
  cases hpo : p o with
  | false =>
    refine ⟨s, by rw [hptr, hpo]; rfl, h.shrink (fun q hq => hq.1) fun q hq hnot => ?_⟩
    by_cases hqo : q = o
    · rw [hqo, hpo]
    · have : ∃ j, q = item j := by
        by_contra hall
        exact hnot ⟨hq, hqo, fun j hj => hall ⟨j, hj⟩⟩
      obtain ⟨j, rfl⟩ := this
      cases hpj : p (item j) with
      | false => rfl
      | true => exact absurd (hp j hpj).1 (by simp [hpo])
  | true =>
    obtain ⟨t, ht, hct⟩ := forUpTo_rule
      (fun i (s : Making) =>
        ((s.deref o).bind (·.free (item i))).map (·.setNull (item i)))
      (fun i s => Clearing p w (fun q => todo q ∧ ∀ j < i, q ≠ item j) s) (n := n)
      (h.shrink (fun q hq => hq.1) fun q hq hnot => absurd ⟨hq, by omega⟩ hnot) (by
        intro i s _ hc
        obtain ⟨s', hs', hc'⟩ := hc.free (r := item i)
          ⟨hitems i, fun j hj he => absurd (hinj he) (by omega)⟩
        refine ⟨s'.setNull (item i), ?_, ?_⟩
        · rw [hc.deref ⟨ho, fun j _ => (hne j).symm⟩ hpo, Option.bind_some, hs', Option.map_some]
        · refine (hc'.setNull fun hq => hq.2 rfl).shrink ?_ ?_
          · exact fun q hq => ⟨⟨hq.1, fun j hj => hq.2 j (by omega)⟩, hq.2 i (by omega)⟩
          · intro q hq hnot
            refine absurd ⟨hq.1.1, fun j hj => ?_⟩ hnot
            rcases Nat.lt_succ_iff_lt_or_eq.mp hj with hj | rfl
            · exact hq.1.2 j hj
            · exact hq.2)
    obtain ⟨s', hs', hc'⟩ := hct.free (r := o) ⟨ho, fun j _ => (hne j).symm⟩
    refine ⟨s', by rw [hptr, hpo, if_pos rfl, ht, Option.bind_some, hs'], hc'.shrink ?_ ?_⟩
    · exact fun q hq => ⟨⟨hq.1, fun j _ => hq.2.2 j⟩, hq.2.1⟩
    · intro q hq hnot
      have : ∃ j, q = item j := by
        by_contra hall
        exact hnot ⟨hq.1.1, hq.2, fun j hj => hall ⟨j, hj⟩⟩
      obtain ⟨j, rfl⟩ := this
      cases hpj : p (item j) with
      | false => rfl
      | true => exact absurd rfl (hq.1.2 j (hp j hpj).2)

/-- With every thread joined, the frees leave nothing behind. -/
theorem freeAll_undoes (h : Owned d s) (hh : ∀ t, s.handle t = false) :
    ∃ s', freeAll d s = some s' ∧ Undone s'.trace := by
  have h0 : Clearing s.ptr s.waitInited (fun _ => True) s :=
    { h with
      joined := hh
      timer := rfl
      kept := fun r _ => ⟨rfl, (h.own r).symm⟩
      gone := fun r hr => absurd trivial hr }
  obtain ⟨s1, hs1, h1⟩ := h0.group .workers .buf (n := d.nTotal.toNat) trivial
    (fun _ => trivial) (by simp) (fun i j hij => by simpa using hij) h.bufs
  obtain ⟨s2, hs2, h2⟩ := h1.group .shards .cells (n := d.nShards.toNat)
    (by simp) (by simp) (by simp) (fun i j hij => by simpa using hij) h.cells
  obtain ⟨s3, hs3, h3⟩ := h2.free (r := .ctrs) (by simp)
  set s4 := if s3.waitInited then threadWaitShutdown s3 else s3 with hs4
  have hshut : s4.trace.count .waitShutdown = s.waitInited.toNat ∧
      s4.trace.count .waitInit = s.waitInited.toNat := by
    have hno : s3.trace.count .waitShutdown = 0 := List.count_eq_zero.mpr h3.held
    rw [hs4, h3.timer]
    cases hw : s.waitInited with
    | false => exact ⟨hno, by simpa [h3.timer, hw] using h3.inits⟩
    | true =>
      refine ⟨by simp [threadWaitShutdown, hno], ?_⟩
      simpa [threadWaitShutdown, count_snoc, h3.timer, hw] using h3.inits
  have h4 : Tally s4 := by
    rw [hs4]
    split_ifs
    · exact
        { allocs := by simpa [threadWaitShutdown, count_snoc] using h3.allocs
          allocs_le := by simpa [threadWaitShutdown, count_snoc] using h3.allocs_le
          starts := by simpa [threadWaitShutdown, count_snoc] using h3.starts
          starts_le := by simpa [threadWaitShutdown, count_snoc] using h3.starts_le
          inits := by simpa [threadWaitShutdown, count_snoc] using h3.inits
          order := order_snoc h3.order (by intro hb; cases hb) }
    · exact h3.toTally
  have hsame : s4.ptr = s3.ptr ∧ s4.live = s3.live ∧ s4.handle = s3.handle := by
    rw [hs4]
    split_ifs <;> exact ⟨rfl, rfl, rfl⟩
  obtain ⟨hptr, hlive⟩ := h3.kept .pool (by simp)
  have hfinal : s4.free .pool = some { s4 with
      live := Function.update s4.live .pool false, trace := s4.trace ++ [.free .pool] } := by
    simp [Making.free, hsame.1, hsame.2.1, hptr, hlive, h.pool]
  have hrun : freeAll d s = some { s4 with
      live := Function.update s4.live .pool false, trace := s4.trace ++ [.free .pool] } := by
    have hw1 : freeWorkers d s = some s1 := hs1
    have hw2 : freeShards d s1 = some s2 := hs2
    rw [freeAll, hw1, Option.bind_some, hw2, Option.bind_some, hs3, Option.bind_some, ← hs4,
      hfinal]
  refine ⟨_, hrun, ?_⟩
  have hdead : ∀ r, Function.update s4.live .pool false r = false := by
    intro r
    by_cases hr : r = .pool
    · rw [hr, Function.update_self]
    · rw [Function.update_of_ne hr, hsame.2.1]
      cases hs3r : s3.live r with
      | false => rfl
      | true =>
        by_contra
        have hkept : ¬¬(((True ∧ r ≠ .workers ∧ ∀ j, r ≠ .buf j) ∧ r ≠ .shards ∧
            ∀ j, r ≠ .cells j) ∧ r ≠ .ctrs) := fun hnot => by
          simpa [hs3r] using h3.gone r hnot
        cases r <;> simp at hkept hr
  have hlast : s4.live .pool = true := by rw [hsame.2.1, hlive, h.pool]
  exact
    { joined := fun t => by
        simp [h4.starts t, hsame.2.2, h3.joined t]
      started_once := by simpa [count_snoc] using h4.starts_le
      joined_first := order_snoc h4.order (by intro hb; cases hb)
      freed := fun r => by
        have hr := h4.allocs r
        have hd := hdead r
        by_cases hrp : r = .pool
        · subst hrp
          simp [hr, hlast]
        · rw [Function.update_of_ne hrp] at hd
          simp [hr, hd, Ne.symm hrp]
      allocated_once := by simpa [count_snoc] using h4.allocs_le
      shutdown := by
        have hmem : PoolEvent.waitInit ∈ s4.trace ++ [.free .pool] ↔ s.waitInited = true := by
          rw [← List.count_pos_iff, count_snoc, hshut.2]
          cases s.waitInited <;> simp
        simp only [hmem, count_snoc, hshut.1]
        cases s.waitInited <;> simp }

/-- The counters of a pool nobody submitted to are zero, so the idle wait ends at once. -/
theorem poolWaitIdle_returns (h : Owned d s) (hctrs : d.nCtrs ≤ 0 ∨ s.ptr .ctrs = true) :
    poolWaitIdleRelative d s = some s := by
  unfold poolWaitIdleRelative poolTotalPending
  rcases hctrs with hn | hc
  · rw [if_pos hn, Option.bind_some, if_neg (by omega)]
  · split_ifs with hn
    · rw [Option.bind_some, if_neg (by omega)]
    · have hsum : ((List.range d.nCtrs.toNat).map s.ctr).sum = 0 := by
        rw [show s.ctr = fun _ => 0 from funext h.idle]
        simp
      rw [h.deref hc, Option.map_some, Option.bind_some, hsum, if_neg (by omega)]

theorem stopThreads_joins (h : Owned d s) (hstop : s.stop = true → ∀ t, s.handle t = false)
    (hctrs : s.stop = false → d.nCtrs ≤ 0 ∨ s.ptr .ctrs = true) :
    ∃ s', stopThreads d s = some s' ∧ Owned d s' ∧ ∀ t, s'.handle t = false := by
  unfold stopThreads
  cases hs : s.stop with
  | true => exact ⟨s, if_pos rfl, h, hstop hs⟩
  | false =>
    rw [if_neg (by simp), poolWaitIdle_returns h (hctrs hs), Option.bind_some]
    have hmon := h.setStop.join .monitor
    dsimp only
    split_ifs with hw
    · obtain ⟨s1, hs1, ho1, -, -, hh⟩ := joinWorkers hmon hw d.nTotal.toNat
      refine ⟨s1, hs1, ho1, fun t => ?_⟩
      cases ht : s1.handle t with
      | false => rfl
      | true =>
        obtain ⟨hold, hnot⟩ := hh t ht
        cases t with
        | monitor => simp [poolThreadJoin_handle] at hold
        | worker i => exact absurd rfl (hnot i (hmon.handles i hold).2)
    · refine ⟨_, rfl, hmon, fun t => ?_⟩
      cases ht : (s.setStop.poolThreadJoin .monitor).handle t with
      | false => rfl
      | true =>
        cases t with
        | monitor => simp [poolThreadJoin_handle] at ht
        | worker i => exact absurd (hmon.handles i ht).1 hw

/-- `pool_destroy_relative` of whatever part of a pool was built. Only a missing counter table
stops it, and only when `stop` was not set. -/
theorem poolDestroyRelative_undoes (h : Owned d s) (hstop : s.stop = true → ∀ t, s.handle t = false)
    (hctrs : s.stop = false → d.nCtrs ≤ 0 ∨ s.ptr .ctrs = true) :
    ∃ s', poolDestroyRelative d s = some s' ∧ Undone s'.trace := by
  obtain ⟨s1, hs1, ho1, hh1⟩ := stopThreads_joins h hstop hctrs
  obtain ⟨s', hs', hu⟩ := freeAll_undoes ho1 hh1
  refine ⟨s', ?_, hu⟩
  rw [poolDestroyRelative, if_pos h.pool, h.deref h.pool, Option.bind_some, hs1,
    Option.bind_some, hs']

structure Building (d : PoolDims) (s : Making) : Prop extends Owned d s where
  unjoined : ∀ t, .join t ∉ s.trace
  running : s.stop = false
  ctrs : s.ptr .ctrs = true
  shards : s.ptr .shards = true
  workers : s.ptr .workers = true

theorem calloc_ptr (s : Making) (f : Failures) (r q : Res) :
    (s.calloc f r).2.ptr q = (s.ptr q || (decide (q = r) && !f.alloc r)) := by
  unfold Making.calloc
  by_cases hqr : q = r
  · subst hqr
    cases f.alloc q <;> simp
  · cases f.alloc r <;> simp [hqr]

theorem Building.calloc (h : Building d s) {r : Res} (hr : s.ptr r = false)
    (hd : InReach d s r) :
    Building d (s.calloc f r).2 :=
  { h.toOwned.calloc hr hd with
    unjoined := by
      unfold Making.calloc
      split_ifs
      · exact h.unjoined
      · simpa using h.unjoined
    running := by
      unfold Making.calloc
      split_ifs <;> exact h.running
    ctrs := by rw [calloc_ptr, h.ctrs]; rfl
    shards := by rw [calloc_ptr, h.shards]; rfl
    workers := by rw [calloc_ptr, h.workers]; rfl }

theorem Building.waitInit (h : Building d s) (hno : s.waitInited = false) :
    Building d (threadWaitInit f s) := by
  unfold threadWaitInit
  split_ifs
  · exact h
  · exact
      { h with
        allocs := by simpa [count_snoc] using h.allocs
        allocs_le := by simpa [count_snoc] using h.allocs_le
        starts := by simpa [count_snoc] using h.starts
        starts_le := by simpa [count_snoc] using h.starts_le
        inits := by simp [h.inits, hno]
        order := order_snoc h.order (by intro hb; cases hb)
        unfreed := by simpa using h.unfreed
        held := by simpa using h.held
        unjoined := by simpa using h.unjoined }

theorem Building.start (h : Building d s) {t : PoolThread} (ht : s.handle t = false)
    (hd : ∀ i, t = .worker i → i < d.nTotal.toNat) :
    Building d (s.poolThreadStart f t).2 := by
  unfold Making.poolThreadStart
  split_ifs
  · exact h
  · exact
      { h with
        allocs := by simpa [count_snoc] using h.allocs
        allocs_le := by simpa [count_snoc] using h.allocs_le
        starts := by
          intro u
          by_cases hut : u = t
          · subst hut
            simp [h.starts u, ht]
          · simp [h.starts u, hut, Ne.symm hut]
        starts_le := by
          intro u
          have hu := h.starts_le u
          by_cases hut : u = t
          · subst hut
            have : s.trace.count (.join u) = 0 := List.count_eq_zero.mpr (h.unjoined u)
            simp [h.starts u, ht, this]
          · simpa [count_snoc, Ne.symm hut] using hu
        inits := by simpa [count_snoc] using h.inits
        order := order_snoc h.order fun _ => h.unfreed
        unfreed := by simpa using h.unfreed
        handles := by
          intro i hi
          by_cases hit : PoolThread.worker i = t
          · exact ⟨h.workers, hd i hit.symm⟩
          · exact h.handles i (by simpa [Function.update_of_ne hit] using hi)
        held := by simpa using h.held
        unjoined := by simpa using h.unjoined }

/-- Every failure once the three tables are there ends in a complete undoing. -/
theorem Building.giveUp (h : Building d s) (hh : ∀ t, s.handle t = false) :
    ∃ s', giveUp d s = some (false, s') ∧ Undone s'.trace := by
  obtain ⟨s', hs', hu⟩ := poolDestroyRelative_undoes h.toOwned (fun _ => hh)
    fun _ => Or.inr h.ctrs
  exact ⟨s', by rw [Create.giveUp, hs', Option.map_some], hu⟩

/-- A thread that fails to start: those already started are joined before the undoing. -/
theorem Building.stopWorkers (h : Building d s) {n : ℕ}
    (hh : ∀ t, s.handle t = true → ∃ j < n, t = .worker j) :
    ∃ s', (stopWorkers n s).bind (Create.giveUp d) = some (false, s') ∧ Undone s'.trace := by
  obtain ⟨s1, hs1, ho1, hptr, hstop, hh1⟩ := joinWorkers h.toOwned.setStop h.workers n
  have hnone : ∀ t, s1.handle t = false := by
    intro t
    cases ht : s1.handle t with
    | false => rfl
    | true =>
      obtain ⟨hold, hnot⟩ := hh1 t ht
      obtain ⟨j, hj, rfl⟩ := hh t hold
      exact absurd rfl (hnot j hj)
  obtain ⟨s', hs', hu⟩ := poolDestroyRelative_undoes ho1 (fun _ => hnone)
    fun hs => by rw [hstop] at hs; cases hs
  exact ⟨s', by rw [Create.stopWorkers, hs1, Option.bind_some, Create.giveUp, hs',
    Option.map_some], hu⟩

/-- The pool struct alone, as `calloc` leaves it. -/
theorem owned_pool (d : PoolDims) (hf : f.alloc .pool = false) :
    Owned d (Making.none.calloc f .pool).2 := by
  simp only [Making.calloc, hf]
  exact
    { allocs := by
        intro r
        by_cases hr : r = .pool
        · subst hr
          simp [Making.none]
        · simp [Making.none, hr, Ne.symm hr]
      allocs_le := by
        intro r
        by_cases hr : Res.pool = r <;> simp [Making.none, hr]
      starts := by simp [Making.none]
      starts_le := by simp [Making.none]
      inits := by simp [Making.none]
      order := by simp [Making.none]
      own := fun r => rfl
      unfreed := by simp [Making.none]
      pool := by simp
      cells := by simp [Making.none]
      bufs := by simp [Making.none]
      handles := by simp [Making.none]
      held := by simp [Making.none]
      idle := fun i => rfl }

/-- Nothing runs and nothing was stopped in `s`. -/
structure Quiet (s : Making) : Prop where
  handles : ∀ t, s.handle t = false
  unjoined : ∀ t, .join t ∉ s.trace
  running : s.stop = false
  timer : s.waitInited = false

theorem Quiet.calloc (h : Quiet s) (r : Res) :
    Quiet (s.calloc f r).2 := by
  unfold Making.calloc
  split_ifs
  · exact h
  · exact
      { handles := h.handles
        unjoined := by simpa using h.unjoined
        running := h.running
        timer := h.timer }

/-- Without the counter table `pool_destroy_relative` reads through NULL. -/
theorem giveUp_noCtrs (h : Owned d s) (hs : s.stop = false) (hc : s.ptr .ctrs = false)
    (hn : 0 < d.nCtrs) :
    giveUp d s = none := by
  have hwait : poolWaitIdleRelative d s = none := by
    unfold poolWaitIdleRelative poolTotalPending
    rw [if_neg (by omega)]
    simp [Making.deref, hc]
  rw [giveUp, poolDestroyRelative, if_pos h.pool, h.deref h.pool, Option.bind_some, stopThreads,
    hs, if_neg (by simp), hwait]
  rfl

/-- The fields that `calloc` leaves alone. -/
theorem calloc_handle (s : Making) (r : Res) (t : PoolThread) :
    (s.calloc f r).2.handle t = s.handle t := by
  unfold Making.calloc
  split_ifs <;> rfl

theorem rings_made (h : Building d s) (hh : ∀ t, s.handle t = false)
    (hcells : ∀ i, s.ptr (.cells i) = false) (hbufs : ∀ i, s.ptr (.buf i) = false) :
    ∃ failed s', tryUpTo (poolRingInit f) d.nShards.toNat s = some (failed, s') ∧
      Building d s' ∧ (∀ t, s'.handle t = false) ∧
      (failed = none → ∀ i, s'.ptr (.buf i) = false) := by
  obtain ⟨failed, s', hs', hend⟩ := tryUpTo_rule (poolRingInit f)
    (fun i t => Building d t ∧ (∀ u, t.handle u = false) ∧ (∀ j, i ≤ j → t.ptr (.cells j) = false) ∧
      ∀ j, t.ptr (.buf j) = false)
    (fun _ t => Building d t ∧ ∀ u, t.handle u = false) (n := d.nShards.toNat)
    ⟨h, hh, fun j _ => hcells j, hbufs⟩ (by
      rintro i t hi ⟨hb, hh, hc, hbuf⟩
      have hb' := hb.calloc (f := f) (hc i (le_refl i)) ⟨hb.shards, hi⟩
      have hh' : ∀ u, (t.calloc f (.cells i)).2.handle u = false :=
        fun u => (calloc_handle t _ u).trans (hh u)
      refine ⟨_, _, by rw [poolRingInit, hb.deref hb.shards, Option.map_some], ?_⟩
      split_ifs
      · refine ⟨hb', hh', fun j hj => ?_, fun j => ?_⟩
        · rw [calloc_ptr, hc j (by omega), decide_eq_false (by simp; omega)]
          rfl
        · rw [calloc_ptr, hbuf j]
          simp
      · exact ⟨hb', hh'⟩)
  cases failed with
  | some i => exact ⟨_, s', hs', hend.2.1, hend.2.2, fun hno => by cases hno⟩
  | none => exact ⟨_, s', hs', hend.1, hend.2.1, fun _ => hend.2.2.2⟩

theorem deques_made (h : Building d s) (hh : ∀ t, s.handle t = false)
    (hbufs : ∀ i, s.ptr (.buf i) = false) :
    ∃ failed s', tryUpTo (poolDequeInit f) d.nTotal.toNat s = some (failed, s') ∧
      Building d s' ∧ ∀ t, s'.handle t = false := by
  obtain ⟨failed, s', hs', hend⟩ := tryUpTo_rule (poolDequeInit f)
    (fun i t => Building d t ∧ (∀ u, t.handle u = false) ∧ ∀ j, i ≤ j → t.ptr (.buf j) = false)
    (fun _ t => Building d t ∧ ∀ u, t.handle u = false) (n := d.nTotal.toNat)
    ⟨h, hh, fun j _ => hbufs j⟩ (by
      rintro i t hi ⟨hb, hh, hc⟩
      have hb' := hb.calloc (f := f) (hc i (le_refl i)) ⟨hb.workers, hi⟩
      have hh' : ∀ u, (t.calloc f (.buf i)).2.handle u = false :=
        fun u => (calloc_handle t _ u).trans (hh u)
      refine ⟨_, _, by rw [poolDequeInit, hb.deref hb.workers, Option.map_some], ?_⟩
      split_ifs
      · refine ⟨hb', hh', fun j hj => ?_⟩
        rw [calloc_ptr, hc j (by omega), decide_eq_false (by simp; omega)]
        rfl
      · exact ⟨hb', hh'⟩)
  cases failed with
  | some i => exact ⟨_, s', hs', hend.2⟩
  | none => exact ⟨_, s', hs', hend.1, hend.2.1⟩

/-- A thread that is started has a handle, one that is not has none. -/
theorem poolThreadStart_handle (s : Making) (t u : PoolThread) :
    (s.poolThreadStart f t).2.handle u = if u = t ∧ f.start t = false then true else s.handle u := by
  cases hst : f.start t with
  | true => simp [Making.poolThreadStart, hst]
  | false =>
    by_cases hu : u = t
    · simp [Making.poolThreadStart, hst, hu]
    · simp [Making.poolThreadStart, hst, hu]

/-- The workers: before pass `i` exactly those below `i` run. -/
theorem workers_started (h : Building d s) (hh : ∀ t, s.handle t = false) :
    ∃ failed s', tryUpTo (fun i s => (s.deref .workers).map (·.poolThreadStart f (.worker i)))
        d.nTotal.toNat s = some (failed, s') ∧ Building d s' ∧
      ∀ t, s'.handle t = true ↔ ∃ j < failed.getD d.nTotal.toNat, t = .worker j := by
  obtain ⟨failed, s', hs', hend⟩ := tryUpTo_rule
    (fun i s => (s.deref .workers).map (·.poolThreadStart f (.worker i)))
    (fun i t => Building d t ∧ ∀ u, t.handle u = true ↔ ∃ j < i, u = .worker j)
    (fun i t => Building d t ∧ ∀ u, t.handle u = true ↔ ∃ j < i, u = .worker j)
    (n := d.nTotal.toNat) ⟨h, by simp [hh]⟩ (by
      rintro i t hi ⟨hb, hh⟩
      have hi' : t.handle (.worker i) = false := by
        cases ht : t.handle (.worker i) with
        | false => rfl
        | true =>
          obtain ⟨j, hj, he⟩ := (hh _).mp ht
          obtain rfl := PoolThread.worker.inj he
          omega
      have hb' := hb.start (f := f) hi' fun j hj => PoolThread.worker.inj hj ▸ hi
      refine ⟨_, _, by rw [hb.deref hb.workers, Option.map_some], ?_⟩
      split_ifs with hok
      · refine ⟨hb', fun u => ?_⟩
        have hst : f.start (.worker i) = false := by
          cases hst : f.start (.worker i) with
          | false => rfl
          | true => simp [Making.poolThreadStart, hst] at hok
        rw [poolThreadStart_handle]
        by_cases hu : u = .worker i
        · rw [if_pos ⟨hu, hst⟩]
          exact ⟨fun _ => ⟨i, by omega, hu⟩, fun _ => rfl⟩
        · rw [if_neg fun hboth => hu hboth.1, hh]
          refine exists_congr fun j => and_congr_left fun hj => ?_
          have : j ≠ i := fun he => hu (he ▸ hj)
          omega
      · refine ⟨hb', fun u => ?_⟩
        have hst : f.start (.worker i) = true := by
          cases hst : f.start (.worker i) with
          | false => simp [Making.poolThreadStart, hst] at hok
          | true => rfl
        rw [poolThreadStart_handle, if_neg fun hboth => by rw [hst] at hboth; cases hboth.2]
        exact hh u)
  cases failed with
  | some i => exact ⟨_, s', hs', hend.2⟩
  | none => exact ⟨_, s', hs', hend⟩

/-- With all its workers a pool is made, or undone if the monitor does not start. -/
theorem create_monitor (h : Building d s)
    (hh : ∀ t, s.handle t = true ↔ ∃ j < d.nTotal.toNat, t = .worker j) :
    AllOrNothing d (match s.poolThreadStart f .monitor with
      | (false, s) => (stopWorkers d.nTotal.toNat s).bind (giveUp d)
      | (true, s) => some (true, s)) := by
  have hmon : s.handle .monitor = false := by
    cases hm : s.handle .monitor with
    | false => rfl
    | true =>
      obtain ⟨j, -, hj⟩ := (hh _).mp hm
      cases hj
  have hb := h.start (f := f) hmon fun i hi => by cases hi
  cases hst : f.start .monitor with
  | true =>
    obtain ⟨s', hs', hu⟩ := h.stopWorkers fun t ht => (hh t).mp ht
    simp only [Making.poolThreadStart, hst, if_true, hs']
    exact hu
  | false =>
    simp only [Making.poolThreadStart, hst, Bool.false_eq_true, if_false] at hb ⊢
    have hstarted : ∀ t, Function.update s.handle .monitor true t = true →
        PoolEvent.start t ∈ s.trace ++ [.start .monitor] := by
      intro t ht
      have hcount := hb.starts t
      dsimp only at hcount
      rw [ht] at hcount
      rw [← List.count_pos_iff, hcount]
      exact Nat.succ_pos _
    exact
      { workers := fun i hi => ⟨hstarted _ (by
          rw [Function.update_of_ne (by simp)]
          exact (hh _).mpr ⟨i, by omega, rfl⟩), hb.unjoined _⟩
        monitor := ⟨hstarted _ (by rw [Function.update_self]), hb.unjoined _⟩
        kept := hb.unfreed
        held := hb.held }

/-- Once the three tables are allocated nothing can go wrong any more. -/
theorem create_from_tables (cores : ℤ) {s : Making} (h : Building (poolDims cores) s)
    (hq : Quiet s) (hcells : ∀ i, s.ptr (.cells i) = false) (hbufs : ∀ i, s.ptr (.buf i) = false) :
    AllOrNothing (poolDims cores)
      ((tryUpTo (poolRingInit f) (poolDims cores).nShards.toNat (threadWaitInit f s)).bind fun
      | (some _, s) => giveUp (poolDims cores) s
      | (none, s) =>
        (tryUpTo (poolDequeInit f) (poolDims cores).nTotal.toNat s).bind fun
        | (some _, s) => giveUp (poolDims cores) s
        | (none, s) =>
          (tryUpTo (fun i s => (s.deref .workers).map (·.poolThreadStart f (.worker i)))
            (poolDims cores).nTotal.toNat s).bind fun
          | (some i, s) => (stopWorkers i s).bind (giveUp (poolDims cores))
          | (none, s) =>
            match s.poolThreadStart f .monitor with
            | (false, s) =>
              (stopWorkers (poolDims cores).nTotal.toNat s).bind (giveUp (poolDims cores))
            | (true, s) => some (true, s)) := by
  have h1 : Building (poolDims cores) (threadWaitInit f s) := h.waitInit hq.timer
  have hptr : (threadWaitInit f s).ptr = s.ptr ∧ (threadWaitInit f s).handle = s.handle := by
    unfold threadWaitInit
    split_ifs <;> exact ⟨rfl, rfl⟩
  obtain ⟨failed, s2, hs2, hb2, hh2, hbuf2⟩ := rings_made (f := f) h1
    (fun t => hptr.2 ▸ hq.handles t) (fun i => hptr.1 ▸ hcells i) fun i => hptr.1 ▸ hbufs i
  rw [hs2, Option.bind_some]
  cases failed with
  | some i =>
    obtain ⟨s', hs', hu⟩ := hb2.giveUp hh2
    simp only [hs']
    exact hu
  | none =>
    obtain ⟨failed, s3, hs3, hb3, hh3⟩ := deques_made (f := f) hb2 hh2 (hbuf2 rfl)
    simp only [hs3, Option.bind_some]
    cases failed with
    | some i =>
      obtain ⟨s', hs', hu⟩ := hb3.giveUp hh3
      simp only [hs']
      exact hu
    | none =>
      obtain ⟨failed, s4, hs4, hb4, hh4⟩ := workers_started (f := f) hb3 hh3
      simp only [hs4, Option.bind_some]
      cases failed with
      | some i =>
        obtain ⟨s', hs', hu⟩ := hb4.stopWorkers (n := i) fun t ht => (hh4 t).mp ht
        simp only [hs']
        exact hu
      | none => exact create_monitor hb4 hh4

theorem poolCreateRelative_all_or_nothing (cores : ℤ) (f : Failures) :
    AllOrNothing (poolDims cores) (poolCreateRelative cores f) ↔
      f.alloc .pool = true ∨ f.alloc .ctrs = false ∨ (poolDims cores).nCtrs ≤ 0 := by
  have hquiet : Quiet (Making.none.calloc f .pool).2 :=
    Quiet.calloc ⟨fun _ => rfl, by simp [Making.none], rfl, rfl⟩ _
  cases hpool : f.alloc .pool with
  | true =>
    have hres : poolCreateRelative cores f = some (false, .none) := by
      simp [poolCreateRelative, Making.calloc, hpool]
    simp only [hres, true_or, iff_true]
    exact ⟨by simp [Making.none], by simp [Making.none], by simp [Making.none],
      by simp [Making.none], by simp [Making.none], by simp [Making.none]⟩
  | false =>
    have h0 := owned_pool (poolDims cores) hpool
    have hc0 : Making.none.calloc f .pool = (true, (Making.none.calloc f .pool).2) := by
      simp [Making.calloc, hpool]
    have hp0 : ∀ r, (Making.none.calloc f .pool).2.ptr r = decide (r = .pool) := by
      intro r
      rw [calloc_ptr, hpool]
      simp [Making.none]
    generalize hs0 : (Making.none.calloc f .pool).2 = s0 at *
    -- the three tables, whichever of them are there
    have h1 := h0.calloc (f := f) (r := .ctrs) (by simp [hp0]) trivial
    have h2 := h1.calloc (f := f) (r := .shards) (by simp [calloc_ptr, hp0]) trivial
    have h3 := h2.calloc (f := f) (r := .workers) (by simp [calloc_ptr, hp0]) trivial
    have hq := ((hquiet.calloc (f := f) .ctrs).calloc (f := f) .shards).calloc (f := f) .workers
    have hp : ∀ r, (((s0.calloc f .ctrs).2.calloc f .shards).2.calloc f .workers).2.ptr r =
        (decide (r = .pool) || (decide (r = .ctrs) && !f.alloc .ctrs) ||
          (decide (r = .shards) && !f.alloc .shards) ||
          (decide (r = .workers) && !f.alloc .workers)) := by
      intro r
      rw [calloc_ptr, calloc_ptr, calloc_ptr, hp0]
    unfold poolCreateRelative
    simp only [hc0]
    generalize hs : (((s0.calloc f .ctrs).2.calloc f .shards).2.calloc f .workers).2 = s at *
    have hctrs : s.ptr .ctrs = !f.alloc .ctrs := by simp [hp]
    split_ifs with hfail
    · -- some table is missing
      cases hc : f.alloc .ctrs with
      | false =>
        obtain ⟨s', hs', hu⟩ := poolDestroyRelative_undoes h3 (fun _ => hq.handles)
          fun _ => Or.inr (by rw [hctrs, hc]; rfl)
        simp only [true_or, or_true, iff_true]
        rw [giveUp, hs', Option.map_some]
        exact hu
      | true =>
        by_cases hn : (poolDims cores).nCtrs ≤ 0
        · obtain ⟨s', hs', hu⟩ := poolDestroyRelative_undoes h3 (fun _ => hq.handles)
            fun _ => Or.inl hn
          simp only [hn, or_true, iff_true]
          rw [giveUp, hs', Option.map_some]
          exact hu
        · rw [giveUp_noCtrs h3 hq.running (by rw [hctrs, hc]; rfl) (by omega)]
          simp [AllOrNothing, hn]
    · simp only [Bool.or_eq_true, Bool.not_eq_true', not_or, Bool.not_eq_false] at hfail
      obtain ⟨⟨hcp, hsp⟩, hwp⟩ := hfail
      have hc : f.alloc .ctrs = false := by simpa [hctrs] using hcp
      simp only [hc, true_or, or_true, iff_true]
      exact create_from_tables cores ⟨h3, hq.unjoined, hq.running, hcp, hsp, hwp⟩ hq
        (by simp [hp]) (by simp [hp])

def ctrsFail : Failures := ⟨fun r => decide (r = .ctrs), fun _ => false, false⟩

theorem poolCreateRelative_ctrs_fault :
    ¬∀ (cores : ℤ) (f : Failures), 1 ≤ cores →
      AllOrNothing (poolDims cores) (poolCreateRelative cores f) := by
  intro hall
  have hnone : (poolCreateRelative 1 ctrsFail).isNone = true := by decide +kernel
  have h := hall 1 ctrsFail (le_refl 1)
  rw [Option.isNone_iff_eq_none.mp hnone] at h
  exact h

end Xplatbase.ThreadPool.Create
