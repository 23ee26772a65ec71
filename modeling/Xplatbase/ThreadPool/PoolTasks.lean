import Xplatbase.Lib.Placement
import Xplatbase.ThreadPool.PoolShape

/-! Where the tasks are. Every step of the pool moves at most the tasks of one ring, one or two
workers and one client, and says how the counters follow. -/
namespace Xplatbase.ThreadPool
open Xplatbase.Lib

/-- A place in a worker for one task. Tasks on the stack are numbered from the outermost;
`spawning` and `placing` are the submit of a running task, before and after it has counted the
new one. -/
inductive Slot
  | deque (i : ℕ)
  | lifo
  | pending (i : ℕ)
  | held
  | running (i : ℕ)
  | spawning (i : ℕ)
  | placing (i : ℕ)
  deriving DecidableEq

/-- A place for one task. `calling` and `pushing` are a submit from outside, before and after it
has counted the task. -/
inductive Place (ι : Type*)
  | ring (j pos : ℕ)
  | worker (w : ℕ) (slot : Slot)
  | calling (c : ι)
  | pushing (c : ι)
  | finished (i : ℕ)
  deriving DecidableEq

def WorkerPc.held : WorkerPc → Option ℕ
  | .giraFim _ t => t
  | .giraFila t _ | .giraHead t _ _ | .giraWake t _ | .retractCount t | .retract t => some t
  | _ => none

def FramePc.spawning : FramePc → Option ℕ
  | .stopTest t | .inc t => some t
  | _ => none

def FramePc.placing : FramePc → Option ℕ
  | .place t => some t
  | _ => none

def ClientPc.calling : ClientPc → Option ℕ
  | .submit t (.stopTest) | .submit t .pick | .submit t (.inc _) | .submit t .retry => some t
  | _ => none

def ClientPc.pushing : ClientPc → Option ℕ
  | .submit t (.pushLoad _) | .submit t (.pushSeq _ _) | .submit t (.pushCas _ _)
  | .submit t (.publish _ _) | .submit t (.undo _) => some t
  | _ => none

def TaskRing.holds (r : TaskRing) (pos : ℕ) : Option ℕ :=
  if r.head ≤ pos then r.cell pos else none

def PoolWorker.holds (x : PoolWorker) : Slot → Option ℕ
  | .deque i => if x.deque.top ≤ i ∧ i < x.deque.bottom then some (x.deque.task i) else none
  | .lifo => x.lifo
  | .pending i => if x.pendI ≤ i ∧ i < x.pendN then some (x.pending i) else none
  | .held => x.pc.held
  | .running i => x.frames.reverse[i]?.map Frame.task
  | .spawning i => x.frames.reverse[i]?.bind fun f => f.pc.spawning
  | .placing i => x.frames.reverse[i]?.bind fun f => f.pc.placing

def PoolState.holds {ι : Type*} (s : PoolState ι) : Place ι → Option ℕ
  | .ring j pos => (s.rings j).holds pos
  | .worker w slot => (s.workers w).holds slot
  | .calling c => (s.clients c).calling
  | .pushing c => (s.clients c).pushing
  | .finished i => s.finished.reverse[i]?

def Place.accepted {ι : Type*} : Place ι → Bool
  | .worker _ (.spawning _) | .worker _ (.placing _) | .calling _ | .pushing _ => false
  | _ => true

def Place.counted {ι : Type*} : Place ι → Bool
  | .worker _ (.spawning _) | .calling _ | .finished _ => false
  | _ => true

variable {ι : Type*} {d : PoolDims} {s s' : PoolState ι} {w : ℕ}

/-! ### Single moves -/

theorem holds_setWorker_of {x : PoolWorker} {p : Place ι}
    (h : ∀ sl, p = .worker w sl → x.holds sl = (s.workers w).holds sl) :
    (s.setWorker w x).holds p = s.holds p := by
  cases p with
  | worker v sl =>
    by_cases hv : v = w
    · subst hv
      simpa only [PoolState.holds, PoolState.setWorker, Function.update_self] using h sl rfl
    · simp only [PoolState.holds, PoolState.setWorker, Function.update_of_ne hv]
  | _ => rfl

@[simp] theorem holds_setWorker_self (x : PoolWorker) (sl : Slot) :
    (s.setWorker w x).holds (.worker w sl) = x.holds sl := by
  simp only [PoolState.holds, PoolState.setWorker, Function.update_self]

/-- Nothing moves when a worker changes only what holds no task. -/
theorem holds_setWorker {x : PoolWorker} (hx : x.holds = (s.workers w).holds) :
    (s.setWorker w x).holds = s.holds :=
  funext fun _ => holds_setWorker_of fun _ _ => by rw [hx]

/-- A task moves inside worker `w`. -/
theorem relocates_slot [DecidableEq ι] {a b : Slot} {x : PoolWorker}
    (hb : (s.workers w).holds b = none) (hb' : x.holds b = (s.workers w).holds a)
    (ha' : a ≠ b → x.holds a = none)
    (hrest : ∀ sl, sl ≠ a → sl ≠ b → x.holds sl = (s.workers w).holds sl) :
    Relocates (moveTo (.worker w a) (.worker w b)) s.holds (s.setWorker w x).holds := by
  refine .move hb ?_ (fun hab => ?_) fun p hpa hpb => holds_setWorker_of fun sl hp => hrest sl ?_ ?_
  · rw [holds_setWorker_self]
    exact hb'
  · rw [holds_setWorker_self]
    exact ha' fun h => hab (by rw [h])
  · exact fun h => hpa (by rw [hp, h])
  · exact fun h => hpb (by rw [hp, h])

/-- A task moves inside worker `w`, and another takes its slot. -/
theorem relocates_slots [DecidableEq ι] {a b c : Slot} {x : PoolWorker} (hab : a ≠ b)
    (hac : a ≠ c) (hbc : b ≠ c) (hb : (s.workers w).holds b = none)
    (hb' : x.holds b = (s.workers w).holds a) (ha' : x.holds a = (s.workers w).holds c)
    (hc' : x.holds c = none)
    (hrest : ∀ sl, sl ≠ a → sl ≠ b → sl ≠ c → x.holds sl = (s.workers w).holds sl) :
    Relocates (moveTo (.worker w c) (.worker w a) ∘ moveTo (.worker w a) (.worker w b)) s.holds
      (s.setWorker w x).holds := by
  have hne : ∀ {a b : Slot}, a ≠ b → (Place.worker w a : Place ι) ≠ .worker w b :=
    fun h he => h (Place.worker.injEq .. ▸ he).2
  refine .moveTwo (hne hab) (hne hac) (hne hbc) hb ?_ ?_ ?_ fun p hpa hpb hpc =>
    holds_setWorker_of fun sl hp => hrest sl ?_ ?_ ?_
  · exact (holds_setWorker_self ..).trans hb'
  · exact (holds_setWorker_self ..).trans ha'
  · exact (holds_setWorker_self ..).trans hc'
  · exact fun h => hpa (by rw [hp, h])
  · exact fun h => hpb (by rw [hp, h])
  · exact fun h => hpc (by rw [hp, h])

theorem PoolState.Calm.holds (h : s.Calm s') : s'.holds = s.holds := by
  funext p
  cases p with
  | ring j pos => simp only [PoolState.holds, h.rings]
  | worker w sl =>
    have hd := h.deque w
    obtain ⟨_, _, _, _, -, hk⟩ := h.kept w
    cases sl with
    | deque i => simp only [PoolState.holds, PoolWorker.holds, hd]
    | _ => simp only [PoolState.holds, hk]; rfl
  | calling c => simp only [PoolState.holds, h.clients]
  | pushing c => simp only [PoolState.holds, h.clients]
  | finished i => simp only [PoolState.holds, h.finished]

theorem holds_setPc {p : WorkerPc} (hp : p.held = (s.workers w).pc.held) :
    (s.setPc w p).holds = s.holds := by
  refine holds_setWorker (funext fun sl => ?_)
  cases sl with
  | held => exact hp
  | _ => rfl

/-! ### Moves that the counters do not notice -/

/-- Tasks move, keeping whether they are counted and never going back before the submit. -/
def Shift (v v' : Place ι → Option ℕ) : Prop :=
  ∃ f, Relocates f v v' ∧
    ∀ p, v p ≠ none → (f p).counted = p.counted ∧ (p.accepted → (f p).accepted)

theorem Shift.of_eq {v v' : Place ι → Option ℕ} (h : v' = v) : Shift v v' :=
  ⟨id, .of_eq h, fun _ _ => ⟨rfl, id⟩⟩

theorem Shift.trans {u v v' : Place ι → Option ℕ} (h₁ : Shift u v) (h₂ : Shift v v') :
    Shift u v' := by
  obtain ⟨f, hf, hfk⟩ := h₁
  obtain ⟨g, hg, hgk⟩ := h₂
  refine ⟨g ∘ f, hf.trans hg, fun p hp => ?_⟩
  obtain ⟨k, hk⟩ := Option.ne_none_iff_exists'.mp hp
  have hfp := hfk p hp
  have hgp := hgk (f p) (by simp [hf.at hk])
  exact ⟨hgp.1.trans hfp.1, fun ha => hgp.2 (hfp.2 ha)⟩

theorem Shift.move [DecidableEq ι] {v v' : Place ι → Option ℕ} {a b : Place ι}
    (h : Relocates (moveTo a b) v v') (hc : b.counted = a.counted)
    (ha : a.accepted → b.accepted) : Shift v v' := by
  refine ⟨_, h, fun p _ => ?_⟩
  unfold moveTo
  split_ifs with hp
  · subst hp
    exact ⟨hc, ha⟩
  · exact ⟨rfl, id⟩

theorem Shift.moveTwo [DecidableEq ι] {v v' : Place ι → Option ℕ} {a b c : Place ι}
    (h : Relocates (moveTo c a ∘ moveTo a b) v v') (hb : b.counted = a.counted)
    (hc : a.counted = c.counted) (ha : a.accepted) (hb' : b.accepted) : Shift v v' := by
  refine ⟨_, h, fun p _ => ?_⟩
  simp only [Function.comp_apply, moveTo]
  split_ifs with hpa hbc hpc
  · subst hpa
    exact ⟨rfl, fun _ => ha⟩
  · subst hpa
    exact ⟨hb, fun _ => hb'⟩
  · subst hpc
    exact ⟨hc, fun _ => ha⟩
  · exact ⟨rfl, id⟩

@[simp] theorem PoolState.setWorker_setPc (s : PoolState ι) (w : ℕ) (x : PoolWorker)
    (p : WorkerPc) : (s.setWorker w x).setPc w p = s.setWorker w { x with pc := p } := by
  simp [PoolState.setPc, PoolState.setWorker]

theorem holds_run [DecidableEq ι] {t : ℕ} (hf : (s.workers w).frames = [])
    (hpc : (s.workers w).pc.held = some t) : Shift s.holds (s.run w t).holds := by
  refine .move (a := .worker w .held) (b := .worker w (.running 0))
    (relocates_slot ?_ ?_ ?_ fun sl ha hb => ?_) rfl fun _ => rfl
  · simp [PoolWorker.holds, hf]
  · simp [PoolWorker.holds, hpc]
  · simp [PoolWorker.holds, WorkerPc.held]
  · cases sl with
    | held => exact absurd rfl ha
    | running i =>
      have hi : i ≠ 0 := fun h0 => hb (by rw [h0])
      simp [PoolWorker.holds, hf, hi]
    | spawning i => cases i <;> simp [PoolWorker.holds, hf, FramePc.spawning]
    | placing i => cases i <;> simp [PoolWorker.holds, hf, FramePc.placing]
    | _ => rfl

/-- A batch of `n` tasks from `head`: the first is in hand, the others are in the buffer. -/
def popMove (w j head n : ℕ) : Place ι → Place ι
  | .ring k pos =>
    if k = j ∧ pos < head + n then
      if pos = head then .worker w .held else .worker w (.pending (pos - head))
    else .ring k pos
  | p => p

theorem relocates_pop {j n : ℕ} {x : PoolWorker} (hn : 0 < n)
    (hcell : ∀ i < n, ((s.rings j).cell ((s.rings j).head + i)).isSome)
    (hheld : (s.workers w).pc.held = none) (hpend : (s.workers w).pendN ≤ (s.workers w).pendI)
    (hx : x.holds .held = (s.rings j).cell (s.rings j).head)
    (hx' : ∀ i, x.holds (.pending i) =
      if 1 ≤ i ∧ i < n then (s.rings j).cell ((s.rings j).head + i) else none)
    (hrest : ∀ sl, sl ≠ .held → (∀ i, sl ≠ .pending i) →
      x.holds sl = (s.workers w).holds sl) :
    Relocates (popMove w j (s.rings j).head n) s.holds
      ((s.setRing j { s.rings j with head := (s.rings j).head + n }).setWorker w x).holds := by
  intro p' k
  have hring : ∀ {r : TaskRing} {pos : ℕ}, r.holds pos = some k ↔
      r.head ≤ pos ∧ r.cell pos = some k := fun {r pos} => by
    unfold TaskRing.holds
    split_ifs with h <;> simp [h]
  constructor
  · intro h
    cases p' with
    | ring i pos =>
      by_cases hi : i = j
      · subst hi
        simp only [PoolState.holds, PoolState.setWorker, PoolState.setRing, Function.update_self,
          hring] at h
        refine ⟨.ring i pos, hring.mpr ⟨by omega, h.2⟩, if_neg ?_⟩
        omega
      · refine ⟨.ring i pos, ?_, if_neg fun hc => hi hc.1⟩
        simpa only [PoolState.holds, PoolState.setWorker, PoolState.setRing,
          Function.update_of_ne hi] using h
    | worker v sl =>
      by_cases hv : v = w
      · subst hv
        simp only [PoolState.holds, PoolState.setWorker, Function.update_self] at h
        by_cases hsl : sl = .held
        · subst hsl
          exact ⟨.ring j (s.rings j).head, hring.mpr ⟨le_rfl, hx ▸ h⟩, by simp [popMove, hn]⟩
        · by_cases hsl' : ∃ i, sl = .pending i
          · obtain ⟨i, rfl⟩ := hsl'
            rw [hx'] at h
            split_ifs at h with hi
            refine ⟨.ring j ((s.rings j).head + i), hring.mpr ⟨by omega, h⟩, ?_⟩
            simp only [popMove]
            rw [if_pos ⟨trivial, by omega⟩, if_neg (by omega), Nat.add_sub_cancel_left]
          · rw [hrest sl hsl fun i hi => hsl' ⟨i, hi⟩] at h
            exact ⟨.worker v sl, h, rfl⟩
      · refine ⟨.worker v sl, ?_, rfl⟩
        simpa only [PoolState.holds, PoolState.setWorker, PoolState.setRing,
          Function.update_of_ne hv] using h
    | calling c => exact ⟨.calling c, h, rfl⟩
    | pushing c => exact ⟨.pushing c, h, rfl⟩
    | finished i => exact ⟨.finished i, h, rfl⟩
  · rintro ⟨p, hp, rfl⟩
    cases p with
    | ring i pos =>
      obtain ⟨hle, hc⟩ := hring.mp hp
      by_cases hi : i = j
      · subst hi
        simp only [popMove, true_and]
        split_ifs with hlt heq
        · subst heq
          simpa only [PoolState.holds, PoolState.setWorker, Function.update_self, hx] using hc
        · simp only [PoolState.holds, PoolState.setWorker, Function.update_self, hx']
          rw [if_pos ⟨by omega, by omega⟩, Nat.add_sub_cancel' hle]
          exact hc
        · simp only [PoolState.holds, PoolState.setWorker, PoolState.setRing, Function.update_self,
            hring]
          exact ⟨not_lt.mp hlt, hc⟩
      · simp only [popMove, hi, false_and, if_false]
        simpa only [PoolState.holds, PoolState.setWorker, PoolState.setRing,
          Function.update_of_ne hi] using hp
    | worker v sl =>
      by_cases hv : v = w
      · subst hv
        simp only [popMove, PoolState.holds, PoolState.setWorker, Function.update_self]
        rw [hrest sl]
        · exact hp
        · rintro rfl
          simp [PoolState.holds, PoolWorker.holds, hheld] at hp
        · rintro i rfl
          simp only [PoolState.holds, PoolWorker.holds] at hp
          split_ifs at hp
          omega
      · simp only [popMove, PoolState.holds, PoolState.setWorker, PoolState.setRing,
          Function.update_of_ne hv]
        exact hp
    | _ => exact hp

/-! ### A worker gets a task -/

section taken

variable [DecidableEq ι] (hheld : (s.workers w).pc.held = none)
include hheld

/-- A worker takes in hand the task of one of its own slots. -/
theorem shift_slot {a : Slot} {x : PoolWorker} (hc : (Place.worker w a : Place ι).counted)
    (hb : x.pc.held = (s.workers w).holds a) (ha : a ≠ .held → x.holds a = none)
    (hrest : ∀ sl, sl ≠ a → sl ≠ .held → x.holds sl = (s.workers w).holds sl) :
    Shift s.holds (s.setWorker w x).holds :=
  .move (relocates_slot (b := .held) hheld hb ha hrest) hc.symm fun _ => rfl

theorem shift_lifo {t n : ℕ} (hl : (s.workers w).lifo = some t) :
    Shift s.holds (s.setWorker w { s.workers w with
      lifo := none, lifoStreak := n, pc := .retract t }).holds := by
  refine shift_slot hheld (a := .lifo) rfl hl.symm (fun _ => rfl) fun sl ha hb => ?_
  cases sl with
  | lifo => exact absurd rfl ha
  | held => exact absurd rfl hb
  | _ => rfl

theorem shift_deque (hlt : (s.workers w).deque.top < (s.workers w).deque.bottom) :
    Shift s.holds (s.setWorker w { s.workers w with
      deque := { (s.workers w).deque with bottom := (s.workers w).deque.bottom - 1 }
      lifoStreak := 0
      pc := .retract ((s.workers w).deque.task ((s.workers w).deque.bottom - 1)) }).holds := by
  refine shift_slot hheld (a := .deque ((s.workers w).deque.bottom - 1)) rfl ?_ (fun _ => ?_)
    fun sl ha hb => ?_
  · simp only [WorkerPc.held, PoolWorker.holds]
    rw [if_pos (by omega)]
  · simp [PoolWorker.holds]
  · cases sl with
    | deque i =>
      have hi : i ≠ (s.workers w).deque.bottom - 1 := fun he => ha (by rw [he])
      simp only [PoolWorker.holds]
      congr 1
      simp only [eq_iff_iff]
      omega
    | held => exact absurd rfl hb
    | _ => rfl

theorem shift_pending (hlt : (s.workers w).pendI < (s.workers w).pendN) :
    Shift s.holds (s.setWorker w { s.workers w with
      pendI := (s.workers w).pendI + 1
      lifoStreak := 0
      pc := .retract ((s.workers w).pending (s.workers w).pendI) }).holds := by
  refine shift_slot hheld (a := .pending (s.workers w).pendI) rfl ?_ (fun _ => ?_)
    fun sl ha hb => ?_
  · simp only [WorkerPc.held, PoolWorker.holds]
    rw [if_pos ⟨le_rfl, hlt⟩]
  · simp [PoolWorker.holds]
  · cases sl with
    | pending i =>
      have hi : i ≠ (s.workers w).pendI := fun he => ha (by rw [he])
      simp only [PoolWorker.holds]
      congr 1
      simp only [eq_iff_iff]
      omega
    | held => exact absurd rfl hb
    | _ => rfl

omit [DecidableEq ι] in
/-- A batch is taken from the head of ring `j`: all its cells are full. -/
theorem shift_pop {j c n t : ℕ} (hpend : (s.workers w).pendN ≤ (s.workers w).pendI) (hn : 0 < n)
    (hcell : ∀ i < n, ((s.rings j).cell ((s.rings j).head + i)).isSome) {out : ℕ → ℕ}
    (hout : ∀ i < n, out i = ((s.rings j).cell ((s.rings j).head + i)).getD 0) (ht : t = out 0) :
    Shift s.holds ((s.setRing j { s.rings j with head := (s.rings j).head + n }).setWorker w
      { s.workers w with
        shardCursor := c, lifoStreak := 0, pending := out, pendI := 1, pendN := n,
        pc := .retract t }).holds := by
  have hsome : ∀ i < n, (s.rings j).cell ((s.rings j).head + i) = some (out i) := fun i hi => by
    obtain ⟨k, hk⟩ := Option.isSome_iff_exists.mp (hcell i hi)
    simp [hout i hi, hk]
  refine ⟨_, relocates_pop hn hcell hheld hpend ?_ (fun i => ?_) (fun sl ha hb => ?_), ?_⟩
  · simpa [WorkerPc.held, PoolWorker.holds, ht] using (hsome 0 hn).symm
  · simp only [PoolWorker.holds]
    by_cases hi : 1 ≤ i ∧ i < n
    · rw [if_pos hi, if_pos hi]
      exact (hsome i hi.2).symm
    · rw [if_neg hi, if_neg hi]
  · cases sl with
    | held => exact absurd rfl ha
    | pending i => exact absurd rfl (hb i)
    | _ => rfl
  · intro p _
    unfold popMove
    split
    · split_ifs <;> exact ⟨rfl, id⟩
    · exact ⟨rfl, id⟩

/-- The oldest task of another worker's deque is stolen. -/
theorem shift_steal {v : ℕ} (hne : v ≠ w)
    (hlt : (s.workers v).deque.top < (s.workers v).deque.bottom) :
    Shift s.holds ((s.setWorker v { s.workers v with
      deque := { (s.workers v).deque with top := (s.workers v).deque.top + 1 } }).setWorker w
      { s.workers w with
        stealCursor := v, lifoStreak := 0,
        pc := .retract ((s.workers v).deque.task (s.workers v).deque.top) }).holds := by
  refine .move (a := .worker v (.deque (s.workers v).deque.top)) (b := .worker w .held)
    (.move hheld ?_ (fun _ => ?_) fun p hpa hpb => ?_) rfl fun _ => rfl
  · simp [PoolState.holds, PoolState.setWorker, PoolWorker.holds, WorkerPc.held, hlt]
  · simp [PoolState.holds, PoolState.setWorker, PoolWorker.holds, Function.update_of_ne hne]
  · cases p with
    | worker u sl =>
      by_cases huw : u = w
      · subst huw
        simp only [PoolState.holds, PoolState.setWorker, Function.update_self]
        cases sl with
        | held => exact absurd rfl hpb
        | _ => rfl
      · by_cases huv : u = v
        · subst huv
          simp only [PoolState.holds, PoolState.setWorker, Function.update_self,
            Function.update_of_ne huw]
          cases sl with
          | deque i =>
            have hi : i ≠ (s.workers u).deque.top := fun he => hpa (by rw [he])
            simp only [PoolWorker.holds]
            congr 1
            simp only [eq_iff_iff]
            omega
          | _ => rfl
        · simp only [PoolState.holds, PoolState.setWorker, Function.update_of_ne huw,
            Function.update_of_ne huv]
    | _ => rfl

theorem poolTryGet_shift {b : Bool} {p : GetPc} {t : ℕ} (hp : p.Ok d s.rings (s.workers w))
    (hg : poolTryGet d s w b p = (s', .got t)) :
    Shift s.holds (s'.setPc w (.retract t)).holds := by
  cases p with
  | start =>
    simp only [poolTryGet] at hg
    split at hg
    · rename_i hl
      simp only [Prod.mk.injEq, GetNext.got.injEq] at hg
      obtain ⟨rfl, rfl⟩ := hg
      rw [PoolState.setWorker_setPc]
      exact shift_lifo hheld (Option.filter_eq_some_iff.mp hl).1
    · split_ifs at hg with hdeque hpend <;>
        simp only [Prod.mk.injEq, GetNext.got.injEq, reduceCtorEq, and_false] at hg <;>
        obtain ⟨rfl, rfl⟩ := hg <;> rw [PoolState.setWorker_setPc]
      · exact shift_deque hheld hdeque
      · exact shift_pending hheld hpend
  | popLoad g => simp [poolTryGet] at hg
  | popSeq g pos n =>
    simp only [poolTryGet] at hg
    split_ifs at hg <;> simp at hg
  | popCas g pos n =>
    obtain ⟨hpend, hn, hcell⟩ := hp
    simp only [poolTryGet] at hg
    split at hg <;> simp only [Prod.mk.injEq, GetNext.got.injEq, reduceCtorEq, and_false] at hg
    rename_i hhead
    obtain ⟨rfl, rfl⟩ := hg
    subst hhead
    rw [PoolState.setWorker_setPc]
    refine shift_pop hheld hpend hn hcell (fun i hi => ?_) ?_
    · exact if_pos hi
    · exact (if_pos hn).symm
  | steal k =>
    simp only [poolTryGet] at hg
    split at hg <;> simp only [Prod.mk.injEq, GetNext.got.injEq, reduceCtorEq, and_false] at hg
    rename_i hv
    obtain ⟨rfl, rfl⟩ := hg
    obtain ⟨hne, hlt, -⟩ := hv
    generalize ((s.workers w).stealCursor + k) % d.nTotal = v at hne hlt ⊢
    have hself : ∀ x, (s.setWorker v x).workers w = s.workers w :=
      fun _ => Function.update_of_ne hne.symm ..
    rw [PoolState.setWorker_setPc, hself]
    exact shift_steal hheld hne hlt
  | lifo =>
    simp only [poolTryGet] at hg
    split at hg <;> simp only [Prod.mk.injEq, GetNext.got.injEq, reduceCtorEq, and_false] at hg
    rename_i hl
    obtain ⟨rfl, rfl⟩ := hg
    rw [PoolState.setWorker_setPc]
    exact shift_lifo hheld hl

end taken

theorem PoolState.Calm.shift_setPc {s₁ : PoolState ι} (hc : s.Calm s₁) {p : WorkerPc}
    (hp : p.held = (s.workers w).pc.held) : Shift s.holds (s₁.setPc w p).holds := by
  refine .of_eq ((holds_setPc ?_).trans hc.holds)
  rw [hp, (hc.kept w).pc]

theorem PoolState.Calm.shift_run [DecidableEq ι] {s₁ : PoolState ι} (hc : s.Calm s₁) {t : ℕ}
    (hf : (s.workers w).frames = []) (hp : (s.workers w).pc.held = some t) :
    Shift s.holds (s₁.run w t).holds := by
  rw [← hc.holds]
  refine holds_run ((hc.kept w).frames.trans hf) ?_
  rw [(hc.kept w).pc, hp]

theorem PoolState.setPc_found (s : PoolState ι) (w t : ℕ) (site : GetSite) (p : WorkerPc) :
    (s.setPc w p).found w t site = s.found w t site := by
  cases site <;> simp [PoolState.found, PoolState.run, PoolState.setPc, PoolState.setWorker]

theorem shift_found [DecidableEq ι] {t : ℕ} {site : GetSite} (hf : (s.workers w).frames = [])
    (hp : (s.workers w).pc.held = some t) : Shift s.holds (s.found w t site).holds := by
  have hrun := (PoolState.Calm.refl s).shift_run hf hp
  cases site <;> simp only [PoolState.found]
  case spin sp =>
    split_ifs
    · exact (PoolState.Calm.refl s).shift_setPc hp.symm
    · exact hrun
  case announced => exact (PoolState.Calm.refl s).shift_setPc hp.symm
  all_goals exact hrun

theorem GetSite.missed_held (site : GetSite) (core : Bool) (ocioso : ℕ) :
    (site.missed core ocioso).held = none := by
  cases site <;> simp only [GetSite.missed] <;> (try split_ifs) <;> rfl

theorem Spin.leave_held (sp : Spin) : sp.leave.held = none := by
  unfold Spin.leave
  split_ifs <;> rfl

theorem poolWorkerFn_shift [DecidableEq ι] (h : PoolWf d s) {b : Bool}
    (hf : (s.workers w).frames = [])
    (hs : poolWorkerFn d s w b (s.workers w).pc = some s') : Shift s.holds s'.holds := by
  have hw := h.pc_ok hf
  have hrefl := PoolState.Calm.refl s
  have hword : ∀ {n g : ℤ}, s.Calm { s with nParkedCore := n, nGirando := g } := fun {n g} =>
    ⟨fun _ => .refl _, fun _ => rfl, rfl, rfl, rfl, rfl, rfl, rfl⟩
  cases hpc : (s.workers w).pc <;> rw [hpc] at hs hw <;>
    simp only [poolWorkerFn, Option.some.injEq, reduceCtorEq] at hs
  case get site p =>
    have hheld : (s.workers w).pc.held = none := by rw [hpc]; rfl
    split at hs <;> rename_i hg <;> subst hs
    · obtain ⟨rfl, -⟩ := poolTryGet_go h hw hg
      exact hrefl.shift_setPc hheld.symm
    · rename_i s₁ t
      rw [← PoolState.setPc_found s₁ w t site (.retract t)]
      refine (poolTryGet_shift hheld hw hg).trans (shift_found ?_ ?_)
      · simpa [PoolState.setPc, PoolState.setWorker] using (poolTryGet_self hg).1.trans hf
      · simp [PoolState.setPc, PoolState.setWorker, WorkerPc.held]
    · rw [poolTryGet_nothing hg]
      exact hrefl.shift_setPc ((GetSite.missed_held ..).trans hheld.symm)
  case spinStop sp =>
    subst hs
    apply hrefl.shift_setPc
    rw [hpc]
    cases sp.loop <;> dsimp only <;> split_ifs <;> first | exact Spin.leave_held .. | rfl
  case giraFim sp t =>
    subst hs
    cases t with
    | none => exact hword.shift_setPc (by rw [hpc]; split_ifs <;> rfl)
    | some t =>
      dsimp only
      split_ifs
      · exact hword.shift_setPc (by rw [hpc]; rfl)
      · exact hword.shift_run hf (by rw [hpc]; rfl)
  case giraFila t j =>
    subst hs
    split_ifs
    · exact hrefl.shift_setPc (by rw [hpc]; rfl)
    · exact hrefl.shift_run hf (by rw [hpc]; rfl)
  case giraWake t p =>
    have hc := poolWakeSubmit_calm d s p
    split at hs <;> rename_i hwake <;> rw [hwake] at hc <;> subst hs
    · exact hc.shift_setPc (by rw [hpc]; rfl)
    · exact hc.shift_run hf (by rw [hpc]; rfl)
  case prepare | sleepClear | elasticPrepare =>
    subst hs
    exact (s.calm_setSignal w false).shift_setPc (by rw [hpc]; (try split_ifs) <;> rfl)
  case announce | elasticPark =>
    subst hs
    exact (s.calm_setParked w true).shift_setPc (by rw [hpc]; rfl)
  case retract t =>
    subst hs
    exact (s.calm_setParked w false).shift_run hf (by rw [hpc]; rfl)
  case spinCount | announceCount | retractCount | wokenCount =>
    subst hs
    exact hword.shift_setPc (by rw [hpc]; rfl)
  case sleep =>
    split_ifs at hs
    cases hs
    exact hrefl.shift_setPc (by rw [hpc]; rfl)
  case woken =>
    subst hs
    refine .of_eq (holds_setWorker (funext fun sl => ?_))
    cases sl <;> simp [PoolWorker.holds, hpc, WorkerPc.held]
  case elasticActive =>
    subst hs
    refine .of_eq (holds_setWorker (funext fun sl => ?_))
    split_ifs <;> cases sl <;> simp [PoolWorker.holds, hpc, WorkerPc.held]
  case elasticGiro =>
    subst hs
    split_ifs
    · exact hrefl.shift_setPc (by rw [hpc]; rfl)
    all_goals
      refine .of_eq (holds_setWorker (funext fun sl => ?_))
      cases sl <;> simp [PoolWorker.holds, hpc, WorkerPc.held]
  all_goals
    subst hs
    exact hrefl.shift_setPc (by rw [hpc]; (try split_ifs) <;> rfl)

end Xplatbase.ThreadPool
