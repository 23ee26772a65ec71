import Xplatbase.ThreadPool.PoolStep
import Mathlib.Tactic.Cases

/-! What every reachable state of the pool looks like: rings with all positions up to `head`
published, a worker that is either in its loop or inside a stack of tasks, and a batch buffer that
is used up before the next batch arrives. -/
namespace Xplatbase.ThreadPool
open Xplatbase.Lib

variable {ι : Type*} {d : PoolDims} {s s' : PoolState ι} {w : ℕ}

structure TaskRing.Ok (r : TaskRing) : Prop where
  head_le : r.head ≤ r.tail
  below : ∀ p < r.head, (r.cell p).isSome
  above : ∀ p, r.tail ≤ p → r.cell p = none

theorem TaskRing.Ok.lt_tail {r : TaskRing} (h : r.Ok) {p : ℕ} (hp : (r.cell p).isSome) :
    p < r.tail := by
  by_contra hle
  rw [h.above p (not_lt.mp hle)] at hp
  simp at hp

def GetPc.Ok (d : PoolDims) (rings : ℕ → TaskRing) (x : PoolWorker) : GetPc → Prop
  | .start => True
  | .popLoad _ | .steal _ | .lifo => x.pendN ≤ x.pendI
  | .popSeq g pos n =>
    x.pendN ≤ x.pendI ∧ ∀ i < n, ((rings (d.shardAt x g)).cell (pos + i)).isSome
  | .popCas g pos n =>
    x.pendN ≤ x.pendI ∧ 0 < n ∧ ∀ i < n, ((rings (d.shardAt x g)).cell (pos + i)).isSome

def WorkerPc.Ok (d : PoolDims) (rings : ℕ → TaskRing) (x : PoolWorker) : WorkerPc → Prop
  | .get _ p => p.Ok d rings x
  | .run => False
  | _ => True

def FramePc.Ok (ctr : ℤ) : FramePc → Prop
  | .nested _ => False
  | .ctrStore v => v = ctr
  | _ => True

/-- A worker is in its loop, or the innermost task is at some step of its own and the ones below
wait for it. -/
def WorkerOk (d : PoolDims) (rings : ℕ → TaskRing) (ctr : ℤ) (x : PoolWorker) : Prop :=
  x.deque.top ≤ x.deque.bottom ∧ match x.frames with
    | [] => x.pc.Ok d rings x
    | f :: rest => x.pc = .run ∧ f.pc.Ok ctr ∧ ∀ f ∈ rest, ∃ u, f.pc = .nested u

def SubmitPc.shard : SubmitPc → Option ℕ
  | .inc j | .pushLoad j | .pushSeq j _ | .pushCas j _ | .publish j _ | .undo j => some j
  | _ => none

structure PoolWf (d : PoolDims) (s : PoolState ι) : Prop where
  ring : ∀ j, (s.rings j).Ok
  worker : ∀ w, WorkerOk d s.rings (s.ctrs (d.ctrOf w)) (s.workers w)
  publish : ∀ c t j pos, s.clients c = .submit t (.publish j pos) →
    pos < (s.rings j).tail ∧ (s.rings j).cell pos = none
  publish_inj : ∀ c c' t t' j pos, s.clients c = .submit t (.publish j pos) →
    s.clients c' = .submit t' (.publish j pos) → c = c'
  shard : ∀ c t p j, s.clients c = .submit t p → p.shard = some j → j < d.nShards

/-! ### What a step leaves alone -/

/-- `x'` is `x` after steps of other threads. -/
def PoolWorker.Kept (x x' : PoolWorker) : Prop :=
  ∃ top parked signal monLast, (x.deque.top ≤ x.deque.bottom → top ≤ x.deque.bottom) ∧
    x' = { x with deque := { x.deque with top }, parked, signal, monLast }

theorem PoolWorker.Kept.refl (x : PoolWorker) : x.Kept x := ⟨_, _, _, _, id, rfl⟩

theorem PoolWorker.Kept.deque {x x' : PoolWorker} (h : x.Kept x')
    (hx : x.deque.top ≤ x.deque.bottom) : x'.deque.top ≤ x'.deque.bottom := by
  obtain ⟨_, _, _, _, hd, rfl⟩ := h
  exact hd hx

theorem PoolWorker.Kept.frames {x x' : PoolWorker} (h : x.Kept x') : x'.frames = x.frames := by
  obtain ⟨_, _, _, _, -, rfl⟩ := h
  rfl

theorem PoolWorker.Kept.pc {x x' : PoolWorker} (h : x.Kept x') : x'.pc = x.pc := by
  obtain ⟨_, _, _, _, -, rfl⟩ := h
  rfl

def RingsGrow (rings rings' : ℕ → TaskRing) : Prop :=
  ∀ j p, ((rings j).cell p).isSome → ((rings' j).cell p).isSome

theorem GetPc.Ok.mono {rings rings' : ℕ → TaskRing} {x x' : PoolWorker} {p : GetPc}
    (h : p.Ok d rings x) (hx : x.Kept x') (hr : RingsGrow rings rings') : p.Ok d rings' x' := by
  obtain ⟨_, _, _, _, -, rfl⟩ := hx
  cases p with
  | start => trivial
  | popLoad | steal | lifo => exact h
  | popSeq => exact ⟨h.1, fun i hi => hr _ _ (h.2 i hi)⟩
  | popCas => exact ⟨h.1, h.2.1, fun i hi => hr _ _ (h.2.2 i hi)⟩

theorem WorkerOk.mono {rings rings' : ℕ → TaskRing} {ctr : ℤ} {x x' : PoolWorker}
    (h : WorkerOk d rings ctr x) (hx : x.Kept x') (hr : RingsGrow rings rings') :
    WorkerOk d rings' ctr x' := by
  refine ⟨hx.deque h.1, ?_⟩
  replace h := h.2
  rw [hx.frames, hx.pc]
  cases hfr : x.frames with
  | nil =>
    simp only [hfr] at h ⊢
    cases hpc : x.pc <;> simp only [hpc, WorkerPc.Ok] at h ⊢
    exact h.mono hx hr
  | cons f rest => simpa only [hfr] using h

/-- Only flags and words change that no worker's own work depends on. -/
structure PoolState.Calm (s s' : PoolState ι) : Prop where
  kept : ∀ w, (s.workers w).Kept (s'.workers w)
  deque : ∀ w, (s'.workers w).deque = (s.workers w).deque
  rings : s'.rings = s.rings
  ctrs : s'.ctrs = s.ctrs
  clients : s'.clients = s.clients
  returned : s'.returned = s.returned
  finished : s'.finished = s.finished
  submitted : s'.submitted = s.submitted

theorem PoolState.Calm.refl (s : PoolState ι) : s.Calm s :=
  ⟨fun _ => .refl _, fun _ => rfl, rfl, rfl, rfl, rfl, rfl, rfl⟩

theorem PoolState.calm_setParked (s : PoolState ι) (w : ℕ) (b : Bool) : s.Calm (s.setParked w b) := by
  refine ⟨fun v => ?_, fun v => ?_, rfl, rfl, rfl, rfl, rfl, rfl⟩ <;> by_cases hv : v = w
  · subst hv
    simp only [PoolState.setParked, PoolState.setWorker, Function.update_self]
    exact ⟨_, _, _, _, id, rfl⟩
  · simp only [PoolState.setParked, PoolState.setWorker, Function.update_of_ne hv]
    exact .refl _
  · subst hv
    simp only [PoolState.setParked, PoolState.setWorker, Function.update_self]
  · simp only [PoolState.setParked, PoolState.setWorker, Function.update_of_ne hv]

theorem PoolState.calm_setSignal (s : PoolState ι) (w : ℕ) (b : Bool) : s.Calm (s.setSignal w b) := by
  refine ⟨fun v => ?_, fun v => ?_, rfl, rfl, rfl, rfl, rfl, rfl⟩ <;> by_cases hv : v = w
  · subst hv
    simp only [PoolState.setSignal, PoolState.setWorker, Function.update_self]
    exact ⟨_, _, _, _, id, rfl⟩
  · simp only [PoolState.setSignal, PoolState.setWorker, Function.update_of_ne hv]
    exact .refl _
  · subst hv
    simp only [PoolState.setSignal, PoolState.setWorker, Function.update_self]
  · simp only [PoolState.setSignal, PoolState.setWorker, Function.update_of_ne hv]

theorem poolWakeSubmit_calm (d : PoolDims) (s : PoolState ι) (p : WakePc) :
    s.Calm (poolWakeSubmit d s p).1 := by
  cases p with
  | start => exact ⟨fun _ => .refl _, fun _ => rfl, rfl, rfl, rfl, rfl, rfl, rfl⟩
  | claim start j =>
    unfold poolWakeSubmit
    dsimp only
    split
    · exact s.calm_setParked _ _
    · exact .refl s
  | signal idx => exact s.calm_setSignal idx true
  | _ => exact .refl s

/-! ### The shape is kept -/

theorem PoolWf.calm (h : PoolWf d s) (hc : s.Calm s') : PoolWf d s' := by
  refine ⟨?_, fun w => ?_, ?_, ?_, ?_⟩
  · simpa only [hc.rings] using h.ring
  · rw [hc.rings, hc.ctrs]
    exact (h.worker w).mono (hc.kept w) fun _ _ => id
  · simpa only [hc.rings, hc.clients] using h.publish
  · simpa only [hc.clients] using h.publish_inj
  · simpa only [hc.clients] using h.shard

theorem PoolWf.of_eq (h : PoolWf d s) (hr : s'.rings = s.rings) (hc : s'.ctrs = s.ctrs)
    (hw : s'.workers = s.workers) (hcl : s'.clients = s.clients) : PoolWf d s' := by
  refine ⟨?_, ?_, ?_, ?_, ?_⟩
  · simpa only [hr] using h.ring
  · simpa only [hr, hc, hw] using h.worker
  · simpa only [hr, hcl] using h.publish
  · simpa only [hcl] using h.publish_inj
  · simpa only [hcl] using h.shard

theorem PoolWf.setWorker (h : PoolWf d s) {x : PoolWorker}
    (hx : WorkerOk d s.rings (s.ctrs (d.ctrOf w)) x) : PoolWf d (s.setWorker w x) := by
  refine ⟨h.ring, fun v => ?_, h.publish, h.publish_inj, h.shard⟩
  by_cases hv : v = w
  · subst hv
    simpa only [PoolState.setWorker, Function.update_self] using hx
  · simpa only [PoolState.setWorker, Function.update_of_ne hv] using h.worker v

theorem PoolWf.pc_ok (h : PoolWf d s) (hf : (s.workers w).frames = []) :
    (s.workers w).pc.Ok d s.rings (s.workers w) := by
  have hw := (h.worker w).2
  rwa [hf] at hw

theorem PoolWf.frames_ok (h : PoolWf d s) {f : Frame} {rest : List Frame}
    (hf : (s.workers w).frames = f :: rest) : (s.workers w).pc = .run ∧
      f.pc.Ok (s.ctrs (d.ctrOf w)) ∧ ∀ f ∈ rest, ∃ u, f.pc = .nested u := by
  have hw := (h.worker w).2
  rwa [hf] at hw

theorem workerOk_of_pc {rings : ℕ → TaskRing} {ctr : ℤ} {x : PoolWorker}
    (hd : x.deque.top ≤ x.deque.bottom) (hf : x.frames = []) (hp : x.pc.Ok d rings x) :
    WorkerOk d rings ctr x := by
  refine ⟨hd, ?_⟩
  rw [hf]
  exact hp

theorem workerOk_run {rings : ℕ → TaskRing} {ctr : ℤ} {x : PoolWorker} {t : ℕ}
    (hd : x.deque.top ≤ x.deque.bottom) (hf : x.frames = [⟨t, .enter⟩]) (hp : x.pc = .run) :
    WorkerOk d rings ctr x := by
  refine ⟨hd, ?_⟩
  rw [hf]
  exact ⟨hp, trivial, by simp⟩

theorem PoolWf.setPc (h : PoolWf d s) (hf : (s.workers w).frames = []) {p : WorkerPc}
    (hp : p.Ok d s.rings { s.workers w with pc := p }) : PoolWf d (s.setPc w p) :=
  h.setWorker (workerOk_of_pc (h.worker w).1 hf hp)

theorem PoolWf.run (h : PoolWf d s) (t : ℕ) : PoolWf d (s.run w t) :=
  h.setWorker (workerOk_run (h.worker w).1 rfl rfl)

@[simp] theorem PoolState.setWorker_setWorker (s : PoolState ι) (w : ℕ) (x y : PoolWorker) :
    (s.setWorker w x).setWorker w y = s.setWorker w y := by
  simp only [PoolState.setWorker, Function.update_idem]

/-- A sequence number read as ready belongs to a published task. -/
theorem TaskRing.Ok.ready {r : TaskRing} (h : r.Ok) {p : ℕ} {b : Bool}
    (hr : r.ready b p) : (r.cell p).isSome := by
  unfold TaskRing.ready at hr
  split_ifs at hr with hlt
  · exact h.below p hlt
  · exact hr

theorem isSome_below_succ {f : ℕ → Option ℕ} {n : ℕ} (h : ∀ i < n, (f i).isSome)
    (hn : (f n).isSome) : ∀ i < n + 1, (f i).isSome := by
  intro i hi
  rcases Nat.lt_succ_iff_lt_or_eq.mp hi with hlt | rfl
  · exact h i hlt
  · exact hn

theorem poolTryGet_go (h : PoolWf d s) {b : Bool} {p p' : GetPc}
    (hp : p.Ok d s.rings (s.workers w)) (hg : poolTryGet d s w b p = (s', .go p')) :
    s' = s ∧ p'.Ok d s.rings (s.workers w) := by
  cases p with
  | start =>
    simp only [poolTryGet] at hg
    split at hg
    · simp at hg
    · split_ifs at hg with hd hpend <;> simp only [Prod.mk.injEq, reduceCtorEq, and_false,
        GetNext.go.injEq] at hg
      obtain ⟨rfl, rfl⟩ := hg
      exact ⟨rfl, not_lt.mp hpend⟩
  | popLoad g =>
    simp only [poolTryGet, Prod.mk.injEq, GetNext.go.injEq] at hg
    obtain ⟨rfl, rfl⟩ := hg
    exact ⟨rfl, hp, fun i hi => absurd hi (Nat.not_lt_zero i)⟩
  | popSeq g pos n =>
    simp only [poolTryGet] at hg
    by_cases hr : (s.rings (d.shardAt (s.workers w) g)).ready b (pos + n) = true
    · rw [if_pos hr] at hg
      have hn := isSome_below_succ hp.2 ((h.ring _).ready hr)
      split_ifs at hg <;> simp only [Prod.mk.injEq, GetNext.go.injEq] at hg <;>
        obtain ⟨rfl, rfl⟩ := hg
      · exact ⟨rfl, hp.1, hn⟩
      · exact ⟨rfl, hp.1, n.succ_pos, hn⟩
    · rw [if_neg hr] at hg
      split_ifs at hg with hn hlast <;> simp only [Prod.mk.injEq, GetNext.go.injEq] at hg <;>
        obtain ⟨rfl, rfl⟩ := hg
      · exact ⟨rfl, hp.1⟩
      · exact ⟨rfl, hp.1⟩
      · exact ⟨rfl, hp.1, Nat.pos_of_ne_zero hn, hp.2⟩
  | popCas g pos n =>
    simp only [poolTryGet] at hg
    split_ifs at hg <;> simp only [Prod.mk.injEq, reduceCtorEq, and_false,
      GetNext.go.injEq] at hg
    obtain ⟨rfl, rfl⟩ := hg
    exact ⟨rfl, hp.1⟩
  | steal k =>
    simp only [poolTryGet] at hg
    split_ifs at hg <;> simp only [Prod.mk.injEq, reduceCtorEq, and_false,
      GetNext.go.injEq] at hg <;> obtain ⟨rfl, rfl⟩ := hg <;> exact ⟨rfl, hp⟩
  | lifo =>
    simp only [poolTryGet] at hg
    split at hg <;> simp at hg

theorem poolTryGet_nothing {b : Bool} {p : GetPc}
    (hg : poolTryGet d s w b p = (s', .nothing)) : s' = s := by
  cases p <;> simp only [poolTryGet] at hg <;> (try split at hg) <;> (try split_ifs at hg) <;>
    simp only [Prod.mk.injEq, reduceCtorEq, and_false, and_true] at hg
  exact hg.symm

/-- The batch of a pop comes from the published cells at `head`. -/
theorem TaskRing.Ok.advance {r : TaskRing} (h : r.Ok) {n : ℕ}
    (hn : ∀ i < n, (r.cell (r.head + i)).isSome) : { r with head := r.head + n }.Ok := by
  refine ⟨?_, fun p hp => ?_, h.above⟩
  · rcases Nat.eq_zero_or_pos n with rfl | hpos
    · exact h.head_le
    · have := h.lt_tail (hn (n - 1) (by omega))
      show r.head + n ≤ r.tail
      omega
  · rcases Nat.lt_or_ge p r.head with hlt | hge
    · exact h.below p hlt
    · have := hn (p - r.head) (by have : p < r.head + n := hp; omega)
      rwa [Nat.add_sub_cancel' hge] at this

theorem TaskRing.Ok.claim {r : TaskRing} (h : r.Ok) : { r with tail := r.tail + 1 }.Ok :=
  ⟨Nat.le_succ_of_le h.head_le, h.below, fun p hp => h.above p (Nat.le_of_succ_le hp)⟩

theorem TaskRing.Ok.publish {r : TaskRing} (h : r.Ok) {pos t : ℕ} (hlt : pos < r.tail) :
    { r with cell := Function.update r.cell pos (some t) }.Ok := by
  refine ⟨h.head_le, fun p hp => ?_, fun p hp => ?_⟩
  · by_cases hpp : p = pos
    · simp [hpp]
    · simpa only [Function.update_of_ne hpp] using h.below p hp
  · have hpp : p ≠ pos := fun he => by
      subst he
      exact absurd hlt (not_lt.mpr hp)
    simpa only [Function.update_of_ne hpp] using h.above p hp

theorem PoolWf.setRing (h : PoolWf d s) {j : ℕ} {r : TaskRing} (hr : r.Ok)
    (htail : (s.rings j).tail ≤ r.tail)
    (hgrow : ∀ p, ((s.rings j).cell p).isSome → (r.cell p).isSome)
    (hpub : ∀ c t pos, s.clients c = .submit t (.publish j pos) → r.cell pos = none) :
    PoolWf d (s.setRing j r) := by
  have hself : (s.setRing j r).rings j = r := by
    simp only [PoolState.setRing, Function.update_self]
  have hother : ∀ k, k ≠ j → (s.setRing j r).rings k = s.rings k := fun k hk => by
    simp only [PoolState.setRing, Function.update_of_ne hk]
  refine ⟨fun k => ?_, fun v => ?_, fun c t k pos hc => ?_, h.publish_inj, h.shard⟩
  · by_cases hk : k = j
    · rw [hk, hself]
      exact hr
    · rw [hother k hk]
      exact h.ring k
  · refine (h.worker v).mono (.refl _) fun k p hp => ?_
    by_cases hk : k = j
    · rw [hk] at hp ⊢
      rw [hself]
      exact hgrow p hp
    · rwa [hother k hk]
  · obtain ⟨hlt, hnone⟩ := h.publish c t k pos hc
    by_cases hk : k = j
    · subst hk
      rw [hself]
      exact ⟨by omega, hpub c t pos hc⟩
    · rw [hother k hk]
      exact ⟨hlt, hnone⟩

theorem PoolWf.steal (h : PoolWf d s) {v top : ℕ} (htop : top ≤ (s.workers v).deque.bottom) :
    PoolWf d (s.setWorker v
      { s.workers v with deque := { (s.workers v).deque with top := top } }) :=
  h.setWorker ((h.worker v).mono ⟨_, _, _, _, fun _ => htop, rfl⟩ fun _ _ => id)

/-- Whatever a worker makes of the task it has got, the rest of the pool is as it should be. -/
theorem poolTryGet_got (h : PoolWf d s) {b : Bool} {p : GetPc} {t : ℕ}
    (hp : p.Ok d s.rings (s.workers w)) (hg : poolTryGet d s w b p = (s', .got t))
    {x : PoolWorker} (hx : WorkerOk d s'.rings (s'.ctrs (d.ctrOf w)) x) :
    PoolWf d (s'.setWorker w x) := by
  cases p with
  | start =>
    simp only [poolTryGet] at hg
    split at hg
    · simp only [Prod.mk.injEq] at hg
      obtain ⟨rfl, -⟩ := hg
      rw [PoolState.setWorker_setWorker]
      exact h.setWorker hx
    · split_ifs at hg <;> simp only [Prod.mk.injEq, reduceCtorEq, and_false] at hg <;>
        obtain ⟨rfl, -⟩ := hg <;> rw [PoolState.setWorker_setWorker] <;> exact h.setWorker hx
  | popLoad g => simp [poolTryGet] at hg
  | popSeq g pos n =>
    simp only [poolTryGet] at hg
    split_ifs at hg <;> simp at hg
  | popCas g pos n =>
    simp only [poolTryGet] at hg
    split at hg <;> simp only [Prod.mk.injEq, reduceCtorEq, and_false] at hg
    rename_i hhead
    obtain ⟨rfl, -⟩ := hg
    subst hhead
    rw [PoolState.setWorker_setWorker]
    exact (h.setRing ((h.ring _).advance hp.2.2) le_rfl (fun _ => id)
      fun c t pos hc => (h.publish c t _ pos hc).2).setWorker hx
  | steal k =>
    simp only [poolTryGet] at hg
    split_ifs at hg with hv <;> simp only [Prod.mk.injEq, reduceCtorEq, and_false] at hg
    obtain ⟨rfl, -⟩ := hg
    rw [PoolState.setWorker_setWorker]
    exact (h.steal hv.2.1).setWorker hx
  | lifo =>
    simp only [poolTryGet] at hg
    split at hg <;> simp only [Prod.mk.injEq, reduceCtorEq, and_false] at hg
    obtain ⟨rfl, -⟩ := hg
    rw [PoolState.setWorker_setWorker]
    exact h.setWorker hx

@[simp] theorem GetPc.ok_setPc (rings : ℕ → TaskRing) (x : PoolWorker) (pc : WorkerPc) (p : GetPc) :
    p.Ok d rings { x with pc } ↔ p.Ok d rings x := by
  cases p <;> exact Iff.rfl

/-- `pool_try_get` leaves the flags and the control of its caller alone. -/
theorem poolTryGet_self {b : Bool} {p : GetPc} {r : GetNext} (hg : poolTryGet d s w b p = (s', r)) :
    (s'.workers w).frames = (s.workers w).frames ∧ (s'.workers w).pc = (s.workers w).pc ∧
      (s'.workers w).parked = (s.workers w).parked ∧
      (s'.workers w).signal = (s.workers w).signal := by
  have hs : s' = (poolTryGet d s w b p).1 := by rw [hg]
  subst hs
  cases p with
  | start =>
    simp only [poolTryGet]
    split
    · simp [PoolState.setWorker]
    · split_ifs <;> simp [PoolState.setWorker]
  | popLoad => exact ⟨rfl, rfl, rfl, rfl⟩
  | popSeq =>
    simp only [poolTryGet]
    split_ifs <;> exact ⟨rfl, rfl, rfl, rfl⟩
  | popCas g pos n =>
    simp only [poolTryGet]
    split <;> simp [PoolState.setWorker]
  | steal k =>
    simp only [poolTryGet]
    split
    · simp [PoolState.setWorker, Function.update_of_ne (Ne.symm (And.left ‹_›))]
    · exact ⟨rfl, rfl, rfl, rfl⟩
  | lifo =>
    simp only [poolTryGet]
    split <;> simp [PoolState.setWorker]

theorem poolTryGet_deque {b : Bool} {p : GetPc} {r : GetNext}
    (hd : (s.workers w).deque.top ≤ (s.workers w).deque.bottom)
    (hg : poolTryGet d s w b p = (s', r)) :
    (s'.workers w).deque.top ≤ (s'.workers w).deque.bottom := by
  have hs : s' = (poolTryGet d s w b p).1 := by rw [hg]
  subst hs
  cases p with
  | start =>
    simp only [poolTryGet]
    split
    · simpa [PoolState.setWorker] using hd
    · split_ifs
      · simp only [PoolState.setWorker, Function.update_self]
        omega
      · simpa [PoolState.setWorker] using hd
      · exact hd
  | popLoad => exact hd
  | popSeq =>
    simp only [poolTryGet]
    split_ifs <;> exact hd
  | popCas g pos n =>
    simp only [poolTryGet]
    split
    · simpa [PoolState.setWorker, PoolState.setRing] using hd
    · exact hd
  | steal k =>
    simp only [poolTryGet]
    split
    · rename_i hv
      simpa [PoolState.setWorker, Function.update_of_ne hv.1.symm] using hd
    · exact hd
  | lifo =>
    simp only [poolTryGet]
    split
    · simpa [PoolState.setWorker] using hd
    · exact hd

theorem PoolWf.found (h : PoolWf d s) {b : Bool} {p : GetPc} {t : ℕ} {site : GetSite}
    (hf : (s.workers w).frames = []) (hp : p.Ok d s.rings (s.workers w))
    (hg : poolTryGet d s w b p = (s', .got t)) : PoolWf d (s'.found w t site) := by
  have hf' : (s'.workers w).frames = [] := (poolTryGet_self hg).1.trans hf
  have hd := poolTryGet_deque (h.worker w).1 hg
  have hrun : PoolWf d (s'.run w t) := poolTryGet_got h hp hg (workerOk_run hd rfl rfl)
  have hpc : ∀ pc, WorkerPc.Ok d s'.rings { s'.workers w with pc } pc →
      PoolWf d (s'.setPc w pc) := fun pc hpc =>
    poolTryGet_got h hp hg (workerOk_of_pc hd hf' hpc)
  unfold PoolState.found
  split
  · split_ifs
    · exact hpc _ trivial
    · exact hrun
  · exact hpc _ trivial
  · exact hrun

theorem GetSite.missed_ok (rings : ℕ → TaskRing) (x : PoolWorker) (site : GetSite) (core : Bool)
    (ocioso : ℕ) : (site.missed core ocioso).Ok d rings x := by
  cases site <;> simp only [GetSite.missed] <;> (try split_ifs) <;> trivial

theorem Spin.leave_ok (rings : ℕ → TaskRing) (x : PoolWorker) (sp : Spin) :
    sp.leave.Ok d rings x := by
  unfold Spin.leave
  split_ifs <;> trivial

structure PoolState.Loop (s s' : PoolState ι) : Prop where
  stop : s'.stop = s.stop
  ctrs : s'.ctrs = s.ctrs
  clients : s'.clients = s.clients
  monitor : s'.monitor = s.monitor
  submitted : s'.submitted = s.submitted
  returned : s'.returned = s.returned
  finished : s'.finished = s.finished

theorem poolTryGet_loop (d : PoolDims) (s : PoolState ι) (w : ℕ) (b : Bool) (p : GetPc) :
    s.Loop (poolTryGet d s w b p).1 := by
  cases p <;> simp only [poolTryGet] <;> (try split) <;> (try split_ifs) <;>
    exact ⟨rfl, rfl, rfl, rfl, rfl, rfl, rfl⟩

theorem poolWakeSubmit_loop (d : PoolDims) (s : PoolState ι) (p : WakePc) :
    s.Loop (poolWakeSubmit d s p).1 := by
  cases p with
  | claim start j =>
    unfold poolWakeSubmit
    dsimp only
    split <;> exact ⟨rfl, rfl, rfl, rfl, rfl, rfl, rfl⟩
  | _ => exact ⟨rfl, rfl, rfl, rfl, rfl, rfl, rfl⟩

theorem PoolState.loop_found (s : PoolState ι) (w t : ℕ) (site : GetSite) :
    s.Loop (s.found w t site) := by
  unfold PoolState.found
  split
  · split_ifs <;> exact ⟨rfl, rfl, rfl, rfl, rfl, rfl, rfl⟩
  · exact ⟨rfl, rfl, rfl, rfl, rfl, rfl, rfl⟩
  · exact ⟨rfl, rfl, rfl, rfl, rfl, rfl, rfl⟩

theorem PoolState.Loop.setWorker (h : s.Loop s') (w : ℕ) (x : PoolWorker) :
    s.Loop (s'.setWorker w x) :=
  ⟨h.1, h.2, h.3, h.4, h.5, h.6, h.7⟩

theorem poolWorkerFn_loop {b : Bool} {p : WorkerPc} (hs : poolWorkerFn d s w b p = some s') :
    s.Loop s' := by
  cases p <;> simp only [poolWorkerFn, Option.some.injEq, reduceCtorEq] at hs
  case get site p =>
    have hl := poolTryGet_loop d s w b p
    split at hs <;> rename_i hg <;> rw [hg] at hl <;> subst hs
    · exact hl.setWorker w _
    · rename_i s₁ t
      have hf := s₁.loop_found w t site
      exact ⟨hf.1.trans hl.1, hf.2.trans hl.2, hf.3.trans hl.3, hf.4.trans hl.4, hf.5.trans hl.5,
        hf.6.trans hl.6, hf.7.trans hl.7⟩
    · exact hl.setWorker w _
  case giraWake t p =>
    have hl := poolWakeSubmit_loop d s p
    split at hs <;> rename_i hg <;> rw [hg] at hl <;> subst hs <;> exact hl.setWorker w _
  case giraFim sp t =>
    subst hs
    cases t <;> dsimp only <;> (try split_ifs) <;> exact ⟨rfl, rfl, rfl, rfl, rfl, rfl, rfl⟩
  case sleep =>
    split_ifs at hs
    cases hs
    exact ⟨rfl, rfl, rfl, rfl, rfl, rfl, rfl⟩
  case giraFila | elasticGiro =>
    subst hs
    split_ifs <;> exact ⟨rfl, rfl, rfl, rfl, rfl, rfl, rfl⟩
  all_goals
    subst hs
    exact ⟨rfl, rfl, rfl, rfl, rfl, rfl, rfl⟩

theorem poolWorkerFn_wf (h : PoolWf d s) {b : Bool} (hf : (s.workers w).frames = [])
    (hs : poolWorkerFn d s w b (s.workers w).pc = some s') : PoolWf d s' := by
  have hw := h.pc_ok hf
  have hgo : ∀ {s₁ : PoolState ι} {pc : WorkerPc}, s.Calm s₁ → (∀ rings x, pc.Ok d rings x) →
      PoolWf d (s₁.setPc w pc) := fun hc hpc =>
    (h.calm hc).setPc ((hc.kept w).frames.trans hf) (hpc ..)
  have hword : ∀ {n g : ℤ}, s.Calm { s with nParkedCore := n, nGirando := g } := fun {n g} =>
    ⟨fun _ => .refl _, fun _ => rfl, rfl, rfl, rfl, rfl, rfl, rfl⟩
  have hrefl := PoolState.Calm.refl s
  cases hpc : (s.workers w).pc <;> rw [hpc] at hs hw <;>
    simp only [poolWorkerFn, Option.some.injEq, reduceCtorEq] at hs
  case get site p =>
    split at hs <;> rename_i hg <;> subst hs
    · obtain ⟨rfl, hp⟩ := poolTryGet_go h hw hg
      exact h.setPc hf ((GetPc.ok_setPc ..).mpr hp)
    · exact h.found hf hw hg
    · rw [poolTryGet_nothing hg]
      exact hgo hrefl fun _ _ => GetSite.missed_ok ..
  case spinStop sp =>
    subst hs
    refine hgo hrefl fun _ _ => ?_
    cases sp.loop <;> dsimp only <;> split_ifs <;> first | exact Spin.leave_ok .. | trivial
  case giraFim sp t =>
    subst hs
    cases t with
    | none => exact hgo hword fun _ _ => by split_ifs <;> trivial
    | some t =>
      dsimp only
      split_ifs
      · exact hgo hword fun _ _ => trivial
      · exact (h.calm hword).run t
  case giraFila =>
    subst hs
    split_ifs
    · exact hgo hrefl fun _ _ => trivial
    · exact h.run _
  case giraWake t p =>
    have hc := poolWakeSubmit_calm d s p
    split at hs <;> rename_i hwake <;> rw [hwake] at hc <;> subst hs
    · exact hgo hc fun _ _ => trivial
    · exact (h.calm hc).run t
  case prepare | sleepClear | elasticPrepare =>
    subst hs
    exact hgo (s.calm_setSignal w false) fun _ _ => by (try split_ifs) <;> trivial
  case announce | elasticPark =>
    subst hs
    exact hgo (s.calm_setParked w true) fun _ _ => trivial
  case retract t =>
    subst hs
    exact (h.calm (s.calm_setParked w false)).run t
  case spinCount | announceCount | retractCount | wokenCount =>
    subst hs
    exact hgo hword fun _ _ => trivial
  case sleep =>
    split_ifs at hs
    cases hs
    exact hgo hrefl fun _ _ => trivial
  case woken =>
    subst hs
    exact h.setWorker (workerOk_of_pc (h.worker w).1 hf trivial)
  case elasticActive =>
    subst hs
    split_ifs <;> exact h.setWorker (workerOk_of_pc (h.worker w).1 hf trivial)
  case elasticGiro =>
    subst hs
    split_ifs
    · exact hgo hrefl fun _ _ => trivial
    all_goals exact h.setWorker (workerOk_of_pc (h.worker w).1 hf trivial)
  all_goals
    subst hs
    exact hgo hrefl fun _ _ => by (try split_ifs) <;> trivial

theorem workerOk_cons {rings : ℕ → TaskRing} {ctr : ℤ} {x : PoolWorker} {f : Frame}
    {rest : List Frame} (hd : x.deque.top ≤ x.deque.bottom) (hx : x.frames = f :: rest)
    (hpc : x.pc = .run) (hf : f.pc.Ok ctr)
    (hrest : ∀ f ∈ rest, ∃ u, f.pc = .nested u) : WorkerOk d rings ctr x := by
  refine ⟨hd, ?_⟩
  rw [hx]
  exact ⟨hpc, hf, hrest⟩

/-- Counters of other workers and of the shards do not matter to worker `w`. -/
theorem PoolWf.setCtr (h : PoolWf d s) {c : ℤ} {fin : List ℕ} {x : PoolWorker}
    (hx : WorkerOk d s.rings c x) :
    PoolWf d ({ s with ctrs := Function.update s.ctrs (d.ctrOf w) c, finished := fin }.setWorker
      w x) := by
  refine ⟨h.ring, fun v => ?_, h.publish, h.publish_inj, h.shard⟩
  by_cases hv : v = w
  · subst hv
    simpa only [PoolState.setWorker, Function.update_self] using hx
  · have hne : d.ctrOf v ≠ d.ctrOf w := fun he => hv (Nat.add_left_cancel he)
    simpa only [PoolState.setWorker, Function.update_of_ne hv, Function.update_of_ne hne] using
      h.worker v

theorem PoolWf.answer (h : PoolWf d s) (t : ℕ) (ok : Bool) : PoolWf d (s.answer t ok) :=
  ⟨h.ring, h.worker, h.publish, h.publish_inj, h.shard⟩

theorem poolRun_wf (h : PoolWf d s) {t : ℕ} {p : FramePc} {rest : List Frame}
    (hf : (s.workers w).frames = ⟨t, p⟩ :: rest) (hs : poolRun d s w t rest p = some s') :
    PoolWf d s' := by
  obtain ⟨hpc, hp, hrest⟩ := h.frames_ok hf
  have hd := (h.worker w).1
  have hgo : ∀ {s₁ : PoolState ι} {q : FramePc}, PoolWf d s₁ → (s₁.workers w).pc = .run →
      (∀ c, q.Ok c) → PoolWf d (s₁.setFrames w (⟨t, q⟩ :: rest)) := fun h₁ hpc₁ hq =>
    h₁.setWorker (workerOk_cons (h₁.worker w).1 rfl hpc₁ (hq _) hrest)
  cases p <;> simp only [poolRun, Option.some.injEq, reduceCtorEq] at hs
  case enter | count | leave =>
    subst hs
    exact h.setWorker (workerOk_cons hd rfl hpc trivial hrest)
  case stopTest u =>
    subst hs
    split_ifs
    · exact hgo (h.answer u false) hpc fun _ => trivial
    · exact hgo h hpc fun _ => trivial
  case inc u =>
    subst hs
    exact h.setCtr (workerOk_cons hd rfl hpc trivial hrest)
  case place u =>
    subst hs
    split
    · exact (h.answer u true).setWorker (workerOk_cons hd rfl hpc trivial hrest)
    · split_ifs
      · refine h.setWorker (workerOk_cons hd rfl hpc trivial ?_)
        rintro f (_ | ⟨_, hf⟩)
        · exact ⟨u, rfl⟩
        · exact hrest f hf
      · exact h.setWorker (workerOk_cons (Nat.le_succ_of_le hd) rfl hpc trivial hrest)
  case wake u q =>
    have hc := poolWakeSubmit_calm d s q
    have hpc' := (hc.kept w).pc.trans hpc
    split at hs <;> rename_i hwake <;> rw [hwake] at hc hpc' <;> subst hs
    · exact hgo (h.calm hc) hpc' fun _ => trivial
    · exact hgo ((h.calm hc).answer u true) hpc' fun _ => trivial
  case ctrLoad =>
    subst hs
    exact h.setWorker (workerOk_cons hd rfl hpc rfl hrest)
  case ctrStore v =>
    subst hs
    split
    · refine (h.answer _ true).setCtr (workerOk_cons hd rfl hpc trivial fun f hf => ?_)
      exact hrest f (List.mem_cons_of_mem _ hf)
    · refine h.setCtr (workerOk_of_pc ?_ ?_ ?_) <;> unfold PoolDims.nextTurn <;> split_ifs <;>
        first | exact hd | trivial

def ClientPc.Ok (d : PoolDims) (s : PoolState ι) (c : ι) : ClientPc → Prop
  | .submit _ (.publish j pos) => j < d.nShards ∧ pos < (s.rings j).tail ∧
    (s.rings j).cell pos = none ∧
    ∀ c' t', c' ≠ c → s.clients c' ≠ .submit t' (.publish j pos)
  | .submit _ p => ∀ j, p.shard = some j → j < d.nShards
  | _ => True

theorem ClientPc.Ok.shard {c : ι} {t j : ℕ} {p : SubmitPc} (h : (ClientPc.submit t p).Ok d s c)
    (hp : p.shard = some j) : j < d.nShards := by
  cases p with
  | publish j' pos =>
    cases hp
    exact h.1
  | _ => exact h j hp

theorem PoolWf.addShardCtr (h : PoolWf d s) {j : ℕ} (hj : j < d.nShards) (v : ℤ) :
    PoolWf d (s.addCtr j v) := by
  refine ⟨h.ring, fun w => ?_, h.publish, h.publish_inj, h.shard⟩
  have hne : d.ctrOf w ≠ j := by
    unfold PoolDims.ctrOf
    omega
  simpa only [PoolState.addCtr, Function.update_of_ne hne] using h.worker w

section Client

variable [DecidableEq ι]

theorem PoolWf.setClient (h : PoolWf d s) {c : ι} {p : ClientPc} (hp : p.Ok d s c) :
    PoolWf d (s.setClient c p) := by
  have hcl : ∀ c' q, (s.setClient c p).clients c' = q → (c' = c ∧ p = q) ∨
      (c' ≠ c ∧ s.clients c' = q) := by
    intro c' q hq
    by_cases hc : c' = c
    · subst hc
      simp only [PoolState.setClient, Function.update_self] at hq
      exact .inl ⟨rfl, hq⟩
    · simp only [PoolState.setClient, Function.update_of_ne hc] at hq
      exact .inr ⟨hc, hq⟩
  refine ⟨h.ring, h.worker, fun c' t j pos hc' => ?_, fun c₁ c₂ t₁ t₂ j pos h₁ h₂ => ?_,
    fun c' t q j hc' hq => ?_⟩
  · rcases hcl _ _ hc' with ⟨-, rfl⟩ | ⟨-, hq⟩
    · exact ⟨hp.2.1, hp.2.2.1⟩
    · exact h.publish c' t j pos hq
  · rcases hcl _ _ h₁ with ⟨rfl, hq₁⟩ | ⟨hne₁, hq₁⟩ <;>
      rcases hcl _ _ h₂ with ⟨rfl, hq₂⟩ | ⟨hne₂, hq₂⟩
    · rfl
    · subst hq₁
      exact absurd hq₂ (hp.2.2.2 c₂ t₂ hne₂)
    · subst hq₂
      exact absurd hq₁ (hp.2.2.2 c₁ t₁ hne₁)
    · exact h.publish_inj c₁ c₂ t₁ t₂ j pos hq₁ hq₂
  · rcases hcl _ _ hc' with ⟨-, rfl⟩ | ⟨-, hc⟩
    · exact hp.shard hq
    · exact h.shard c' t q j hc hq

theorem poolSubmitRelative_wf (h : PoolWf d s) {c : ι} {t : ℕ} {b : Bool} {p : SubmitPc}
    (hc : s.clients c = .submit t p) : PoolWf d (poolSubmitRelative d s c t b p) := by
  have hshard : ∀ {j}, p.shard = some j → j < d.nShards := fun hj => h.shard c t p _ hc hj
  cases p <;> simp only [poolSubmitRelative]
  case stopTest | retry =>
    split_ifs
    · exact (h.answer t false).setClient trivial
    · exact h.setClient fun j hj => nomatch hj
  case pick =>
    have h₁ : PoolWf d { s with submitRr := incU32 s.submitRr } := h.of_eq rfl rfl rfl rfl
    refine h₁.setClient ?_
    rintro j ⟨⟩
    exact Nat.mod_lt _ d.shards_pos
  case inc j =>
    refine (h.addShardCtr (hshard rfl) 1).setClient ?_
    rintro j ⟨⟩
    exact hshard rfl
  case pushLoad j =>
    apply h.setClient
    rintro j ⟨⟩
    exact hshard rfl
  case pushSeq j pos =>
    apply h.setClient
    split_ifs <;> rintro j ⟨⟩ <;> exact hshard rfl
  case pushCas j pos =>
    split_ifs with htail
    · subst htail
      have hr := h.ring j
      refine (h.setRing hr.claim (Nat.le_succ _) (fun _ => id)
        fun c t pos hc => (h.publish c t j pos hc).2).setClient ?_
      refine ⟨hshard rfl, ?_, ?_, fun c' t' _ hc' => ?_⟩
      · simp [PoolState.setRing]
      · simpa [PoolState.setRing] using hr.above _ le_rfl
      · exact absurd (h.publish c' t' j _ hc').1 (lt_irrefl _)
    · apply h.setClient
      rintro j ⟨⟩
      exact hshard rfl
  case publish j pos =>
    obtain ⟨hlt, hnone⟩ := h.publish c t j pos hc
    have h₁ : PoolWf d (s.setClient c (.submit t (.wake (.parked (.ring j))))) :=
      h.setClient fun j hj => nomatch hj
    refine h₁.setRing ((h.ring j).publish hlt) le_rfl (fun p hp => ?_) fun c' t' pos' hc' => ?_
    · by_cases hpp : p = pos
      · simp [hpp]
      · have hp' : ((s.rings j).cell p).isSome := hp
        simpa only [Function.update_of_ne hpp] using hp'
    · have hcc : c' ≠ c := fun he => by simp [he, PoolState.setClient] at hc'
      have hc'' : s.clients c' = .submit t' (.publish j pos') := by
        simpa only [PoolState.setClient, Function.update_of_ne hcc] using hc'
      have hpp : pos' ≠ pos := fun he => by
        subst he
        exact hcc (h.publish_inj c' c t' t j pos' hc'' hc)
      simpa only [Function.update_of_ne hpp] using (h.publish c' t' j pos' hc'').2
  case undo j =>
    refine (h.addShardCtr (hshard rfl) (-1)).setClient fun j hj => nomatch hj
  case wake q =>
    have hcalm := poolWakeSubmit_calm d s q
    split <;> rename_i hwake <;> rw [hwake] at hcalm
    all_goals exact (h.calm hcalm).setClient fun j hj => nomatch hj
  case mon =>
    split_ifs
    · exact h.setClient fun j hj => nomatch hj
    · exact (h.answer t true).setClient trivial
  case monClaim =>
    have h₁ : PoolWf d { s with monDormindo := false } := h.of_eq rfl rfl rfl rfl
    split_ifs
    · exact h₁.setClient fun j hj => nomatch hj
    · exact (h.answer t true).setClient trivial
  case monSignal =>
    have h₁ : PoolWf d { s with monSignal := true } := h.of_eq rfl rfl rfl rfl
    exact (h₁.answer t true).setClient trivial

theorem poolClient_wf (h : PoolWf d s) {c : ι} {b : Bool}
    (hs : poolClient d s c b (s.clients c) = some s') : PoolWf d s' := by
  have hgo : ∀ {s₁ : PoolState ι} {q : ClientPc}, s.Calm s₁ → (∀ s₂ : PoolState ι, q.Ok d s₂ c) →
      PoolWf d (s₁.setClient c q) := fun hc hq => (h.calm hc).setClient (hq _)
  have hrefl := PoolState.Calm.refl s
  cases hc : s.clients c <;> rw [hc] at hs <;>
    simp only [poolClient, Option.some.injEq, reduceCtorEq] at hs
  case submit t p =>
    subst hs
    exact poolSubmitRelative_wf h hc
  case waitIdle i sum | destroyWait i sum =>
    subst hs
    refine hgo hrefl fun _ => ?_
    split
    · trivial
    · split_ifs <;> trivial
  case joinMon =>
    split at hs
    · cases hs
      exact hgo hrefl fun _ => by split_ifs <;> trivial
    · simp at hs
  case joinWorker =>
    split at hs
    · cases hs
      exact hgo hrefl fun _ => by split_ifs <;> trivial
    · simp at hs
  case wakeWorker i =>
    subst hs
    exact hgo (s.calm_setSignal i true) fun _ => trivial
  case vigiaSignal n i =>
    subst hs
    exact hgo (s.calm_setSignal i true) fun _ => by split_ifs <;> trivial
  case vigiaClaim n i =>
    subst hs
    split_ifs
    · exact hgo (s.calm_setParked i false) fun _ => trivial
    all_goals exact hgo hrefl fun _ => trivial
  case perfilMon =>
    subst hs
    split_ifs
    · refine PoolWf.setClient ?_ trivial
      exact h.of_eq rfl rfl rfl rfl
    · exact hgo hrefl fun _ => trivial
  all_goals
    subst hs
    refine PoolWf.setClient ?_ ?_
    · exact h.of_eq rfl rfl rfl rfl
    · (try split_ifs) <;> trivial

end Client

theorem poolMonitorFn_wf (h : PoolWf d s) (hs : poolMonitorFn d s s.monitor = some s') :
    PoolWf d s' := by
  cases hm : s.monitor <;> rw [hm] at hs <;>
    simp only [poolMonitorFn, Option.some.injEq, reduceCtorEq] at hs
  case sleep =>
    split_ifs at hs
    cases hs
    exact h.of_eq rfl rfl rfl rfl
  case stuckTask i stuck count =>
    subst hs
    have h₁ : PoolWf d (s.setWorker i { s.workers i with monLast := count }) :=
      h.setWorker ((h.worker i).mono ⟨_, _, _, _, id, rfl⟩ fun _ _ => id)
    exact h₁.of_eq rfl rfl rfl rfl
  case claim e toWake =>
    subst hs
    split_ifs
    · exact (h.calm (s.calm_setParked e false)).of_eq rfl rfl rfl rfl
    · exact h.of_eq rfl rfl rfl rfl
  case signal e toWake =>
    subst hs
    exact (h.calm (s.calm_setSignal e true)).of_eq rfl rfl rfl rfl
  all_goals
    subst hs
    exact h.of_eq rfl rfl rfl rfl

theorem poolStep_wf [DecidableEq ι] (h : PoolWf d s) {l : PoolLabel ι}
    (hs : poolStep d s l = some s') : PoolWf d s' := by
  cases l with
  | call c k =>
    simp only [poolStep] at hs
    split at hs <;> simp only [Option.some.injEq, reduceCtorEq] at hs
    subst hs
    cases k with
    | giroMaxUs us => exact h.of_eq rfl rfl rfl rfl
    | submit =>
      refine PoolWf.setClient ?_ fun j hj => nomatch hj
      exact h.of_eq rfl rfl rfl rfl
    | _ => exact h.setClient trivial
  | client c b => exact poolClient_wf h hs
  | worker w b =>
    simp only [poolStep] at hs
    split_ifs at hs
    split at hs
    · exact poolWorkerFn_wf h ‹_› hs
    · exact poolRun_wf h ‹_› hs
  | spawn w =>
    simp only [poolStep] at hs
    split at hs <;> simp only [Option.some.injEq, reduceCtorEq] at hs
    rename_i t rest hf
    subst hs
    obtain ⟨hpc, -, hrest⟩ := h.frames_ok hf
    refine PoolWf.setWorker ?_ (workerOk_cons (h.worker w).1 rfl hpc trivial hrest)
    exact h.of_eq rfl rfl rfl rfl
  | finish w =>
    simp only [poolStep] at hs
    split at hs <;> simp only [Option.some.injEq, reduceCtorEq] at hs
    rename_i t rest hf
    subst hs
    obtain ⟨hpc, -, hrest⟩ := h.frames_ok hf
    exact h.setWorker (workerOk_cons (h.worker w).1 rfl hpc trivial hrest)
  | lapse w clear woken =>
    simp only [poolStep] at hs
    split at hs <;> simp only [Option.some.injEq, reduceCtorEq] at hs
    rename_i eco hpc
    subst hs
    have hf : (s.workers w).frames = [] := by
      cases hfr : (s.workers w).frames with
      | nil => rfl
      | cons f rest => simpa [hpc] using (h.frames_ok hfr).1
    apply h.setPc hf
    split_ifs <;> trivial
  | monitor => exact poolMonitorFn_wf h hs
  | monitorLapse clear =>
    simp only [poolStep] at hs
    split at hs <;> simp only [Option.some.injEq, reduceCtorEq] at hs
    subst hs
    exact h.of_eq rfl rfl rfl rfl

theorem poolCreateRelative_wf (d : PoolDims) : PoolWf d (poolCreateRelative d : PoolState ι) := by
  refine ⟨fun j => ⟨le_rfl, fun p hp => absurd hp (Nat.not_lt_zero p), fun _ _ => rfl⟩,
    fun w => ?_, ?_, ?_, ?_⟩
  · apply workerOk_of_pc le_rfl rfl
    simp only [poolCreateRelative]
    split_ifs <;> trivial
  all_goals simp [poolCreateRelative]

theorem poolSystem_wf [DecidableEq ι] (hr : (poolSystem d).Reachable s) : PoolWf d s := by
  refine System.Reachable.invariant (fun s₀ hi => ?_) (fun s₀ l s₁ h hs => ?_) hr
  · obtain rfl : s₀ = poolCreateRelative d := hi
    exact poolCreateRelative_wf d
  · exact poolStep_wf h hs

end Xplatbase.ThreadPool
