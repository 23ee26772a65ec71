import Xplatbase.ThreadPool.PoolPark

/-! The pool never sleeps over queued work. A worker looks at a shard if it will read the shard's
head again before it blocks; a published task has such a worker, or a submit that has yet to
wake one. -/
namespace Xplatbase.ThreadPool
open Xplatbase.Lib

variable {ι : Type*} {d : PoolDims} {s s' : PoolState ι} {v w j head : ℕ}

/-! ### Who looks -/

/-- The scan at this point has yet to read the head `head` of shard `j`. -/
def GetPc.Ahead (d : PoolDims) (x : PoolWorker) (j head : ℕ) : GetPc → Prop
  | .start => True
  | .popLoad g | .popCas g _ _ => ∃ k, g ≤ k ∧ k < d.nShards ∧ d.shardAt x k = j
  | .popSeq g pos n =>
    ∃ k, g ≤ k ∧ k < d.nShards ∧ d.shardAt x k = j ∧ (k = g → n ≠ 0 ∨ pos = head)
  | .steal _ | .lifo => False

def GetSite.last (core : Bool) : GetSite → Bool
  | .announced | .elastic => true
  | .prepared => !core
  | _ => false

def WorkerPc.Looks (d : PoolDims) (w : ℕ) (x : PoolWorker) (j head : ℕ) : WorkerPc → Prop
  | .get site p => site.last (d.isCore w) = false ∨ p.Ahead d x j head
  | .parkTest => d.isCore w
  | .sleepClear _ _ => d.isElastic w = false
  | .perfil | .sleep _ | .elasticStop | .elasticPark | .elasticPrepare | .elasticParked
  | .elasticWoken | .elasticActive | .elasticGiro | .exited => False
  | _ => True

def PoolWorker.Looks (d : PoolDims) (w : ℕ) (x : PoolWorker) (j head : ℕ) : Prop :=
  x.frames ≠ [] ∨ d.isCore w = true ∧ x.parked = false ∨ x.pc.Looks d w x j head

def TaskRing.waiting (r : TaskRing) : Prop := (r.cell r.head).isSome = true

theorem GetPc.Ahead.of_cursor {x x' : PoolWorker} {p : GetPc} (h : p.Ahead d x j head)
    (hx : x'.shardCursor = x.shardCursor) : p.Ahead d x' j head := by
  cases p <;> simp only [GetPc.Ahead, PoolDims.shardAt, hx] at h ⊢ <;> exact h

theorem PoolWorker.Nudged.looks {x x' : PoolWorker} (hn : x.Nudged x')
    (h : x.Looks d w j head) : x'.Looks d w j head := by
  obtain ⟨_, _, _, _, -, hp, -, rfl⟩ := hn
  rcases h with hf | ⟨hc, hpark⟩ | hpc
  · exact .inl hf
  · exact .inr (.inl ⟨hc, Bool.eq_false_iff.mpr fun h => by simp [hp h] at hpark⟩)
  · refine .inr (.inr ?_)
    dsimp only
    cases hx : x.pc <;> rw [hx] at hpc
    case get => exact hpc.imp id fun h => h.of_cursor rfl
    all_goals exact hpc

theorem exists_shardAt (d : PoolDims) (x : PoolWorker) (hj : j < d.nShards) :
    ∃ k, k < d.nShards ∧ d.shardAt x k = j := by
  have hpos := d.shards_pos
  have hc := Nat.mod_lt x.shardCursor hpos
  by_cases hle : x.shardCursor % d.nShards ≤ j
  · refine ⟨j - x.shardCursor % d.nShards, by omega, ?_⟩
    rw [PoolDims.shardAt, Nat.add_mod, Nat.mod_eq_of_lt (a := j - _) (by omega),
      Nat.add_sub_cancel' hle, Nat.mod_eq_of_lt hj]
  · refine ⟨j + d.nShards - x.shardCursor % d.nShards, by omega, ?_⟩
    rw [PoolDims.shardAt, Nat.add_mod, Nat.mod_eq_of_lt (a := j + _ - _) (by omega),
      Nat.add_sub_cancel' (by omega), Nat.add_mod_right, Nat.mod_eq_of_lt hj]

/-- A scan does not pass a shard with a task at the head that it has read. -/
theorem poolTryGet_ahead {b : Bool} {p p' : GetPc} (hj : j < d.nShards)
    (hwait : (s.rings j).waiting) (h : p.Ahead d (s.workers w) j (s.rings j).head)
    (hg : poolTryGet d s w b p = (s', .go p')) :
    p'.Ahead d (s.workers w) j (s.rings j).head := by
  cases p with
  | start =>
    simp only [poolTryGet] at hg
    split at hg
    · simp at hg
    · split_ifs at hg <;> simp only [Prod.mk.injEq, reduceCtorEq, and_false,
        GetNext.go.injEq] at hg
      obtain ⟨-, rfl⟩ := hg
      obtain ⟨k, hk, hkj⟩ := exists_shardAt d (s.workers w) hj
      exact ⟨k, Nat.zero_le k, hk, hkj⟩
  | popLoad g =>
    simp only [poolTryGet, Prod.mk.injEq, GetNext.go.injEq] at hg
    obtain ⟨-, rfl⟩ := hg
    obtain ⟨k, hgk, hk, hkj⟩ := h
    exact ⟨k, hgk, hk, hkj, fun he => .inr (by rw [← he, hkj])⟩
  | popSeq g pos n =>
    obtain ⟨k, hgk, hk, hkj, hhead⟩ := h
    simp only [poolTryGet] at hg
    split_ifs at hg with hready hlt hn hlast <;>
      simp only [Prod.mk.injEq, GetNext.go.injEq] at hg <;> obtain ⟨-, rfl⟩ := hg
    · exact ⟨k, hgk, hk, hkj, fun _ => .inl n.succ_ne_zero⟩
    · exact ⟨k, hgk, hk, hkj⟩
    all_goals try exact ⟨k, hgk, hk, hkj⟩
    all_goals
      have hne : k ≠ g := fun he => by
        have hpos := (hhead he).resolve_left (not_not_intro hn)
        subst he hn
        rw [hkj] at hready
        simp [TaskRing.ready, hpos] at hready
        simp [TaskRing.waiting, hready] at hwait
    · exact ⟨k, by omega, hk, hkj⟩
    · exact absurd hk (by omega)
  | popCas g pos n =>
    simp only [poolTryGet] at hg
    split_ifs at hg <;> simp only [Prod.mk.injEq, reduceCtorEq, and_false,
      GetNext.go.injEq] at hg
    obtain ⟨-, rfl⟩ := hg
    exact h
  | steal k => cases h
  | lifo => cases h

theorem looks_found {s₁ : PoolState ι} {t : ℕ} {site : GetSite} :
    ((s₁.found w t site).workers w).Looks d w j head := by
  have hpc : ∀ (x : PoolWorker) (p : WorkerPc), p.Looks d w { x with pc := p } j head →
      ({ x with pc := p } : PoolWorker).Looks d w j head := fun _ _ h => .inr (.inr h)
  unfold PoolState.found
  split
  · split_ifs
    · rw [PoolState.setPc_self]
      exact hpc _ _ trivial
    · rw [PoolState.run_self]
      exact .inl nofun
  · rw [PoolState.setPc_self]
    exact hpc _ _ trivial
  · rw [PoolState.run_self]
    exact .inl nofun

theorem poolTryGet_lifo {b : Bool} {p : GetPc} (hg : poolTryGet d s w b p = (s', .nothing)) :
    p = .lifo := by
  cases p <;> simp only [poolTryGet] at hg <;> (try split at hg) <;> (try split_ifs at hg) <;>
    simp only [Prod.mk.injEq, reduceCtorEq, and_false] at hg
  rfl

/-- The scan found nothing, and it was not the last one before the worker blocks. -/
theorem looks_missed {site : GetSite} {p : GetPc} (x : PoolWorker) (ocioso : ℕ)
    (hk : (WorkerPc.get site p).Kind d w) (h : site.last (d.isCore w) = false) :
    (site.missed (d.isCore w) ocioso).Looks d w x j head := by
  cases site <;> simp only [GetSite.missed]
  case announced | elastic => cases h
  case loop => split_ifs <;> trivial
  case prepared =>
    have hcore : d.isCore w = true := by simpa [GetSite.last] using h
    split_ifs
    · trivial
    · exact hcore
  all_goals trivial

theorem Spin.leave_looks (hc : d.isCore w = true) (x : PoolWorker) (sp : Spin) :
    sp.leave.Looks d w x j head := by
  unfold Spin.leave
  split_ifs
  · trivial
  · exact .inr trivial
  · exact hc

/-- A step of a worker outside its tasks leaves the rings alone and does not pass a task, or it
finds one. -/
theorem poolWorkerFn_looks {b : Bool} (hwf : PoolWf d s) (hk : (s.workers w).pc.Kind d w)
    (hstop : s.stop = false) (hf : (s.workers w).frames = [])
    (hs : poolWorkerFn d s w b (s.workers w).pc = some s') :
    (s'.rings = s.rings ∧ ∀ j < d.nShards, (s.rings j).waiting →
      (s.workers w).Looks d w j (s.rings j).head → (s'.workers w).Looks d w j (s.rings j).head) ∨
    ∀ j head, (s'.workers w).Looks d w j head := by
  have hok := hwf.pc_ok hf
  have hlook : ∀ {s₁ : PoolState ι} {x : PoolWorker}, s₁.rings = s.rings →
      (∀ j head, x.pc.Looks d w x j head) →
      ((s₁.setWorker w x).rings = s.rings ∧ ∀ j < d.nShards, (s.rings j).waiting →
        (s.workers w).Looks d w j (s.rings j).head →
          ((s₁.setWorker w x).workers w).Looks d w j (s.rings j).head) ∨
      ∀ j head, ((s₁.setWorker w x).workers w).Looks d w j head := fun hr hx => by
    refine .inl ⟨hr, fun j _ _ _ => ?_⟩
    rw [PoolState.setWorker_self]
    exact .inr (.inr (hx j _))
  have hkeep : ∀ {s₁ : PoolState ι} {x : PoolWorker}, s₁.rings = s.rings →
      (d.isCore w = true → x.parked = (s.workers w).parked) →
      (∀ j head, (s.workers w).pc.Looks d w (s.workers w) j head → x.pc.Looks d w x j head) →
      ((s₁.setWorker w x).rings = s.rings ∧ ∀ j < d.nShards, (s.rings j).waiting →
        (s.workers w).Looks d w j (s.rings j).head →
          ((s₁.setWorker w x).workers w).Looks d w j (s.rings j).head) ∨
      ∀ j head, ((s₁.setWorker w x).workers w).Looks d w j head := fun hr hp hx => by
    refine .inl ⟨hr, fun j _ _ h => ?_⟩
    rw [PoolState.setWorker_self]
    rcases h with h | ⟨hc, h⟩ | h
    · exact absurd hf h
    · exact .inr (.inl ⟨hc, (hp hc).trans h⟩)
    · exact .inr (.inr (hx j _ h))
  cases hpc : (s.workers w).pc <;> rw [hpc] at hs hk hok hkeep <;>
    simp only [poolWorkerFn, Option.some.injEq, reduceCtorEq] at hs
  case get site p =>
    split at hs <;> rename_i hg <;> subst hs
    · obtain ⟨rfl, -⟩ := poolTryGet_go hwf hok hg
      refine .inl ⟨rfl, fun j hj hwait h => ?_⟩
      rw [PoolState.setPc_self]
      rcases h with h | h | h
      · exact absurd hf h
      · exact .inr (.inl h)
      · rw [hpc] at h
        refine .inr (.inr (h.imp id fun h => ?_))
        exact (poolTryGet_ahead hj hwait h hg).of_cursor rfl
    · exact .inr fun _ _ => looks_found
    · obtain rfl := poolTryGet_nothing hg
      obtain rfl := poolTryGet_lifo hg
      refine .inl ⟨rfl, fun j hj hwait h => ?_⟩
      rw [PoolState.setPc_self]
      rcases h with h | h | h
      · exact absurd hf h
      · exact .inr (.inl h)
      · rw [hpc] at h
        exact .inr (.inr (looks_missed _ _ hk (h.resolve_right id)))
  case giraWake t p =>
    have hr := (poolWakeSubmit_calm d s p).rings
    split at hs <;> rename_i hg <;> rw [hg] at hr <;> subst hs <;>
      exact hlook hr fun _ _ => trivial
  case sleep =>
    split_ifs at hs
    cases hs
    cases hc : d.isCore w
    · exact hkeep rfl (fun h => by simp [hc] at h) fun _ _ => False.elim
    · exact hlook rfl fun _ _ => d.not_elastic_of_core hc
  case giraFim sp t =>
    subst hs
    have hcore : d.isCore w = true := hk
    cases t <;> dsimp only <;> split_ifs
    · exact hlook rfl fun _ _ => .inr trivial
    · exact hlook rfl fun _ _ => hcore
    all_goals exact hlook rfl fun _ _ => trivial
  case spinStop sp =>
    subst hs
    have hcore : d.isCore w = true := hk
    refine hlook rfl fun j head => ?_
    cases sp.loop <;> dsimp only <;> split_ifs <;> first
      | exact sp.leave_looks hcore _
      | exact .inr trivial
  case stopTest =>
    subst hs
    rw [if_neg (by simp [hstop])]
    exact hlook rfl fun _ _ => .inr trivial
  case elasticLoop =>
    subst hs
    rw [if_neg (by simp [hstop])]
    exact hlook rfl fun _ _ => .inr trivial
  all_goals subst hs
  case parkTest =>
    rw [if_neg (by simp [hstop])]
    split_ifs with hc
    · exact hlook rfl fun _ _ => trivial
    · exact hkeep rfl (fun h => absurd h hc) fun _ _ h => absurd h hc
  case vigiaTest | vigiaStop | spinStart | sleep0Stop =>
    have hcore : d.isCore w = true := hk
    split_ifs <;> first
      | exact hlook rfl fun _ _ => .inr trivial
      | exact hlook rfl fun _ _ => hcore
      | exact hlook rfl fun _ _ => trivial
  case prepare | spinCount | announceCount => exact hlook rfl fun _ _ => .inr trivial
  case perfil => exact hkeep rfl (fun _ => rfl) fun _ _ => False.elim
  case sleepClear eco woken =>
    split_ifs with hel hc
    · exact hkeep rfl (fun h => absurd hel (by simp [d.not_elastic_of_core h])) fun _ _ h =>
        absurd hel (by simp [show d.isElastic w = false from h])
    · exact hlook rfl fun _ _ => trivial
    · exact hlook rfl fun _ _ => trivial
  case giraFila | giraHead | announce | retractCount | retract | wokenCount | woken =>
    (try split_ifs) <;> exact hlook rfl fun _ _ => trivial
  all_goals
    have hcore := d.not_core_of_elastic hk
    (try split_ifs) <;>
      exact hkeep rfl (fun h => absurd h (by simp [hcore])) fun _ _ => False.elim

theorem poolRun_looks {t : ℕ} {p : FramePc} {rest : List Frame}
    (hs : poolRun d s w t rest p = some s') : (s'.workers w).Looks d w j head := by
  cases p <;> simp only [poolRun, Option.some.injEq, reduceCtorEq] at hs
  case place u =>
    subst hs
    split
    · exact .inl (by rw [PoolState.setWorker_self]; intro h; cases h)
    · split_ifs <;> exact .inl (by rw [PoolState.setWorker_self]; intro h; cases h)
  case wake u q =>
    split at hs <;> subst hs <;>
      exact .inl (by rw [PoolState.setFrames, PoolState.setWorker_self]; intro h; cases h)
  case stopTest =>
    subst hs
    split <;> exact .inl (by rw [PoolState.setFrames, PoolState.setWorker_self]; intro h; cases h)
  case ctrStore =>
    subst hs
    split
    · exact .inl (by rw [PoolState.setFrames, PoolState.setWorker_self]; intro h; cases h)
    · refine .inr (.inr ?_)
      rw [PoolState.setWorker_self]
      unfold PoolDims.nextTurn
      split_ifs <;> trivial
  case inc | ctrLoad =>
    subst hs
    exact .inl (by rw [PoolState.setFrames, PoolState.setWorker_self]; intro h; cases h)
  all_goals
    subst hs
    exact .inl (by rw [PoolState.setWorker_self]; intro h; cases h)

/-- A core that has not announced that it sleeps looks. -/
theorem looks_of_core (x : PoolWorker) (hk : x.pc.Kind d w) (hc : d.isCore w = true)
    (hann : x.pc.announced = false) (halive : x.pc ≠ .exited) : x.Looks d w j head := by
  have hel := d.not_elastic_of_core hc
  refine .inr (.inr ?_)
  cases hpc : x.pc <;> rw [hpc] at hk hann halive
  case get site p =>
    cases site
    case announced => simp [WorkerPc.announced] at hann
    case elastic => simp [WorkerPc.Kind, hel] at hk
    case prepared => exact .inl (by simp [GetSite.last, hc])
    all_goals exact .inl rfl
  case parkTest => exact hc
  case sleepClear => exact hel
  case exited => exact absurd rfl halive
  case perfil | sleep => simp [WorkerPc.announced] at hann
  all_goals first
    | trivial
    | simp [WorkerPc.Kind, hel] at hk

/-! ### Deques -/

def WorkerPc.busy : WorkerPc → Bool
  | .stopTest | .get _ .start | .elasticLoop | .giraFim _ (some _) | .giraFila _ _
  | .giraHead _ _ _ | .giraWake _ _ | .retractCount _ | .retract _ | .run => true
  | _ => false

def PoolWorker.Busy (x : PoolWorker) : Prop :=
  x.deque.top < x.deque.bottom → x.frames ≠ [] ∨ x.pc.busy = true

theorem PoolWorker.Nudged.busy {x x' : PoolWorker} (hn : x.Nudged x') (h : x.Busy) : x'.Busy := by
  obtain ⟨top, _, _, _, htop, -, -, rfl⟩ := hn
  intro hlt
  exact h (lt_of_le_of_lt htop hlt)

theorem busy_found {s₁ : PoolState ι} {t : ℕ} {site : GetSite} :
    ((s₁.found w t site).workers w).Busy := by
  intro _
  unfold PoolState.found
  split
  · split_ifs
    · rw [PoolState.setPc_self]
      exact .inr rfl
    · rw [PoolState.run_self]
      exact .inr rfl
  · rw [PoolState.setPc_self]
    exact .inr rfl
  · rw [PoolState.run_self]
    exact .inr rfl

theorem poolWorkerFn_busy {b : Bool} (hwf : PoolWf d s) (hstop : s.stop = false)
    (hf : (s.workers w).frames = []) (h : (s.workers w).Busy)
    (hs : poolWorkerFn d s w b (s.workers w).pc = some s') : (s'.workers w).Busy := by
  have hok := hwf.pc_ok hf
  have hbusy : ∀ {s₁ : PoolState ι} {x : PoolWorker}, x.pc.busy = true →
      ((s₁.setWorker w x).workers w).Busy := fun hx _ => by
    rw [PoolState.setWorker_self]
    exact .inr hx
  have hidle : ∀ {s₁ : PoolState ι} {x : PoolWorker}, (s.workers w).pc.busy = false →
      x.deque = (s.workers w).deque → ((s₁.setWorker w x).workers w).Busy := fun hp hx hlt => by
    rw [PoolState.setWorker_self, hx] at hlt
    rcases h hlt with h | h
    · exact absurd hf h
    · cases hp.symm.trans h
  cases hpc : (s.workers w).pc <;> rw [hpc] at hs hok hidle <;>
    simp only [poolWorkerFn, Option.some.injEq, reduceCtorEq] at hs
  case get site p =>
    split at hs <;> rename_i hg <;> subst hs
    · obtain ⟨rfl, -⟩ := poolTryGet_go hwf hok hg
      cases p with
      | start =>
        simp only [poolTryGet] at hg
        split at hg
        · simp at hg
        · split_ifs at hg with hd <;> simp only [Prod.mk.injEq, reduceCtorEq, and_false] at hg
          intro hlt
          rw [PoolState.setPc_self] at hlt
          exact absurd hlt hd
      | _ => exact hidle rfl rfl
    · exact busy_found
    · obtain rfl := poolTryGet_nothing hg
      obtain rfl := poolTryGet_lifo hg
      exact hidle rfl rfl
  case giraFim sp t =>
    subst hs
    cases t <;> dsimp only <;> split_ifs
    · exact hidle rfl rfl
    · exact hidle rfl rfl
    · exact hbusy rfl
    · exact hbusy rfl
  case giraWake t p =>
    split at hs <;> subst hs <;> exact hbusy rfl
  case sleep =>
    split_ifs at hs
    cases hs
    exact hidle rfl rfl
  all_goals subst hs
  case stopTest | elasticLoop =>
    rw [if_neg (by simp [hstop])]
    exact hbusy rfl
  case giraFila | giraHead | retractCount | retract =>
    (try split_ifs) <;> exact hbusy rfl
  case prepare | sleepClear | elasticPrepare =>
    exact hidle rfl ((s.calm_setSignal w false).deque w)
  case announce | elasticPark =>
    exact hidle rfl ((s.calm_setParked w true).deque w)
  all_goals (try split_ifs) <;> exact hidle rfl rfl

theorem poolRun_busy {t : ℕ} {p : FramePc} {rest : List Frame} (hpc : (s.workers w).pc = .run)
    (hs : poolRun d s w t rest p = some s') : (s'.workers w).Busy := by
  obtain ⟨-, -, hpc'⟩ := poolRun_words hs
  refine fun _ => .inr ?_
  rcases hpc' with hpc' | ⟨hpc', -⟩ | ⟨hpc', -⟩ <;> rw [hpc']
  · rw [hpc]
    rfl
  · rfl
  · rfl

/-! ### Who has yet to wake a worker -/

def WakePc.covers : WakePc → Bool
  | .parked _ | .girando _ | .girandoAgain _ | .parkedCore | .start => true
  | .filaTail _ g | .filaHead _ g _ => g < poolGiradoresMin
  | .test _ j | .claim _ j => j = 0
  | .signal _ => false

def ClientPc.covers : ClientPc → Bool
  | .submit _ (.wake p) => p.covers
  | _ => false

theorem sum_flag_pos {n : ℕ} {f : ℕ → Bool} (h : 0 < ∑ v ∈ Finset.range n, flag (f v)) :
    ∃ v < n, f v = true := by
  by_contra hno
  have hzero : ∑ v ∈ Finset.range n, flag (f v) = 0 := Finset.sum_eq_zero fun v hv => by
    have hv : f v = false :=
      Bool.eq_false_iff.mpr fun hf => hno ⟨v, Finset.mem_range.mp hv, hf⟩
    rw [hv, flag_false]
  omega

theorem sum_flag_nonpos {n : ℕ} {f : ℕ → Bool} (h : ∑ v ∈ Finset.range n, flag (f v) ≤ 0)
    (hv : v < n) : f v = false := by
  by_contra hf
  have hle : flag (f v) ≤ ∑ v ∈ Finset.range n, flag (f v) :=
    Finset.single_le_sum (f := fun v => flag (f v))
      (fun i _ => by cases f i <;> simp) (Finset.mem_range.mpr hv)
  simp only [Bool.not_eq_false] at hf
  rw [hf, flag_true] at hle
  omega

theorem poolWakeSubmit_covers (h : ParkInv d s) (hstop : s.stop = false) {p : WakePc}
    {r : Option WakePc} (hp : p.covers = true) (hs : poolWakeSubmit d s p = (s', r)) :
    (∃ q, r = some q ∧ q.covers = true) ∨
      ∃ w < d.nCore, ∀ j head, (s'.workers w).Looks d w j head := by
  have hlook : ∀ w < d.nCore, (s.workers w).pc.announced = false → ∀ j head,
      (s.workers w).Looks d w j head := fun w hw hann _ _ =>
    looks_of_core _ (h.kind w) (decide_eq_true hw) hann (h.alive hstop w)
  have hclaimed : ∀ {s₁ : PoolState ι} (start j : ℕ),
      (s₁.workers (d.coreAt start j)).parked = false →
      ∃ w < d.nCore, ∀ j head, (s₁.workers w).Looks d w j head := fun start j hp =>
    have hi := d.coreAt_lt start j
    ⟨_, hi, fun _ _ => .inr (.inl ⟨decide_eq_true hi, hp⟩)⟩
  cases p <;> simp only [poolWakeSubmit, Prod.mk.injEq] at hs
  case parked q | girando q =>
    obtain ⟨-, rfl⟩ := hs
    split_ifs <;> exact .inl ⟨_, rfl, rfl⟩
  case girandoAgain q =>
    obtain ⟨rfl, rfl⟩ := hs
    by_cases hg : s.nGirando < poolGiradoresMin
    · exact .inl ⟨_, rfl, decide_eq_true hg⟩
    · rw [h.girando] at hg
      obtain ⟨w, hw, hspin⟩ := sum_flag_pos (lt_of_lt_of_le Int.one_pos (not_lt.mp hg))
      refine .inr ⟨w, hw, hlook w hw ?_⟩
      cases hpc : (s.workers w).pc <;> rw [hpc] at hspin <;> try cases hspin
      case get site _ => cases site <;> first | rfl | cases hspin
      all_goals rfl
  case filaTail q g =>
    obtain ⟨-, rfl⟩ := hs
    exact .inl ⟨_, rfl, hp⟩
  case filaHead q g tail =>
    obtain ⟨-, rfl⟩ := hs
    have hg : g < poolGiradoresMin := of_decide_eq_true hp
    rw [if_neg (by omega)]
    exact .inl ⟨_, rfl, rfl⟩
  case parkedCore =>
    obtain ⟨rfl, rfl⟩ := hs
    split_ifs with hle
    · rw [h.parked] at hle
      exact .inr ⟨0, d.core_pos, hlook 0 d.core_pos (sum_flag_nonpos hle d.core_pos)⟩
    · exact .inl ⟨_, rfl, rfl⟩
  case start =>
    obtain ⟨-, rfl⟩ := hs
    exact .inl ⟨_, rfl, rfl⟩
  case test start j =>
    obtain ⟨rfl, rfl⟩ := hs
    split_ifs with hpark hj
    · exact .inl ⟨_, rfl, hp⟩
    all_goals exact .inr (hclaimed start j (Bool.eq_false_iff.mpr hpark))
  case claim start j =>
    split at hs <;> rename_i hpark <;> simp only [Prod.mk.injEq] at hs <;> obtain ⟨rfl, rfl⟩ := hs
    · exact .inr (hclaimed start j (by rw [PoolState.setParked_self]))
    · exact .inr (hclaimed start j (Bool.eq_false_iff.mpr hpark))
  case signal => cases hp

section Client

variable [DecidableEq ι] {c : ι}

theorem poolClient_covers (h : ParkInv d s) (hstop : s.stop = false) {b : Bool}
    (hc : (s.clients c).covers = true) (hs : poolClient d s c b (s.clients c) = some s') :
    (s'.clients c).covers = true ∨ ∃ w < d.nCore, ∀ j head, (s'.workers w).Looks d w j head := by
  cases hp : s.clients c <;> rw [hp] at hs hc <;> try cases hc
  rename_i t p
  cases p <;> try cases hc
  rename_i q
  simp only [poolClient, Option.some.injEq, poolSubmitRelative] at hs
  split at hs <;> rename_i hg <;> subst hs
  · rcases poolWakeSubmit_covers h hstop hc hg with ⟨q', hq', hcov⟩ | hlook
    · cases hq'
      exact .inl (by simpa [PoolState.setClient, ClientPc.covers] using hcov)
    · exact .inr hlook
  · rcases poolWakeSubmit_covers h hstop hc hg with ⟨q', hq', hcov⟩ | hlook
    · cases hq'
    · exact .inr hlook

theorem poolClient_rings {b : Bool} (hs : poolClient d s c b (s.clients c) = some s') :
    (∀ j, (s'.rings j).head = (s.rings j).head) ∧
      ((∀ j, (s'.rings j).cell = (s.rings j).cell) ∨ (s'.clients c).covers = true) := by
  cases hp : s.clients c <;> rw [hp] at hs <;>
    simp only [poolClient, Option.some.injEq, reduceCtorEq] at hs
  case submit t p =>
    subst hs
    cases p <;> simp only [poolSubmitRelative]
    case wake q =>
      have hr := (poolWakeSubmit_calm d s q).rings
      split <;> rename_i hg <;> rw [hg] at hr <;>
        exact ⟨fun j => congrArg (fun r => (r j).head) hr,
          .inl fun j => congrArg (fun r => (r j).cell) hr⟩
    case publish j pos =>
      refine ⟨fun i => ?_, .inr ?_⟩
      · by_cases hi : i = j
        · subst hi
          simp only [PoolState.setClient, PoolState.setRing, Function.update_self]
        · simp only [PoolState.setClient, PoolState.setRing, Function.update_of_ne hi]
      · simp [PoolState.setClient, ClientPc.covers, WakePc.covers]
    case pushCas j pos =>
      split_ifs
      · refine ⟨fun i => ?_, .inl fun i => ?_⟩ <;> by_cases hi : i = j
        · subst hi
          simp only [PoolState.setClient, PoolState.setRing, Function.update_self]
        · simp only [PoolState.setClient, PoolState.setRing, Function.update_of_ne hi]
        · subst hi
          simp only [PoolState.setClient, PoolState.setRing, Function.update_self]
        · simp only [PoolState.setClient, PoolState.setRing, Function.update_of_ne hi]
      · exact ⟨fun _ => rfl, .inl fun _ => rfl⟩
    all_goals (try split_ifs) <;> exact ⟨fun _ => rfl, .inl fun _ => rfl⟩
  case joinMon | joinWorker =>
    split at hs
    · cases hs
      exact ⟨fun _ => rfl, .inl fun _ => rfl⟩
    · simp at hs
  case vigiaClaim | perfilMon =>
    subst hs
    split_ifs <;> exact ⟨fun _ => rfl, .inl fun _ => rfl⟩
  all_goals
    subst hs
    exact ⟨fun _ => rfl, .inl fun _ => rfl⟩

/-- A published task has a submit that has yet to wake a worker, or a worker that looks. -/
def LooksInv (d : PoolDims) (s : PoolState ι) : Prop :=
  s.stop = false → ∀ j < d.nShards, (s.rings j).waiting →
    (∃ c, (s.clients c).covers = true) ∨
      ∃ w < d.nTotal, (s.workers w).Looks d w j (s.rings j).head

omit [DecidableEq ι] in
theorem poolMonitorFn_rings {m : MonitorPc} (hs : poolMonitorFn d s m = some s') :
    s'.rings = s.rings ∧ s'.clients = s.clients := by
  cases m <;> simp only [poolMonitorFn, Option.some.injEq, reduceCtorEq] at hs
  case sleep =>
    split_ifs at hs
    cases hs
    exact ⟨rfl, rfl⟩
  case claim =>
    subst hs
    split_ifs <;> exact ⟨rfl, rfl⟩
  all_goals
    subst hs
    exact ⟨rfl, rfl⟩

theorem poolStep_looks (h : LooksInv d s) (hp : ParkInv d s) (hwf : PoolWf d s)
    {l : PoolLabel ι} (hs : poolStep d s l = some s') : LooksInv d s' := by
  intro hstop' j hj hwait'
  have hstop := poolStep_stop hs hstop'
  have hcore : d.nCore ≤ d.nTotal := d.core_le.trans d.workers_le
  -- nothing happens to the ring, and a worker that moves keeps looking
  have hkeep : s'.rings = s.rings → (∀ c, (s.clients c).covers = true →
      (s'.clients c).covers = true) → (∀ w, l.mover = some w → (s.rings j).waiting →
        (s.workers w).Looks d w j (s.rings j).head →
        (s'.workers w).Looks d w j (s.rings j).head) →
      (∃ c, (s'.clients c).covers = true) ∨
        ∃ w < d.nTotal, (s'.workers w).Looks d w j (s'.rings j).head := by
    intro hr hcov hown
    rw [hr] at hwait' ⊢
    rcases h hstop j hj hwait' with ⟨c, hc⟩ | ⟨w, hw, hl⟩
    · exact .inl ⟨c, hcov c hc⟩
    · refine .inr ⟨w, hw, ?_⟩
      by_cases hm : l.mover = some w
      · exact hown w hm hwait' hl
      · exact (poolStep_nudged hs hm).looks hl
  cases l with
  | call c k =>
    refine hkeep ?_ (fun c' hc' => ?_) fun v hv => by cases hv
    · simp only [poolStep] at hs
      split at hs <;> simp only [Option.some.injEq, reduceCtorEq] at hs
      subst hs
      cases k <;> rfl
    · by_cases hcc : c' = c
      · subst hcc
        simp only [poolStep] at hs
        split at hs
        · rename_i hidle
          simp [hidle, ClientPc.covers] at hc'
        · cases hs
      · rwa [poolStep_clients hs (fun k h => hcc (PoolLabel.call.inj h).1.symm) (fun _ h => by cases h)]
  | client c b =>
    obtain ⟨hhead, hcell⟩ := poolClient_rings hs
    rcases hcell with hcell | hcov
    · have hwait : (s.rings j).waiting := by
        rwa [TaskRing.waiting, hcell, hhead] at hwait'
      rw [hhead]
      rcases h hstop j hj hwait with ⟨c', hc'⟩ | ⟨w, hw, hl⟩
      · by_cases hcc : c' = c
        · subst hcc
          rcases poolClient_covers hp hstop hc' hs with hc' | ⟨w, hw, hl⟩
          · exact .inl ⟨c', hc'⟩
          · exact .inr ⟨w, hw.trans_le hcore, hl j _⟩
        · refine .inl ⟨c', ?_⟩
          rwa [poolClient_others hcc hs]
      · exact .inr ⟨w, hw, (poolClient_nudged hs w).looks hl⟩
    · exact .inl ⟨c, hcov⟩
  | worker w b =>
    have hclients : ∀ c, (s.clients c).covers = true → (s'.clients c).covers = true :=
      fun c hc => by rwa [poolStep_clients hs (fun _ h => by cases h) (fun _ h => by cases h)]
    simp only [poolStep] at hs
    split_ifs at hs with hw
    split at hs
    · rename_i hf
      rcases poolWorkerFn_looks hwf (hp.kind w) hstop hf hs with ⟨hr, hl⟩ | hl
      · exact hkeep hr hclients fun v hv => Option.some.inj hv ▸ hl j hj
      · exact .inr ⟨w, hw, hl j _⟩
    · exact .inr ⟨w, hw, poolRun_looks hs⟩
  | spawn w | finish w =>
    have hclients : ∀ c, (s.clients c).covers = true → (s'.clients c).covers = true :=
      fun c hc => by rwa [poolStep_clients hs (fun _ h => by cases h) (fun _ h => by cases h)]
    simp only [poolStep] at hs
    split at hs <;> simp only [Option.some.injEq, reduceCtorEq] at hs
    subst hs
    refine hkeep rfl hclients fun v hv _ _ => .inl ?_
    obtain rfl : w = v := Option.some.inj hv
    rw [PoolState.setFrames, PoolState.setWorker_self]
    simp
  | lapse w clear woken =>
    have hclients : ∀ c, (s.clients c).covers = true → (s'.clients c).covers = true :=
      fun c hc => by rwa [poolStep_clients hs (fun _ h => by cases h) (fun _ h => by cases h)]
    simp only [poolStep] at hs
    split at hs <;> simp only [Option.some.injEq, reduceCtorEq] at hs
    rename_i hpc
    subst hs
    refine hkeep rfl hclients fun v hv _ hl => ?_
    obtain rfl : w = v := Option.some.inj hv
    rw [PoolState.setPc_self]
    rcases hl with hf | hc | hl
    · exact .inl hf
    · exact .inr (.inl hc)
    · rw [hpc] at hl
      cases hl
  | monitor =>
    obtain ⟨hr, hc⟩ := poolMonitorFn_rings hs
    exact hkeep hr (fun c h => by rwa [hc]) fun v hv => by cases hv
  | monitorLapse clear =>
    simp only [poolStep] at hs
    split at hs <;> simp only [Option.some.injEq, reduceCtorEq] at hs
    subst hs
    exact hkeep rfl (fun _ => id) (by simp)

theorem poolStep_busy (h : s.stop = false → ∀ w, (s.workers w).Busy) (hwf : PoolWf d s)
    {l : PoolLabel ι} (hs : poolStep d s l = some s') :
    s'.stop = false → ∀ w, (s'.workers w).Busy := by
  intro hstop' w
  have hstop := poolStep_stop hs hstop'
  by_cases hm : l.mover = some w
  · cases l with
    | worker v b =>
      obtain rfl : v = w := Option.some.inj hm
      simp only [poolStep] at hs
      split_ifs at hs
      split at hs
      · exact poolWorkerFn_busy hwf hstop ‹_› (h hstop v) hs
      · exact poolRun_busy (hwf.frames_ok ‹_›).1 hs
    | spawn v | finish v =>
      obtain rfl : v = w := Option.some.inj hm
      simp only [poolStep] at hs
      split at hs <;> simp only [Option.some.injEq, reduceCtorEq] at hs
      subst hs
      refine fun _ => .inl ?_
      rw [PoolState.setFrames, PoolState.setWorker_self]
      simp
    | lapse v clear woken =>
      obtain rfl : v = w := Option.some.inj hm
      simp only [poolStep] at hs
      split at hs <;> simp only [Option.some.injEq, reduceCtorEq] at hs
      rename_i hpc
      subst hs
      intro hlt
      rw [PoolState.setPc_self] at hlt ⊢
      rcases h hstop v hlt with hf | hb
      · exact .inl hf
      · rw [hpc] at hb
        cases hb
    | _ => cases hm
  · exact (poolStep_nudged hs hm).busy (h hstop w)

/-! ### Claimed positions -/

/-- A position that is claimed and not yet published belongs to a submit. -/
def ClaimsInv (s : PoolState ι) : Prop :=
  ∀ j pos, pos < (s.rings j).tail → (s.rings j).cell pos = none →
    ∃ c t, s.clients c = .submit t (.publish j pos)

omit [DecidableEq ι] in
theorem poolWorkerFn_cells {b : Bool} {p : WorkerPc} (hs : poolWorkerFn d s w b p = some s')
    (j : ℕ) : (s'.rings j).tail = (s.rings j).tail ∧ (s'.rings j).cell = (s.rings j).cell := by
  have hget : ∀ p, ((poolTryGet d s w b p).1.rings j).tail = (s.rings j).tail ∧
      ((poolTryGet d s w b p).1.rings j).cell = (s.rings j).cell := by
    intro p
    cases p
    case popLoad => exact ⟨rfl, rfl⟩
    case popCas g pos n =>
      simp only [poolTryGet]
      split
      · by_cases hj : j = d.shardAt (s.workers w) g
        · subst hj
          simp [PoolState.setWorker, PoolState.setRing]
        · simp [PoolState.setWorker, PoolState.setRing, Function.update_of_ne hj]
      · exact ⟨rfl, rfl⟩
    all_goals
      simp only [poolTryGet]
      split <;> (try split_ifs) <;> exact ⟨rfl, rfl⟩
  cases p <;> simp only [poolWorkerFn, Option.some.injEq, reduceCtorEq] at hs
  case get site p =>
    have hr := hget p
    split at hs <;> rename_i hg <;> rw [hg] at hr <;> subst hs
    · exact hr
    · unfold PoolState.found
      split
      · split_ifs <;> exact hr
      · exact hr
      · exact hr
    · exact hr
  case giraWake t p =>
    have hr := (poolWakeSubmit_calm d s p).rings
    split at hs <;> rename_i hg <;> rw [hg] at hr <;> subst hs <;>
      exact ⟨congrArg (fun r => (r j).tail) hr, congrArg (fun r => (r j).cell) hr⟩
  case sleep =>
    split_ifs at hs
    cases hs
    exact ⟨rfl, rfl⟩
  case giraFim sp t =>
    subst hs
    cases t <;> dsimp only <;> split_ifs <;> exact ⟨rfl, rfl⟩
  case giraFila | elasticGiro =>
    subst hs
    split_ifs <;> exact ⟨rfl, rfl⟩
  all_goals
    subst hs
    exact ⟨rfl, rfl⟩

omit [DecidableEq ι] in
theorem poolRun_rings {t : ℕ} {p : FramePc} {rest : List Frame}
    (hs : poolRun d s w t rest p = some s') : s'.rings = s.rings := by
  cases p <;> simp only [poolRun, Option.some.injEq, reduceCtorEq] at hs
  case place u =>
    subst hs
    split
    · rfl
    · split_ifs <;> rfl
  case wake u q =>
    have hr := (poolWakeSubmit_calm d s q).rings
    split at hs <;> rename_i hg <;> rw [hg] at hr <;> subst hs <;> exact hr
  case stopTest | ctrStore =>
    subst hs
    split <;> rfl
  all_goals
    subst hs
    rfl

theorem poolClient_claims (h : ClaimsInv s) {b : Bool}
    (hs : poolClient d s c b (s.clients c) = some s') : ClaimsInv s' := by
  have hgo : ∀ {s₁ : PoolState ι} {q : ClientPc}, s₁.rings = s.rings → s₁.clients = s.clients →
      (∀ t j pos, s.clients c ≠ .submit t (.publish j pos)) → ClaimsInv (s₁.setClient c q) := by
    intro s₁ q hr hcl hc j pos hpos hnone
    have hpos : pos < (s₁.rings j).tail := hpos
    have hnone : (s₁.rings j).cell pos = none := hnone
    rw [hr] at hpos hnone
    obtain ⟨c', t, hc'⟩ := h j pos hpos hnone
    have hne : c' ≠ c := fun he => hc t j pos (he ▸ hc')
    exact ⟨c', t, by simp only [PoolState.setClient, Function.update_of_ne hne, hcl, hc']⟩
  cases hp : s.clients c <;> rw [hp] at hs hgo <;>
    simp only [poolClient, Option.some.injEq, reduceCtorEq] at hs
  case submit t p =>
    subst hs
    cases p <;> simp only [poolSubmitRelative]
    case wake q =>
      have hcalm := poolWakeSubmit_calm d s q
      split <;> rename_i hg <;> rw [hg] at hcalm <;> exact hgo hcalm.rings hcalm.clients (by simp)
    case pushCas j pos =>
      split_ifs with htail
      · intro i pos' hpos' hnone
        by_cases hi : i = j
        · subst hi
          simp only [PoolState.setClient, PoolState.setRing, Function.update_self] at hpos' hnone
          by_cases hpp : pos' = pos
          · subst hpp
            exact ⟨c, t, by simp [PoolState.setClient]⟩
          · obtain ⟨c', t', hc'⟩ := h i pos' (by omega) hnone
            have hne : c' ≠ c := fun he => by rw [he, hp] at hc'; cases hc'
            exact ⟨c', t', (Function.update_of_ne hne ..).trans hc'⟩
        · simp only [PoolState.setClient, PoolState.setRing, Function.update_of_ne hi]
            at hpos' hnone
          obtain ⟨c', t', hc'⟩ := h i pos' hpos' hnone
          have hne : c' ≠ c := fun he => by rw [he, hp] at hc'; cases hc'
          exact ⟨c', t', (Function.update_of_ne hne ..).trans hc'⟩
      · exact hgo rfl rfl (by simp)
    case publish j pos =>
      intro i pos' hpos' hnone
      have hrest : pos' < (s.rings i).tail → (s.rings i).cell pos' = none →
          ¬(i = j ∧ pos' = pos) → ∃ c' t', (s.setClient c (.submit t (.wake
            (.parked (.ring j))))).clients c' = .submit t' (.publish i pos') := by
        intro hlt hnone hne
        obtain ⟨c', t', hc'⟩ := h i pos' hlt hnone
        have hcc : c' ≠ c := fun he => by
          rw [he, hp] at hc'
          cases hc'
          exact hne ⟨rfl, rfl⟩
        exact ⟨c', t', by simpa [PoolState.setClient, Function.update_of_ne hcc] using hc'⟩
      by_cases hi : i = j
      · subst hi
        simp only [PoolState.setClient, PoolState.setRing, Function.update_self] at hpos' hnone
        by_cases hpp : pos' = pos
        · simp [hpp] at hnone
        · rw [Function.update_of_ne hpp] at hnone
          exact hrest hpos' hnone fun he => hpp he.2
      · simp only [PoolState.setClient, PoolState.setRing, Function.update_of_ne hi] at hpos' hnone
        exact hrest hpos' hnone fun he => hi he.1
    all_goals (try split_ifs) <;> exact hgo rfl rfl (by simp)
  case joinMon | joinWorker =>
    split at hs
    · cases hs
      exact hgo rfl rfl (by simp)
    · simp at hs
  case vigiaClaim | perfilMon =>
    subst hs
    split_ifs <;> exact hgo rfl rfl (by simp)
  all_goals
    subst hs
    exact hgo rfl rfl (by simp)

theorem poolStep_claims (h : ClaimsInv s) {l : PoolLabel ι}
    (hs : poolStep d s l = some s') : ClaimsInv s' := by
  have hkeep : (∀ j, (s'.rings j).tail = (s.rings j).tail ∧ (s'.rings j).cell = (s.rings j).cell) →
      (∀ c t j pos, s.clients c = .submit t (.publish j pos) → s'.clients c = s.clients c) →
      ClaimsInv s' := by
    intro hr hc j pos hpos hnone
    rw [(hr j).1] at hpos
    rw [(hr j).2] at hnone
    obtain ⟨c, t, hct⟩ := h j pos hpos hnone
    exact ⟨c, t, (hc c t j pos hct).trans hct⟩
  cases l with
  | call c k =>
    refine hkeep (fun j => ?_) fun c' t j pos hc' => ?_
    · simp only [poolStep] at hs
      split at hs <;> simp only [Option.some.injEq, reduceCtorEq] at hs
      subst hs
      cases k <;> exact ⟨rfl, rfl⟩
    · by_cases hcc : c' = c
      · subst hcc
        simp only [poolStep, hc'] at hs
        cases hs
      · exact poolStep_clients hs (fun k h => hcc (PoolLabel.call.inj h).1.symm)
          fun _ h => by cases h
  | client c b => exact poolClient_claims h hs
  | worker w b =>
    refine hkeep (fun j => ?_) fun c _ _ _ _ =>
      poolStep_clients hs (fun _ h => by cases h) fun _ h => by cases h
    simp only [poolStep] at hs
    split_ifs at hs
    split at hs
    · exact poolWorkerFn_cells hs j
    · rw [poolRun_rings hs]
      exact ⟨rfl, rfl⟩
  | spawn w | finish w | lapse w clear woken | monitorLapse clear =>
    refine hkeep (fun j => ?_) fun c _ _ _ _ =>
      poolStep_clients hs (fun _ h => by cases h) fun _ h => by cases h
    simp only [poolStep] at hs
    split at hs <;> simp only [Option.some.injEq, reduceCtorEq] at hs
    subst hs
    exact ⟨rfl, rfl⟩
  | monitor =>
    refine hkeep (fun j => ?_) fun c _ _ _ _ =>
      poolStep_clients hs (fun _ h => by cases h) fun _ h => by cases h
    rw [(poolMonitorFn_rings hs).1]
    exact ⟨rfl, rfl⟩

structure SleepInv (d : PoolDims) (s : PoolState ι) : Prop where
  wf : PoolWf d s
  park : ParkInv d s
  looks : LooksInv d s
  busy : s.stop = false → ∀ w, (s.workers w).Busy
  claims : ClaimsInv s

theorem poolSystem_sleep (hr : (poolSystem d).Reachable s) : SleepInv d s := by
  refine System.Reachable.invariant (fun s₀ hi => ?_) (fun s₀ l s₁ h hs => ?_) hr
  · obtain rfl : s₀ = poolCreateRelative d := hi
    refine ⟨poolCreateRelative_wf d, poolCreateRelative_park d, ?_, ?_, ?_⟩
    · intro _ j _ hwait
      simp [TaskRing.waiting, poolCreateRelative] at hwait
    · intro _ w hlt
      simp [poolCreateRelative] at hlt
    · intro j pos hpos
      simp [poolCreateRelative] at hpos
  · exact ⟨poolStep_wf h.wf hs, h.park.step h.wf hs, poolStep_looks h.looks h.park h.wf hs,
      poolStep_busy h.busy h.wf hs, poolStep_claims h.claims hs⟩

/-- In `pool_submit_relative`, `pool_vigias` or `pool_perfil`. -/
def ClientPc.waking : ClientPc → Bool
  | .submit _ _ | .vigias _ | .vigiaClaim _ _ | .vigiaSignal _ _ | .perfil _ | .perfilGiro _
  | .perfilMon | .perfilSignal => true
  | _ => false

def WorkerPc.asleep : WorkerPc → Bool
  | .sleep _ => true
  | _ => false

/-- No call that wakes workers is in progress, and every worker is blocked and not signalled. -/
def PoolState.Asleep (d : PoolDims) (s : PoolState ι) : Prop :=
  (∀ c, (s.clients c).waking = false) ∧
    ∀ w < d.nTotal, (s.workers w).pc.asleep = true ∧ (s.workers w).signal = false

def PoolState.Queued (d : PoolDims) (s : PoolState ι) : Prop :=
  (∃ j < d.nShards, (s.rings j).head ≠ (s.rings j).tail) ∨
    ∃ w < d.nTotal, (s.workers w).deque.top ≠ (s.workers w).deque.bottom

/-- The pool is never asleep over queued work. -/
theorem poolWake_not_lost (d : PoolDims) (hr : (poolSystem d).Reachable s)
    (hstop : s.stop = false) (hsleep : s.Asleep d) : ¬s.Queued d := by
  have h := poolSystem_sleep hr
  obtain ⟨hcalls, hworkers⟩ := hsleep
  have hsleeping : ∀ w < d.nTotal, ∃ eco, (s.workers w).pc = .sleep eco := fun w hw => by
    have hpc := (hworkers w hw).1
    cases hx : (s.workers w).pc <;> rw [hx] at hpc <;> first | exact ⟨_, rfl⟩ | cases hpc
  have hframes : ∀ w < d.nTotal, (s.workers w).frames = [] := fun w hw => by
    obtain ⟨eco, hpc⟩ := hsleeping w hw
    exact h.wf.frames_of_pc (by rw [hpc]; nofun)
  have hclients : ∀ c, (s.clients c).signals = none ∧ (s.clients c).covers = false := fun c => by
    have hw := hcalls c
    cases hc : s.clients c <;> rw [hc] at hw <;> first | exact ⟨rfl, rfl⟩ | cases hw
  have hparked : ∀ w < d.nCore, (s.workers w).parked = true := fun w hw => by
    have hwt : w < d.nTotal := hw.trans_le (d.core_le.trans d.workers_le)
    obtain ⟨eco, hpc⟩ := hsleeping w hwt
    by_contra hp
    rcases h.park.claimed w hw (by rw [hpc]; rfl) (Bool.eq_false_iff.mpr hp) with
      hsig | ⟨c, hc⟩ | ⟨v, hv, hsig⟩
    · cases (hworkers w hwt).2.symm.trans hsig
    · cases (hclients c).1.symm.trans hc
    · obtain ⟨eco', hpc'⟩ := hsleeping v hv
      rw [PoolWorker.signals_of_sleepy _ (hframes v hv) (by rw [hpc']; rfl)] at hsig
      cases hsig
  rintro (⟨j, hj, hne⟩ | ⟨w, hw, hne⟩)
  · have hlt : (s.rings j).head < (s.rings j).tail := lt_of_le_of_ne (h.wf.ring j).head_le hne
    cases hcell : (s.rings j).cell (s.rings j).head with
    | none =>
      obtain ⟨c, t, hc⟩ := h.claims j _ hlt hcell
      have hwaking := hcalls c
      rw [hc] at hwaking
      cases hwaking
    | some t =>
      rcases h.looks hstop j hj (by simp [TaskRing.waiting, hcell]) with ⟨c, hc⟩ | ⟨w, hw, hl⟩
      · cases (hclients c).2.symm.trans hc
      · rcases hl with hf | ⟨hcore, hp⟩ | hl
        · exact hf (hframes w hw)
        · cases (hparked w (of_decide_eq_true hcore)).symm.trans hp
        · obtain ⟨eco, hpc⟩ := hsleeping w hw
          rw [hpc] at hl
          exact hl
  · obtain ⟨eco, hpc⟩ := hsleeping w hw
    rcases h.busy hstop w (lt_of_le_of_ne (h.wf.worker w).1 hne) with hf | hb
    · exact hf (hframes w hw)
    · rw [hpc] at hb
      cases hb

end Client

/-- A worker runs a task to its end, finds nothing else and goes to sleep. -/
theorem poolWake_not_lost_single : ∃ s : PoolState Unit, (poolSystem .single).Reachable s ∧
    s.stop = false ∧ s.finished = [0] ∧ s.Asleep .single ∧ ¬s.Queued .single := by
  have hout : ((poolSystem .single).exec (poolCreateRelative .single)
      (List.flatten [[.call () (.giroMaxUs 0), .call () .submit],
        List.replicate 10 (.client () true), List.replicate 8 (.worker 0 false), [.finish 0],
        List.replicate 26 (.worker 0 false)])).map
        (fun s => (s.stop, s.finished, (s.clients ()).waking, (s.workers 0).pc.asleep,
          (s.workers 0).signal)) = some (false, [0], false, true, false) := by decide +kernel
  obtain ⟨s, hrun, hs⟩ := Option.map_eq_some_iff.mp hout
  simp only [Prod.mk.injEq] at hs
  obtain ⟨hstop, hfin, hcall, hpc, hsig⟩ := hs
  have hr : (poolSystem .single).Reachable s := System.Reachable.exec (.init rfl) hrun
  have hsleep : s.Asleep .single := by
    refine ⟨fun _ => hcall, fun w hw => ?_⟩
    obtain rfl : w = 0 := Nat.lt_one_iff.mp hw
    exact ⟨hpc, hsig⟩
  exact ⟨s, hr, hstop, hfin, hsleep, poolWake_not_lost .single hr hstop hsleep⟩

end Xplatbase.ThreadPool
