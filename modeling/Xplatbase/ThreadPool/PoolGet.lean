import Xplatbase.ThreadPool.LifoSlot
import Xplatbase.ThreadPool.PoolWake

/-! A call of `pool_try_get` in the pool, with the steps of the other threads between its own, is
one of a worker that reads what it may: the two models of the function agree. -/
namespace Xplatbase.ThreadPool
open Xplatbase.Lib

/-! ### The rest of a call, from the scan of the shards on -/

namespace Slot

variable {τ : Type*} {d : PoolSizes} {self : PoolWorker d τ} {r : GetReads d τ}

def stolen (self : PoolWorker d τ) :
    Option (Fin d.n_total × τ) → Option (τ × TaskSource d) × PoolWorker d τ
  | some (v, t) => (some (t, .stolen v), { self with steal_cursor := v, lifo_streak := 0 })
  | none =>
    match self.lifo with
    | some t => (some (t, .drained), { self with lifo_streak := 0, lifo := none })
    | none => (none, self)

def scanned (self : PoolWorker d τ) (steal : Fin d.n_total → StealReads τ) :
    Option (Fin d.n_shards × τ × List τ) → Option (τ × TaskSource d) × PoolWorker d τ
  | some (s, t, batch) => (some (t, .shard s),
      { self with shard_cursor := s, lifo_streak := 0, pending := batch, pend_i := 1 })
  | none => stolen self (stealScan steal self.index self.steal_cursor d.n_total 1)

/-- Behind the cells of a pass that were found ready; the next passes are `rs`. -/
def passed (cas : Bool) (cell : ℕ → τ) (rs : List (BatchReads τ)) (n : ℕ) : Option (List τ) :=
  if n = 0 then some []
  else if cas then some ((List.range n).map cell)
  else poolRingPopBatch POOL_BATCH rs

/-- Behind the pop of the shard of pass `g`, with `left` shards to go. -/
def scanFrom (batch : Fin d.n_shards → List (BatchReads τ)) (sc : Fin d.n_shards) (left g : ℕ) :
    Option (List τ) → Option (Option (Fin d.n_shards × τ × List τ))
  | none => none
  | some [] => shardScan batch sc left (g + 1)
  | some (t :: rest) => some (some (shardAt sc g, t, t :: rest))

theorem shardScan_succ (batch : Fin d.n_shards → List (BatchReads τ)) (sc : Fin d.n_shards)
    (left g : ℕ) : shardScan batch sc (left + 1) g =
      scanFrom batch sc left g (poolRingPopBatch POOL_BATCH (batch (shardAt sc g))) := by
  rw [shardScan]
  cases poolRingPopBatch POOL_BATCH (batch (shardAt sc g)) with
  | none => rfl
  | some l =>
    cases l with
    | nil => rfl
    | cons t rest => rfl

theorem poolTryElsewhere_scanned (htake : poolDequeTake r.take = none)
    (hpend : self.pending[self.pend_i]? = none) :
    poolTryElsewhere self r =
      (shardScan r.batch self.shard_cursor d.n_shards 0).map (scanned self r.steal) := by
  unfold poolTryElsewhere
  rw [htake, hpend]
  cases shardScan r.batch self.shard_cursor d.n_shards 0 with
  | none => rfl
  | some found =>
    cases found with
    | some x => rfl
    | none =>
      unfold Option.map scanned stolen
      cases stealScan r.steal self.index self.steal_cursor d.n_total 1 with
      | some x => rfl
      | none =>
        cases self.lifo with
        | some t => rfl
        | none => rfl

/-- Where the LIFO slot is empty, or its task has been taken often enough, a call looks elsewhere. -/
theorem poolTryGet_elsewhere
    (hlifo : self.lifo.filter (fun _ => self.lifo_streak < POOL_LIFO_CAP) = none) :
    poolTryGet self r = poolTryElsewhere self r := by
  unfold poolTryGet
  cases ht : self.lifo with
  | none => rfl
  | some t =>
    rw [ht] at hlifo
    have hcap : ¬ self.lifo_streak < POOL_LIFO_CAP := by
      intro hlt
      rw [Option.filter_some, if_pos (decide_eq_true hlt)] at hlifo
      cases hlifo
    dsimp only
    rw [if_neg hcap]

theorem poolTryGet_lifo {t : τ} (hlifo : self.lifo = some t)
    (hcap : self.lifo_streak < POOL_LIFO_CAP) : poolTryGet self r =
      some (some (t, .lifo), { self with lifo_streak := self.lifo_streak + 1, lifo := none }) := by
  unfold poolTryGet
  rw [hlifo]
  exact if_pos hcap

theorem poolTryElsewhere_deque {t : τ} (htake : poolDequeTake r.take = some t) :
    poolTryElsewhere self r = some (some (t, .deque), { self with lifo_streak := 0 }) := by
  unfold poolTryElsewhere
  rw [htake]

theorem poolTryElsewhere_pending {t : τ} (htake : poolDequeTake r.take = none)
    (hpend : self.pending[self.pend_i]? = some t) : poolTryElsewhere self r =
      some (some (t, .pending), { self with lifo_streak := 0, pend_i := self.pend_i + 1 }) := by
  unfold poolTryElsewhere
  rw [htake, hpend]

theorem poolDequeTake_alone {top bottom : ℤ} (h : top < bottom) (t : τ) :
    poolDequeTake ⟨bottom, top, top, t, true⟩ = some t := by
  unfold poolDequeTake
  dsimp only
  rw [if_neg (by omega), if_pos (by omega), if_pos rfl, ite_self]

/-- The cells before those that are counted do not matter. -/
theorem countReady_congr {ready ready' : ℕ → Bool} {left n : ℕ}
    (h : ∀ i, n ≤ i → ready' i = ready i) : countReady ready' left n = countReady ready left n := by
  induction left generalizing n with
  | zero => rfl
  | succ left ih =>
    unfold countReady
    rw [h n (Nat.le_refl n), ih fun i hi => h i (by omega)]

/-- Within a round, each pass of a scan comes to another place. -/
theorem turn_ne {c n a b : ℕ} (hc : c < n) (hn : n < 2 ^ 31) (hab : a < b) (hba : b < a + n)
    (hb : b ≤ n) : (c + a) % 2 ^ 32 % n ≠ (c + b) % 2 ^ 32 % n := by
  have hlow : c + a < 2 ^ 32 := by omega
  have hhigh : c + b < 2 ^ 32 := by omega
  rw [Nat.mod_eq_of_lt hlow, Nat.mod_eq_of_lt hhigh]
  intro he
  have hsub := Nat.sub_mod_eq_zero_of_mod_eq he.symm
  rw [Nat.mod_eq_of_lt (by omega)] at hsub
  omega

/-- What the shards behind pass `g` answer does not depend on the one of pass `g`. -/
theorem shardScan_update {batch : Fin d.n_shards → List (BatchReads τ)} {sc : Fin d.n_shards}
    {g k left : ℕ} (hg : g < k) (hleft : k + left ≤ d.n_shards) (rs : List (BatchReads τ)) :
    shardScan (Function.update batch (shardAt sc g) rs) sc left k =
      shardScan batch sc left k := by
  induction left generalizing k with
  | zero => rfl
  | succ left ih =>
    have hne : shardAt sc k ≠ shardAt sc g := by
      intro he
      exact turn_ne sc.isLt d.shards_int hg (by omega) (by omega) (Fin.val_eq_of_eq he).symm
    rw [shardScan_succ, shardScan_succ, Function.update_of_ne hne]
    unfold scanFrom
    rw [ih (by omega) (by omega)]

/-- A victim that is passed over, or has nothing to steal. -/
theorem stealScan_next {steal : Fin d.n_total → StealReads τ} {index s2 : Fin d.n_total}
    {k left : ℕ} (h : victimAt s2 k = index ∨ poolDequeSteal (steal (victimAt s2 k)) = none) :
    stealScan steal index s2 (left + 1) k = stealScan steal index s2 left (k + 1) := by
  rw [stealScan]
  split_ifs with hk
  · rfl
  · rw [h.resolve_left hk]

theorem stealScan_got {steal : Fin d.n_total → StealReads τ} {index s2 : Fin d.n_total}
    {k left : ℕ} {t : τ} (hk : victimAt s2 k ≠ index)
    (h : poolDequeSteal (steal (victimAt s2 k)) = some t) :
    stealScan steal index s2 (left + 1) k = some (victimAt s2 k, t) := by
  rw [stealScan, if_neg hk, h]

/-- What the victims behind pass `k` answer does not depend on the one of pass `k`. -/
theorem stealScan_update {steal : Fin d.n_total → StealReads τ} {index s2 : Fin d.n_total}
    {k m left : ℕ} (hk : 1 ≤ k) (hm : k < m) (hleft : m + left ≤ d.n_total + 1)
    (x : StealReads τ) :
    stealScan (Function.update steal (victimAt s2 k) x) index s2 left m =
      stealScan steal index s2 left m := by
  induction left generalizing m with
  | zero => rfl
  | succ left ih =>
    have hne : victimAt s2 m ≠ victimAt s2 k := by
      intro he
      exact turn_ne s2.isLt d.total_int hm (by omega) (by omega) (Fin.val_eq_of_eq he).symm
    rw [stealScan, stealScan, Function.update_of_ne hne, ih (by omega) (by omega)]

end Slot

/-! ### The places of a call -/

variable {ι : Type*} {d : PoolDims} {hs : d.nShards < 2 ^ 31} {ht : d.nTotal < 2 ^ 31}

def PoolDims.sizes (d : PoolDims) (hs : d.nShards < 2 ^ 31) (ht : d.nTotal < 2 ^ 31) :
    Slot.PoolSizes where
  n_shards := d.nShards
  n_total := d.nTotal
  shards_pos := d.shards_pos
  total_pos := Nat.lt_of_lt_of_le d.core_pos (Nat.le_trans d.core_le d.workers_le)
  shards_int := hs
  total_int := ht

/-- The fields of worker `w` that nobody else writes to. -/
def PoolWorker.slot (hs : d.nShards < 2 ^ 31) (ht : d.nTotal < 2 ^ 31) (w : Fin d.nTotal)
    (x : PoolWorker) : Slot.PoolWorker (d.sizes hs ht) ℕ where
  index := w
  shard_cursor := ⟨x.shardCursor % d.nShards, Nat.mod_lt _ d.shards_pos⟩
  steal_cursor := ⟨x.stealCursor % d.nTotal, Nat.mod_lt _ w.pos⟩
  lifo := x.lifo
  lifo_streak := x.lifoStreak
  pending := (List.range x.pendN).map x.pending
  pend_i := x.pendI

/-- There are reads with which a call, from place `p` on, comes to `out` and leaves `y`. -/
def Rest (self : Slot.PoolWorker (d.sizes hs ht) ℕ)
    (out : Option (ℕ × Slot.TaskSource (d.sizes hs ht))) (y : Slot.PoolWorker (d.sizes hs ht) ℕ) :
    GetPc → Prop
  | .start => ∃ r, Slot.poolTryGet self r = some (out, y)
  | .popLoad g => g < d.nShards → ∃ batch steal,
      (Slot.shardScan batch self.shard_cursor (d.nShards - g) g).map (Slot.scanned self steal) =
        some (out, y)
  | .popSeq g _ n => g < d.nShards → n < Slot.POOL_BATCH →
      ∃ batch, ∃ pass : Slot.BatchReads ℕ, ∃ rs steal,
      (Slot.scanFrom batch self.shard_cursor (d.nShards - (g + 1)) g
        (Slot.passed pass.cas pass.cell rs
          (Slot.countReady pass.ready (Slot.POOL_BATCH - n) n))).map (Slot.scanned self steal) =
        some (out, y)
  | .popCas g _ n => g < d.nShards → 0 < n → ∃ batch cas cell rs steal,
      (Slot.scanFrom batch self.shard_cursor (d.nShards - (g + 1)) g
        (Slot.passed cas cell rs n)).map (Slot.scanned self steal) = some (out, y)
  | .steal k => 1 ≤ k → k ≤ d.nTotal → ∃ steal,
      Slot.stolen self
        (Slot.stealScan steal self.index self.steal_cursor (d.nTotal + 1 - k) k) = (out, y)
  | .lifo => Slot.stolen self none = (out, y)

/-- From `s` the pool goes on until worker `w` returns from the `pool_try_get` that it is in, with
`out`; `u` is the state behind the last step of the call. -/
inductive GetRun [DecidableEq ι] (d : PoolDims) (w : ℕ) (site : GetSite) (out : Option ℕ)
    (u : PoolState ι) : PoolState ι → Prop
  | other {s t} (l : PoolLabel ι) : l.mover ≠ some w → poolStep d s l = some t →
      GetRun d w site out u t → GetRun d w site out u s
  | go {s t p p'} (b : Bool) : (s.workers w).pc = .get site p →
      poolTryGet d s w b p = (t, .go p') → GetRun d w site out u (t.setPc w (.get site p')) →
      GetRun d w site out u s
  | got {s p v} (b : Bool) : (s.workers w).pc = .get site p →
      poolTryGet d s w b p = (u, .got v) → out = some v → GetRun d w site out u s
  | nothing {s p} (b : Bool) : (s.workers w).pc = .get site p →
      poolTryGet d s w b p = (u, .nothing) → out = none → GetRun d w site out u s

variable {s t u : PoolState ι} {w : Fin d.nTotal} {b : Bool} {p p' : GetPc} {v : ℕ}
  {self : Slot.PoolWorker (d.sizes hs ht) ℕ} {y : Slot.PoolWorker (d.sizes hs ht) ℕ}
  {out : Option (ℕ × Slot.TaskSource (d.sizes hs ht))}

theorem slot_nudged {x x' : PoolWorker} (h : x.Nudged x') : x'.slot hs ht w = x.slot hs ht w := by
  obtain ⟨_, _, _, _, -, -, -, rfl⟩ := h
  rfl

theorem slot_setPc (s : PoolState ι) (w : Fin d.nTotal) (pc : WorkerPc) :
    ((s.setPc w pc).workers w).slot hs ht w = (s.workers w).slot hs ht w := by
  rw [PoolState.setPc_self]
  rfl

/-- Both models ask the same shard in pass `g`. -/
theorem shardAt_slot (x : PoolWorker) {g : ℕ} (hg : g < d.nShards) :
    (Slot.shardAt (x.slot hs ht w).shard_cursor g).val = d.shardAt x g := by
  have hc : x.shardCursor % d.nShards < d.nShards := Nat.mod_lt _ d.shards_pos
  change (x.shardCursor % d.nShards + g) % 2 ^ 32 % d.nShards = (x.shardCursor + g) % d.nShards
  rw [Nat.mod_eq_of_lt (show _ < 2 ^ 32 by omega), Nat.mod_add_mod]

/-- Both models steal from the same victim in pass `k`. -/
theorem victimAt_slot (x : PoolWorker) {k : ℕ} (hk : k ≤ d.nTotal) :
    (Slot.victimAt (x.slot hs ht w).steal_cursor k).val = (x.stealCursor + k) % d.nTotal := by
  have hc : x.stealCursor % d.nTotal < d.nTotal := Nat.mod_lt _ w.pos
  change (x.stealCursor % d.nTotal + k) % 2 ^ 32 % d.nTotal = (x.stealCursor + k) % d.nTotal
  rw [Nat.mod_eq_of_lt (show _ < 2 ^ 32 by omega), Nat.mod_add_mod]

namespace Slot

variable {sz : PoolSizes} {x : PoolWorker sz ℕ}

/-- The pass of a shard whose cells are found ready one after the other. -/
theorem countReady_ready {ready : ℕ → Bool} {left n : ℕ} (h : ready n = true) :
    countReady ready (left + 1) n = countReady ready left (n + 1) := by
  rw [countReady, if_pos h]

theorem countReady_stop {ready : ℕ → Bool} {n : ℕ} (h : ready n = false) (left : ℕ) :
    countReady ready left n = n := by
  cases left with
  | zero => rfl
  | succ left =>
    rw [countReady, h]
    exact if_neg Bool.false_ne_true

theorem scanFrom_update {batch : Fin sz.n_shards → List (BatchReads ℕ)} {sc : Fin sz.n_shards}
    {g left : ℕ} (hleft : g + 1 + left ≤ sz.n_shards) (rs : List (BatchReads ℕ))
    (answer : Option (List ℕ)) :
    scanFrom (Function.update batch (shardAt sc g) rs) sc left g answer =
      scanFrom batch sc left g answer := by
  unfold scanFrom
  rw [shardScan_update (Nat.lt_succ_self g) hleft]

end Slot

/-- The worker has a batch of the shard of pass `g`. -/
theorem slot_shard (x : PoolWorker) {g : ℕ} (hg : g < d.nShards) (pending : ℕ → ℕ) (n : ℕ) :
    { x with
      shardCursor := d.shardAt x g
      lifoStreak := 0
      pending := pending
      pendI := 1
      pendN := n }.slot hs ht w =
    { x.slot hs ht w with
      shard_cursor := Slot.shardAt (x.slot hs ht w).shard_cursor g
      lifo_streak := 0
      pending := (List.range n).map pending
      pend_i := 1 } := by
  have hcursor : Slot.shardAt (x.slot hs ht w).shard_cursor g =
      ⟨d.shardAt x g % d.nShards, Nat.mod_lt _ d.shards_pos⟩ := by
    apply Fin.ext
    rw [shardAt_slot x hg]
    exact (Nat.mod_mod ..).symm
  rw [hcursor]
  rfl

/-- The worker has a task of the victim of pass `k`. -/
theorem slot_stolen (x : PoolWorker) {k : ℕ} (hk : k ≤ d.nTotal) :
    { x with stealCursor := (x.stealCursor + k) % d.nTotal, lifoStreak := 0 }.slot hs ht w =
    { x.slot hs ht w with
      steal_cursor := Slot.victimAt (x.slot hs ht w).steal_cursor k
      lifo_streak := 0 } := by
  have hcursor : Slot.victimAt (x.slot hs ht w).steal_cursor k =
      ⟨(x.stealCursor + k) % d.nTotal % d.nTotal, Nat.mod_lt _ w.pos⟩ := by
    apply Fin.ext
    rw [victimAt_slot x hk]
    exact (Nat.mod_mod ..).symm
  rw [hcursor]
  rfl

theorem rest_shards {g : ℕ}
    (h : Rest self out y (if g + 1 < d.nShards then .popLoad (g + 1) else .steal 1))
    (htotal : 0 < d.nTotal) : ∃ batch steal,
      (Slot.shardScan batch self.shard_cursor (d.nShards - (g + 1)) (g + 1)).map
        (Slot.scanned self steal) = some (out, y) := by
  split_ifs at h with hnext
  · exact h hnext
  · obtain ⟨steal, hsteal⟩ := h (Nat.le_refl 1) htotal
    refine ⟨fun _ => [], steal, ?_⟩
    have hnone : d.nShards - (g + 1) = 0 := by omega
    rw [hnone]
    exact congrArg some hsteal

theorem poolTryGet_go_same (hget : (poolTryGet d s w b p).2 = .go p') :
    (poolTryGet d s w b p).1 = s := by
  cases p with
  | popLoad g => rfl
  | start =>
    simp only [poolTryGet] at hget ⊢
    split at hget
    · cases hget
    · split_ifs at hget ⊢
      rfl
  | popSeq g pos n =>
    simp only [poolTryGet]
    split_ifs <;> rfl
  | popCas g pos n =>
    simp only [poolTryGet] at hget ⊢
    split_ifs at hget ⊢
    rfl
  | steal k =>
    simp only [poolTryGet] at hget ⊢
    split at hget
    · cases hget
    · rename_i hsteal
      rw [if_neg hsteal]
  | lifo =>
    simp only [poolTryGet] at hget
    split at hget
    · cases hget
    · cases hget

/-- The scan of the shards begins: the LIFO slot, the deque and the batch buffer gave nothing. -/
theorem rest_start (h : Rest ((s.workers w).slot hs ht w) out y p')
    (hget : (poolTryGet d s w b .start).2 = .go p') :
    Rest ((s.workers w).slot hs ht w) out y .start := by
  simp only [poolTryGet] at hget
  split at hget
  · cases hget
  · rename_i hlifo
    split_ifs at hget with hdeque hpend
    obtain rfl := GetNext.go.inj hget
    obtain ⟨batch, steal, hrest⟩ := h d.shards_pos
    let dq := (s.workers w).deque
    let r : Slot.GetReads (d.sizes hs ht) ℕ :=
      { take := ⟨dq.bottom, dq.top, dq.top, 0, false⟩, batch := batch, steal := steal }
    have htake : Slot.poolDequeTake r.take = none := by
      have hempty : dq.bottom ≤ dq.top := Nat.le_of_not_lt hdeque
      apply if_pos
      change (dq.bottom : ℤ) - dq.top ≤ 0
      omega
    have hbatch : ((s.workers w).slot hs ht w).pending[((s.workers w).slot hs ht w).pend_i]? =
        none := by
      apply List.getElem?_eq_none
      change ((List.range _).map _).length ≤ _
      rw [List.length_map, List.length_range]
      exact Nat.le_of_not_lt hpend
    refine ⟨r, ?_⟩
    rw [Slot.poolTryGet_elsewhere hlifo, Slot.poolTryElsewhere_scanned htake hbatch]
    exact hrest

theorem rest_popSeq {g pos n : ℕ} (h : Rest ((s.workers w).slot hs ht w) out y p')
    (hget : (poolTryGet d s w b (.popSeq g pos n)).2 = .go p') :
    Rest ((s.workers w).slot hs ht w) out y (.popSeq g pos n) := by
  intro hg hn
  simp only [poolTryGet] at hget
  by_cases hready : (s.rings (d.shardAt (s.workers w) g)).ready b (pos + n) = true
  · rw [if_pos hready] at hget
    by_cases hmore : n + 1 < poolBatch
    · rw [if_pos hmore] at hget
      obtain rfl := GetNext.go.inj hget
      obtain ⟨batch, pass, rs, steal, hrest⟩ := h hg hmore
      have hleft : Slot.POOL_BATCH - n = Slot.POOL_BATCH - (n + 1) + 1 := by omega
      refine ⟨batch, { pass with ready := Function.update pass.ready n true }, rs, steal, ?_⟩
      rw [hleft, Slot.countReady_ready (Function.update_self ..),
        Slot.countReady_congr fun i hi => Function.update_of_ne (by omega) ..]
      exact hrest
    · rw [if_neg hmore] at hget
      obtain rfl := GetNext.go.inj hget
      obtain ⟨batch, cas, cell, rs, steal, hrest⟩ := h hg n.succ_pos
      have hleft : Slot.POOL_BATCH - n = 0 + 1 := by
        unfold poolBatch at hmore
        unfold Slot.POOL_BATCH at hn ⊢
        omega
      refine ⟨batch, ⟨fun _ => true, cell, cas⟩, rs, steal, ?_⟩
      rw [hleft, Slot.countReady_ready rfl]
      exact hrest
  · rw [if_neg hready] at hget
    by_cases hzero : n = 0
    · rw [if_pos hzero] at hget
      rw [← GetNext.go.inj hget] at h
      obtain ⟨batch, steal, hrest⟩ := rest_shards h w.pos
      refine ⟨batch, ⟨fun _ => false, fun _ => 0, false⟩, [], steal, ?_⟩
      rw [Slot.countReady_stop rfl, hzero]
      exact hrest
    · rw [if_neg hzero] at hget
      obtain rfl := GetNext.go.inj hget
      obtain ⟨batch, cas, cell, rs, steal, hrest⟩ := h hg (Nat.pos_of_ne_zero hzero)
      refine ⟨batch, ⟨fun _ => false, cell, cas⟩, rs, steal, ?_⟩
      rw [Slot.countReady_stop rfl]
      exact hrest

theorem rest_steal {k : ℕ}
    (h : Rest self out y (if k + 1 ≤ d.nTotal then .steal (k + 1) else .lifo)) :
    Rest self out y (.steal k) := by
  intro hk hle
  have hleft : d.nTotal + 1 - k = d.nTotal - k + 1 := by omega
  rw [hleft]
  split_ifs at h with hnext
  · obtain ⟨steal, hrest⟩ := h (by omega) hnext
    have hrest' : d.nTotal + 1 - (k + 1) = d.nTotal - k := by omega
    rw [hrest'] at hrest
    refine ⟨Function.update steal (Slot.victimAt self.steal_cursor k) ⟨0, 0, 0, false⟩, ?_⟩
    rw [Slot.stealScan_next (.inr (by rw [Function.update_self]; rfl)),
      Slot.stealScan_update hk (Nat.lt_succ_self k) (by change _ ≤ d.nTotal + 1; omega)]
    exact hrest
  · have hlast : d.nTotal - k = 0 := by omega
    rw [hlast]
    refine ⟨fun _ => ⟨0, 0, 0, false⟩, ?_⟩
    rw [Slot.stealScan_next (.inr rfl)]
    exact h

/-- A step within a call: the reads of the rest go with what it has read itself. -/
theorem rest_go (h : Rest ((s.workers w).slot hs ht w) out y p')
    (hget : (poolTryGet d s w b p).2 = .go p') :
    Rest ((s.workers w).slot hs ht w) out y p := by
  cases p with
  | start => exact rest_start h hget
  | popLoad g =>
    obtain rfl := GetNext.go.inj hget
    intro hg
    obtain ⟨batch, pass, rs, steal, hrest⟩ := h hg (by decide)
    let sc := ((s.workers w).slot hs ht w).shard_cursor
    have hleft : d.nShards - g = d.nShards - (g + 1) + 1 := by omega
    refine ⟨Function.update batch (Slot.shardAt sc g) (pass :: rs), steal, ?_⟩
    rw [hleft, Slot.shardScan_succ, Function.update_self,
      Slot.scanFrom_update (by change _ ≤ d.nShards; omega)]
    exact hrest
  | popSeq g pos n => exact rest_popSeq h hget
  | popCas g pos n =>
    simp only [poolTryGet] at hget
    split_ifs at hget
    obtain rfl := GetNext.go.inj hget
    intro hg hn
    obtain ⟨batch, steal, hrest⟩ := h hg
    have hleft : d.nShards - g = d.nShards - (g + 1) + 1 := by omega
    rw [hleft, Slot.shardScan_succ] at hrest
    let sc := ((s.workers w).slot hs ht w).shard_cursor
    refine ⟨batch, false, fun _ => 0, batch (Slot.shardAt sc g), steal, ?_⟩
    unfold Slot.passed
    rw [if_neg (Nat.ne_of_gt hn)]
    exact hrest
  | steal k =>
    simp only [poolTryGet] at hget
    split_ifs at hget with hsteal hnext
    · obtain rfl := GetNext.go.inj hget
      exact rest_steal (by rw [if_pos hnext]; exact h)
    · obtain rfl := GetNext.go.inj hget
      exact rest_steal (by rw [if_neg hnext]; exact h)
  | lifo =>
    simp only [poolTryGet] at hget
    split at hget
    · cases hget
    · cases hget

/-- A call that returns with its first step: from the LIFO slot, the deque or the batch buffer. -/
theorem rest_got_start (hget : poolTryGet d s w b .start = (u, .got v)) :
    ∃ source, Rest ((s.workers w).slot hs ht w) (some (v, source))
      ((u.workers w).slot hs ht w) .start := by
  let self := (s.workers w).slot hs ht w
  let dq := (s.workers w).deque
  let r (take : Slot.TakeReads ℕ) : Slot.GetReads (d.sizes hs ht) ℕ :=
    { take := take, batch := fun _ => [], steal := fun _ => ⟨0, 0, 0, false⟩ }
  simp only [poolTryGet] at hget
  split at hget
  · rename_i t hlifo
    obtain ⟨rfl, hv⟩ := Prod.mk.inj hget
    obtain rfl := GetNext.got.inj hv
    obtain ⟨hheld, hcap⟩ := Option.filter_eq_some_iff.mp hlifo
    refine ⟨.lifo, r ⟨0, 0, 0, 0, false⟩, ?_⟩
    rw [PoolState.setWorker_self]
    have hslot : self.lifo = some t := hheld
    exact Slot.poolTryGet_lifo hslot (of_decide_eq_true hcap)
  · rename_i hlifo
    have helse (take : Slot.TakeReads ℕ) :
        Slot.poolTryGet self (r take) = Slot.poolTryElsewhere self (r take) :=
      Slot.poolTryGet_elsewhere hlifo
    by_cases hdeque : dq.top < dq.bottom
    · rw [if_pos hdeque] at hget
      obtain ⟨rfl, hv⟩ := Prod.mk.inj hget
      obtain rfl := GetNext.got.inj hv
      have htake := Slot.poolDequeTake_alone (Int.ofNat_lt.mpr hdeque) (dq.task (dq.bottom - 1))
      refine ⟨.deque, r ⟨dq.bottom, dq.top, dq.top, dq.task (dq.bottom - 1), true⟩, ?_⟩
      rw [helse, PoolState.setWorker_self]
      exact Slot.poolTryElsewhere_deque htake
    · rw [if_neg hdeque] at hget
      by_cases hpend : (s.workers w).pendI < (s.workers w).pendN
      swap
      · rw [if_neg hpend] at hget
        cases hget
      rw [if_pos hpend] at hget
      obtain ⟨rfl, hv⟩ := Prod.mk.inj hget
      obtain rfl := GetNext.got.inj hv
      have hbatch : self.pending[self.pend_i]? = some ((s.workers w).pending self.pend_i) := by
        have hin : self.pend_i < (s.workers w).pendN := hpend
        change ((List.range _).map _)[_]? = _
        rw [List.getElem?_map, List.getElem?_range hin]
        rfl
      refine ⟨.pending, r ⟨0, 0, 0, 0, false⟩, ?_⟩
      rw [helse, PoolState.setWorker_self]
      exact Slot.poolTryElsewhere_pending (r := r _) rfl hbatch

theorem rest_got_shard {g pos n : ℕ} (hget : poolTryGet d s w b (.popCas g pos n) = (u, .got v)) :
    ∃ source, Rest ((s.workers w).slot hs ht w) (some (v, source))
      ((u.workers w).slot hs ht w) (.popCas g pos n) := by
  let self := (s.workers w).slot hs ht w
  let out i := if i < n then ((s.rings (d.shardAt (s.workers w) g)).cell (pos + i)).getD 0
    else (s.workers w).pending i
  refine ⟨.shard (Slot.shardAt self.shard_cursor g), ?_⟩
  intro hg hn
  simp only [poolTryGet] at hget
  split at hget
  · obtain ⟨rfl, hv⟩ := Prod.mk.inj hget
    obtain rfl := GetNext.got.inj hv
    refine ⟨fun _ => [], true, out, [], fun _ => ⟨0, 0, 0, false⟩, ?_⟩
    obtain ⟨m, rfl⟩ : ∃ m, n = m + 1 := ⟨n - 1, by omega⟩
    have hpassed : Slot.passed true out [] (m + 1) =
        some (out 0 :: ((List.range m).map Nat.succ).map out) := by
      unfold Slot.passed
      rw [if_neg (Nat.succ_ne_zero m), if_pos rfl, List.range_succ_eq_map, List.map_cons]
    rw [hpassed, PoolState.setWorker_self, slot_shard _ hg, List.range_succ_eq_map, List.map_cons]
    rfl
  · cases hget

theorem rest_got_steal {k : ℕ} (hget : poolTryGet d s w b (.steal k) = (u, .got v)) :
    ∃ source, Rest ((s.workers w).slot hs ht w) (some (v, source))
      ((u.workers w).slot hs ht w) (.steal k) := by
  let self := (s.workers w).slot hs ht w
  let dq := (s.workers (((s.workers w).stealCursor + k) % d.nTotal)).deque
  refine ⟨.stolen (Slot.victimAt self.steal_cursor k), ?_⟩
  intro hk hle
  simp only [poolTryGet] at hget
  split at hget
  · rename_i hsteal
    obtain ⟨hne, hfull, -⟩ := hsteal
    obtain ⟨rfl, hv⟩ := Prod.mk.inj hget
    obtain rfl := GetNext.got.inj hv
    have hgot : Slot.poolDequeSteal ⟨dq.top, dq.bottom, dq.task dq.top, true⟩ =
        some (dq.task dq.top) :=
      if_pos (Int.ofNat_lt.mpr hfull)
    have hother : Slot.victimAt self.steal_cursor k ≠ self.index := by
      intro he
      apply hne
      exact (victimAt_slot _ hle).symm.trans (congrArg Fin.val he)
    have hleft : d.nTotal + 1 - k = d.nTotal - k + 1 := by omega
    refine ⟨fun _ => ⟨dq.top, dq.bottom, dq.task dq.top, true⟩, ?_⟩
    rw [hleft, Slot.stealScan_got hother hgot, PoolState.setWorker_self,
      PoolState.setWorker_other _ (Ne.symm hne), slot_stolen _ hle]
    rfl
  · cases hget

/-- The last step of a call that returns with a task goes with what it has read before. -/
theorem rest_got (hget : poolTryGet d s w b p = (u, .got v)) :
    ∃ source, Rest ((s.workers w).slot hs ht w) (some (v, source))
      ((u.workers w).slot hs ht w) p := by
  cases p with
  | start => exact rest_got_start hget
  | popLoad g => cases hget
  | popSeq g pos n =>
    simp only [poolTryGet] at hget
    split_ifs at hget <;> cases hget
  | popCas g pos n => exact rest_got_shard hget
  | steal k => exact rest_got_steal hget
  | lifo =>
    refine ⟨.drained, ?_⟩
    simp only [poolTryGet] at hget
    split at hget
    · rename_i t hlifo
      obtain ⟨rfl, hv⟩ := Prod.mk.inj hget
      obtain rfl := GetNext.got.inj hv
      have hheld : ((s.workers w).slot hs ht w).lifo = some t := hlifo
      rw [PoolState.setWorker_self]
      unfold Rest Slot.stolen
      rw [hheld]
      rfl
    · cases hget

/-- A call that returns without one has come to its end, and the LIFO slot is empty. -/
theorem rest_nothing (hget : poolTryGet d s w b p = (u, .nothing)) :
    Rest ((s.workers w).slot hs ht w) none ((u.workers w).slot hs ht w) p := by
  cases p with
  | start =>
    simp only [poolTryGet] at hget
    split at hget
    · cases hget
    · split_ifs at hget <;> cases hget
  | popLoad g => cases hget
  | popSeq g pos n =>
    simp only [poolTryGet] at hget
    split_ifs at hget <;> cases hget
  | popCas g pos n =>
    simp only [poolTryGet] at hget
    split_ifs at hget <;> cases hget
  | steal k =>
    simp only [poolTryGet] at hget
    split at hget
    · cases hget
    · cases hget
  | lifo =>
    simp only [poolTryGet] at hget
    split at hget
    · cases hget
    · rename_i hlifo
      obtain ⟨rfl, -⟩ := Prod.mk.inj hget
      have hempty : ((s.workers w).slot hs ht w).lifo = none := hlifo
      unfold Rest Slot.stolen
      rw [hempty]

variable [DecidableEq ι] {site : GetSite} {o : Option ℕ}

/-- A call of `pool_try_get` in the pool returns what a worker alone returns with some reads, and
leaves the worker's own fields so: whatever steps of other threads come between its own. -/
theorem getRun_slot (hrun : GetRun d w site o u s) (hpc : (s.workers w).pc = .get site .start) :
    ∃ r source, Slot.poolTryGet ((s.workers w).slot hs ht w) r =
      some (o.map fun t => (t, source), (u.workers w).slot hs ht w) := by
  have hrest : ∀ p, (s.workers w).pc = .get site p →
      ∃ source, Rest ((s.workers w).slot hs ht w) (o.map fun t => (t, source))
        ((u.workers w).slot hs ht w) p := by
    clear hpc
    induction hrun with
    | other l hl hstep _ ih =>
      intro p hpc
      have hn := poolStep_nudged hstep hl
      obtain ⟨source, hrest⟩ := ih p (hn.pc.trans hpc)
      rw [slot_nudged hn] at hrest
      exact ⟨source, hrest⟩
    | @go s t q p' b hq hget _ ih =>
      intro p hpc
      obtain rfl : q = p := (WorkerPc.get.inj (hq.symm.trans hpc)).2
      have hgo : (poolTryGet d s w b q).2 = .go p' := congrArg Prod.snd hget
      have hsame : t = s := (congrArg Prod.fst hget).symm.trans (poolTryGet_go_same hgo)
      subst hsame
      obtain ⟨source, hrest⟩ := ih p' (by rw [PoolState.setPc_self])
      rw [slot_setPc] at hrest
      exact ⟨source, rest_go hrest hgo⟩
    | @got s q v b hq hget ho =>
      intro p hpc
      obtain rfl : q = p := (WorkerPc.get.inj (hq.symm.trans hpc)).2
      subst ho
      exact rest_got hget
    | @nothing s q b hq hget ho =>
      intro p hpc
      obtain rfl : q = p := (WorkerPc.get.inj (hq.symm.trans hpc)).2
      subst ho
      exact ⟨.lifo, rest_nothing hget⟩
  obtain ⟨source, r, hr⟩ := hrest .start hpc
  exact ⟨r, source, hr⟩

end Xplatbase.ThreadPool
