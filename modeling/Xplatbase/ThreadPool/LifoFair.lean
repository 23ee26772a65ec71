import Xplatbase.ThreadPool.LifoSlot

/-! The cap on the LIFO slot: a worker takes the slot's task at most `POOL_LIFO_CAP` times in a row
before it has asked everywhere else for another. -/
namespace Xplatbase.ThreadPool.Slot
open Xplatbase.Lib

variable {τ : Type*} {d : PoolSizes}

theorem poolDequeTake_none {r : TakeReads τ} (h : poolDequeTake r = none) :
    r.bottom ≤ r.top ∨ r.bottom ≤ r.topAgain ∨ r.topAgain = r.bottom - 1 ∧ r.cas = false := by
  unfold poolDequeTake at h
  by_cases hempty : r.bottom - r.top ≤ 0
  · exact Or.inl (by omega)
  · rw [if_neg hempty] at h
    dsimp only at h
    apply Or.inr
    by_cases hle : r.topAgain ≤ r.bottom - 1
    · rw [if_pos hle] at h
      apply Or.inr
      by_cases hlast : r.topAgain = r.bottom - 1
      · rw [if_pos hlast] at h
        cases hc : r.cas with
        | false => exact ⟨hlast, rfl⟩
        | true =>
          rw [hc, if_pos rfl] at h
          exact absurd h (by simp)
      · rw [if_neg hlast] at h
        exact absurd h (by simp)
    · exact Or.inl (by omega)

theorem poolDequeSteal_none {r : StealReads τ} (h : poolDequeSteal r = none) :
    r.bottom ≤ r.top ∨ r.cas = false := by
  unfold poolDequeSteal at h
  by_cases hlt : r.top < r.bottom
  · rw [if_pos hlt] at h
    cases hc : r.cas with
    | false => exact Or.inr rfl
    | true =>
      rw [hc, if_pos rfl] at h
      exact absurd h (by simp)
  · exact Or.inl (by omega)

theorem countReady_le (ready : ℕ → Bool) (left n : ℕ) : n ≤ countReady ready left n := by
  induction left generalizing n with
  | zero => exact Nat.le_refl n
  | succ left ih =>
    unfold countReady
    by_cases hr : ready n = true
    · rw [if_pos hr]
      have := ih (n + 1)
      omega
    · rw [if_neg hr]

/-- A pop that gives nothing has seen the cell at `head` unpublished. -/
theorem poolRingPopBatch_nil {max : ℕ} (hmax : 0 < max) {passes : List (BatchReads τ)}
    (h : poolRingPopBatch max passes = some []) : ∃ pass ∈ passes, pass.ready 0 = false := by
  induction passes with
  | nil => exact absurd h (by simp [poolRingPopBatch])
  | cons r rs ih =>
    unfold poolRingPopBatch at h
    dsimp only at h
    by_cases hn : countReady r.ready max 0 = 0
    · refine ⟨r, List.mem_cons_self .., ?_⟩
      obtain ⟨left, rfl⟩ : ∃ left, max = left + 1 := ⟨max - 1, by omega⟩
      unfold countReady at hn
      by_contra hr
      rw [if_pos (by simpa using hr)] at hn
      have := countReady_le r.ready left (0 + 1)
      omega
    · rw [if_neg hn] at h
      cases hc : r.cas with
      | true =>
        rw [hc, if_pos rfl] at h
        have hlen := congrArg List.length (Option.some.inj h)
        rw [List.length_map, List.length_range] at hlen
        exact absurd hlen hn
      | false =>
        rw [hc, if_neg (by simp)] at h
        obtain ⟨pass, hpass, hready⟩ := ih h
        exact ⟨pass, List.mem_cons_of_mem r hpass, hready⟩

/-- What a call saw that was given nothing: a deque was empty or the task it aimed at went to
another thread, and the cell at the head of a ring was not published. -/
theorem GetRecord.FoundNothing.seen {c : GetRecord d τ} (h : c.FoundNothing) :
    (c.reads.take.bottom ≤ c.reads.take.top ∨ c.reads.take.bottom ≤ c.reads.take.topAgain ∨
      c.reads.take.topAgain = c.reads.take.bottom - 1 ∧ c.reads.take.cas = false) ∧
    (∀ s, ∃ pass ∈ c.reads.batch s, pass.ready 0 = false) ∧
    ∀ v, v ≠ c.before.index →
      (c.reads.steal v).bottom ≤ (c.reads.steal v).top ∨ (c.reads.steal v).cas = false := by
  refine ⟨poolDequeTake_none h.own, ?_, ?_⟩
  · intro s
    exact poolRingPopBatch_nil (by decide) (h.shards s)
  · intro v hv
    exact poolDequeSteal_none (h.others v hv)

/-- A scan that ends without a batch was given nothing by each shard it came to. -/
theorem shardScan_none {batch : Fin d.n_shards → List (BatchReads τ)} {sc : Fin d.n_shards}
    {left g : ℕ} (h : shardScan batch sc left g = some none) :
    ∀ j < left, poolRingPopBatch POOL_BATCH (batch (shardAt sc (g + j))) = some [] := by
  induction left generalizing g with
  | zero =>
    intro j hj
    omega
  | succ left ih =>
    unfold shardScan at h
    cases hp : poolRingPopBatch POOL_BATCH (batch (shardAt sc g)) with
    | none =>
      rw [hp] at h
      exact absurd h (by simp)
    | some out =>
      rw [hp] at h
      cases out with
      | cons t rest => exact absurd h (by simp)
      | nil =>
        intro j hj
        by_cases hj0 : j = 0
        · rw [hj0]
          exact hp
        · have := ih h (j - 1) (by omega)
          rw [show g + 1 + (j - 1) = g + j by omega] at this
          exact this

theorem stealScan_none {steal : Fin d.n_total → StealReads τ} {index s2 : Fin d.n_total}
    {left k : ℕ} (h : stealScan steal index s2 left k = none) :
    ∀ j < left, victimAt s2 (k + j) ≠ index →
      poolDequeSteal (steal (victimAt s2 (k + j))) = none := by
  induction left generalizing k with
  | zero =>
    intro j hj
    omega
  | succ left ih =>
    unfold stealScan at h
    have hrest : victimAt s2 k = index ∨ poolDequeSteal (steal (victimAt s2 k)) = none := by
      by_cases hself : victimAt s2 k = index
      · exact Or.inl hself
      · rw [if_neg hself] at h
        cases hs : poolDequeSteal (steal (victimAt s2 k)) with
        | none => exact Or.inr rfl
        | some t =>
          rw [hs] at h
          exact absurd h (by simp)
    have htail : stealScan steal index s2 left (k + 1) = none := by
      by_cases hself : victimAt s2 k = index
      · rw [if_pos hself] at h
        exact h
      · rw [if_neg hself, hrest.resolve_left hself] at h
        exact h
    intro j hj hne
    by_cases hj0 : j = 0
    · rw [hj0] at hne ⊢
      exact hrest.resolve_left hne
    · have := ih htail (j - 1) (by omega)
      rw [show k + 1 + (j - 1) = k + j by omega] at this
      exact this hne

/-- A walk of `n` steps around `n` places comes to each of them. -/
theorem walk_reaches {n start : ℕ} (hn : n < 2 ^ 31) (hstart : start < n) (first : ℕ)
    (hfirst : first ≤ 1) (i : ℕ) (hi : i < n) :
    ∃ j < n, (start + (first + j)) % 2 ^ 32 % n = i := by
  rcases Nat.lt_or_ge i (start + first) with hlt | hge
  · refine ⟨i + n - (start + first), by omega, ?_⟩
    rw [show start + (first + (i + n - (start + first))) = i + n by omega,
      Nat.mod_eq_of_lt (show i + n < 2 ^ 32 by omega), Nat.add_mod_right, Nat.mod_eq_of_lt hi]
  · refine ⟨i - (start + first), by omega, ?_⟩
    rw [show start + (first + (i - (start + first))) = i by omega,
      Nat.mod_eq_of_lt (show i < 2 ^ 32 by omega), Nat.mod_eq_of_lt hi]

theorem shardAt_reaches (sc s : Fin d.n_shards) : ∃ j < d.n_shards, shardAt sc (0 + j) = s := by
  obtain ⟨j, hj, he⟩ := walk_reaches d.shards_int sc.isLt 0 (by omega) s.val s.isLt
  exact ⟨j, hj, Fin.ext he⟩

theorem victimAt_reaches (s2 v : Fin d.n_total) : ∃ j < d.n_total, victimAt s2 (1 + j) = v := by
  obtain ⟨j, hj, he⟩ := walk_reaches d.total_int s2.isLt 1 (by omega) v.val v.isLt
  exact ⟨j, hj, Fin.ext he⟩

/-- A call that returned a task by one of the branches after the LIFO slot. -/
structure Elsewhere (w : PoolWorker d τ) (r : GetReads d τ) (t : τ) (source : TaskSource d) :
    Prop where
  notLifo : source ≠ .lifo
  drained : source = .drained → (⟨w, r, t, source⟩ : GetRecord d τ).FoundNothing

theorem poolTryElsewhere_spec {self self' : PoolWorker d τ} {r : GetReads d τ}
    {out : Option (τ × TaskSource d)} (h : poolTryElsewhere self r = some (out, self')) :
    out = none ∧ self' = self ∨
      ∃ t source, out = some (t, source) ∧ Elsewhere self r t source := by
  unfold poolTryElsewhere at h
  cases htake : poolDequeTake r.take with
  | some t =>
    rw [htake] at h
    obtain ⟨rfl, rfl⟩ := Prod.mk.inj (Option.some.inj h)
    exact Or.inr ⟨t, .deque, rfl, by simp, fun he => absurd he (by simp)⟩
  | none =>
    rw [htake] at h
    dsimp only at h
    cases hpend : self.pending[self.pend_i]? with
    | some t =>
      rw [hpend] at h
      obtain ⟨rfl, rfl⟩ := Prod.mk.inj (Option.some.inj h)
      exact Or.inr ⟨t, .pending, rfl, by simp, fun he => absurd he (by simp)⟩
    | none =>
      rw [hpend] at h
      dsimp only at h
      cases hshard : shardScan r.batch self.shard_cursor d.n_shards 0 with
      | none =>
        rw [hshard] at h
        exact absurd h (by simp)
      | some found =>
        rw [hshard] at h
        cases found with
        | some b =>
          obtain ⟨s, t, batch⟩ := b
          obtain ⟨rfl, rfl⟩ := Prod.mk.inj (Option.some.inj h)
          exact Or.inr ⟨t, .shard s, rfl, by simp, fun he => absurd he (by simp)⟩
        | none =>
          dsimp only at h
          cases hsteal : stealScan r.steal self.index self.steal_cursor d.n_total 1 with
          | some b =>
            obtain ⟨v, t⟩ := b
            rw [hsteal] at h
            obtain ⟨rfl, rfl⟩ := Prod.mk.inj (Option.some.inj h)
            exact Or.inr ⟨t, .stolen v, rfl, by simp, fun he => absurd he (by simp)⟩
          | none =>
            rw [hsteal] at h
            dsimp only at h
            cases hlifo : self.lifo with
            | none =>
              rw [hlifo] at h
              obtain ⟨rfl, rfl⟩ := Prod.mk.inj (Option.some.inj h)
              exact Or.inl ⟨rfl, rfl⟩
            | some t =>
              rw [hlifo] at h
              obtain ⟨rfl, rfl⟩ := Prod.mk.inj (Option.some.inj h)
              refine Or.inr ⟨t, .drained, rfl, by simp, fun _ => ?_⟩
              -- every place was asked on the way here
              constructor
              · exact htake
              · exact List.getElem?_eq_none_iff.mp hpend
              · intro s
                obtain ⟨j, hj, rfl⟩ := shardAt_reaches self.shard_cursor s
                exact shardScan_none hshard j hj
              · intro v hv
                obtain ⟨j, hj, rfl⟩ := victimAt_reaches self.steal_cursor v
                exact stealScan_none hsteal j hj hv

/-- A call either takes from the LIFO slot under the cap, or goes elsewhere. -/
theorem poolTryGet_spec {self self' : PoolWorker d τ} {r : GetReads d τ}
    {out : Option (τ × TaskSource d)} (h : poolTryGet self r = some (out, self')) :
    out = none ∧ self' = self ∨ ∃ t source, out = some (t, source) ∧
      ((source = .lifo ∧ self.lifo_streak < POOL_LIFO_CAP ∧
        self'.lifo_streak = self.lifo_streak + 1) ∨ Elsewhere self r t source) := by
  have helse : poolTryElsewhere self r = some (out, self') → out = none ∧ self' = self ∨
      ∃ t source, out = some (t, source) ∧
        ((source = .lifo ∧ self.lifo_streak < POOL_LIFO_CAP ∧
          self'.lifo_streak = self.lifo_streak + 1) ∨ Elsewhere self r t source) := by
    intro he
    rcases poolTryElsewhere_spec he with hnone | ⟨t, source, hout, hspec⟩
    · exact Or.inl hnone
    · exact Or.inr ⟨t, source, hout, Or.inr hspec⟩
  unfold poolTryGet at h
  cases hlifo : self.lifo with
  | none =>
    rw [hlifo] at h
    exact helse h
  | some t =>
    rw [hlifo] at h
    dsimp only at h
    by_cases hcap : self.lifo_streak < POOL_LIFO_CAP
    · rw [if_pos hcap] at h
      obtain ⟨rfl, rfl⟩ := Prod.mk.inj (Option.some.inj h)
      exact Or.inr ⟨t, .lifo, rfl, Or.inl ⟨rfl, hcap, rfl⟩⟩
    · rw [if_neg hcap] at h
      exact helse h

/-- The calls of a run: the streak counts at least those that took from the slot since the last
that did not, no such row exceeds the cap, and a drained task came after asking everywhere. -/
structure SlotInv (s : SlotState d τ) : Prop where
  streak : ∀ a row, s.calls = a ++ row → (∀ c ∈ row, c.source = .lifo) →
    row.length ≤ s.worker.lifo_streak
  capped : ∀ a row b, s.calls = a ++ row ++ b → (∀ c ∈ row, c.source = .lifo) →
    row.length ≤ POOL_LIFO_CAP
  drained : ∀ c ∈ s.calls, c.source = .drained → c.FoundNothing

theorem SlotInv.get {s : SlotState d τ} (h : SlotInv s) {self' : PoolWorker d τ}
    {c : GetRecord d τ}
    (hc : (c.source = .lifo ∧ s.worker.lifo_streak < POOL_LIFO_CAP ∧
      self'.lifo_streak = s.worker.lifo_streak + 1) ∨
      c.source ≠ .lifo ∧ (c.source = .drained → c.FoundNothing)) :
    SlotInv ⟨self', s.calls ++ [c]⟩ := by
  -- a row that ends with the new call is a row of the calls before it, and the new one
  have hrow : ∀ a row, s.calls ++ [c] = a ++ row → (∀ x ∈ row, x.source = .lifo) →
      row.length ≤ self'.lifo_streak ∧ row.length ≤ POOL_LIFO_CAP := by
    intro a row he hall
    rcases List.eq_nil_or_concat row with rfl | ⟨front, last, rfl⟩
    · exact ⟨Nat.zero_le _, Nat.zero_le _⟩
    · rw [List.concat_eq_append, ← List.append_assoc] at he
      obtain ⟨hcalls, hlast⟩ := List.append_inj' he rfl
      obtain rfl : c = last := List.cons_eq_cons.mp hlast |>.1
      have hclifo : c.source = .lifo := hall c (by simp)
      rcases hc with ⟨-, hcap, hnext⟩ | ⟨hne, -⟩
      · have hfront := h.streak a front hcalls fun x hx => hall x (by simp [hx])
        rw [List.concat_eq_append, List.length_append, List.length_singleton]
        omega
      · exact absurd hclifo hne
  refine ⟨fun a row he hall => (hrow a row he hall).1, ?_, ?_⟩
  · intro a row b he hall
    rcases List.eq_nil_or_concat b with rfl | ⟨front, last, rfl⟩
    · rw [List.append_nil] at he
      exact (hrow a row he hall).2
    · rw [List.concat_eq_append, ← List.append_assoc] at he
      exact h.capped a row front (List.append_inj' he rfl).1 hall
  · intro x hx hd
    rcases List.mem_append.mp hx with hx | hx
    · exact h.drained x hx hd
    · obtain rfl := List.mem_singleton.mp hx
      rcases hc with ⟨hl, -⟩ | ⟨-, hfound⟩
      · rw [hl] at hd
        exact absurd hd (by simp)
      · exact hfound hd

theorem slotStep_inv {s s' : SlotState d τ} (h : SlotInv s) {l : SlotLabel d τ}
    (hs : slotStep s l = some s') : SlotInv s' := by
  unfold slotStep at hs
  cases l with
  | get r =>
    obtain ⟨⟨out, self'⟩, hget, rfl⟩ := Option.map_eq_some_iff.mp hs
    rcases poolTryGet_spec hget with ⟨rfl, rfl⟩ | ⟨t, source, rfl, hspec⟩
    · simpa using h
    · apply h.get
      rcases hspec with hl | he
      · exact Or.inl hl
      · exact Or.inr ⟨he.notLifo, he.drained⟩
  | submit t r =>
    obtain rfl := Option.some.inj hs
    have hstreak : (poolSubmitReentrant s.worker t r).2.lifo_streak = s.worker.lifo_streak := by
      unfold poolSubmitReentrant
      split
      · rfl
      · rfl
    exact ⟨fun a row he hall => by rw [hstreak]; exact h.streak a row he hall, h.capped, h.drained⟩

theorem slot_inv {s : SlotState d τ} (h : (slotSystem d τ).Reachable s) : SlotInv s := by
  apply h.invariant
  · intro s hs
    have hnil : s.calls = [] := hs
    refine ⟨?_, ?_, ?_⟩
    · intro a row he _
      rw [hnil] at he
      rw [(List.append_eq_nil_iff.mp he.symm).2]
      exact Nat.zero_le _
    · intro a row b he _
      rw [hnil] at he
      rw [(List.append_eq_nil_iff.mp (List.append_eq_nil_iff.mp he.symm).1).2]
      exact Nat.zero_le _
    · intro c hc
      rw [hnil] at hc
      exact absurd hc (by simp)
  · intro _ _ _ hinv hs
    exact slotStep_inv hinv hs

/-- Among more than `POOL_LIFO_CAP` successful calls in a row that all return the LIFO task, one
asked everywhere else first and was given nothing. -/
theorem poolTryGet_lifo_capped {s : SlotState d τ} (h : (slotSystem d τ).Reachable s)
    (a row b : List (GetRecord d τ)) (hrow : s.calls = a ++ row ++ b)
    (hlen : POOL_LIFO_CAP + 1 ≤ row.length) (hlifo : ∀ c ∈ row, c.source.IsLifo) :
    ∃ c ∈ row, c.FoundNothing := by
  have hinv := slot_inv h
  by_contra hnone
  have hall : ∀ c ∈ row, c.source = .lifo := by
    intro c hc
    have hl := hlifo c hc
    cases hsource : c.source with
    | lifo => rfl
    | drained =>
      have hmem : c ∈ s.calls := by
        rw [hrow]
        exact List.mem_append_left b (List.mem_append_right a hc)
      exact absurd ⟨c, hc, hinv.drained c hmem hsource⟩ hnone
    | _ => rw [hsource] at hl; exact hl.elim
  have hcap := hinv.capped a row b hrow hall
  omega

def twoWorkers : PoolSizes where
  n_shards := 1
  n_total := 2
  shards_pos := by decide
  total_pos := by decide
  shards_int := by decide
  total_int := by decide

def firstWorker : PoolWorker twoWorkers ℕ where
  index := ⟨0, by decide⟩
  shard_cursor := ⟨0, by decide⟩
  steal_cursor := ⟨0, by decide⟩
  lifo := none
  lifo_streak := 0
  pending := []
  pend_i := 0

def emptyReads : GetReads twoWorkers ℕ where
  take := ⟨0, 0, 0, 0, false⟩
  batch := fun _ => [⟨fun _ => false, fun _ => 0, false⟩]
  steal := fun _ => ⟨0, 0, 0, false⟩

def respawn : List (SlotLabel twoWorkers ℕ) := [.submit 7 ⟨0, 0⟩, .get emptyReads]

theorem poolTryGet_lifo_capped_respawn :
    ∃ s : SlotState twoWorkers ℕ, (slotSystem twoWorkers ℕ).Reachable s ∧
      s.calls.map GetRecord.source = List.replicate 8 .lifo ++ [.drained] ∧
      ∃ c ∈ s.calls, c.FoundNothing := by
  have hrun : ((slotSystem twoWorkers ℕ).exec ⟨firstWorker, []⟩
      (List.replicate 9 respawn).flatten).map (fun s => s.calls.map GetRecord.source) =
      some (List.replicate 8 .lifo ++ [.drained]) := by decide +kernel
  obtain ⟨s, hs, hsources⟩ := Option.map_eq_some_iff.mp hrun
  have hreach := System.Reachable.exec (.init rfl) hs
  have hlen := congrArg List.length hsources
  rw [List.length_map] at hlen
  refine ⟨s, hreach, hsources, ?_⟩
  apply poolTryGet_lifo_capped hreach [] s.calls []
  · simp
  · rw [hlen]
    decide
  · intro c hc
    have hmem := List.mem_map_of_mem (f := GetRecord.source) hc
    rw [hsources] at hmem
    revert hmem
    generalize c.source = source
    intro hmem
    simp only [List.mem_append, List.mem_replicate, List.mem_singleton] at hmem
    rcases hmem with ⟨-, rfl⟩ | rfl
    · trivial
    · trivial

end Xplatbase.ThreadPool.Slot
