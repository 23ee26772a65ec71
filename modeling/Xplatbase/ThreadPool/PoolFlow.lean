import Xplatbase.ThreadPool.PoolTasks

/-! What each step of the pool does to the tasks and to the counters. -/
namespace Xplatbase.ThreadPool
open Xplatbase.Lib

variable {ι : Type*} {d : PoolDims} {s s' : PoolState ι} {w : ℕ}

/-- The task at `a` is dropped. -/
structure Drops (s s' : PoolState ι) (a : Place ι) (t : ℕ) : Prop where
  held : s.holds a = some t
  gone : s'.holds a = none
  rest : ∀ p, p ≠ a → s'.holds p = s.holds p

theorem getElem?_reverse_cons {α : Type*} (a : α) (l : List α) (i : ℕ) :
    (a :: l).reverse[i]? = if i = l.length then some a else l.reverse[i]? := by
  rw [List.reverse_cons, List.getElem?_append, List.length_reverse]
  split_ifs with h₁ h₂ h₂
  · omega
  · rfl
  · simp [h₂]
  · rw [List.getElem?_eq_none (by simp; omega), List.getElem?_eq_none (by simp; omega)]

/-- The innermost task goes from `p` to `q`. -/
theorem holds_frames {x : PoolWorker} {t : ℕ} {p q : FramePc} {rest : List Frame} (n m : ℕ)
    (hx : x.frames = ⟨t, p⟩ :: rest) {sl : Slot}
    (hs : sl = .spawning rest.length → q.spawning = p.spawning)
    (hq : sl = .placing rest.length → q.placing = p.placing) :
    { x with inTask := n, startCount := m, frames := ⟨t, q⟩ :: rest }.holds sl = x.holds sl := by
  cases sl <;> simp only [PoolWorker.holds, hx, getElem?_reverse_cons]
  case running i => split_ifs <;> rfl
  case spawning i =>
    split_ifs with hi
    · exact hs (by rw [hi])
    · rfl
  case placing i =>
    split_ifs with hi
    · exact hq (by rw [hi])
    · rfl

theorem drops_spawning {t u : ℕ} {rest : List Frame}
    (hf : (s.workers w).frames = ⟨t, .stopTest u⟩ :: rest) :
    Drops s ((s.answer u false).setFrames w (⟨t, .user⟩ :: rest))
      (.worker w (.spawning rest.length)) u := by
  refine ⟨?_, (holds_setWorker_self ..).trans ?_, fun p hp => holds_setWorker_of fun sl hsl => ?_⟩
  · simp [PoolState.holds, PoolWorker.holds, hf, FramePc.spawning]
  · simp [PoolWorker.holds, FramePc.spawning]
  · exact holds_frames _ _ hf (fun h => absurd (hsl.trans (by rw [h])) hp) fun _ => rfl

theorem holds_push {x : PoolWorker} {t : ℕ} {fs : List Frame} {sl : Slot}
    (hs : sl ≠ .running fs.length) :
    { x with frames := ⟨t, .enter⟩ :: fs }.holds sl = { x with frames := fs }.holds sl := by
  cases sl <;> simp only [PoolWorker.holds, getElem?_reverse_cons]
  case running i => rw [if_neg fun hi => hs (by rw [hi])]
  all_goals
    split_ifs with hi
    · simp [hi, FramePc.spawning, FramePc.placing]
    · rfl

section Flow

variable [DecidableEq ι]

/-- A step moves tasks unnoticed, counts or uncounts the task it moves, brings in the task of a
new submit, or drops the task of a refused one. -/
inductive TaskFlow (d : PoolDims) (s s' : PoolState ι) : Prop
  | shift (h : Shift s.holds s'.holds) (ctrs : s'.ctrs = s.ctrs)
    (submitted : s'.submitted = s.submitted)
  | count (i : ℕ) (a b : Place ι) (h : Relocates (moveTo a b) s.holds s'.holds)
    (hi : i < d.nCtrs) (ha : s.holds a ≠ none) (hac : a.counted = false)
    (hbc : b.counted = true) (haa : a.accepted = false)
    (ctrs : s'.ctrs = Function.update s.ctrs i (s.ctrs i + 1))
    (submitted : s'.submitted = s.submitted)
  | uncount (i : ℕ) (a b : Place ι) (h : Relocates (moveTo a b) s.holds s'.holds)
    (hi : i < d.nCtrs) (ha : s.holds a ≠ none) (hac : a.counted = true)
    (hbc : b.counted = false) (hacc : a.accepted → b.accepted)
    (ctrs : s'.ctrs = Function.update s.ctrs i (s.ctrs i - 1))
    (submitted : s'.submitted = s.submitted)
  | call (a : Place ι) (ha : s.holds a = none) (ha' : s'.holds a = some s.submitted)
    (hac : a.counted = false) (haa : a.accepted = false)
    (hrest : ∀ p, p ≠ a → s'.holds p = s.holds p) (ctrs : s'.ctrs = s.ctrs)
    (submitted : s'.submitted = s.submitted + 1)
  | refuse (a : Place ι) (t : ℕ) (h : Drops s s' a t) (hac : a.counted = false)
    (haa : a.accepted = false) (ctrs : s'.ctrs = s.ctrs) (submitted : s'.submitted = s.submitted)

theorem relocates_finish {y : PoolWorker} {t n : ℕ}
    (ht : (s.workers w).holds (.running n) = some t) (hy' : y.holds (.running n) = none)
    (hy : ∀ sl, sl ≠ .running n → y.holds sl = (s.workers w).holds sl)
    (hw : s'.workers = Function.update s.workers w y) (hfin : s'.finished = t :: s.finished)
    (hr : s'.rings = s.rings) (hc : s'.clients = s.clients) :
    Relocates (moveTo (.worker w (.running n)) (.finished s.finished.length)) s.holds
      s'.holds := by
  have hself : ∀ sl, s'.holds (.worker w sl) = y.holds sl := fun sl => by
    simp only [PoolState.holds, hw, Function.update_self]
  refine .move ?_ ?_ (fun _ => (hself _).trans hy') fun p hpa hpb => ?_
  · simp [PoolState.holds]
  · simp only [PoolState.holds, hfin, getElem?_reverse_cons, if_pos]
    exact ht.symm
  · cases p with
    | worker v sl =>
      by_cases hv : v = w
      · subst hv
        exact (hself sl).trans (hy sl fun h => hpa (by rw [h]))
      · simp only [PoolState.holds, hw, Function.update_of_ne hv]
    | finished i =>
      have hi : i ≠ s.finished.length := fun h => hpb (by rw [h])
      simp only [PoolState.holds, hfin, getElem?_reverse_cons, if_neg hi]
    | ring j pos => simp only [PoolState.holds, hr]
    | calling c => simp only [PoolState.holds, hc]
    | pushing c => simp only [PoolState.holds, hc]

/-- The outermost task of worker `w` is over. -/
theorem holds_nextTurn {x : PoolWorker} {t : ℕ} {v : ℤ} (hf : x.frames = [⟨t, .ctrStore v⟩])
    (hpc : x.pc = .run) {sl : Slot} (hsl : sl ≠ .running 0) :
    (d.nextTurn w x).holds sl = x.holds sl := by
  unfold PoolDims.nextTurn
  split_ifs <;> cases sl <;> simp only [PoolWorker.holds, hf, hpc]
  case pos.running i | neg.running i =>
    have hi : i ≠ 0 := fun h => hsl (by rw [h])
    simp [hi]
  case pos.spawning i | neg.spawning i | pos.placing i | neg.placing i =>
    cases i <;> simp [FramePc.spawning, FramePc.placing]
  all_goals rfl

theorem holds_pop {x : PoolWorker} {t t' u : ℕ} {v : ℤ} {rest : List Frame}
    (hf : x.frames = ⟨t, .ctrStore v⟩ :: ⟨t', .nested u⟩ :: rest) {sl : Slot}
    (hsl : sl ≠ .running (rest.length + 1)) :
    { x with frames := ⟨t', .user⟩ :: rest }.holds sl = x.holds sl := by
  cases sl <;> simp only [PoolWorker.holds, hf]
  case running i =>
    have hi : i ≠ rest.length + 1 := fun h => hsl (by rw [h])
    rw [getElem?_reverse_cons, getElem?_reverse_cons, List.length_cons, if_neg hi,
      getElem?_reverse_cons]
    split_ifs <;> rfl
  all_goals
    rename_i i
    rw [getElem?_reverse_cons, getElem?_reverse_cons, List.length_cons, getElem?_reverse_cons]
    split_ifs with h₁ h₂ h₂
    · omega
    · rfl
    · simp [h₂, FramePc.spawning, FramePc.placing]
    · rfl

theorem poolRun_flow (h : PoolWf d s) (hw : w < d.nTotal) {t : ℕ} {p : FramePc}
    {rest : List Frame} (hf : (s.workers w).frames = ⟨t, p⟩ :: rest)
    (hs : poolRun d s w t rest p = some s') : TaskFlow d s s' := by
  have hctr : d.ctrOf w < d.nCtrs := Nat.add_lt_add_left hw _
  have hspawn : s.holds (.worker w (.spawning rest.length)) = p.spawning := by
    simp [PoolState.holds, PoolWorker.holds, hf]
  have hplace : s.holds (.worker w (.placing rest.length)) = p.placing := by
    simp [PoolState.holds, PoolWorker.holds, hf]
  cases p <;> simp only [poolRun, Option.some.injEq, reduceCtorEq] at hs
  case enter | count | leave | ctrLoad =>
    subst hs
    refine .shift (.of_eq ?_) rfl rfl
    refine holds_setWorker (funext fun sl => ?_)
    exact holds_frames _ _ hf (fun _ => rfl) fun _ => rfl
  case stopTest u =>
    subst hs
    split_ifs
    · exact .refuse _ u (drops_spawning hf) rfl rfl rfl rfl
    · refine .shift (.of_eq ?_) rfl rfl
      refine holds_setWorker (funext fun sl => ?_)
      exact holds_frames _ _ hf (fun _ => rfl) fun _ => rfl
  case inc u =>
    subst hs
    refine .count (d.ctrOf w) (.worker w (.spawning rest.length)) (.worker w (.placing rest.length))
      ?_ hctr (by rw [hspawn]; intro h; cases h) rfl rfl rfl rfl rfl
    refine relocates_slot (s := s) hplace ?_ (fun _ => ?_) fun sl ha hb => ?_
    · refine Eq.trans ?_ hspawn.symm
      simp [PoolWorker.holds, FramePc.spawning, FramePc.placing]
    · simp [PoolWorker.holds, FramePc.spawning]
    · exact holds_frames _ _ hf (fun h => absurd h ha) fun h => absurd h hb
  case place u =>
    subst hs
    split <;> rename_i hl
    · refine .shift (.move (a := .worker w (.placing rest.length)) (b := .worker w .lifo) ?_ rfl
        fun _ => rfl) rfl rfl
      refine relocates_slot (s := s) hl hplace.symm (fun _ => ?_) fun sl ha hb => ?_
      · simp [PoolWorker.holds, FramePc.placing]
      · rw [← holds_frames (q := .user) 0 0 hf (fun _ => rfl) fun h => absurd h ha]
        cases sl with
        | lifo => exact absurd rfl hb
        | _ => rfl
    · rename_i old
      split_ifs
      · -- the old task goes on the stack, and the new one takes its slot
        refine .shift (.moveTwo (a := .worker w .lifo) (b := .worker w (.running (rest.length + 1)))
          (c := .worker w (.placing rest.length)) ?_ rfl rfl rfl rfl) rfl rfl
        refine relocates_slots (s := s) (fun h => by cases h) (fun h => by cases h)
          (fun h => by cases h) ?_ ?_ hplace.symm ?_ fun sl ha hb hc => ?_
        · simp [PoolWorker.holds, hf]
        · simp [PoolWorker.holds, hl]
        · simp [PoolWorker.holds, FramePc.placing]
        · rw [← holds_frames (q := .nested u) 0 0 hf (fun _ => rfl) fun h => absurd h hc]
          refine Eq.trans ?_ (holds_push (t := old) hb)
          cases sl with
          | lifo => exact absurd rfl ha
          | _ => rfl
      · -- the old task goes to the deque, and the new one takes its slot
        refine .shift (.moveTwo (a := .worker w .lifo)
          (b := .worker w (.deque (s.workers w).deque.bottom))
          (c := .worker w (.placing rest.length)) ?_ rfl rfl rfl rfl) rfl rfl
        have hd := (h.worker w).1
        refine relocates_slots (s := s) (fun h => by cases h) (fun h => by cases h)
          (fun h => by cases h) ?_ ?_ hplace.symm ?_ fun sl ha hb hc => ?_
        · simp [PoolWorker.holds]
        · simp [PoolWorker.holds, hl, hd]
        · simp [PoolWorker.holds, FramePc.placing]
        · rw [← holds_frames (q := .wake u (.parked (.deque w))) 0 0 hf (fun _ => rfl)
            fun h => absurd h hc]
          cases sl with
          | lifo => exact absurd rfl ha
          | deque i =>
            have hi : i ≠ (s.workers w).deque.bottom := fun h => hb (by rw [h])
            simp only [PoolWorker.holds, Function.update_of_ne hi]
            congr 1
            simp only [eq_iff_iff]
            omega
          | _ => rfl
  case wake u q =>
    have hc := poolWakeSubmit_calm d s q
    have hfr := (hc.kept w).frames.trans hf
    split at hs <;> rename_i hwake <;> rw [hwake] at hc hfr <;> subst hs
    all_goals
      refine .shift (.of_eq (Eq.trans ?_ hc.holds)) hc.ctrs hc.submitted
      refine funext fun p => holds_setWorker_of fun sl hp => ?_
      exact holds_frames _ _ hfr (fun _ => rfl) fun _ => rfl
  case ctrStore v =>
    obtain ⟨hpc, hv, hrest⟩ := h.frames_ok hf
    have hv : v = s.ctrs (d.ctrOf w) := hv
    subst hv
    have ht : (s.workers w).holds (.running rest.length) = some t := by
      simp [PoolWorker.holds, hf]
    refine .uncount (d.ctrOf w) (.worker w (.running rest.length)) (.finished s.finished.length)
      ?_ hctr (by rw [PoolState.holds, ht]; intro h; cases h) rfl rfl (fun _ => rfl) ?_ ?_
    · cases rest with
      | nil =>
        subst hs
        refine relocates_finish ht ?_ (fun sl hsl => holds_nextTurn hf hpc hsl) rfl rfl rfl rfl
        unfold PoolDims.nextTurn
        split_ifs <;> simp [PoolWorker.holds]
      | cons g rest =>
        obtain ⟨u, hu⟩ := hrest g List.mem_cons_self
        obtain ⟨t', q⟩ := g
        obtain rfl : q = .nested u := hu
        subst hs
        refine relocates_finish ht ?_ (fun sl hsl => holds_pop hf hsl) rfl rfl rfl rfl
        simp [PoolWorker.holds]
    all_goals
      subst hs
      split <;> rfl

/-! ### Steps of the other threads -/

theorem holds_setClient_of {c : ι} {q : ClientPc} {p : Place ι}
    (hcall : p = .calling c → q.calling = (s.clients c).calling)
    (hpush : p = .pushing c → q.pushing = (s.clients c).pushing) :
    (s.setClient c q).holds p = s.holds p := by
  cases p with
  | calling c' =>
    by_cases hc : c' = c
    · subst hc
      simpa only [PoolState.holds, PoolState.setClient, Function.update_self] using hcall rfl
    · simp only [PoolState.holds, PoolState.setClient, Function.update_of_ne hc]
  | pushing c' =>
    by_cases hc : c' = c
    · subst hc
      simpa only [PoolState.holds, PoolState.setClient, Function.update_self] using hpush rfl
    · simp only [PoolState.holds, PoolState.setClient, Function.update_of_ne hc]
  | _ => rfl

/-- Nothing moves when a client goes on without its task changing hands. -/
theorem flow_setClient {s₁ : PoolState ι} {c : ι} {q : ClientPc} (hh : s₁.holds = s.holds)
    (hcl : s₁.clients = s.clients) (hctr : s₁.ctrs = s.ctrs) (hsub : s₁.submitted = s.submitted)
    (hcall : q.calling = (s.clients c).calling) (hpush : q.pushing = (s.clients c).pushing) :
    TaskFlow d s (s₁.setClient c q) := by
  refine .shift (.of_eq (Eq.trans ?_ hh)) hctr hsub
  refine funext fun p => holds_setClient_of (fun _ => ?_) fun _ => ?_
  · rw [hcall, hcl]
  · rw [hpush, hcl]

@[simp] theorem holds_calling (c : ι) (q : ClientPc) :
    (s.setClient c q).holds (.calling c) = q.calling := by
  simp only [PoolState.holds, PoolState.setClient, Function.update_self]

@[simp] theorem holds_pushing (c : ι) (q : ClientPc) :
    (s.setClient c q).holds (.pushing c) = q.pushing := by
  simp only [PoolState.holds, PoolState.setClient, Function.update_self]

theorem drops_calling {c : ι} {t : ℕ} (hcall : (s.clients c).calling = some t)
    (hpush : (s.clients c).pushing = none) :
    Drops s ((s.answer t false).setClient c .idle) (.calling c) t := by
  refine ⟨hcall, holds_calling .., fun p hp => ?_⟩
  exact holds_setClient_of (s := s.answer t false) (fun h => absurd h hp) fun _ => hpush.symm

theorem relocates_client {s₁ : PoolState ι} {c : ι} {q : ClientPc} {a b : Place ι} {t : ℕ}
    (hab : a = .calling c ∧ b = .pushing c ∨ a = .pushing c ∧ b = .calling c)
    (hh : s₁.holds = s.holds) (ha : s.holds a = some t) (hb : s.holds b = none)
    (ha' : (s₁.setClient c q).holds a = none) (hb' : (s₁.setClient c q).holds b = some t) :
    Relocates (moveTo a b) s.holds (s₁.setClient c q).holds := by
  refine .move hb (hb'.trans ha.symm) (fun _ => ha') fun p hpa hpb => ?_
  rw [← hh]
  rcases hab with ⟨rfl, rfl⟩ | ⟨rfl, rfl⟩
  · exact holds_setClient_of (fun h => absurd h hpa) fun h => absurd h hpb
  · exact holds_setClient_of (fun h => absurd h hpb) fun h => absurd h hpa

theorem holds_publish {j pos t : ℕ} {c : ι} (hle : (s.rings j).head ≤ pos)
    (hnone : (s.rings j).cell pos = none)
    (hc : s.clients c = .submit t (.publish j pos)) {q : ClientPc}
    (hcall : q.calling = none) (hpush : q.pushing = none) :
    Relocates (moveTo (.pushing c) (.ring j pos)) s.holds
      ((s.setRing j { s.rings j with
        cell := Function.update (s.rings j).cell pos (some t) }).setClient c q).holds := by
  refine .move ?_ ?_ (fun _ => (holds_pushing ..).trans hpush) fun p hpa hpb => ?_
  · simp [PoolState.holds, TaskRing.holds, hnone]
  · simp [PoolState.holds, TaskRing.holds, PoolState.setClient, PoolState.setRing, hle, hc,
      ClientPc.pushing]
  · refine (holds_setClient_of (fun _ => ?_) fun h => absurd h hpa).trans ?_
    · rw [hcall]
      simp [PoolState.setRing, hc, ClientPc.calling]
    · cases p with
      | ring k p =>
        by_cases hk : k = j
        · subst hk
          have hp : p ≠ pos := fun h => hpb (by rw [h])
          simp only [PoolState.holds, PoolState.setRing, Function.update_self, TaskRing.holds,
            Function.update_of_ne hp]
        · simp only [PoolState.holds, PoolState.setRing, Function.update_of_ne hk]
      | _ => rfl

theorem poolSubmitRelative_flow (h : PoolWf d s) {c : ι} {t : ℕ} {b : Bool} {p : SubmitPc}
    (hc : s.clients c = .submit t p) : TaskFlow d s (poolSubmitRelative d s c t b p) := by
  have hgo : ∀ {s₁ : PoolState ι} {q : ClientPc}, s₁.holds = s.holds → s₁.clients = s.clients →
      s₁.ctrs = s.ctrs → s₁.submitted = s.submitted →
      q.calling = (ClientPc.submit t p).calling → q.pushing = (ClientPc.submit t p).pushing →
      TaskFlow d s (s₁.setClient c q) := fun hh hcl hctr hsub hcall hpush =>
    flow_setClient hh hcl hctr hsub (hc ▸ hcall) (hc ▸ hpush)
  have hctr : ∀ {j}, p.shard = some j → j < d.nCtrs := fun hj =>
    (h.shard c t p _ hc hj).trans_le (Nat.le_add_right ..)
  have hcall : s.holds (.calling c) = (ClientPc.submit t p).calling := by rw [PoolState.holds, hc]
  have hpush : s.holds (.pushing c) = (ClientPc.submit t p).pushing := by rw [PoolState.holds, hc]
  cases p <;> simp only [poolSubmitRelative]
  case stopTest | retry =>
    split_ifs
    · exact .refuse _ t (drops_calling (by rw [hc]; rfl) (by rw [hc]; rfl)) rfl rfl rfl rfl
    · exact hgo rfl rfl rfl rfl rfl rfl
  case pick | pushLoad => exact hgo rfl rfl rfl rfl rfl rfl
  case inc j =>
    refine .count j (.calling c) (.pushing c) ?_ (hctr rfl) (by rw [hcall]; intro h; cases h) rfl rfl rfl
      rfl rfl
    exact relocates_client (.inl ⟨rfl, rfl⟩) rfl hcall hpush (holds_calling ..) (holds_pushing ..)
  case pushSeq => exact hgo rfl rfl rfl rfl (by split_ifs <;> rfl) (by split_ifs <;> rfl)
  case pushCas j pos =>
    split_ifs with htail
    · refine hgo (funext fun p => ?_) rfl rfl rfl rfl rfl
      cases p with
      | ring k q =>
        by_cases hk : k = j
        · subst hk
          simp only [PoolState.holds, PoolState.setRing, Function.update_self, TaskRing.holds]
        · simp only [PoolState.holds, PoolState.setRing, Function.update_of_ne hk]
      | _ => rfl
    · exact hgo rfl rfl rfl rfl rfl rfl
  case publish j pos =>
    obtain ⟨hlt, hnone⟩ := h.publish c t j pos hc
    have hle : (s.rings j).head ≤ pos := by
      by_contra hlt'
      have := (h.ring j).below pos (not_le.mp hlt')
      simp [hnone] at this
    exact .shift (.move (holds_publish hle hnone hc rfl rfl) rfl fun _ => rfl) rfl rfl
  case undo j =>
    refine .uncount j (.pushing c) (.calling c) ?_ (hctr rfl) (by rw [hpush]; intro h; cases h) rfl rfl
        (fun h => by cases h)
      rfl rfl
    exact relocates_client (.inr ⟨rfl, rfl⟩) rfl hpush hcall (holds_pushing ..) (holds_calling ..)
  case wake q =>
    have hcalm := poolWakeSubmit_calm d s q
    split <;> rename_i hwake <;> rw [hwake] at hcalm <;>
      exact hgo hcalm.holds hcalm.clients hcalm.ctrs hcalm.submitted rfl rfl
  case mon | monClaim => split_ifs <;> exact hgo rfl rfl rfl rfl rfl rfl
  case monSignal => exact hgo rfl rfl rfl rfl rfl rfl

theorem poolClient_flow (h : PoolWf d s) {c : ι} {b : Bool}
    (hs : poolClient d s c b (s.clients c) = some s') : TaskFlow d s s' := by
  have hgo : ∀ {s₁ : PoolState ι} {q : ClientPc}, (s.clients c).calling = none →
      (s.clients c).pushing = none → s₁.holds = s.holds → s₁.clients = s.clients →
      s₁.ctrs = s.ctrs → s₁.submitted = s.submitted → q.calling = none → q.pushing = none →
      TaskFlow d s (s₁.setClient c q) := fun hc hp hh hcl hctr hsub hcall hpush =>
    flow_setClient hh hcl hctr hsub (hcall.trans hc.symm) (hpush.trans hp.symm)
  cases hc : s.clients c <;> rw [hc] at hs <;>
    simp only [poolClient, Option.some.injEq, reduceCtorEq] at hs
  case submit t p =>
    subst hs
    exact poolSubmitRelative_flow h hc
  all_goals rw [hc] at hgo
  case joinMon | joinWorker =>
    split at hs
    · cases hs
      exact hgo rfl rfl rfl rfl rfl rfl (by split_ifs <;> rfl) (by split_ifs <;> rfl)
    · simp at hs
  case waitIdle i sum | destroyWait i sum =>
    subst hs
    refine hgo rfl rfl rfl rfl rfl rfl ?_ ?_ <;> split <;> (try split_ifs) <;> rfl
  case wakeWorker i =>
    subst hs
    have hcalm := s.calm_setSignal i true
    exact hgo rfl rfl hcalm.holds rfl rfl rfl rfl rfl
  case vigiaSignal n i =>
    subst hs
    have hcalm := s.calm_setSignal i true
    exact hgo rfl rfl hcalm.holds rfl rfl rfl (by split_ifs <;> rfl) (by split_ifs <;> rfl)
  case vigiaClaim n i =>
    subst hs
    have hcalm := s.calm_setParked i false
    split_ifs
    · exact hgo rfl rfl hcalm.holds rfl rfl rfl rfl rfl
    all_goals exact hgo rfl rfl rfl rfl rfl rfl rfl rfl
  case perfilMon =>
    subst hs
    split_ifs <;> exact hgo rfl rfl rfl rfl rfl rfl rfl rfl
  all_goals
    subst hs
    refine hgo rfl rfl rfl rfl rfl rfl ?_ ?_ <;> (try split_ifs) <;> rfl

theorem poolMonitorFn_flow (hs : poolMonitorFn d s s.monitor = some s') : TaskFlow d s s' := by
  have hcalm : ∀ {s₁ : PoolState ι} {m : MonitorPc}, s.Calm s₁ →
      TaskFlow d s { s₁ with monitor := m } := fun hc =>
    .shift (.of_eq hc.holds) hc.ctrs hc.submitted
  cases hm : s.monitor <;> rw [hm] at hs <;>
    simp only [poolMonitorFn, Option.some.injEq, reduceCtorEq] at hs
  case sleep =>
    split_ifs at hs
    cases hs
    exact .shift (.of_eq rfl) rfl rfl
  case stuckTask i stuck count =>
    subst hs
    exact .shift (.of_eq (holds_setWorker (x := { s.workers i with monLast := count })
      (funext fun sl => by cases sl <;> rfl))) rfl rfl
  case claim e toWake =>
    subst hs
    split_ifs
    · exact hcalm (s.calm_setParked e false)
    · exact .shift (.of_eq rfl) rfl rfl
  case signal e toWake =>
    subst hs
    exact hcalm (s.calm_setSignal e true)
  all_goals
    subst hs
    exact .shift (.of_eq rfl) rfl rfl

theorem poolStep_flow (h : PoolWf d s) {l : PoolLabel ι} (hs : poolStep d s l = some s') :
    TaskFlow d s s' := by
  cases l with
  | call c k =>
    simp only [poolStep] at hs
    split at hs <;> simp only [Option.some.injEq, reduceCtorEq] at hs
    rename_i hc
    subst hs
    cases k with
    | giroMaxUs us => exact .shift (.of_eq rfl) rfl rfl
    | submit =>
      refine .call (.calling c) (by rw [PoolState.holds, hc]; rfl) (holds_calling ..) rfl rfl
        (fun p hp => ?_) rfl rfl
      exact holds_setClient_of (fun h => absurd h hp) fun _ => by rw [hc]; rfl
    | _ => exact flow_setClient rfl rfl rfl rfl (by rw [hc]; rfl) (by rw [hc]; rfl)
  | client c b => exact poolClient_flow h hs
  | worker w b =>
    simp only [poolStep] at hs
    split_ifs at hs with hw
    split at hs
    · rename_i hf
      have hl := poolWorkerFn_loop hs
      exact .shift (poolWorkerFn_shift h hf hs) hl.ctrs hl.submitted
    · exact poolRun_flow h hw ‹_› hs
  | spawn w =>
    simp only [poolStep] at hs
    split at hs <;> simp only [Option.some.injEq, reduceCtorEq] at hs
    rename_i t rest hf
    subst hs
    refine .call (.worker w (.spawning rest.length)) ?_ ?_ rfl rfl (fun p hp => ?_) rfl rfl
    · simp [PoolState.holds, PoolWorker.holds, hf, FramePc.spawning]
    · refine (holds_setWorker_self ..).trans ?_
      simp [PoolWorker.holds, FramePc.spawning]
    · refine holds_setWorker_of fun sl hsl => ?_
      exact holds_frames _ _ hf (fun h => absurd (hsl.trans (by rw [h])) hp) fun _ => rfl
  | finish w =>
    simp only [poolStep] at hs
    split at hs <;> simp only [Option.some.injEq, reduceCtorEq] at hs
    rename_i t rest hf
    subst hs
    refine .shift (.of_eq (holds_setWorker (funext fun sl => ?_))) rfl rfl
    exact holds_frames _ _ hf (fun _ => rfl) fun _ => rfl
  | lapse w clear woken =>
    simp only [poolStep] at hs
    split at hs <;> simp only [Option.some.injEq, reduceCtorEq] at hs
    rename_i eco hpc
    subst hs
    exact .shift (.of_eq (holds_setPc (by rw [hpc]; split_ifs <;> rfl))) rfl rfl
  | monitor => exact poolMonitorFn_flow hs
  | monitorLapse clear =>
    simp only [poolStep] at hs
    split at hs <;> simp only [Option.some.injEq, reduceCtorEq] at hs
    subst hs
    exact .shift (.of_eq rfl) rfl rfl

end Flow
end Xplatbase.ThreadPool
