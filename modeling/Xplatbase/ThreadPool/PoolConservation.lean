import Xplatbase.ThreadPool.PoolFlow

/-! Task conservation: a task that a submit has accepted is always in exactly one place, and a
refused one in none. -/
namespace Xplatbase.ThreadPool
open Xplatbase.Lib

variable {ι : Type*} {d : PoolDims} {s s' : PoolState ι} {w : ℕ}

def PoolState.Accepted (s : PoolState ι) (t : ℕ) : Prop :=
  ∃ p, p.accepted = true ∧ s.holds p = some t

/-- The submit has put the task in its place and is about to return true. -/
def SubmitPc.posted : SubmitPc → Bool
  | .wake _ | .mon | .monClaim | .monSignal => true
  | _ => false

def FramePc.posted : FramePc → Option ℕ
  | .nested t | .wake t _ => some t
  | _ => none

def PoolState.Posted (s : PoolState ι) (t : ℕ) : Prop :=
  (∃ c p, s.clients c = .submit t p ∧ p.posted) ∨
    ∃ w, ∃ f ∈ (s.workers w).frames, f.pc.posted = some t

structure TaskInv (s : PoolState ι) : Prop where
  once : AtMostOnce s.holds
  fresh : ∀ p k, s.holds p = some k → k < s.submitted
  posted : ∀ t, s.Posted t → s.Accepted t
  answered : ∀ t, (t, true) ∈ s.returned → s.Accepted t
  refused : ∀ t, (t, false) ∈ s.returned → t < s.submitted ∧ ∀ p, s.holds p ≠ some t

/-! ### Tasks -/

section Tasks

variable [DecidableEq ι]

theorem moveTo_accepted {a b p : Place ι} (hacc : a.accepted → b.accepted)
    (hp : p.accepted = true) : (moveTo a b p).accepted = true := by
  unfold moveTo
  split_ifs with h
  · exact hacc (h ▸ hp)
  · exact hp

theorem TaskFlow.once (h : TaskFlow d s s') (hs : TaskInv s) : AtMostOnce s'.holds := by
  cases h with
  | shift h =>
    obtain ⟨f, hf, -⟩ := h
    exact hf.atMostOnce hs.once
  | count i a b h => exact h.atMostOnce hs.once
  | uncount i a b h => exact h.atMostOnce hs.once
  | call a ha ha' hac haa hrest =>
    refine hs.once.insert (fun p hp => ?_) ha' hrest
    exact absurd (hs.fresh p _ hp) (lt_irrefl _)
  | refuse a t h => exact hs.once.erase h.gone h.rest

theorem TaskFlow.submitted_le (h : TaskFlow d s s') : s.submitted ≤ s'.submitted := by
  cases h <;> omega

theorem TaskFlow.origin (h : TaskFlow d s s') {p : Place ι} {k : ℕ} (hp : s'.holds p = some k) :
    (∃ q, s.holds q = some k) ∨ k = s.submitted ∧ s'.submitted = s.submitted + 1 := by
  cases h with
  | shift h =>
    obtain ⟨f, hf, -⟩ := h
    obtain ⟨q, hq, -⟩ := (hf p k).mp hp
    exact .inl ⟨q, hq⟩
  | count i a b h | uncount i a b h =>
    obtain ⟨q, hq, -⟩ := (h p k).mp hp
    exact .inl ⟨q, hq⟩
  | call a ha ha' hac haa hrest hctr hsub =>
    by_cases hpa : p = a
    · rw [hpa, ha'] at hp
      exact .inr ⟨(Option.some.inj hp).symm, hsub⟩
    · exact .inl ⟨p, hrest p hpa ▸ hp⟩
  | refuse a t h =>
    by_cases hpa : p = a
    · simp [hpa, h.gone] at hp
    · exact .inl ⟨p, h.rest p hpa ▸ hp⟩

theorem TaskFlow.fresh (h : TaskFlow d s s') (hs : TaskInv s) (p : Place ι) (k : ℕ)
    (hp : s'.holds p = some k) : k < s'.submitted := by
  rcases h.origin hp with ⟨q, hq⟩ | ⟨rfl, hsub⟩
  · exact (hs.fresh q k hq).trans_le h.submitted_le
  · omega

theorem TaskFlow.accepted (h : TaskFlow d s s') {t : ℕ} (ht : s.Accepted t) : s'.Accepted t := by
  obtain ⟨p, hacc, hp⟩ := ht
  cases h with
  | shift h =>
    obtain ⟨f, hf, hk⟩ := h
    exact ⟨f p, (hk p (by simp [hp])).2 hacc, hf.at hp⟩
  | count i a b h hi ha hac hbc haa =>
    exact ⟨_, moveTo_accepted (fun h => by simp [haa] at h) hacc, h.at hp⟩
  | uncount i a b h hi ha hac hbc hab => exact ⟨_, moveTo_accepted hab hacc, h.at hp⟩
  | call a ha ha' hac haa hrest =>
    have hpa : p ≠ a := fun h => by simp [← h, hacc] at haa
    exact ⟨p, hacc, hrest p hpa ▸ hp⟩
  | refuse a u h hac haa =>
    have hpa : p ≠ a := fun h => by simp [← h, hacc] at haa
    exact ⟨p, hacc, h.rest p hpa ▸ hp⟩

end Tasks

/-! ### Answers -/

/-- The frames of `s'` are frames of `s`, or tasks about to start. -/
def PoolState.FramesKept (s s' : PoolState ι) : Prop :=
  ∀ v, ∀ f ∈ (s'.workers v).frames, f ∈ (s.workers v).frames ∨ f.pc = .enter

theorem PoolState.FramesKept.of_eq (h : ∀ v, (s'.workers v).frames = (s.workers v).frames) :
    s.FramesKept s' := fun v _ hf => .inl (h v ▸ hf)

theorem PoolState.Calm.frames (h : s.Calm s') : s.FramesKept s' :=
  .of_eq fun v => (h.kept v).frames

theorem PoolState.FramesKept.setWorker (h : s.FramesKept s') {x : PoolWorker}
    (hx : ∀ f ∈ x.frames, f ∈ (s.workers w).frames ∨ f.pc = .enter) :
    s.FramesKept (s'.setWorker w x) := by
  intro v f hf
  by_cases hv : v = w
  · subst hv
    simp only [PoolState.setWorker, Function.update_self] at hf
    exact hx f hf
  · simp only [PoolState.setWorker, Function.update_of_ne hv] at hf
    exact h v f hf

theorem PoolState.FramesKept.setPc (h : s.FramesKept s') (w : ℕ) (p : WorkerPc) :
    s.FramesKept (s'.setPc w p) :=
  h.setWorker fun _ hf => h w _ hf

theorem PoolState.FramesKept.run (h : s.FramesKept s') (w t : ℕ) : s.FramesKept (s'.run w t) :=
  h.setWorker fun _ hf => by
    obtain rfl := List.mem_singleton.mp hf
    exact .inr rfl

theorem PoolState.FramesKept.found (h : s.FramesKept s') (w t : ℕ) (site : GetSite) :
    s.FramesKept (s'.found w t site) := by
  unfold PoolState.found
  split
  · split_ifs
    · exact h.setPc w _
    · exact h.run w t
  · exact h.setPc w _
  · exact h.run w t

theorem poolTryGet_frames (d : PoolDims) (s : PoolState ι) (w : ℕ) (b : Bool) (p : GetPc) :
    s.FramesKept (poolTryGet d s w b p).1 := by
  have hrefl : s.FramesKept s := .of_eq fun _ => rfl
  have hset : ∀ {x : PoolWorker}, x.frames = (s.workers w).frames →
      s.FramesKept (s.setWorker w x) := fun hx => hrefl.setWorker fun f hf => .inl (hx ▸ hf)
  cases p with
  | start =>
    simp only [poolTryGet]
    split
    · exact hset rfl
    · split_ifs
      · exact hset rfl
      · exact hset rfl
      · exact hrefl
  | popLoad => exact hrefl
  | popSeq =>
    simp only [poolTryGet]
    split_ifs <;> exact hrefl
  | popCas =>
    simp only [poolTryGet]
    split
    · exact hset rfl
    · exact hrefl
  | steal =>
    simp only [poolTryGet]
    split
    · rename_i hv
      refine PoolState.FramesKept.setWorker ?_ fun f hf => ?_
      · exact hrefl.setWorker fun f hf => .inl hf
      · simp only [PoolState.setWorker, Function.update_of_ne hv.1.symm] at hf
        exact .inl hf
    · exact hrefl
  | lifo =>
    simp only [poolTryGet]
    split
    · exact hset rfl
    · exact hrefl

theorem poolWorkerFn_frames {b : Bool} {p : WorkerPc} (hs : poolWorkerFn d s w b p = some s') :
    s.FramesKept s' := by
  have hrefl : s.FramesKept s := .of_eq fun _ => rfl
  have hword : ∀ {n g : ℤ}, s.FramesKept { s with nParkedCore := n, nGirando := g } :=
    fun {n g} => .of_eq fun _ => rfl
  cases p <;> simp only [poolWorkerFn, Option.some.injEq, reduceCtorEq] at hs
  case get site p =>
    have hf := poolTryGet_frames d s w b p
    split at hs <;> rename_i hg <;> rw [hg] at hf <;> subst hs
    · exact hf.setPc w _
    · exact hf.found w _ site
    · exact hf.setPc w _
  case giraFim sp t =>
    subst hs
    cases t with
    | none => exact hword.setPc w _
    | some t =>
      dsimp only
      split_ifs
      · exact hword.setPc w _
      · exact hword.run w t
  case giraFila t j =>
    subst hs
    split_ifs
    · exact hrefl.setPc w _
    · exact hrefl.run w t
  case giraWake t p =>
    have hf := (poolWakeSubmit_calm d s p).frames
    split at hs <;> rename_i hg <;> rw [hg] at hf <;> subst hs
    · exact hf.setPc w _
    · exact hf.run w t
  case prepare | sleepClear | elasticPrepare =>
    subst hs
    exact (s.calm_setSignal w false).frames.setPc w _
  case announce | elasticPark =>
    subst hs
    exact (s.calm_setParked w true).frames.setPc w _
  case retract t =>
    subst hs
    exact (s.calm_setParked w false).frames.run w t
  case spinCount | announceCount | retractCount | wokenCount =>
    subst hs
    exact hword.setPc w _
  case sleep =>
    split_ifs at hs
    cases hs
    exact hrefl.setPc w _
  case woken =>
    subst hs
    exact hrefl.setWorker fun f hf => .inl hf
  case elasticActive =>
    subst hs
    split_ifs <;> exact hrefl.setWorker fun f hf => .inl hf
  case elasticGiro =>
    subst hs
    split_ifs
    · exact hrefl.setPc w _
    all_goals exact hrefl.setWorker fun f hf => .inl hf
  all_goals
    subst hs
    exact hrefl.setPc w _

/-- What a step adds to the submits that have posted their task and to the answers. -/
structure Answers (s s' : PoolState ι) : Prop where
  posted : ∀ t, s'.Posted t → s.Posted t ∨ s'.Accepted t
  yes : ∀ t, (t, true) ∈ s'.returned →
    (t, true) ∈ s.returned ∨ s.Posted t ∨ s'.Accepted t
  no : ∀ t, (t, false) ∈ s'.returned → (t, false) ∈ s.returned ∨ ∃ a, Drops s s' a t

theorem Answers.none (hret : s'.returned = s.returned)
    (hp : ∀ t, s'.Posted t → s.Posted t ∨ s'.Accepted t) : Answers s s' :=
  ⟨hp, fun _ ht => .inl (hret ▸ ht), fun _ ht => .inl (hret ▸ ht)⟩

theorem Answers.accept {u : ℕ} (hret : s'.returned = (u, true) :: s.returned)
    (hp : ∀ t, s'.Posted t → s.Posted t ∨ s'.Accepted t) (hu : s.Posted u ∨ s'.Accepted u) :
    Answers s s' := by
  refine ⟨hp, fun t ht => ?_, fun t ht => ?_⟩ <;> rw [hret] at ht
  · rcases List.mem_cons.mp ht with h | h
    · cases h
      exact .inr hu
    · exact .inl h
  · rcases List.mem_cons.mp ht with h | h
    · simp at h
    · exact .inl h

theorem Answers.refuse {u : ℕ} {a : Place ι} (hret : s'.returned = (u, false) :: s.returned)
    (hp : ∀ t, s'.Posted t → s.Posted t ∨ s'.Accepted t) (hu : Drops s s' a u) :
    Answers s s' := by
  refine ⟨hp, fun t ht => ?_, fun t ht => ?_⟩ <;> rw [hret] at ht
  · rcases List.mem_cons.mp ht with h | h
    · simp at h
    · exact .inl h
  · rcases List.mem_cons.mp ht with h | h
    · cases h
      exact .inr ⟨a, hu⟩
    · exact .inl h

theorem PoolState.FramesKept.posted (h : s.FramesKept s') (hc : s'.clients = s.clients) {t : ℕ}
    (ht : s'.Posted t) : s.Posted t := by
  rcases ht with ⟨c, p, hp, hpo⟩ | ⟨w, f, hf, hpo⟩
  · exact .inl ⟨c, p, hc ▸ hp, hpo⟩
  · rcases h w f hf with hf | he
    · exact .inr ⟨w, f, hf, hpo⟩
    · simp [he, FramePc.posted] at hpo

theorem Answers.of_frames (h : s.FramesKept s') (hc : s'.clients = s.clients)
    (hret : s'.returned = s.returned) : Answers s s' :=
  .none hret fun _ ht => .inl (h.posted hc ht)

/-- The innermost task of a worker goes on at `q`. -/
theorem posted_setWorker {s₁ : PoolState ι} {x : PoolWorker} {u t : ℕ} {q : FramePc}
    {rest : List Frame} (h : s.FramesKept s₁) (hc : s₁.clients = s.clients)
    (hx : x.frames = ⟨t, q⟩ :: rest) (hrest : ∀ f ∈ rest, f ∈ (s.workers w).frames)
    (ht : (s₁.setWorker w x).Posted u) : s.Posted u ∨ q.posted = some u := by
  rcases ht with ⟨c, p, hp, hpo⟩ | ⟨v, f, hf, hpo⟩
  · exact .inl (h.posted hc (.inl ⟨c, p, hp, hpo⟩))
  · by_cases hv : v = w
    · subst hv
      simp only [PoolState.setWorker, Function.update_self, hx] at hf
      rcases List.mem_cons.mp hf with rfl | hf
      · exact .inr hpo
      · exact .inl (.inr ⟨v, f, hrest f hf, hpo⟩)
    · simp only [PoolState.setWorker, Function.update_of_ne hv] at hf
      exact .inl (h.posted hc (.inr ⟨v, f, hf, hpo⟩))

theorem poolRun_answers {t : ℕ} {p : FramePc} {rest : List Frame}
    (hf : (s.workers w).frames = ⟨t, p⟩ :: rest) (hs : poolRun d s w t rest p = some s') :
    Answers s s' := by
  have hrefl : s.FramesKept s := .of_eq fun _ => rfl
  have hrest : ∀ f ∈ rest, f ∈ (s.workers w).frames := fun f hm => by
    rw [hf]
    exact List.mem_cons_of_mem _ hm
  have hquiet : ∀ {z : PoolState ι} {x : PoolWorker} {q : FramePc} {u : ℕ}, s.FramesKept z →
      z.clients = s.clients → x.frames = ⟨t, q⟩ :: rest → q.posted = none →
      (z.setWorker w x).Posted u → s.Posted u ∨ (z.setWorker w x).Accepted u :=
    fun h hc hx hq hp => .inl ((posted_setWorker h hc hx hrest hp).resolve_right (by simp [hq]))
  cases p <;> simp only [poolRun, Option.some.injEq, reduceCtorEq] at hs
  case enter | count | leave | ctrLoad =>
    subst hs
    exact .none rfl fun u hu => hquiet hrefl rfl rfl rfl hu
  case stopTest u =>
    subst hs
    split_ifs
    · exact .refuse rfl (fun t ht => hquiet (z := s.answer u false) hrefl rfl rfl rfl ht)
        (drops_spawning hf)
    · exact .none rfl fun u hu => hquiet hrefl rfl rfl rfl hu
  case inc u =>
    subst hs
    exact .none rfl fun t ht => hquiet (z := s.addCtr (d.ctrOf w) 1) hrefl rfl rfl rfl ht
  case place u =>
    subst hs
    have hacc : ∀ {z : PoolState ι} {x : PoolWorker}, x.lifo = some u →
        (z.setWorker w x).Accepted u := fun hx =>
      ⟨.worker w .lifo, rfl, (holds_setWorker_self ..).trans hx⟩
    split
    · exact .accept rfl (fun t ht => hquiet (z := s.answer u true) hrefl rfl rfl rfl ht)
        (.inr (hacc rfl))
    · split_ifs
      · refine .none rfl fun v hv => ?_
        rcases hv with ⟨c, p, hp, hpo⟩ | ⟨i, f, hi, hpo⟩
        · exact .inl (.inl ⟨c, p, hp, hpo⟩)
        · by_cases hiw : i = w
          · subst hiw
            simp only [PoolState.setWorker, Function.update_self] at hi
            rcases List.mem_cons.mp hi with rfl | hi
            · simp [FramePc.posted] at hpo
            rcases List.mem_cons.mp hi with rfl | hi
            · cases hpo
              exact .inr (hacc rfl)
            · exact .inl (.inr ⟨i, f, hrest f hi, hpo⟩)
          · simp only [PoolState.setWorker, Function.update_of_ne hiw] at hi
            exact .inl (.inr ⟨i, f, hi, hpo⟩)
      · refine .none rfl fun v hv => ?_
        rcases posted_setWorker hrefl rfl rfl hrest hv with hv | hv
        · exact .inl hv
        · cases hv
          exact .inr (hacc rfl)
  case wake u q =>
    have hu : s.Posted u := .inr ⟨w, ⟨t, .wake u q⟩, by rw [hf]; exact List.mem_cons_self, rfl⟩
    have hc := poolWakeSubmit_calm d s q
    split at hs <;> rename_i hwake <;> rw [hwake] at hc <;> subst hs
    · refine .none hc.returned fun v hv => ?_
      rcases posted_setWorker hc.frames hc.clients rfl hrest hv with hv | hv
      · exact .inl hv
      · cases hv
        exact .inl hu
    · rename_i s₁
      refine .accept (congrArg _ hc.returned) (fun v hv => ?_) (.inl hu)
      exact hquiet (z := s₁.answer u true) hc.frames hc.clients rfl rfl hv
  case ctrStore v =>
    subst hs
    split
    · rename_i t' u rest
      have hu : s.Posted u :=
        .inr ⟨w, ⟨t', .nested u⟩, hrest _ List.mem_cons_self, rfl⟩
      refine .accept rfl (fun v hv => ?_) (.inl hu)
      refine .inl ((posted_setWorker (s := s) ?_ rfl rfl ?_ hv).resolve_right (fun h => by cases h))
      · exact hrefl
      · exact fun f hm => hrest f (List.mem_cons_of_mem _ hm)
    · refine .of_frames (PoolState.FramesKept.setWorker ?_ fun f hm => ?_) rfl rfl
      · exact hrefl
      · unfold PoolDims.nextTurn at hm
        split_ifs at hm <;> simp at hm

section Client

variable [DecidableEq ι]

theorem posted_setClient {s₁ : PoolState ι} {c : ι} {q : ClientPc} {u : ℕ} (h : s.FramesKept s₁)
    (hc : s₁.clients = s.clients) (hu : (s₁.setClient c q).Posted u) :
    s.Posted u ∨ ∃ p, q = .submit u p ∧ p.posted := by
  rcases hu with ⟨c', p, hp, hpo⟩ | hf
  · by_cases hcc : c' = c
    · subst hcc
      simp only [PoolState.setClient, Function.update_self] at hp
      exact .inr ⟨p, hp, hpo⟩
    · simp only [PoolState.setClient, Function.update_of_ne hcc] at hp
      exact .inl (h.posted hc (.inl ⟨c', p, hp, hpo⟩))
  · exact .inl (h.posted hc (.inr hf))

theorem poolSubmitRelative_answers (h : PoolWf d s) {c : ι} {t : ℕ} {b : Bool} {p : SubmitPc}
    (hc : s.clients c = .submit t p) : Answers s (poolSubmitRelative d s c t b p) := by
  have hrefl : s.FramesKept s := .of_eq fun _ => rfl
  have hquiet : ∀ {z : PoolState ι} {q : ClientPc} {u : ℕ}, s.FramesKept z →
      z.clients = s.clients → (∀ p, q = .submit u p → p.posted = true → s.Posted u) →
      (z.setClient c q).Posted u → s.Posted u ∨ (z.setClient c q).Accepted u :=
    fun h hc hq hu => by
      rcases posted_setClient h hc hu with hu | ⟨p, hp, hpo⟩
      · exact .inl hu
      · exact .inl (hq p hp hpo)
  have hgo : ∀ {z : PoolState ι} {q : SubmitPc}, z.workers = s.workers →
      z.clients = s.clients → z.returned = s.returned → q.posted = false →
      Answers s (z.setClient c (.submit t q)) := fun hw hc hret hq =>
    .none hret fun u hu => hquiet (.of_eq fun v => by rw [hw]) hc
      (fun p hp hpo => by cases hp; simp [hq] at hpo) hu
  have hpost : p.posted = true → s.Posted t := fun hp => .inl ⟨c, p, hc, hp⟩
  have hdone : ∀ {z : PoolState ι}, z.workers = s.workers → z.clients = s.clients →
      z.returned = s.returned → p.posted = true →
      Answers s ((z.answer t true).setClient c .idle) := fun {z} hw hc hret hp =>
    .accept (congrArg _ hret)
      (fun u hu => hquiet (z := z.answer t true) (.of_eq fun v => by rw [PoolState.answer, hw]) hc
        nofun hu)
      (.inl (hpost hp))
  have hstay : ∀ {z : PoolState ι} {q : SubmitPc}, s.FramesKept z →
      z.clients = s.clients → z.returned = s.returned → p.posted = true →
      Answers s (z.setClient c (.submit t q)) := fun hw hc hret hp =>
    .none hret fun u hu => hquiet hw hc (fun q hq _ => by cases hq; exact hpost hp) hu
  cases p <;> simp only [poolSubmitRelative]
  case stopTest | retry =>
    split_ifs
    · exact .refuse rfl (fun u hu => hquiet (z := s.answer t false) hrefl rfl nofun hu)
        (drops_calling (by rw [hc]; rfl) (by rw [hc]; rfl))
    · exact hgo rfl rfl rfl rfl
  case pushSeq j pos =>
    apply hgo rfl rfl rfl
    split_ifs <;> rfl
  case pushCas j pos => split_ifs <;> exact hgo rfl rfl rfl rfl
  case publish j pos =>
    obtain ⟨hlt, hnone⟩ := h.publish c t j pos hc
    refine .none rfl fun u hu => ?_
    rcases posted_setClient (s := s) (.of_eq fun _ => rfl) rfl hu with hu | ⟨p, hp, -⟩
    · exact .inl hu
    · cases hp
      refine .inr ⟨.ring j pos, rfl, ?_⟩
      have hle : (s.rings j).head ≤ pos := by
        by_contra hlt
        have := (h.ring j).below pos (not_le.mp hlt)
        simp [hnone] at this
      simp [PoolState.holds, TaskRing.holds, PoolState.setClient, PoolState.setRing, hle]
  case wake q =>
    have hcalm := poolWakeSubmit_calm d s q
    split <;> rename_i hwake <;> rw [hwake] at hcalm <;>
      exact hstay hcalm.frames hcalm.clients hcalm.returned rfl
  case mon =>
    split_ifs
    · exact hstay hrefl rfl rfl rfl
    · exact hdone rfl rfl rfl rfl
  case monClaim =>
    split_ifs
    · exact hstay hrefl rfl rfl rfl
    · exact hdone rfl rfl rfl rfl
  case monSignal => exact hdone (z := { s with monSignal := true }) rfl rfl rfl rfl
  all_goals exact hgo rfl rfl rfl rfl

theorem poolClient_answers (h : PoolWf d s) {c : ι} {b : Bool}
    (hs : poolClient d s c b (s.clients c) = some s') : Answers s s' := by
  have hgo : ∀ {s₁ : PoolState ι} {q : ClientPc}, s.FramesKept s₁ → s₁.clients = s.clients →
      s₁.returned = s.returned → (∀ u p, q ≠ .submit u p) → Answers s (s₁.setClient c q) :=
    fun hf hc hret hq => .none hret fun u hu =>
      .inl ((posted_setClient hf hc hu).resolve_right (by rintro ⟨p, hp, -⟩; exact hq u p hp))
  have hrefl : s.FramesKept s := .of_eq fun _ => rfl
  cases hc : s.clients c <;> rw [hc] at hs <;>
    simp only [poolClient, Option.some.injEq, reduceCtorEq] at hs
  case submit t p =>
    subst hs
    exact poolSubmitRelative_answers h hc
  case joinMon | joinWorker =>
    split at hs
    · cases hs
      exact hgo hrefl rfl rfl fun _ _ => by split_ifs <;> (intro h; cases h)
    · simp at hs
  case waitIdle i sum | destroyWait i sum =>
    subst hs
    refine hgo hrefl rfl rfl fun _ _ => ?_
    split <;> (try split_ifs) <;> (intro h; cases h)
  case wakeWorker i =>
    subst hs
    exact hgo (s.calm_setSignal i true).frames rfl rfl (by simp)
  case vigiaSignal n i =>
    subst hs
    exact hgo (s.calm_setSignal i true).frames rfl rfl fun _ _ => by split_ifs <;> (intro h; cases h)
  case vigiaClaim n i =>
    subst hs
    split_ifs
    · exact hgo (s.calm_setParked i false).frames rfl rfl (by simp)
    all_goals exact hgo hrefl rfl rfl (by simp)
  all_goals
    subst hs
    (try split_ifs) <;> exact hgo hrefl rfl rfl (by simp)

end Client

theorem poolMonitorFn_answers (hs : poolMonitorFn d s s.monitor = some s') : Answers s s' := by
  have hrefl : s.FramesKept s := .of_eq fun _ => rfl
  cases hm : s.monitor <;> rw [hm] at hs <;>
    simp only [poolMonitorFn, Option.some.injEq, reduceCtorEq] at hs
  case sleep =>
    split_ifs at hs
    cases hs
    exact .of_frames hrefl rfl rfl
  case stuckTask i stuck count =>
    subst hs
    exact .of_frames (hrefl.setWorker fun _ hf => .inl hf) rfl rfl
  case claim e toWake =>
    subst hs
    split_ifs
    · exact .of_frames (s.calm_setParked e false).frames rfl rfl
    · exact .of_frames hrefl rfl rfl
  case signal e toWake =>
    subst hs
    exact .of_frames (s.calm_setSignal e true).frames rfl rfl
  all_goals
    subst hs
    exact .of_frames hrefl rfl rfl

theorem poolStep_answers [DecidableEq ι] (h : PoolWf d s) {l : PoolLabel ι}
    (hs : poolStep d s l = some s') : Answers s s' := by
  have hrefl : s.FramesKept s := .of_eq fun _ => rfl
  cases l with
  | call c k =>
    simp only [poolStep] at hs
    split at hs <;> simp only [Option.some.injEq, reduceCtorEq] at hs
    subst hs
    cases k with
    | giroMaxUs us => exact .of_frames hrefl rfl rfl
    | submit =>
      refine .none rfl fun u hu => .inl ((posted_setClient (s := s) ?_ rfl hu).resolve_right ?_)
      · exact hrefl
      · rintro ⟨p, hp, hpo⟩
        cases hp
        simp [SubmitPc.posted] at hpo
    | _ =>
      refine .none rfl fun u hu => .inl ?_
      exact (posted_setClient hrefl rfl hu).resolve_right (by simp)
  | client c b => exact poolClient_answers h hs
  | worker w b =>
    simp only [poolStep] at hs
    split_ifs at hs
    split at hs
    · have hl := poolWorkerFn_loop hs
      exact .of_frames (poolWorkerFn_frames hs) hl.clients hl.returned
    · exact poolRun_answers ‹_› hs
  | spawn w =>
    simp only [poolStep] at hs
    split at hs <;> simp only [Option.some.injEq, reduceCtorEq] at hs
    rename_i t rest hf
    subst hs
    refine .none rfl fun u hu => .inl ?_
    refine (posted_setWorker (s := s) ?_ rfl rfl ?_ hu).resolve_right fun h => by cases h
    · exact hrefl
    · exact fun f hm => hf ▸ List.mem_cons_of_mem _ hm
  | finish w =>
    simp only [poolStep] at hs
    split at hs <;> simp only [Option.some.injEq, reduceCtorEq] at hs
    rename_i t rest hf
    subst hs
    refine .none rfl fun u hu => .inl ?_
    refine (posted_setWorker hrefl rfl rfl ?_ hu).resolve_right fun h => by cases h
    exact fun f hm => hf ▸ List.mem_cons_of_mem _ hm
  | lapse w clear woken =>
    simp only [poolStep] at hs
    split at hs <;> simp only [Option.some.injEq, reduceCtorEq] at hs
    subst hs
    exact .of_frames (hrefl.setPc w _) rfl rfl
  | monitor => exact poolMonitorFn_answers hs
  | monitorLapse clear =>
    simp only [poolStep] at hs
    split at hs <;> simp only [Option.some.injEq, reduceCtorEq] at hs
    subst hs
    exact .of_frames hrefl rfl rfl

/-! ### Conservation -/

theorem TaskInv.step [DecidableEq ι] (hs : TaskInv s) (hf : TaskFlow d s s') (ha : Answers s s') :
    TaskInv s' := by
  refine ⟨hf.once hs, hf.fresh hs, fun t ht => ?_, fun t ht => ?_, fun t ht => ?_⟩
  · rcases ha.posted t ht with ht | ht
    · exact hf.accepted (hs.posted t ht)
    · exact ht
  · rcases ha.yes t ht with ht | ht | ht
    · exact hf.accepted (hs.answered t ht)
    · exact hf.accepted (hs.posted t ht)
    · exact ht
  · rcases ha.no t ht with ht | ⟨a, ha⟩
    · obtain ⟨hlt, hno⟩ := hs.refused t ht
      refine ⟨hlt.trans_le hf.submitted_le, fun p hp => ?_⟩
      rcases hf.origin hp with ⟨q, hq⟩ | ⟨rfl, -⟩
      · exact hno q hq
      · exact absurd hlt (lt_irrefl _)
    · refine ⟨(hs.fresh a t ha.held).trans_le hf.submitted_le, fun p hp => ?_⟩
      by_cases hpa : p = a
      · simp [hpa, ha.gone] at hp
      · exact hpa (hs.once p a t (ha.rest p hpa ▸ hp) ha.held)

theorem holds_poolCreateRelative (d : PoolDims) (p : Place ι) :
    (poolCreateRelative d).holds p = none := by
  cases p with
  | worker w sl =>
    cases sl <;> simp [PoolState.holds, PoolWorker.holds, poolCreateRelative]
    case held => split_ifs <;> rfl
  | _ => simp [PoolState.holds, poolCreateRelative, TaskRing.holds, ClientPc.calling,
      ClientPc.pushing]

theorem poolCreateRelative_tasks (d : PoolDims) : TaskInv (poolCreateRelative d : PoolState ι) := by
  refine ⟨fun p _ k hp => ?_, fun p k hp => ?_, ?_, ?_, ?_⟩
  · simp [holds_poolCreateRelative] at hp
  · simp [holds_poolCreateRelative] at hp
  · rintro t (⟨c, p, hp, -⟩ | ⟨w, f, hf, -⟩)
    · simp [poolCreateRelative] at hp
    · simp [poolCreateRelative] at hf
  all_goals simp [poolCreateRelative]

theorem poolSystem_tasks [DecidableEq ι] (hr : (poolSystem d).Reachable s) : TaskInv s := by
  suffices h : PoolWf d s ∧ TaskInv s from h.2
  refine System.Reachable.invariant (P := fun s => PoolWf d s ∧ TaskInv s) (fun s₀ hi => ?_)
    (fun s₀ l s₁ h hs => ?_) hr
  · obtain rfl : s₀ = poolCreateRelative d := hi
    exact ⟨poolCreateRelative_wf d, poolCreateRelative_tasks d⟩
  · exact ⟨poolStep_wf h.1 hs, h.2.step (poolStep_flow h.1 hs) (poolStep_answers h.1 hs)⟩

/-- A task whose submit returned true is in exactly one place, and it is one that nothing but the
pool's own work takes it out of; a task whose submit returned false is in no place. -/
theorem poolSubmit_conserves [DecidableEq ι] (d : PoolDims) (hr : (poolSystem d).Reachable s) :
    (∀ t, (t, true) ∈ s.returned →
      ∃ p, p.accepted = true ∧ s.holds p = some t ∧ ∀ q, s.holds q = some t → q = p) ∧
    ∀ t, (t, false) ∈ s.returned → ∀ p, s.holds p ≠ some t := by
  have h := poolSystem_tasks hr
  refine ⟨fun t ht => ?_, fun t ht => (h.refused t ht).2⟩
  obtain ⟨p, hacc, hp⟩ := h.answered t ht
  exact ⟨p, hacc, hp, fun q hq => h.once q p t hq hp⟩

def PoolDims.single : PoolDims :=
  ⟨1, 1, 1, 1, Nat.one_pos, le_rfl, le_rfl, Nat.one_pos⟩

/-- A task submitted from outside runs and submits another. -/
theorem poolSubmit_conserves_spawn : ∃ s : PoolState Unit,
    (poolSystem .single).Reachable s ∧ s.returned = [(1, true), (0, true)] ∧
    (∀ t, (t, true) ∈ s.returned →
      ∃ p, p.accepted = true ∧ s.holds p = some t ∧ ∀ q, s.holds q = some t → q = p) ∧
    ∀ t, (t, false) ∈ s.returned → ∀ p, s.holds p ≠ some t := by
  have hout : ((poolSystem .single).exec (poolCreateRelative .single)
      (List.flatten [[.call () .submit], List.replicate 10 (.client () true),
        List.replicate 8 (.worker 0 false), [.spawn 0], List.replicate 3 (.worker 0 false)])).map
        PoolState.returned =
      some [(1, true), (0, true)] := by decide +kernel
  obtain ⟨s, hrun, hret⟩ := Option.map_eq_some_iff.mp hout
  have hr : (poolSystem .single).Reachable s := System.Reachable.exec (.init rfl) hrun
  exact ⟨s, hr, hret, poolSubmit_conserves .single hr⟩

end Xplatbase.ThreadPool
