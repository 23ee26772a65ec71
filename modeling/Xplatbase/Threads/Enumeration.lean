import Xplatbase.Threads.RegistryInvariant

/-! What `thread_enum` hands to its callback, over all schedules. An entry is never stale and never
missed; only a thread still being created is passed before its handle is set. -/
namespace Xplatbase.Threads
open Xplatbase.Lib

variable {ι κ η : Type*} {s s' : RegistryState ι κ η}

/-- No thread is given to the callback of `thread_enum` while its own `thread_create` is between
`add_list` and the store of the handle, or the removal after a failure. -/
def Apart (s : RegistryState ι κ η) : RegistryLabel ι κ η → Prop
  | .next k =>
    match s.calls k with
    | .enumerating i _ =>
      match s.threads.Items i with
      | some thr => i < s.threads.Count → ¬(s.recs thr).owner.Unset
      | none => True
    | _ => True
  | _ => True

/-- Steps that leave the enumerations alone and, under the lock, begin no creation. -/
def Aside (s s' : RegistryState ι κ η) : Prop :=
  s'.calls = s.calls ∧
    ∀ t, s.lock ≠ none → (s'.recs t).owner.Unset → (s.recs t).owner.Unset

section Aside

variable [DecidableEq ι]

theorem aside_setRec {a : RegistryState ι κ η} (hcalls : a.calls = s.calls)
    (hrecs : a.recs = s.recs) (thr : ι) (r : ThreadRec η)
    (h : s.lock ≠ none → r.owner.Unset → (s.recs thr).owner.Unset) :
    Aside s (a.setRec thr r) :=
  ⟨hcalls, RegistryInv.update_recs (fun t r => s.lock ≠ none → r.owner.Unset → (s.recs t).owner.Unset)
    (fun t _ ht => by rw [hrecs] at ht; exact ht) thr r h⟩

theorem ownerStep_aside {thr : ι} {created : Option η} (hs : ownerStep s thr created = some s') :
    Aside s s' := by
  unfold ownerStep at hs
  dsimp only at hs
  cases ho : (s.recs thr).owner with
  | free =>
    rw [ho] at hs
    exact absurd hs (by simp)
  | initing =>
    rw [ho] at hs
    obtain ⟨-, rfl⟩ := guarded hs
    obtain ⟨-, hrecs, -, -, hcalls⟩ := initOnce_fields s
    exact aside_setRec hcalls hrecs thr _ fun _ h => h.elim
  | adding =>
    rw [ho] at hs
    obtain ⟨hlock, rfl⟩ := guarded hs
    exact aside_setRec rfl rfl thr _ fun h => absurd hlock h
  | creating =>
    rw [ho] at hs
    have hunset : (s.recs thr).owner.Unset := by rw [ho]; trivial
    cases created with
    | none =>
      obtain rfl := Option.some.inj hs
      exact aside_setRec rfl rfl thr _ fun _ _ => hunset
    | some c =>
      obtain rfl := Option.some.inj hs
      exact aside_setRec rfl rfl thr _ fun _ _ => hunset
  | storing Thr =>
    rw [ho] at hs
    have hunset : (s.recs thr).owner.Unset := by rw [ho]; trivial
    obtain rfl := Option.some.inj hs
    exact aside_setRec rfl rfl thr _ fun _ _ => hunset
  | removing =>
    rw [ho] at hs
    obtain ⟨-, rfl⟩ := guarded hs
    exact aside_setRec rfl rfl thr _ fun _ h => h.elim
  | freeing =>
    rw [ho] at hs
    obtain rfl := Option.some.inj hs
    exact aside_setRec rfl rfl thr _ fun _ h => h.elim
  | returning =>
    rw [ho] at hs
    obtain rfl := Option.some.inj hs
    exact aside_setRec rfl rfl thr _ fun _ h => h.elim
  | returned =>
    rw [ho] at hs
    exact absurd hs (by simp)
  | waiting =>
    rw [ho] at hs
    obtain ⟨-, rfl⟩ := guarded hs
    exact aside_setRec rfl rfl thr _ fun _ h => h.elim
  | joining =>
    rw [ho] at hs
    obtain rfl := Option.some.inj hs
    exact aside_setRec rfl rfl thr _ fun _ h => h.elim

theorem bodyStep_aside {thr : ι} (hs : bodyStep s thr = some s') : Aside s s' := by
  unfold bodyStep at hs
  dsimp only at hs
  cases hb : (s.recs thr).body with
  | absent =>
    rw [hb] at hs
    exact absurd hs (by simp)
  | exited =>
    rw [hb] at hs
    exact absurd hs (by simp)
  | entering =>
    rw [hb] at hs
    obtain ⟨-, rfl⟩ := guarded hs
    exact aside_setRec rfl rfl thr _ fun _ h => h
  | running =>
    rw [hb] at hs
    obtain rfl := Option.some.inj hs
    exact aside_setRec rfl rfl thr _ fun _ h => h
  | ending =>
    rw [hb] at hs
    obtain ⟨-, rfl⟩ := guarded hs
    exact aside_setRec rfl rfl thr _ fun _ h => h

end Aside

/-- The thread a callback runs on has its handle, or will never have one. -/
def Handed (s : RegistryState ι κ η) : Prop :=
  ∀ k i thr passed, s.calls k = .calling i thr passed → ¬(s.recs thr).owner.Unset

theorem Handed.of_aside (hh : Handed s) (h : RegistryInv s) (ha : Aside s s') : Handed s' := by
  intro k i thr passed hc hunset
  rw [ha.1] at hc
  have hlock : s.lock = some k := (h.locked k).mp (by rw [hc]; trivial)
  exact hh k i thr passed hc (ha.2 thr (by rw [hlock]; simp) hunset)

section Handed

variable [DecidableEq κ]

theorem Handed.setCall (hh : Handed s) {a : RegistryState ι κ η} (hcalls : a.calls = s.calls)
    (hrecs : a.recs = s.recs) (k : κ) (pc : EnumPc ι)
    (hpc : ∀ i thr passed, pc = .calling i thr passed → ¬(s.recs thr).owner.Unset) :
    Handed (a.setCall k pc) := by
  intro j i thr passed hc
  rw [show (a.setCall k pc).recs = s.recs from hrecs]
  by_cases hj : j = k
  · rw [hj, show (a.setCall k pc).calls k = pc from Function.update_self ..] at hc
    exact hpc i thr passed hc
  · rw [show (a.setCall k pc).calls j = a.calls j from Function.update_of_ne hj .., hcalls] at hc
    exact hh j i thr passed hc

theorem enumStep_handed (hh : Handed s) {k : κ} (hok : Apart s (.next k))
    (hs : enumStep s k = some s') : Handed s' := by
  unfold Apart at hok
  unfold enumStep at hs
  dsimp only at hok
  cases hc : s.calls k with
  | idle =>
    rw [hc] at hs
    exact absurd hs (by simp)
  | initing =>
    rw [hc] at hs
    obtain ⟨-, rfl⟩ := guarded hs
    obtain ⟨-, hrecs, -, -, hcalls⟩ := initOnce_fields s
    exact hh.setCall hcalls hrecs k _ fun _ _ _ he => absurd he (by simp)
  | locking =>
    rw [hc] at hs
    obtain ⟨-, rfl⟩ := guarded hs
    exact hh.setCall rfl rfl k _ fun _ _ _ he => absurd he (by simp)
  | enumerating i passed =>
    rw [hc] at hs hok
    dsimp only at hs hok
    by_cases hi : i < s.threads.Count
    · rw [if_pos hi] at hs
      obtain ⟨thr, hthr, rfl⟩ := Option.map_eq_some_iff.mp hs
      rw [hthr] at hok
      apply hh.setCall rfl rfl k
      intro i' thr' passed' he
      obtain ⟨-, rfl, -⟩ := EnumPc.calling.inj he
      exact hok hi
    · rw [if_neg hi] at hs
      obtain rfl := Option.some.inj hs
      exact hh.setCall rfl rfl k _ fun _ _ _ he => absurd he (by simp)
  | calling i thr passed =>
    rw [hc] at hs
    obtain rfl := Option.some.inj hs
    exact hh.setCall rfl rfl k _ fun _ _ _ he => absurd he (by simp)
  | unlocked passed =>
    rw [hc] at hs
    obtain rfl := Option.some.inj hs
    exact hh.setCall rfl rfl k _ fun _ _ _ he => absurd he (by simp)

variable [DecidableEq ι]

theorem registryStep_handed (hh : Handed s) (h : RegistryInv s) {l : RegistryLabel ι κ η}
    (hok : Apart s l) (hs : registryStep s l = some s') : Handed s' := by
  unfold registryStep at hs
  cases l with
  | create thr =>
    dsimp only at hs
    split at hs
    · obtain rfl := Option.some.inj hs
      exact hh.of_aside h (aside_setRec rfl rfl thr _ fun _ h => h.elim)
    · exact absurd hs (by simp)
  | owner thr created => exact hh.of_aside h (ownerStep_aside hs)
  | join thr =>
    dsimp only at hs
    split at hs
    · obtain rfl := Option.some.inj hs
      apply hh.of_aside h (aside_setRec rfl rfl thr _ _)
      intro _ hunset
      dsimp only at hunset
      split at hunset
      · exact hunset.elim
      · exact hunset.elim
    · exact absurd hs (by simp)
  | body thr => exact hh.of_aside h (bodyStep_aside hs)
  | enumerate k =>
    dsimp only at hs
    obtain ⟨-, rfl⟩ := guarded hs
    exact hh.setCall rfl rfl k _ fun _ _ _ he => absurd he (by simp)
  | next k => exact enumStep_handed hh hok hs

theorem handed (h : (registrySystem ι κ η).ReachableWhen Apart s) : RegistryInv s ∧ Handed s := by
  apply h.invariant
  · rintro s rfl
    exact ⟨unregistered_inv, fun _ _ _ _ hc => absurd hc (by simp [unregistered])⟩
  · intro _ _ _ hinv hok hs
    exact ⟨registryStep_inv hinv.1 hs, registryStep_handed hinv.2 hinv.1 hok hs⟩

end Handed

/-- What the callback of `thread_enum` may rely on, whatever the other threads do. -/
structure EnumerationSound (s : RegistryState ι κ η) : Prop where
  /-- A thread given to the callback is allocated while the callback runs. -/
  live : ∀ k i thr passed, s.calls k = .calling i thr passed → (s.recs thr).owner ≠ .free
  once : ∀ k, (s.calls k).passed.Nodup
  /-- At its end an enumeration has passed every thread that was created before its beginning and
  whose function has not returned. -/
  complete : ∀ k passed thr, s.calls k = .unlocked passed → s.due k thr = true → thr ∈ passed

/-- The thread given to a callback holds the handle that the OS gave for it. -/
def HandlesSet (s : RegistryState ι κ η) : Prop :=
  ∀ k i thr passed, s.calls k = .calling i thr passed →
    ∃ h, (s.recs thr).handle = some h ∧ (s.recs thr).Thr = some h

theorem BodyPc.Entered.ne {pc : BodyPc} (h : pc.Entered) : pc ≠ .absent ∧ pc ≠ .exited := by
  constructor
  · rintro rfl
    exact h
  · rintro rfl
    exact h

theorem RegistryInv.calling_listed (h : RegistryInv s) {k : κ} {i : ℕ} {thr : ι} {passed : List ι}
    (hc : s.calls k = .calling i thr passed) : (s.recs thr).Listed := by
  have hp := h.passed k
  rw [hc] at hp
  obtain ⟨⟨-, hcount, -⟩, hthr⟩ := hp
  exact (h.listed thr).mp ⟨i, hcount, hthr⟩

theorem RegistryInv.sound (h : RegistryInv s) : EnumerationSound s := by
  constructor
  · intro k i thr passed hc ho
    rcases h.calling_listed hc with hp | hb
    · rw [ho] at hp
      exact hp
    · have hinit := ((h.fits thr).of_entered hb.ne.1).2
      rw [ho] at hinit
      exact hinit
  · intro k
    have hp := h.passed k
    cases hc : s.calls k with
    | enumerating i passed =>
      rw [hc] at hp
      exact ThreadList.Starts.nodup hp h.wellFormed
    | calling i thr passed =>
      rw [hc] at hp
      exact ThreadList.Starts.nodup hp.1 h.wellFormed
    | unlocked passed =>
      rw [hc] at hp
      exact hp.1
    | idle => exact List.nodup_nil
    | initing => exact List.nodup_nil
    | locking => exact List.nodup_nil
  · intro k passed thr hc hd
    have hp := h.passed k
    rw [hc] at hp
    exact hp.2 thr hd

theorem enumeration_sound [DecidableEq ι] [DecidableEq κ]
    (h : (registrySystem ι κ η).Reachable s) : EnumerationSound s :=
  (registry_inv h).sound

theorem OwnerPc.Pending.unset {pc : OwnerPc η} (h : pc.Pending) : pc.Unset := by
  cases pc with
  | creating => trivial
  | storing _ => trivial
  | removing => trivial
  | _ => exact h

/-- A thread in the array whose creation is past the store has its handle. -/
theorem ThreadRec.Fits.handle_set {r : ThreadRec η} (h : r.Fits) (hlisted : r.Listed)
    (hunset : ¬r.owner.Unset) : ∃ c, r.handle = some c ∧ r.Thr = some c := by
  have hb : r.body.Entered := by
    apply hlisted.resolve_left
    intro hp
    apply hunset
    exact hp.unset
  have hown := h.of_entered hb.ne.1
  have hset : r.Thr = r.handle ∧ r.handle ≠ none := by
    unfold ThreadRec.Fits at h
    cases ho : r.owner with
    | returning =>
      rw [ho] at h
      exact ⟨h.1, h.2.1⟩
    | returned =>
      rw [ho] at h
      exact ⟨h.1, h.2.1⟩
    | waiting =>
      rw [ho] at h
      exact ⟨h.1, h.2.1⟩
    | joining =>
      rw [ho] at h
      exact absurd h hb.ne.2
    | storing Thr => exact absurd trivial (by rw [ho] at hunset; exact hunset)
    | creating => exact absurd trivial (by rw [ho] at hunset; exact hunset)
    | removing => exact absurd trivial (by rw [ho] at hunset; exact hunset)
    | free => exact absurd hown.2 (by rw [ho]; exact id)
    | initing => exact absurd hown.2 (by rw [ho]; exact id)
    | adding =>
      rw [ho] at h
      exact absurd h.1 hb.ne.1
    | freeing =>
      rw [ho] at h
      exact absurd h.1 hb.ne.1
  obtain ⟨c, hc⟩ := Option.ne_none_iff_exists'.mp hset.2
  exact ⟨c, hc, hset.1.trans hc⟩

/-- In every run that keeps creations and callbacks apart, what `thread_enum` passes is allocated,
has its handle, comes once, and leaves out no thread that runs throughout. -/
theorem threadEnum_handles_set [DecidableEq ι] [DecidableEq κ]
    (h : (registrySystem ι κ η).ReachableWhen Apart s) :
    EnumerationSound s ∧ HandlesSet s := by
  obtain ⟨hinv, hhanded⟩ := handed h
  constructor
  · exact hinv.sound
  · intro k i thr passed hc
    exact (hinv.fits thr).handle_set (hinv.calling_listed hc) (hhanded k i thr passed hc)

instance (s : RegistryState ι κ η) (l : RegistryLabel ι κ η) : Decidable (Apart s l) := by
  unfold Apart
  split
  · split
    · split <;> infer_instance
    · infer_instance
  · infer_instance

/-- A creation up to its `add_list`, and an enumeration up to its first callback. -/
def created : List (RegistryLabel Bool Unit ℕ) :=
  [.create true, .owner true none, .owner true none]

def enumerated : List (RegistryLabel Bool Unit ℕ) :=
  [.enumerate (), .next (), .next (), .next ()]

theorem threadEnum_handles_set_once :
    ∃ s : RegistryState Bool Unit ℕ, s.calls () = .calling 0 true [true] ∧
      EnumerationSound s ∧ HandlesSet s := by
  have hrun : ((registrySystem Bool Unit ℕ).execWhen Apart (unregistered Bool Unit ℕ)
      (created ++ [.owner true (some 7), .owner true none, .owner true none] ++ enumerated)).map
      (fun s => s.calls ()) = some (.calling 0 true [true]) := by decide +kernel
  obtain ⟨s, hs, hc⟩ := Option.map_eq_some_iff.mp hrun
  have hreach := System.ReachableWhen.exec (.init rfl) hs
  exact ⟨s, hc, threadEnum_handles_set hreach⟩

/-- An enumeration right after `add_list` passes a `Thread` without a handle. -/
theorem threadEnum_handles_set_not :
    ¬∀ s : RegistryState Bool Unit ℕ, (registrySystem Bool Unit ℕ).Reachable s →
      EnumerationSound s ∧ HandlesSet s := by
  intro h
  have hrun : ((registrySystem Bool Unit ℕ).exec (unregistered Bool Unit ℕ)
      (created ++ enumerated)).map (fun s => (s.calls (), (s.recs true).Thr)) =
      some (.calling 0 true [true], none) := by decide +kernel
  obtain ⟨s, hs, he⟩ := Option.map_eq_some_iff.mp hrun
  obtain ⟨hc, hThr⟩ := Prod.mk.inj he
  obtain ⟨c, -, hset⟩ := (h s (System.Reachable.exec (.init rfl) hs)).2 () 0 true [true] hc
  rw [hThr] at hset
  exact absurd hset (by simp)

end Xplatbase.Threads
