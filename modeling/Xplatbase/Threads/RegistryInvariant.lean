import Mathlib.Data.List.Nodup
import Xplatbase.Threads.Registry

/-! What the registry keeps over all schedules: the array holds the threads that are being created or
are in `tfun`, and an enumeration passes its entries in order. -/
namespace Xplatbase.Threads
open Xplatbase.Lib

variable {ι κ η : Type*}

/-- The thread is in `tfun`, before its `remove_list`. -/
def BodyPc.Entered : BodyPc → Prop
  | .entering => True
  | .running => True
  | .ending => True
  | _ => False

def BodyPc.Running : BodyPc → Prop
  | .entering => True
  | .running => True
  | _ => False

/-- A creation between `add_list` and `remove_list` whose thread does not exist. -/
def OwnerPc.Pending : OwnerPc η → Prop
  | .creating => True
  | .storing none => True
  | .removing => True
  | _ => False

def ThreadRec.Listed (r : ThreadRec η) : Prop := r.owner.Pending ∨ r.body.Entered

/-- What holds of a `Thread` while its owner stands at a point of its call. -/
def ThreadRec.Fits (r : ThreadRec η) : Prop :=
  match r.owner with
  | .free => r.body = .absent
  | .storing (some h) => r.handle = some h ∧ r.Joined = false
  | .returning => r.Thr = r.handle ∧ r.handle ≠ none ∧ r.Joined = false
  | .returned => r.Thr = r.handle ∧ r.handle ≠ none ∧ r.Joined = false
  | .waiting => r.Thr = r.handle ∧ r.handle ≠ none ∧ r.Joined = false
  | .joining => r.body = .exited
  | _ => r.body = .absent ∧ r.Joined = false

/-- The creation is past `thread_handler_init_once`. -/
def OwnerPc.Inited : OwnerPc η → Prop
  | .free => False
  | .initing => False
  | _ => True

/-- The enumeration holds `ThreadsLock`. -/
def EnumPc.Locked : EnumPc ι → Prop
  | .enumerating _ _ => True
  | .calling _ _ _ => True
  | _ => False

/-- `passed` are the first `n` entries. -/
def ThreadList.Starts (l : ThreadList ι) (n : ℕ) (passed : List ι) : Prop :=
  passed.length = n ∧ n ≤ l.Count ∧ ∀ j < n, l.Items j = passed[j]?

def EnumPc.Fits (pc : EnumPc ι) (l : ThreadList ι) (due : ι → Bool) : Prop :=
  match pc with
  | .enumerating i passed => l.Starts i passed
  | .calling i thr passed => l.Starts (i + 1) passed ∧ l.Items i = some thr
  | .unlocked passed => passed.Nodup ∧ ∀ t, due t = true → t ∈ passed
  | _ => True

structure RegistryInv (s : RegistryState ι κ η) : Prop where
  wellFormed : s.threads.WellFormed
  room : s.inited = true → s.threads.Count < s.threads.Max
  empty : s.inited = false → s.threads.Count = 0
  ownerInited : ∀ thr, (s.recs thr).owner.Inited → s.inited = true
  fits : ∀ thr, (s.recs thr).Fits
  listed : ∀ thr, s.threads.Has thr ↔ (s.recs thr).Listed
  locked : ∀ k, (s.calls k).Locked ↔ s.lock = some k
  passed : ∀ k, (s.calls k).Fits s.threads (s.due k)
  due : ∀ k thr, s.due k thr = true → (s.recs thr).body.Running

theorem BodyPc.Running.entered {pc : BodyPc} (h : pc.Running) : pc.Entered := by
  cases pc with
  | entering => trivial
  | running => trivial
  | absent => exact h.elim
  | ending => exact h.elim
  | exited => exact h.elim

theorem ThreadRec.due_running {r : ThreadRec η} (h : r.due = true) : r.body.Running := by
  unfold ThreadRec.due at h
  unfold BodyPc.Running
  split at h <;> simp_all

namespace EnumPc

variable {pc : EnumPc ι} {l l' : ThreadList ι} {due due' : ι → Bool}

/-- The array matters only to the enumeration that holds the lock. -/
theorem Fits.of_unlocked (h : pc.Fits l due) (hpc : ¬pc.Locked)
    (hdue : ∀ t, due' t = true → due t = true) : pc.Fits l' due' := by
  cases pc with
  | idle => trivial
  | initing => trivial
  | locking => trivial
  | enumerating i passed => exact absurd trivial hpc
  | calling i thr passed => exact absurd trivial hpc
  | unlocked passed => exact ⟨h.1, fun t ht => h.2 t (hdue t ht)⟩

theorem Fits.mono (h : pc.Fits l due) (hdue : ∀ t, due' t = true → due t = true) :
    pc.Fits l due' := by
  cases pc with
  | unlocked passed => exact ⟨h.1, fun t ht => h.2 t (hdue t ht)⟩
  | idle => exact h
  | initing => exact h
  | locking => exact h
  | enumerating i passed => exact h
  | calling i thr passed => exact h

end EnumPc

namespace ThreadList

variable {l : ThreadList ι} {passed : List ι} {n : ℕ}

theorem Starts.nodup (h : l.Starts n passed) (hwf : l.WellFormed) : passed.Nodup := by
  rw [List.nodup_iff_getElem?_ne_getElem?]
  intro i j hij hj he
  obtain ⟨hlen, hn, hitems⟩ := h
  rw [← hitems i (by omega), ← hitems j (by omega)] at he
  have := hwf.distinct i (by omega) j (by omega) he
  omega

theorem Starts.next (h : l.Starts n passed) (hn : n < l.Count) {thr : ι}
    (hthr : l.Items n = some thr) : l.Starts (n + 1) (passed ++ [thr]) := by
  obtain ⟨hlen, -, hitems⟩ := h
  refine ⟨by simp [hlen], hn, ?_⟩
  intro j hj
  by_cases hjn : j = n
  · rw [hjn, hthr, ← hlen, List.getElem?_concat_length]
  · rw [hitems j (by omega), List.getElem?_append_left (by omega)]

/-- An enumeration that has run to the end of the array has passed every thread in it. -/
theorem Starts.complete (h : l.Starts n passed) (hn : ¬n < l.Count) {thr : ι} (hthr : l.Has thr) :
    thr ∈ passed := by
  obtain ⟨hlen, -, hitems⟩ := h
  obtain ⟨i, hi, ht⟩ := hthr
  rw [hitems i (by omega)] at ht
  exact List.mem_of_getElem? ht

end ThreadList

theorem createList_room : (createList : ThreadList ι).Count < (createList : ThreadList ι).Max :=
  Nat.zero_lt_succ 15

namespace RegistryInv

/-- The array matters to no enumeration while none holds the lock. -/
theorem passed_of_unlocked {s : RegistryState ι κ η} (h : RegistryInv s) (hlock : s.lock = none)
    (l : ThreadList ι) (k : κ) :
    (s.calls k).Fits l (s.due k) := by
  apply (h.passed k).of_unlocked
  · intro hk
    rw [h.locked k, hlock] at hk
    exact absurd hk (by simp)
  · exact fun _ ht => ht

section Recs

variable [DecidableEq ι] {s s' : RegistryState ι κ η}

/-- Every thread keeps what the invariant says of it when one of them moves. -/
theorem update_recs (P : ι → ThreadRec η → Prop) (h : ∀ t, P t (s.recs t)) (thr : ι)
    (r : ThreadRec η) (hr : P thr r) (t : ι) : P t ((s.setRec thr r).recs t) := by
  by_cases he : t = thr
  · subst he
    rw [show (s.setRec t r).recs t = r from Function.update_self ..]
    exact hr
  · rw [show (s.setRec thr r).recs t = s.recs t from Function.update_of_ne he ..]
    exact h t

theorem setRec (h : RegistryInv s) (thr : ι) (r : ThreadRec η) (hfits : r.Fits)
    (hlisted : r.Listed ↔ (s.recs thr).Listed) (hinit : r.owner.Inited → s.inited = true)
    (hdue : ∀ k, s.due k thr = true → r.body.Running) : RegistryInv (s.setRec thr r) := by
  refine ⟨h.wellFormed, h.room, h.empty, ?_, ?_, ?_, h.locked, h.passed, ?_⟩
  · exact update_recs (fun _ r => r.owner.Inited → s.inited = true) h.ownerInited thr r hinit
  · exact update_recs (fun _ r => r.Fits) h.fits thr r hfits
  · exact update_recs (fun t r => s.threads.Has t ↔ r.Listed) h.listed thr r
      ((h.listed thr).trans hlisted.symm)
  · intro k
    exact update_recs (fun t r => s.due k t = true → r.body.Running) (h.due k) thr r (hdue k)

theorem setListed (h : RegistryInv s) (hlock : s.lock = none) (hinited : s.inited = true)
    (l : ThreadList ι) (thr : ι) (r : ThreadRec η) (hwf : l.WellFormed) (hroom : l.Count < l.Max)
    (hother : ∀ t, t ≠ thr → (l.Has t ↔ s.threads.Has t)) (hthr : l.Has thr ↔ r.Listed)
    (hfits : r.Fits) (hdue : ∀ k, s.due k thr = true → r.body.Running) :
    RegistryInv ({ s with threads := l }.setRec thr r) := by
  refine ⟨hwf, fun _ => hroom, ?_, fun _ _ => hinited, ?_, ?_, h.locked, ?_, ?_⟩
  · intro hnot
    exact absurd (hinited.symm.trans hnot) (by decide)
  · exact update_recs (fun _ r => r.Fits) h.fits thr r hfits
  · intro t
    by_cases he : t = thr
    · subst he
      rw [show (RegistryState.setRec { s with threads := l } t r).recs t = r from
        Function.update_self ..]
      exact hthr
    · rw [show (RegistryState.setRec { s with threads := l } thr r).recs t = s.recs t from
        Function.update_of_ne he ..]
      exact (hother t he).trans (h.listed t)
  · exact h.passed_of_unlocked hlock l
  · intro k
    exact update_recs (fun t r => s.due k t = true → r.body.Running) (h.due k) thr r (hdue k)

theorem add (h : RegistryInv s) (hlock : s.lock = none) (hinited : s.inited = true) (thr : ι)
    (r : ThreadRec η) (hnew : ¬(s.recs thr).Listed) (hlisted : r.Listed) (hfits : r.Fits)
    (hdue : ∀ k, s.due k thr = true → r.body.Running) :
    RegistryInv ({ s with threads := addList s.threads thr }.setRec thr r) := by
  apply h.setListed hlock hinited
  · exact ThreadList.addList_wellFormed h.wellFormed fun hhas => hnew ((h.listed thr).mp hhas)
  · exact ThreadList.addList_room (h.room hinited)
  · intro t ht
    rw [ThreadList.addList_has]
    exact or_iff_right ht
  · rw [ThreadList.addList_has]
    exact iff_of_true (Or.inl rfl) hlisted
  · exact hfits
  · exact hdue

theorem remove (h : RegistryInv s) (hlock : s.lock = none) (hinited : s.inited = true) (thr : ι)
    (r : ThreadRec η) (hlisted : ¬r.Listed) (hfits : r.Fits)
    (hdue : ∀ k, s.due k thr = true → r.body.Running) :
    RegistryInv ({ s with threads := removeList s.threads thr }.setRec thr r) := by
  apply h.setListed hlock hinited
  · exact ThreadList.removeList_wellFormed h.wellFormed thr
  · exact ThreadList.removeList_room (h.room hinited) thr
  · intro t ht
    rw [ThreadList.removeList_has h.wellFormed]
    exact and_iff_right ht
  · rw [ThreadList.removeList_has h.wellFormed]
    exact iff_of_false (fun hm => hm.1 rfl) hlisted
  · exact hfits
  · exact hdue

end Recs

theorem initOnce {s : RegistryState ι κ η} (h : RegistryInv s) (hlock : s.lock = none) :
    RegistryInv s.initOnce := by
  unfold RegistryState.initOnce
  by_cases hs : s.inited = true
  · rw [if_pos hs]
    exact h
  · rw [if_neg hs]
    have hempty := h.empty (by simpa using hs)
    refine ⟨ThreadList.wellFormed_of_empty rfl, fun _ => createList_room, fun _ => rfl,
      fun _ _ => rfl, h.fits, ?_, h.locked, h.passed_of_unlocked hlock createList, h.due⟩
    intro t
    rw [← h.listed t]
    exact iff_of_false (ThreadList.not_has_of_empty rfl t) (ThreadList.not_has_of_empty hempty t)

end RegistryInv

theorem initOnce_fields (s : RegistryState ι κ η) :
    s.initOnce.inited = true ∧ s.initOnce.recs = s.recs ∧ s.initOnce.lock = s.lock ∧
      s.initOnce.due = s.due ∧ s.initOnce.calls = s.calls := by
  unfold RegistryState.initOnce
  by_cases hs : s.inited = true
  · rw [if_pos hs]
    exact ⟨hs, rfl, rfl, rfl, rfl⟩
  · rw [if_neg hs]
    exact ⟨rfl, rfl, rfl, rfl, rfl⟩

theorem guarded {p : Prop} [Decidable p] {a b : RegistryState ι κ η}
    (h : (if p then some a else none) = some b) : p ∧ a = b := by
  obtain ⟨hp, he⟩ := Option.ite_none_right_eq_some.mp h
  exact ⟨hp, Option.some.inj he⟩

section Steps

variable [DecidableEq ι] {s s' : RegistryState ι κ η}

/-- `init_once`, under the lock. -/
theorem initing_inv (h : RegistryInv s) {thr : ι} {created : Option η}
    (ho : (s.recs thr).owner = .initing) (hs : ownerStep s thr created = some s') :
    RegistryInv s' := by
  have hfits := h.fits thr
  have hinit := h.ownerInited thr
  have hdue := fun k => h.due k thr
  unfold ThreadRec.Fits at hfits
  simp only [ownerStep, ho] at hs
  rw [ho] at hfits
  dsimp only at hs hfits
  obtain ⟨hlock, rfl⟩ := guarded hs
  obtain ⟨hin, hrecs, -, hd, -⟩ := initOnce_fields s
  apply (h.initOnce hlock).setRec
  · exact hfits
  · rw [hrecs]
    unfold ThreadRec.Listed
    rw [ho]
    exact Iff.rfl
  · exact fun _ => hin
  · rw [hd]
    exact hdue

/-- `add_list`, under the lock. -/
theorem adding_inv (h : RegistryInv s) {thr : ι} {created : Option η}
    (ho : (s.recs thr).owner = .adding) (hs : ownerStep s thr created = some s') :
    RegistryInv s' := by
  have hfits := h.fits thr
  have hinit := h.ownerInited thr
  have hdue := fun k => h.due k thr
  unfold ThreadRec.Fits at hfits
  simp only [ownerStep, ho] at hs
  rw [ho] at hfits hinit
  dsimp only at hs hfits
  obtain ⟨hlock, rfl⟩ := guarded hs
  apply h.add hlock (hinit trivial)
  · unfold ThreadRec.Listed
    rw [ho, hfits.1]
    rintro (hp | hb)
    · exact hp
    · exact hb
  · exact Or.inl trivial
  · exact hfits
  · exact hdue

theorem creating_inv (h : RegistryInv s) {thr : ι} {created : Option η}
    (ho : (s.recs thr).owner = .creating) (hs : ownerStep s thr created = some s') :
    RegistryInv s' := by
  have hfits := h.fits thr
  have hinit := h.ownerInited thr
  have hdue := fun k => h.due k thr
  unfold ThreadRec.Fits at hfits
  simp only [ownerStep, ho] at hs
  rw [ho] at hfits hinit
  dsimp only at hs hfits
  cases created with
  | none =>
    obtain rfl := Option.some.inj hs
    apply h.setRec
    · exact hfits
    · exact iff_of_true (Or.inl trivial) (Or.inl (by rw [ho]; trivial))
    · exact fun _ => hinit trivial
    · exact hdue
  | some c =>
    obtain rfl := Option.some.inj hs
    apply h.setRec
    · exact ⟨rfl, hfits.2⟩
    · exact iff_of_true (Or.inr trivial) (Or.inl (by rw [ho]; trivial))
    · exact fun _ => hinit trivial
    · exact fun _ _ => trivial

theorem storing_inv (h : RegistryInv s) {thr : ι} {created : Option η} {Thr : Option η}
    (ho : (s.recs thr).owner = .storing Thr) (hs : ownerStep s thr created = some s') :
    RegistryInv s' := by
  have hfits := h.fits thr
  have hinit := h.ownerInited thr
  have hdue := fun k => h.due k thr
  unfold ThreadRec.Fits at hfits
  simp only [ownerStep, ho] at hs
  rw [ho] at hfits hinit
  obtain rfl := Option.some.inj hs
  cases Thr with
  | none =>
    apply h.setRec
    · exact hfits
    · exact iff_of_true (Or.inl trivial) (Or.inl (by rw [ho]; trivial))
    · exact fun _ => hinit trivial
    · exact hdue
  | some c =>
    dsimp only at hfits
    apply h.setRec
    · exact ⟨hfits.1.symm, by rw [hfits.1]; simp, hfits.2⟩
    · unfold ThreadRec.Listed
      rw [ho]
      exact Iff.rfl
    · exact fun _ => hinit trivial
    · exact hdue

/-- `remove_list`, under the lock. -/
theorem removing_inv (h : RegistryInv s) {thr : ι} {created : Option η}
    (ho : (s.recs thr).owner = .removing) (hs : ownerStep s thr created = some s') :
    RegistryInv s' := by
  have hfits := h.fits thr
  have hinit := h.ownerInited thr
  have hdue := fun k => h.due k thr
  unfold ThreadRec.Fits at hfits
  simp only [ownerStep, ho] at hs
  rw [ho] at hfits hinit
  dsimp only at hs hfits
  obtain ⟨hlock, rfl⟩ := guarded hs
  apply h.remove hlock (hinit trivial)
  · unfold ThreadRec.Listed
    rw [hfits.1]
    rintro (hp | hb)
    · exact hp
    · exact hb
  · exact hfits
  · exact hdue

/-- The calls of `thread_create` and `thread_join`, one case for each point they can stand at. -/
theorem ownerStep_inv (h : RegistryInv s) {thr : ι} {created : Option η}
    (hs : ownerStep s thr created = some s') : RegistryInv s' := by
  have hfits := h.fits thr
  have hinit := h.ownerInited thr
  have hdue := fun k => h.due k thr
  unfold ThreadRec.Fits at hfits
  cases ho : (s.recs thr).owner with
  | free =>
    simp only [ownerStep, ho] at hs
    exact absurd hs (by simp)
  | initing => exact initing_inv h ho hs
  | adding => exact adding_inv h ho hs
  | creating => exact creating_inv h ho hs
  | storing Thr => exact storing_inv h ho hs
  | removing => exact removing_inv h ho hs
  | freeing =>
    simp only [ownerStep, ho] at hs
    rw [ho] at hfits
    obtain rfl := Option.some.inj hs
    apply h.setRec
    · exact hfits.1
    · unfold ThreadRec.Listed
      rw [ho]
      exact Iff.rfl
    · exact fun hf => hf.elim
    · exact hdue
  | returning =>
    simp only [ownerStep, ho] at hs
    rw [ho] at hfits hinit
    obtain rfl := Option.some.inj hs
    apply h.setRec
    · exact hfits
    · unfold ThreadRec.Listed
      rw [ho]
      exact Iff.rfl
    · exact fun _ => hinit trivial
    · exact hdue
  | returned =>
    simp only [ownerStep, ho] at hs
    exact absurd hs (by simp)
  | waiting =>
    simp only [ownerStep, ho] at hs
    rw [ho] at hinit
    obtain ⟨hb, rfl⟩ := guarded hs
    apply h.setRec
    · exact hb
    · unfold ThreadRec.Listed
      rw [ho]
      exact Iff.rfl
    · exact fun _ => hinit trivial
    · exact hdue
  | joining =>
    simp only [ownerStep, ho] at hs
    rw [ho] at hfits
    dsimp only at hfits
    obtain rfl := Option.some.inj hs
    apply h.setRec
    · rfl
    · unfold ThreadRec.Listed
      rw [ho, hfits]
      exact Iff.rfl
    · exact fun hf => hf.elim
    · intro k hk
      have hrun := hdue k hk
      rw [hfits] at hrun
      exact hrun

/-- While a thread is in `tfun`, its creation has reached the store of the handle. -/
theorem ThreadRec.Fits.of_entered {r : ThreadRec η} (h : r.Fits) (hb : r.body ≠ .absent) :
    ¬r.owner.Pending ∧ r.owner.Inited := by
  unfold ThreadRec.Fits at h
  cases ho : r.owner with
  | free =>
    rw [ho] at h
    exact absurd h hb
  | storing Thr =>
    cases Thr with
    | none =>
      rw [ho] at h
      exact absurd h.1 hb
    | some c => exact ⟨id, trivial⟩
  | returning => exact ⟨id, trivial⟩
  | returned => exact ⟨id, trivial⟩
  | waiting => exact ⟨id, trivial⟩
  | joining => exact ⟨id, trivial⟩
  | initing =>
    rw [ho] at h
    exact absurd h.1 hb
  | adding =>
    rw [ho] at h
    exact absurd h.1 hb
  | creating =>
    rw [ho] at h
    exact absurd h.1 hb
  | removing =>
    rw [ho] at h
    exact absurd h.1 hb
  | freeing =>
    rw [ho] at h
    exact absurd h.1 hb

/-- A body that goes on keeps its `Thread` as it is. -/
theorem ThreadRec.Fits.setBody {r : ThreadRec η} (h : r.Fits) (hb : r.body ≠ .absent)
    (hx : r.body ≠ .exited) (pc : BodyPc) : ({ r with body := pc } : ThreadRec η).Fits := by
  have hown := h.of_entered hb
  unfold ThreadRec.Fits at h ⊢
  dsimp only
  cases ho : r.owner with
  | free => exact absurd hown.2 (by rw [ho]; exact id)
  | initing => exact absurd hown.2 (by rw [ho]; exact id)
  | creating => exact absurd trivial (by rw [ho] at hown; exact hown.1)
  | removing => exact absurd trivial (by rw [ho] at hown; exact hown.1)
  | adding =>
    rw [ho] at h
    exact absurd h.1 hb
  | freeing =>
    rw [ho] at h
    exact absurd h.1 hb
  | storing Thr =>
    rw [ho] at h
    cases Thr with
    | none => exact absurd h.1 hb
    | some c => exact h
  | returning =>
    rw [ho] at h
    exact h
  | returned =>
    rw [ho] at h
    exact h
  | waiting =>
    rw [ho] at h
    exact h
  | joining =>
    rw [ho] at h
    exact absurd h hx

/-- After its function has returned, a thread is due to no enumeration. -/
theorem RegistryInv.clearDue (h : RegistryInv s) (thr : ι) :
    RegistryInv { s with due := fun k t => if t = thr then false else s.due k t } := by
  have hle : ∀ k t, (if t = thr then false else s.due k t) = true → s.due k t = true := by
    intro k t ht
    split at ht
    · exact absurd ht (by simp)
    · exact ht
  exact ⟨h.wellFormed, h.room, h.empty, h.ownerInited, h.fits, h.listed, h.locked,
    fun k => (h.passed k).mono (hle k), fun k t ht => h.due k t (hle k t ht)⟩

theorem bodyStep_inv (h : RegistryInv s) {thr : ι} (hs : bodyStep s thr = some s') :
    RegistryInv s' := by
  have hfits := h.fits thr
  unfold bodyStep at hs
  dsimp only at hs
  cases hb : (s.recs thr).body with
  | absent =>
    rw [hb] at hs
    exact absurd hs (by simp)
  | exited =>
    rw [hb] at hs
    exact absurd hs (by simp)
  | entering =>
    rw [hb] at hs
    dsimp only at hs
    obtain ⟨hlock, rfl⟩ := guarded hs
    have hne : (s.recs thr).body ≠ .absent := by rw [hb]; simp
    apply h.setRec
    · exact hfits.setBody hne (by rw [hb]; simp) .running
    · exact iff_of_true (Or.inr trivial) (Or.inr (by rw [hb]; trivial))
    · exact fun _ => h.ownerInited thr (hfits.of_entered hne).2
    · exact fun _ _ => trivial
  | running =>
    rw [hb] at hs
    obtain rfl := Option.some.inj hs
    have hne : (s.recs thr).body ≠ .absent := by rw [hb]; simp
    apply (h.clearDue thr).setRec
    · exact hfits.setBody hne (by rw [hb]; simp) .ending
    · exact iff_of_true (Or.inr trivial) (Or.inr (by dsimp only; rw [hb]; trivial))
    · exact fun _ => h.ownerInited thr (hfits.of_entered hne).2
    · intro k hk
      exact absurd hk (by simp)
  | ending =>
    rw [hb] at hs
    dsimp only at hs
    obtain ⟨hlock, rfl⟩ := guarded hs
    have hne : (s.recs thr).body ≠ .absent := by rw [hb]; simp
    have hown := hfits.of_entered hne
    apply h.remove hlock (h.ownerInited thr hown.2)
    · rintro (hp | he)
      · exact hown.1 hp
      · exact he
    · exact hfits.setBody hne (by rw [hb]; simp) .exited
    · intro k hk
      have hrun := h.due k thr hk
      rw [hb] at hrun
      exact hrun.elim

end Steps

theorem RegistryInv.setCall [DecidableEq κ] {s : RegistryState ι κ η} (h : RegistryInv s) (k : κ)
    (pc : EnumPc ι) (lock : Option κ) (hfits : pc.Fits s.threads (s.due k))
    (hlocked : pc.Locked ↔ lock = some k) (hother : ∀ j, j ≠ k → (lock = some j ↔ s.lock = some j)) :
    RegistryInv ({ s with lock := lock }.setCall k pc) := by
  have hself : (RegistryState.setCall { s with lock := lock } k pc).calls k = pc :=
    Function.update_self ..
  have hrest : ∀ j, j ≠ k →
      (RegistryState.setCall { s with lock := lock } k pc).calls j = s.calls j := fun j hj =>
    Function.update_of_ne hj ..
  refine ⟨h.wellFormed, h.room, h.empty, h.ownerInited, h.fits, h.listed, ?_, ?_, h.due⟩
  · intro j
    by_cases hj : j = k
    · subst hj
      rw [hself]
      exact hlocked
    · rw [hrest j hj, h.locked j]
      exact (hother j hj).symm
  · intro j
    by_cases hj : j = k
    · subst hj
      rw [hself]
      exact hfits
    · rw [hrest j hj]
      exact h.passed j

theorem unregistered_inv : RegistryInv (unregistered ι κ η) where
  wellFormed := ThreadList.wellFormed_of_empty rfl
  room := fun h => absurd h Bool.false_ne_true
  empty := fun _ => rfl
  ownerInited := fun _ h => h.elim
  fits := fun _ => rfl
  listed := fun thr => iff_of_false (ThreadList.not_has_of_empty rfl thr) fun h => h.elim id id
  locked := fun _ => iff_of_false id (by simp [unregistered])
  passed := fun _ => trivial
  due := fun _ _ h => absurd h Bool.false_ne_true

section Run

variable [DecidableEq κ] {s s' : RegistryState ι κ η}

theorem enumStep_inv (h : RegistryInv s) {k : κ} (hs : enumStep s k = some s') :
    RegistryInv s' := by
  have hfits := h.passed k
  have hlocked := h.locked k
  unfold enumStep at hs
  cases hc : s.calls k with
  | idle =>
    rw [hc] at hs
    exact absurd hs (by simp)
  | initing =>
    rw [hc] at hs
    dsimp only at hs
    obtain ⟨hlock, rfl⟩ := guarded hs
    obtain ⟨-, -, hl, -, -⟩ := initOnce_fields s
    apply (h.initOnce hlock).setCall k .locking s.initOnce.lock
    · trivial
    · rw [hl, hlock]
      exact iff_of_false id (by simp)
    · exact fun _ _ => Iff.rfl
  | locking =>
    rw [hc] at hs
    dsimp only at hs
    obtain ⟨hlock, rfl⟩ := guarded hs
    apply h.setCall k (.enumerating 0 [])
    · exact ⟨rfl, Nat.zero_le _, fun j hj => absurd hj (by omega)⟩
    · exact iff_of_true trivial rfl
    · intro j hj
      rw [hlock]
      exact iff_of_false (fun he => hj (Option.some.inj he).symm) (by simp)
  | enumerating i passed =>
    rw [hc] at hs hfits hlocked
    dsimp only at hs
    have hlock : s.lock = some k := hlocked.mp trivial
    by_cases hi : i < s.threads.Count
    · rw [if_pos hi] at hs
      obtain ⟨thr, hthr, rfl⟩ := Option.map_eq_some_iff.mp hs
      apply h.setCall k (.calling i thr (passed ++ [thr])) s.lock
      · exact ⟨ThreadList.Starts.next hfits hi hthr, hthr⟩
      · exact iff_of_true trivial hlock
      · exact fun _ _ => Iff.rfl
    · rw [if_neg hi] at hs
      obtain rfl := Option.some.inj hs
      apply h.setCall k (.unlocked passed)
      · refine ⟨ThreadList.Starts.nodup hfits h.wellFormed, ?_⟩
        -- a thread that is due is still in `tfun`, so it is in the array
        intro t ht
        exact ThreadList.Starts.complete hfits hi
          ((h.listed t).mpr (Or.inr (h.due k t ht).entered))
      · exact iff_of_false id (by simp)
      · intro j hj
        rw [hlock]
        exact iff_of_false (by simp) fun he => hj (Option.some.inj he).symm
  | calling i thr passed =>
    rw [hc] at hs hfits hlocked
    obtain rfl := Option.some.inj hs
    apply h.setCall k (.enumerating (i + 1) passed) s.lock
    · exact hfits.1
    · exact iff_of_true trivial (hlocked.mp trivial)
    · exact fun _ _ => Iff.rfl
  | unlocked passed =>
    rw [hc] at hs hlocked
    obtain rfl := Option.some.inj hs
    apply h.setCall k .idle s.lock
    · trivial
    · exact iff_of_false id fun he => hlocked.mpr he
    · exact fun _ _ => Iff.rfl

theorem RegistryInv.enumerate (h : RegistryInv s) {k : κ} (hk : s.calls k = .idle) :
    RegistryInv ({ s with
      due := Function.update s.due k fun t => (s.recs t).due }.setCall k .initing) := by
  have hunlocked : ¬s.lock = some k := fun he => by
    have hl := (h.locked k).mpr he
    rw [hk] at hl
    exact hl
  have hdue : RegistryInv { s with due := Function.update s.due k fun t => (s.recs t).due } := by
    refine ⟨h.wellFormed, h.room, h.empty, h.ownerInited, h.fits, h.listed, h.locked, ?_, ?_⟩
    · intro j
      dsimp only
      by_cases hj : j = k
      · rw [hj, hk]
        trivial
      · rw [show Function.update s.due k (fun t => (s.recs t).due) j = s.due j from
          Function.update_of_ne hj ..]
        exact h.passed j
    · intro j t
      dsimp only
      by_cases hj : j = k
      · rw [show Function.update s.due k (fun t => (s.recs t).due) j = fun t => (s.recs t).due by
          rw [hj, Function.update_self]]
        exact ThreadRec.due_running
      · rw [show Function.update s.due k (fun t => (s.recs t).due) j = s.due j from
          Function.update_of_ne hj ..]
        exact h.due j t
  exact hdue.setCall k .initing s.lock trivial (iff_of_false id hunlocked) fun _ _ => Iff.rfl

variable [DecidableEq ι]

theorem registryStep_inv (h : RegistryInv s) {l : RegistryLabel ι κ η}
    (hs : registryStep s l = some s') : RegistryInv s' := by
  unfold registryStep at hs
  cases l with
  | create thr =>
    dsimp only at hs
    split at hs
    · rename_i ho
      have hfits := h.fits thr
      unfold ThreadRec.Fits at hfits
      rw [ho] at hfits
      obtain rfl := Option.some.inj hs
      apply h.setRec
      · exact ⟨rfl, rfl⟩
      · unfold ThreadRec.Listed
        rw [ho, hfits]
        exact Iff.rfl
      · exact fun hf => hf.elim
      · intro k hk
        have hrun := h.due k thr hk
        rw [hfits] at hrun
        exact hrun
    · exact absurd hs (by simp)
  | owner thr created => exact ownerStep_inv h hs
  | join thr =>
    dsimp only at hs
    split at hs
    · rename_i ho
      have hfits := h.fits thr
      unfold ThreadRec.Fits at hfits
      rw [ho] at hfits
      have hjoined : (s.recs thr).Joined = false := hfits.2.2
      rw [show (if (s.recs thr).Joined = true then OwnerPc.joining else .waiting) =
        (.waiting : OwnerPc η) by rw [hjoined]; rfl] at hs
      obtain rfl := Option.some.inj hs
      apply h.setRec
      · exact hfits
      · unfold ThreadRec.Listed
        rw [ho]
        exact Iff.rfl
      · exact fun _ => h.ownerInited thr (by rw [ho]; trivial)
      · exact fun k => h.due k thr
    · exact absurd hs (by simp)
  | body thr => exact bodyStep_inv h hs
  | enumerate k =>
    dsimp only at hs
    split at hs
    · rename_i hk
      obtain rfl := Option.some.inj hs
      exact h.enumerate hk
    · exact absurd hs (by simp)
  | next k => exact enumStep_inv h hs

theorem registry_inv (h : (registrySystem ι κ η).Reachable s) : RegistryInv s := by
  apply h.invariant
  · rintro s rfl
    exact unregistered_inv
  · intro _ _ _ hinv hs
    exact registryStep_inv hinv hs

end Run

end Xplatbase.Threads
