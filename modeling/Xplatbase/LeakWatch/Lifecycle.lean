import Xplatbase.LeakWatch.Watch

/-! Calls of start and stop that do not overlap: one monitor at most, and each is joined once. -/
namespace Xplatbase.LeakWatch
open Xplatbase.Lib

variable {ι : Type*} [DecidableEq ι] {s s' : WatchState ι} {l : WatchLabel ι} {m : ℕ}

/-- A stop claims `g_running` only when no start is before its store of `g_thread`, and a start
only when no stop is before its return. -/
def Ordered (s : WatchState ι) : WatchLabel ι → Prop
  | .start _ _ => s.running = false → ∀ i, ¬(s.calls i).Stopping
  | .stop _ => s.running = true → ∀ i, ¬(s.calls i).Starting
  | _ => True

instance [Fintype ι] (s : WatchState ι) (l : WatchLabel ι) : Decidable (Ordered s l) := by
  cases l <;> unfold Ordered <;> infer_instance

/-- Monitor `m` was created and has not ended. -/
def WatchState.Alive (s : WatchState ι) (m : ℕ) : Prop :=
  ∃ pc, s.monitors m = some pc ∧ pc ≠ .exited

def WatchState.Quiet (s : WatchState ι) : Prop := ∀ i, s.calls i = .idle

/-- What the shared variables are while the one call under way stands at `pc`; `cur` is the monitor
that is still to be joined. -/
def CallPc.Fits (pc : CallPc) (s : WatchState ι) (cur : Option ℕ) : Prop :=
  match pc with
  | .idle => s.running = cur.isSome ∧ s.thread = cur ∧ (s.last = some .start ↔ s.running = true)
  | .storing t => s.running = true ∧ s.thread = none ∧ s.last ≠ some .start ∧ cur = t
  | .waking => s.running = false ∧ s.thread = cur ∧ cur ≠ none
  | .reading => s.running = false ∧ s.thread = cur ∧ cur ≠ none
  | .joining t => s.running = false ∧ s.thread = some t ∧ cur = some t
  | .clearing => s.running = false ∧ cur = none
  | .silencing => s.running = false ∧ s.thread = none ∧ cur = none
  | .closing => s.running = false ∧ s.thread = none ∧ cur = none
  | _ => s.running = true ∧ s.thread = none ∧ s.last ≠ some .start ∧ cur = none

/-- No call is under way, or only the rest of a start that has failed, which touches nothing that the
others look at. -/
def CallPc.Past (pc : CallPc) : Prop := pc = .idle ∨ pc = .muting

/-- One call at most is under way, at `pc`. -/
def OnlyCall (s : WatchState ι) (pc : CallPc) : Prop :=
  (pc = .idle ∧ ∀ i, (s.calls i).Past) ∨
    ∃ i, s.calls i = pc ∧ ¬pc.Past ∧ ∀ j, j ≠ i → (s.calls j).Past

/-- All monitors but `cur` have ended and were joined once. -/
structure Joined (s : WatchState ι) (cur : Option ℕ) : Prop where
  ended : ∀ m, cur ≠ some m → s.monitors m ≠ none → s.monitors m = some .exited ∧ s.joins m = 1
  fresh : ∀ m, s.monitors m = none → s.joins m = 0 ∧ cur ≠ some m
  unjoined : ∀ m, cur = some m → s.joins m = 0

structure WatchInv (s : WatchState ι) (pc : CallPc) (cur : Option ℕ) : Prop where
  only : OnlyCall s pc
  fits : pc.Fits s cur
  joined : Joined s cur

namespace OnlyCall

variable {pc : CallPc} {i : ι}

theorem eq (h : OnlyCall s pc) (hi : ¬(s.calls i).Past) :
    s.calls i = pc ∧ ∀ j, j ≠ i → (s.calls j).Past := by
  rcases h with ⟨-, hpast⟩ | ⟨k, hk, -, hother⟩
  · exact absurd (hpast i) hi
  · have hik : i = k := by
      by_contra hne
      exact hi (hother i hne)
    rw [hik]
    exact ⟨hk, hother⟩

/-- A call that is alone goes to `pc'`. -/
theorem alone (hother : ∀ j, j ≠ i → (s.calls j).Past) {pc' : CallPc} (hpc : ¬pc'.Past)
    (hcalls : s'.calls = Function.update s.calls i pc') : OnlyCall s' pc' := by
  refine Or.inr ⟨i, ?_, hpc, fun j hj => ?_⟩
  · rw [hcalls, Function.update_self]
  · rw [hcalls, Function.update_of_ne hj]
    exact hother j hj

theorem next (h : OnlyCall s pc) {pc' : CallPc} (hi : ¬(s.calls i).Past) (hpc : ¬pc'.Past)
    (hcalls : s'.calls = Function.update s.calls i pc') : OnlyCall s' pc' :=
  alone (h.eq hi).2 hpc hcalls

/-- The call returns, or has only the rest of a failed start before it. -/
theorem leave (h : OnlyCall s pc) {pc' : CallPc} (hi : ¬(s.calls i).Past) (hpc : pc'.Past)
    (hcalls : s'.calls = Function.update s.calls i pc') : OnlyCall s' .idle := by
  refine Or.inl ⟨rfl, fun j => ?_⟩
  rw [hcalls]
  by_cases hj : j = i
  · rw [hj, Function.update_self]
    exact hpc
  · rw [Function.update_of_ne hj]
    exact (h.eq hi).2 j hj

theorem past (h : OnlyCall s pc) (hi : (s.calls i).Past)
    (hcalls : s'.calls = Function.update s.calls i .idle) : OnlyCall s' pc := by
  have hstays : ∀ j, (s.calls j).Past → (s'.calls j).Past := by
    intro j hj
    rw [hcalls]
    by_cases hji : j = i
    · rw [hji, Function.update_self]
      exact Or.inl rfl
    · rwa [Function.update_of_ne hji]
  rcases h with ⟨hidle, hpast⟩ | ⟨k, hk, hne, hother⟩
  · exact Or.inl ⟨hidle, fun j => hstays j (hpast j)⟩
  · have hki : k ≠ i := by
      rintro rfl
      rw [hk] at hi
      exact hne hi
    refine Or.inr ⟨k, ?_, hne, fun j hj => hstays j (hother j hj)⟩
    rw [hcalls, Function.update_of_ne hki, hk]

end OnlyCall

namespace Joined

variable {cur : Option ℕ}

omit [DecidableEq ι] in
theorem of_same (h : Joined s cur) (hmonitors : s'.monitors = s.monitors)
    (hjoins : s'.joins = s.joins) : Joined s' cur := by
  obtain ⟨hended, hfresh, hunjoined⟩ := h
  constructor
  · rw [hmonitors, hjoins]
    exact hended
  · rw [hmonitors, hjoins]
    exact hfresh
  · rw [hjoins]
    exact hunjoined

omit [DecidableEq ι] in
theorem create (h : Joined s none) (hm : s.monitors m = none)
    (hmonitors : s'.monitors = Function.update s.monitors m (some .checking))
    (hjoins : s'.joins = s.joins) : Joined s' (some m) := by
  constructor
  · intro k hk hcreated
    have hne : k ≠ m := fun he => hk (by rw [he])
    rw [hmonitors, Function.update_of_ne hne] at hcreated ⊢
    rw [hjoins]
    exact h.ended k nofun hcreated
  · intro k hk
    by_cases hkm : k = m
    · rw [hkm, hmonitors, Function.update_self] at hk
      cases hk
    · rw [hmonitors, Function.update_of_ne hkm] at hk
      rw [hjoins]
      exact ⟨(h.fresh k hk).1, fun he => hkm (Option.some.inj he).symm⟩
  · intro k hk
    obtain rfl := Option.some.inj hk
    rw [hjoins]
    exact (h.fresh m hm).1

omit [DecidableEq ι] in
theorem join (h : Joined s (some m)) (hm : s.monitors m = some .exited)
    (hmonitors : s'.monitors = s.monitors)
    (hjoins : s'.joins = Function.update s.joins m (s.joins m + 1)) : Joined s' none := by
  constructor
  · intro k _ hcreated
    rw [hmonitors] at hcreated ⊢
    by_cases hk : k = m
    · rw [hk, hjoins, Function.update_self, h.unjoined m rfl]
      exact ⟨hm, rfl⟩
    · rw [hjoins, Function.update_of_ne hk]
      exact h.ended k (fun he => hk (Option.some.inj he).symm) hcreated
  · intro k hk
    rw [hmonitors] at hk
    obtain ⟨hzero, hne⟩ := h.fresh k hk
    have hkm : k ≠ m := fun he => hne (by rw [he])
    rw [hjoins, Function.update_of_ne hkm]
    exact ⟨hzero, nofun⟩
  · nofun

omit [DecidableEq ι] in
theorem monitor (h : Joined s (some m)) (pc : MonitorPc)
    (hmonitors : s'.monitors = Function.update s.monitors m (some pc))
    (hjoins : s'.joins = s.joins) : Joined s' (some m) := by
  constructor
  · intro k hk hcreated
    have hne : k ≠ m := fun he => hk (by rw [he])
    rw [hmonitors, Function.update_of_ne hne] at hcreated ⊢
    rw [hjoins]
    exact h.ended k hk hcreated
  · intro k hk
    by_cases hkm : k = m
    · rw [hkm, hmonitors, Function.update_self] at hk
      cases hk
    · rw [hmonitors, Function.update_of_ne hkm] at hk
      rw [hjoins]
      exact h.fresh k hk
  · rw [hjoins]
    exact h.unjoined

end Joined

namespace WatchInv

variable {pc : CallPc} {cur : Option ℕ}

theorem call (h : WatchInv s pc cur) {i : ι} {created : Option ℕ}
    (hs : callStep s i created (s.calls i) = some s') : ∃ pc' cur', WatchInv s' pc' cur' := by
  have hfits := h.fits
  by_cases hi : (s.calls i).Past
  · rcases hi with hidle | hmuting
    · rw [hidle] at hs
      cases hs
    · have hpast : (s.calls i).Past := Or.inr hmuting
      rw [hmuting] at hs
      obtain rfl := Option.some.inj hs
      exact ⟨pc, cur, h.only.past hpast rfl, hfits, h.joined.of_same rfl rfl⟩
  rw [(h.only.eq hi).1] at hs
  cases pc with
  | idle => cases hs
  | muting =>
    rw [(h.only.eq hi).1] at hi
    exact absurd (Or.inr rfl) hi
  | configuring enabled =>
    obtain rfl := Option.some.inj hs
    exact ⟨.enabling, cur, h.only.next hi (by simp [CallPc.Past]) rfl, hfits,
      h.joined.of_same rfl rfl⟩
  | enabling =>
    obtain rfl := Option.some.inj hs
    exact ⟨.deciding, cur, h.only.next hi (by simp [CallPc.Past]) rfl, hfits,
      h.joined.of_same rfl rfl⟩
  | deciding =>
    obtain rfl := Option.some.inj hs
    cases s.enabled with
    | false =>
      exact ⟨.failing, cur, h.only.next hi (by simp [CallPc.Past]) rfl, hfits,
        h.joined.of_same rfl rfl⟩
    | true =>
      exact ⟨.preparing, cur, h.only.next hi (by simp [CallPc.Past]) rfl, hfits,
        h.joined.of_same rfl rfl⟩
  | preparing =>
    obtain rfl := Option.some.inj hs
    exact ⟨.creating, cur, h.only.next hi (by simp [CallPc.Past]) rfl, hfits,
      h.joined.of_same rfl rfl⟩
  | creating =>
    obtain ⟨hr, ht, hl, rfl⟩ := hfits
    cases created with
    | none =>
      obtain rfl := Option.some.inj hs
      exact ⟨.storing none, none, h.only.next hi (by simp [CallPc.Past]) rfl, ⟨hr, ht, hl, rfl⟩,
        h.joined.of_same rfl rfl⟩
    | some m =>
      simp only [callStep] at hs
      split_ifs at hs with hm
      obtain rfl := Option.some.inj hs
      exact ⟨.storing (some m), some m, h.only.next hi (by simp [CallPc.Past]) rfl,
        ⟨hr, ht, hl, rfl⟩, h.joined.create hm rfl rfl⟩
  | storing t =>
    obtain ⟨hr, -, hl, rfl⟩ := hfits
    cases cur with
    | none =>
      obtain rfl := Option.some.inj hs
      exact ⟨.reverting, none, h.only.next hi (by simp [CallPc.Past]) rfl, ⟨hr, rfl, hl, rfl⟩,
        h.joined.of_same rfl rfl⟩
    | some m =>
      obtain rfl := Option.some.inj hs
      exact ⟨.idle, some m, h.only.leave hi (Or.inl rfl) rfl, ⟨hr, rfl, iff_of_true rfl hr⟩,
        h.joined.of_same rfl rfl⟩
  | failing =>
    obtain ⟨-, ht, hl, rfl⟩ := hfits
    obtain rfl := Option.some.inj hs
    exact ⟨.idle, none, h.only.leave hi (Or.inl rfl) rfl,
      ⟨rfl, ht, iff_of_false hl Bool.false_ne_true⟩, h.joined.of_same rfl rfl⟩
  | reverting =>
    obtain ⟨-, ht, hl, rfl⟩ := hfits
    obtain rfl := Option.some.inj hs
    exact ⟨.idle, none, h.only.leave hi (Or.inr rfl) rfl,
      ⟨rfl, ht, iff_of_false hl Bool.false_ne_true⟩, h.joined.of_same rfl rfl⟩
  | waking =>
    obtain rfl := Option.some.inj hs
    exact ⟨.reading, cur, h.only.next hi (by simp [CallPc.Past]) rfl, hfits,
      h.joined.of_same rfl rfl⟩
  | reading =>
    obtain ⟨hr, ht, hne⟩ := hfits
    cases cur with
    | none => exact absurd rfl hne
    | some m =>
      simp only [callStep, ht] at hs
      obtain rfl := Option.some.inj hs
      exact ⟨.joining m, some m, h.only.next hi (by simp [CallPc.Past]) rfl, ⟨hr, ht, rfl⟩,
        h.joined.of_same rfl rfl⟩
  | joining t =>
    obtain ⟨hr, -, rfl⟩ := hfits
    simp only [callStep] at hs
    split_ifs at hs with hm
    obtain rfl := Option.some.inj hs
    exact ⟨.clearing, none, h.only.next hi (by simp [CallPc.Past]) rfl, ⟨hr, rfl⟩,
      h.joined.join hm rfl rfl⟩
  | clearing =>
    obtain ⟨hr, rfl⟩ := hfits
    obtain rfl := Option.some.inj hs
    exact ⟨.silencing, none, h.only.next hi (by simp [CallPc.Past]) rfl, ⟨hr, rfl, rfl⟩,
      h.joined.of_same rfl rfl⟩
  | silencing =>
    obtain ⟨hr, ht, rfl⟩ := hfits
    obtain rfl := Option.some.inj hs
    exact ⟨.closing, none, h.only.next hi (by simp [CallPc.Past]) rfl, ⟨hr, ht, rfl⟩,
      h.joined.of_same rfl rfl⟩
  | closing =>
    obtain ⟨hr, ht, rfl⟩ := hfits
    obtain rfl := Option.some.inj hs
    refine ⟨.idle, none, h.only.leave hi (Or.inl rfl) rfl, ⟨hr, ht, ?_⟩, h.joined.of_same rfl rfl⟩
    apply iff_of_false
    · change ¬some WatchCall.stop = some WatchCall.start
      simp
    · change ¬s.running = true
      rw [hr]
      exact Bool.false_ne_true

omit [DecidableEq ι] in
/-- With `g_running` set, a call under way is a start; without, it is a stop. -/
theorem quiet (h : WatchInv s pc cur)
    (hstart : s.running = true → ∀ i, ¬(s.calls i).Starting)
    (hstop : s.running = false → ∀ i, ¬(s.calls i).Stopping) :
    pc = .idle ∧ ∀ i, (s.calls i).Past := by
  rcases h.only with hidle | ⟨i, hi, hne, -⟩
  · exact hidle
  · have hfits := h.fits
    rw [← hi] at hfits hne
    exfalso
    cases hpc : s.calls i <;> rw [hpc] at hfits hne
    case idle => exact hne (Or.inl rfl)
    case muting => exact hne (Or.inr rfl)
    case waking => exact hstop hfits.1 i (by rw [hpc]; trivial)
    case reading => exact hstop hfits.1 i (by rw [hpc]; trivial)
    case joining t => exact hstop hfits.1 i (by rw [hpc]; trivial)
    case clearing => exact hstop hfits.1 i (by rw [hpc]; trivial)
    case silencing => exact hstop hfits.1 i (by rw [hpc]; trivial)
    case closing => exact hstop hfits.1 i (by rw [hpc]; trivial)
    all_goals exact hstart hfits.1 i (by rw [hpc]; trivial)

omit [DecidableEq ι] in
theorem of_monitor (h : WatchInv s pc cur) (hcalls : s'.calls = s.calls)
    (hrunning : s'.running = s.running) (hthread : s'.thread = s.thread) (hlast : s'.last = s.last)
    (hjoined : Joined s' cur) : WatchInv s' pc cur := by
  refine ⟨?_, ?_, hjoined⟩
  · have honly := h.only
    unfold OnlyCall at honly ⊢
    rw [hcalls]
    exact honly
  · have hfits := h.fits
    unfold CallPc.Fits at hfits ⊢
    rw [hrunning, hthread, hlast]
    exact hfits

omit [DecidableEq ι] in
theorem monitor (h : WatchInv s pc cur) {timeout : Bool} {pc0 : MonitorPc}
    (hm : s.monitors m = some pc0) (hs : monitorLoop s m timeout pc0 = some s') :
    WatchInv s' pc cur := by
  have hcur : pc0 ≠ .exited → cur = some m := by
    intro halive
    by_contra hne
    have hended := (h.joined.ended m hne (by rw [hm]; exact Option.some_ne_none pc0)).1
    rw [hm] at hended
    exact halive (Option.some.inj hended)
  cases pc0 with
  | exited => cases hs
  | sleeping =>
    obtain rfl := hcur (by simp)
    simp only [monitorLoop] at hs
    split_ifs at hs
    obtain rfl := Option.some.inj hs
    exact h.of_monitor rfl rfl rfl rfl (h.joined.monitor _ rfl rfl)
  | _ =>
    obtain rfl := hcur (by simp)
    obtain rfl := Option.some.inj hs
    exact h.of_monitor rfl rfl rfl rfl (h.joined.monitor _ rfl rfl)

theorem step (h : WatchInv s pc cur) (hok : Ordered s l) (hs : watchStep s l = some s') :
    ∃ pc' cur', WatchInv s' pc' cur' := by
  cases l with
  | start i enabled =>
    simp only [watchStep] at hs
    split_ifs at hs with hi hr
    · obtain rfl := Option.some.inj hs
      exact ⟨pc, cur, h⟩
    · obtain rfl := Option.some.inj hs
      obtain ⟨rfl, hpast⟩ := h.quiet (fun ht => absurd ht hr) hok
      obtain ⟨hrun, ht, hl⟩ := h.fits
      rw [Bool.not_eq_true] at hr
      cases cur with
      | some m =>
        rw [hr] at hrun
        cases hrun
      | none =>
        refine ⟨.configuring enabled, none,
          .alone (fun j _ => hpast j) (by simp [CallPc.Past]) rfl, ⟨rfl, ht, ?_, rfl⟩,
          h.joined.of_same rfl rfl⟩
        intro hlast
        rw [hl.mp hlast] at hr
        cases hr
  | stop i =>
    simp only [watchStep] at hs
    split_ifs at hs with hi hr
    · obtain rfl := Option.some.inj hs
      obtain ⟨rfl, hpast⟩ := h.quiet hok (fun hf => by rw [hr] at hf; cases hf)
      obtain ⟨hrun, ht, -⟩ := h.fits
      refine ⟨.waking, cur, .alone (fun j _ => hpast j) (by simp [CallPc.Past]) rfl,
        ⟨rfl, ht, ?_⟩, h.joined.of_same rfl rfl⟩
      rintro rfl
      rw [hr] at hrun
      cases hrun
    · obtain rfl := Option.some.inj hs
      exact ⟨pc, cur, h⟩
  | call i created => exact h.call hs
  | monitor m timeout =>
    simp only [watchStep] at hs
    split at hs
    · cases hs
    · rename_i pc0 hm
      exact ⟨pc, cur, h.monitor hm hs⟩

end WatchInv

omit [DecidableEq ι] in
theorem unwatched_inv : WatchInv (unwatched ι) .idle none := by
  refine ⟨Or.inl ⟨rfl, fun _ => Or.inl rfl⟩, ⟨rfl, rfl, ?_⟩, ?_, ?_, nofun⟩
  · exact iff_of_false (by simp [unwatched]) (by simp [unwatched])
  · intro m _ hcreated
    exact absurd rfl hcreated
  · intro m _
    exact ⟨rfl, nofun⟩

/-- In every run of calls that do not overlap, one monitor at most is alive, each is joined once
at most, and by the time all calls have returned every monitor was joined unless the watch runs;
after a stop none is alive and `g_thread` is NULL. -/
theorem watch_lifecycle (h : (watchSystem ι).ReachableWhen Ordered s) :
    (∀ m m', s.Alive m → s.Alive m' → m = m') ∧ (∀ m, s.joins m ≤ 1) ∧
      (s.Quiet → s.running = false → ∀ m, s.monitors m ≠ none → s.joins m = 1) ∧
      (s.Quiet → s.last = some .stop → (∀ m, ¬s.Alive m) ∧ s.thread = none) := by
  have hinv : ∃ pc cur, WatchInv s pc cur := by
    apply h.invariant
    · rintro s rfl
      exact ⟨.idle, none, unwatched_inv⟩
    · rintro s l s' ⟨pc, cur, hs⟩ hok hstep
      exact hs.step hok hstep
  obtain ⟨pc, cur, hinv⟩ := hinv
  have halive : ∀ m, s.Alive m → cur = some m := by
    rintro m ⟨pc0, hm, hne⟩
    by_contra hcur
    have hended := (hinv.joined.ended m hcur (by rw [hm]; exact Option.some_ne_none pc0)).1
    rw [hm] at hended
    exact hne (Option.some.inj hended)
  have hidle : s.Quiet → pc = .idle := by
    intro hquiet
    rcases hinv.only with ⟨hpc, -⟩ | ⟨i, hi, hne, -⟩
    · exact hpc
    · exact absurd (Or.inl (hi.symm.trans (hquiet i))) hne
  have hnone : s.Quiet → s.running = false → cur = none := by
    intro hquiet hr
    have hfits := hinv.fits
    rw [hidle hquiet] at hfits
    have hcur := hfits.1
    rw [hr] at hcur
    exact Option.not_isSome_iff_eq_none.mp (by rw [← hcur]; exact Bool.false_ne_true)
  refine ⟨?_, ?_, ?_, ?_⟩
  · intro m m' hm hm'
    exact Option.some.inj ((halive m hm).symm.trans (halive m' hm'))
  · intro m
    by_cases hcur : cur = some m
    · rw [hinv.joined.unjoined m hcur]
      exact Nat.zero_le 1
    · by_cases hm : s.monitors m = none
      · rw [(hinv.joined.fresh m hm).1]
        exact Nat.zero_le 1
      · rw [(hinv.joined.ended m hcur hm).2]
  · intro hquiet hr m hm
    have hcur : cur ≠ some m := by
      rw [hnone hquiet hr]
      exact nofun
    exact (hinv.joined.ended m hcur hm).2
  · intro hquiet hlast
    have hfits := hinv.fits
    rw [hidle hquiet] at hfits
    obtain ⟨-, hthread, hl⟩ := hfits
    have hr : s.running = false := by
      by_contra hr
      have hstart := hl.mpr (Bool.eq_true_of_not_eq_false hr)
      rw [hlast] at hstart
      cases hstart
    have hcur := hnone hquiet hr
    refine ⟨?_, hthread.trans hcur⟩
    intro m hm
    rw [halive m hm] at hcur
    cases hcur

/-- One thread starts the watch and another stops it. -/
theorem watch_lifecycle_once :
    ∃ s : WatchState Bool, (watchSystem Bool).ReachableWhen Ordered s ∧ s.Quiet ∧
      s.last = some .stop ∧ s.monitors 0 ≠ none ∧ s.joins 0 = 1 ∧ (∀ m, ¬s.Alive m) ∧
      s.thread = none := by
  have hout : ((watchSystem Bool).execWhen Ordered (unwatched Bool)
      [.start false true, .call false none, .call false none, .call false none,
        .call false none, .call false (some 0), .call false none, .monitor 0 false,
        .monitor 0 false, .stop true, .call true none, .monitor 0 false, .call true none,
        .monitor 0 false, .call true none, .call true none, .call true none,
        .call true none]).map
      (fun s => (s.calls false, s.calls true, s.last, s.running, s.monitors 0)) =
        some (.idle, .idle, some .stop, false, some .exited) := by
    decide +kernel
  obtain ⟨s, hrun, hs⟩ := Option.map_eq_some_iff.mp hout
  obtain ⟨hfirst, hs⟩ := Prod.mk.inj hs
  obtain ⟨hsecond, hs⟩ := Prod.mk.inj hs
  obtain ⟨hlast, hs⟩ := Prod.mk.inj hs
  obtain ⟨hrunning, hmonitor⟩ := Prod.mk.inj hs
  have hreach : (watchSystem Bool).ReachableWhen Ordered s := .exec (.init rfl) hrun
  have hquiet : s.Quiet := by
    rintro (_ | _)
    · exact hfirst
    · exact hsecond
  have hcreated : s.monitors 0 ≠ none := by
    rw [hmonitor]
    exact Option.some_ne_none _
  obtain ⟨-, -, hjoined, hend⟩ := watch_lifecycle hreach
  obtain ⟨halive, hthread⟩ := hend hquiet hlast
  exact ⟨s, hreach, hquiet, hlast, hcreated, hjoined hquiet hrunning 0 hcreated, halive, hthread⟩

/-- A stop before the store of `g_thread` joins nothing, and the monitor is never joined; a start
while a stop waits in `thread_join` keeps the first monitor alive beside the second. -/
theorem watch_lifecycle_not :
    (∃ s : WatchState Bool, (watchSystem Bool).Reachable s ∧ s.Quiet ∧ s.running = false ∧
      s.monitors 0 = some .exited ∧ s.joins 0 = 0 ∧ s.thread = some 0) ∧
      ∃ s : WatchState Bool, (watchSystem Bool).Reachable s ∧ s.Alive 0 ∧ s.Alive 1 := by
  constructor
  · have hout : ((watchSystem Bool).exec (unwatched Bool)
        [.start false true, .call false none, .call false none, .call false none,
          .call false none, .call false (some 0), .stop true, .call true none, .call true none,
          .call true none, .call true none, .call false none, .monitor 0 false]).map
        (fun s => ((s.calls false, s.calls true, s.running), s.monitors 0, s.joins 0, s.thread)) =
          some ((.idle, .idle, false), some .exited, 0, some 0) := by
      decide +kernel
    obtain ⟨s, hrun, hs⟩ := Option.map_eq_some_iff.mp hout
    obtain ⟨hcalls, hs⟩ := Prod.mk.inj hs
    obtain ⟨hfirst, hcalls⟩ := Prod.mk.inj hcalls
    obtain ⟨hsecond, hrunning⟩ := Prod.mk.inj hcalls
    obtain ⟨hmonitor, hs⟩ := Prod.mk.inj hs
    obtain ⟨hjoins, hthread⟩ := Prod.mk.inj hs
    refine ⟨s, .exec (.init rfl) hrun, ?_, hrunning, hmonitor, hjoins, hthread⟩
    rintro (_ | _)
    · exact hfirst
    · exact hsecond
  · have hout : ((watchSystem Bool).exec (unwatched Bool)
        [.start false true, .call false none, .call false none, .call false none,
          .call false none, .call false (some 0), .call false none, .monitor 0 false,
          .monitor 0 false, .stop true, .call true none, .call true none, .start false true,
          .call false none, .call false none, .call false none, .call false none,
          .call false (some 1), .monitor 0 true, .monitor 0 false]).map
        (fun s => (s.monitors 0, s.monitors 1)) = some (some .scanning, some .checking) := by
      decide +kernel
    obtain ⟨s, hrun, hs⟩ := Option.map_eq_some_iff.mp hout
    obtain ⟨hfirst, hsecond⟩ := Prod.mk.inj hs
    exact ⟨s, .exec (.init rfl) hrun, ⟨.scanning, hfirst, by simp⟩, ⟨.checking, hsecond, by simp⟩⟩

end Xplatbase.LeakWatch
