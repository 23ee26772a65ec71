import Xplatbase.Strings.StringRuns

/-! The events the string operations raise. Each comes with a null context, and what becomes of
the operation depends on the handler installed. -/
namespace Xplatbase.Strings
open Xplatbase.Lib

def World.withHandler (w : World) (h : ErrorHandler) : World := { w with handler := h }

/-- Either no event is raised on the way to a result, or one is and the handler decides: the null
context faults, or the call gives up with what `P` says of its result. -/
def Raises {α : Type} (P : α → World → Prop) (w : World) (r : World → Run (α × World)) : Prop :=
  (∀ v w', r (w.withHandler .application) = .ok (v, w') → w'.reports = w.reports) ∨
    (r (w.withHandler .default) = .error .nullDeref ∧
      ∃ v w', r (w.withHandler .application) = .ok (v, w') ∧ P v w')

variable {α β : Type} {P : α → World → Prop} {w : World} {r : World → Run (α × World)}

theorem Raises.map {Q : β → World → Prop} {f : α → β} (h : Raises P w r)
    (hf : ∀ v w', P v w' → Q (f v) w') :
    Raises Q w fun w => (r w).map fun (v, w) => (f v, w) := by
  rcases h with h | ⟨hd, v, w', ha, hp⟩
  · refine Or.inl fun v w' hv => ?_
    obtain ⟨⟨u, w1⟩, hu, heq⟩ := map_ok hv
    obtain ⟨-, rfl⟩ := Prod.mk.inj heq
    exact h u w1 hu
  · refine Or.inr ⟨?_, f v, w', ?_, hf v w' hp⟩
    · show (r _).map _ = _
      rw [hd]
      rfl
    · show (r _).map _ = _
      rw [ha]
      rfl

theorem Raises.imp_of {Q : α → World → Prop} (h : Raises P w r) (hq : ∀ v w', P v w' → Q v w') :
    Raises Q w r :=
  h.imp_right fun ⟨hd, v, w', ha, hp⟩ => ⟨hd, v, w', ha, hq v w' hp⟩

/-- A call that comes to a result on which no event was raised. -/
theorem Raises.quiet (h : ∀ v w', r (w.withHandler .application) = .ok (v, w') →
      w'.reports = w.reports) :
    Raises P w r :=
  Or.inl h

/-- An event raised in `w1`, and `v` returned in what `f` makes of the world. -/
theorem Raises.trigger (w1 : World) (fmt : String) (args : List ℕ) (f : World → World) {v : α}
    (hrun : ∀ h, r (w.withHandler h) =
      (xpbEventTriggerError none fmt args (w1.withHandler h)).map fun w => (v, f w))
    (hp : P v (f { w1.withHandler .application with reports := (fmt, args) :: w1.reports })) :
    Raises P w r :=
  Or.inr ⟨by rw [hrun]; rfl, v, _, by rw [hrun]; rfl, hp⟩

variable {w' : World} {x b : ℕ} {s : StringX}

theorem setContent_reports {i : ℤ} {v : UInt8} (h : setContent x i v w = .ok w') :
    w'.reports = w.reports := by
  unfold setContent at h
  split at h
  · cases h
  · split at h
    · cases h
    · split_ifs at h
      obtain ⟨bs, -, rfl⟩ := map_ok h
      rfl

theorem setContents_reports {vs : List UInt8} {i : ℕ} (h : setContents x i vs w = .ok w') :
    w'.reports = w.reports := by
  induction vs generalizing i w with
  | nil => exact congrArg World.reports (Except.ok.inj h).symm
  | cons v vs ih =>
    obtain ⟨u, hu, hrest⟩ := bind_ok h
    rw [ih hrest, setContent_reports hu]

theorem copyByte_reports {src : Source} {srcStart dstStart : ℤ} {i : ℕ}
    (h : copyByte x src srcStart dstStart i w = .ok w') :
    w'.reports = w.reports := by
  obtain ⟨v, -, hv⟩ := bind_ok h
  exact setContent_reports hv

theorem copyLoop_reports {src : Source} {srcStart dstStart : ℤ} {n : ℕ}
    (h : forUpTo (copyByte x src srcStart dstStart) n w = .ok w') :
    w'.reports = w.reports := by
  induction n generalizing w' with
  | zero => exact congrArg World.reports (Except.ok.inj h).symm
  | succ n ih =>
    obtain ⟨u, hu, hlast⟩ := bind_ok h
    rw [copyByte_reports hlast, ih hu]

/-- A doubled capacity is even, so one more is never 0. -/
theorem growTo_even {fuel m required n : ℕ} (h : growTo fuel m required = some n) :
    n = m ∨ n % 2 = 0 := by
  induction fuel generalizing m with
  | zero =>
    unfold growTo at h
    split_ifs at h
    exact Or.inl (Option.some.inj h).symm
  | succ fuel ih =>
    unfold growTo at h
    split_ifs at h
    · rcases ih h with rfl | he
      · exact Or.inr (by omega)
      · exact Or.inr he
    · exact Or.inl (Option.some.inj h).symm

theorem growTo_reaches {fuel m required n : ℕ} (h : growTo fuel m required = some n) :
    required ≤ n := by
  induction fuel generalizing m with
  | zero =>
    unfold growTo at h
    split_ifs at h with hm
    rw [← Option.some.inj h]
    exact Nat.le_of_not_lt hm
  | succ fuel ih =>
    unfold growTo at h
    split_ifs at h with hm
    · exact ih h
    · rw [← Option.some.inj h]
      exact Nat.le_of_not_lt hm

/-- The request for a longer string is never one for 0 bytes. -/
theorem growTo_request {required n : ℕ} (hfits : ¬required ≤ s.max)
    (h : growTo 64 s.firstMax required = some n) :
    0 < (n + 1) % 2 ^ 64 := by
  have hreach := growTo_reaches h
  rcases growTo_even h with hn | hn
  · unfold StringX.firstMax initialStringLength at hn
    split_ifs at hn <;> omega
  · omega

/-- Everything but the event and the answers of the allocator to come. -/
structure Kept (w w' : World) : Prop where
  blocks : w'.blocks.live = w.blocks.live
  items : w'.items.live = w.items.live
  str : w'.str = w.str
  list : w'.list = w.list

theorem memopReallocRaw_request (p : Option ℕ) {n : ℕ} (hn : 0 < n) (w : World) :
    (∃ e, ∀ h, memopReallocRaw p n (w.withHandler h) = .error e) ∨
      ∃ (r : Option ℕ) (w1 : World), w1.reports = w.reports ∧ w1.str = w.str ∧
        (r = none → Kept w w1) ∧
        ∀ h, memopReallocRaw p n (w.withHandler h) = .ok (r, w1.withHandler h) := by
  cases hr : w.blocks.realloc p n maxBlock with
  | error e =>
    refine Or.inl ⟨e, fun h => ?_⟩
    show (w.blocks.realloc p n maxBlock).map _ = _
    rw [hr]
    rfl
  | ok u =>
    refine Or.inr ⟨u.1, { w with blocks := u.2 }, rfl, rfl, fun hu => ⟨?_, rfl, rfl, rfl⟩,
      fun h => ?_⟩
    · show u.2.live = w.blocks.live
      rw [Blocks.realloc_refused (show _ = Except.ok (none, u.2) by rw [hr, ← hu])]
      exact fun h0 => absurd h0 (Nat.ne_of_gt hn)
    · show (w.blocks.realloc p n maxBlock).map _ = _
      rw [hr]
      rfl

/-- Growth under any handler: it faults, it goes through, or it is refused with everything as it
was and the event to be raised. -/
theorem shEnsureCapacity_cases (x : ℕ) (s : StringX) (required : ℕ) (w : World) :
    (∃ e, ∀ h, shEnsureCapacity x s required (w.withHandler h) = .error e) ∨
      (∃ w1 : World, w1.reports = w.reports ∧
        ∀ h, shEnsureCapacity x s required (w.withHandler h) = .ok (true, w1.withHandler h)) ∨
      ∃ (w1 : World) (fmt : String) (args : List ℕ), Kept w w1 ∧
        ∀ h, shEnsureCapacity x s required (w.withHandler h) =
          (xpbEventTriggerError none fmt args (w1.withHandler h)).map fun w => (false, w) := by
  by_cases hfits : required ≤ s.max
  · exact Or.inr (Or.inl ⟨w, rfl, fun h => if_pos hfits⟩)
  · cases hg : growTo 64 s.firstMax required with
    | none =>
      refine Or.inl ⟨.endless, fun h => ?_⟩
      simp only [shEnsureCapacity, if_neg hfits, hg]
    | some n =>
      rcases memopReallocRaw_request s.content (growTo_request hfits hg) w with
        ⟨e, he⟩ | ⟨r, w1, hrep, -, hkept, hrun⟩
      · refine Or.inl ⟨e, fun h => ?_⟩
        simp only [shEnsureCapacity, if_neg hfits, hg, he]
        rfl
      · cases r with
        | some c =>
          refine Or.inr (Or.inl ⟨w1.setStr x { s with content := some c, max := n }, hrep,
            fun h => ?_⟩)
          simp only [shEnsureCapacity, if_neg hfits, hg, hrun]
          rfl
        | none =>
          refine Or.inr (Or.inr ⟨w1, "Falha ao realocar %zu caracteres para a string.",
            [(n + 1) % 2 ^ 64], hkept rfl, fun h => ?_⟩)
          simp only [shEnsureCapacity, if_neg hfits, hg, hrun]
          rfl

theorem Raises.done {v : α}
    (h : r (w.withHandler .application) = .ok (v, w.withHandler .application)) :
    Raises P w r := by
  refine Raises.quiet fun u w' hu => ?_
  rw [h] at hu
  obtain ⟨-, rfl⟩ := Prod.mk.inj (Except.ok.inj hu)
  rfl

theorem Raises.fault {e : CFault} (h : r (w.withHandler .application) = .error e) :
    Raises P w r := by
  refine Raises.quiet fun u w' hu => ?_
  rw [h] at hu
  cases hu

/-- What a failed call with a `void` result leaves. -/
def FailsVoid (w : World) (ret : ℤ) (w' : World) : Prop :=
  ret = 0 ∧ Kept w w'

theorem stringCopy_raises (x : ℕ) (content : Option Source)
    (contLength srcStart length dstStart : ℤ) (w : World) :
    Raises (FailsVoid w) w fun w =>
      (stringCopy x content contLength srcStart length dstStart w).map fun w => ((0 : ℤ), w) := by
  by_cases hp : CopyPasses contLength srcStart length dstStart
  · by_cases hn : content = none ∨ ∀ s, w.str x = some s → s.content = none
    · exact Raises.done (by rw [stringCopy_null (w := w.withHandler .application) hn]; rfl)
    · obtain ⟨hc, hs⟩ := not_or.mp hn
      obtain ⟨src, rfl⟩ := Option.ne_none_iff_exists'.mp hc
      push Not at hs
      obtain ⟨s, hs, hnull⟩ := hs
      obtain ⟨hlen, hs0, hd0, hfit⟩ := hp
      obtain ⟨stop, hstop⟩ : ∃ n, n = (toUInt64 dstStart + toUInt64 length) % 2 ^ 64 := ⟨_, rfl⟩
      have hrun : ∀ h, stringCopy x (some src) contLength srcStart length dstStart
          (w.withHandler h) =
            (shEnsureCapacity x s stop (w.withHandler h) >>= fun r =>
              if r.1 then
                forUpTo (copyByte x src srcStart dstStart) length.toNat r.2 >>= fun w =>
                  let s := (w.str x).getD s
                  let s := { s with length := max s.length stop }
                  setContent x s.length 0 (w.setStr x s)
              else .ok r.2) := by
        intro h
        have hs' : (w.withHandler h).str x = some s := hs
        simp only [stringCopy, hs', if_neg hnull, if_neg (show ¬(length ≤ 0 ∨ srcStart < 0 ∨
          dstStart < 0) by omega), if_neg (not_lt.mpr hfit), ← hstop]
      rcases shEnsureCapacity_cases x s stop w with
        ⟨e, he⟩ | ⟨w1, hrep, hok⟩ | ⟨w1, fmt, args, hkept, hfail⟩
      · apply Raises.fault (e := e)
        rw [hrun, he]
        rfl
      · refine Raises.quiet fun v w' hv => ?_
        rw [hrun, hok] at hv
        obtain ⟨w2, hw2, heq⟩ := map_ok hv
        obtain ⟨-, rfl⟩ := Prod.mk.inj heq
        obtain ⟨u, hu, hrest⟩ := bind_ok hw2
        obtain rfl := Except.ok.inj hu
        obtain ⟨w3, hloop, hset⟩ := bind_ok hrest
        have hterm := setContent_reports hset
        calc w2.reports = w3.reports := hterm
          _ = (w1.withHandler .application).reports := copyLoop_reports hloop
          _ = w.reports := hrep
      · refine Raises.trigger w1 fmt args id (fun h => ?_)
          ⟨rfl, hkept.blocks, hkept.items, hkept.str, hkept.list⟩
        rw [hrun, hfail]
        unfold xpbEventTriggerError
        split <;> rfl
  · exact Raises.done (by rw [stringCopy_stopped content hp]; rfl)

theorem memopAllocRaw_cases (n : ℕ) (w : World) :
    (∃ w1, Kept w w1 ∧ ∀ h, memopAllocRaw n (w.withHandler h) = (none, w1.withHandler h)) ∨
      ∃ (b : ℕ) (bytes : List UInt8) (blocks : Blocks UInt8), w.blocks.live b = none ∧
        blocks.live = Function.update w.blocks.live b (some bytes) ∧
        ∀ h, memopAllocRaw n (w.withHandler h) =
          (some b, { w.withHandler h with blocks := blocks }) := by
  rcases w.blocks.alloc_spec n with ⟨hnone, hlive⟩ | ⟨b, bytes, hsome, hfresh, -, -, hlive⟩
  · exact Or.inl ⟨{ w with blocks := (w.blocks.alloc n).2 }, ⟨hlive, rfl, rfl, rfl⟩,
      fun h => Prod.ext hnone rfl⟩
  · exact Or.inr ⟨b, bytes, (w.blocks.alloc n).2, hfresh, hlive, fun h => Prod.ext hsome rfl⟩

/-- Everything but string `x`, which the call was to make. -/
structure KeptBut (x : ℕ) (w w' : World) : Prop where
  blocks : w'.blocks.live = w.blocks.live
  items : w'.items.live = w.items.live
  str : ∀ y, y ≠ x → w'.str y = w.str y
  list : w'.list = w.list

theorem stringInit_raises (x : ℕ) (w : World) :
    Raises (fun ret w' => ret = 0 ∧ KeptBut x w w') w fun w =>
      (stringInit x w).map fun w => ((0 : ℤ), w) := by
  rcases memopAllocRaw_cases (initialStringLength + 1) w with
    ⟨w1, hkept, hr⟩ | ⟨b, bytes, blocks, -, -, hr⟩
  · refine Raises.trigger w1 "Falha ao alocar %zu caracteres para a string."
      [initialStringLength + 1] (fun w => w.setStr x ⟨false, 0, 0, none⟩)
      (fun h => ?_)
      ⟨rfl, hkept.blocks, hkept.items, fun y hy => ?_, hkept.list⟩
    · simp only [stringInit, hr]
      cases h <;> rfl
    · exact (Function.update_of_ne hy _ _).trans (congrFun hkept.str y)
  · refine Raises.quiet fun v w' hv => ?_
    simp only [stringInit, hr] at hv
    obtain ⟨u, hu, heq⟩ := map_ok hv
    obtain ⟨-, rfl⟩ := Prod.mk.inj heq
    rw [setContent_reports hu]
    rfl

theorem memopFreeRaw_live {bytes : List UInt8} (h : w.blocks.live b = some bytes) :
    memopFreeRaw (some b) w =
      .ok { w with blocks := { w.blocks with
        live := Function.update w.blocks.live b none } } := by
  simp only [memopFreeRaw, Blocks.free, h]
  rfl

theorem memopFreeRaw_reports {p : Option ℕ} (h : memopFreeRaw p w = .ok w') :
    w'.reports = w.reports := by
  obtain ⟨u, -, rfl⟩ := map_ok h
  rfl

theorem stringRelease_reports (h : stringRelease x w = .ok w') :
    w'.reports = w.reports := by
  unfold stringRelease at h
  split at h
  · rw [Except.ok.inj h]
  · obtain ⟨u, hu, hset⟩ := bind_ok h
    have hrep := memopFreeRaw_reports hu
    rw [← Except.ok.inj hset]
    exact hrep

theorem stringTrimRight_reports (h : stringTrimRight x w = .ok w') :
    w'.reports = w.reports := by
  unfold stringTrimRight at h
  split at h
  · rw [Except.ok.inj h]
  · split at h
    · rw [Except.ok.inj h]
    · split at h
      · cases h
      · have hrep := setContent_reports h
        exact hrep

theorem stringTrimLeft_reports (h : stringTrimLeft x w = .ok w') :
    w'.reports = w.reports := by
  unfold stringTrimLeft at h
  split at h
  · rw [Except.ok.inj h]
  · split at h
    · rw [Except.ok.inj h]
    · split at h
      · cases h
      · dsimp only at h
        split_ifs at h
        · have hrep := setContent_reports h
          exact hrep
        · rw [Except.ok.inj h]

theorem stringTrim_reports (h : stringTrim x w = .ok w') :
    w'.reports = w.reports := by
  obtain ⟨u, hu, hleft⟩ := bind_ok h
  rw [stringTrimLeft_reports hleft, stringTrimRight_reports hu]

theorem Raises.silent {f : World → Run World} {P : ℤ → World → Prop}
    (hf : ∀ u w', f u = .ok w' → w'.reports = u.reports) (w : World) :
    Raises P w fun w => (f w).map fun w => ((0 : ℤ), w) := by
  refine Raises.quiet fun v w' hv => ?_
  obtain ⟨u, hu, heq⟩ := map_ok hv
  obtain ⟨-, rfl⟩ := Prod.mk.inj heq
  exact hf (w.withHandler .application) u hu

theorem stringCopys_raises (src dst : ℕ) (srcStart length dstStart : ℤ) (w : World) :
    Raises (FailsVoid w) w fun w =>
      (stringCopys src dst srcStart length dstStart w).map fun w => ((0 : ℤ), w) := by
  cases hs : w.str src with
  | none =>
    apply Raises.done (v := 0)
    simp only [stringCopys, show (w.withHandler .application).str src = none from hs]
    rfl
  | some s =>
    cases hb : s.content with
    | none =>
      apply Raises.done (v := 0)
      simp only [stringCopys, show (w.withHandler .application).str src = some s from hs, hb]
      rfl
    | some b =>
      have hrun := stringCopy_raises dst (some (.block b s.length)) (toInt32 s.length) srcStart
        length dstStart w
      have hs' : ∀ h, (w.withHandler h).str src = some s := fun _ => hs
      unfold Raises at hrun ⊢
      simpa only [stringCopys, hs', hb] using hrun

theorem stringAppend_raises (src dst : ℕ) (srcStart length : ℤ) (w : World) :
    Raises (FailsVoid w) w fun w =>
      (stringAppend src dst srcStart length w).map fun w => ((0 : ℤ), w) := by
  by_cases hgo : ∃ s d b, w.str src = some s ∧ w.str dst = some d ∧ s.content = some b ∧
      ¬(length ≤ 0 ∨ srcStart < 0) ∧ ¬s.length < toUInt64 (toInt32 (srcStart + length))
  · obtain ⟨s, d, b, hs, hd, hb, hpos, hfit⟩ := hgo
    have hrun := stringCopy_raises dst (some (.block b s.length)) (toInt32 s.length) srcStart
      length (toInt32 d.length) w
    have hs' : ∀ h, (w.withHandler h).str src = some s := fun _ => hs
    have hd' : ∀ h, (w.withHandler h).str dst = some d := fun _ => hd
    unfold Raises at hrun ⊢
    simpa only [stringAppend, hs', hd', hb, if_neg hpos, if_neg hfit] using hrun
  · apply Raises.done (v := 0)
    suffices hok : stringAppend src dst srcStart length (w.withHandler .application) =
        .ok (w.withHandler .application) by rw [hok]; rfl
    unfold stringAppend
    split
    · rename_i s d hs hd
      split
      · rfl
      · rename_i b hb
        split_ifs with hpos hfit
        · rfl
        · rfl
        · exact absurd ⟨s, d, b, hs, hd, hb, hpos, hfit⟩ hgo
    · rfl

theorem stringAppends_raises (x : ℕ) (content : Option Source)
    (conLength srcStart srcLength : ℤ) (w : World) :
    Raises (FailsVoid w) w fun w =>
      (stringAppends x content conLength srcStart srcLength w).map fun w => ((0 : ℤ), w) := by
  cases hs : w.str x with
  | none =>
    apply Raises.done (v := 0)
    simp only [stringAppends, show (w.withHandler .application).str x = none from hs]
    rfl
  | some s =>
    have hrun := stringCopy_raises x content conLength srcStart srcLength (toInt32 s.length) w
    have hs' : ∀ h, (w.withHandler h).str x = some s := fun _ => hs
    unfold Raises at hrun ⊢
    simpa only [stringAppends, hs'] using hrun

theorem stringAppendFormatv_raises (x : ℕ) (counted printed : VsnAnswer) (w : World) :
    Raises (fun ret w' => ret = -1 ∧ Kept w w') w (stringAppendFormatv x counted printed) := by
  by_cases hgo : ∃ s, w.str x = some s ∧ s.content ≠ none ∧ ¬counted.count < 0 ∧
      ¬(s.length + toUInt64 counted.count) % 2 ^ 64 < s.length
  · obtain ⟨s, hs, hnull, hcount, hwrap⟩ := hgo
    obtain ⟨required, hreq⟩ : ∃ n, n = (s.length + toUInt64 counted.count) % 2 ^ 64 := ⟨_, rfl⟩
    rw [← hreq] at hwrap
    have hs' : ∀ h, (w.withHandler h).str x = some s := fun _ => hs
    have hrun : ∀ h, stringAppendFormatv x counted printed (w.withHandler h) =
        (shEnsureCapacity x s required (w.withHandler h) >>= fun r =>
          if r.1 then
            let t := (r.2.str x).getD s
            setContents x s.length (printed.output (t.max - s.length + 1)) r.2 >>= fun w =>
              if printed.count ≠ counted.count then
                setContent x s.length 0 w >>= fun w => .ok (-1, w)
              else .ok (printed.count, w.setStr x { t with length := required })
          else .ok (-1, r.2)) := by
      intro h
      simp only [stringAppendFormatv, hs' h, if_neg hnull, if_neg hcount, ← hreq, if_neg hwrap]
    rcases shEnsureCapacity_cases x s required w with
      ⟨e, he⟩ | ⟨w1, hrep, hok⟩ | ⟨w1, fmt, args, hkept, hfail⟩
    · apply Raises.fault (e := e)
      rw [hrun, he]
      rfl
    · refine Raises.quiet fun v w' hv => ?_
      rw [hrun, hok] at hv
      obtain ⟨u, hu, hrest⟩ := bind_ok hv
      obtain rfl := Except.ok.inj hu
      obtain ⟨w2, hloop, hend⟩ := bind_ok hrest
      have hloop' := setContents_reports hloop
      split_ifs at hend with hcut
      · obtain ⟨w3, hset, heq⟩ := bind_ok hend
        obtain ⟨-, rfl⟩ := Prod.mk.inj (Except.ok.inj heq)
        rw [setContent_reports hset, hloop']
        exact hrep
      · obtain ⟨-, rfl⟩ := Prod.mk.inj (Except.ok.inj hend)
        exact hloop'.trans hrep
    · refine Raises.trigger w1 fmt args id (fun h => ?_)
        ⟨rfl, hkept.blocks, hkept.items, hkept.str, hkept.list⟩
      rw [hrun, hfail]
      unfold xpbEventTriggerError
      split <;> rfl
  · apply Raises.done (v := -1)
    cases hs : w.str x with
    | none =>
      simp only [stringAppendFormatv, show (w.withHandler .application).str x = none from hs]
    | some s =>
      have hs' : (w.withHandler .application).str x = some s := hs
      by_cases hnull : s.content = none
      · simp only [stringAppendFormatv, hs', if_pos hnull]
      · by_cases hcount : counted.count < 0
        · simp only [stringAppendFormatv, hs', if_neg hnull, if_pos hcount]
        · by_cases hwrap : (s.length + toUInt64 counted.count) % 2 ^ 64 < s.length
          · simp only [stringAppendFormatv, hs', if_neg hnull, if_neg hcount, if_pos hwrap]
          · exact absurd ⟨s, hs, hnull, hcount, hwrap⟩ hgo

theorem stringSubstring_raises (out x : ℕ) (index length : ℤ) (w : World) :
    Raises (fun ok w' => ok = false ∧ Kept w w') w (stringSubstring out x index length) := by
  by_cases hgo : ∃ s b, w.str x = some s ∧ s.content = some b ∧ SubstringPasses s index length
  · obtain ⟨s, b, hs, hb, hp⟩ := hgo
    have hs' : ∀ h, (w.withHandler h).str x = some s := fun _ => hs
    have hpos : ¬(index < 0 ∨ length < 0) := by
      have := hp.1
      have := hp.2.1
      omega
    have hfit : ¬s.length < toUInt64 (toInt32 (index + length)) := not_lt.mpr hp.2.2
    rcases memopAllocRaw_cases 32 w with ⟨w1, hkept, hr⟩ | ⟨node, bytes, blocks, hfresh, hlive, hr⟩
    · refine Raises.trigger w1 "Falha ao alocar substring." []
        id (fun h => ?_) ⟨rfl, hkept.blocks, hkept.items, hkept.str, hkept.list⟩
      simp only [stringSubstring, hs', hb, if_neg hpos, if_neg hfit, hr]
      cases h <;> rfl
    · rcases memopAllocRaw_cases (toUInt64 length + 1) { w with blocks := blocks } with
        ⟨w1, hkept, hr2⟩ | ⟨c, bytes, blocks2, -, -, hr2⟩
      · have hnode : w1.blocks.live node = some bytes := by
          rw [hkept.blocks, hlive]
          exact Function.update_self node _ _
        refine Raises.trigger w1
          "Falha ao alocar %zu caracteres para a substring."
          [toUInt64 (toInt32 (length + 1))]
          (fun w => { w with blocks := { w1.blocks with
            live := Function.update w1.blocks.live node none } })
          (fun h => ?_) ⟨rfl, ?_, hkept.items, hkept.str, hkept.list⟩
        · simp only [stringSubstring, hs', hb, if_neg hpos, if_neg hfit, hr]
          have hr2' : memopAllocRaw (toUInt64 length + 1) { w.withHandler h with blocks := blocks } =
            (none, w1.withHandler h) := hr2 h
          simp only [hr2']
          cases h with
          | default => rfl
          | application =>
            have hfree := memopFreeRaw_live (w := { w1.withHandler .application with
              reports := ("Falha ao alocar %zu caracteres para a substring.",
                [toUInt64 (toInt32 (length + 1))]) :: w1.reports }) hnode
            exact congrArg (fun r : Run World => r >>= fun w => .ok (false, w)) hfree
        · show Function.update w1.blocks.live node none = w.blocks.live
          rw [hkept.blocks, hlive, Function.update_idem, ← hfresh, Function.update_eq_self]
      · refine Raises.quiet fun v w' hv => ?_
        have hr2' : memopAllocRaw (toUInt64 length + 1)
            { w.withHandler .application with blocks := blocks } =
              (some c, { w.withHandler .application with blocks := blocks2 }) := hr2 .application
        simp only [stringSubstring, hs', hb, if_neg hpos, if_neg hfit, hr, hr2'] at hv
        obtain ⟨w1, hloop, hrest⟩ := bind_ok hv
        obtain ⟨w2, hset, heq⟩ := bind_ok hrest
        obtain ⟨-, rfl⟩ := Prod.mk.inj (Except.ok.inj heq)
        rw [setContent_reports hset, copyLoop_reports hloop]
        rfl
  · apply Raises.done (v := false)
    cases hs : w.str x with
    | none => simp only [stringSubstring, show (w.withHandler .application).str x = none from hs]
    | some s =>
      have hs' : (w.withHandler .application).str x = some s := hs
      by_cases hp : SubstringPasses s index length
      · cases hb : s.content with
        | none => simp only [stringSubstring, hs', hb]
        | some b => exact absurd ⟨s, b, hs, hb, hp⟩ hgo
      · exact stringSubstring_stopped hs' hp

theorem stringAppend_stopped {src dst : ℕ} {srcStart length : ℤ} {d : StringX}
    (hs : w.str src = some s) (hd : w.str dst = some d)
    (h : length ≤ 0 ∨ srcStart < 0 ∨ s.length < toUInt64 (toInt32 (srcStart + length)) ∨
      ¬CopyPasses (toInt32 s.length) srcStart length (toInt32 d.length)) :
    stringAppend src dst srcStart length w = .ok w := by
  cases hb : s.content with
  | none => simp only [stringAppend, hs, hd, hb]
  | some b =>
    by_cases hpos : length ≤ 0 ∨ srcStart < 0
    · simp only [stringAppend, hs, hd, hb, if_pos hpos]
    · by_cases hfit : s.length < toUInt64 (toInt32 (srcStart + length))
      · simp only [stringAppend, hs, hd, hb, if_neg hpos, if_pos hfit]
      · simp only [stringAppend, hs, hd, hb, if_neg hpos, if_neg hfit]
        apply stringCopy_stopped _
        tauto

theorem stringAppendFormatv_stopped {counted : VsnAnswer} (printed : VsnAnswer)
    (hs : w.str x = some s)
    (h : counted.count < 0 ∨ (s.length + toUInt64 counted.count) % 2 ^ 64 < s.length) :
    stringAppendFormatv x counted printed w = .ok (-1, w) := by
  by_cases hnull : s.content = none
  · simp only [stringAppendFormatv, hs, if_pos hnull]
  · by_cases hcount : counted.count < 0
    · simp only [stringAppendFormatv, hs, if_neg hnull, if_pos hcount]
    · simp only [stringAppendFormatv, hs, if_neg hnull, if_neg hcount,
        if_pos (h.resolve_left hcount)]

end Xplatbase.Strings
