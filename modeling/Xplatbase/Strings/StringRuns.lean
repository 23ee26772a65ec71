import Xplatbase.Strings.StringInvariant

/-! Runs of the public `StringX` operations under any allocator and any `vsnprintf`, with an
error handler that returns. -/
namespace Xplatbase.Strings
open Xplatbase.Lib

/-- What a `const char*` argument points to: the caller's bytes, or a block of the pool. -/
inductive Content
  | caller (get : ℕ → UInt8)
  | block (b : ℕ)

def Content.source (len : ℤ) : Content → Source
  | .caller get => .caller get len
  | .block b => .block b len

inductive StringOp
  | init (x : ℕ)
  | create (x : ℕ)
  | release (x : ℕ)
  | copy (x : ℕ) (content : Option Content) (contLength srcStart length dstStart : ℤ)
  | copys (src dst : ℕ) (srcStart length dstStart : ℤ)
  | append (src dst : ℕ) (srcStart length : ℤ)
  | appends (x : ℕ) (content : Option Content) (conLength srcStart srcLength : ℤ)
  | appendFormat (x : ℕ) (counted printed : VsnAnswer)
  | trimLeft (x : ℕ)
  | trimRight (x : ℕ)
  | trim (x : ℕ)
  | substring (out x : ℕ) (index length : ℤ)

/-- The result is the returned int where there is one; `void` is 0, and a pointer is 0 when it is
NULL and 1 otherwise. -/
def StringOp.run (w : World) : StringOp → Run (ℤ × World)
  | .init x => (stringInit x w).map fun w => (0, w)
  | .create x => (stringCreate x w).map fun w => (0, w)
  | .release x => (stringRelease x w).map fun w => (0, w)
  | .copy x content contLength srcStart length dstStart =>
    (stringCopy x (content.map (·.source contLength)) contLength srcStart length dstStart w).map
      fun w => (0, w)
  | .copys src dst srcStart length dstStart =>
    (stringCopys src dst srcStart length dstStart w).map fun w => (0, w)
  | .append src dst srcStart length =>
    (stringAppend src dst srcStart length w).map fun w => (0, w)
  | .appends x content conLength srcStart srcLength =>
    (stringAppends x (content.map (·.source conLength)) conLength srcStart srcLength w).map
      fun w => (0, w)
  | .appendFormat x counted printed => stringAppendFormat x counted printed w
  | .trimLeft x => (stringTrimLeft x w).map fun w => (0, w)
  | .trimRight x => (stringTrimRight x w).map fun w => (0, w)
  | .trim x => (stringTrim x w).map fun w => (0, w)
  | .substring out x index length =>
    (stringSubstring out x index length w).map fun (ok, w) => (if ok then 1 else 0, w)

def StringOp.enabled (w : World) : StringOp → Bool
  | .substring out _ _ _ => (w.str out).isNone
  | _ => true

/-- Ints whose sum is an int. -/
def SumFits (a b : ℤ) : Prop :=
  IsInt32 a ∧ IsInt32 b ∧ IsInt32 (a + b)

def StringOp.SumsFit (w : World) : StringOp → Prop
  | .copy _ _ _ srcStart length dstStart | .copys _ _ srcStart length dstStart =>
    SumFits srcStart length ∧ SumFits dstStart length
  | .append _ dst srcStart length =>
    SumFits srcStart length ∧ ∀ d ∈ w.str dst, SumFits (toInt32 d.length) length
  | .appends x _ _ srcStart srcLength =>
    SumFits srcStart srcLength ∧ ∀ s ∈ w.str x, SumFits (toInt32 s.length) srcLength
  | .substring _ _ index length => SumFits index length
  | _ => True

instance (a b : ℤ) : Decidable (SumFits a b) :=
  inferInstanceAs (Decidable (_ ∧ _))

instance (w : World) (op : StringOp) : Decidable (op.SumsFit w) := by
  cases op <;> unfold StringOp.SumsFit <;> infer_instance

def World.withGrants (w : World) (grants : List (Option (ℕ × List UInt8))) : World :=
  { w with blocks := { w.blocks with grants := grants } }

def stringRuns : System World (StringOp × List (Option (ℕ × List UInt8))) where
  init := fun w => (∀ x, w.str x = none) ∧ w.handler = .application
  step := fun w (op, grants) =>
    if op.enabled w then
      match op.run (w.withGrants grants) with
      | .ok (_, w') => some w'
      | .error _ => none
    else none

variable {w w' : World} {x y : ℕ} {s : StringX}

/-- Allocation failures are reported; `string_append_format` also fails by its result. -/
def Failed (ret : ℤ) (w w' : World) : Prop :=
  ret = -1 ∨ w'.reports ≠ w.reports

theorem World.Valid.length_text (h : w.Valid) (hs : w.str x = some s) :
    ∃ l, w.text x = some l ∧ l.length = s.length := by
  cases hb : s.content with
  | none => exact ⟨[], by simp [World.text, hs, hb], (h.empty x s hs hb).1.symm⟩
  | some b =>
    obtain ⟨bytes, hh, hr⟩ := h.held hs hb
    have hroom := hr.room
    have hle := hr.length_le
    refine ⟨_, hh.text, ?_⟩
    rw [List.length_take]
    omega

/-- `Length` and the first `Length` bytes of string `y`. -/
def Unchanged (w w' : World) (y : ℕ) : Prop :=
  ∀ s, w.str y = some s → ∃ s', w'.str y = some s' ∧ s'.length = s.length ∧ w'.text y = w.text y

theorem unchanged_of_text (hv : w.Valid) (hv' : w'.Valid) (ht : w'.text y = w.text y) :
    Unchanged w w' y := by
  intro s hs
  obtain ⟨l, hl, hlen⟩ := hv.length_text hs
  cases hs' : w'.str y with
  | none => rw [← ht, World.text, hs'] at hl; cases hl
  | some s' =>
    obtain ⟨l', hl', hlen'⟩ := hv'.length_text hs'
    obtain rfl : l = l' := Option.some.inj (hl.symm.trans (ht ▸ hl'))
    exact ⟨s', rfl, hlen'.symm.trans hlen, ht⟩

theorem World.Valid.withGrants (h : w.Valid) (grants : List (Option (ℕ × List UInt8))) :
    (w.withGrants grants).Valid :=
  h.of_same rfl rfl

/-- `Content` of `y` is written whole by this call, whatever it was. -/
def StringOp.inits (y : ℕ) : StringOp → Bool
  | .init x | .create x => x = y
  | _ => false

structure CallKeeps (op : StringOp) (w : World) (ret : ℤ) (w' : World) : Prop where
  valid : w'.Valid
  handler : w'.handler = w.handler
  kept : Failed ret w w' → ∀ y s, w.str y = some s → (op.inits y = true → s.content = none) →
    w'.text y = w.text y

theorem CallKeeps.of_touch {op : StringOp} {ret : ℤ} (hv : w'.Valid) (ht : Touches x w w')
    (hret : ret ≠ -1) (hrep : w'.reports = w.reports) :
    CallKeeps op w ret w' :=
  ⟨hv, ht.handler, fun hf => (hf.elim hret (absurd hrep)).elim⟩

theorem CallKeeps.of_same {op : StringOp} {ret : ℤ} (hv : w.Valid) (hstr : w'.str = w.str)
    (hlive : w'.blocks.live = w.blocks.live) (hh : w'.handler = w.handler) :
    CallKeeps op w ret w' :=
  ⟨hv.of_same hstr hlive, hh, fun _ y _ _ _ => text_of_same hstr hlive y⟩

/-- `string_copy` and the calls that end in it. -/
theorem stringCopy_keeps (hv : w.Valid) (ha : w.handler = .application) {op : StringOp}
    {content : Option Source} {contLength srcStart length dstStart : ℤ}
    (hlen : ∀ src ∈ content, contLength ≤ src.len) (hsrc : SumFits srcStart length)
    (hdst : SumFits dstStart length) :
    ∃ w', stringCopy x content contLength srcStart length dstStart w = .ok w' ∧
      CallKeeps op w 0 w' := by
  have hself : CallKeeps op w 0 w := .of_same hv rfl rfl rfl
  by_cases hp : CopyPasses contLength srcStart length dstStart
  swap
  · exact ⟨w, stringCopy_stopped content hp, hself⟩
  cases content with
  | none => exact ⟨w, stringCopy_null (Or.inl rfl), hself⟩
  | some src =>
    by_cases hn : ∀ s, w.str x = some s → s.content = none
    · exact ⟨w, stringCopy_null (Or.inr hn), hself⟩
    obtain ⟨s, hs⟩ := not_forall.mp hn
    rw [Classical.not_imp] at hs
    obtain ⟨b, hb⟩ := Option.ne_none_iff_exists'.mp hs.2
    obtain ⟨bytes, hh, hr⟩ := hv.held hs.1 hb
    obtain ⟨-, -, -, hfit⟩ := id hp
    have hsum := toInt32_eq hsrc.2.2
    have hle := hlen src rfl
    have htop := hsrc.2.2.2
    have htop' := hdst.2.2.2
    rcases stringCopy_inside src hv hh hr hp hsrc.1 hsrc.2.1 hdst.1 (by omega) (by omega)
      (by omega) with ⟨w', hrun, hv', ht, hrep⟩ | ⟨hd, -⟩ | ⟨-, w', hrun, hstr, hlive, hhan, -⟩
    · exact ⟨w', hrun, .of_touch hv' ht (by norm_num) hrep⟩
    · rw [ha] at hd
      cases hd
    · exact ⟨w', hrun, .of_same hv hstr hlive hhan⟩

theorem content_len {content : Option Content} {n : ℤ} :
    ∀ src ∈ content.map (·.source n), n ≤ src.len := by
  intro src hs
  obtain ⟨c, -, rfl⟩ := Option.mem_map.mp hs
  cases c <;> exact le_refl n

theorem stringInit_keeps (hv : w.Valid) (ha : w.handler = .application) {op : StringOp}
    (hop : op.inits x = true) :
    ∃ w', stringInit x w = .ok w' ∧ CallKeeps op w 0 w' := by
  rcases stringInit_spec hv x with
    ⟨w', s, b, bytes, hrun, hv', -, ht, hrep⟩ | ⟨hd, -⟩ | ⟨-, w', hrun, hv', ht, hx⟩
  · exact ⟨w', hrun, .of_touch hv' ht (by norm_num) hrep⟩
  · rw [ha] at hd
    cases hd
  · refine ⟨w', hrun, hv', ht.handler, fun _ y s hs hin => ?_⟩
    by_cases hy : y = x
    · subst hy
      simp [World.text, hs, hin hop, hx, StringX.released]
    · exact ht.text hy

theorem StringOp.run_keeps (hv : w.Valid) (ha : w.handler = .application) {op : StringOp}
    (hen : op.enabled w = true) (hfit : op.SumsFit w) :
    ∃ ret w', op.run w = .ok (ret, w') ∧ CallKeeps op w ret w' := by
  have hvoid : ∀ {r : Run World}, (∃ w', r = .ok w' ∧ CallKeeps op w 0 w') →
      ∃ ret w', r.map (fun w => ((0 : ℤ), w)) = .ok (ret, w') ∧ CallKeeps op w ret w' := by
    rintro _ ⟨w', rfl, hk⟩
    exact ⟨0, w', rfl, hk⟩
  have htouch : ∀ {r : Run World} {x : ℕ}, (∃ w', r = .ok w' ∧ w'.Valid ∧ Touches x w w' ∧
      w'.reports = w.reports) → ∃ w', r = .ok w' ∧ CallKeeps op w 0 w' := by
    rintro _ x ⟨w', hr, hv', ht, hrep⟩
    exact ⟨w', hr, .of_touch hv' ht (by norm_num) hrep⟩
  have hself : CallKeeps op w 0 w := .of_same hv rfl rfl rfl
  cases op with
  | init x => exact hvoid (stringInit_keeps hv ha (by simp [StringOp.inits]))
  | create x => exact hvoid (stringInit_keeps hv ha (by simp [StringOp.inits]))
  | release x => exact hvoid (htouch (stringRelease_spec hv x))
  | copy x content contLength srcStart length dstStart =>
    exact hvoid (stringCopy_keeps hv ha content_len hfit.1 hfit.2)
  | copys src dst srcStart length dstStart =>
    apply hvoid
    unfold stringCopys
    split
    · exact ⟨w, rfl, hself⟩
    · rename_i s hs
      split
      · exact ⟨w, rfl, hself⟩
      · refine stringCopy_keeps hv ha (fun src hsrc => ?_) hfit.1 hfit.2
        obtain rfl := Option.some.inj hsrc
        exact toInt32_le (by omega)
  | append src dst srcStart length =>
    apply hvoid
    unfold stringAppend
    split
    · rename_i s d hs hd
      split
      · exact ⟨w, rfl, hself⟩
      · split_ifs
        · exact ⟨w, rfl, hself⟩
        · exact ⟨w, rfl, hself⟩
        · refine stringCopy_keeps hv ha (fun src hsrc => ?_) hfit.1 (hfit.2 d hd)
          obtain rfl := Option.some.inj hsrc
          exact toInt32_le (by omega)
    · exact ⟨w, rfl, hself⟩
  | appends x content conLength srcStart srcLength =>
    apply hvoid
    unfold stringAppends
    split
    · exact ⟨w, rfl, hself⟩
    · rename_i s hs
      exact stringCopy_keeps hv ha content_len hfit.1 (hfit.2 s hs)
  | appendFormat x counted printed =>
    rcases stringAppendFormatv_spec hv x counted printed with ⟨ret, w', hrun, ho, hrep⟩ | ⟨hd, -⟩
    · refine ⟨ret, w', hrun, ho.valid, ho.handler, fun hf y _ _ _ => ho.kept ?_ y⟩
      exact hf.elim id hrep
    · rw [ha] at hd
      cases hd
  | trimLeft x => exact hvoid (htouch (stringTrimLeft_spec hv x))
  | trimRight x => exact hvoid (htouch (stringTrimRight_spec hv x))
  | trim x => exact hvoid (htouch (stringTrim_spec hv x))
  | substring out x index length =>
    have hout : w.str out = none := by simpa [StringOp.enabled] using hen
    have hself : ∀ ret, ret ≠ -1 → CallKeeps (.substring out x index length) w ret w :=
      fun ret hret => .of_same hv rfl rfl rfl
    have hsub : ∃ ok w', stringSubstring out x index length w = .ok (ok, w') ∧
        CallKeeps (.substring out x index length) w (if ok then 1 else 0) w' := by
      cases hs : w.str x with
      | none => exact ⟨false, w, by simp [stringSubstring, hs], hself _ (by norm_num)⟩
      | some s =>
        by_cases hp : SubstringPasses s index length
        swap
        · exact ⟨false, w, stringSubstring_stopped hs hp, hself _ (by norm_num)⟩
        obtain ⟨h0, hl0, hpass⟩ := id hp
        have hsum := hfit.2.2
        rw [toInt32_eq hsum] at hpass
        have hcast := toUInt64_eq (x := index + length) (by omega) (by
          have := hsum.2
          omega)
        have htop := hsum.2
        rcases stringSubstring_inside hv hs hout hp hfit.1 hfit.2.1 (by omega) (by omega) with
          ⟨ok, w', hrun, hv', ht, hnone⟩ | ⟨hd, -⟩
        · refine ⟨ok, w', hrun, hv', ht.handler, fun hf y t hy _ => ?_⟩
          have hyo : y ≠ out := by
            rintro rfl
            rw [hout] at hy
            cases hy
          exact ht.text hyo
        · rw [ha] at hd
          cases hd
    obtain ⟨ok, w', hrun, hk⟩ := hsub
    exact ⟨_, w', by rw [StringOp.run, hrun]; rfl, hk⟩

theorem stringRuns_valid (h : stringRuns.ReachableWhen (fun w l => l.1.SumsFit w) w) :
    w.Valid ∧ w.handler = .application := by
  induction h with
  | @init w h =>
    refine ⟨⟨?_, ?_, ?_⟩, h.2⟩
    · intro x s b hs
      rw [h.1 x] at hs
      cases hs
    · intro x y s t b hs
      rw [h.1 x] at hs
      cases hs
    · intro x s hs
      rw [h.1 x] at hs
      cases hs
  | @step w w' l _ hok hs ih =>
    obtain ⟨op, grants⟩ := l
    simp only [stringRuns] at hs
    split_ifs at hs with hen
    obtain ⟨ret, w1, hrun, hk⟩ := StringOp.run_keeps (w := w.withGrants grants)
      (ih.1.withGrants grants) ih.2 hen hok
    rw [hrun] at hs
    obtain rfl := Option.some.inj hs
    exact ⟨hk.valid, hk.handler.trans ih.2⟩

theorem twoChars_reachable :
    ∃ w, stringRuns.ReachableWhen (fun w l => l.1.SumsFit w) w ∧ w.text 0 = some [97, 98] := by
  have hout : (stringRuns.execWhen (fun w l => l.1.SumsFit w) noStrings
      [(.init 0, [some (7, List.replicate 51 1)]),
        (.appends 0 (some (.caller fun i => UInt8.ofNat (97 + i))) 2 0 2, [])]).map
      (fun w => w.text 0) = some (some [97, 98]) := by
    decide +kernel
  obtain ⟨w, hrun, htext⟩ := Option.map_eq_some_iff.mp hout
  exact ⟨w, .exec (.init ⟨fun _ => rfl, rfl⟩) hrun, htext⟩

/-- The representation holds after any sequence of calls, the next call returns whatever the
allocator does, and if it fails it leaves every string's length and text as they were. -/
theorem stringX_representation (h : stringRuns.ReachableWhen (fun w l => l.1.SumsFit w) w) :
    w.Valid ∧ ∀ (op : StringOp) (grants : List (Option (ℕ × List UInt8))),
      op.enabled w = true → op.SumsFit w →
      ∃ ret w', op.run (w.withGrants grants) = .ok (ret, w') ∧ w'.Valid ∧
        (Failed ret w w' → ∀ y s, w.str y = some s → (op.inits y = true → s.content = none) →
          Unchanged w w' y) := by
  obtain ⟨hv, ha⟩ := stringRuns_valid h
  refine ⟨hv, fun op grants hen hfit => ?_⟩
  obtain ⟨ret, w', hrun, hk⟩ := StringOp.run_keeps (w := w.withGrants grants)
    (hv.withGrants grants) ha hen hfit
  refine ⟨ret, w', hrun, hk.valid, fun hf y s hs hin => ?_⟩
  exact unchanged_of_text hv hk.valid (hk.kept hf y s hs hin)

/-- A string is made and two characters go in; the next growth is refused. -/
theorem stringX_representation_pair :
    ∃ w : World, w.Valid ∧ w.text 0 = some [97, 98] ∧
      ∃ ret w', StringOp.run (w.withGrants [none]) (.copy 0 (some (.caller fun _ => 99)) 60 0 60 2) =
        .ok (ret, w') ∧ w'.Valid := by
  obtain ⟨w, hreach, htext⟩ := twoChars_reachable
  obtain ⟨hv, hnext⟩ := stringX_representation hreach
  obtain ⟨ret, w', hcall, hv', -⟩ := hnext
    (.copy 0 (some (.caller fun _ => 99)) 60 0 60 2) [none] rfl
    ⟨by decide, by decide⟩
  exact ⟨w, hv, htext, ret, w', hcall, hv'⟩

/-- A refused `string_init` of a string in use empties it. -/
theorem stringInit_empties :
    ∃ (w : World) (ret : ℤ) (w' : World),
      stringRuns.ReachableWhen (fun w l => l.1.SumsFit w) w ∧ (StringOp.init 0).enabled w = true ∧
      (StringOp.init 0).SumsFit w ∧
      (StringOp.init 0).run (w.withGrants [none]) = .ok (ret, w') ∧ Failed ret w w' ∧
      ¬Unchanged w w' 0 := by
  obtain ⟨w, hreach, htext⟩ := twoChars_reachable
  obtain ⟨hv, ha⟩ := stringRuns_valid hreach
  have halloc : memopAllocRaw (initialStringLength + 1) (w.withGrants [none]) =
      (none, w.withGrants []) := rfl
  have hrun : stringInit 0 (w.withGrants [none]) =
      .ok ({ w.withGrants [] with reports :=
        ("Falha ao alocar %zu caracteres para a string.", [initialStringLength + 1]) ::
          w.reports }.setStr 0 StringX.released) := by
    simp only [stringInit, halloc]
    rw [xpbEventTriggerError_application (by exact ha)]
    rfl
  refine ⟨w, 0, _, hreach, rfl, trivial, by rw [StringOp.run, hrun]; rfl,
    Or.inr (List.cons_ne_self _ _), fun hsame => ?_⟩
  cases hs : w.str 0 with
  | none =>
    rw [World.text, hs] at htext
    cases htext
  | some s =>
    obtain ⟨s', -, -, hkept⟩ := hsame s hs
    rw [htext] at hkept
    cases hkept

end Xplatbase.Strings
