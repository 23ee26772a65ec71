import Xplatbase.Strings.ListX
import Xplatbase.Strings.StringEvents

/-! The error branches of buffers, lists and strings. Each raises an error event with a null
context and then gives up; what becomes of the call depends on the handler installed. -/
namespace Xplatbase.Strings
open Xplatbase.Lib

inductive LibCall
  | memopCopy (dst : MemBuffer) (dstOffset : ℕ) (src : MemBuffer) (size offset : ℕ)
  | memopAppend (dst : MemBuffer) (src : Option (List UInt8)) (size offset : ℕ)
  | listInit (x : ℕ) (initialCount : ℤ) (typeSize : ℕ)
  | listCreate (out : ℕ) (initialCount : ℤ) (typeSize : ℕ) (node : Option ListX)
  | listAdd (x item typeSize : ℕ)
  | string (op : StringOp)

/-- The result as an int: 0 is `void`, false, NULL and no byte copied. -/
def LibCall.run (w : World) : LibCall → Run (ℤ × World)
  | .memopCopy dst dstOffset src size offset =>
    (Strings.memopCopy dst dstOffset src size offset w).map fun (n, w) => ((n : ℤ), w)
  | .memopAppend dst src size offset =>
    (Strings.memopAppend dst src size offset w).map fun (n, w) => ((n : ℤ), w)
  | .listInit x initialCount typeSize =>
    (Strings.listInit x initialCount typeSize w).map fun w => (0, w)
  | .listCreate out initialCount typeSize node =>
    (Strings.listCreate out initialCount typeSize node w).map fun (ok, w) => (if ok then 1 else 0, w)
  | .listAdd x item typeSize =>
    (Strings.listAdd x item typeSize w).map fun (ok, w) => (if ok then 1 else 0, w)
  | .string op => op.run w

def LibCall.failureValue : LibCall → ℤ
  | .string (.appendFormat _ _ _) => -1
  | _ => 0

/-- The range checks of the string operations; they give up without an event. -/
def LibCall.OutOfRange (w : World) : LibCall → Prop
  | .string (.copy _ _ contLength srcStart length dstStart) =>
    ¬CopyPasses contLength srcStart length dstStart
  | .string (.copys src _ srcStart length dstStart) =>
    ∃ s, w.str src = some s ∧ ¬CopyPasses (toInt32 s.length) srcStart length dstStart
  | .string (.append src dst srcStart length) =>
    ∃ s d, w.str src = some s ∧ w.str dst = some d ∧
      (length ≤ 0 ∨ srcStart < 0 ∨ s.length < toUInt64 (toInt32 (srcStart + length)) ∨
        ¬CopyPasses (toInt32 s.length) srcStart length (toInt32 d.length))
  | .string (.appends x _ conLength srcStart srcLength) =>
    ∃ s, w.str x = some s ∧ ¬CopyPasses conLength srcStart srcLength (toInt32 s.length)
  | .string (.appendFormat x counted _) =>
    ∃ s, w.str x = some s ∧
      (counted.count < 0 ∨ (s.length + toUInt64 counted.count) % 2 ^ 64 < s.length)
  | .string (.substring _ x index length) =>
    ∃ s, w.str x = some s ∧ ¬SubstringPasses s index length
  | _ => False

/-- The call takes an error branch: a silent one, or one that raises an event, as a handler that
only returns makes visible. -/
def ErrorBranch (call : LibCall) (w : World) : Prop :=
  call.OutOfRange w ∨
    ∃ ret w', call.run (w.withHandler .application) = .ok (ret, w') ∧ w'.reports ≠ w.reports

/-- String `x`, or list `x`, is what the call is there to initialise. -/
def LibCall.initsString (x : ℕ) : LibCall → Bool
  | .string op => op.inits x
  | _ => false

def LibCall.initsList (x : ℕ) : LibCall → Bool
  | .listInit y _ _ | .listCreate y _ _ _ => x = y
  | _ => false

structure SameContents (call : LibCall) (w w' : World) : Prop where
  blocks : w'.blocks.live = w.blocks.live
  items : w'.items.live = w.items.live
  str : ∀ x, call.initsString x = false → w'.str x = w.str x
  list : ∀ x, call.initsList x = false → w'.list x = w.list x

/-- The call returns its failure value and nothing initialised has changed. -/
def FailsCleanly (call : LibCall) (w : World) : Prop :=
  ∃ w', call.run w = .ok (call.failureValue, w') ∧ SameContents call w w'

/-- The error branches that fail cleanly once the handler returns: not the one of `list_create`
where only the vector is refused, and no growth request of 0 bytes over a vector. -/
def LibCall.Clean (w : World) : LibCall → Prop
  | .listCreate _ _ _ node => node = none
  | .listAdd x _ typeSize =>
    ∀ l, w.list x = some l → typeSize = l.typeSize → l.growBytes = 0 → l.items = none
  | _ => True

variable {α : Type} {call : LibCall} {w w' : World} {r : World → Run (ℤ × World)} {x b : ℕ}

theorem Kept.same (h : Kept w w') : SameContents call w w' :=
  ⟨h.blocks, h.items, fun x _ => congrFun h.str x, fun x _ => congrFun h.list x⟩

/-- `list_init` and `list_create` write the struct; no other list and nothing else changes when
the vector is refused. -/
structure KeptButList (x : ℕ) (w w' : World) : Prop where
  blocks : w'.blocks.live = w.blocks.live
  items : w'.items.live = w.items.live
  str : w'.str = w.str
  list : ∀ y, y ≠ x → w'.list y = w.list y

theorem itemsAllocRaw_cases (bytes : ℕ) (w : World) :
    ∃ (r : Option ℕ) (items : Blocks ℕ), (r = none → items.live = w.items.live) ∧
      ∀ h, itemsAllocRaw bytes (w.withHandler h) =
        (r, { w.withHandler h with items := items }) := by
  unfold itemsAllocRaw
  by_cases hb : bytes = 0
  · exact ⟨none, w.items, fun _ => rfl, fun h => if_pos hb⟩
  · refine ⟨(w.items.alloc (bytes / 8)).1, (w.items.alloc (bytes / 8)).2, fun hr => ?_,
      fun h => if_neg hb⟩
    rcases w.items.alloc_spec (bytes / 8) with ⟨-, hlive⟩ | ⟨b, l, hsome, -⟩
    · exact hlive
    · rw [hr] at hsome
      cases hsome

theorem listItems_raises {v : α} (x : ℕ) (l : ListX) (w : World) :
    Raises (fun ret w' => ret = v ∧ KeptButList x w w') w fun w =>
      (listItems x l w).map fun w => (v, w) := by
  obtain ⟨r, items, hkept, hr⟩ := itemsAllocRaw_cases (l.max * 8 % 2 ^ 64) w
  cases r with
  | none =>
    refine Raises.trigger (World.setList { w with items := items } x { l with items := none })
      "Falha ao alocar %zu itens para a lista." [l.max] id
      (fun h => ?_) ⟨rfl, rfl, hkept rfl, rfl, fun y hy => Function.update_of_ne hy _ _⟩
    simp only [listItems, hr]
    rfl
  | some b =>
    refine Raises.quiet fun u w' hu => ?_
    simp only [listItems, hr] at hu
    obtain ⟨-, rfl⟩ := Prod.mk.inj (Except.ok.inj hu)
    rfl

theorem listInit_raises (x : ℕ) (initialCount : ℤ) (typeSize : ℕ) (w : World) :
    Raises (fun ret w' => ret = 0 ∧ KeptButList x w w') w fun w =>
      (listInit x initialCount typeSize w).map fun w => ((0 : ℤ), w) := by
  cases hl : w.list x with
  | none =>
    apply Raises.fault (e := .nullDeref)
    simp only [listInit, show (w.withHandler .application).list x = none from hl]
    rfl
  | some l =>
    have hrun := listItems_raises (v := (0 : ℤ)) x (l.start initialCount typeSize) w
    have hl' : ∀ h, (w.withHandler h).list x = some l := fun _ => hl
    unfold Raises at hrun ⊢
    simpa only [listInit, hl'] using hrun

theorem listCreate_raises (out : ℕ) (initialCount : ℤ) (typeSize : ℕ) (node : Option ListX)
    (w : World) :
    Raises (fun ok w' => (node = none ↔ ok = false) ∧ KeptButList out w w') w
      (listCreate out initialCount typeSize node) := by
  cases node with
  | none =>
    refine Raises.trigger w "Falha ao alocar a lista." [] id
      (fun h => rfl) ⟨⟨fun _ => rfl, fun _ => rfl⟩, rfl, rfl, rfl, fun y _ => rfl⟩
  | some l =>
    have hrun := listItems_raises (v := true) out (l.start initialCount typeSize) w
    rcases hrun with hq | ⟨hd, ok, w', ha, hok, hkept⟩
    · exact Raises.quiet hq
    · refine Or.inr ⟨hd, ok, w', ha, ⟨fun hn => ?_, fun hf => ?_⟩, hkept⟩
      · cases hn
      · rw [hok] at hf
        cases hf

theorem listStore_reports {l : ListX} {item : ℕ} (h : listStore x l item w = .ok w') :
    w'.reports = w.reports := by
  unfold listStore at h
  split at h
  · cases h
  · obtain ⟨items, -, rfl⟩ := map_ok h
    rfl

theorem writeBytes_reports {offset : ℕ} {src : List UInt8}
    (h : writeBytes b offset src w = .ok w') :
    w'.reports = w.reports := by
  unfold writeBytes at h
  split at h
  · cases h
  · dsimp only at h
    split_ifs at h
    rw [← Except.ok.inj h]

/-- The check of the item's size, and growth with its two answers. -/
theorem listAdd_raises (x item typeSize : ℕ) (w : World) :
    Raises (fun ok w' => ok = false ∧ w'.blocks.live = w.blocks.live ∧ w'.str = w.str ∧
        w'.list = w.list ∧
        ((LibCall.listAdd x item typeSize).Clean w ↔ w'.items.live = w.items.live)) w
      (listAdd x item typeSize) := by
  cases hl : w.list x with
  | none =>
    apply Raises.fault (e := .nullDeref)
    simp only [listAdd, show (w.withHandler .application).list x = none from hl]
  | some l =>
    have hl' : ∀ h, (w.withHandler h).list x = some l := fun _ => hl
    by_cases hsize : typeSize = l.typeSize
    · by_cases hroom : toUInt64 (toInt32 (l.count + 1)) < l.max
      · refine Raises.quiet fun v w' hv => ?_
        simp only [listAdd, hl', if_neg (not_not.mpr hsize), if_pos hroom] at hv
        obtain ⟨u, hu, heq⟩ := map_ok hv
        obtain ⟨-, rfl⟩ := Prod.mk.inj heq
        have hrep := listStore_reports hu
        exact hrep
      · cases hr : w.items.realloc l.items (l.growBytes / 8) l.copied with
        | error e =>
          apply Raises.fault (e := e)
          have hr' : (w.withHandler .application).items.realloc l.items (l.growBytes / 8)
            l.copied = .error e := hr
          simp only [listAdd, hl', if_neg (not_not.mpr hsize), if_neg hroom, hr']
        | ok u =>
          obtain ⟨r, items⟩ := u
          have hr' : ∀ h, (w.withHandler h).items.realloc l.items (l.growBytes / 8)
            l.copied = .ok (r, items) := fun _ => hr
          cases r with
          | some b =>
            refine Raises.quiet fun v w' hv => ?_
            simp only [listAdd, hl', if_neg (not_not.mpr hsize), if_neg hroom, hr'] at hv
            obtain ⟨u, hu, heq⟩ := map_ok hv
            obtain ⟨-, rfl⟩ := Prod.mk.inj heq
            have hrep := listStore_reports hu
            exact hrep
          | none =>
            refine Raises.trigger { w with items := items }
              ("Não foi possível realocar novo tamanho dos itens. " ++
                "Informado: %zu | Esperado: %zu")
              [typeSize, l.typeSize] id (fun h => ?_) ⟨rfl, rfl, rfl, rfl, ?_⟩
            · simp only [listAdd, hl', if_neg (not_not.mpr hsize), if_neg hroom, hr']
              rfl
            · show _ ↔ items.live = w.items.live
              rw [Blocks.realloc_refused hr]
              refine ⟨fun hc h0 => hc l hl hsize ?_, fun hc l' hl'' _ h0 => ?_⟩
              · unfold ListX.growBytes at h0 ⊢
                omega
              · rw [hl] at hl''
                rw [← Option.some.inj hl''] at h0 ⊢
                exact hc (by rw [h0])
    · refine Raises.trigger w
        "Item a ser adicionado na lista com tamanho inválido. Informado: %zu | Esperado: %zu"
        [typeSize, l.typeSize] id (fun h => ?_) ⟨rfl, rfl, rfl, rfl, ?_⟩
      · simp only [listAdd, hl', if_pos hsize]
        rfl
      · refine ⟨fun _ => rfl, fun _ l' hl'' hs => ?_⟩
        rw [hl] at hl''
        rw [← Option.some.inj hl''] at hs
        exact absurd hs hsize

theorem memopCopy_raises (dst : MemBuffer) (dstOffset : ℕ) (src : MemBuffer) (size offset : ℕ)
    (w : World) :
    Raises (fun n w' => n = 0 ∧ Kept w w') w (memopCopy dst dstOffset src size offset) := by
  by_cases hgo : dst.ptr = none ∨ src.ptr = none ∨ size = 0
  · apply Raises.done (v := 0)
    unfold memopCopy
    split
    · rename_i d s hd hs
      rw [if_pos]
      rcases hgo with h | h | h
      · rw [hd] at h
        cases h
      · rw [hs] at h
        cases h
      · exact h
    · rfl
  · obtain ⟨hd, hrest⟩ := not_or.mp hgo
    obtain ⟨hs, hsize⟩ := not_or.mp hrest
    obtain ⟨d, hd⟩ := Option.ne_none_iff_exists'.mp hd
    obtain ⟨s, hs⟩ := Option.ne_none_iff_exists'.mp hs
    by_cases hread : src.size < offset ∨ src.size - offset < size
    · refine Raises.trigger w
        ("memop_copy: leitura fora da faixa do src " ++
          "(offset=%llu size=%llu faixa=%llu).")
        [offset, size, src.size] id (fun h => ?_) ⟨rfl, rfl, rfl, rfl, rfl⟩
      simp only [memopCopy, hd, hs, if_neg hsize, if_pos hread]
      rfl
    · by_cases hwrite : dst.size < dstOffset ∨ dst.size - dstOffset < size
      · refine Raises.trigger w
          ("memop_copy: escrita fora da faixa do dst " ++
            "(dst_offset=%llu size=%llu faixa=%llu).")
          [dstOffset, size, dst.size] id (fun h => ?_) ⟨rfl, rfl, rfl, rfl, rfl⟩
        simp only [memopCopy, hd, hs, if_neg hsize, if_neg hread, if_pos hwrite]
        rfl
      · refine Raises.quiet fun v w' hv => ?_
        simp only [memopCopy, hd, hs, if_neg hsize, if_neg hread, if_neg hwrite] at hv
        split at hv
        · cases hv
        · split_ifs at hv
          obtain ⟨u, hu, heq⟩ := map_ok hv
          obtain ⟨-, rfl⟩ := Prod.mk.inj heq
          have hrep := writeBytes_reports hu
          exact hrep

theorem memopAppend_raises (dst : MemBuffer) (src : Option (List UInt8)) (size offset : ℕ)
    (w : World) :
    Raises (fun n w' => n = 0 ∧ Kept w w') w (memopAppend dst src size offset) := by
  cases hd : dst.ptr with
  | none =>
    apply Raises.done (v := 0)
    simp only [memopAppend, hd]
  | some d =>
    cases src with
    | none =>
      apply Raises.done (v := 0)
      simp only [memopAppend, hd]
    | some bytes =>
      by_cases hsize : size = 0
      · apply Raises.done (v := 0)
        simp only [memopAppend, hd, if_pos hsize]
      · by_cases hwrite : dst.size < offset ∨ dst.size - offset < size
        · refine Raises.trigger w
            ("memop_append: escrita fora da faixa do dst " ++
              "(offset=%llu size=%llu faixa=%llu).")
            [offset, size, dst.size] id (fun h => ?_) ⟨rfl, rfl, rfl, rfl, rfl⟩
          simp only [memopAppend, hd, if_neg hsize, if_pos hwrite]
          rfl
        · refine Raises.quiet fun v w' hv => ?_
          simp only [memopAppend, hd, if_neg hsize, if_neg hwrite] at hv
          split_ifs at hv
          obtain ⟨u, hu, heq⟩ := map_ok hv
          obtain ⟨-, rfl⟩ := Prod.mk.inj heq
          have hrep := writeBytes_reports hu
          exact hrep

def LibCall.Ends (call : LibCall) (w : World) (ret : ℤ) (w' : World) : Prop :=
  call.Clean w ↔ ret = call.failureValue ∧ SameContents call w w'

theorem Raises.void {op : StringOp} {r : World → Run (ℤ × World)}
    (hzero : (LibCall.string op).failureValue = 0) (hr : Raises (FailsVoid w) w r) :
    Raises ((LibCall.string op).Ends w) w r := by
  refine hr.imp_of fun ret w' hf => iff_of_true trivial ⟨?_, hf.2.same⟩
  rw [hzero]
  exact hf.1

theorem Raises.init {op : StringOp} (hin : op.inits x = true)
    (hzero : (LibCall.string op).failureValue = 0) :
    Raises ((LibCall.string op).Ends w) w fun w =>
      (stringInit x w).map fun w => ((0 : ℤ), w) := by
  refine (stringInit_raises x w).imp_of fun ret w' hf => iff_of_true trivial
    ⟨?_, hf.2.blocks, hf.2.items, fun y hy => hf.2.str y ?_, fun y _ => congrFun hf.2.list y⟩
  · rw [hzero]
    exact hf.1
  · rintro rfl
    rw [LibCall.initsString, hin] at hy
    cases hy

theorem KeptButList.same (h : KeptButList x w w') (hin : ∀ y, call.initsList y = decide (y = x)) :
    SameContents call w w' := by
  refine ⟨h.blocks, h.items, fun y _ => congrFun h.str y, fun y hy => h.list y ?_⟩
  rw [hin] at hy
  exact of_decide_eq_false hy

theorem StringOp.run_raises (op : StringOp) (w : World) :
    Raises ((LibCall.string op).Ends w) w fun w => op.run w := by
  cases op with
  | init x => exact Raises.init (by simp [StringOp.inits]) rfl
  | create x => exact Raises.init (by simp [StringOp.inits]) rfl
  | release x => exact Raises.silent (fun _ _ => stringRelease_reports) w
  | copy x content contLength srcStart length dstStart =>
    exact Raises.void rfl (stringCopy_raises _ _ _ _ _ _ w)
  | copys src dst srcStart length dstStart =>
    exact Raises.void rfl (stringCopys_raises _ _ _ _ _ w)
  | append src dst srcStart length => exact Raises.void rfl (stringAppend_raises _ _ _ _ w)
  | appends x content conLength srcStart srcLength =>
    exact Raises.void rfl (stringAppends_raises _ _ _ _ _ w)
  | appendFormat x counted printed =>
    exact (stringAppendFormatv_raises x counted printed w).imp_of fun ret w' hf =>
      iff_of_true trivial ⟨hf.1, hf.2.same⟩
  | trimLeft x => exact Raises.silent (fun _ _ => stringTrimLeft_reports) w
  | trimRight x => exact Raises.silent (fun _ _ => stringTrimRight_reports) w
  | trim x => exact Raises.silent (fun _ _ => stringTrim_reports) w
  | substring out x index length =>
    refine (stringSubstring_raises out x index length w).map
      (f := fun ok => if ok then (1 : ℤ) else 0) fun ok w' hf => ?_
    obtain ⟨rfl, hkept⟩ := hf
    exact iff_of_true trivial ⟨rfl, hkept.same⟩

/-- Whatever the call, an event it raises faults under the default handler, and `Clean` says how
it ends under one that returns. -/
theorem LibCall.run_raises (call : LibCall) (w : World) :
    Raises (call.Ends w) w fun w => call.run w := by
  cases call with
  | memopCopy dst dstOffset src size offset =>
    refine (memopCopy_raises dst dstOffset src size offset w).map fun n w' hf =>
      iff_of_true trivial ⟨?_, hf.2.same⟩
    rw [hf.1]
    rfl
  | memopAppend dst src size offset =>
    refine (memopAppend_raises dst src size offset w).map fun n w' hf =>
      iff_of_true trivial ⟨?_, hf.2.same⟩
    rw [hf.1]
    rfl
  | listInit x initialCount typeSize =>
    exact (listInit_raises x initialCount typeSize w).imp_of fun ret w' hf =>
      iff_of_true trivial ⟨hf.1, hf.2.same fun y => rfl⟩
  | listCreate out initialCount typeSize node =>
    refine (listCreate_raises out initialCount typeSize node w).map
      (f := fun ok => if ok then (1 : ℤ) else 0) fun ok w' hf => ?_
    obtain ⟨hnode, hkept⟩ := hf
    have hsame : SameContents (.listCreate out initialCount typeSize node) w w' :=
      hkept.same fun y => rfl
    cases ok with
    | true =>
      refine iff_of_false (fun hn => ?_) fun hv => ?_
      · cases hnode.mp hn
      · cases hv.1
    | false => exact iff_of_true (hnode.mpr rfl) ⟨rfl, hsame⟩
  | listAdd x item typeSize =>
    refine (listAdd_raises x item typeSize w).map (f := fun ok => if ok then (1 : ℤ) else 0)
      fun ok w' hf => ?_
    obtain ⟨rfl, hblocks, hstr, hlist, hclean⟩ := hf
    exact ⟨fun hc => ⟨rfl, hblocks, hclean.mp hc, fun y _ => congrFun hstr y,
      fun y _ => congrFun hlist y⟩, fun hv => hclean.mpr hv.2.items⟩
  | string op => exact op.run_raises w

theorem SameContents.refl (call : LibCall) (w : World) : SameContents call w w :=
  ⟨rfl, rfl, fun _ _ => rfl, fun _ _ => rfl⟩

theorem LibCall.OutOfRange.run (h : call.OutOfRange w) :
    call.run w = .ok (call.failureValue, w) := by
  cases call with
  | string op =>
    cases op with
    | copy x content contLength srcStart length dstStart =>
      show (stringCopy _ _ _ _ _ _ w).map _ = _
      rw [stringCopy_stopped _ h]
      rfl
    | copys src dst srcStart length dstStart =>
      obtain ⟨s, hs, hp⟩ := h
      show (stringCopys _ _ _ _ _ w).map _ = _
      cases hb : s.content with
      | none =>
        simp only [stringCopys, hs, hb]
        rfl
      | some b =>
        simp only [stringCopys, hs, hb, stringCopy_stopped _ hp]
        rfl
    | append src dst srcStart length =>
      obtain ⟨s, d, hs, hd, hp⟩ := h
      show (stringAppend _ _ _ _ w).map _ = _
      rw [stringAppend_stopped hs hd hp]
      rfl
    | appends x content conLength srcStart srcLength =>
      obtain ⟨s, hs, hp⟩ := h
      show (stringAppends _ _ _ _ _ w).map _ = _
      simp only [stringAppends, hs, stringCopy_stopped _ hp]
      rfl
    | appendFormat x counted printed =>
      obtain ⟨s, hs, hp⟩ := h
      exact stringAppendFormatv_stopped printed hs hp
    | substring out x index length =>
      obtain ⟨s, hs, hp⟩ := h
      show (stringSubstring _ _ _ _ w).map _ = _
      rw [stringSubstring_stopped hs hp]
      rfl
    | _ => exact h.elim
  | _ => exact h.elim

/-- An error branch gives up cleanly exactly when it raises no event, or the application's handler
takes the event and the branch is clean itself. -/
theorem errorPaths_return (call : LibCall) (w : World) (h : ErrorBranch call w) :
    FailsCleanly call w ↔
      call.OutOfRange w ∨ w.handler = .application ∧ call.Clean w := by
  by_cases hout : call.OutOfRange w
  · exact iff_of_true ⟨w, hout.run, .refl call w⟩ (Or.inl hout)
  · obtain ⟨ret, w', hrun, hevent⟩ := h.resolve_left hout
    have hloud := (call.run_raises w).resolve_left fun hq => hevent (hq ret w' hrun)
    obtain ⟨hdefault, ret', w'', hrun', hends⟩ := hloud
    have hself : w = w.withHandler w.handler := rfl
    rcases handler_cases w with hw | hw
    · refine iff_of_false ?_ ?_
      · rintro ⟨u, hu, -⟩
        rw [hself, hw] at hu
        cases hu.symm.trans hdefault
      · rintro (hbad | ⟨happ, -⟩)
        · exact hout hbad
        · rw [hw] at happ
          cases happ
    · rw [hw] at hself
      rw [← hself] at hrun'
      constructor
      · rintro ⟨u, hu, hsame⟩
        obtain ⟨rfl, rfl⟩ := Prod.mk.inj (Except.ok.inj (hrun'.symm.trans hu))
        exact Or.inr ⟨hw, hends.mpr ⟨rfl, hsame⟩⟩
      · rintro (hbad | ⟨-, hclean⟩)
        · exact absurd hbad hout
        · obtain ⟨rfl, hsame⟩ := hends.mp hclean
          exact ⟨w'', hrun', hsame⟩

def twoBuffers (handler : ErrorHandler) : World where
  blocks := ⟨fun b => if b < 2 then some (List.replicate 8 0) else none, []⟩
  items := ⟨fun _ => none, []⟩
  str _ := none
  list _ := none
  stale _ _ := 0
  handler := handler
  reports := []

def outsideCopy : LibCall :=
  .memopCopy ⟨some 0, 8⟩ 0 ⟨some 1, 8⟩ 9 0

theorem outsideCopy_branch (handler : ErrorHandler) :
    ErrorBranch outsideCopy (twoBuffers handler) :=
  Or.inr ⟨0, _, rfl, List.cons_ne_nil _ _⟩

/-- With a handler that returns, the copy out of range answers 0 and changes no buffer. -/
theorem errorPaths_return_outside : FailsCleanly outsideCopy (twoBuffers .application) :=
  (errorPaths_return _ _ (outsideCopy_branch .application)).mpr (Or.inr ⟨rfl, trivial⟩)

/-- The library's own handler reads the null context of the same error event. -/
theorem memopCopy_default_fault :
    ErrorBranch outsideCopy (twoBuffers .default) ∧
      outsideCopy.run (twoBuffers .default) = .error .nullDeref ∧
      ¬FailsCleanly outsideCopy (twoBuffers .default) := by
  refine ⟨outsideCopy_branch .default, rfl, ?_⟩
  rintro ⟨w', hrun, -⟩
  cases hrun

end Xplatbase.Strings
