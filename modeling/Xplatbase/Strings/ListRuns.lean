import Xplatbase.Lib.System
import Xplatbase.Strings.ListX

/-! Runs of `list_add`, `list_remove` and `list_remove_index` on one list, whatever the allocator
answers: what the vector holds, when a call appends, and when a removal removes. -/
namespace Xplatbase.Strings
open Xplatbase.Lib

def World.withItemGrants (w : World) (grants : List (Option (ℕ × List ℕ))) : World :=
  { w with items := { w.items with grants := grants } }

inductive ListOp
  | add (item : ℕ)
  | remove (obj : ℕ)
  | removeIndex (index : { i : ℤ // IsInt32 i })

def ListOp.run (x typeSize : ℕ) (op : ListOp) (w : World) : Run World :=
  match op with
  | .add item => (listAdd x item typeSize w).map Prod.snd
  | .remove obj => listRemove x obj w
  | .removeIndex index => listRemoveIndex x index w

def listRuns (x typeSize : ℕ) (made : World) :
    System World (ListOp × List (Option (ℕ × List ℕ))) where
  init := fun w => w = made
  step := fun w (op, grants) =>
    match op.run x typeSize (w.withItemGrants grants) with
    | .ok w' => some w'
    | .error _ => none

/-- `made` is `w` with list `x` just made by one of the constructors. -/
def ListMade (x : ℕ) (initialCount : ℤ) (typeSize : ℕ) (w made : World) : Prop :=
  listInit x initialCount typeSize w = .ok made ∨
    ∃ node, listCreate x initialCount typeSize (some node) w = .ok (true, made)

/-- The items of list `x`, when the vector has `Count` of them. -/
def World.listed (w : World) (x : ℕ) : Option (List ℕ) :=
  (w.list x).bind fun l =>
    match l.items with
    | none => if l.count = 0 then some [] else none
    | some b =>
      (w.items.live b).bind fun v => if l.count ≤ v.length then some (v.take l.count) else none

variable {w w' : World} {x : ℕ} {l : ListX} {entries : List ℕ}

/-- List `x` has no vector and no items, or its vector has its items in front. From 2^31 items on
`sz` is negative and every `list_add` doubles `Max`. -/
structure World.HoldsList (w : World) (x : ℕ) (l : ListX) (entries : List ℕ) : Prop where
  list : w.list x = some l
  count : l.count = entries.length
  vector : (l.items = none ∧ entries = [] ∧ l.max < 2 ^ 31) ∨
    ∃ b v, l.items = some b ∧ w.items.live b = some v ∧ v.take l.count = entries ∧
      l.count < l.max ∧ l.max ≤ v.length ∧ v.length ≤ maxBlock ∧
      (2 ^ 31 ≤ l.count → 2 ^ (l.count - 2 ^ 31) ≤ l.max)

theorem World.HoldsList.listed (h : w.HoldsList x l entries) : w.listed x = some entries := by
  unfold World.listed
  rw [h.list, Option.bind_some]
  rcases h.vector with ⟨hnone, hempty, -⟩ | ⟨b, v, hb, hlive, htake, hlt, hmax, -⟩
  · have hzero : l.count = 0 := by rw [h.count, hempty, List.length_nil]
    rw [hnone, hempty]
    dsimp only
    rw [if_pos hzero]
  · rw [hb]
    dsimp only
    rw [hlive, Option.bind_some, if_pos (by omega), htake]

theorem World.HoldsList.of_same (h : w.HoldsList x l entries) (hlist : w'.list = w.list)
    (hlive : w'.items.live = w.items.live) : w'.HoldsList x l entries := by
  obtain ⟨hl, hcount, hvec⟩ := h
  refine ⟨by rw [hlist, hl], hcount, ?_⟩
  rw [hlive]
  exact hvec

theorem World.HoldsList.withItemGrants (h : w.HoldsList x l entries)
    (grants : List (Option (ℕ × List ℕ))) : (w.withItemGrants grants).HoldsList x l entries :=
  h.of_same rfl rfl

/-- Fewer than 47 doublings fit between 2^31 items and the largest vector. -/
theorem World.HoldsList.count_le (h : w.HoldsList x l entries) : l.count ≤ 2 ^ 31 + 47 := by
  rcases h.vector with ⟨-, hempty, -⟩ | ⟨b, v, -, -, -, -, hmax, hblock, hgrow⟩
  · rw [h.count, hempty]
    exact Nat.zero_le _
  · by_contra hlarge
    have hpow : 2 ^ 48 ≤ 2 ^ (l.count - 2 ^ 31) := Nat.pow_le_pow_right (by decide) (by omega)
    have hle := hgrow (by omega)
    have hbound : maxBlock < 2 ^ 48 := by decide
    omega

theorem World.HoldsList.max_le (h : w.HoldsList x l entries) : l.max ≤ maxBlock := by
  have hbound : 2 ^ 31 ≤ maxBlock := by decide
  rcases h.vector with ⟨-, -, hmax⟩ | ⟨b, v, -, -, -, -, hmax, hblock, -⟩ <;> omega

theorem World.HoldsList.items_of_zero (h : w.HoldsList x l entries) (hzero : l.max = 0) :
    l.items = none := by
  rcases h.vector with ⟨hnone, -⟩ | ⟨b, v, -, -, -, hlt, -⟩
  · exact hnone
  · omega

theorem World.HoldsList.count_lt (h : w.HoldsList x l entries) (hpos : 0 < l.max) :
    l.count < l.max := by
  rcases h.vector with ⟨-, hempty, -⟩ | ⟨b, v, -, -, -, hlt, -⟩
  · rw [h.count, hempty]
    exact hpos
  · exact hlt

theorem World.HoldsList.grow (h : w.HoldsList x l entries) (hpos : 0 < l.max)
    (hlarge : 2 ^ 31 ≤ l.count + 1) : 2 ^ (l.count + 1 - 2 ^ 31) ≤ l.max * 2 := by
  by_cases hnext : 2 ^ 31 ≤ l.count
  · rcases h.vector with ⟨-, hempty, -⟩ | ⟨b, v, -, -, -, -, -, -, hgrow⟩
    · rw [h.count, hempty] at hnext
      exact absurd hnext (by decide)
    · rw [Nat.sub_add_comm hnext, Nat.pow_succ]
      exact Nat.mul_le_mul_right 2 (hgrow hnext)
  · have hzero : l.count + 1 - 2 ^ 31 = 0 := by omega
    rw [hzero, Nat.pow_zero]
    omega

/-- `sz >= list->Max` -/
def ListX.Full (l : ListX) : Prop :=
  l.max ≤ toUInt64 (toInt32 (l.count + 1))

/-- The list can take every further item: it has a vector, or gets one when it first grows. -/
def ListX.Ready (l : ListX) : Prop :=
  0 < l.max ∧ (l.items ≠ none ∨ l.max = 1)

/-- The call asks for a vector of more than zero bytes and is refused. -/
def GrowthRefused (l : ListX) (w : World) : Prop :=
  l.Full ∧ 0 < l.growBytes ∧ w.items.granted l.items (l.growBytes / 8) = none

theorem full_of_large {l : ListX} (hcount : l.count ≤ 2 ^ 31 + 47) (hlarge : 2 ^ 31 ≤ l.count + 1)
    (hmax : l.max ≤ maxBlock) : l.Full := by
  have hblock : maxBlock < 2 ^ 48 := by decide
  unfold ListX.Full
  rw [toInt32_wrapped (x := (l.count : ℤ) + 1) (by omega) (by omega)]
  unfold toUInt64
  omega

theorem full_iff_of_small {l : ListX} (hsmall : l.count + 1 < 2 ^ 31) :
    l.Full ↔ l.max ≤ l.count + 1 := by
  unfold ListX.Full
  rw [toInt32_succ hsmall]
  unfold toUInt64
  omega

theorem World.HoldsList.ready_of_full (h : w.HoldsList x l entries) (hpos : 0 < l.max)
    (hfull : l.Full) : l.Ready := by
  refine ⟨hpos, ?_⟩
  rcases h.vector with ⟨-, hempty, -⟩ | ⟨b, v, hb, -⟩
  · have hzero : l.count = 0 := by rw [h.count, hempty, List.length_nil]
    rw [full_iff_of_small (by omega)] at hfull
    exact Or.inr (by omega)
  · left
    rw [hb]
    exact Option.some_ne_none b

theorem growBytes_eq {l : ListX} (hmax : l.max ≤ maxBlock) :
    l.growBytes = l.max * 2 * 8 ∧ l.max * 2 % 2 ^ 64 = l.max * 2 := by
  have hblock : maxBlock < 2 ^ 48 := by decide
  unfold ListX.growBytes
  omega

/-- `memop_realloc_raw` copies the whole vector: its size fits the 32 bits of `stride`. -/
def ListX.CopiedWhole (l : ListX) : Prop :=
  l.max * 8 ≤ 2 ^ 32 - 64

instance (l : ListX) : Decidable l.CopiedWhole := inferInstanceAs (Decidable (_ ≤ _))

theorem ListX.CopiedWhole.le_copied {l : ListX} (h : l.CopiedWhole) : l.max ≤ l.copied := by
  have hword : (BitVec.ofNat 64 (l.max * 8)).toNat = l.max * 8 := by
    unfold ListX.CopiedWhole at h
    rw [BitVec.toNat_ofNat]
    omega
  unfold ListX.CopiedWhole at h
  unfold ListX.copied usablePointers
  cases hc : Memory.memopClassIndex (.ofNat 64 (l.max * 8)) with
  | some c =>
    have hfits := (Memory.Heap.memopClassIndex_fits hc).2
    dsimp only
    omega
  | none =>
    have htotal := Memory.Heap.largeTotal_toNat (.ofNat 64 (l.max * 8))
    have hheader : 64 ≤ (Memory.Heap.largeTotal (.ofNat 64 (l.max * 8))).toNat := by omega
    have hsize := Memory.Heap.largeSize_toNat hheader
    rw [BitVec.toNat_setWidth_of_le (by decide)] at hsize
    dsimp only
    omega

/-- A vector of more than a chunk is a mapping of its own, with zeros in it. -/
def World.MappedZeroed (w : World) : Prop :=
  ∀ b v, some (b, v) ∈ w.items.grants → Memory.memopSpanSize < v.length * 8 → ∀ a ∈ v, a = 0

/-- A vector that is not copied whole has pointers at `Count` and before that are not copied. -/
theorem ListX.copied_lt {l : ListX} (hmax : l.max ≤ maxBlock)
    (hcount : l.count ≤ 2 ^ 31 + 47) (hfull : l.Full) (hwhole : ¬l.CopiedWhole) :
    l.copied < l.count := by
  have hblock : maxBlock < 2 ^ 48 := by decide
  have hword : (BitVec.ofNat 64 (l.max * 8)).toNat = l.max * 8 := by
    rw [BitVec.toNat_ofNat]
    omega
  unfold ListX.CopiedWhole at hwhole
  have hbig : 16384 < (BitVec.ofNat 64 (l.max * 8)).toNat := by omega
  have hlarge := Memory.Heap.memopClassIndex_none hbig
  have htotal := Memory.Heap.largeTotal_toNat (.ofNat 64 (l.max * 8))
  have hheader : 64 ≤ (Memory.Heap.largeTotal (.ofNat 64 (l.max * 8))).toNat := by omega
  have hsize := Memory.Heap.largeSize_toNat hheader
  rw [BitVec.toNat_setWidth_of_le (by decide)] at hsize
  have hleast : 2 ^ 31 ≤ l.count + 1 ∨ l.max ≤ l.count + 1 := by
    by_cases hsmall : l.count + 1 < 2 ^ 31
    · exact Or.inr ((full_iff_of_small hsmall).mp hfull)
    · exact Or.inl (Nat.le_of_not_lt hsmall)
  unfold ListX.copied usablePointers
  rw [hlarge]
  dsimp only
  omega

/-- Only lists and their vectors changed, and no event was raised. -/
structure ListsOnly (w w' : World) : Prop where
  str : w'.str = w.str
  blocks : w'.blocks = w.blocks
  handler : w'.handler = w.handler
  reports : w'.reports = w.reports
  grants : w'.items.grants ⊆ w.items.grants

theorem ListsOnly.mappedZeroed (h : ListsOnly w w') (hzero : w.MappedZeroed) :
    w'.MappedZeroed :=
  fun b v hmem => hzero b v (h.grants hmem)

/-- The store at `Count`, inside the capacity. -/
theorem listStore_spec {l : ListX} {b : ℕ} {v : List ℕ} (item : ℕ) (hitems : l.items = some b)
    (hlive : w.items.live b = some v) (hcount : l.count = entries.length)
    (htake : v.take l.count = entries) (hroom : l.count + 1 < l.max) (hmax : l.max ≤ v.length)
    (hblock : v.length ≤ maxBlock)
    (hgrow : 2 ^ 31 ≤ l.count + 1 → 2 ^ (l.count + 1 - 2 ^ 31) ≤ l.max) :
    ∃ w', listStore x l item w = .ok w' ∧ ListsOnly w w' ∧
      w'.HoldsList x { l with count := l.count + 1 } (entries ++ [item]) := by
  obtain ⟨active, typeSize, max, count, items⟩ := l
  dsimp only at hitems hcount htake hroom hmax hgrow
  subst hitems
  have hbound : maxBlock < 2 ^ 48 := by decide
  have hlt : count < v.length := by omega
  have hset : w.items.set b count item =
      .ok { w.items with live := Function.update w.items.live b (some (v.set count item)) } := by
    simp only [Blocks.set, hlive, if_pos hlt]
  have hnext : (count + 1) % 2 ^ 64 = count + 1 := by omega
  refine ⟨World.setList
    { w with
      items := { w.items with live := Function.update w.items.live b (some (v.set count item)) } } x
    ⟨active, typeSize, max, count + 1, some b⟩, ?_,
    ⟨rfl, rfl, rfl, rfl, List.Subset.refl _⟩, Function.update_self .., ?_, ?_⟩
  · simp only [listStore, hset, Except.map, hnext]
  · simp only [hcount, List.length_append, List.length_singleton]
  · refine Or.inr ⟨b, v.set count item, rfl, Function.update_self .., ?_, hroom, ?_, ?_, hgrow⟩
    · dsimp only
      rw [List.take_succ_eq_append_getElem (by rw [List.length_set]; exact hlt),
        List.getElem_set_self, List.take_set_of_le le_rfl, htake]
    · rw [List.length_set]
      exact hmax
    · rw [List.length_set]
      exact hblock

/-- Twice the capacity: refused, or a vector that has what was copied in front. -/
theorem World.HoldsList.realloc (h : w.HoldsList x l entries) (hpos : 0 < l.max) :
    ∃ r items, w.items.realloc l.items (l.max * 2) l.copied = .ok (r, items) ∧
      ((r = none ∧ items.live = w.items.live ∧ w.items.granted l.items (l.max * 2) = none) ∨
        ∃ b v, r = some b ∧ items.live b = some v ∧ l.max * 2 ≤ v.length ∧
          v.length ≤ maxBlock ∧ (l.CopiedWhole → v.take l.count = entries) ∧
          (l.Full → ¬l.CopiedWhole → w.MappedZeroed → 0 ∈ v.take l.count)) := by
  rcases h.vector with ⟨hnone, hempty, -⟩ | ⟨b, v, hb, hlive, htake, hcount, hmax, hblock, -⟩
  · have hzero : l.count = 0 := by rw [h.count, hempty, List.length_nil]
    have hrun : w.items.realloc none (l.max * 2) l.copied =
        .ok ((w.items.alloc (l.max * 2)).1, (w.items.alloc (l.max * 2)).2) := by
      simp only [Blocks.realloc, if_neg (Nat.ne_of_gt (Nat.mul_pos hpos Nat.two_pos))]
    rw [hnone]
    refine ⟨_, _, hrun, ?_⟩
    rcases w.items.alloc_spec (l.max * 2) with ⟨hr, hsame⟩ | ⟨c, v, hr, -, hlen, hblock, hlive⟩
    · rw [hr] at hrun
      exact Or.inl ⟨hr, hsame, Blocks.granted_of_realloc (by omega) hrun⟩
    · refine Or.inr ⟨c, v, hr, ?_, hlen, hblock, fun _ => ?_, fun hfull hwhole _ => ?_⟩
      · rw [hlive, Function.update_self]
      · rw [hzero, List.take_zero, hempty]
      · have hbefore := ListX.copied_lt h.max_le h.count_le hfull hwhole
        omega
  · obtain ⟨r, items, hrun, hspec⟩ :=
      Blocks.realloc_spec hlive (n := l.max * 2) (by omega) l.copied
    rw [hb]
    refine ⟨r, items, hrun, ?_⟩
    rcases hspec with ⟨rfl, hsame⟩ | ⟨c, v', rfl, -, hlen, hblock', hkept, hnew⟩
    · exact Or.inl ⟨rfl, hsame, Blocks.granted_of_realloc (by omega) hrun⟩
    · refine Or.inr ⟨c, v', rfl, ?_, hlen, hblock', fun hwhole => ?_, fun hfull hwhole hzero => ?_⟩
      · rw [hnew, Function.update_self]
      · have hcopied := hwhole.le_copied
        rw [← htake]
        apply List.ext_getElem?
        intro i
        by_cases hi : i < l.count
        · rw [List.getElem?_take_of_lt hi, List.getElem?_take_of_lt hi]
          exact hkept i (by omega) (by omega) (by omega)
        · rw [List.getElem?_eq_none (by rw [List.length_take]; omega),
            List.getElem?_eq_none (by rw [List.length_take]; omega)]
      · -- the pointer behind the last one copied
        have hbefore := ListX.copied_lt h.max_le h.count_le hfull hwhole
        obtain ⟨first, bytes, hg, hbytes, hrest⟩ :=
          Blocks.realloc_uncopied hlive (by omega) (by omega) hrun
        rw [hnew, Function.update_self] at hbytes
        obtain rfl := Option.some.inj hbytes
        have hin : l.copied < v'.length := by omega
        have hfirst : l.copied < first.length := by
          have hget := hrest l.copied le_rfl
          rw [List.getElem?_eq_getElem hin] at hget
          exact (List.getElem?_eq_some_iff.mp hget.symm).1
        have hlenFirst := (Blocks.granted_spec hg).2.1
        have hspan : Memory.memopSpanSize < first.length * 8 := by
          unfold ListX.CopiedWhole at hwhole
          unfold Memory.memopSpanSize
          omega
        have hzeroed := hzero c first (Blocks.granted_mem hg) hspan _ (List.getElem_mem hfirst)
        apply List.mem_of_getElem? (i := l.copied)
        rw [List.getElem?_take_of_lt hbefore, hrest l.copied le_rfl,
          List.getElem?_eq_getElem hfirst, hzeroed]

/-- The list after an item was added: the old capacity, or twice as much when it was full. -/
structure ListX.Grown (l l' : ListX) : Prop where
  active : l'.active = l.active
  typeSize : l'.typeSize = l.typeSize
  max : l'.max = l.max ∨ (l.Full ∧ l'.max = l.max * 2)
  ready : l'.Ready
  wasReady : l.Ready

/-- What a call of `list_add` with the type size of the list comes to: a store through NULL or the
library's own error handler, an event, or one more item. -/
inductive ListAdds (x item : ℕ) (w : World) (l : ListX) (entries : List ℕ) :
    Run (Bool × World) → Prop
  | faults (happ : w.handler = .application → ¬l.Ready ∧ 0 < l.max) :
      ListAdds x item w l entries (.error .nullDeref)
  | refused {w' : World} (hreport : Reported w w')
      (hwhy : l.max = 0 ∨ (l.Ready ∧ GrowthRefused l w)) :
      ListAdds x item w l entries (.ok (false, w'))
  | adds {w' : World} {l' : ListX} {before : List ℕ} (honly : ListsOnly w w')
      (hholds : w'.HoldsList x l' (before ++ [item])) (hlen : before.length = entries.length)
      (hkept : (l.Full → l.CopiedWhole) → before = entries)
      (hlost : l.Full → ¬l.CopiedWhole → w.MappedZeroed → 0 ∈ before) (hgrown : l.Grown l') :
      ListAdds x item w l entries (.ok (true, w'))

theorem ListAdds.report {items : Blocks ℕ} (hsame : items.live = w.items.live)
    (hwhy : l.max = 0 ∨ (l.Ready ∧ GrowthRefused l w)) (item : ℕ) (fmt : String)
    (args : List ℕ) :
    ListAdds x item w l entries
      ((xpbEventTriggerError none fmt args { w with items := items }).map
        fun w => (false, w)) := by
  rcases handler_cases w with hdefault | happ
  · rw [xpbEventTriggerError_default (by exact hdefault)]
    refine .faults fun happ => ?_
    rw [hdefault] at happ
    cases happ
  · rw [xpbEventTriggerError_application (by exact happ)]
    exact .refused ⟨rfl, rfl, hsame, rfl, rfl, Nat.lt_succ_self _⟩ hwhy

/-- There is room for the item, unless the vector was never granted. -/
theorem World.HoldsList.add_room (h : w.HoldsList x l entries) (hroom : ¬l.Full) (item : ℕ) :
    ListAdds x item w l entries ((listStore x l item w).map fun w => (true, w)) := by
  have hcount := h.count_le
  have hbound : maxBlock < 2 ^ 48 := by decide
  rcases h.vector with ⟨hnone, hempty, hmax⟩ | ⟨b, v, hb, hlive, htake, hlt, hmax, hblock, -⟩
  · have hzero : l.count = 0 := by rw [h.count, hempty, List.length_nil]
    rw [full_iff_of_small (by omega)] at hroom
    simp only [listStore, hnone, Except.map]
    refine .faults fun _ => ⟨?_, by omega⟩
    rintro ⟨-, hsome | hone⟩
    · exact hsome hnone
    · omega
  · have hsmall : l.count + 1 < 2 ^ 31 := by
      by_contra hlarge
      exact hroom (full_of_large hcount (by omega) (by omega))
    have hspace : ¬l.max ≤ l.count + 1 := fun hle => hroom ((full_iff_of_small hsmall).mpr hle)
    obtain ⟨w', hrun, honly, hheld⟩ := listStore_spec (x := x) item hb hlive h.count htake
      (by omega) hmax hblock (by omega)
    have hready : l.Ready := by
      refine ⟨by omega, Or.inl ?_⟩
      rw [hb]
      exact Option.some_ne_none b
    rw [hrun]
    exact .adds honly hheld rfl (fun _ => rfl) (fun hfull => absurd hfull hroom)
      ⟨rfl, rfl, Or.inl rfl, hready, hready⟩

/-- A full list asks for a vector of twice the capacity. -/
theorem World.HoldsList.add_full (h : w.HoldsList x l entries) (hfull : l.Full)
    (hpos : 0 < l.max) {items : Blocks ℕ} {b : ℕ} {v : List ℕ} (hlive : items.live b = some v)
    (hmax : l.max * 2 ≤ v.length) (hblock : v.length ≤ maxBlock)
    (hgrants : items.grants ⊆ w.items.grants)
    (htake : l.CopiedWhole → v.take l.count = entries)
    (hlost : l.Full → ¬l.CopiedWhole → w.MappedZeroed → 0 ∈ v.take l.count) (item : ℕ) :
    ListAdds x item w l entries
      ((listStore x { l with items := some b, max := l.max * 2 } item
        (World.setList { w with items := items } x
          { l with items := some b, max := l.max * 2 })).map fun w => (true, w)) := by
  have hroom := h.count_lt hpos
  have hlen : (v.take l.count).length = l.count := by
    rw [List.length_take]
    omega
  have hcount : { l with items := some b, max := l.max * 2 }.count = (v.take l.count).length :=
    hlen.symm
  obtain ⟨w', hrun, honly, hheld⟩ := listStore_spec (x := x) item
    (w := World.setList { w with items := items } x { l with items := some b, max := l.max * 2 })
    (l := { l with items := some b, max := l.max * 2 }) rfl hlive hcount rfl
    (by dsimp only; omega) hmax hblock (h.grow hpos)
  rw [hrun]
  have honly : ListsOnly w w' :=
    ⟨honly.str, honly.blocks, honly.handler, honly.reports,
      List.Subset.trans honly.grants hgrants⟩
  refine .adds honly hheld (hlen.trans h.count) (fun hwhole => htake (hwhole hfull)) hlost
    ⟨rfl, rfl, Or.inr ⟨hfull, rfl⟩, ?_, h.ready_of_full hpos hfull⟩
  exact ⟨Nat.mul_pos hpos Nat.two_pos, Or.inl (Option.some_ne_none b)⟩

theorem listAdd_spec (h : w.HoldsList x l entries) (item : ℕ) :
    ListAdds x item w l entries (listAdd x item l.typeSize w) := by
  unfold listAdd
  rw [h.list]
  dsimp only
  rw [if_neg (fun hne => hne rfl)]
  by_cases hfull : l.Full
  · rw [if_neg (Nat.not_lt.mpr hfull)]
    rcases Nat.eq_zero_or_pos l.max with hzero | hpos
    · have hnone := h.items_of_zero hzero
      have hbytes : l.growBytes / 8 = 0 := by
        unfold ListX.growBytes
        simp only [hzero, Nat.zero_mul, Nat.zero_mod, Nat.zero_div]
      have hrun : w.items.realloc l.items (l.growBytes / 8) l.copied = .ok (none, w.items) := by
        rw [hnone, hbytes]
        rfl
      rw [hrun]
      exact .report rfl (Or.inl hzero) item _ _
    · have hbound : maxBlock < 2 ^ 48 := by decide
      obtain ⟨hbytes, hdouble⟩ := growBytes_eq h.max_le
      have hwords : l.growBytes / 8 = l.max * 2 := by omega
      obtain ⟨r, items, hrun, hspec⟩ := h.realloc hpos
      rw [hwords, hrun]
      rcases hspec with ⟨rfl, hsame, hrefused⟩ | ⟨b, v, rfl, hlive, hmax, hblock, htake, hlost⟩
      · refine .report hsame (Or.inr ⟨h.ready_of_full hpos hfull, hfull, by omega, ?_⟩) item _ _
        rw [hwords]
        exact hrefused
      · dsimp only
        rw [hdouble]
        exact h.add_full hfull hpos hlive hmax hblock (Blocks.realloc_grants hrun) htake hlost item
  · rw [if_pos (Nat.not_le.mp hfull)]
    exact h.add_room hfull item

/-- A copy of the next item over this one loses this one. -/
theorem eraseIdx_set_succ {v : List ℕ} {i a : ℕ} (h : v[i + 1]? = some a) :
    (v.set i a).eraseIdx (i + 1) = v.eraseIdx i := by
  induction v generalizing i with
  | nil => cases h
  | cons c v ih =>
    cases i with
    | zero =>
      cases v with
      | nil => cases h
      | cons d v =>
        obtain rfl : d = a := Option.some.inj h
        rfl
    | succ i =>
      rw [List.set_cons_succ, List.eraseIdx_cons_succ, List.eraseIdx_cons_succ]
      rw [ih (by simpa only [List.getElem?_cons_succ] using h)]

section removal
variable {b n : ℕ} {v : List ℕ} (hitems : l.items = some b) (hn : l.count = n + 1)
include hitems

theorem load_eq (hlive : w.items.live b = some v) {i a : ℕ} (ha : v[i]? = some a) :
    l.load i w = .ok a := by
  unfold ListX.load
  rw [hitems]
  dsimp only
  rw [hlive]
  dsimp only
  rw [if_neg (by omega), Int.toNat_natCast, ha]

theorem store_eq (hlive : w.items.live b = some v) {i : ℕ} (hi : i < v.length) (a : ℕ) :
    l.store i a w = .ok { w with items := { w.items with
      live := Function.update w.items.live b (some (v.set i a)) } } := by
  unfold ListX.store
  rw [hitems]
  dsimp only
  rw [if_neg (by omega), Int.toNat_natCast, Blocks.set, hlive]
  dsimp only
  rw [if_pos hi]
  rfl

include hn

theorem shiftLoop_pass (hlive : w.items.live b = some v) (hlen : l.count ≤ v.length)
    {i : ℕ} (hi : i < n) (hint : i + 1 < 2 ^ 31) (hbound : n < 2 ^ 64) (fuel : ℕ) :
    ∃ a, v[i + 1]? = some a ∧
      shiftLoop l (fuel + 1) i w = shiftLoop l fuel (i + 1 : ℕ)
        { w with items := { w.items with
          live := Function.update w.items.live b (some (v.set i a)) } } := by
  have hnext : i + 1 < v.length := by omega
  have hbefore : l.countBefore = n := by
    unfold ListX.countBefore
    omega
  refine ⟨v[i + 1], List.getElem?_eq_getElem hnext, ?_⟩
  rw [shiftLoop, toInt32_succ hint, hbefore]
  have hpass : toUInt64 (i : ℤ) < n := by
    unfold toUInt64
    omega
  rw [if_pos hpass, load_eq hitems hlive (List.getElem?_eq_getElem hnext)]
  simp only [bind, Except.bind]
  rw [store_eq hitems hlive (by omega)]

/-- The items behind `i` move up by one. -/
theorem shiftLoop_spec (hlarge : l.count ≤ 2 ^ 31) (fuel : ℕ) {i : ℕ} (hi : i ≤ n)
    (hfuel : n < i + fuel) (hlive : w.items.live b = some v) (hlen : l.count ≤ v.length) :
    ∃ w' v', shiftLoop l fuel i w = .ok w' ∧ w'.handler = w.handler ∧
      w'.items.live b = some v' ∧ v'.length = v.length ∧
      v'.take n = (v.take (n + 1)).eraseIdx i := by
  induction fuel generalizing i w v with
  | zero => omega
  | succ fuel ih =>
    by_cases hlt : i < n
    · obtain ⟨a, ha, hpass⟩ := shiftLoop_pass hitems hn hlive hlen hlt (by omega) (by omega) fuel
      rw [hpass]
      obtain ⟨w', v', hrun, hh, hlive', hlen', htake⟩ := ih (i := i + 1) (v := v.set i a)
        (w := { w with items := { w.items with
          live := Function.update w.items.live b (some (v.set i a)) } }) (by omega) (by omega)
        (Function.update_self ..) (by rw [List.length_set]; exact hlen)
      refine ⟨w', v', hrun, hh, hlive', ?_, ?_⟩
      · rw [hlen', List.length_set]
      · rw [htake, List.take_set]
        apply eraseIdx_set_succ
        rw [List.getElem?_take_of_lt (by omega), ha]
    · obtain rfl : i = n := by omega
      have hstop : ¬toUInt64 (i : ℤ) < l.countBefore := by
        unfold toUInt64 ListX.countBefore
        omega
      refine ⟨w, v, ?_, rfl, hlive, rfl, ?_⟩
      · rw [shiftLoop, if_neg hstop]
      · rw [List.eraseIdx_eq_take_drop_succ, List.take_take, Nat.min_eq_left (Nat.le_succ i),
          List.drop_take, Nat.sub_self, List.take_zero, List.append_nil]

/-- With more than 2^31 items the index wraps and the copy reads in front of the vector. -/
theorem shiftLoop_giant (hlarge : 2 ^ 31 < l.count) (hbound : l.count < 2 ^ 64) (fuel : ℕ) {i : ℕ}
    (hi : i < 2 ^ 31) (hfuel : 2 ^ 31 ≤ i + fuel) (hlive : w.items.live b = some v)
    (hlen : l.count ≤ v.length) : shiftLoop l fuel i w = .error .outOfBounds := by
  induction fuel generalizing i w v with
  | zero => omega
  | succ fuel ih =>
    by_cases hint : i + 1 < 2 ^ 31
    · obtain ⟨a, ha, hpass⟩ := shiftLoop_pass hitems hn hlive hlen (by omega) hint (by omega) fuel
      rw [hpass]
      exact ih hint (by omega) (Function.update_self ..) (by rw [List.length_set]; exact hlen)
    · have hpass : toUInt64 (i : ℤ) < l.countBefore := by
        unfold toUInt64 ListX.countBefore
        omega
      have hneg : toInt32 ((i : ℤ) + 1) < 0 := by
        rw [toInt32_wrapped (x := (i : ℤ) + 1) (by omega) (by omega)]
        omega
      rw [shiftLoop, if_pos hpass, ListX.load, hitems]
      dsimp only
      rw [hlive]
      dsimp only
      rw [if_pos hneg]
      rfl

end removal

/-- The items before the removed one, and those behind it. -/
theorem listDrop_spec (h : w.HoldsList x l entries) (hlarge : l.count ≤ 2 ^ 31) {i : ℕ}
    (hi : i < entries.length) :
    ∃ w', listDrop x l i w = .ok w' ∧ w'.handler = w.handler ∧
      w'.HoldsList x { l with count := l.countBefore } (entries.eraseIdx i) := by
  have hcount := h.count
  rcases h.vector with ⟨-, hempty, -⟩ | ⟨b, v, hb, hlive, htake, hlt, hmax, hblock, -⟩
  · rw [hempty] at hi
    exact absurd hi (Nat.not_lt_zero i)
  · obtain ⟨n, hn⟩ : ∃ n, l.count = n + 1 := ⟨l.count - 1, by omega⟩
    have hbefore : l.countBefore = n := by
      unfold ListX.countBefore
      omega
    obtain ⟨w', v', hrun, hh, hlive', hlen, hshift⟩ := shiftLoop_spec hb hn hlarge (2 ^ 32)
      (i := i) (by omega) (by omega) hlive (by omega)
    have hlisted : v'.take n = entries.eraseIdx i := by rw [hshift, ← hn, htake]
    refine ⟨w'.setList x { l with count := l.countBefore }, ?_, hh, ?_⟩
    · unfold listDrop
      rw [hrun]
      rfl
    · rw [hbefore]
      refine ⟨Function.update_self .., ?_, Or.inr ⟨b, v', hb, hlive', hlisted, ?_, ?_, ?_, ?_⟩⟩
      · dsimp only
        rw [List.length_eraseIdx_of_lt hi]
        omega
      · dsimp only
        omega
      · dsimp only
        omega
      · omega
      · dsimp only
        omega

theorem listDrop_giant (h : w.HoldsList x l entries) (hlarge : 2 ^ 31 < l.count) {i : ℕ}
    (hi : i < 2 ^ 31) : listDrop x l i w = .error .outOfBounds := by
  have hcount := h.count_le
  rcases h.vector with ⟨-, hempty, -⟩ | ⟨b, v, hb, hlive, -, hlt, hmax, -⟩
  · rw [h.count, hempty] at hlarge
    exact absurd hlarge (by decide)
  · obtain ⟨n, hn⟩ : ∃ n, l.count = n + 1 := ⟨l.count - 1, by omega⟩
    unfold listDrop
    rw [shiftLoop_giant hb hn hlarge (by omega) (2 ^ 32) hi (by omega) hlive (by omega)]
    rfl

/-- The search finds the first occurrence among the positions an `int` reaches. -/
theorem removeLoop_eq (h : w.HoldsList x l entries) (obj : ℕ) (fuel ix : ℕ)
    (hix : ix ≤ entries.idxOf obj) (hint : ix < 2 ^ 31) (hfuel : 2 ^ 31 < ix + fuel) :
    removeLoop x l obj w fuel ix =
      if entries.idxOf obj < entries.length ∧ entries.idxOf obj < 2 ^ 31 then
        listDrop x l (entries.idxOf obj) w
      else .ok w := by
  have hle : entries.idxOf obj ≤ entries.length := List.idxOf_le_length
  have hlen := h.count
  have hbound := h.count_le
  induction fuel generalizing ix with
  | zero => omega
  | succ fuel ih =>
    have hcast : toUInt64 (ix : ℤ) = ix := by
      unfold toUInt64
      omega
    rw [removeLoop, hcast]
    by_cases hlt : ix < l.count
    · rw [if_pos hlt]
      rcases h.vector with ⟨-, hempty, -⟩ | ⟨b, v, hb, hlive, htake, -⟩
      · rw [hempty] at hlen
        exact absurd hlt (by rw [hlen]; exact Nat.not_lt_zero ix)
      · have hin : ix < entries.length := by omega
        have hget : v[ix]? = some entries[ix] := by
          rw [← List.getElem?_eq_getElem hin, ← htake, List.getElem?_take_of_lt hlt]
        rw [load_eq hb hlive hget]
        simp only [bind, Except.bind]
        by_cases hobj : entries[ix] = obj
        · have hfirst : entries.idxOf obj = ix := by
            by_contra hne
            have hbefore : ix < entries.findIdx (· == obj) := lt_of_le_of_ne hix (Ne.symm hne)
            have hdiff := List.not_of_lt_findIdx hbefore
            rw [hobj, beq_self_eq_true] at hdiff
            cases hdiff
          rw [if_pos hobj, hfirst, if_pos ⟨hin, hint⟩]
        · rw [if_neg hobj]
          have hne : ix ≠ entries.idxOf obj := by
            intro heq
            apply hobj
            subst heq
            exact List.getElem_idxOf hin
          by_cases hnext : ix + 1 < 2 ^ 31
          · rw [toInt32_succ hnext]
            exact ih (ix + 1) (by omega) hnext (by omega)
          · obtain ⟨fuel, rfl⟩ : ∃ k, fuel = k + 1 := ⟨fuel - 1, by omega⟩
            have hstop : ¬toUInt64 (toInt32 ((ix : ℤ) + 1)) < l.count := by
              rw [toInt32_wrapped (x := (ix : ℤ) + 1) (by omega) (by omega)]
              unfold toUInt64
              omega
            rw [removeLoop, if_neg hstop, if_neg (by omega)]
    · rw [if_neg hlt, if_neg (by omega)]

/-- A removal of item `i` when it is named, from a list that allows it. -/
def removal (x : ℕ) (l : ListX) (named : Prop) [Decidable named] (i : ℕ) (w : World) : Run World :=
  if l.active = true ∧ named ∧ i < 2 ^ 31 then listDrop x l i w else .ok w

/-- `list_remove` removes the first occurrence. -/
theorem listRemove_eq (h : w.HoldsList x l entries) (obj : ℕ) :
    listRemove x obj w = removal x l (obj ∈ entries) (entries.idxOf obj) w := by
  unfold listRemove removal
  rw [h.list]
  dsimp only
  have hsearch := removeLoop_eq h obj (2 ^ 32) 0 (Nat.zero_le _) (by decide) (by decide)
  rw [Nat.cast_zero] at hsearch
  rw [hsearch]
  by_cases hactive : l.active = true
  · simp only [hactive, if_true, true_and, List.idxOf_lt_length_iff]
  · rw [if_neg hactive, if_neg (fun hc => hactive hc.1)]

theorem listRemoveIndex_eq (h : w.HoldsList x l entries) {index : ℤ} (hint : IsInt32 index) :
    listRemoveIndex x index w =
      removal x l (0 ≤ index ∧ index < entries.length) index.toNat w := by
  have hbound := h.count_le
  have hcount := h.count
  obtain ⟨hlow, hhigh⟩ := hint
  unfold listRemoveIndex removal
  rw [h.list]
  dsimp only
  by_cases hneg : index < 0
  · have hstop : ¬toUInt64 index < l.count := by
      unfold toUInt64
      omega
    rw [if_neg (fun hc => hstop hc.2), if_neg (by omega)]
  · have hcast : toUInt64 index = index.toNat := by
      unfold toUInt64
      omega
    rw [hcast, Int.toNat_of_nonneg (by omega)]
    apply ite_cond_congr
    rw [eq_iff_iff]
    apply and_congr_right
    intro hactive
    omega

section removal
variable {named : Prop} [Decidable named] {i : ℕ}

/-- A removal drops one item, or does nothing, or reads outside the vector. -/
theorem removal_holds (h : w.HoldsList x l entries) (hi : named → i < entries.length)
    (hrun : removal x l named i w = .ok w') :
    ∃ l' entries', w'.HoldsList x l' entries' ∧ w'.handler = w.handler ∧
      l'.typeSize = l.typeSize ∧ l'.active = l.active ∧ l'.items = l.items ∧ l'.max = l.max := by
  unfold removal at hrun
  split_ifs at hrun with hc
  · by_cases hlarge : l.count ≤ 2 ^ 31
    · obtain ⟨w'', hdrop, hh, hheld⟩ := listDrop_spec h hlarge (hi hc.2.1)
      obtain rfl := Except.ok.inj (hdrop.symm.trans hrun)
      exact ⟨_, _, hheld, hh, rfl, rfl, rfl, rfl⟩
    · rw [listDrop_giant h (by omega) hc.2.2] at hrun
      cases hrun
  · obtain rfl := Except.ok.inj hrun
    exact ⟨l, entries, h, rfl, rfl, rfl, rfl, rfl⟩

/-- A named item goes, and nothing else, just when the list is active and an `int` reaches every
item. -/
theorem removal_exact (h : w.HoldsList x l entries) (hi : named → i < entries.length)
    {after : List ℕ} (hafter : after = if named then entries.eraseIdx i else entries) :
    (∃ w', removal x l named i w = .ok w' ∧ w'.listed x = some after) ↔
      (named → l.active = true ∧ entries.length ≤ 2 ^ 31) := by
  have hcount := h.count
  unfold removal
  by_cases hnamed : named
  · rw [if_pos hnamed] at hafter
    have hin := hi hnamed
    have hshort : after.length < entries.length := by
      rw [hafter, List.length_eraseIdx_of_lt hin]
      omega
    have hkept : ∀ w', (Except.ok w : Run World) = .ok w' → w'.listed x ≠ some after := by
      intro w' hw hlisted
      obtain rfl := Except.ok.inj hw
      rw [h.listed] at hlisted
      obtain rfl := Option.some.inj hlisted
      exact Nat.lt_irrefl _ hshort
    by_cases hactive : l.active = true
    · by_cases hlarge : l.count ≤ 2 ^ 31
      · obtain ⟨w', hdrop, -, hheld⟩ := listDrop_spec h hlarge hin
        apply iff_of_true
        · rw [if_pos ⟨hactive, hnamed, by omega⟩, hafter]
          exact ⟨w', hdrop, hheld.listed⟩
        · intro
          exact ⟨hactive, by omega⟩
      · apply iff_of_false
        · rintro ⟨w', hrun, hlisted⟩
          split_ifs at hrun with hc
          · rw [listDrop_giant h (by omega) hc.2.2] at hrun
            cases hrun
          · exact hkept w' hrun hlisted
        · intro hfits
          have hlen := (hfits hnamed).2
          omega
    · apply iff_of_false
      · rintro ⟨w', hrun, hlisted⟩
        rw [if_neg (fun hc => hactive hc.1)] at hrun
        exact hkept w' hrun hlisted
      · intro hfits
        exact hactive (hfits hnamed).1
  · rw [if_neg hnamed] at hafter
    apply iff_of_true
    · rw [if_neg (fun hc => hnamed hc.2.1), hafter]
      exact ⟨w, rfl, h.listed⟩
    · intro hn
      exact absurd hn hnamed

end removal

/-- `Max` of a list just made. -/
def listCapacity (initialCount : ℤ) : ℕ :=
  if 0 ≤ initialCount then initialCount.toNat else initialListCount

/-- Either constructor leaves an empty list; it has a vector when the capacity is above zero and
the allocator grants it. -/
theorem listMade_holds {initialCount : ℤ} {typeSize : ℕ} {made : World}
    (hmade : ListMade x initialCount typeSize w made) (hint : IsInt32 initialCount) :
    ∃ l, made.HoldsList x l [] ∧ made.handler = w.handler ∧ l.typeSize = typeSize ∧
      l.max = listCapacity initialCount ∧
      (l.items ≠ none ↔ 0 < listCapacity initialCount ∧
        ∃ g, w.items.granted none (listCapacity initialCount) = some g) := by
  obtain ⟨l0, hrun⟩ : ∃ l0 : ListX, listItems x (l0.start initialCount typeSize) w = .ok made := by
    rcases hmade with hinit | ⟨node, hcreate⟩
    · unfold listInit at hinit
      cases hl : w.list x with
      | none =>
        rw [hl] at hinit
        cases hinit
      | some l0 =>
        rw [hl] at hinit
        exact ⟨l0, hinit⟩
    · simp only [listCreate] at hcreate
      cases hrun : listItems x (node.start initialCount typeSize) w with
      | error e =>
        rw [hrun] at hcreate
        cases hcreate
      | ok w1 =>
        rw [hrun] at hcreate
        obtain rfl : w1 = made := (Prod.mk.inj (Except.ok.inj hcreate)).2
        exact ⟨node, hrun⟩
  have hcap : listCapacity initialCount < 2 ^ 31 := by
    obtain ⟨-, hhigh⟩ := hint
    have hdefault : initialListCount < 2 ^ 31 := by decide
    unfold listCapacity
    split_ifs <;> omega
  have hbytes : (l0.start initialCount typeSize).max * 8 % 2 ^ 64 =
      listCapacity initialCount * 8 := by
    change listCapacity initialCount * 8 % 2 ^ 64 = listCapacity initialCount * 8
    omega
  have hbarren : ∀ w1 : World, w1.handler = w.handler →
      xpbEventTriggerError none "Falha ao alocar %zu itens para a lista."
        [(l0.start initialCount typeSize).max]
        (w1.setList x { l0.start initialCount typeSize with items := none }) = .ok made →
      made.HoldsList x { l0.start initialCount typeSize with items := none } [] ∧
        made.handler = w.handler := by
    intro w1 hsame herror
    rcases handler_cases w1 with hdefault | happ
    · rw [xpbEventTriggerError_default (by exact hdefault)] at herror
      cases herror
    · rw [xpbEventTriggerError_application (by exact happ)] at herror
      obtain rfl := Except.ok.inj herror
      exact ⟨⟨Function.update_self .., rfl, Or.inl ⟨rfl, rfl, hcap⟩⟩, hsame⟩
  unfold listItems at hrun
  rw [hbytes] at hrun
  rcases Nat.eq_zero_or_pos (listCapacity initialCount) with hzero | hpos
  · rw [hzero] at hrun
    unfold itemsAllocRaw at hrun
    rw [Nat.zero_mul, if_pos rfl] at hrun
    dsimp only at hrun
    rw [if_pos rfl] at hrun
    obtain ⟨hheld, hh⟩ := hbarren _ (by rfl) hrun
    refine ⟨_, hheld, hh, rfl, rfl, ?_⟩
    apply iff_of_false
    · intro hsome
      exact hsome rfl
    · omega
  · cases hg : w.items.granted none (listCapacity initialCount) with
    | none =>
      have halloc : itemsAllocRaw (listCapacity initialCount * 8) w =
          (none, { w with items := { w.items with grants := w.items.grants.tail } }) := by
        unfold itemsAllocRaw Blocks.alloc
        rw [if_neg (by omega), Nat.mul_div_cancel _ (by decide), hg]
      rw [halloc] at hrun
      dsimp only at hrun
      rw [if_pos rfl] at hrun
      obtain ⟨hheld, hh⟩ := hbarren _ (by rfl) hrun
      refine ⟨_, hheld, hh, rfl, rfl, ?_⟩
      apply iff_of_false
      · intro hsome
        exact hsome rfl
      · rintro ⟨-, g, hsome⟩
        cases hsome
    | some g =>
      obtain ⟨-, hlen, hblock⟩ := Blocks.granted_spec (b := g.1) hg
      have hstart : (l0.start initialCount typeSize).count < 2 ^ 31 := Nat.two_pow_pos 31
      have halloc : itemsAllocRaw (listCapacity initialCount * 8) w =
          (some g.1, { w with items := {
            live := Function.update w.items.live g.1 (some g.2)
            grants := w.items.grants.tail } }) := by
        unfold itemsAllocRaw Blocks.alloc
        rw [if_neg (by omega), Nat.mul_div_cancel _ (by decide), hg]
      rw [halloc] at hrun
      dsimp only at hrun
      rw [if_neg (Option.some_ne_none g.1)] at hrun
      obtain rfl := Except.ok.inj hrun
      refine ⟨{ l0.start initialCount typeSize with items := some g.1 }, ?_, rfl, rfl, rfl, ?_⟩
      · refine ⟨Function.update_self .., rfl, Or.inr ⟨g.1, g.2, rfl, Function.update_self .., ?_⟩⟩
        exact ⟨rfl, hpos, hlen, hblock, fun hlarge => absurd hlarge (Nat.not_le.mpr hstart)⟩
      · apply iff_of_true
        · exact Option.some_ne_none g.1
        · exact ⟨hpos, g, rfl⟩

/-- What every call keeps of the list that `made` began with. -/
structure ListKept (x typeSize : ℕ) (made : World) (l0 : ListX) (w : World) (l : ListX)
    (entries : List ℕ) : Prop where
  holds : w.HoldsList x l entries
  handler : w.handler = made.handler
  typeSize : l.typeSize = typeSize
  active : l.active = l0.active
  ready : l0.Ready → l.Ready

variable {typeSize : ℕ} {made : World} {l0 : ListX}

theorem ListKept.run (h : ListKept x typeSize made l0 w l entries) (op : ListOp)
    (hrun : op.run x typeSize w = .ok w') :
    ∃ l' entries', ListKept x typeSize made l0 w' l' entries' := by
  have hremoval : ∀ {named : Prop} [Decidable named] {i : ℕ}, (named → i < entries.length) →
      removal x l named i w = .ok w' →
        ∃ l' entries', ListKept x typeSize made l0 w' l' entries' := by
    intro named _ i hi hr
    obtain ⟨l', entries', hheld, hh, htype, hactive, hitems, hmax⟩ := removal_holds h.holds hi hr
    refine ⟨l', entries', hheld, hh.trans h.handler, htype.trans h.typeSize,
      hactive.trans h.active, fun hr => ?_⟩
    unfold ListX.Ready
    rw [hitems, hmax]
    exact h.ready hr
  cases op with
  | add item =>
    have hspec := listAdd_spec h.holds item
    obtain ⟨⟨ret, w1⟩, hadd, hw⟩ := map_ok hrun
    obtain rfl : w1 = w' := hw
    rw [h.typeSize, hadd] at hspec
    cases hspec with
    | refused hreport =>
      exact ⟨l, entries, h.holds.of_same hreport.list hreport.items,
        hreport.handler.trans h.handler, h.typeSize, h.active, h.ready⟩
    | adds honly hholds _ _ _ hgrown =>
      exact ⟨_, _, hholds, honly.handler.trans h.handler, hgrown.typeSize.trans h.typeSize,
        hgrown.active.trans h.active, fun _ => hgrown.ready⟩
  | remove obj =>
    dsimp only [ListOp.run] at hrun
    rw [listRemove_eq h.holds] at hrun
    apply hremoval _ hrun
    exact List.idxOf_lt_length_iff.mpr
  | removeIndex index =>
    dsimp only [ListOp.run] at hrun
    rw [listRemoveIndex_eq h.holds index.2] at hrun
    apply hremoval _ hrun
    omega

theorem ListKept.withItemGrants (h : ListKept x typeSize made l0 w l entries)
    (grants : List (Option (ℕ × List ℕ))) :
    ListKept x typeSize made l0 (w.withItemGrants grants) l entries :=
  { h with holds := h.holds.withItemGrants grants, handler := h.handler }

theorem listRuns_kept (hstart : ListKept x typeSize made l0 made l0 [])
    {ok : World → ListOp × List (Option (ℕ × List ℕ)) → Prop}
    (h : (listRuns x typeSize made).ReachableWhen ok w) :
    ∃ l entries, ListKept x typeSize made l0 w l entries := by
  induction h with
  | init hw =>
    obtain rfl : _ = made := hw
    exact ⟨l0, [], hstart⟩
  | step label _ _ hs ih =>
    obtain ⟨l, entries, hkept⟩ := ih
    obtain ⟨op, grants⟩ := label
    simp only [listRuns] at hs
    split at hs
    · rename_i hrun
      obtain rfl := Option.some.inj hs
      exact (hkept.withItemGrants grants).run op hrun
    · cases hs

/-- `list_add` appended the item, or was refused a larger vector and left the list alone. -/
def Appends (x item : ℕ) (w : World) (ret : Bool) (w' : World) : Prop :=
  ∃ l entries, w.list x = some l ∧ w.listed x = some entries ∧
    ((ret = true ∧ w'.listed x = some (entries ++ [item])) ∨
      (ret = false ∧ w'.list x = some l ∧ w'.listed x = some entries ∧ GrowthRefused l w))

/-- The call does as it should, unless it grows a vector beyond what `stride` holds. -/
theorem ListKept.appends (h : ListKept x typeSize made l0 w l entries)
    (happ : made.handler = .application) (hr : l0.Ready) (hwhole : l.Full → l.CopiedWhole)
    (item : ℕ) :
    ∃ ret w2, listAdd x item typeSize w = .ok (ret, w2) ∧ Appends x item w ret w2 := by
  have hl := h.ready hr
  have hspec := listAdd_spec h.holds item
  rw [h.typeSize] at hspec
  generalize listAdd x item typeSize w = out at hspec ⊢
  cases hspec with
  | faults hfault => exact absurd hl (hfault (h.handler.trans happ)).1
  | @refused w2 hreport hwhy =>
    refine ⟨false, w2, rfl, l, entries, h.holds.list, h.holds.listed, Or.inr ?_⟩
    have hsame := h.holds.of_same hreport.list hreport.items
    refine ⟨rfl, hsame.list, hsame.listed, ?_⟩
    rcases hwhy with hzero | ⟨-, hrefused⟩
    · exact absurd hl.1 (by omega)
    · exact hrefused
  | @adds w2 _ before _ hholds _ hkeeps =>
    obtain rfl := hkeeps hwhole
    refine ⟨true, w2, rfl, l, before, h.holds.list, h.holds.listed, Or.inl ?_⟩
    exact ⟨rfl, hholds.listed⟩

/-- A call that grows such a vector leaves a null pointer among the items. -/
theorem ListKept.loses (h : ListKept x typeSize made l0 w l entries) (hfull : l.Full)
    (hwhole : ¬l.CopiedWhole) (hzero : w.MappedZeroed) (hentries : 0 ∉ entries) {item : ℕ}
    {w2 : World} (hadd : listAdd x item typeSize w = .ok (true, w2)) :
    ¬Appends x item w true w2 := by
  rintro ⟨l', entries', -, hlisted, ⟨-, happended⟩ | ⟨hret, -⟩⟩
  · obtain rfl := Option.some.inj (h.holds.listed.symm.trans hlisted)
    have hspec := listAdd_spec h.holds item
    rw [h.typeSize, hadd] at hspec
    cases hspec with
    | adds _ hholds _ _ hlost =>
      have hsame := Option.some.inj (hholds.listed.symm.trans happended)
      rw [List.append_cancel_right hsame] at hlost
      exact hentries (hlost hfull hwhole hzero)
  · cases hret

/-- Whatever is added, every `list_add` that does not grow a vector beyond what `stride` holds appends
or leaves the list alone just when the list was made with room to double, and its first vector was
granted if it has room before it doubles; one that does grow such a vector loses pointers. -/
theorem listAdd_appends {initialCount : ℤ} {typeSize : ℕ} {made : World}
    (hmade : ListMade x initialCount typeSize w made) (hint : IsInt32 initialCount)
    (happ : w.handler = .application) :
    ((∀ w1, (listRuns x typeSize made).ReachableWhen (fun _ c => ∃ item, c.1 = .add item) w1 →
      (∀ l, w1.list x = some l → l.Full → l.CopiedWhole) →
      ∀ item grants, ∃ ret w2, listAdd x item typeSize (w1.withItemGrants grants) = .ok (ret, w2) ∧
        Appends x item (w1.withItemGrants grants) ret w2) ↔
      initialCount ≠ 0 ∧ (initialCount = 1 ∨
        ∃ g, w.items.granted none (listCapacity initialCount) = some g)) ∧
    ∀ w1, (listRuns x typeSize made).ReachableWhen (fun _ c => ∃ item, c.1 = .add item) w1 →
      ∀ l entries, w1.list x = some l → w1.listed x = some entries → l.Full → ¬l.CopiedWhole →
      0 ∉ entries → ∀ item grants, (w1.withItemGrants grants).MappedZeroed →
      ∀ w2, listAdd x item typeSize (w1.withItemGrants grants) = .ok (true, w2) →
        ¬Appends x item (w1.withItemGrants grants) true w2 := by
  obtain ⟨l0, hheld, hh, htype, hmax, hitems⟩ := listMade_holds hmade hint
  have hstart : ListKept x typeSize made l0 made l0 [] := ⟨hheld, rfl, htype, rfl, id⟩
  have hready : l0.Ready ↔ initialCount ≠ 0 ∧ (initialCount = 1 ∨
      ∃ g, w.items.granted none (listCapacity initialCount) = some g) := by
    unfold ListX.Ready
    rw [hitems, hmax]
    have hpos : 0 < listCapacity initialCount ↔ initialCount ≠ 0 := by
      have hdefault : 0 < initialListCount := by decide
      unfold listCapacity
      split_ifs <;> omega
    have hone : listCapacity initialCount = 1 ↔ initialCount = 1 := by
      have hdefault : 1 < initialListCount := by decide
      unfold listCapacity
      split_ifs <;> omega
    rw [hpos, hone]
    tauto
  rw [← hready]
  refine ⟨⟨fun hall => ?_, fun hr w1 hw1 hwhole item grants => ?_⟩, ?_⟩
  · have hwhole : ∀ l, made.list x = some l → l.Full → l.CopiedWhole := by
      intro l hl hfull
      obtain rfl : l0 = l := Option.some.inj (hheld.list.symm.trans hl)
      have hcount : l0.count = 0 := hheld.count
      rw [full_iff_of_small (by omega)] at hfull
      unfold ListX.CopiedWhole
      omega
    obtain ⟨ret, w2, hadd, l, entries, hl, -, happends⟩ := hall made (.init rfl) hwhole 0 []
    have hbegin := hstart.withItemGrants []
    obtain rfl : l0 = l := Option.some.inj (hbegin.holds.list.symm.trans hl)
    have hspec := listAdd_spec hbegin.holds 0
    rw [htype, hadd] at hspec
    cases hspec with
    | refused hreport hwhy =>
      rcases hwhy with hzero | ⟨hr, -⟩
      · rcases happends with ⟨htrue, -⟩ | ⟨-, -, -, -, hbytes, -⟩
        · cases htrue
        · unfold ListX.growBytes at hbytes
          rw [hzero] at hbytes
          exact absurd hbytes (by decide)
      · exact hr
    | adds _ _ _ _ _ hgrown => exact hgrown.wasReady
  · obtain ⟨l, entries, hkept⟩ := listRuns_kept hstart hw1
    exact (hkept.withItemGrants grants).appends (hh.trans happ) hr (hwhole l hkept.holds.list) item
  · intro w1 hw1 l entries hl hlisted hfull hwhole hentries item grants hzero w2 hadd
    obtain ⟨l', entries', hkept⟩ := listRuns_kept hstart hw1
    obtain rfl := Option.some.inj (hkept.holds.list.symm.trans hl)
    obtain rfl := Option.some.inj (hkept.holds.listed.symm.trans hlisted)
    exact (hkept.withItemGrants grants).loses hfull hwhole hzero hentries hadd

/-- Memory for a list, with a byte of `Active` in it. -/
def listMemory (active : Bool) : ListX :=
  { active := active, typeSize := 0, max := 0, count := 0, items := none }

/-- A list made with an initial count and a vector, and calls of it below 4 GB. -/
theorem listAdd_appends_pair :
    ∃ made, ListMade 0 2 8 { noStrings with items.grants := [some (7, [0, 0])] } made ∧
      ∀ w1, (listRuns 0 8 made).ReachableWhen (fun _ c => ∃ item, c.1 = .add item) w1 →
        (∀ l, w1.list 0 = some l → l.Full → l.CopiedWhole) →
        ∀ item grants, ∃ ret w2, listAdd 0 item 8 (w1.withItemGrants grants) = .ok (ret, w2) ∧
          Appends 0 item (w1.withItemGrants grants) ret w2 := by
  have hmade : ∃ made, ListMade 0 2 8 { noStrings with items.grants := [some (7, [0, 0])] } made :=
    ⟨_, Or.inr ⟨listMemory false, rfl⟩⟩
  obtain ⟨made, hmade⟩ := hmade
  refine ⟨made, hmade, (listAdd_appends hmade (by decide) rfl).1.mpr ⟨by decide, Or.inr ?_⟩⟩
  exact ⟨(7, [0, 0]), rfl⟩

/-- A list made for no item never grows, although the allocator would grant every vector; and one
whose first vector was refused stores its first item through NULL. -/
theorem listAdd_appends_not :
    (∃ made w2, ListMade 0 0 8 noStrings made ∧
      listAdd 0 5 8 (made.withItemGrants [some (7, [0, 0])]) = .ok (false, w2) ∧
      ¬Appends 0 5 (made.withItemGrants [some (7, [0, 0])]) false w2) ∧
      ∃ made, ListMade 0 100 8 noStrings made ∧
        listAdd 0 5 8 (made.withItemGrants [some (7, [0, 0])]) = .error .nullDeref := by
  constructor
  · have hmade : ∃ made, ListMade 0 0 8 noStrings made := ⟨_, Or.inr ⟨listMemory false, rfl⟩⟩
    obtain ⟨made, hmade⟩ := hmade
    obtain ⟨l, hheld, hh, htype, hmax, -⟩ := listMade_holds hmade (by decide)
    have hzero : l.max = 0 := hmax
    have hcall := hheld.withItemGrants [some (7, [0, 0])]
    have hspec := listAdd_spec hcall 5
    rw [htype] at hspec
    generalize hout : listAdd 0 5 8 (made.withItemGrants [some (7, [0, 0])]) = out at hspec
    cases hspec with
    | faults hfault => exact absurd (hfault hh).2 (by omega)
    | @refused w2 =>
      refine ⟨made, w2, hmade, hout, ?_⟩
      rintro ⟨l', entries, hl, -, ⟨hret, -⟩ | ⟨-, -, -, -, hbytes, -⟩⟩
      · cases hret
      · obtain rfl := Option.some.inj (hcall.list.symm.trans hl)
        unfold ListX.growBytes at hbytes
        rw [hzero] at hbytes
        exact absurd hbytes (by decide)
    | adds _ _ _ _ _ hgrown => exact absurd hgrown.wasReady.1 (by omega)
  · have hmade : ∃ made, ListMade 0 100 8 noStrings made := ⟨_, Or.inr ⟨listMemory false, rfl⟩⟩
    obtain ⟨made, hmade⟩ := hmade
    obtain ⟨l, hheld, hh, htype, hmax, hitems⟩ := listMade_holds hmade (by decide)
    have hlarge : l.max = 100 := hmax
    have hnot : ¬l.Ready := by
      rintro ⟨-, hsome | hone⟩
      · obtain ⟨-, g, hg⟩ := hitems.mp hsome
        cases hg
      · omega
    have hspec := listAdd_spec (hheld.withItemGrants [some (7, [0, 0])]) 5
    rw [htype] at hspec
    refine ⟨made, hmade, ?_⟩
    generalize listAdd 0 5 8 (made.withItemGrants [some (7, [0, 0])]) = out at hspec ⊢
    cases hspec with
    | faults => rfl
    | refused _ hwhy =>
      rcases hwhy with hzero | ⟨hr, -⟩
      · omega
      · exact absurd hr hnot
    | adds _ _ _ _ _ hgrown => exact absurd hgrown.wasReady hnot

/-- A list with the items 5, 6 and 5, in memory that held any `Active`. -/
theorem trio_reachable (active : Bool) :
    ∃ made w1, ListMade 0 4 8 { noStrings with items.grants := [some (7, [0, 0, 0, 0])] } made ∧
      (listRuns 0 8 made).Reachable w1 ∧ w1.listed 0 = some [5, 6, 5] ∧
      (made.list 0).map (·.active) = some active ∧ (w1.list 0).map (·.active) = some active := by
  have hout : ((listCreate 0 4 8 (some (listMemory active))
      { noStrings with items.grants := [some (7, [0, 0, 0, 0])] }).toOption.bind fun r =>
        ((listRuns 0 8 r.2).exec r.2 [(.add 5, []), (.add 6, []), (.add 5, [])]).map fun w =>
          (r.1, w.listed 0, (r.2.list 0).map (·.active), (w.list 0).map (·.active))) =
      some (true, some [5, 6, 5], some active, some active) := by
    cases active <;> decide +kernel
  obtain ⟨⟨created, made⟩, hmade, hrest⟩ := Option.bind_eq_some_iff.mp hout
  obtain ⟨w1, hrun, hw⟩ := Option.map_eq_some_iff.mp hrest
  obtain ⟨rfl, hw⟩ := Prod.mk.inj hw
  obtain ⟨hlisted, hw⟩ := Prod.mk.inj hw
  obtain ⟨hmadeActive, hactive⟩ := Prod.mk.inj hw
  refine ⟨made, w1, Or.inr ⟨listMemory active, ?_⟩, .exec (.init rfl) hrun, hlisted, hmadeActive,
    hactive⟩
  cases hcreate : listCreate 0 4 8 (some (listMemory active))
      { noStrings with items.grants := [some (7, [0, 0, 0, 0])] } with
  | error e =>
    rw [hcreate] at hmade
    cases hmade
  | ok r =>
    rw [hcreate] at hmade
    rw [Option.some.inj hmade]

/-- After any run of calls, a removal removes exactly the item it names just when the memory of the
list happened to hold a set `Active` and an `int` reaches every item; a removal that names no item
changes nothing. -/
theorem listRemoval_exact {initialCount : ℤ} {typeSize : ℕ} {made w1 : World}
    (hmade : ListMade x initialCount typeSize w made) (hint : IsInt32 initialCount)
    (h : (listRuns x typeSize made).Reachable w1) :
    ∃ l0 l entries, made.list x = some l0 ∧ w1.list x = some l ∧ l.active = l0.active ∧
      w1.listed x = some entries ∧
      (∀ obj, (∃ w2, listRemove x obj w1 = .ok w2 ∧ w2.listed x = some (entries.erase obj)) ↔
        (obj ∈ entries → l0.active = true ∧ entries.length ≤ 2 ^ 31)) ∧
      ∀ index, IsInt32 index →
        ((∃ w2, listRemoveIndex x index w1 = .ok w2 ∧
          w2.listed x = some (if 0 ≤ index ∧ index < entries.length then
            entries.eraseIdx index.toNat else entries)) ↔
          (0 ≤ index ∧ index < entries.length → l0.active = true ∧ entries.length ≤ 2 ^ 31)) := by
  obtain ⟨l0, hheld, -, htype, -, -⟩ := listMade_holds hmade hint
  obtain ⟨l, entries, hkept⟩ := listRuns_kept ⟨hheld, rfl, htype, rfl, id⟩ h
  refine ⟨l0, l, entries, hheld.list, hkept.holds.list, hkept.active, hkept.holds.listed, ?_, ?_⟩
  · intro obj
    rw [← hkept.active, listRemove_eq hkept.holds]
    apply removal_exact hkept.holds List.idxOf_lt_length_iff.mpr
    split_ifs with hobj
    · exact List.erase_eq_eraseIdx_of_idxOf rfl
    · exact List.erase_of_not_mem hobj
  · intro index hindex
    rw [← hkept.active, listRemoveIndex_eq hkept.holds hindex]
    apply removal_exact hkept.holds _ rfl
    omega

/-- Of 5, 6 and 5 the first 5 goes, or the item at 1. -/
theorem listRemoval_exact_trio :
    ∃ w1, w1.listed 0 = some [5, 6, 5] ∧
      (∃ w2, listRemove 0 5 w1 = .ok w2 ∧ w2.listed 0 = some [6, 5]) ∧
      ∃ w2, listRemoveIndex 0 1 w1 = .ok w2 ∧ w2.listed 0 = some [5, 5] := by
  obtain ⟨made, w1, hmade, hreach, hlisted, hactive, -⟩ := trio_reachable true
  obtain ⟨l0, l, entries, hl0, -, -, hentries, hremove, hindex⟩ :=
    listRemoval_exact hmade (by decide) hreach
  rw [hlisted] at hentries
  obtain rfl := Option.some.inj hentries
  rw [hl0] at hactive
  exact ⟨w1, hlisted, (hremove 5).mpr fun _ => ⟨Option.some.inj hactive, by decide⟩,
    (hindex 1 (by decide)).mpr fun _ => ⟨Option.some.inj hactive, by decide⟩⟩

/-- Where the memory held 0 in `Active`, nothing is ever removed. -/
theorem listRemoval_exact_not :
    ∃ made w1, ListMade 0 4 8 { noStrings with items.grants := [some (7, [0, 0, 0, 0])] } made ∧
      (listRuns 0 8 made).Reachable w1 ∧ w1.listed 0 = some [5, 6, 5] ∧
      listRemove 0 5 w1 = .ok w1 ∧ listRemoveIndex 0 0 w1 = .ok w1 := by
  obtain ⟨made, w1, hmade, hreach, hlisted, -, hactive⟩ := trio_reachable false
  obtain ⟨l, hl, hfalse⟩ := Option.map_eq_some_iff.mp hactive
  refine ⟨made, w1, hmade, hreach, hlisted, ?_, ?_⟩
  · unfold listRemove
    rw [hl]
    dsimp only
    rw [hfalse]
    rfl
  · unfold listRemoveIndex
    rw [hl]
    dsimp only
    rw [hfalse]
    rfl

end Xplatbase.Strings
