import Xplatbase.Lib.Probe

/-! Model of the table of span sites of `memory_pool.c`: `memop_site_record` and
`memop_site_lookup`, each under `g_site_lock`. -/
namespace Xplatbase.Memory
open Xplatbase.Lib

def memopSiteMaxFrames : ℕ := 6

def memopSiteTableBits : ℕ := 12

def memopSiteTableSize : ℕ := 2 ^ memopSiteTableBits

def memopSiteTableMask : BitVec 32 := BitVec.ofNat 32 memopSiteTableSize - 1

instance : NeZero memopSiteTableSize := ⟨by decide⟩

structure MemSiteEntry where
  /-- 0 in a free slot. -/
  spanBase : BitVec 64
  frames : Fin memopSiteMaxFrames → BitVec 64
  frameCount : ℕ
  createdMs : BitVec 64

/-- `g_site_table`; an index is kept below its size by the mask. -/
abbrev SiteTable := Fin memopSiteTableSize → MemSiteEntry

def emptySiteTable : SiteTable := fun _ => ⟨0, fun _ => 0, 0, 0⟩

/-- The fields of `MemSpanInfo` that `memop_site_lookup` writes. -/
structure SpanSite where
  siteFrames : Fin memopSiteMaxFrames → BitVec 64
  siteFrameCount : ℕ
  createdMs : BitVec 64

/-- A call of `memop_site_record`: `backtrace` is what `CaptureStackBackTrace` writes, nothing where
it is not called. -/
structure SiteRecord where
  spanBase : BitVec 64
  nonnull : spanBase ≠ 0
  backtrace : List (BitVec 64)
  captured : backtrace.length ≤ memopSiteMaxFrames
  nowMs : BitVec 64

def MemSiteEntry.site (e : MemSiteEntry) : SpanSite := ⟨e.frames, e.frameCount, e.createdMs⟩

def memopSiteHash (spanBase : BitVec 64) : Fin memopSiteTableSize :=
  let v := spanBase >>> 16
  let v := (v ^^^ (v >>> 33)) * 0xff51afd7ed558ccd#64
  let v := (v ^^^ (v >>> 33)) * 0xc4ceb9fe1a85ec53#64
  let v := v ^^^ (v >>> 33)
  Fin.ofNat memopSiteTableSize (v.setWidth 32 &&& memopSiteTableMask).toNat

/-- What a record writes to its slot. A capture leaves the frames behind its last as they are. -/
def MemSiteEntry.write (e : MemSiteEntry) (r : SiteRecord) : MemSiteEntry where
  spanBase := r.spanBase
  frames := fun k => r.backtrace.getD k (e.frames k)
  frameCount := r.backtrace.length
  createdMs := r.nowMs

def SiteTable.bases (table : SiteTable) : Fin memopSiteTableSize → BitVec 64 :=
  fun i => (table i).spanBase

/-- The loop of both functions, from the slot that `b` hashes to. -/
def siteProbe (fuel : ℕ) (table : SiteTable) (b : BitVec 64) :
    Option (Option (Fin memopSiteTableSize)) :=
  probe (stopsFor 0 (SiteTable.bases table) b) (memopSiteHash b) fuel (memopSiteHash b)

/-- `none`: the loop has not ended within the fuel. -/
def memopSiteRecord (fuel : ℕ) (enabled : Bool) (table : SiteTable) (r : SiteRecord) :
    Option SiteTable :=
  if !enabled then some table
  else
    (siteProbe fuel table r.spanBase).map fun
      | some i => Function.update table i ((table i).write r)
      -- the table is full
      | none => table

def memopSiteLookup (fuel : ℕ) (table : SiteTable) (b : BitVec 64) : Option SpanSite :=
  (siteProbe fuel table b).map fun
    | some i => if (table i).spanBase = 0 then ⟨fun _ => 0, 0, 0⟩ else (table i).site
    | none => ⟨fun _ => 0, 0, 0⟩

def recordAll (fuel : ℕ) : SiteTable → List SiteRecord → Option SiteTable
  | table, [] => some table
  | table, r :: rs => (memopSiteRecord fuel true table r).bind fun table => recordAll fuel table rs

def Holds (table : SiteTable) (b : BitVec 64) : Prop := ∃ i, (table i).spanBase = b

def EverStored (fuel : ℕ) (records : List SiteRecord) (b : BitVec 64) : Prop :=
  ∃ before after table, records = before ++ after ∧
    recordAll fuel emptySiteTable before = some table ∧ Holds table b

def lastRecord (records : List SiteRecord) (b : BitVec 64) : Option SiteRecord :=
  records.reverse.find? fun r => r.spanBase = b

def SpanSite.Of (out : SpanSite) (r : SiteRecord) : Prop :=
  out.siteFrameCount = r.backtrace.length ∧ out.createdMs = r.nowMs ∧
    ∀ k : Fin memopSiteMaxFrames, ∀ a ∈ r.backtrace[k.val]?, out.siteFrames k = a

def SpanSite.Zero (out : SpanSite) : Prop :=
  out.siteFrameCount = 0 ∧ out.createdMs = 0 ∧ ∀ k, out.siteFrames k = 0

/-- The loop ends for every table, where the probe for `b` leads. -/
theorem siteProbe_eq (table : SiteTable) (b : BitVec 64) {fuel : ℕ} (h : memopSiteTableSize ≤ fuel) :
    siteProbe fuel table b = some (probeSlot 0 memopSiteHash (SiteTable.bases table) b) :=
  probe_eq _ _ h

theorem MemSiteEntry.write_site (e : MemSiteEntry) (r : SiteRecord) : (e.write r).site.Of r := by
  refine ⟨rfl, rfl, ?_⟩
  intro k a ha
  change r.backtrace.getD k.val (e.frames k) = a
  rw [List.getD_eq_getElem?_getD, Option.mem_def.mp ha]
  rfl

theorem lastRecord_append (records : List SiteRecord) (r : SiteRecord) (b : BitVec 64) :
    lastRecord (records ++ [r]) b =
      if r.spanBase = b then some r else lastRecord records b := by
  unfold lastRecord
  rw [List.reverse_append, List.reverse_singleton, List.singleton_append, List.find?_cons]
  by_cases h : r.spanBase = b
  · rw [if_pos h, decide_eq_true h]
  · rw [if_neg h, decide_eq_false h]

theorem recordAll_append (fuel : ℕ) (table : SiteTable) (rs rs' : List SiteRecord) :
    recordAll fuel table (rs ++ rs') =
      (recordAll fuel table rs).bind fun table => recordAll fuel table rs' := by
  induction rs generalizing table with
  | nil => rfl
  | cons r rs ih =>
    rw [List.cons_append, recordAll, recordAll, Option.bind_assoc]
    congr 1
    funext next
    exact ih next

/-- Every base is at the end of its probe, in a slot that holds its last record. -/
structure SiteInv (table : SiteTable) (records : List SiteRecord) : Prop where
  placed : Placed 0 memopSiteHash (SiteTable.bases table)
  content : ∀ i, (table i).spanBase ≠ 0 →
    ∃ r, lastRecord records (table i).spanBase = some r ∧ (table i).site.Of r

theorem siteInv_empty : SiteInv emptySiteTable [] where
  placed := placed_empty
  content := fun _ h => absurd rfl h

section
variable {fuel : ℕ} (hfuel : memopSiteTableSize ≤ fuel) {table : SiteTable}
  {records : List SiteRecord}
include hfuel

theorem SiteInv.record_stored (hi : SiteInv table records) (r : SiteRecord)
    {i : Fin memopSiteTableSize}
    (hslot : probeSlot 0 memopSiteHash (SiteTable.bases table) r.spanBase = some i) :
    memopSiteRecord fuel true table r =
        some (Function.update table i ((table i).write r)) ∧
      SiteInv (Function.update table i ((table i).write r)) (records ++ [r]) := by
  constructor
  · unfold memopSiteRecord
    rw [siteProbe_eq table _ hfuel, hslot]
    rfl
  · have hbases : SiteTable.bases (Function.update table i ((table i).write r)) =
        Function.update (SiteTable.bases table) i r.spanBase := by
      funext j
      unfold SiteTable.bases
      by_cases hj : j = i
      · rw [hj, Function.update_self, Function.update_self]
        rfl
      · rw [Function.update_of_ne hj, Function.update_of_ne hj]
    constructor
    · rw [hbases]
      exact hi.placed.insert r.nonnull hslot
    · intro j hj
      by_cases hji : j = i
      · rw [hji, Function.update_self]
        refine ⟨r, ?_, MemSiteEntry.write_site _ r⟩
        rw [lastRecord_append]
        exact if_pos rfl
      · rw [Function.update_of_ne hji] at hj ⊢
        obtain ⟨r', hr', hof⟩ := hi.content j hj
        refine ⟨r', ?_, hof⟩
        rw [lastRecord_append, if_neg, hr']
        -- another slot with this base would have ended the probe
        intro heq
        rw [hi.placed.probeSlot_eq r.nonnull (i := j) heq.symm] at hslot
        exact hji (Option.some.inj hslot)

theorem SiteInv.record_dropped (hi : SiteInv table records) (r : SiteRecord)
    (hslot : probeSlot 0 memopSiteHash (SiteTable.bases table) r.spanBase = none) :
    memopSiteRecord fuel true table r = some table ∧ SiteInv table (records ++ [r]) := by
  constructor
  · unfold memopSiteRecord
    rw [siteProbe_eq table _ hfuel, hslot]
    rfl
  · constructor
    · exact hi.placed
    · intro j hj
      obtain ⟨r', hr', hof⟩ := hi.content j hj
      refine ⟨r', ?_, hof⟩
      rw [lastRecord_append, if_neg, hr']
      intro heq
      exact (probeSlot_none.mp hslot j).2 heq.symm

/-- One record keeps the invariant and every base stored; it stores its own, unless the table is
full of others. -/
theorem SiteInv.record (hi : SiteInv table records) (r : SiteRecord) :
    ∃ table', memopSiteRecord fuel true table r = some table' ∧
      SiteInv table' (records ++ [r]) ∧ (∀ b, b ≠ 0 → Holds table b → Holds table' b) ∧
      (Holds table' r.spanBase ∨
        ∀ j, (table j).spanBase ≠ 0 ∧ (table j).spanBase ≠ r.spanBase) := by
  cases hslot : probeSlot 0 memopSiteHash (SiteTable.bases table) r.spanBase with
  | none =>
    obtain ⟨hrec, hinv⟩ := hi.record_dropped hfuel r hslot
    exact ⟨table, hrec, hinv, fun _ _ hb => hb, Or.inr (probeSlot_none.mp hslot)⟩
  | some i =>
    obtain ⟨hrec, hinv⟩ := hi.record_stored hfuel r hslot
    have hself : (Function.update table i ((table i).write r) i).spanBase = r.spanBase := by
      rw [Function.update_self]
      rfl
    refine ⟨_, hrec, hinv, ?_, Or.inl ⟨i, hself⟩⟩
    rintro b hb ⟨j, rfl⟩
    by_cases hji : j = i
    · rw [hji] at hb
      have hsame := (probeSlot_some hslot).resolve_left hb
      exact ⟨i, by rw [hself, hji]; exact hsame.symm⟩
    · exact ⟨j, by rw [Function.update_of_ne hji]⟩

theorem SiteInv.recordAll (hi : SiteInv table records) (rs : List SiteRecord) :
    ∃ table', recordAll fuel table rs = some table' ∧ SiteInv table' (records ++ rs) ∧
      ∀ b, b ≠ 0 → Holds table b → Holds table' b := by
  induction rs generalizing table records with
  | nil => exact ⟨table, rfl, by rw [List.append_nil]; exact hi, fun _ _ hb => hb⟩
  | cons r rs ih =>
    obtain ⟨next, hrec, hnext, hkeep, -⟩ := hi.record hfuel r
    obtain ⟨table', hrun, hinv, hkeep'⟩ := ih hnext
    rw [List.append_assoc, List.singleton_append] at hinv
    refine ⟨table', ?_, hinv, fun b hb h => hkeep' b hb (hkeep b hb h)⟩
    rw [Memory.recordAll, hrec]
    exact hrun

/-- A base that is in the table has its last record looked up, any other base nothing. -/
theorem SiteInv.lookup (hi : SiteInv table records) {b : BitVec 64} (hb : b ≠ 0) :
    ∃ out, memopSiteLookup fuel table b = some out ∧
      (Holds table b → ∃ r, lastRecord records b = some r ∧ out.Of r) ∧
      (¬ Holds table b → out.Zero) := by
  unfold memopSiteLookup
  rw [siteProbe_eq table b hfuel]
  cases hslot : probeSlot 0 memopSiteHash (SiteTable.bases table) b with
  | none =>
    refine ⟨⟨fun _ => 0, 0, 0⟩, rfl, ?_, fun _ => ⟨rfl, rfl, fun _ => rfl⟩⟩
    rintro ⟨j, hj⟩
    exact absurd hj (probeSlot_none.mp hslot j).2
  | some i =>
    by_cases hfree : (table i).spanBase = 0
    · refine ⟨⟨fun _ => 0, 0, 0⟩, ?_, ?_, fun _ => ⟨rfl, rfl, fun _ => rfl⟩⟩
      · simp only [Option.map_some, if_pos hfree]
      · rintro ⟨j, hj⟩
        rw [hi.placed.probeSlot_eq hb (i := j) hj] at hslot
        rw [Option.some.inj hslot, hfree] at hj
        exact absurd hj.symm hb
    · have hbase : (table i).spanBase = b := (probeSlot_some hslot).resolve_left hfree
      obtain ⟨r, hr, hof⟩ := hi.content i hfree
      rw [hbase] at hr
      refine ⟨(table i).site, ?_, fun _ => ⟨r, hr, hof⟩, fun hno => absurd ⟨i, hbase⟩ hno⟩
      simp only [Option.map_some, if_neg hfree]

theorem everStored_iff {b : BitVec 64} (hb : b ≠ 0) {final : SiteTable}
    (hrun : Memory.recordAll fuel emptySiteTable records = some final) :
    EverStored fuel records b ↔ Holds final b := by
  constructor
  · rintro ⟨before, after, mid, rfl, hmid, hholds⟩
    obtain ⟨mid', hmid', hinv, -⟩ := siteInv_empty.recordAll hfuel before
    rw [hmid] at hmid'
    obtain ⟨final', hfinal, -, hkeep⟩ := hinv.recordAll hfuel after
    rw [recordAll_append, hmid] at hrun
    rw [← Option.some.inj hmid'] at hfinal hkeep
    change Memory.recordAll fuel mid after = some final at hrun
    rw [hfinal] at hrun
    rw [← Option.some.inj hrun]
    exact hkeep b hb hholds
  · intro h
    exact ⟨records, [], final, (List.append_nil _).symm, hrun, h⟩

end

/-- The site table after any sequence of records: a lookup gives the last record of a base that was
ever stored, and zeros for any other; a base has one slot; a new base is dropped by a full table
only; and the loops end for every table. -/
theorem siteTable_bounded (extra : ℕ) (records : List SiteRecord) :
    let fuel := memopSiteTableSize + extra
    (∃ table, recordAll fuel emptySiteTable records = some table ∧
      (∀ b, b ≠ 0 → ∃ out, memopSiteLookup fuel table b = some out ∧
        (EverStored fuel records b → ∃ r, lastRecord records b = some r ∧ out.Of r) ∧
        (¬ EverStored fuel records b → out.Zero)) ∧
      (∀ i j, (table i).spanBase ≠ 0 → (table i).spanBase = (table j).spanBase → i = j) ∧
      ∀ r, ∃ table', memopSiteRecord fuel true table r = some table' ∧
        (Holds table' r.spanBase ∨
          ∀ j, (table j).spanBase ≠ 0 ∧ (table j).spanBase ≠ r.spanBase)) ∧
    ∀ (table : SiteTable) (r : SiteRecord) (b : BitVec 64),
      memopSiteRecord fuel true table r ≠ none ∧ memopSiteLookup fuel table b ≠ none := by
  have hfuel : memopSiteTableSize ≤ memopSiteTableSize + extra := Nat.le_add_right _ _
  dsimp only
  constructor
  · obtain ⟨table, hrun, hinv, -⟩ := siteInv_empty.recordAll hfuel records
    refine ⟨table, hrun, ?_, fun i j hi heq => hinv.placed.unique hi heq, ?_⟩
    · intro b hb
      rw [everStored_iff hfuel hb hrun]
      exact hinv.lookup hfuel hb
    · intro r
      obtain ⟨table', hrec, -, -, hstored⟩ := hinv.record hfuel r
      exact ⟨table', hrec, hstored⟩
  · intro table r b
    unfold memopSiteRecord memopSiteLookup
    rw [siteProbe_eq table _ hfuel, siteProbe_eq table _ hfuel]
    exact ⟨by simp, by simp⟩

end Xplatbase.Memory
