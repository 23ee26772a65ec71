import Xplatbase.MemoryPool.PoolFits

/-! The pool is a store of blocks: whatever the threads do, and however their steps fall between each
other, what a caller finds in a block is what was put there. -/
namespace Xplatbase.MemoryPool
open Xplatbase.Lib Xplatbase.Memory

variable {ι : Type*}

/-! ### Bytes of the memory -/

section
variable {mem mem' : ℕ → UInt8} {start n k : ℕ}

@[simp] theorem readBytes_length (mem : ℕ → UInt8) (start n : ℕ) :
    (readBytes mem start n).length = n := by
  simp only [readBytes, List.length_map, List.length_range]

theorem readBytes_get (mem : ℕ → UInt8) (start n : ℕ) {j : ℕ}
    (hj : j < (readBytes mem start n).length) : (readBytes mem start n)[j] = mem (start + j) := by
  simp only [readBytes, List.getElem_map, List.getElem_range]

theorem readBytes_take (mem : ℕ → UInt8) (start : ℕ) (hk : k ≤ n) :
    (readBytes mem start n).take k = readBytes mem start k := by
  unfold readBytes
  rw [← List.map_take, List.take_range, Nat.min_eq_left hk]

theorem readBytes_congr {start' : ℕ} (h : ∀ j < n, mem (start + j) = mem' (start' + j)) :
    readBytes mem start n = readBytes mem' start' n := by
  unfold readBytes
  apply List.map_congr_left
  intro j hj
  exact h j (List.mem_range.mp hj)

theorem readBytes_overwrite {offset : ℕ} {elems : List UInt8}
    (hin : ∀ j (hj : j < elems.length), mem' (start + offset + j) = elems[j])
    (hout : ∀ a, ¬ (start + offset ≤ a ∧ a < start + offset + elems.length) → mem' a = mem a) :
    readBytes mem' start n = overwrite (readBytes mem start n) offset elems := by
  apply List.ext_getElem
  · rw [overwrite_length, readBytes_length, readBytes_length]
  · intro j hj hj'
    have hjn : j < (readBytes mem start n).length := by
      rw [overwrite_length] at hj'
      exact hj'
    rw [readBytes_get, overwrite_get hjn, readBytes_get]
    rw [readBytes_length] at hjn
    split_ifs with hle
    · by_cases hlt : j - offset < elems.length
      · rw [List.getD_eq_getElem _ _ hlt, ← hin _ hlt]
        congr 1
        omega
      · rw [List.getD_eq_default _ _ (Nat.le_of_not_lt hlt)]
        apply hout
        omega
    · apply hout
      omega

theorem memset_of_not_mem (mem : ℕ → UInt8) (dst n : ℕ) (v : UInt8) {a : ℕ}
    (ha : ¬ (dst ≤ a ∧ a < dst + n)) : memset mem dst n v a = mem a :=
  if_neg ha

end

/-- The memory holds the contents `b` of the blocks, and the pool is sound. -/
structure Agrees (s : MemoryState ι) (b : Contents Ptr UInt8) : Prop extends Fitting s where
  rounds : ∀ i, Rounds (s.asked i)
  held : ∀ p, s.pool.Kept p → b p = some (s.content p)
  free : ∀ p, ¬ s.pool.Kept p → b p = none

section
variable {s : MemoryState ι} {t : PoolState ι} {b : Contents Ptr UInt8} {p q : Ptr} {i : ι}
  {l : PoolCall ι} {mem : ℕ → UInt8} {junk : ℕ → UInt8}

theorem PoolOk.disjoint {s : PoolState ι} (h : PoolOk s) {r r' : Option ι} (hp : p ∈ s.holds r)
    (hq : q ∈ s.holds r') (hne : p ≠ q) : Disjoint (s.bytes p) (s.bytes q) := by
  obtain ⟨D, hD⟩ := h.stored
  exact hD.bytes_disjoint (hD.shelved.mem hp) (hD.shelved.mem hq) hne

theorem mem_bytes {s : PoolState ι} {j : ℕ} (hj : j < s.usable p) : s.address p + j ∈ s.bytes p :=
  ⟨Nat.le_add_right .., Nat.add_lt_add_left hj _⟩

theorem PoolOk.outside {s : PoolState ι} (h : PoolOk s) {r r' : Option ι} (hp : p ∈ s.holds r)
    (hq : q ∈ s.holds r') (hne : p ≠ q) {offset n a : ℕ} (hfit : offset + n ≤ s.usable p)
    (ha : a ∈ s.bytes q) : ¬ (s.address p + offset ≤ a ∧ a < s.address p + offset + n) := by
  rintro ⟨hlow, hhigh⟩
  have hin : a ∈ s.bytes p := ⟨by omega, by omega⟩
  exact Set.disjoint_left.mp (h.disjoint hp hq hne) hin ha

/-! ### A caller writes -/

/-- Bytes are written to a block that callers hold, and nowhere else. -/
theorem Agrees.write (h : Agrees s b) (hp : p ∈ s.pool.live) {offset : ℕ}
    {elems : List UInt8} (hfit : offset + elems.length ≤ s.pool.usable p)
    (hin : ∀ j (hj : j < elems.length), mem (s.pool.address p + offset + j) = elems[j])
    (hout : ∀ a, ¬ (s.pool.address p + offset ≤ a ∧
      a < s.pool.address p + offset + elems.length) → mem a = s.mem a) :
    ∃ c, (storeSpec Ptr UInt8).step b (.written p offset elems) c ∧
      Agrees { s with mem := mem } c := by
  have hkept : s.pool.Kept p := .inl hp
  have hlen : (s.content p).length = s.pool.usable p := readBytes_length ..
  have hfitting : Fitting { s with mem := mem } :=
    ⟨h.ok, h.large, h.asks, h.copies, h.clears, h.within⟩
  refine ⟨_, .written (h.held p hkept) (hlen ▸ hfit), hfitting, h.rounds, ?_, ?_⟩
  · intro q hq
    by_cases hqp : q = p
    · rw [hqp, Function.update_self]
      exact congrArg some (readBytes_overwrite hin hout).symm
    · rw [Function.update_of_ne hqp, h.held q hq]
      obtain ⟨r, hr⟩ := hq.held
      congr 1
      apply readBytes_congr
      intro j hj
      symm
      apply hout
      exact h.ok.outside (r := none) hp hr (Ne.symm hqp) hfit (mem_bytes hj)
  · intro q hq
    have hqp : q ≠ p := by
      rintro rfl
      exact hq hkept
    rw [Function.update_of_ne hqp]
    exact h.free q hq

theorem inRange {size offset limit : BitVec 64} (h : ¬ (limit < offset ∨ limit - offset < size)) :
    offset.toNat + size.toNat ≤ limit.toNat := by
  obtain ⟨hlow, hhigh⟩ := not_or.mp h
  rw [BitVec.lt_def] at hlow hhigh
  rw [BitVec.toNat_sub_of_le (BitVec.le_def.mpr (Nat.le_of_not_lt hlow))] at hhigh
  omega

/-- `memop_copy` does nothing, or all that it is asked, within both buffers. -/
theorem memopCopy_cases (s : PoolState ι) (mem : ℕ → UInt8) (dst : MemBuffer)
    (dstOffset : BitVec 64) (src : MemBuffer) (size offset : BitVec 64) :
    memopCopy s mem dst dstOffset src size offset = (0, mem) ∨
      ∃ d p, dst.ptr = some d ∧ src.ptr = some p ∧ size ≠ 0 ∧
        dstOffset.toNat + size.toNat ≤ dst.size.toNat ∧
        offset.toNat + size.toNat ≤ src.size.toNat ∧
        memopCopy s mem dst dstOffset src size offset = (size,
          memcpy mem (s.address d + dstOffset.toNat) (s.address p + offset.toNat) size.toNat) := by
  unfold memopCopy
  split
  · rename_i d p hd hp
    split_ifs with hzero hread hwrite
    · exact .inl rfl
    · exact .inl rfl
    · exact .inl rfl
    · exact .inr ⟨d, p, hd, hp, hzero, inRange hwrite, inRange hread, rfl⟩
  · exact .inl rfl

/-- So does `memop_append`, within its buffer. -/
theorem memopAppend_cases (s : PoolState ι) (mem : ℕ → UInt8) (dst : MemBuffer) (src : ℕ)
    (size offset : BitVec 64) :
    memopAppend s mem dst src size offset = (0, mem) ∨
      ∃ d, dst.ptr = some d ∧ size ≠ 0 ∧ offset.toNat + size.toNat ≤ dst.size.toNat ∧
        memopAppend s mem dst src size offset =
          (size, memcpy mem (s.address d + offset.toNat) src size.toNat) := by
  unfold memopAppend
  split
  · rename_i d hd
    split_ifs with hzero hwrite
    · exact .inl rfl
    · exact .inl rfl
    · exact .inr ⟨d, hd, hzero, inRange hwrite, rfl⟩
  · exact .inl rfl

/-- Bytes from `src` on are copied into a buffer. -/
theorem Agrees.wrote (h : Agrees s b) {dst : MemBuffer} (hdst : s.pool.HasBuffer dst)
    (hp : dst.ptr = some p) {size offset : BitVec 64} (src : ℕ)
    (hrange : offset.toNat + size.toNat ≤ dst.size.toNat) :
    ∃ c, StoreStep b (.written p offset.toNat (readBytes s.mem src size.toNat)) c ∧
      Agrees { s with mem := memcpy s.mem (s.pool.address p + offset.toNat) src size.toNat } c := by
  obtain ⟨hlive, hsize⟩ := hdst p hp
  apply h.write hlive
  · rw [readBytes_length]
    exact hrange.trans hsize
  · intro j hj
    rw [readBytes_get]
    rw [readBytes_length] at hj
    exact memcpy_of_lt _ _ _ hj
  · intro a ha
    rw [readBytes_length] at ha
    exact memcpy_of_not_mem _ _ _ _ ha

/-! ### What a step of the pool leaves alone -/

theorem copied_cases (s : PoolState ι) (i : ι) (size : BitVec 64) (mem : ℕ → UInt8) :
    copied s i size mem = mem ∨ ∃ p new, s.pcs i = .release p new ∧
      copied s i size mem = memcpy mem (s.address new) (s.address p) (copyLength s p size) := by
  unfold copied
  split
  · rename_i p new hpc
    exact .inr ⟨p, new, hpc, rfl⟩
  · exact .inl rfl

/-- The copy of a reallocation is made within its new block. -/
theorem copied_of_kept {s : PoolState ι} (h : PoolOk s) {size : BitVec 64} (hasks : Asks s i size)
    (hrounds : Rounds size) (mem : ℕ → UInt8) (hq : s.Kept q) {a : ℕ} (ha : a ∈ s.bytes q) :
    copied s i size mem a = mem a := by
  rcases copied_cases s i size mem with hsame | ⟨p, new, hpc, hcopy⟩
  · rw [hsame]
  · rw [hcopy]
    obtain ⟨r, hr⟩ := hq.held
    have hnewHeld : new ∈ s.holds (some i) := holds_release hpc ▸ List.mem_cons_self
    have hne : new ≠ q := by
      rintro rfl
      exact h.new_not_kept hpc hq
    have hfit : 0 + copyLength s p size ≤ s.usable new := by
      rw [Nat.zero_add]
      exact copyLength_le_size.trans (hasks.room hpc _ hrounds.room)
    exact memcpy_of_not_mem _ _ _ _ (h.outside hnewHeld hr hne hfit ha)

theorem cleared_of_kept {s : PoolState ι} (hok : PoolOk t) {thread : Option ι} {size : BitVec 64}
    {ptr : Option Ptr} (h : PoolTurn s t thread size ptr) (hrounds : Rounds size) (clear : Bool)
    (mem : ℕ → UInt8)
    (hq : s.Kept q) (hq' : t.Kept q) {a : ℕ} (ha : a ∈ t.bytes q) :
    cleared s t clear size mem a = mem a := by
  unfold cleared
  split_ifs with hc
  · obtain ⟨new, hlive, hroom, hnew⟩ := h.given_of_calls hc.2
    rw [hlive]
    obtain ⟨r, hr⟩ := hq'.held
    have hheld : new ∈ t.holds none := by
      change new ∈ t.live
      rw [hlive]
      exact List.mem_cons_self
    have hne : new ≠ q := by
      rintro rfl
      exact hnew hq
    have hfit : 0 + size.toNat ≤ t.usable new := by
      rw [Nat.zero_add]
      exact hroom _ hrounds.room
    exact memset_of_not_mem _ _ _ _ (hok.outside hheld hr hne hfit ha)
  · rfl

/-- A step of the pool leaves the bytes of a block alone that is a caller's before it and after
it. -/
theorem Agrees.memAfter_of_kept (h : Agrees s b) (hok : PoolOk t)
    (hturn : Turned s.pool t l.thread s.asked l.ptr) (hq : s.pool.Kept q) (hq' : t.Kept q) {a : ℕ}
    (ha : a ∈ s.pool.bytes q) : s.memAfter l t junk a = s.mem a := by
  obtain ⟨r, hr⟩ := hq.held
  obtain ⟨r', hr'⟩ := hq'.held
  have hplace := hturn.places r q hr
  unfold MemoryState.memAfter
  cases hi : l.thread with
  | none => exact h.ok.block_kept hok hr hr' hplace _ _ ha
  | some i =>
    have hturn' : PoolTurn s.pool t (some i) (s.asked i) l.ptr := by
      have hgiven := hturn.turn
      rw [hi] at hgiven
      exact hgiven
    have ha' : a ∈ t.bytes q := by
      rw [hplace.bytes]
      exact ha
    dsimp only
    rw [cleared_of_kept hok hturn' (h.rounds i) _ _ hq hq' ha',
      h.ok.block_kept hok hr hr' hplace _ _ ha,
      copied_of_kept h.ok (h.asks i) (h.rounds i) _ hq ha]

variable [DecidableEq ι]

theorem Agrees.content_kept (h : Agrees s b) (hok : PoolOk t)
    (hturn : Turned s.pool t l.thread s.asked l.ptr) (hq : s.pool.Kept q) (hq' : t.Kept q) :
    (s.after l t junk).content q = s.content q := by
  obtain ⟨r, hr⟩ := hq.held
  have hplace := hturn.places r q hr
  change readBytes (s.memAfter l t junk) (t.address q) (t.usable q) = _
  rw [hplace.address, hplace.usable]
  apply readBytes_congr
  intro j hj
  exact h.memAfter_of_kept hok hturn hq hq' (mem_bytes hj)

/-- The first bytes of the block that takes the place of another. -/
theorem Agrees.content_moved (h : Agrees s b) (hok : PoolOk t)
    (hturn : Turned s.pool t l.thread s.asked l.ptr) (hi : l.thread = some i) {new : Ptr}
    (hpc : s.pool.pcs i = .release p new) (hcalls : t.calls = .moved :: s.pool.calls)
    (hsize : (s.asked i).toNat ≤ s.pool.usable new) (hnew : t.Kept new) :
    ((s.after l t junk).content new).take (copyLength s.pool p (s.asked i)) =
      (s.content p).take (copyLength s.pool p (s.asked i)) := by
  have hheld : new ∈ s.pool.holds (some i) := holds_release hpc ▸ List.mem_cons_self
  obtain ⟨r', hr'⟩ := hnew.held
  have hplace := hturn.places _ new hheld
  have hcopy : copyLength s.pool p (s.asked i) ≤ s.pool.usable new := copyLength_le_size.trans hsize
  have hold := h.large.copyLength_le p (s.asked i)
  change (readBytes (s.memAfter l t junk) (t.address new) (t.usable new)).take _ = _
  rw [hplace.address, hplace.usable, readBytes_take _ _ hcopy]
  unfold MemoryState.content
  rw [readBytes_take _ _ hold]
  apply readBytes_congr
  intro j hj
  have hin : s.pool.address new + j ∈ s.pool.bytes new := mem_bytes (Nat.lt_of_lt_of_le hj hcopy)
  have hclear : ¬ (s.clears i = true ∧ t.calls = .allocated :: s.pool.calls) := by
    rintro ⟨-, hc⟩
    rw [hcalls] at hc
    cases (List.cons.inj hc).1
  unfold MemoryState.memAfter cleared
  rw [hi]
  dsimp only
  rw [if_neg hclear, h.ok.block_kept hok hheld hr' hplace _ _ hin]
  unfold copied
  rw [hpc]
  exact memcpy_of_lt _ _ _ hj

/-- The state behind a step agrees with contents that are right for its blocks. -/
theorem Agrees.next {c : Contents Ptr UInt8} (h : Agrees s b) (hfit : Fitting (s.after l t junk))
    (hheld : ∀ q, t.Kept q → c q = some ((s.after l t junk).content q))
    (hfree : ∀ q, ¬ t.Kept q → c q = none) : Agrees (s.after l t junk) c :=
  ⟨hfit, h.rounds, hheld, hfree⟩

/-- The contents of a block that stays a caller's are right behind the step. -/
theorem Agrees.held_after (h : Agrees s b) (hok : PoolOk t)
    (hturn : Turned s.pool t l.thread s.asked l.ptr) (hq : s.pool.Kept q) (hq' : t.Kept q) :
    b q = some ((s.after l t junk).content q) := by
  rw [h.held q hq, h.content_kept hok hturn hq hq']

theorem Agrees.given (h : Agrees s b) (hfit : Fitting (s.after l t junk))
    (hturn : Turned s.pool t l.thread s.asked l.ptr) (hi : l.thread = some i) {new : Ptr}
    (hlive : t.live = new :: s.pool.live) (hcalls : t.calls = .allocated :: s.pool.calls)
    (hsize : (s.asked i).toNat ≤ t.usable new) (hnew : ¬ s.pool.Kept new)
    (hkeeps : ∀ q, t.Kept q ↔ q = new ∨ s.pool.Kept q) :
    ∃ c, StoreStep b (.given new (s.asked i).toNat (if s.clears i then some 0 else none)) c ∧
      Agrees (s.after l t junk) c := by
  have hlen : ((s.after l t junk).content new).length = t.usable new := readBytes_length ..
  have hstep : StoreStep b (.given new (s.asked i).toNat (if s.clears i then some 0 else none))
      (Function.update b new (some ((s.after l t junk).content new))) := by
    refine .given (h.free new hnew) (hlen ▸ hsize) ?_
    intro v hv x hx
    split_ifs at hv with hclear
    · obtain rfl := Option.some.inj hv
      have hread : ((s.after l t junk).content new).take (s.asked i).toNat =
          readBytes (s.memAfter l t junk) (t.address new) (s.asked i).toNat :=
        readBytes_take _ _ hsize
      rw [hread] at hx
      obtain ⟨j, hj, rfl⟩ := List.mem_map.mp hx
      unfold MemoryState.memAfter cleared
      rw [hi]
      dsimp only
      rw [if_pos ⟨hclear, hcalls⟩, hlive]
      exact if_pos ⟨Nat.le_add_right .., Nat.add_lt_add_left (List.mem_range.mp hj) _⟩
    · cases hv
  refine ⟨_, hstep, h.next hfit ?_ ?_⟩
  · intro q hq
    by_cases hqn : q = new
    · rw [hqn, Function.update_self]
    · rw [Function.update_of_ne hqn]
      exact h.held_after hfit.ok hturn (((hkeeps q).mp hq).resolve_left hqn) hq
  · intro q hq
    have hqn : q ≠ new := fun he => hq ((hkeeps q).mpr (.inl he))
    rw [Function.update_of_ne hqn]
    exact h.free q fun hs => hq ((hkeeps q).mpr (.inr hs))

theorem Agrees.moved (h : Agrees s b) (hfit : Fitting (s.after l t junk))
    (hturn : Turned s.pool t l.thread s.asked l.ptr) (hi : l.thread = some i) {new : Ptr}
    (hpc : s.pool.pcs i = .release p new) (hcalls : t.calls = .moved :: s.pool.calls)
    (hsize : (s.asked i).toNat ≤ s.pool.usable new) (hnew : ¬ s.pool.Kept new)
    (hkeeps : ∀ q, t.Kept q ↔ q = new ∨ s.pool.Kept q ∧ q ≠ p) :
    ∃ c, StoreStep b (.moved p new (s.asked i).toNat (copyLength s.pool p (s.asked i))) c ∧
      Agrees (s.after l t junk) c := by
  have hok : PoolOk t := hfit.ok
  have hp : s.pool.Kept p := .inr ⟨i, by rw [hpc]; rfl⟩
  have hplace := hturn.places (some i) new (holds_release hpc ▸ List.mem_cons_self)
  have hlen : ((s.after l t junk).content new).length = s.pool.usable new :=
    (readBytes_length ..).trans hplace.usable
  have hold : (s.content p).length = s.pool.usable p := readBytes_length ..
  have hstep := StoreStep.moved (h.held p hp) (h.free new hnew) (hlen ▸ hsize)
    (hold ▸ h.large.copyLength_le p (s.asked i))
    (h.content_moved hok hturn hi hpc hcalls hsize ((hkeeps new).mpr (.inl rfl)))
  refine ⟨_, hstep, h.next hfit ?_ ?_⟩
  · intro q hq
    by_cases hqn : q = new
    · rw [hqn, Function.update_self]
    · obtain ⟨hs, hqp⟩ := ((hkeeps q).mp hq).resolve_left hqn
      rw [Function.update_of_ne hqn, Function.update_of_ne hqp]
      exact h.held_after hfit.ok hturn hs hq
  · intro q hq
    obtain ⟨hqn, hno⟩ := not_or.mp ((hkeeps q).not.mp hq)
    rw [Function.update_of_ne hqn]
    by_cases hqp : q = p
    · rw [hqp, Function.update_self]
    · rw [Function.update_of_ne hqp]
      exact h.free q fun hs => hno ⟨hs, hqp⟩

/-- A step of the pool, once the call is made, is one of the store of blocks. -/
theorem Agrees.turn (h : Agrees s b) (hfit : Fitting (s.after l t junk))
    (hturn : Turned s.pool t l.thread s.asked l.ptr) :
    ∃ c, (storeSpec Ptr UInt8).Turn b (s.callEvent l t) c ∧ Agrees (s.after l t junk) c := by
  have hcons {call : CallEnd} (hc : t.calls = call :: s.pool.calls) :
      t.calls ≠ s.pool.calls := hc ▸ List.cons_ne_self _ _
  unfold MemoryState.callEvent
  cases hturn.turn with
  | quiet hsame hcalls =>
    refine ⟨b, ?_, h.next hfit ?_ ?_⟩
    · rcases hcalls with hcalls | hcalls
      · rw [if_pos hcalls]
        rfl
      · rw [if_neg (hcons hcalls), hcalls]
        cases l.thread with
        | none => rfl
        | some i => rfl
    · exact fun q hq => h.held_after hfit.ok hturn ((hsame q).mp hq) hq
    · exact fun q hq => h.free q fun hs => hq ((hsame q).mpr hs)
  | given i new hi hlive hcalls hroom hnew hkeeps =>
    rw [hi] at hroom
    have hsize := hroom _ (h.rounds i).room
    rw [if_neg (hcons hcalls), hcalls, hi, hlive]
    exact h.given hfit hturn hi hlive hcalls hsize hnew hkeeps
  | freed p hptr hp hcalls hkeeps =>
    obtain ⟨c, hstep, hagrees⟩ : ∃ c, StoreStep b (.freed p) c ∧ Agrees (s.after l t junk) c := by
      refine ⟨_, .freed (h.held p (.inl hp)), h.next hfit ?_ ?_⟩
      · intro q hq
        obtain ⟨hs, hqp⟩ := (hkeeps q).mp hq
        rw [Function.update_of_ne hqp]
        exact h.held_after hfit.ok hturn hs hq
      · intro q hq
        by_cases hqp : q = p
        · rw [hqp, Function.update_self]
        · rw [Function.update_of_ne hqp]
          exact h.free q fun hs => hq ((hkeeps q).mpr ⟨hs, hqp⟩)
    rw [if_neg (hcons hcalls), hcalls, hptr]
    refine ⟨c, ?_, hagrees⟩
    cases l.thread with
    | none => exact hstep
    | some i => exact hstep
  | moved i p new hi hpc hcalls hroom hnew hkeeps =>
    rw [hi] at hroom
    have hsize := hroom _ (h.rounds i).room
    rw [if_neg (hcons hcalls), hcalls, hi]
    dsimp only [List.head?_cons]
    rw [hpc]
    exact h.moved hfit hturn hi hpc hcalls hsize hnew hkeeps
  | inPlace i p hi hptr hp hcalls hsize hsame =>
    rw [hi] at hsize
    rw [if_neg (hcons hcalls), hcalls, hi, hptr]
    have hlen : (s.content p).length = s.pool.usable p := readBytes_length ..
    refine ⟨b, .kept (h.held p (.inl hp)) (hlen ▸ hsize), h.next hfit ?_ ?_⟩
    · exact fun q hq => h.held_after hfit.ok hturn ((hsame q).mp hq) hq
    · exact fun q hq => h.free q fun hs => hq ((hsame q).mpr hs)

/-! ### The calls -/

theorem Agrees.asking (h : Agrees s b) (hl : l.Fits s.pool)
    (hrounds : ∀ x ∈ l.asks, Rounds x.2.1) (hs : poolCallStep s.pool l = some t) :
    Agrees (s.asking l) b := by
  have hfit := h.toFitting.asking hl hs
  refine ⟨hfit, ?_, ?_, ?_⟩
  · intro j
    unfold MemoryState.asking
    cases hx : l.asks with
    | none => exact h.rounds j
    | some x =>
      dsimp only
      rcases eq_or_ne j x.1 with rfl | hj
      · rw [Function.update_self]
        exact hrounds x hx
      · rw [Function.update_of_ne hj]
        exact h.rounds j
  · unfold MemoryState.asking
    cases l.asks with
    | none => exact h.held
    | some x => exact h.held
  · unfold MemoryState.asking
    cases l.asks with
    | none => exact h.free
    | some x => exact h.free

omit [DecidableEq ι] in
/-- A size that can be rounded up is far below those that wrap. -/
theorem fits_of_rounds {s : PoolState ι} (h : ∀ x ∈ l.asks, Rounds x.2.1) : l.Fits s := by
  have hlt {size : BitVec 64} (hsize : Rounds size) : size.toNat < 2 ^ 64 - 63 := by
    unfold Rounds at hsize
    omega
  cases l with
  | calloc i count size heap =>
    simp only [PoolCall.asks] at h
    split_ifs at h with hoverflow
    · exact .inl hoverflow
    · exact .inr (hlt (h _ rfl))
  | pool l =>
    cases l with
    | realloc i ptr size heap now =>
      cases ptr with
      | none => trivial
      | some p => exact .inl (hlt (h _ rfl))
    | createdThread | endedThread | alloc | free | step | purge => trivial

/-- Every step of the memory is one of the store of blocks. -/
theorem Agrees.step (h : Agrees s b) {l : MemoryLabel ι} {s' : MemoryState ι} (hl : Sound s l)
    (hs : memoryStep s l = some s') :
    ∃ c, (storeSpec Ptr UInt8).Turn b (s.event l s') c ∧ Agrees s' c := by
  cases l with
  | call l junk =>
    have hcall : CallsFit s (.call l junk) := ⟨hl.1, fits_of_rounds hl.2⟩
    have hfit := h.toFitting.step hcall hs
    simp only [memoryStep] at hs
    split_ifs at hs
    obtain ⟨t, ht, rfl⟩ := Option.map_eq_some_iff.mp hs
    have hasking := h.asking (fits_of_rounds hl.2) hl.2 ht
    have hpool : (s.asking l).pool = s.pool := asking_pool s l
    apply hasking.turn hfit
    rw [hpool]
    exact h.ok.calls_turn h.large (hpool ▸ hasking.asks) (fun x hx => asking_asked hx) ht hfit.ok
  | spill i r =>
    simp only [memoryStep, MemoryState.spill, h.within i] at hs
    cases hs
  | store p offset byte =>
    simp only [memoryStep] at hs
    split_ifs at hs with hin
    obtain rfl := Option.some.inj hs
    apply h.write hin.1 hin.2
    · intro j hj
      obtain rfl : j = 0 := Nat.lt_one_iff.mp hj
      exact Function.update_self ..
    · intro a ha
      apply Function.update_of_ne
      rintro rfl
      exact ha ⟨Nat.le_refl _, Nat.lt_succ_self _⟩
  | copy dst dstOffset src size offset =>
    simp only [memoryStep] at hs
    split_ifs at hs with hbuffers
    obtain rfl := Option.some.inj hs
    simp only [MemoryState.event]
    rcases memopCopy_cases s.pool s.mem dst dstOffset src size offset with
      hsame | ⟨d, p, hd, hp, hzero, hwrite, -, hcopy⟩
    · rw [hsame]
      exact ⟨b, rfl, h⟩
    · rw [hcopy, if_neg hzero, hd, hp]
      exact h.wrote hbuffers.1 hd _ hwrite
  | append dst src size offset =>
    simp only [memoryStep] at hs
    split_ifs at hs with hbuffer
    obtain rfl := Option.some.inj hs
    simp only [MemoryState.event]
    rcases memopAppend_cases s.pool s.mem dst src size offset with
      hsame | ⟨d, hd, hzero, hwrite, hcopy⟩
    · rw [hsame]
      exact ⟨b, rfl, h⟩
    · rw [hcopy, if_neg hzero, hd]
      exact h.wrote hbuffer hd _ hwrite

/-- An empty store goes with the pool after `memop_init`. -/
theorem Agrees.start (s : MemoryState ι) (hs : (memorySystem ι).init s) :
    ∃ b, (storeSpec Ptr UInt8).init b ∧ Agrees s b := by
  obtain ⟨mem, rfl⟩ := hs
  refine ⟨fun _ => none, rfl, .init mem, fun _ => (by decide : Rounds 0), ?_, fun _ _ => rfl⟩
  rintro p (hp | ⟨i, hi⟩)
  · cases hp
  · cases hi

/-- The pool is a store of blocks: every step of it, by whatever thread and over whatever the others
are in the middle of, is one that a store of blocks can make, and the memory holds what the store does. -/
theorem pool_simulates_store (ι : Type*) [DecidableEq ι] :
    (memorySystem ι).Simulates Sound MemoryState.event (storeSpec Ptr UInt8) Agrees where
  init := Agrees.start
  step := fun _ _ _ _ h hl hs => h.step hl hs

/-- What a caller has put into a block stays there until it is written to, freed or replaced: whatever
any thread allocates, frees or moves meanwhile, and whatever the pool writes for itself. -/
theorem content_stays (s t : MemoryState ι) (es : List (StoreEvent Ptr UInt8))
    (h : (memorySystem ι).ReachableWhen Sound s)
    (hrun : (memorySystem ι).Shows Sound MemoryState.event s es t) (p : Ptr)
    (hp : s.pool.Kept p) (hes : ∀ e ∈ es, p ∉ e.blocks) :
    t.pool.Kept p ∧ t.content p = s.content p := by
  have hsim : (memorySystem ι).Simulates Sound MemoryState.event (storeSpec Ptr UInt8) Agrees :=
    ⟨Agrees.start, fun _ _ _ _ h hl hs => h.step hl hs⟩
  obtain ⟨b, hb⟩ := hsim.reachable h
  obtain ⟨c, hpath, hc⟩ := hsim.path hrun hb
  have hsame : c p = some (s.content p) := (store_frame hpath hes).trans (hb.held p hp)
  have hkept : t.pool.Kept p := by
    by_contra hno
    rw [hc.free p hno] at hsame
    cases hsame
  exact ⟨hkept, Option.some.inj ((hc.held p hkept).symm.trans hsame)⟩

def writtenSmall : List (MemoryLabel Bool) :=
  [.call (.pool (.alloc true 16 (some 100))) UInt8.ofNat,
    .call (.pool (.step true none 0)) UInt8.ofNat, .call (.pool (.step true (some 5) 0)) UInt8.ofNat,
    .call (.pool (.step true none 0)) UInt8.ofNat, .store ⟨321, 0⟩ 3 7]

/-- Two more blocks, one of the other thread, which then frees the first of them. -/
def othersBusy : List (MemoryLabel Bool) :=
  [.call (.calloc true 2 8 none) UInt8.ofNat,
    .call (.pool (.alloc false 16 (some 101))) UInt8.ofNat,
    .call (.pool (.step false none 0)) UInt8.ofNat,
    .call (.pool (.free false (some ⟨321, 1⟩) 0)) UInt8.ofNat]

theorem content_stays_small :
    ∃ s t : MemoryState Bool, s.content ⟨321, 0⟩ =
        [64, 65, 66, 7, 68, 69, 70, 71, 72, 73, 74, 75, 76, 77, 78, 79] ∧
      t.pool.live = [⟨322, 0⟩, ⟨321, 0⟩] ∧ t.pool.Kept ⟨321, 0⟩ ∧
      t.content ⟨321, 0⟩ = s.content ⟨321, 0⟩ := by
  have hout : ((memorySystem Bool).execWhen Sound (memoryNew Bool fun _ => 0) writtenSmall).bind
      (fun s => ((memorySystem Bool).showWhen Sound MemoryState.event s [] othersBusy).map fun r =>
        decide (s.pool.live = [⟨321, 0⟩] ∧ s.content ⟨321, 0⟩ =
            [64, 65, 66, 7, 68, 69, 70, 71, 72, 73, 74, 75, 76, 77, 78, 79] ∧
          r.2.pool.live = [⟨322, 0⟩, ⟨321, 0⟩] ∧
          ∀ e ∈ r.1, ⟨321, 0⟩ ∉ e.blocks)) = some true := by
    decide +kernel
  obtain ⟨s, hrun, hout⟩ := Option.bind_eq_some_iff.mp hout
  obtain ⟨⟨es, t⟩, hshow, hend⟩ := Option.map_eq_some_iff.mp hout
  obtain ⟨hlive, hcontent, hlive', hes⟩ := of_decide_eq_true hend
  have hreach : (memorySystem Bool).ReachableWhen Sound s := .exec (.init ⟨_, rfl⟩) hrun
  have hp : s.pool.Kept ⟨321, 0⟩ := by
    refine .inl ?_
    rw [hlive]
    exact List.mem_cons_self
  obtain ⟨hkept, hsame⟩ :=
    content_stays s t es hreach (System.Shows.refl.follow hshow) ⟨321, 0⟩ hp hes
  exact ⟨s, t, hcontent, hlive', hkept, hsame⟩

end
end Xplatbase.MemoryPool
