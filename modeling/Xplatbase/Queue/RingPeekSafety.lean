import Xplatbase.Queue.RingPeekInv

/-! Every step of a push, a pop and a peek keeps the invariant of the shared ring queue. -/
namespace Xplatbase.Queue
open Xplatbase.Lib Xplatbase.ThreadPool

variable {ι : Type*} [DecidableEq ι] {n : ℕ} {c : RingCap} {s : QueueState ι n}
  {h : QueueHistory ι n} {v : RingView} {cells : ℕ → Item n} {i : ι} {r : RingShared}
  {p : QueueThread n} {e : QueueEvent n}

/-! ### Pushes and pops -/

section push
variable {x : Item n} {t : BitVec 32}

theorem PeekInv.pushLoad (hs : PeekInv c s h v cells) (hpc : s.thread i = .pushLoad x) :
    PeekInv c (s.setThread s.ring i (.pushSeq x s.ring.tail))
      (h.record c.toPow2 i (.ring .loaded) s.ring) v cells := by
  have hpc' : (s.typed cells).thread i = .pushReload x := congrArg QueueThread.typed hpc
  refine hs.stay ?_ trivial rfl False.elim (fun j => (hs.guard j).same rfl (by rw [hpc]; rfl)
    (by rw [hpc]; rfl)) nofun nofun nofun
  rw [typed_setThread]
  refine (hs.ring.load (by rw [hpc']; trivial)).setThread ⟨_, hs.ring.tail, le_rfl, ?_⟩
    fun q => ?_
  · exact Nat.le_add_right _ _
  · rw [hpc']
    exact Iff.rfl

theorem PeekInv.pushSeq (hs : PeekInv c s h v cells) (hpc : s.thread i = .pushSeq x t)
    (hseq : s.ring.seqno (c.cell t) - t = 0) :
    PeekInv c (s.setThread s.ring i (.pushCas x t)) (h.record c.toPow2 i (.ring .none) s.ring) v
      cells := by
  have hi : RingThreadOk c h.ring v i (s.thread i).typed := hs.ring.thread i
  rw [hpc] at hi
  obtain ⟨P, rfl, hP, hT⟩ := hi
  refine hs.quiet ⟨P, rfl, hP, hT, fun he => ?_⟩ (by rw [hpc]; exact fun q => Iff.rfl) trivial
    False.elim (by rw [hpc]; rfl) (by rw [hpc]; rfl) rfl nofun nofun
  subst he
  rw [c.cell_ofNat] at hseq
  refine hs.ring.free_of_seq ?_
  show s.ring.seqno _ = _
  bv_omega

theorem PeekInv.pushCas (hs : PeekInv c s h v cells) (hpc : s.thread i = .pushCas x t)
    (hcas : s.ring.tail = t) (hrecent : h.ring.ops - h.ring.loadedAt i < 2 ^ 31) :
    PeekInv c (s.setThread { s.ring with tail := t + 1 } i (.writerLock x t))
      (h.record c.toPow2 i (.ring (.pushClaimed x)) { s.ring with tail := t + 1 }) v cells := by
  have hpc' : (s.typed cells).thread i = .pushCas x t := congrArg QueueThread.typed hpc
  refine hs.stay ?_ trivial rfl False.elim (fun j => (hs.guard j).same rfl (by rw [hpc]; rfl)
    (by rw [hpc]; rfl)) nofun nofun nofun
  rw [typed_setThread]
  exact hs.ring.claimPush hpc' hcas hrecent

/-- `ring_writer_lock` succeeds: no reader is at the slot. -/
theorem PeekInv.writerLock (hs : PeekInv c s h v cells) (hpc : s.thread i = .writerLock x t)
    (hfree : s.ring.peekGuard (c.cell t) = 0) :
    PeekInv c (s.setThread { s.ring with
        peekGuard := Function.update s.ring.peekGuard (c.cell t) (-1) } i (.pushCopy x t 0))
      (h.record c.toPow2 i (.ring .none) { s.ring with
        peekGuard := Function.update s.ring.peekGuard (c.cell t) (-1) }) v cells := by
  have hi : RingThreadOk c h.ring v i (s.thread i).typed := hs.ring.thread i
  have hwon := (won_state hs.ring (i := i) (by rw [hpc]; rfl)).1
  rw [hpc] at hi
  refine hs.stay (typed_stay hs rfl rfl rfl hi (by rw [hpc]; exact fun q => Iff.rfl))
    (fun m hm => absurd hm (Nat.not_lt_zero m)) rfl ?_ (fun j => ?_) nofun nofun nofun
  · rintro - P ⟨k, hk, hread⟩ hb
    refine absurd hread (?_ : _ ≠ some (P % c.size))
    have hcell : c.cell t = P % c.size := by
      rw [hwon, c.cell_ofNat, show h.ring.base i = P + c.size from hb, Nat.add_mod_right]
    rw [← hcell]
    exact ((hs.guard _).free hfree).2 k
  · by_cases hj : j = c.cell t
    · subst hj
      exact (hs.guard _).writerLock hfree rfl rfl (Function.update_self _ _ _)
    · have hne : ¬c.cell t = j := fun he => hj he.symm
      refine (hs.guard j).other (Function.update_of_ne hj _ _) (by rw [hpc]; exact nofun)
        (fun he => hne (Option.some.inj he)) (by rw [hpc]; exact nofun) nofun

/-- One byte of the producer's `memcpy`. -/
theorem PeekInv.write (hs : PeekInv c s h v cells) {m : ℕ} (hpc : s.thread i = .pushCopy x t m)
    (hm : m < n) {cells' : ℕ → Item n} {e : RingEvent (Item n)}
    (hring : RingInv c ((s.setThread { s.ring with
      buf := Function.update s.ring.buf (c.cell t * n + m) (x ⟨m, hm⟩) } i p).typed cells')
      (h.ring.record i e) v)
    (hp : p = .pushCopy x t (m + 1) ∨ p = .writerUnlock x t ∧ m + 1 = n)
    (he : e = .none ∨ e = .filled) :
    PeekInv c (s.setThread { s.ring with
        buf := Function.update s.ring.buf (c.cell t * n + m) (x ⟨m, hm⟩) } i p)
      (h.record c.toPow2 i (.ring e) { s.ring with
        buf := Function.update s.ring.buf (c.cell t * n + m) (x ⟨m, hm⟩) }) v cells' := by
  obtain ⟨hwon, hfree, -⟩ := won_state hs.ring (i := i) (t := t) (by rw [hpc]; rfl)
  have hwrites : (s.thread i).writes c.toPow2 = some (c.cell t) := by rw [hpc]; rfl
  have hcell : c.cell t = h.ring.base i % c.size := by rw [hwon, c.cell_ofNat]
  have hown : Stored s.ring.buf (c.cell t) x m := by
    have := hs.thread i
    rw [hpc] at this
    exact this
  have hstored := hown.next hm
  have hbase : (h.ring.record i e).base i = h.ring.base i := by
    rcases he with rfl | rfl <;> rfl
  refine hs.next hring (fun q y hq hy => ?_) (fun q hq => hs.ring.ready_lt hq) ?_
    (fun k hk j y l hrel hst => hst.other (hs.relies_ne hwrites hk hrel) hm _)
    (fun q _ hq => Or.inl hq) (fun k hk P hread hl => hl.same fun k' hk' hb => ?_) (fun j => ?_)
    ?_ nofun nofun
  · refine (hs.bytes q y hq hy).other ?_ hm _
    rw [hcell]
    exact hq.not_free hfree
  · rcases hp with rfl | ⟨rfl, hlast⟩
    · exact hstored
    · rw [hlast] at hstored
      exact hstored
  · by_cases heq : k' = i
    · subst heq
      rw [hpc]
      exact ⟨trivial, hbase.symm.trans hb⟩
    · rw [setThread_other _ _ _ heq] at hk'
      exact ⟨hk', (record_base h.ring e heq).symm.trans hb⟩
  · refine (hs.guard j).same rfl ?_ ?_
    · rw [hpc]
      rcases hp with rfl | ⟨rfl, -⟩ <;> rfl
    · rw [hpc]
      rcases hp with rfl | ⟨rfl, -⟩ <;> rfl
  · rcases he with rfl | rfl <;> exact nofun

theorem PeekInv.pushCopy (hs : PeekInv c s h v cells) {m : ℕ}
    (hpc : s.thread i = .pushCopy x t m) (hm : m + 1 < n) :
    PeekInv c (s.setThread { s.ring with
        buf := Function.update s.ring.buf (c.cell t * n + m) (x ⟨m, by omega⟩) } i
          (.pushCopy x t (m + 1)))
      (h.record c.toPow2 i (.ring .none) { s.ring with
        buf := Function.update s.ring.buf (c.cell t * n + m) (x ⟨m, by omega⟩) }) v cells := by
  have hi : RingThreadOk c h.ring v i (s.thread i).typed := hs.ring.thread i
  rw [hpc] at hi
  exact hs.write hpc (by omega)
    (typed_stay hs rfl rfl rfl hi (by rw [hpc]; exact fun q => Iff.rfl)) (Or.inl rfl)
    (Or.inl rfl)

theorem PeekInv.pushFilled (hs : PeekInv c s h v cells) {m : ℕ}
    (hpc : s.thread i = .pushCopy x t m) (hm : m + 1 = n) :
    PeekInv c (s.setThread { s.ring with
        buf := Function.update s.ring.buf (c.cell t * n + m) (x ⟨m, by omega⟩) } i
          (.writerUnlock x t))
      (h.record c.toPow2 i (.ring .filled) { s.ring with
        buf := Function.update s.ring.buf (c.cell t * n + m) (x ⟨m, by omega⟩) }) v
      (Function.update cells (c.cell t) x) := by
  have hpc' : (s.typed cells).thread i = .pushCopy x t := congrArg QueueThread.typed hpc
  refine hs.write hpc (by omega) ?_ (Or.inr ⟨rfl, hm⟩) (Or.inr rfl)
  have hfill := hs.ring.fill hpc'
  rw [typed_setThread, typed_fill]
  exact hfill

theorem PeekInv.writerUnlock (hs : PeekInv c s h v cells) (hpc : s.thread i = .writerUnlock x t) :
    PeekInv c (s.setThread { s.ring with
        peekGuard := Function.update s.ring.peekGuard (c.cell t) 0 } i (.pushPublish x t))
      (h.record c.toPow2 i (.ring .none) { s.ring with
        peekGuard := Function.update s.ring.peekGuard (c.cell t) 0 }) v cells := by
  have hi : RingThreadOk c h.ring v i (s.thread i).typed := hs.ring.thread i
  have hown := hs.thread i
  have hwrites : (s.thread i).writes c.toPow2 = some (c.cell t) := by rw [hpc]; rfl
  rw [hpc] at hi hown
  refine hs.stay (typed_stay hs rfl rfl rfl hi (by rw [hpc]; exact fun q => Iff.rfl)) hown rfl
    (fun _ P _ hb => ⟨by rw [hpc]; trivial, hb⟩) (fun j => ?_) nofun nofun nofun
  by_cases hj : j = c.cell t
  · subst hj
    exact (hs.guard _).writerUnlock hwrites (fun k hk => writes_unique hs.ring hk hwrites) rfl rfl
      (Function.update_self _ _ _)
  · refine (hs.guard j).other (Function.update_of_ne hj _ _) ?_ nofun (by rw [hpc]; exact nofun)
      nofun
    rw [hwrites]
    exact fun he => hj (Option.some.inj he).symm

/-- `atomic_u32_set_inline(&r->seqno[pos], t + 1u)`. -/
theorem PeekInv.pushPublish (hs : PeekInv c s h v cells) (hpc : s.thread i = .pushPublish x t) :
    PeekInv c (s.setThread { s.ring with
        seqno := Function.update s.ring.seqno (c.cell t) (t + 1) } i .idle)
      (h.record c.toPow2 i (.ring .pushed) { s.ring with
        seqno := Function.update s.ring.seqno (c.cell t) (t + 1) })
      (v.publish (h.ring.base i % c.size)) cells := by
  obtain ⟨hwon, hfree, -⟩ := won_state hs.ring (i := i) (t := t) (by rw [hpc]; rfl)
  have hpc' : (s.typed cells).thread i = .pushPublish x t := congrArg QueueThread.typed hpc
  have hcell : c.cell t = h.ring.base i % c.size := by rw [hwon, c.cell_ofNat]
  have hi : RingThreadOk c h.ring v i (s.thread i).typed := hs.ring.thread i
  have hown := hs.thread i
  rw [hpc] at hi hown
  have hclaimed : h.ring.claimed[h.ring.base i]? = some x := hi.2.2.1
  have hring : RingInv c ((s.setThread { s.ring with
      seqno := Function.update s.ring.seqno (c.cell t) (t + 1) } i .idle).typed cells)
      (h.ring.record i .pushed) (v.publish (h.ring.base i % c.size)) := by
    rw [typed_setThread, typed_seqno]
    exact hs.ring.publish hpc'
  refine hs.next hring (fun q y hq hy => ?_) (fun q hq => hring.ready_lt hq) trivial
    (fun k _ j y l _ hst => hst) (fun q hle hq => ?_) (fun k hk P hread hl => ?_)
    (fun j => (hs.guard j).same rfl (by rw [hpc]; rfl) (by rw [hpc]; rfl)) nofun nofun nofun
  · rcases (RingView.ready_publish hfree).mp hq with hq | rfl
    · exact hs.bytes q y hq hy
    · rw [hclaimed] at hy
      rw [← Option.some.inj hy, ← hcell]
      exact hown
  · rcases (RingView.ready_publish hfree).mp hq with hold | rfl
    · exact Or.inl hold
    · -- a position below the head is not free, so the published one is at the head
      refine Or.inr ?_
      have hge : h.ring.taken ≤ h.ring.base i := by
        by_contra hlt
        rcases hs.ring.taken_done _ (not_le.mp hlt) with hd | hd
        · rw [hfree.1] at hd
          omega
        · exact hd.not_free hfree rfl
      have heq : h.ring.base i = h.ring.taken := le_antisymm hle hge
      have hq' : (v.publish (h.ring.base i % c.size)).Ready c.size h.ring.taken := by
        rw [← heq]
        exact hq
      rw [heq]
      exact front_of_ready hring hq'
  · refine ⟨hl.1, fun ht => ?_⟩
    obtain ⟨hf, hno⟩ := hl.2 ht
    have hbase : h.ring.base i ≠ P + c.size := hno i (by rw [hpc]; trivial)
    constructor
    · show Function.update v.full (h.ring.base i % c.size) true (P % c.size) = false
      by_cases hcell' : P % c.size = h.ring.base i % c.size
      · refine absurd ?_ hbase
        rw [← hfree.1, ← hcell']
        exact ht
      · rw [Function.update_of_ne hcell']
        exact hf
    · intro k' hk' hb
      by_cases heq : k' = i
      · subst heq
        rw [setThread_self] at hk'
        exact hk'
      · rw [setThread_other _ _ _ heq] at hk'
        exact hno k' hk' hb

end push

section pop
variable {hd : BitVec 32} {m : ℕ} {item : Item n}

theorem PeekInv.popLoad (hs : PeekInv c s h v cells) (hpc : s.thread i = .popLoad) :
    PeekInv c (s.setThread s.ring i (.popSeq s.ring.head))
      (h.record c.toPow2 i (.ring .loaded) s.ring) v cells := by
  have hpc' : (s.typed cells).thread i = .popLoad 1 := congrArg QueueThread.typed hpc
  refine hs.stay ?_ trivial rfl False.elim (fun j => (hs.guard j).same rfl (by rw [hpc]; rfl)
    (by rw [hpc]; rfl)) nofun nofun nofun
  rw [typed_setThread]
  refine (hs.ring.load (by rw [hpc']; exact ⟨le_rfl, by decide⟩)).setThread
    ⟨Nat.one_pos, by decide, _, hs.ring.head, le_rfl, ?_,
      fun _ m hm => (Nat.not_lt_zero m hm).elim⟩ fun q => ?_
  · exact le_trans hs.ring.claimed_le_taken (Nat.le_add_right _ _)
  · rw [hpc']
    exact Iff.rfl

theorem PeekInv.popSeq (hs : PeekInv c s h v cells) (hpc : s.thread i = .popSeq hd)
    (hseq : s.ring.seqno (c.cell hd) - (hd + 1) = 0) :
    PeekInv c (s.setThread s.ring i (.popCas hd)) (h.record c.toPow2 i (.ring .none) s.ring) v
      cells := by
  have hi : RingThreadOk c h.ring v i (s.thread i).typed := hs.ring.thread i
  rw [hpc] at hi
  obtain ⟨-, hmax, P, rfl, hP, hT, -⟩ := hi
  refine hs.quiet ⟨Nat.one_pos, le_rfl, hmax, P, rfl, hP, hT, fun he m hm => ?_⟩
    (by rw [hpc]; exact fun q => Iff.rfl) trivial False.elim (by rw [hpc]; rfl) (by rw [hpc]; rfl)
    rfl nofun nofun
  obtain rfl : m = 0 := by omega
  subst he
  rw [c.cell_ofNat] at hseq
  refine hs.ring.ready_of_seq (by omega) ?_
  show s.ring.seqno _ = _
  rw [Nat.add_zero, BitVec.ofNat_add]
  bv_omega

theorem PeekInv.popCas (hs : PeekInv c s h v cells) (hpc : s.thread i = .popCas hd)
    (hcas : s.ring.head = hd) (hrecent : h.ring.ops - h.ring.loadedAt i < 2 ^ 31) :
    PeekInv c (s.setThread { s.ring with head := hd + 1 } i (.popCopy hd 0 item))
      (h.record c.toPow2 i (.ring (.popClaimed 1)) { s.ring with head := hd + 1 }) v cells := by
  have hpc' : (s.typed cells).thread i = .popCas 1 hd 1 := congrArg QueueThread.typed hpc
  have hring : RingInv c ((s.setThread { s.ring with head := hd + 1 } i
      (.popCopy hd 0 item)).typed cells) (h.ring.record i (.popClaimed 1)) v := by
    rw [typed_setThread]
    exact hs.ring.claimPop hpc' hcas hrecent
  refine hs.stay hring ?_ rfl False.elim (fun j => (hs.guard j).same rfl (by rw [hpc]; rfl)
    (by rw [hpc]; rfl)) nofun nofun nofun
  have hi : RingThreadOk c (h.ring.record i (.popClaimed 1)) v i
      ((s.setThread { s.ring with head := hd + 1 } i (.popCopy hd 0 item)).thread i).typed :=
    hring.thread i
  rw [setThread_self] at hi
  obtain ⟨-, -, -, hready⟩ := hi
  have hlt := hring.ready_lt (hready 0 le_rfl Nat.one_pos).1
  exact ⟨_, List.getElem?_eq_getElem hlt, fun m hm => absurd hm (Nat.not_lt_zero m)⟩

theorem PeekInv.popCopy (hs : PeekInv c s h v cells) (hpc : s.thread i = .popCopy hd m item)
    (hm : m < n) :
    PeekInv c (s.setThread s.ring i (.popCopy hd (m + 1)
        (item.setByte m (s.ring.buf (c.cell hd * n + m)))))
      (h.record c.toPow2 i (.ring .none) s.ring) v cells := by
  obtain ⟨x, hx, -, -, -, hread⟩ := hs.popByte hpc hm
  have hi : RingThreadOk c h.ring v i (s.thread i).typed := hs.ring.thread i
  rw [hpc] at hi
  exact hs.quiet hi (by rw [hpc]; exact fun q => Iff.rfl) ⟨x, hx, hread⟩ False.elim
    (by rw [hpc]; rfl) (by rw [hpc]; rfl) rfl nofun nofun

/-- The last byte: the item read is the one the typed ring copies at once. -/
theorem PeekInv.popCopied (hs : PeekInv c s h v cells) (hpc : s.thread i = .popCopy hd m item)
    (hm : m + 1 = n) :
    PeekInv c (s.setThread s.ring i (.popRecycle hd
        (item.setByte m (s.ring.buf (c.cell hd * n + m)))))
      (h.record c.toPow2 i (.ring (.copied 0
        (item.setByte m (s.ring.buf (c.cell hd * n + m))))) s.ring) v cells := by
  obtain ⟨x, hx, hready, hnew, hbase, hread⟩ := hs.popByte hpc (by omega)
  rw [hm] at hread
  rw [hread.eq]
  have hpc' : (s.typed cells).thread i = .popCopy hd 1 0 := congrArg QueueThread.typed hpc
  have hcell : cells (h.ring.base i % c.size) = x := by
    have hfilled := hs.ring.content _ (hs.ring.ready_filled _ hready) hnew
    rw [hx] at hfilled
    exact (Option.some.inj hfilled).symm
  have hcopy := hs.ring.copy hpc'
  have hval : ((s.typed cells).ring.cells (c.cell (hd + BitVec.ofNat 32 0))).t = x := by
    rw [hbase, ← BitVec.ofNat_add, c.cell_ofNat]
    exact hcell
  rw [hval] at hcopy
  refine hs.stay ?_ hx rfl False.elim (fun j => (hs.guard j).same rfl (by rw [hpc]; rfl)
    (by rw [hpc]; rfl)) nofun nofun nofun
  rw [typed_setThread]
  exact hcopy

/-- `atomic_u32_set_inline(&r->seqno[pos], h + (uint32_t)r->capacity)`. -/
theorem PeekInv.popRecycle (hs : PeekInv c s h v cells) (hpc : s.thread i = .popRecycle hd item) :
    PeekInv c (s.setThread { s.ring with
        seqno := Function.update s.ring.seqno (c.cell hd) (hd + BitVec.ofNat 32 c.size) } i .idle)
      (h.record c.toPow2 i (.popped item) { s.ring with
        seqno := Function.update s.ring.seqno (c.cell hd) (hd + BitVec.ofNat 32 c.size) })
      (v.recycle c.size (h.ring.base i % c.size)) cells := by
  have hpc' : (s.typed cells).thread i = .popRecycle hd 1 0 := congrArg QueueThread.typed hpc
  have hi : RingThreadOk c h.ring v i (s.thread i).typed := hs.ring.thread i
  have hown := hs.thread i
  rw [hpc] at hi hown
  have hready : v.Ready c.size (h.ring.base i) := hi.2.2.2.2.1
  have hnext : hd + BitVec.ofNat 32 0 + BitVec.ofNat 32 c.mask + 1 =
      hd + BitVec.ofNat 32 c.size := by
    have hpos := c.size_pos
    rw [show c.size = c.mask + 1 by rw [Pow2.mask]; omega, BitVec.ofNat_add,
      BitVec.add_zero, BitVec.add_assoc]
    rfl
  have hring : RingInv c ((s.setThread { s.ring with
      seqno := Function.update s.ring.seqno (c.cell hd) (hd + BitVec.ofNat 32 c.size) } i
        .idle).typed cells)
      (h.ring.record i (.recycled 0)) (v.recycle c.size (h.ring.base i % c.size)) := by
    rw [typed_setThread, typed_seqno, ← hnext]
    have hrec := hs.ring.recycle hpc'
    rw [BitVec.add_zero] at hrec ⊢
    exact hrec
  refine hs.next hring (fun q y hq hy => ?_) (fun q hq => hring.ready_lt hq) trivial
    (fun k _ j y l _ hst => hst) (fun q _ hq => Or.inl ((RingView.ready_recycle hready).mp hq).1)
    (fun k hk P hread hl => ?_) (fun j => (hs.guard j).same rfl (by rw [hpc]; rfl)
      (by rw [hpc]; rfl)) (by simp) (fun y hy => ?_) (by simp)
  · exact hs.bytes q y ((RingView.ready_recycle hready).mp hq).1 hy
  · have hpast : ∀ k', ((s.setThread { s.ring with
        seqno := Function.update s.ring.seqno (c.cell hd) (hd + BitVec.ofNat 32 c.size) } i
          .idle).thread k').Past → (s.thread k').Past := by
      intro k' hk'
      by_cases heq : k' = i
      · rw [heq, setThread_self] at hk'
        exact hk'.elim
      · rwa [setThread_other _ _ _ heq] at hk'
    have hsize := c.size_pos
    by_cases hcell : P % c.size = h.ring.base i % c.size
    · have hturn : v.turn (P % c.size) = h.ring.base i := by rw [hcell, hready.1]
      have hne : h.ring.base i ≠ P + c.size := fun he => by
        have hf := (hl.2 (hturn.trans he)).1
        rw [hcell, hready.2] at hf
        cases hf
      have hle := hl.1
      rw [hturn] at hle
      have hleP : h.ring.base i ≤ P := by
        by_contra hlt
        have := slot_inj hcell (by omega) (by omega)
        omega
      have hturn' : (v.recycle c.size (h.ring.base i % c.size)).turn (P % c.size) =
          h.ring.base i + c.size := by
        rw [hcell]
        exact (Function.update_self _ _ _).trans (by rw [hready.1])
      refine ⟨by rw [hturn']; omega, fun ht => ⟨?_, fun k' hk' hb => ?_⟩⟩
      · rw [hcell]
        exact Function.update_self _ _ _
      · obtain ⟨t, ht'⟩ := past_won (hpast k' hk')
        have hfree := (won_state hs.ring ht').2.1
        rw [show h.ring.base k' = P + c.size from hb] at hfree
        have hfull := hfree.2
        rw [Nat.add_mod_right, hcell, hready.2] at hfull
        cases hfull
    · have hturn' : (v.recycle c.size (h.ring.base i % c.size)).turn (P % c.size) =
          v.turn (P % c.size) := Function.update_of_ne hcell _ _
      have hfull' : (v.recycle c.size (h.ring.base i % c.size)).full (P % c.size) =
          v.full (P % c.size) := Function.update_of_ne hcell _ _
      refine ⟨by rw [hturn']; exact hl.1, fun ht => ?_⟩
      rw [hturn'] at ht
      rw [hfull']
      exact ⟨(hl.2 ht).1, fun k' hk' hb => (hl.2 ht).2 k' (hpast k' hk') hb⟩
  · obtain rfl : item = y := by injection hy
    refine ⟨hown, fun hmem => ?_⟩
    have hlt := (hs.ring.recycled _).mp hmem
    rw [hready.1] at hlt
    omega

end pop

/-! ### Peeks -/

section peek
variable {hd : BitVec 32} {m retry : ℕ} {item : Item n}

theorem PeekInv.search (hs : PeekInv c s h v cells)
    (hfrom : (s.thread i).Free c s h v i)
    (hto : p.Free c (s.setThread s.ring i p) (h.record c.toPow2 i (.ring .none) s.ring) v i) :
    PeekInv c (s.setThread s.ring i p) (h.record c.toPow2 i (.ring .none) s.ring) v cells := by
  obtain ⟨ht, -, hw, hr, -⟩ := hfrom
  obtain ⟨ht', hpast, hw', hr', hown⟩ := hto
  refine hs.quiet ?_ ?_ hown (fun hp => absurd hp hpast) (hw'.trans hw.symm) (hr'.trans hr.symm)
    rfl nofun nofun
  · rw [ht']
    trivial
  · rw [ht, ht']
    exact fun q => Iff.rfl

/-- `ring_reader_lock` succeeds: the count keeps producers out of the slot. -/
theorem PeekInv.readerCas (hs : PeekInv c s h v cells) {readers : ℤ}
    (hpc : s.thread i = .readerCas retry hd readers)
    (hcas : s.ring.peekGuard (c.cell hd) = readers) :
    PeekInv c (s.setThread { s.ring with
        peekGuard := Function.update s.ring.peekGuard (c.cell hd) (readers + 1) } i
          (.peekHead retry hd))
      (h.record c.toPow2 i (.ring .none) { s.ring with
        peekGuard := Function.update s.ring.peekGuard (c.cell hd) (readers + 1) }) v cells := by
  have hpos := hs.thread i
  rw [hpc] at hpos
  refine hs.stay (typed_stay hs rfl rfl rfl trivial (by rw [hpc]; exact fun q => Iff.rfl))
    trivial rfl False.elim (fun j => ?_) nofun nofun nofun
  by_cases hj : j = c.cell hd
  · subst hj
    refine (hs.guard _).readerLock (hcas ▸ hpos) (by rw [hpc]; rfl) rfl rfl ?_
    rw [hcas]
    exact Function.update_self _ _ _
  · have hne : ¬c.cell hd = j := fun he => hj he.symm
    exact (hs.guard j).other (Function.update_of_ne hj _ _) (by rw [hpc]; exact nofun) nofun
      (by rw [hpc]; exact nofun) fun he => hne (Option.some.inj he)

/-- `head` is still what the peek read: its item is at the front, now or once it is published. -/
theorem PeekInv.peekHead (hs : PeekInv c s h v cells) (hpc : s.thread i = .peekHead retry hd)
    (hhead : s.ring.head = hd) :
    PeekInv c (s.setThread s.ring i (.peekCheck retry hd))
      (h.record c.toPow2 i (.ring .none) s.ring) v cells := by
  refine hs.quiet trivial (by rw [hpc]; exact fun q => Iff.rfl) ?_ False.elim (by rw [hpc]; rfl)
    (by rw [hpc]; rfl) rfl nofun nofun
  have hahead := hs.ring.ahead _ (Nat.mod_lt h.ring.taken c.size_pos)
  refine ⟨h.ring.taken, hhead.symm.trans hs.ring.head, le_rfl, fun hr => ?_, by omega,
    fun ht => by omega⟩
  exact front_record i _ (front_of_ready hs.ring hr)

theorem PeekInv.peekCheck (hs : PeekInv c s h v cells) (hpc : s.thread i = .peekCheck retry hd)
    (hseq : s.ring.seqno (c.cell hd) = hd + 1) :
    PeekInv c (s.setThread s.ring i (.peekCopy hd 0 item))
      (h.record c.toPow2 i (.ring .none) s.ring) v cells := by
  obtain ⟨P, rfl, hready, hfront⟩ := hs.ready_of_check hpc hseq
  have hx := List.getElem?_eq_getElem (hs.ring.ready_lt hready)
  refine hs.quiet trivial (by rw [hpc]; exact fun q => Iff.rfl)
    ⟨P, _, hx, List.mem_append_right _ hfront, ?_, fun m hm => absurd hm (Nat.not_lt_zero m)⟩
    False.elim (by rw [hpc]; rfl) (by rw [hpc]; rfl) rfl nofun nofun
  rw [c.cell_ofNat]
  exact hs.bytes P _ hready hx

theorem PeekInv.peekCopy (hs : PeekInv c s h v cells) (hpc : s.thread i = .peekCopy hd m item)
    (hm : m < n) :
    PeekInv c (s.setThread s.ring i
        (if m + 1 < n then .peekCopy hd (m + 1) (item.setByte m (s.ring.buf (c.cell hd * n + m)))
          else .readerUnlock hd (item.setByte m (s.ring.buf (c.cell hd * n + m)))))
      (h.record c.toPow2 i (.ring .none) s.ring) v cells := by
  obtain ⟨P, x, hx, hP, hst, hread⟩ := hs.peekByte hpc hm
  split_ifs with hlast
  · exact hs.quiet trivial (by rw [hpc]; exact fun q => Iff.rfl)
      ⟨P, x, hx, List.mem_append_right _ hP, hst, hread⟩ False.elim (by rw [hpc]; rfl)
      (by rw [hpc]; rfl) rfl nofun nofun
  · rw [show m + 1 = n by omega] at hread
    rw [hread.eq]
    exact hs.quiet trivial (by rw [hpc]; exact fun q => Iff.rfl)
      ⟨P, hx, List.mem_append_right _ hP⟩ False.elim (by rw [hpc]; rfl) (by rw [hpc]; rfl) rfl
      nofun nofun

/-- `ring_reader_unlock`, with the result or before another round. -/
theorem PeekInv.readerUnlock (hs : PeekInv c s h v cells)
    (hread : (s.thread i).reads c.toPow2 = some (c.cell hd))
    (hidle : (s.thread i).typed = .idle) (hw : (s.thread i).writes c.toPow2 = none)
    (hto : p.Free c (s.setThread (s.ring.readerUnlock (c.cell hd)) i p)
      (h.record c.toPow2 i e (s.ring.readerUnlock (c.cell hd))) v i)
    (he : e = .ring .none ∨ ∃ x, e = .peeked x ∧ ∃ q ∈ h.fronts i, h.ring.claimed[q]? = some x) :
    PeekInv c (s.setThread (s.ring.readerUnlock (c.cell hd)) i p)
      (h.record c.toPow2 i e (s.ring.readerUnlock (c.cell hd))) v cells := by
  obtain ⟨ht, hpast, hpw, hpr, hown⟩ := hto
  have hsame : h.ring.record i e.ringEvent = h.ring := by
    rcases he with rfl | ⟨x, rfl, -⟩ <;> rfl
  refine hs.stay ?_ hown rfl (fun hp => absurd hp hpast) (fun j => ?_) ?_ ?_ ?_
  · rw [hsame]
    refine typed_stay hs rfl rfl rfl ?_ ?_
    · rw [ht]
      trivial
    · rw [ht, hidle]
      exact fun q => Iff.rfl
  · by_cases hj : j = c.cell hd
    · subst hj
      exact (hs.guard _).readerUnlock hread hpr hpw (Function.update_self _ _ _)
    · refine (hs.guard j).other (Function.update_of_ne hj _ _) ?_ ?_ ?_ ?_
      · rw [hw]
        exact nofun
      · rw [hpw]
        exact nofun
      · rw [hread]
        exact fun heq => hj (Option.some.inj heq).symm
      · rw [hpr]
        exact nofun
  · rcases he with rfl | ⟨x, rfl, -⟩ <;> exact nofun
  · rcases he with rfl | ⟨x, rfl, -⟩ <;> exact nofun
  · rintro y rfl
    rcases he with he | ⟨x, he, hx⟩
    · cases he
    · injection he with he
      rw [he]
      exact hx

end peek

/-! ### Runs -/

theorem PeekInv.push_step (hs : PeekInv c s h v cells) (hrecent : RecentRead (s, h) (.run i))
    (hstep : pushStep c.toPow2 s.ring (s.thread i) = some (r, p, e)) :
    ∃ v' cells', PeekInv c (s.setThread r i p) (h.record c.toPow2 i e r) v' cells' := by
  cases hpc : s.thread i with
  | pushLoad x =>
    rw [hpc] at hstep
    cases hstep
    exact ⟨v, cells, hs.pushLoad hpc⟩
  | pushSeq x t =>
    rw [hpc] at hstep
    simp only [pushStep] at hstep
    split_ifs at hstep with hz hmsb <;> cases hstep
    · exact ⟨v, cells, hs.pushSeq hpc hz⟩
    · exact ⟨v, cells, hs.quiet trivial (by rw [hpc]; exact fun q => Iff.rfl) trivial False.elim
        (by rw [hpc]; rfl) (by rw [hpc]; rfl) rfl nofun nofun⟩
    · exact ⟨v, cells, hs.quiet trivial (by rw [hpc]; exact fun q => Iff.rfl) trivial False.elim
        (by rw [hpc]; rfl) (by rw [hpc]; rfl) rfl nofun nofun⟩
  | pushCas x t =>
    rw [hpc] at hstep
    simp only [pushStep] at hstep
    split_ifs at hstep with hcas <;> cases hstep
    · exact ⟨v, cells, hs.pushCas hpc hcas (hrecent (by rw [hpc]; rfl))⟩
    · exact ⟨v, cells, hs.quiet trivial (by rw [hpc]; exact fun q => Iff.rfl) trivial False.elim
        (by rw [hpc]; rfl) (by rw [hpc]; rfl) rfl nofun nofun⟩
  | writerLock x t =>
    have hi : RingThreadOk c h.ring v i (s.thread i).typed := hs.ring.thread i
    rw [hpc] at hi hstep
    simp only [pushStep] at hstep
    split_ifs at hstep with hfree <;> cases hstep
    · exact ⟨v, cells, hs.writerLock hpc hfree⟩
    · exact ⟨v, cells, hs.quiet hi (by rw [hpc]; exact fun q => Iff.rfl) trivial False.elim
        (by rw [hpc]) (by rw [hpc]) rfl nofun nofun⟩
  | pushCopy x t m =>
    rw [hpc] at hstep
    simp only [pushStep] at hstep
    split_ifs at hstep with hm hlast <;> cases hstep
    · exact ⟨v, cells, hs.pushCopy hpc hlast⟩
    · exact ⟨v, _, hs.pushFilled hpc (by omega)⟩
  | writerUnlock x t =>
    rw [hpc] at hstep
    cases hstep
    exact ⟨v, cells, hs.writerUnlock hpc⟩
  | pushPublish x t =>
    rw [hpc] at hstep
    cases hstep
    exact ⟨_, cells, hs.pushPublish hpc⟩
  | _ =>
    rw [hpc] at hstep
    cases hstep

theorem PeekInv.pop_step (hs : PeekInv c s h v cells) (hrecent : RecentRead (s, h) (.run i))
    (hstep : popStep c.toPow2 s.ring (s.thread i) = some (r, p, e)) :
    ∃ v' cells', PeekInv c (s.setThread r i p) (h.record c.toPow2 i e r) v' cells' := by
  cases hpc : s.thread i with
  | popLoad =>
    rw [hpc] at hstep
    cases hstep
    exact ⟨v, cells, hs.popLoad hpc⟩
  | popSeq hd =>
    rw [hpc] at hstep
    simp only [popStep] at hstep
    split_ifs at hstep with hz hmsb <;> cases hstep
    · exact ⟨v, cells, hs.popSeq hpc hz⟩
    · exact ⟨v, cells, hs.quiet trivial (by rw [hpc]; exact fun q => Iff.rfl) trivial False.elim
        (by rw [hpc]; rfl) (by rw [hpc]; rfl) rfl nofun nofun⟩
    · exact ⟨v, cells, hs.quiet ⟨le_rfl, by decide⟩ (by rw [hpc]; exact fun q => Iff.rfl) trivial
        False.elim (by rw [hpc]; rfl) (by rw [hpc]; rfl) rfl nofun nofun⟩
  | popCas hd =>
    rw [hpc] at hstep
    simp only [popStep] at hstep
    split_ifs at hstep with hcas <;> cases hstep
    · exact ⟨v, cells, hs.popCas hpc hcas (hrecent (by rw [hpc]; rfl))⟩
    · exact ⟨v, cells, hs.quiet ⟨le_rfl, by decide⟩ (by rw [hpc]; exact fun q => Iff.rfl) trivial
        False.elim (by rw [hpc]; rfl) (by rw [hpc]; rfl) rfl nofun nofun⟩
  | popCopy hd m item =>
    rw [hpc] at hstep
    simp only [popStep] at hstep
    split_ifs at hstep with hm hlast <;> cases hstep
    · exact ⟨v, cells, hs.popCopy hpc hm⟩
    · exact ⟨v, cells, hs.popCopied hpc (by omega)⟩
  | popRecycle hd item =>
    rw [hpc] at hstep
    cases hstep
    exact ⟨_, cells, hs.popRecycle hpc⟩
  | _ =>
    rw [hpc] at hstep
    cases hstep

theorem PeekInv.peek_step (hs : PeekInv c s h v cells)
    (hstep : peekStep c.toPow2 s.ring (s.thread i) = some (r, p, e)) :
    ∃ v' cells', PeekInv c (s.setThread r i p) (h.record c.toPow2 i e r) v' cells' := by
  cases hpc : s.thread i with
  | peekLoad retry =>
    rw [hpc] at hstep
    cases hstep
    exact ⟨v, cells, hs.search (by rw [hpc]; exact ⟨rfl, id, rfl, rfl, trivial⟩)
      ⟨rfl, id, rfl, rfl, trivial⟩⟩
  | peekSeq retry hd =>
    rw [hpc] at hstep
    simp only [peekStep] at hstep
    split_ifs at hstep <;> cases hstep
    all_goals exact ⟨v, cells, hs.search (by rw [hpc]; exact ⟨rfl, id, rfl, rfl, trivial⟩)
      ⟨rfl, id, rfl, rfl, trivial⟩⟩
  | readerGet retry hd =>
    rw [hpc] at hstep
    cases hstep
    exact ⟨v, cells, hs.search (by rw [hpc]; exact ⟨rfl, id, rfl, rfl, trivial⟩)
      (readerTry_free _ _ _ _)⟩
  | readerCas retry hd readers =>
    have hown := hs.thread i
    rw [hpc] at hown hstep
    simp only [peekStep] at hstep
    split_ifs at hstep with hcas <;> cases hstep
    · exact ⟨v, cells, hs.readerCas hpc hcas⟩
    · exact ⟨v, cells, hs.search (by rw [hpc]; exact ⟨rfl, id, rfl, rfl, hown⟩)
        (readerTry_free _ _ _ _)⟩
  | peekHead retry hd =>
    rw [hpc] at hstep
    simp only [peekStep] at hstep
    split_ifs at hstep with hhead <;> cases hstep
    · exact ⟨v, cells, hs.peekHead hpc hhead⟩
    · exact ⟨v, cells, hs.quiet trivial (by rw [hpc]; exact fun q => Iff.rfl) trivial False.elim
        (by rw [hpc]; rfl) (by rw [hpc]; rfl) rfl nofun nofun⟩
  | peekCheck retry hd =>
    rw [hpc] at hstep
    simp only [peekStep] at hstep
    split_ifs at hstep with hseq <;> cases hstep
    · exact ⟨v, cells, hs.peekCheck hpc hseq⟩
    · exact ⟨v, cells, hs.quiet trivial (by rw [hpc]; exact fun q => Iff.rfl) trivial False.elim
        (by rw [hpc]; rfl) (by rw [hpc]; rfl) rfl nofun nofun⟩
  | peekCopy hd m item =>
    rw [hpc] at hstep
    simp only [peekStep] at hstep
    split_ifs at hstep with hm hlast <;> cases hstep
    · have hnext := hs.peekCopy hpc hm
      rw [if_pos hlast] at hnext
      exact ⟨v, cells, hnext⟩
    · have hnext := hs.peekCopy hpc hm
      rw [if_neg hlast] at hnext
      exact ⟨v, cells, hnext⟩
  | readerUnlock hd item =>
    have hown := hs.thread i
    rw [hpc] at hown hstep
    obtain ⟨P, hx, hP⟩ := hown
    cases hstep
    exact ⟨v, cells, hs.readerUnlock (by rw [hpc]; rfl) (by rw [hpc]; rfl) (by rw [hpc]; rfl)
      ⟨rfl, id, rfl, rfl, trivial⟩ (Or.inr ⟨item, rfl, P, hP, hx⟩)⟩
  | peekRelease retry hd =>
    rw [hpc] at hstep
    cases hstep
    exact ⟨v, cells, hs.readerUnlock (by rw [hpc]; rfl) (by rw [hpc]; rfl) (by rw [hpc]; rfl)
      (peekRetry_free _ _) (Or.inl rfl)⟩
  | _ =>
    rw [hpc] at hstep
    cases hstep

theorem PeekInv.run_step (hs : PeekInv c s h v cells) (hrecent : RecentRead (s, h) (.run i))
    (hstep : queueStep c.toPow2 s.ring (s.thread i) = some (r, p, e)) :
    ∃ v' cells', PeekInv c (s.setThread r i p) (h.record c.toPow2 i e r) v' cells' := by
  rcases Option.or_eq_some_iff.mp hstep with hpush | ⟨-, hrest⟩
  · exact hs.push_step hrecent hpush
  · rcases Option.or_eq_some_iff.mp hrest with hpop | ⟨-, hpeek⟩
    · exact hs.pop_step hrecent hpop
    · exact hs.peek_step hpeek

theorem PeekInv.step (hs : PeekInv c s h v cells) {l : QueueLabel ι n}
    (hrecent : RecentRead (s, h) l) {s' : QueueState ι n}
    (hstep : queueStepAt c.toPow2 s l = some (i, s', e)) :
    ∃ v' cells', PeekInv c s' (h.record c.toPow2 i e s'.ring) v' cells' := by
  cases l with
  | push j x =>
    obtain ⟨p, hp, heq⟩ := Option.map_eq_some_iff.mp hstep
    cases heq
    exact ⟨v, cells, hs.start hp (Or.inr (Or.inr ⟨x, rfl⟩)) (Or.inl rfl)⟩
  | pop j =>
    obtain ⟨p, hp, heq⟩ := Option.map_eq_some_iff.mp hstep
    cases heq
    exact ⟨v, cells, hs.start hp (Or.inl rfl) (Or.inl rfl)⟩
  | peek j =>
    obtain ⟨p, hp, heq⟩ := Option.map_eq_some_iff.mp hstep
    cases heq
    exact ⟨v, cells, hs.start hp (Or.inr (Or.inl rfl)) (Or.inr rfl)⟩
  | run j =>
    obtain ⟨⟨r, p, e'⟩, hp, heq⟩ := Option.map_eq_some_iff.mp hstep
    cases heq
    exact hs.run_step hrecent hp

theorem queueSystem_inv {q : QueueState ι n × QueueHistory ι n}
    (hr : (queueSystem c.toPow2).ReachableWhen RecentRead q) :
    ∃ v cells, PeekInv c q.1 q.2 v cells := by
  refine hr.invariant (P := fun q => ∃ v cells, PeekInv c q.1 q.2 v cells) ?_ ?_
  · rintro _ ⟨buf, rfl⟩
    obtain ⟨v, hring⟩ := ringSystem_inv (c := c) (p := poolRingInit fun _ => (fun _ => 0 : Item n))
      (.init ⟨_, rfl⟩ : (ringSystem (ι := ι) c.toPow2).ReachableWhen RecentLoad _)
    refine ⟨v, fun _ _ => 0, ?_⟩
    refine
      { ring := hring
        bytes := fun q x hq _ => absurd (hring.ready_lt hq) (Nat.not_lt_zero q)
        thread := fun i => trivial
        guard := fun j => Or.inr ⟨fun i => nofun, ∅, rfl, fun i => iff_of_false (by simp) nofun⟩
        fronts := fun i q hq => ?_
        popped := rfl
        popped_once := List.nodup_nil
        popped_item := nofun
        peeked := nofun }
    have hcell : c.cell (0 : BitVec 32) = 0 := by simp [Pow2.cell]
    have hempty : (queueInit buf : QueueState ι n × QueueHistory ι n).1.ring.front c.toPow2 0 = [] := by
      unfold RingShared.front
      rw [if_neg]
      show BitVec.ofNat 32 (c.cell (0 : BitVec 32)) ≠ 0 + 1
      rw [hcell]
      decide
    have hq' : q ∈ (queueInit buf : QueueState ι n × QueueHistory ι n).1.ring.front c.toPow2 0 := hq
    rw [hempty] at hq'
    exact hq'
  · rintro ⟨s, h⟩ l q' ⟨v, cells, hs⟩ hl hstep
    obtain ⟨⟨i, s', e⟩, he, rfl⟩ := Option.map_eq_some_iff.mp hstep
    exact hs.step hl he

/-- Items are popped at most once and unchanged, after their push has published them. A peek that
returns true returns the whole of one item that was at the front during the call. A producer
that finds its slot guarded finds a reader that still holds it. -/
theorem ringQueue_peek_safe (c : RingCap) (s : QueueState ι n) (h : QueueHistory ι n)
    (hr : (queueSystem c.toPow2).ReachableWhen RecentRead (s, h)) :
    (h.popped.map Prod.fst).Nodup ∧
      (∀ d ∈ h.popped, h.ring.claimed[d.1]? = some d.2 ∧ d.1 ∈ h.ring.pushed) ∧
      (∀ d ∈ h.peeked, ∃ p ∈ d.2, h.ring.claimed[p]? = some d.1) ∧
      ∀ i x t, s.thread i = .writerLock x t → s.ring.peekGuard (c.cell t) ≠ 0 →
        ∃ k, (s.thread k).reads c.toPow2 = some (c.cell t) := by
  obtain ⟨v, cells, hs⟩ : ∃ v cells, PeekInv c s h v cells := queueSystem_inv hr
  refine ⟨hs.popped_once, fun d hd => ⟨hs.popped_item d hd, ?_⟩, hs.peeked,
    fun i x t hpc hguard => ?_⟩
  · have hmem : d.1 ∈ h.ring.recycled := by
      rw [← hs.popped]
      exact List.mem_map_of_mem hd
    obtain ⟨y, hy⟩ := hs.ring.recycled_delivered _ hmem
    exact (hs.ring.delivered_taken _ hy).2.2
  · rcases hs.guard (c.cell t) with ⟨-, ⟨k, hk⟩, -⟩ | ⟨-, readers, hcard, hmem⟩
    · -- no other producer is past the guard of this slot
      obtain ⟨t', ht', hj⟩ := writes_won hk
      have heq := won_unique hs.ring (i := i) (t := t) (by rw [hpc]; rfl) ht' hj.symm
      rw [← heq, hpc] at hk
      cases hk
    · obtain ⟨k, hk⟩ := Finset.card_pos.mp (show 0 < readers.card by omega)
      exact ⟨k, (hmem k).mp hk⟩

/-- Two bytes an item. Thread 1 peeks at the first item and has copied one byte when thread 2 pops
that item and thread 0 comes round to its slot, where it waits; then the peek returns. -/
def peekOverlapRun : List (QueueLabel (Fin 3) 2) :=
  .push 0 (fun k => if k = 0 then 7 else 8) :: (List.replicate 8 (.run 0)).append
    (.peek 1 :: (List.replicate 7 (.run 1)).append
      (.pop 2 :: (List.replicate 6 (.run 2)).append
        (.push 0 (fun _ => 5) :: (List.replicate 8 (.run 0)).append
          (.push 0 (fun _ => 6) :: (List.replicate 4 (.run 0)).append [.run 1, .run 1]))))

theorem ringQueue_peek_safe_overlap :
    ∃ s h, (queueSystem ringPairCap.toPow2).execWhen RecentRead (queueInit fun _ => 0)
        peekOverlapRun = some (s, h) ∧
      h.peeked.map (fun d => (d.1 0, d.1 1)) = [(7, 8)] ∧
      ∀ d ∈ h.peeked, ∃ p ∈ d.2, h.ring.claimed[p]? = some d.1 := by
  have hout : ((queueSystem ringPairCap.toPow2).execWhen RecentRead (queueInit fun _ => 0)
      peekOverlapRun).map (fun q => q.2.peeked.map fun d => (d.1 0, d.1 1)) = some [(7, 8)] := by
    decide +kernel
  obtain ⟨⟨s, h⟩, hrun, hpeek⟩ := Option.map_eq_some_iff.mp hout
  have hinit : (queueSystem ringPairCap.toPow2).ReachableWhen RecentRead
      (queueInit fun _ => 0 : QueueState (Fin 3) 2 × QueueHistory (Fin 3) 2) := .init ⟨_, rfl⟩
  exact ⟨s, h, hrun, hpeek, (ringQueue_peek_safe ringPairCap s h (hinit.exec hrun)).2.2.1⟩

end Xplatbase.Queue
