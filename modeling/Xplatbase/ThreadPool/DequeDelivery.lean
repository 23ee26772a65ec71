import Xplatbase.ThreadPool.Deque
import Mathlib.Data.List.Nodup

/-! Exactly-once delivery of the deque. Indices `[lo, hi)` hold the values that no call has
returned yet; a thief may only win index `top` below `stealLimit`, which excludes an index the
owner's take has already settled on without a CAS. -/
namespace Xplatbase.ThreadPool
open Xplatbase.Lib

variable {ι F A : Type*}

namespace DequeState

def lo (s : DequeState ι F A) : ℕ :=
  match s.owner with
  | .takeRestore b (some _) => b
  | _ => s.deque.top

def hi (s : DequeState ι F A) : ℕ :=
  match s.owner with
  | .takeTop b | .takeFn b _ | .takeArg b _ _ | .takeCas b _ | .takeRestore b _ => b + 1
  | _ => s.deque.bottom

def stealLimit (s : DequeState ι F A) : ℕ :=
  match s.owner with
  | .takeFn b t | .takeArg b t _ => if t = b then b + 1 else b
  | _ => s.hi

/-- Index `i` holds a value that no call has returned. -/
def Pending (s : DequeState ι F A) (i : ℕ) : Prop := s.lo ≤ i ∧ i < s.hi

end DequeState

def OwnerOk (cap : Pow2) (d : PoolDeque F A) : DequeOwner F A → Prop
  | .idle => d.top ≤ d.bottom
  | .pushTop _ b | .takeTest b => b = d.bottom ∧ d.top ≤ b
  | .pushFn _ b => b = d.bottom ∧ d.top ≤ b ∧ b < d.top + cap.size
  | .pushArg t b => b = d.bottom ∧ d.top ≤ b ∧ b < d.top + cap.size ∧
      (d.buf (b % cap.size)).fn = t.fn
  | .pushBottom t b => b = d.bottom ∧ d.top ≤ b ∧ b < d.top + cap.size ∧
      d.buf (b % cap.size) = t
  | .takeReserve b => d.bottom = b + 1 ∧ d.top ≤ b + 1
  | .takeTop b => d.bottom = b ∧ d.top ≤ b + 1
  | .takeFn b t => d.bottom = b ∧ t ≤ b ∧ t ≤ d.top ∧ d.top ≤ b + 1 ∧ (t = b ∨ d.top ≤ b)
  | .takeArg b t fn => d.bottom = b ∧ t ≤ b ∧ t ≤ d.top ∧ d.top ≤ b + 1 ∧ (t = b ∨ d.top ≤ b) ∧
      fn = (d.buf (b % cap.size)).fn
  | .takeCas b out => d.bottom = b ∧ b ≤ d.top ∧ d.top ≤ b + 1 ∧ out = d.buf (b % cap.size)
  | .takeRestore b out => d.bottom = b ∧ d.top = b + 1 ∧ ∀ t ∈ out, t = d.buf (b % cap.size)

/-- A thief's reads are only trusted while `top` is still the index it loaded. -/
def ThiefOk (cap : Pow2) (top limit : ℕ) (buf : ℕ → PoolTask F A) : DequeThief F A → Prop
  | .idle => True
  | .loadBottom t => t ≤ top
  | .readFn t => t ≤ top ∧ (t = top → t < limit)
  | .readArg t fn => t ≤ top ∧ (t = top → t < limit ∧ fn = (buf (t % cap.size)).fn)
  | .cas t x => t ≤ top ∧ (t = top → t < limit ∧ x = buf (t % cap.size))

theorem ThiefOk.mono {cap : Pow2} {top top' limit limit' : ℕ} {buf buf' : ℕ → PoolTask F A}
    {p : DequeThief F A} (h : ThiefOk cap top limit buf p) (htop : top ≤ top')
    (hkeep : top' = top → top < limit →
      top < limit' ∧ buf' (top % cap.size) = buf (top % cap.size)) :
    ThiefOk cap top' limit' buf' p := by
  cases p with
  | idle => trivial
  | loadBottom t => exact le_trans h htop
  | readFn t =>
    refine ⟨le_trans h.1 htop, fun ht => ?_⟩
    have hle := h.1
    obtain rfl : t = top := by omega
    exact (hkeep ht.symm (h.2 rfl)).1
  | readArg t fn =>
    refine ⟨le_trans h.1 htop, fun ht => ?_⟩
    have hle := h.1
    obtain rfl : t = top := by omega
    obtain ⟨hl, hb⟩ := hkeep ht.symm (h.2 rfl).1
    exact ⟨hl, hb ▸ (h.2 rfl).2⟩
  | cas t x =>
    refine ⟨le_trans h.1 htop, fun ht => ?_⟩
    have hle := h.1
    obtain rfl : t = top := by omega
    obtain ⟨hl, hb⟩ := hkeep ht.symm (h.2 rfl).1
    exact ⟨hl, hb ▸ (h.2 rfl).2⟩

/-- The history against the indices `P` that still hold a value. -/
structure Ledger (n : ℕ) (P : ℕ → Prop) (buf : ℕ → PoolTask F A) (h : DequeHistory F A) :
    Prop where
  stored : ∀ i, P i → h.pushed[h.pushOf i]? = some (buf (i % n))
  order : ∀ i j, P i → P j → i < j → h.pushOf i < h.pushOf j
  returned_value : ∀ r ∈ h.returned, h.pushed[r.1]? = some r.2
  returned_nodup : (h.returned.map Prod.fst).Nodup
  returned_gone : ∀ r ∈ h.returned, ∀ i, P i → h.pushOf i ≠ r.1
  accounted : ∀ k < h.pushed.length, (∃ r ∈ h.returned, r.1 = k) ∨ ∃ i, P i ∧ h.pushOf i = k
  stolen_lt : ∀ k ∈ h.stolen, ∀ i, P i → k < h.pushOf i
  stolen_bound : ∀ k ∈ h.stolen, k < h.pushed.length
  stolen_order : h.stolen.Pairwise (· > ·)

namespace Ledger

variable {n : ℕ} {P P' : ℕ → Prop} {buf buf' : ℕ → PoolTask F A} {h : DequeHistory F A}

theorem pushOf_lt (hl : Ledger n P buf h) {i : ℕ} (hi : P i) : h.pushOf i < h.pushed.length :=
  (List.getElem?_eq_some_iff.mp (hl.stored i hi)).1

theorem quiet (hl : Ledger n P buf h) (hP : ∀ i, P' i ↔ P i)
    (hbuf : ∀ i, P i → buf' (i % n) = buf (i % n)) : Ledger n P' buf' h := by
  obtain rfl : P' = P := funext fun i => propext (hP i)
  exact { hl with stored := fun i hi => hbuf i hi ▸ hl.stored i hi }

theorem push (hl : Ledger n P buf h) {b : ℕ} (hP : ∀ i, P' i ↔ P i ∨ i = b)
    (hb : ∀ i, P i → i < b) : Ledger n P' buf (h.record (.pushed b (buf (b % n)))) := by
  have hne : ∀ i, P i → Function.update h.pushOf b h.pushed.length i = h.pushOf i := fun i hi =>
    Function.update_of_ne (hb i hi).ne _ _
  have hat : Function.update h.pushOf b h.pushed.length b = h.pushed.length :=
    Function.update_self ..
  have happ : ∀ (k : ℕ) t, h.pushed[k]? = some t → (h.pushed ++ [buf (b % n)])[k]? = some t := by
    intro k t hk
    rw [List.getElem?_append_left (List.getElem?_eq_some_iff.mp hk).1, hk]
  constructor <;> simp only [DequeHistory.record]
  · intro i hi
    rcases (hP i).mp hi with hi | rfl
    · rw [hne i hi]
      exact happ _ _ (hl.stored i hi)
    · rw [hat]
      simp
  · intro i j hi hj hij
    rcases (hP i).mp hi with hi | rfl <;> rcases (hP j).mp hj with hj | rfl
    · rw [hne i hi, hne j hj]
      exact hl.order i j hi hj hij
    · rw [hne i hi, hat]
      exact hl.pushOf_lt hi
    · have := hb j hj
      omega
    · omega
  · exact fun r hr => happ _ _ (hl.returned_value r hr)
  · exact hl.returned_nodup
  · intro r hr i hi
    rcases (hP i).mp hi with hi | rfl
    · rw [hne i hi]
      exact hl.returned_gone r hr i hi
    · rw [hat]
      exact ((List.getElem?_eq_some_iff.mp (hl.returned_value r hr)).1).ne'
  · intro k hk
    rw [List.length_append, List.length_singleton] at hk
    rcases Nat.lt_succ_iff_lt_or_eq.mp hk with hk | rfl
    · rcases hl.accounted k hk with hr | ⟨i, hi, rfl⟩
      · exact .inl hr
      · exact .inr ⟨i, (hP i).mpr (.inl hi), hne i hi⟩
    · exact .inr ⟨b, (hP b).mpr (.inr rfl), hat⟩
  · intro k hk i hi
    rcases (hP i).mp hi with hi | rfl
    · rw [hne i hi]
      exact hl.stolen_lt k hk i hi
    · rw [hat]
      exact hl.stolen_bound k hk
  · intro k hk
    have := hl.stolen_bound k hk
    simp only [List.length_append, List.length_singleton]
    omega
  · exact hl.stolen_order

/-- Returning index `b` to the owner. -/
theorem take (hl : Ledger n P buf h) {b : ℕ} (hb : P b) (hP : ∀ i, P' i ↔ P i ∧ i ≠ b) :
    Ledger n P' buf (h.record (.took b (buf (b % n)))) := by
  have hinj : ∀ i, P i → i ≠ b → h.pushOf i ≠ h.pushOf b := by
    intro i hi hne
    rcases Nat.lt_or_gt_of_ne hne with hlt | hgt
    · exact (hl.order i b hi hb hlt).ne
    · exact (hl.order b i hb hi hgt).ne'
  constructor <;> simp only [DequeHistory.record]
  · exact fun i hi => hl.stored i ((hP i).mp hi).1
  · exact fun i j hi hj => hl.order i j ((hP i).mp hi).1 ((hP j).mp hj).1
  · intro r hr
    rcases List.mem_cons.mp hr with rfl | hr
    · exact hl.stored b hb
    · exact hl.returned_value r hr
  · refine List.nodup_cons.mpr ⟨fun hmem => ?_, hl.returned_nodup⟩
    obtain ⟨r, hr, heq⟩ := List.mem_map.mp hmem
    exact hl.returned_gone r hr b hb heq.symm
  · intro r hr i hi
    obtain ⟨hi, hne⟩ := (hP i).mp hi
    rcases List.mem_cons.mp hr with rfl | hr
    · exact hinj i hi hne
    · exact hl.returned_gone r hr i hi
  · intro k hk
    rcases hl.accounted k hk with ⟨r, hr, rfl⟩ | ⟨i, hi, rfl⟩
    · exact .inl ⟨r, List.mem_cons_of_mem _ hr, rfl⟩
    · by_cases hib : i = b
      · exact .inl ⟨_, List.mem_cons_self, by rw [hib]⟩
      · exact .inr ⟨i, (hP i).mpr ⟨hi, hib⟩, rfl⟩
  · exact fun k hk i hi => hl.stolen_lt k hk i ((hP i).mp hi).1
  · exact hl.stolen_bound
  · exact hl.stolen_order

/-- Returning the lowest index to a thief: a take that also extends `stolen`. -/
theorem steal (hl : Ledger n P buf h) {t : ℕ} (ht : P t) (hP : ∀ i, P' i ↔ P i ∧ i ≠ t)
    (hmin : ∀ i, P i → t ≤ i) : Ledger n P' buf (h.record (.stole t (buf (t % n)))) := by
  have hk := hl.take ht hP
  refine ⟨hk.stored, hk.order, hk.returned_value, hk.returned_nodup, hk.returned_gone,
    hk.accounted, ?_, ?_, ?_⟩ <;> simp only [DequeHistory.record]
  · intro k hk i hi
    obtain ⟨hi, hne⟩ := (hP i).mp hi
    rcases List.mem_cons.mp hk with rfl | hk
    · exact hl.order t i ht hi (lt_of_le_of_ne (hmin i hi) hne.symm)
    · exact hl.stolen_lt k hk i hi
  · intro k hk
    rcases List.mem_cons.mp hk with rfl | hk
    · exact hl.pushOf_lt ht
    · exact hl.stolen_bound k hk
  · exact List.pairwise_cons.mpr ⟨fun k hk => hl.stolen_lt k hk t ht, hl.stolen_order⟩

end Ledger

structure DequeInv (cap : Pow2) (s : DequeState ι F A) (h : DequeHistory F A) : Prop where
  owner : OwnerOk cap s.deque s.owner
  room : s.hi ≤ s.deque.top + cap.size
  thief : ∀ i, ThiefOk cap s.deque.top s.stealLimit s.deque.buf (s.thief i)
  ledger : Ledger cap.size s.Pending s.deque.buf h

/-- A store into slot `b` leaves the slots of the indices `[top, b)` alone. -/
theorem slot_ne {n top b i : ℕ} (hroom : b < top + n) (hi : top ≤ i) (hib : i < b) :
    i % n ≠ b % n := fun h => by
  have := slot_inj h (by omega) (by omega)
  omega

/-- Rebuilds the invariant after an owner step that returns nothing to the caller. -/
theorem DequeInv.quiet {cap : Pow2} {s : DequeState ι F A} {h : DequeHistory F A}
    (hs : DequeInv cap s h) {d : PoolDeque F A} {o : DequeOwner F A}
    (howner : OwnerOk cap d o) (htop : s.deque.top ≤ d.top)
    (hlo : DequeState.lo { s with deque := d, owner := o } = s.lo)
    (hhi : DequeState.hi { s with deque := d, owner := o } = s.hi)
    (hbuf : ∀ i, s.Pending i → d.buf (i % cap.size) = s.deque.buf (i % cap.size))
    (hkeep : d.top = s.deque.top → s.deque.top < s.stealLimit →
      s.deque.top < DequeState.stealLimit { s with deque := d, owner := o } ∧
        s.Pending s.deque.top) :
    DequeInv cap { s with deque := d, owner := o } h where
  owner := howner
  room := by
    have := hs.room
    rw [hhi]
    exact le_trans this (by simpa using htop)
  thief i := (hs.thief i).mono htop fun ht hlt =>
    ⟨(hkeep ht hlt).1, hbuf _ (hkeep ht hlt).2⟩
  ledger := hs.ledger.quiet (fun i => by rw [DequeState.Pending, hlo, hhi]; rfl) hbuf

theorem DequeInv.owner_step {cap : Pow2} {s : DequeState ι F A} {h : DequeHistory F A}
    (hs : DequeInv cap s h) {d : PoolDeque F A} {o : DequeOwner F A} {e : DequeEvent F A}
    (hstep : dequeOwnerStep cap s.deque s.owner = some (d, o, e)) :
    DequeInv cap { s with deque := d, owner := o } (h.record e) := by
  obtain ⟨dq, ow, th⟩ := s
  have how : OwnerOk cap dq ow := hs.owner
  have hroom := hs.room
  have hled := hs.ledger
  cases ow with
  | idle => simp [dequeOwnerStep] at hstep
  | pushTop t b =>
    obtain ⟨rfl, hle⟩ := how
    simp only [dequeOwnerStep] at hstep
    split_ifs at hstep with hfull <;> simp only [Option.some.injEq, Prod.mk.injEq] at hstep <;>
      obtain ⟨rfl, rfl, rfl⟩ := hstep
    · exact hs.quiet hle le_rfl rfl rfl (fun _ _ => rfl) fun _ hlt => ⟨hlt, le_rfl, hlt⟩
    · exact hs.quiet ⟨rfl, hle, by omega⟩ le_rfl rfl rfl (fun _ _ => rfl)
        fun _ hlt => ⟨hlt, le_rfl, hlt⟩
  | pushFn t b =>
    obtain ⟨rfl, hle, hlt⟩ := how
    simp only [dequeOwnerStep, Option.some.injEq, Prod.mk.injEq] at hstep
    obtain ⟨rfl, rfl, rfl⟩ := hstep
    refine hs.quiet ⟨rfl, hle, hlt, ?_⟩ le_rfl rfl rfl ?_ fun _ hlt => ⟨hlt, le_rfl, hlt⟩
    · simp [PoolDeque.setFn]
    · intro i hi
      simp [PoolDeque.setFn, Function.update_of_ne (slot_ne hlt hi.1 hi.2)]
  | pushArg t b =>
    obtain ⟨rfl, hle, hlt, hfn⟩ := how
    simp only [dequeOwnerStep, Option.some.injEq, Prod.mk.injEq] at hstep
    obtain ⟨rfl, rfl, rfl⟩ := hstep
    refine hs.quiet ⟨rfl, hle, hlt, ?_⟩ le_rfl rfl rfl ?_ fun _ hlt => ⟨hlt, le_rfl, hlt⟩
    · simp [PoolDeque.setArg, hfn]
    · intro i hi
      simp [PoolDeque.setArg, Function.update_of_ne (slot_ne hlt hi.1 hi.2)]
  | pushBottom t b =>
    obtain ⟨rfl, hle, hlt, rfl⟩ := how
    simp only [dequeOwnerStep, Option.some.injEq, Prod.mk.injEq] at hstep
    obtain ⟨rfl, rfl, rfl⟩ := hstep
    refine ⟨Nat.le_succ_of_le hle, Nat.succ_le_of_lt hlt, fun i => ?_, ?_⟩
    · exact (hs.thief i).mono le_rfl fun _ hlt => ⟨Nat.lt_succ_of_lt hlt, rfl⟩
    · refine hled.push (fun i => ?_) fun i hi => hi.2
      simp only [DequeState.Pending, DequeState.lo, DequeState.hi]
      omega
  | takeTest b =>
    obtain ⟨rfl, hle⟩ := how
    simp only [dequeOwnerStep] at hstep
    split_ifs at hstep with hempty <;> simp only [Option.some.injEq, Prod.mk.injEq] at hstep <;>
      obtain ⟨rfl, rfl, rfl⟩ := hstep
    · exact hs.quiet hle le_rfl rfl rfl (fun _ _ => rfl) fun _ hlt => ⟨hlt, le_rfl, hlt⟩
    · exact hs.quiet ⟨by omega, by omega⟩ le_rfl rfl rfl (fun _ _ => rfl)
        fun _ hlt => ⟨hlt, le_rfl, hlt⟩
  | takeReserve b =>
    obtain ⟨hb, hle⟩ := how
    simp only [dequeOwnerStep, Option.some.injEq, Prod.mk.injEq] at hstep
    obtain ⟨rfl, rfl, rfl⟩ := hstep
    refine hs.quiet ⟨rfl, hle⟩ le_rfl rfl hb.symm (fun _ _ => rfl) fun _ hlt => ?_
    have hlt' : dq.top < dq.bottom := hlt
    exact ⟨show dq.top < b + 1 by omega, le_rfl, hlt'⟩
  | takeTop b =>
    obtain ⟨hb, hle⟩ := how
    simp only [dequeOwnerStep] at hstep
    split_ifs at hstep with htb <;> simp only [Option.some.injEq, Prod.mk.injEq] at hstep <;>
      obtain ⟨rfl, rfl, rfl⟩ := hstep
    · refine hs.quiet ⟨hb, htb, le_rfl, hle, .inr htb⟩ le_rfl rfl rfl (fun _ _ => rfl)
        fun _ hlt => ⟨?_, le_rfl, hlt⟩
      simp only [DequeState.stealLimit]
      split_ifs <;> omega
    · exact hs.quiet ⟨hb, by omega, by simp⟩ le_rfl rfl rfl (fun _ _ => rfl)
        fun _ hlt => ⟨hlt, le_rfl, hlt⟩
  | takeFn b t =>
    obtain ⟨hb, htb, htt, hle, hc⟩ := how
    simp only [dequeOwnerStep, Option.some.injEq, Prod.mk.injEq] at hstep
    obtain ⟨rfl, rfl, rfl⟩ := hstep
    refine hs.quiet ⟨hb, htb, htt, hle, hc, by simp⟩ le_rfl rfl rfl (fun _ _ => rfl)
      fun _ hlt => ⟨hlt, le_rfl, ?_⟩
    simp only [DequeState.stealLimit] at hlt
    simp only [DequeState.hi]
    split_ifs at hlt <;> omega
  | takeArg b t fn =>
    obtain ⟨hb, htb, htt, hle, hc, rfl⟩ := how
    simp only [dequeOwnerStep, Pow2.and_mask] at hstep
    split_ifs at hstep with heq <;> simp only [Option.some.injEq, Prod.mk.injEq] at hstep <;>
      obtain ⟨rfl, rfl, rfl⟩ := hstep
    · subst heq
      refine hs.quiet ⟨hb, htt, hle, rfl⟩ le_rfl rfl rfl (fun _ _ => rfl) fun _ hlt => ?_
      simpa [DequeState.stealLimit, DequeState.Pending, DequeState.lo, DequeState.hi] using hlt
    · have hbot : dq.top ≤ b := hc.resolve_left heq
      refine ⟨hb ▸ hbot, ?_, fun i => ?_, ?_⟩
      · have : b + 1 ≤ dq.top + cap.size := hroom
        simp only [DequeState.hi]
        omega
      · refine (hs.thief i).mono le_rfl fun _ hlt => ⟨?_, rfl⟩
        simpa [DequeState.stealLimit, heq, DequeState.hi, hb] using hlt
      · refine hled.take (b := b) ⟨hbot, Nat.lt_succ_self b⟩ fun i => ?_
        simp only [DequeState.Pending, DequeState.lo, DequeState.hi]
        omega
  | takeCas b out =>
    obtain ⟨hb, hbt, hle, rfl⟩ := how
    simp only [dequeOwnerStep] at hstep
    split_ifs at hstep with heq <;> simp only [Option.some.injEq, Prod.mk.injEq] at hstep <;>
      obtain ⟨rfl, rfl, rfl⟩ := hstep
    · exact hs.quiet ⟨hb, rfl, by simp⟩ (by simp [heq]) heq.symm rfl (fun _ _ => rfl)
        fun ht => by simp only [heq] at ht; omega
    · refine hs.quiet ⟨hb, by omega, by simp⟩ le_rfl rfl rfl (fun _ _ => rfl)
        fun _ hlt => ⟨hlt, le_rfl, hlt⟩
  | takeRestore b out =>
    obtain ⟨hb, htop, hout⟩ := how
    simp only [dequeOwnerStep, Option.some.injEq, Prod.mk.injEq] at hstep
    obtain ⟨rfl, rfl, rfl⟩ := hstep
    have hthief : ∀ i, ThiefOk cap dq.top (b + 1) dq.buf (th i) := hs.thief
    cases out with
    | none => exact ⟨htop.le, hroom, hthief, hled.quiet (fun _ => Iff.rfl) fun _ _ => rfl⟩
    | some t =>
      obtain rfl := hout t rfl
      refine ⟨htop.le, hroom, hthief, ?_⟩
      refine hled.take (b := b) ⟨le_rfl, Nat.lt_succ_self b⟩ fun i => ?_
      simp only [DequeState.Pending, DequeState.lo, DequeState.hi]
      omega

theorem DequeInv.bottom_le_stealLimit {cap : Pow2} {s : DequeState ι F A}
    {h : DequeHistory F A} (hs : DequeInv cap s h) : s.deque.bottom ≤ s.stealLimit := by
  obtain ⟨dq, ow, th⟩ := s
  have how : OwnerOk cap dq ow := hs.owner
  cases ow <;> simp only [OwnerOk, DequeState.stealLimit, DequeState.hi] at how ⊢ <;>
    first | exact le_rfl | omega | (split_ifs <;> omega)

/-- A thief's CAS on `top` below the steal limit breaks nothing the owner knows, and takes the
lowest pending index. -/
theorem DequeInv.steal {cap : Pow2} {s : DequeState ι F A} {h : DequeHistory F A}
    (hs : DequeInv cap s h) (hlt : s.deque.top < s.stealLimit) :
    DequeInv cap { s with deque := { s.deque with top := s.deque.top + 1 } }
      (h.record (.stole s.deque.top (s.deque.buf (s.deque.top % cap.size)))) := by
  obtain ⟨dq, ow, th⟩ := s
  have how : OwnerOk cap dq ow := hs.owner
  have hroom := hs.room
  refine ⟨?_, le_trans hroom (by simp only; omega), fun i => ?_, ?_⟩
  · cases ow <;> simp only [OwnerOk, DequeState.stealLimit, DequeState.hi] at how hlt ⊢ <;>
      first
      | omega
      | exact ⟨how.1, by omega⟩
      | exact ⟨how.1, by omega, by omega⟩
      | exact ⟨how.1, by omega, by omega, how.2.2.2⟩
      | (split_ifs at hlt <;> omega)
      | (split_ifs at hlt <;> exact ⟨how.1, by omega, by omega, by omega, by omega, how.2.2.2.2.2⟩)
  · exact (hs.thief i).mono (Nat.le_succ _) fun ht => by simp at ht
  · refine hs.ledger.steal (t := dq.top) ?_ (fun i => ?_) fun i hi => ?_
    all_goals
      cases ow with
      | takeRestore b out =>
        obtain ⟨-, htop, -⟩ := how
        simp only [DequeState.stealLimit, DequeState.hi] at hlt
        omega
      | _ =>
        simp only [OwnerOk, DequeState.stealLimit, DequeState.hi, DequeState.Pending,
          DequeState.lo] at *
        first | omega | (split_ifs at hlt <;> omega)

theorem DequeInv.thief_step [DecidableEq ι] {cap : Pow2} {s : DequeState ι F A}
    {h : DequeHistory F A} (hs : DequeInv cap s h) {i : ι} {d : PoolDeque F A}
    {p : DequeThief F A} {e : DequeEvent F A}
    (hstep : dequeThiefStep cap s.deque (s.thief i) = some (d, p, e)) :
    DequeInv cap { s with deque := d, thief := Function.update s.thief i p } (h.record e) := by
  have hi := hs.thief i
  -- replacing one thief's position keeps the rest of the invariant
  have hset : ∀ {s' : DequeState ι F A} {h' : DequeHistory F A}, DequeInv cap s' h' →
      ThiefOk cap s'.deque.top s'.stealLimit s'.deque.buf p →
      DequeInv cap { s' with thief := Function.update s'.thief i p } h' := by
    intro s' h' hs' hp
    refine ⟨hs'.owner, hs'.room, fun j => ?_, hs'.ledger⟩
    by_cases hj : j = i
    · subst hj
      simp only [Function.update_self]
      exact hp
    · simp only [Function.update_of_ne hj]
      exact hs'.thief j
  cases hpc : s.thief i with
  | idle => simp [hpc, dequeThiefStep] at hstep
  | loadBottom t =>
    rw [hpc] at hi hstep
    simp only [dequeThiefStep] at hstep
    split_ifs at hstep with hb <;> simp only [Option.some.injEq, Prod.mk.injEq] at hstep <;>
      obtain ⟨rfl, rfl, rfl⟩ := hstep
    · exact hset hs ⟨hi, fun _ => lt_of_lt_of_le hb hs.bottom_le_stealLimit⟩
    · exact hset hs trivial
  | readFn t =>
    rw [hpc] at hi hstep
    simp only [dequeThiefStep, Pow2.and_mask, Option.some.injEq, Prod.mk.injEq] at hstep
    obtain ⟨rfl, rfl, rfl⟩ := hstep
    exact hset hs ⟨hi.1, fun ht => ⟨hi.2 ht, rfl⟩⟩
  | readArg t fn =>
    rw [hpc] at hi hstep
    simp only [dequeThiefStep, Pow2.and_mask, Option.some.injEq, Prod.mk.injEq] at hstep
    obtain ⟨rfl, rfl, rfl⟩ := hstep
    exact hset hs ⟨hi.1, fun ht => ⟨(hi.2 ht).1, by rw [(hi.2 ht).2]⟩⟩
  | cas t x =>
    rw [hpc] at hi hstep
    simp only [dequeThiefStep] at hstep
    split_ifs at hstep with htop <;> simp only [Option.some.injEq, Prod.mk.injEq] at hstep <;>
      obtain ⟨rfl, rfl, rfl⟩ := hstep
    · subst htop
      obtain ⟨hlt, rfl⟩ := hi.2 rfl
      exact hset (hs.steal hlt) trivial
    · exact hset hs trivial

theorem DequeInv.step [DecidableEq ι] {cap : Pow2} {s s' : DequeState ι F A}
    {h : DequeHistory F A} (hs : DequeInv cap s h) {l : DequeLabel ι F A} {e : DequeEvent F A}
    (hstep : dequeStep cap s l = some (s', e)) : DequeInv cap s' (h.record e) := by
  cases l with
  | push t =>
    cases ho : s.owner <;> simp only [dequeStep, ho, Option.some.injEq, Prod.mk.injEq,
      reduceCtorEq] at hstep
    obtain ⟨rfl, rfl⟩ := hstep
    obtain ⟨dq, ow, th⟩ := s
    subst ho
    exact hs.quiet ⟨rfl, hs.owner⟩ le_rfl rfl rfl (fun _ _ => rfl) fun _ hlt => ⟨hlt, le_rfl, hlt⟩
  | take =>
    cases ho : s.owner <;> simp only [dequeStep, ho, Option.some.injEq, Prod.mk.injEq,
      reduceCtorEq] at hstep
    obtain ⟨rfl, rfl⟩ := hstep
    obtain ⟨dq, ow, th⟩ := s
    subst ho
    exact hs.quiet ⟨rfl, hs.owner⟩ le_rfl rfl rfl (fun _ _ => rfl) fun _ hlt => ⟨hlt, le_rfl, hlt⟩
  | owner =>
    obtain ⟨⟨d, o, e'⟩, hd, heq⟩ := Option.map_eq_some_iff.mp hstep
    obtain ⟨rfl, rfl⟩ := Prod.mk.inj heq
    exact hs.owner_step hd
  | steal i =>
    cases ht : s.thief i <;> simp only [dequeStep, ht, Option.some.injEq, Prod.mk.injEq,
      reduceCtorEq] at hstep
    obtain ⟨rfl, rfl⟩ := hstep
    refine ⟨hs.owner, hs.room, fun j => ?_, hs.ledger⟩
    by_cases hj : j = i
    · subst hj
      simp only [Function.update_self]
      exact le_refl s.deque.top
    · simp only [Function.update_of_ne hj]
      exact hs.thief j
  | thief i =>
    obtain ⟨⟨d, p, e'⟩, hd, heq⟩ := Option.map_eq_some_iff.mp hstep
    obtain ⟨rfl, rfl⟩ := Prod.mk.inj heq
    exact hs.thief_step hd

theorem dequeSystem_inv [DecidableEq ι] {cap : Pow2} {p : DequeState ι F A × DequeHistory F A}
    (hr : (dequeSystem cap).Reachable p) : DequeInv cap p.1 p.2 := by
  refine hr.invariant (P := fun p => DequeInv cap p.1 p.2) ?_ ?_
  · rintro _ ⟨buf, rfl⟩
    refine ⟨le_rfl, Nat.zero_le _, fun _ => trivial, ?_⟩
    have hnone : ∀ i, ¬ (@poolDequeInit ι F A buf).1.Pending i := fun i hi =>
      absurd hi.2 (Nat.not_lt_zero i)
    constructor <;> simp [poolDequeInit] <;> intro i <;> simp [poolDequeInit] at hnone
    · exact fun hi => absurd hi (hnone i)
    · exact fun j hi => absurd hi (hnone i)
  · rintro ⟨s, h⟩ l p' hs hstep
    obtain ⟨⟨s', e⟩, he, rfl⟩ := Option.map_eq_some_iff.mp hstep
    exact DequeInv.step hs he

/-- Values leave the deque through the returning steps: a take gets the newest one that nobody
has returned, an empty answer is given with nothing pending, and a full answer is given at the
load of `top`, with `cap` indices in use. -/
theorem DequeInv.answers [DecidableEq ι] {cap : Pow2} {s s' : DequeState ι F A}
    {h : DequeHistory F A} (hs : DequeInv cap s h) {l : DequeLabel ι F A} {e : DequeEvent F A}
    (hstep : dequeStep cap s l = some (s', e)) :
    (∀ b t, e = .took b t → s.Pending b ∧ ∀ i, s.Pending i → i ≤ b) ∧
      (e = .takeEmpty → ∀ i, ¬ s.Pending i) ∧
      (e = .pushFull → s.deque.bottom = s.deque.top + cap.size) := by
  have hroom := hs.room
  have how := hs.owner
  cases l with
  | owner =>
    obtain ⟨⟨d, o, e'⟩, hd, heq⟩ := Option.map_eq_some_iff.mp hstep
    obtain ⟨rfl, rfl⟩ := Prod.mk.inj heq
    obtain ⟨dq, ow, th⟩ := s
    cases ow with
    | takeRestore b out =>
      obtain ⟨-, htop, -⟩ := how
      cases out <;> simp only [dequeOwnerStep, Option.some.injEq, Prod.mk.injEq] at hd <;>
        obtain ⟨rfl, rfl, rfl⟩ := hd
      · refine ⟨nofun, fun _ i hi => ?_, nofun⟩
        simp only [DequeState.Pending, DequeState.lo, DequeState.hi] at hi htop
        omega
      · refine ⟨fun b' t he => ?_, nofun, nofun⟩
        obtain ⟨rfl, rfl⟩ := DequeEvent.took.inj he
        exact ⟨⟨le_rfl, Nat.lt_succ_self _⟩, fun i hi => Nat.lt_succ_iff.mp hi.2⟩
    | _ =>
      simp only [dequeOwnerStep, reduceCtorEq] at hd
      try split_ifs at hd
      all_goals
        simp only [Option.some.injEq, Prod.mk.injEq] at hd
        obtain ⟨rfl, rfl, rfl⟩ := hd
        simp only [OwnerOk, DequeState.Pending, DequeState.lo, DequeState.hi] at how hroom ⊢
        refine ⟨fun b t he => ⟨?_, fun i hi => ?_⟩, fun he i hi => ?_, fun he => ?_⟩ <;>
          cases he <;> omega
  | thief i =>
    obtain ⟨⟨d, p, e'⟩, hd, heq⟩ := Option.map_eq_some_iff.mp hstep
    obtain ⟨rfl, rfl⟩ := Prod.mk.inj heq
    cases ht : s.thief i <;> simp only [ht, dequeThiefStep, reduceCtorEq] at hd <;>
      try split_ifs at hd
    all_goals
      simp only [Option.some.injEq, Prod.mk.injEq] at hd
      obtain ⟨rfl, rfl, rfl⟩ := hd
      exact ⟨nofun, nofun, nofun⟩
  | push t =>
    cases ho : s.owner <;> simp only [dequeStep, ho, Option.some.injEq, Prod.mk.injEq,
      reduceCtorEq] at hstep
    obtain ⟨rfl, rfl⟩ := hstep
    exact ⟨nofun, nofun, nofun⟩
  | take =>
    cases ho : s.owner <;> simp only [dequeStep, ho, Option.some.injEq, Prod.mk.injEq,
      reduceCtorEq] at hstep
    obtain ⟨rfl, rfl⟩ := hstep
    exact ⟨nofun, nofun, nofun⟩
  | steal i =>
    cases ht : s.thief i <;> simp only [dequeStep, ht, Option.some.injEq, Prod.mk.injEq,
      reduceCtorEq] at hstep
    obtain ⟨rfl, rfl⟩ := hstep
    exact ⟨nofun, nofun, nofun⟩

/-- Every value whose push succeeded is returned at most once and with its own value, or is
still pending in its slot; steals return in push order, a take returns the newest pending push,
and neither answer "empty" nor answer "full" is ever wrong. -/
theorem poolDeque_delivers_once [DecidableEq ι] (cap : Pow2) (s : DequeState ι F A)
    (h : DequeHistory F A) (hr : (dequeSystem cap).Reachable (s, h)) :
    (h.returned.map Prod.fst).Nodup ∧
      (∀ r ∈ h.returned, h.pushed[r.1]? = some r.2 ∧ ∀ i, s.Pending i → h.pushOf i ≠ r.1) ∧
      (∀ k < h.pushed.length, (∀ r ∈ h.returned, r.1 ≠ k) → ∃! i, s.Pending i ∧
        h.pushOf i = k ∧ h.pushed[k]? = some (s.deque.buf (i &&& cap.mask))) ∧
      (s.owner = .idle → ∀ i, s.Pending i ↔ s.deque.top ≤ i ∧ i < s.deque.bottom) ∧
      h.stolen.Pairwise (· > ·) ∧
      ∀ l s' e, dequeStep cap s l = some (s', e) →
        (∀ b t, e = .took b t → s.Pending b ∧ h.pushed[h.pushOf b]? = some t ∧
          ∀ k < h.pushed.length, (∀ r ∈ h.returned, r.1 ≠ k) → k ≤ h.pushOf b) ∧
        (e = .takeEmpty → ∀ i, ¬ s.Pending i) ∧
        (e = .pushFull → s.deque.bottom = s.deque.top + cap.size) := by
  have hs : DequeInv cap s h := dequeSystem_inv hr
  have hl := hs.ledger
  have hstay : ∀ k < h.pushed.length, (∀ r ∈ h.returned, r.1 ≠ k) →
      ∃ i, s.Pending i ∧ h.pushOf i = k := by
    intro k hk hnot
    rcases hl.accounted k hk with ⟨r, hr, he⟩ | hi
    · exact absurd he (hnot r hr)
    · exact hi
  refine ⟨hl.returned_nodup, fun r hr => ⟨hl.returned_value r hr, hl.returned_gone r hr⟩,
    fun k hk hnot => ?_, fun ho i => ?_, hl.stolen_order, fun l s' e hstep => ?_⟩
  · obtain ⟨i, hi, rfl⟩ := hstay k hk hnot
    refine ⟨i, ⟨hi, rfl, by rw [Pow2.and_mask]; exact hl.stored i hi⟩, ?_⟩
    rintro j ⟨hj, heq, -⟩
    rcases Nat.lt_trichotomy i j with hlt | heq' | hgt
    · exact absurd heq (hl.order i j hi hj hlt).ne'
    · exact heq'.symm
    · exact absurd heq (hl.order j i hj hi hgt).ne
  · simp only [DequeState.Pending, DequeState.lo, DequeState.hi, ho]
  · obtain ⟨htook, hempty, hfull⟩ := hs.answers hstep
    refine ⟨fun b t he => ?_, hempty, hfull⟩
    subst he
    obtain ⟨hb, hmax⟩ := htook b t rfl
    refine ⟨hb, (hs.step hstep).ledger.returned_value _ List.mem_cons_self, fun k hk hnot => ?_⟩
    obtain ⟨i, hi, rfl⟩ := hstay k hk hnot
    rcases (hmax i hi).lt_or_eq with hlt | rfl
    · exact (hl.order i b hi hb hlt).le
    · exact le_rfl

def dequePairRun : List (DequeLabel Unit ℕ ℕ) :=
  [.push ⟨1, 2⟩] ++ List.replicate 4 .owner ++ [.push ⟨3, 4⟩] ++ List.replicate 4 .owner ++
    [.steal ()] ++ List.replicate 4 (.thief ()) ++ [.take] ++ List.replicate 7 .owner

theorem poolDeque_delivers_once_pair :
    ∃ s h, (dequeSystem ⟨1⟩).exec (poolDequeInit fun _ => ⟨0, 0⟩) dequePairRun = some (s, h) ∧
      h.returned = [(1, ⟨3, 4⟩), (0, ⟨1, 2⟩)] ∧ (h.returned.map Prod.fst).Nodup := by
  have hinit : (@dequeSystem Unit ℕ ℕ _ ⟨1⟩).Reachable (poolDequeInit fun _ => ⟨0, 0⟩) :=
    .init ⟨_, rfl⟩
  have hrun : (dequeSystem ⟨1⟩).exec (poolDequeInit fun _ => ⟨0, 0⟩) dequePairRun =
    some (_, _) := rfl
  exact ⟨_, _, hrun, rfl, (poolDeque_delivers_once ⟨1⟩ _ _ (hinit.exec hrun)).1⟩

end Xplatbase.ThreadPool
