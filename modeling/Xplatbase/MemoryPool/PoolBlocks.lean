import Xplatbase.Lib.BlockScript
import Xplatbase.MemoryPool.PoolBounds
import Xplatbase.MemoryPool.PoolStore

/-! Strings and lists run over an allocator that answers from a script. What the pool does, whatever
its threads do, is what such an allocator does by some script. -/
namespace Xplatbase.MemoryPool
open Xplatbase.Lib Xplatbase.Memory

variable {ι : Type*} [DecidableEq ι]

/-! ### The pool behind a script -/

omit [DecidableEq ι] in
theorem Agrees.bounded {s : MemoryState ι} {b : Contents Ptr UInt8} (h : Agrees s b)
    (huser : InUser s.pool) (p : Ptr) (l : List UInt8) (hp : b p = some l) :
    l.length ≤ maxBlock := by
  have hkept : s.pool.Kept p := by
    by_contra hno
    rw [h.free p hno] at hp
    cases hp
  obtain ⟨r, hr⟩ := hkept.held
  obtain rfl := Option.some.inj ((h.held p hkept).symm.trans hp)
  rw [MemoryState.content, readBytes_length]
  exact h.ok.usable_le huser hr

theorem inUser_step {s t : MemoryState ι} (h : InUser s.pool) {l : MemoryLabel ι}
    (hfit : ∀ i, s.spilling i = none) (hl : Sound s l) (hs : memoryStep s l = some t) :
    InUser t.pool := by
  cases l with
  | call l junk =>
    simp only [memoryStep] at hs
    split_ifs at hs
    obtain ⟨u, hu, rfl⟩ := Option.map_eq_some_iff.mp hs
    exact h.callsStep hl.1 hu
  | spill i r =>
    simp only [memoryStep, MemoryState.spill, hfit i] at hs
    cases hs
  | store p offset byte =>
    simp only [memoryStep] at hs
    split_ifs at hs
    rw [← Option.some.inj hs]
    exact h
  | copy dst dstOffset src size offset =>
    simp only [memoryStep] at hs
    split_ifs at hs
    rw [← Option.some.inj hs]
    exact h
  | append dst src size offset =>
    simp only [memoryStep] at hs
    split_ifs at hs
    rw [← Option.some.inj hs]
    exact h

/-- Whatever the threads of the pool do, the allocator of the strings does by some script: the same
calls come to the same blocks, one at its own place for each, and these hold what the memory of the
pool does. -/
theorem pool_scripted {place : Ptr → ℕ} (hplace : Function.Injective place)
    {s t : MemoryState ι} {es : List (StoreEvent Ptr UInt8)} (hs : (memorySystem ι).init s)
    (hrun : (memorySystem ι).Shows Sound MemoryState.event s es t) :
    ∃ b, Agrees t b ∧ Scripted place (fun _ => none) es b := by
  have hall : ∃ b, Agrees t b ∧ InUser t.pool ∧ Scripted place (fun _ => none) es b := by
    induction hrun with
    | refl =>
      obtain ⟨b, hb, hagrees⟩ := Agrees.start s hs
      obtain ⟨mem, rfl⟩ := hs
      have huser : InUser (memoryNew ι mem).pool := fun _ hx => (List.not_mem_nil hx).elim
      exact ⟨b, hagrees, huser, .refl fun p => (congrFun hb p).symm⟩
    | step l _ hl ht ih =>
      obtain ⟨b, hagrees, huser, hscript⟩ := ih
      obtain ⟨c, hturn, hagrees'⟩ := hagrees.step hl ht
      have huser' := inUser_step huser hagrees.within hl ht
      exact ⟨c, hagrees', huser', hscript.turn hplace hturn (hagrees'.bounded huser')⟩
  obtain ⟨b, hagrees, -, hscript⟩ := hall
  exact ⟨b, hagrees, hscript⟩

end Xplatbase.MemoryPool
