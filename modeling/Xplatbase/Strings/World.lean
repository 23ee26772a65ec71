import Xplatbase.Lib.Blocks

/-! The state the string, list and buffer operations share: the memory they allocate, the structs
they work on, and the error events they raise. An operation runs to a new world or to the fault
it commits. -/
namespace Xplatbase.Strings
open Xplatbase.Lib

/-- Where an error comes from; the library passes a null pointer. -/
structure CallContextGlobalEvent where
  func : String
  file : String
  line : ℕ

/-- `g_error_handler`: the library's own, or one of the application that returns. -/
inductive ErrorHandler
  | default
  | application
  deriving DecidableEq

structure StringX where
  active : Bool
  max : ℕ
  length : ℕ
  content : Option ℕ
  deriving DecidableEq

/-- `items` is the address of the vector of pointers. -/
structure ListX where
  active : Bool
  typeSize : ℕ
  max : ℕ
  count : ℕ
  items : Option ℕ
  deriving DecidableEq

/-- `blocks` holds bytes, `items` the vectors of lists. A pointer argument is the address of its
object here, and no object stands for NULL. `stale` is what reading a block of bytes after its
release yields. -/
structure World where
  blocks : Blocks UInt8
  items : Blocks ℕ
  str : ℕ → Option StringX
  list : ℕ → Option ListX
  stale : ℕ → ℕ → UInt8
  handler : ErrorHandler
  reports : List (String × List ℕ)

abbrev Run (α : Type) := Except CFault α

theorem bind_ok {α β : Type} {r : Run α} {f : α → Run β} {v : β} (h : r >>= f = .ok v) :
    ∃ u, r = .ok u ∧ f u = .ok v := by
  cases r with
  | error e => cases h
  | ok u => exact ⟨u, rfl, h⟩

theorem map_ok {α β : Type} {r : Run α} {f : α → β} {v : β} (h : r.map f = .ok v) :
    ∃ u, r = .ok u ∧ f u = v := by
  cases r with
  | error e => cases h
  | ok u => exact ⟨u, rfl, Except.ok.inj h⟩

/-- It prints `ctx->Func`, `ctx->File` and `ctx->Line`. -/
def defaultHandler (ctx : Option CallContextGlobalEvent) : Run Unit :=
  match ctx with
  | some _ => .ok ()
  | none => .error .nullDeref

def xpbEventTriggerError (ctx : Option CallContextGlobalEvent) (fmt : String) (args : List ℕ)
    (w : World) : Run World :=
  match w.handler with
  | .default => (defaultHandler ctx).map fun _ => w
  | .application => .ok { w with reports := (fmt, args) :: w.reports }

theorem handler_cases (w : World) :
    w.handler = .default ∨ w.handler = .application := by
  cases w.handler
  · exact Or.inl rfl
  · exact Or.inr rfl

/-- The library reports with a null context, so its own handler faults. -/
theorem xpbEventTriggerError_default {w : World} (h : w.handler = .default) (fmt : String)
    (args : List ℕ) :
    xpbEventTriggerError none fmt args w = .error .nullDeref := by
  rw [xpbEventTriggerError, h]
  rfl

theorem xpbEventTriggerError_application {w : World} (h : w.handler = .application)
    (fmt : String) (args : List ℕ) :
    xpbEventTriggerError none fmt args w =
      .ok { w with reports := (fmt, args) :: w.reports } := by
  rw [xpbEventTriggerError, h]

def World.setStr (w : World) (x : ℕ) (s : StringX) : World :=
  { w with str := Function.update w.str x (some s) }

/-- `memop_alloc_raw` for sizes above zero, as its callers here use it. -/
def memopAllocRaw (n : ℕ) (w : World) : Option ℕ × World :=
  ((w.blocks.alloc n).1, { w with blocks := (w.blocks.alloc n).2 })

def memopFreeRaw (p : Option ℕ) (w : World) : Run World :=
  (w.blocks.free p).map fun h => { w with blocks := h }

/-- The content goes with the block as a whole: a string that grows has far less than 4 GB. -/
def memopReallocRaw (p : Option ℕ) (n : ℕ) (w : World) : Run (Option ℕ × World) :=
  (w.blocks.realloc p n maxBlock).map fun (r, h) => (r, { w with blocks := h })

/-- An operation that has raised an event and has changed no string, block or list. -/
structure Reported (w w' : World) : Prop where
  str : w'.str = w.str
  live : w'.blocks.live = w.blocks.live
  items : w'.items.live = w.items.live
  list : w'.list = w.list
  handler : w'.handler = w.handler
  reports : w.reports.length < w'.reports.length

def noStrings : World :=
  { blocks := ⟨fun _ => none, []⟩
    items := ⟨fun _ => none, []⟩
    str := fun _ => none
    list := fun _ => none
    stale := fun _ _ => 0
    handler := .application
    reports := [] }

end Xplatbase.Strings
