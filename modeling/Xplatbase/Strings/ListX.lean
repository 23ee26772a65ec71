import Xplatbase.Lib.CInt
import Xplatbase.Memory.HonouredSize
import Xplatbase.Strings.World

/-! `ListX`, a growing vector of pointers, and the confined copies between `MemBuffer`s. -/
namespace Xplatbase.Strings
open Xplatbase.Lib

def initialListCount : ℕ := 100

def World.setList (w : World) (x : ℕ) (l : ListX) : World :=
  { w with list := Function.update w.list x (some l) }

/-- `memop_alloc_raw` of a vector; 8 bytes hold a pointer and 0 bytes get NULL. -/
def itemsAllocRaw (bytes : ℕ) (w : World) : Option ℕ × World :=
  if bytes = 0 then (none, w)
  else ((w.items.alloc (bytes / 8)).1, { w with items := (w.items.alloc (bytes / 8)).2 })

/-- The fields `list_init` and `list_create` set; `Active` stays what the memory held. -/
def ListX.start (l : ListX) (initialCount : ℤ) (typeSize : ℕ) : ListX :=
  { l with
    typeSize := typeSize
    max := if 0 ≤ initialCount then initialCount.toNat else initialListCount
    count := 0 }

def listItems (x : ℕ) (l : ListX) (w : World) : Run World :=
  let r := itemsAllocRaw (l.max * 8 % 2 ^ 64) w
  let w := r.2.setList x { l with items := r.1 }
  if r.1 = none then xpbEventTriggerError none "Falha ao alocar %zu itens para a lista." [l.max] w
  else .ok w

def listInit (x : ℕ) (initialCount : ℤ) (typeSize : ℕ) (w : World) : Run World :=
  match w.list x with
  | none => .error .nullDeref
  | some l => listItems x (l.start initialCount typeSize) w

/-- `node` is the memory the allocator gives for the struct, with what it happens to hold. -/
def listCreate (out : ℕ) (initialCount : ℤ) (typeSize : ℕ) (node : Option ListX) (w : World) :
    Run (Bool × World) :=
  match node with
  | none =>
    (xpbEventTriggerError none "Falha ao alocar a lista." [] w).map fun w => (false, w)
  | some l => (listItems out (l.start initialCount typeSize) w).map fun w => (true, w)

/-- `new_max * sizeof(void*)` for a vector of twice the capacity. -/
def ListX.growBytes (l : ListX) : ℕ :=
  l.max * 2 % 2 ^ 64 * 8 % 2 ^ 64

/-- `memop_usable_size` of a vector that was asked for with `bytes`, counted in pointers. -/
def usablePointers (bytes : BitVec 64) : ℕ :=
  match Memory.memopClassIndex bytes with
  | some c => (Memory.classStride c).toNat / 8
  | none => ((Memory.Heap.largeTotal bytes - 64).setWidth 32).toNat / 8

/-- What `memop_realloc_raw` copies of the vector at most, in pointers. -/
def ListX.copied (l : ListX) : ℕ :=
  usablePointers (.ofNat 64 (l.max * 8))

/-- `list->Items[list->Count] = instance; list->Count++;` -/
def listStore (x : ℕ) (l : ListX) (item : ℕ) (w : World) : Run World :=
  match l.items with
  | none => .error .nullDeref
  | some b =>
    (w.items.set b l.count item).map fun items =>
      World.setList { w with items := items } x { l with count := (l.count + 1) % 2 ^ 64 }

def listAdd (x : ℕ) (item typeSize : ℕ) (w : World) : Run (Bool × World) :=
  match w.list x with
  | none => .error .nullDeref
  | some l =>
    if typeSize ≠ l.typeSize then
      (xpbEventTriggerError none
        "Item a ser adicionado na lista com tamanho inválido. Informado: %zu | Esperado: %zu"
        [typeSize, l.typeSize] w).map fun w => (false, w)
    else if toUInt64 (toInt32 (l.count + 1)) < l.max then
      (listStore x l item w).map fun w => (true, w)
    else
      match w.items.realloc l.items (l.growBytes / 8) l.copied with
      | .error e => .error e
      | .ok (none, items) =>
        (xpbEventTriggerError none
          ("Não foi possível realocar novo tamanho dos itens. " ++
            "Informado: %zu | Esperado: %zu")
          [typeSize, l.typeSize] { w with items := items }).map fun w => (false, w)
      | .ok (some b, items) =>
        let l := { l with items := some b, max := l.max * 2 % 2 ^ 64 }
        (listStore x l item (World.setList { w with items := items } x l)).map fun w => (true, w)

/-- `list->Items[i]` as a value. -/
def ListX.load (l : ListX) (i : ℤ) (w : World) : Run ℕ :=
  match l.items with
  | none => .error .nullDeref
  | some b =>
    match w.items.live b with
    | none => .error .useAfterFree
    | some v =>
      if i < 0 then .error .outOfBounds
      else
        match v[i.toNat]? with
        | none => .error .outOfBounds
        | some item => .ok item

/-- `list->Items[i] = item;` -/
def ListX.store (l : ListX) (i : ℤ) (item : ℕ) (w : World) : Run World :=
  match l.items with
  | none => .error .nullDeref
  | some b =>
    if i < 0 then .error .outOfBounds
    else (w.items.set b i.toNat item).map fun items => { w with items := items }

/-- `list->Count - 1` -/
def ListX.countBefore (l : ListX) : ℕ :=
  (l.count + (2 ^ 64 - 1)) % 2 ^ 64

/-- `while (im < list->Count - 1)`, at most `fuel` passes. -/
def shiftLoop (l : ListX) : ℕ → ℤ → World → Run World
  | 0, _, _ => .error .endless
  | fuel + 1, im, w =>
    if toUInt64 im < l.countBefore then do
      let item ← l.load (toInt32 (im + 1)) w
      let w ← l.store im item w
      shiftLoop l fuel (toInt32 (im + 1)) w
    else .ok w

/-- The items behind `index` move up and the count goes down. An `int` that goes up is negative
after fewer than 2^32 passes, and above every count as an unsigned number. -/
def listDrop (x : ℕ) (l : ListX) (index : ℤ) (w : World) : Run World :=
  (shiftLoop l (2 ^ 32) index w).map fun w => w.setList x { l with count := l.countBefore }

/-- `while (ix < list->Count)`, at most `fuel` passes. -/
def removeLoop (x : ℕ) (l : ListX) (obj : ℕ) (w : World) : ℕ → ℤ → Run World
  | 0, _ => .error .endless
  | fuel + 1, ix =>
    if toUInt64 ix < l.count then do
      let am ← l.load ix w
      if am = obj then listDrop x l ix w else removeLoop x l obj w fuel (toInt32 (ix + 1))
    else .ok w

def listRemove (x obj : ℕ) (w : World) : Run World :=
  match w.list x with
  | none => .ok w
  | some l => if l.active then removeLoop x l obj w (2 ^ 32) 0 else .ok w

def listRemoveIndex (x : ℕ) (index : ℤ) (w : World) : Run World :=
  match w.list x with
  | none => .ok w
  | some l =>
    if l.active = true ∧ toUInt64 index < l.count then listDrop x l index w else .ok w

/-- `ptr` is the block of the pool the buffer starts at. -/
structure MemBuffer where
  ptr : Option ℕ
  size : ℕ

/-- `memcpy` of `src` into block `b` at `offset`. -/
def writeBytes (b offset : ℕ) (src : List UInt8) (w : World) : Run World :=
  match w.blocks.live b with
  | none => .error .useAfterFree
  | some bytes =>
    if offset + src.length ≤ bytes.length then
      let written := bytes.take offset ++ src ++ bytes.drop (offset + src.length)
      .ok { w with blocks := { w.blocks with
        live := Function.update w.blocks.live b (some written) } }
    else .error .outOfBounds

def memopCopy (dst : MemBuffer) (dstOffset : ℕ) (src : MemBuffer) (size offset : ℕ)
    (w : World) : Run (ℕ × World) :=
  match dst.ptr, src.ptr with
  | some d, some s =>
    if size = 0 then .ok (0, w)
    else if src.size < offset ∨ src.size - offset < size then
      (xpbEventTriggerError none
        ("memop_copy: leitura fora da faixa do src " ++
          "(offset=%llu size=%llu faixa=%llu).")
        [offset, size, src.size] w).map fun w => (0, w)
    else if dst.size < dstOffset ∨ dst.size - dstOffset < size then
      (xpbEventTriggerError none
        ("memop_copy: escrita fora da faixa do dst " ++
          "(dst_offset=%llu size=%llu faixa=%llu).")
        [dstOffset, size, dst.size] w).map fun w => (0, w)
    else
      match w.blocks.live s with
      | none => .error .useAfterFree
      | some bytes =>
        if offset + size ≤ bytes.length then
          (writeBytes d dstOffset ((bytes.drop offset).take size) w).map fun w => (size, w)
        else .error .outOfBounds
  | _, _ => .ok (0, w)

/-- `src` is any memory, `none` for NULL. -/
def memopAppend (dst : MemBuffer) (src : Option (List UInt8)) (size offset : ℕ) (w : World) :
    Run (ℕ × World) :=
  match dst.ptr, src with
  | some d, some src =>
    if size = 0 then .ok (0, w)
    else if dst.size < offset ∨ dst.size - offset < size then
      (xpbEventTriggerError none
        ("memop_append: escrita fora da faixa do dst " ++
          "(offset=%llu size=%llu faixa=%llu).")
        [offset, size, dst.size] w).map fun w => (0, w)
    else if size ≤ src.length then
      (writeBytes d offset (src.take size) w).map fun w => (size, w)
    else .error .outOfBounds
  | _, _ => .ok (0, w)

end Xplatbase.Strings
