import Xplatbase.Lib.CInt
import Xplatbase.Lib.Loop
import Xplatbase.Strings.World

/-! `StringX` over the memory pool: what its operations do to the struct's fields and to the block
its `Content` points to. -/
namespace Xplatbase.Strings
open Xplatbase.Lib

def initialStringLength : ℕ := 50

/-- Bytes to read from: `len` of them, at the caller's or in a block of the pool. -/
inductive Source
  | caller (get : ℕ → UInt8) (len : ℤ)
  | block (b : ℕ) (len : ℤ)

def Source.len : Source → ℤ
  | .caller _ len | .block _ len => len

def Source.byte (w : World) (i : ℕ) : Source → UInt8
  | .caller get _ => get i
  | .block b _ =>
    match w.blocks.live b with
    | some bytes => bytes.getD i 0
    | none => w.stale b i

def Source.read (src : Source) (i : ℤ) (w : World) : Run UInt8 :=
  if 0 ≤ i ∧ i < src.len then .ok (src.byte w i.toNat) else .error .outOfBounds

/-- `x->Content[i] = v`, with room for positions up to `Max`. -/
def setContent (x : ℕ) (i : ℤ) (v : UInt8) (w : World) : Run World :=
  match w.str x with
  | none => .error .nullDeref
  | some s =>
    match s.content with
    | none => .error .nullDeref
    | some b =>
      if 0 ≤ i ∧ i ≤ s.max then (w.blocks.set b i.toNat v).map fun h => { w with blocks := h }
      else .error .outOfBounds

/-- `while (new_max < required) new_max *= 2;` after 64 doublings `new_max` is 0 for good. -/
def growTo : ℕ → ℕ → ℕ → Option ℕ
  | 0, m, required => if m < required then none else some m
  | fuel + 1, m, required => if m < required then growTo fuel (m * 2 % 2 ^ 64) required else some m

def StringX.firstMax (s : StringX) : ℕ :=
  if s.max = 0 then initialStringLength else s.max

def shEnsureCapacity (x : ℕ) (s : StringX) (required : ℕ) (w : World) : Run (Bool × World) :=
  if required ≤ s.max then .ok (true, w)
  else
    match growTo 64 s.firstMax required with
    | none => .error .endless
    | some newMax => do
      let (nc, w) ← memopReallocRaw s.content ((newMax + 1) % 2 ^ 64) w
      match nc with
      | none =>
        let w ← xpbEventTriggerError none "Falha ao realocar %zu caracteres para a string."
          [(newMax + 1) % 2 ^ 64] w
        .ok (false, w)
      | some c => .ok (true, w.setStr x { s with content := some c, max := newMax })

/-- The struct at `x` is written whole; a `Content` it had before is forgotten. -/
def stringInit (x : ℕ) (w : World) : Run World :=
  match memopAllocRaw (initialStringLength + 1) w with
  | (none, w) => do
    let w ← xpbEventTriggerError none "Falha ao alocar %zu caracteres para a string."
      [initialStringLength + 1] w
    .ok (w.setStr x ⟨false, 0, 0, none⟩)
  | (some b, w) => setContent x 0 0 (w.setStr x ⟨true, initialStringLength, 0, some b⟩)

def stringCreate (x : ℕ) (w : World) : Run World := stringInit x w

def stringRelease (x : ℕ) (w : World) : Run World :=
  match w.str x with
  | none => .ok w
  | some s => do
    let w ← memopFreeRaw s.content w
    .ok (w.setStr x ⟨false, 0, 0, none⟩)

/-- `x->Content[dst_start + i] = content[src_start + i]`. -/
def copyByte (x : ℕ) (src : Source) (srcStart dstStart : ℤ) (i : ℕ) (w : World) : Run World := do
  let v ← src.read (toInt32 (srcStart + i)) w
  setContent x (toInt32 (dstStart + i)) v w

def stringCopy (x : ℕ) (content : Option Source) (contLength srcStart length dstStart : ℤ)
    (w : World) : Run World :=
  match w.str x, content with
  | some s, some src =>
    if s.content = none then .ok w
    else if length ≤ 0 ∨ srcStart < 0 ∨ dstStart < 0 then .ok w
    else if contLength < toInt32 (srcStart + length) then .ok w
    else do
      let stop := (toUInt64 dstStart + toUInt64 length) % 2 ^ 64
      let (ok, w) ← shEnsureCapacity x s stop w
      if ok then
        let w ← forUpTo (copyByte x src srcStart dstStart) length.toNat w
        let s := (w.str x).getD s
        let s := { s with length := max s.length stop }
        setContent x s.length 0 (w.setStr x s)
      else .ok w
  | _, _ => .ok w

def stringCopys (src dst : ℕ) (srcStart length dstStart : ℤ) (w : World) : Run World :=
  match w.str src with
  | none => .ok w
  | some s =>
    match s.content with
    | none => .ok w
    | some b =>
      stringCopy dst (some (.block b s.length)) (toInt32 s.length) srcStart length dstStart w

def stringAppend (src dst : ℕ) (srcStart length : ℤ) (w : World) : Run World :=
  match w.str src, w.str dst with
  | some s, some d =>
    match s.content with
    | none => .ok w
    | some b =>
      if length ≤ 0 ∨ srcStart < 0 then .ok w
      else if s.length < toUInt64 (toInt32 (srcStart + length)) then .ok w
      else stringCopy dst (some (.block b s.length)) (toInt32 s.length) srcStart length
        (toInt32 d.length) w
  | _, _ => .ok w

def stringAppends (x : ℕ) (content : Option Source) (conLength srcStart srcLength : ℤ)
    (w : World) : Run World :=
  match w.str x with
  | none => .ok w
  | some s => stringCopy x content conLength srcStart srcLength (toInt32 s.length) w

/-- One call of `vsnprintf`: the whole text it formats, or an encoding error after some bytes. -/
inductive VsnAnswer
  | text (t : List UInt8)
  | failed (out : List UInt8)

/-- The returned count; a text an `int` cannot count is an error too. -/
def VsnAnswer.count : VsnAnswer → ℤ
  | .text t => if t.length < 2 ^ 31 then t.length else -1
  | .failed _ => -1

/-- What lands in a buffer of `n` bytes, the terminator of a complete call included. -/
def VsnAnswer.output (n : ℕ) : VsnAnswer → List UInt8
  | .text t => (t.take (n - 1) ++ [0]).take n
  | .failed out => out.take n

/-- Consecutive stores from position `i` on. -/
def setContents (x : ℕ) (i : ℕ) : List UInt8 → World → Run World
  | [], w => .ok w
  | v :: vs, w => setContent x i v w >>= setContents x (i + 1) vs

/-- `counted` and `printed` answer the measuring call and the writing one. -/
def stringAppendFormatv (x : ℕ) (counted printed : VsnAnswer) (w : World) : Run (ℤ × World) :=
  match w.str x with
  | none => .ok (-1, w)
  | some s =>
    if s.content = none then .ok (-1, w)
    else if counted.count < 0 then .ok (-1, w)
    else do
      let required := (s.length + toUInt64 counted.count) % 2 ^ 64
      if required < s.length then .ok (-1, w)
      else
        let (ok, w) ← shEnsureCapacity x s required w
        if ok then
          let t := (w.str x).getD s
          let w ← setContents x s.length (printed.output (t.max - s.length + 1)) w
          if printed.count ≠ counted.count then do
            let w ← setContent x s.length 0 w
            .ok (-1, w)
          else .ok (printed.count, w.setStr x { t with length := required })
        else .ok (-1, w)

def stringAppendFormat (x : ℕ) (counted printed : VsnAnswer) (w : World) : Run (ℤ × World) :=
  stringAppendFormatv x counted printed w

/-- `true` stands for the new string, at `out`; `struct` is the size of a `StringX`. -/
def stringSubstring (out x : ℕ) (index length : ℤ) (w : World) : Run (Bool × World) :=
  match w.str x with
  | none => .ok (false, w)
  | some s =>
    match s.content with
    | none => .ok (false, w)
    | some b =>
      if index < 0 ∨ length < 0 then .ok (false, w)
      else if s.length < toUInt64 (toInt32 (index + length)) then .ok (false, w)
      else
        match memopAllocRaw 32 w with
        | (none, w) => do
          let w ← xpbEventTriggerError none "Falha ao alocar substring." [] w
          .ok (false, w)
        | (some node, w) =>
          match memopAllocRaw (toUInt64 length + 1) w with
          | (none, w) => do
            let w ← xpbEventTriggerError none "Falha ao alocar %zu caracteres para a substring."
              [toUInt64 (toInt32 (length + 1))] w
            let w ← memopFreeRaw (some node) w
            .ok (false, w)
          | (some c, w) => do
            let w := w.setStr out ⟨true, toUInt64 length, toUInt64 length, some c⟩
            let w ← forUpTo (copyByte out (.block b s.length) index 0) length.toNat w
            let w ← setContent out length 0 w
            .ok (true, w)

def shIsWs (c : UInt8) : Bool :=
  c = 32 || c = 9 || c = 10 || c = 13 || c = 12 || c = 11

/-- The length left by `while (Length > 0 && sh_is_ws(Content[Length - 1])) Length--;`. -/
def trimmedLength (bytes : List UInt8) : ℕ → ℕ
  | 0 => 0
  | n + 1 => if shIsWs (bytes.getD n 0) then trimmedLength bytes n else n + 1

def stringTrimRight (x : ℕ) (w : World) : Run World :=
  match w.str x with
  | none => .ok w
  | some s =>
    match s.content with
    | none => .ok w
    | some b =>
      match w.blocks.live b with
      | none => .error .useAfterFree
      | some bytes =>
        let n := trimmedLength bytes s.length
        setContent x n 0 (w.setStr x { s with length := n })

/-- The first position from `i` on, `left` more at most, that is no white space. -/
def firstText (bytes : List UInt8) : ℕ → ℕ → ℕ
  | 0, i => i
  | left + 1, i => if shIsWs (bytes.getD i 0) then firstText bytes left (i + 1) else i

/-- `memmove(Content, Content + start, n)`. -/
def moveDown (start n : ℕ) (bytes : List UInt8) : List UInt8 :=
  (bytes.drop start).take n ++ bytes.drop n

def stringTrimLeft (x : ℕ) (w : World) : Run World :=
  match w.str x with
  | none => .ok w
  | some s =>
    match s.content with
    | none => .ok w
    | some b =>
      match w.blocks.live b with
      | none => .error .useAfterFree
      | some bytes =>
        let start := firstText bytes s.length 0
        if 0 < start then
          let n := s.length - start
          let w := { w with blocks := { w.blocks with
            live := Function.update w.blocks.live b (some (moveDown start n bytes)) } }
          setContent x n 0 (w.setStr x { s with length := n })
        else .ok w

def stringTrim (x : ℕ) (w : World) : Run World :=
  stringTrimRight x w >>= stringTrimLeft x

end Xplatbase.Strings
