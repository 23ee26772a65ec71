import Xplatbase.Strings.StringX

/-! Comparing and searching: the functions of `StringX` that only read. -/
namespace Xplatbase.Strings
open Xplatbase.Lib

/-- The rest of `for (i = 0; i < s2_length; i++)` from pass `i` on, `left` passes. -/
def equalLoop (s1 s2 : Source) (start : ℤ) (w : World) : ℕ → ℕ → Run Bool
  | 0, _ => .ok true
  | left + 1, i => do
    let u ← s1.read (toInt32 (start + i)) w
    let v ← s2.read i w
    if u ≠ v then .ok false else equalLoop s1 s2 start w left (i + 1)

def stringEqualPart (x : ℕ) (s1Start : ℤ) (s2 : Option Source) (s2Length : ℤ) (w : World) :
    Run Bool :=
  match w.str x, s2 with
  | some s, some s2 =>
    match s.content with
    | none => .ok false
    | some b =>
      if s1Start < 0 ∨ s2Length < 0 then .ok false
      else if s.length < toUInt64 (toInt32 (s1Start + s2Length)) then .ok false
      else equalLoop (.block b s.length) s2 s1Start w s2Length.toNat 0
  | _, _ => .ok false

/-- `end`, cut to the string. -/
def StringX.searchEnd (s : StringX) (posStart posLength : ℤ) : ℤ :=
  let stop := toInt32 (posStart + posLength)
  if s.length < toUInt64 stop then toInt32 s.length else stop

/-- `for (i = pos_start; i < end; i++)` with `left` positions to go. -/
def indexofLoop (str : Source) (token : UInt8) (w : World) : ℕ → ℤ → Run ℤ
  | 0, _ => .ok (-1)
  | left + 1, i => do
    let v ← str.read i w
    if v = token then .ok i else indexofLoop str token w left (i + 1)

def stringIndexof (x : ℕ) (token : UInt8) (posStart posLength : ℤ) (w : World) : Run ℤ :=
  match w.str x with
  | none => .ok (-1)
  | some s =>
    match s.content with
    | none => .ok (-1)
    | some b =>
      if posStart < 0 ∨ posLength < 0 then .ok (-1)
      else indexofLoop (.block b s.length) token w
        (s.searchEnd posStart posLength - posStart).toNat posStart

/-- `n` bytes of `str` from `i` on are the first `n` of `tokens`. -/
def Source.Matches (str tokens : Source) (n : ℕ) (w : World) (i : ℕ) : Prop :=
  ∀ k < n, str.byte w (i + k) = tokens.byte w k

instance (str tokens : Source) (n : ℕ) (w : World) (i : ℕ) :
    Decidable (str.Matches tokens n w i) :=
  inferInstanceAs (Decidable (∀ k < n, _))

/-- `memcmp(str + i, tokens, n) == 0`; both operands must have `n` bytes there. -/
def memcmpEqual (str tokens : Source) (n : ℕ) (i : ℤ) (w : World) : Run Bool :=
  if 0 ≤ i ∧ i + n ≤ str.len ∧ n ≤ tokens.len then
    .ok (decide (str.Matches tokens n w i.toNat))
  else .error .outOfBounds

/-- `for (i = pos_start; i + length <= end; i++)`, at most `fuel` passes. -/
def indexofsLoop (str tokens : Source) (length stop : ℤ) (w : World) : ℕ → ℤ → Run ℤ
  | 0, _ => .error .endless
  | fuel + 1, i =>
    if toInt32 (i + length) ≤ stop then do
      let found ← memcmpEqual str tokens (toUInt64 length) i w
      if found then .ok i else indexofsLoop str tokens length stop w fuel (toInt32 (i + 1))
    else .ok (-1)

/-- An `int` that goes up by one is negative after fewer than 2^32 passes. -/
def stringIndexofs (x : ℕ) (tokens : Option Source) (length posStart posLength : ℤ) (w : World) :
    Run ℤ :=
  match w.str x, tokens with
  | some s, some tokens =>
    match s.content with
    | none => .ok (-1)
    | some b =>
      if length ≤ 0 ∨ posStart < 0 ∨ posLength < 0 then .ok (-1)
      else indexofsLoop (.block b s.length) tokens length (s.searchEnd posStart posLength) w
        (2 ^ 32) posStart
  | _, _ => .ok (-1)

/-- `for (; i >= 0; i--)` from the `n`-th position down. -/
def indexEndLoop (str : Source) (token : UInt8) (w : World) : ℕ → Run ℤ
  | 0 => .ok (-1)
  | n + 1 => do
    let v ← str.read n w
    if v = token then .ok n else indexEndLoop str token w n

def stringIndexEnd (x : ℕ) (token : UInt8) (w : World) : Run ℤ :=
  match w.str x with
  | none => .ok (-1)
  | some s =>
    match s.content with
    | none => .ok (-1)
    | some b =>
      indexEndLoop (.block b s.length) token w (toInt32 (toInt32 s.length - 1) + 1).toNat

def indexEndsLoop (str tokens : Source) (length : ℤ) (w : World) : ℕ → Run ℤ
  | 0 => .ok (-1)
  | n + 1 => do
    let found ← memcmpEqual str tokens (toUInt64 length) n w
    if found then .ok n else indexEndsLoop str tokens length w n

def stringIndexEnds (x : ℕ) (tokens : Option Source) (length : ℤ) (w : World) : Run ℤ :=
  match w.str x, tokens with
  | some s, some tokens =>
    match s.content with
    | none => .ok (-1)
    | some b =>
      if length ≤ 0 then .ok (-1)
      else indexEndsLoop (.block b s.length) tokens length w
        (toInt32 (toInt32 s.length - length) + 1).toNat
  | _, _ => .ok (-1)

/-- The characters before the terminator of a C string that the caller holds. -/
def cString (token : List UInt8) : Source :=
  .caller (fun i => token.getD i 0) (token.length + 1)

def stringStopRigthToken (x : ℕ) (token : Option (List UInt8)) (w : World) : Run ℤ :=
  match w.str x, token with
  | some s, some token =>
    let tl := toInt32 token.length
    if tl ≤ 0 then .ok (-1)
    else stringIndexofs x (some (cString token)) tl 0 (toInt32 s.length) w
  | _, _ => .ok (-1)

def stringStopLeftToken (x : ℕ) (token : Option (List UInt8)) (w : World) : Run ℤ :=
  match w.str x, token with
  | some _, some token =>
    let tl := toInt32 token.length
    if tl ≤ 0 then .ok (-1) else stringIndexEnds x (some (cString token)) tl w
  | _, _ => .ok (-1)

/-- `for (t = 0; tokens[t] != NULL; t++)`, which keeps the better answer of `one`. Behind the
tokens stands NULL; an `int` that goes up is negative after fewer than 2^32 passes. -/
def stopLoop (one : List UInt8 → Run ℤ) (better : ℤ → ℤ → Bool) (tokens : List (List UInt8)) :
    ℕ → ℤ → ℤ → Run ℤ
  | 0, _, _ => .error .endless
  | fuel + 1, t, best =>
    if t < 0 then .error .outOfBounds
    else
      match tokens[t.toNat]? with
      | none => .ok best
      | some token => do
        let idx ← one token
        stopLoop one better tokens fuel (toInt32 (t + 1)) (if better idx best then idx else best)

def stringStopRigthTokens (x : ℕ) (tokens : Option (List (List UInt8))) (w : World) : Run ℤ :=
  match w.str x, tokens with
  | some _, some tokens =>
    stopLoop (fun token => stringStopRigthToken x (some token) w)
      (fun idx best => 0 ≤ idx && (best < 0 || idx < best)) tokens (2 ^ 32) 0 (-1)
  | _, _ => .ok (-1)

def stringStopLeftTokens (x : ℕ) (tokens : Option (List (List UInt8))) (w : World) : Run ℤ :=
  match w.str x, tokens with
  | some _, some tokens =>
    stopLoop (fun token => stringStopLeftToken x (some token) w) (fun idx best => best < idx)
      tokens (2 ^ 32) 0 (-1)
  | _, _ => .ok (-1)

end Xplatbase.Strings
