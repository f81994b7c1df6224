import SnugKV.Lib.BufReader
import SnugKV.Lib.Digits

/-!
# RESP decoder — one flat array of bulk strings at a time

The decoder of `internal/resp/parser.go` over a buffered reader:

* `length`, `bulk`, `readCommand` — the general reader, with the bytes it may still read and a
  record of everything it allocates;
* `parse` — a complete command, or a standalone bulk string, in one byte string.

A decoder is built by `NewDecoder`, which refuses limits that `Limits.validate` refuses, over a
reader whose buffer holds every length line that is not refused for its length.
-/

namespace SnugKV
namespace Resp

open Lib

/-- `Limits` bound a single command, including all framing bytes.  Negative ones are refused by
`Validate` and are not represented. -/
structure Limits where
  maxRequestBytes : Nat
  maxBulkBytes : Nat
  maxArguments : Nat
  deriving DecidableEq, Repr

def defaultLimits : Limits :=
  ⟨64 * 2 ^ 20, 32 * 2 ^ 20, 1024⟩

def Limits.validate (l : Limits) : Bool :=
  ! decide (l.maxRequestBytes < 4 ∨ l.maxRequestBytes < l.maxBulkBytes ∨ l.maxArguments < 1)

/-- The longest length line that can be accepted: a marker, twenty digits and CRLF. -/
def maxLineBytes : Nat := 23

/-- What `NewDecoder` fixes: valid limits, and the size of the reader's buffer. -/
structure Config where
  limits : Limits
  valid : limits.validate = true
  bufferSize : Nat
  lineFits : maxLineBytes ≤ bufferSize

inductive Error where
  | requestExceedsByteLimit
  | expected (marker : UInt8)
  | invalidLengthTerminator
  | invalidLength
  | declaredLengthExceedsLimit
  | invalidBulkTerminator
  | emptyCommandArray
  | trailingBytes
  | io (e : ReadError)
  deriving DecidableEq, Repr

/-- A slice that the decoder makes: the bytes of one bulk string, or the vector of arguments. -/
inductive Alloc where
  | payload (n : Nat)
  | vector (n : Nat)
  deriving DecidableEq, Repr

/-- The state of a decoder. -/
structure Decoder where
  reader : BufReader
  remaining : Nat
  allocated : List Alloc
  deriving DecidableEq, Repr

/-- A computation of the decoder, which keeps its state when it fails. -/
abbrev Decode (α : Type) := ExceptT Error (StateM Decoder) α

namespace Decode

def run (x : Decode α) (d : Decoder) : Except Error α × Decoder :=
  StateT.run (ExceptT.run x) d

/-- An operation of the reader; its errors pass through. -/
def io (op : BufReader → Except ReadError α × BufReader) : Decode α :=
  ExceptT.mk (StateT.mk fun d =>
    match op d.reader with
    | (.ok a, r) => (.ok a, { d with reader := r })
    | (.error e, r) => (.error (.io e), { d with reader := r }))

/-- `d.remaining -= n`. -/
def spend (n : Nat) : Decode Unit :=
  modify fun d => { d with remaining := d.remaining - n }

def allocate (a : Alloc) : Decode Unit :=
  modify fun d => { d with allocated := d.allocated ++ [a] }

/-- `if p { return err }`. -/
def refuse (p : Decoder → Prop) [DecidablePred p] (e : Error) : Decode Unit :=
  ExceptT.mk (StateT.mk fun d => if p d then (.error e, d) else (.ok (), d))

/-- The deferred function of `ReadCommand`: an end of the stream inside a command is unexpected. -/
def unexpectedEof (x : Decode α) : Decode α :=
  ExceptT.mk (StateT.mk fun d =>
    match x.run d with
    | (.error (.io .eof), d') => (.error (.io .unexpectedEof), d')
    | r => r)

theorem run_unexpectedEof (x : Decode α) (d : Decoder) : (unexpectedEof x).run d =
    match x.run d with
    | (.error (.io .eof), d') => (.error (.io .unexpectedEof), d')
    | r => r := rfl

end Decode

open Decode

def cr : UInt8 := 13
def lf : UInt8 := 10
def star : UInt8 := '*'.toUInt8
def dollar : UInt8 := '$'.toUInt8

/-- The digit loop of `length`. -/
def lengthDigits (max : Nat) : Bytes → Nat → Except Error Nat
  | [], n => .ok n
  | b :: digits, n =>
    if isDigit b = false then .error .invalidLength
    else if max / 10 < n ∨ (n = max / 10 ∧ max % 10 < digitOf b) then
      .error .declaredLengthExceedsLimit
    else lengthDigits max digits (n * 10 + digitOf b)

/-- The checks of `length` on a line that is within the byte limit. -/
def lengthLine (marker : UInt8) (max : Nat) (line : Bytes) : Except Error Nat :=
  if line.length < 4 ∨ line.head? ≠ some marker then
    if 0 < line.length ∧ line.head? ≠ some marker then .error (.expected marker)
    else .error .invalidLengthTerminator
  else if line.getD (line.length - 2) 0 ≠ cr then .error .invalidLengthTerminator
  else
    let digits := (line.drop 1).take (line.length - 3)
    if digits.length = 0 then .error .invalidLengthTerminator
    else if 20 < digits.length then .error .invalidLength
    else lengthDigits max digits 0

section

variable (c : Config)

def readByte : Decode UInt8 := do
  refuse (fun d => d.remaining = 0) .requestExceedsByteLimit
  let b ← io (BufReader.readByte c.bufferSize)
  spend 1
  return b

def length (marker : UInt8) (max : Nat) : Decode Nat := do
  let line ← io (BufReader.readSlice c.bufferSize lf)
  refuse (fun d => d.remaining < line.length) .requestExceedsByteLimit
  spend line.length
  ExceptT.mk (pure (lengthLine marker max line))

/-- The payload of a bulk string, allocated once and read directly into place. -/
def payload (n : Nat) : Decode Bytes := do
  allocate (.payload n)
  let payload ← io (BufReader.readFull c.bufferSize n)
  spend n
  return payload

def bulkTerminator : Decode Unit := do
  let a ← readByte c
  let b ← readByte c
  refuse (fun _ => a ≠ cr ∨ b ≠ lf) .invalidBulkTerminator

def bulk : Decode Bytes := do
  let n ← length c dollar c.limits.maxBulkBytes
  refuse (fun d => d.remaining < 2 ∨ d.remaining - 2 < n) .requestExceedsByteLimit
  let payload ← payload c n
  bulkTerminator c
  return payload

/-- The loop of `ReadCommand`: `n` bulk strings one after another. -/
def bulks : Nat → Decode (List Bytes)
  | 0 => return []
  | n + 1 => do
      let arg ← bulk c
      let args ← bulks n
      return arg :: args

/-- The part of `ReadCommand` that its deferred function covers. -/
def readArray : Decode (List Bytes) := do
  let n ← length c star c.limits.maxArguments
  refuse (fun _ => n = 0) .emptyCommandArray
  -- Even an empty bulk needs six framing bytes.
  refuse (fun d => d.remaining / 6 < n) .requestExceedsByteLimit
  allocate (.vector n)
  bulks c n

def readCommand : Decode (List Bytes) := do
  modify fun d => { d with remaining := c.limits.maxRequestBytes }
  let _ ← io (BufReader.peekByte c.bufferSize)
  unexpectedEof (readArray c)

/-- `n` commands read one after another. -/
def readCommands : Nat → Decode (List (List Bytes))
  | 0 => return []
  | n + 1 => do
      let args ← readCommand c
      let more ← readCommands n
      return args :: more

end

/-- The decoder of `Parse`, over a reader of the default size. -/
def parseConfig : Config where
  limits := defaultLimits
  valid := by decide
  bufferSize := 4096
  lineFits := by decide

/-- What `Parse` runs on its decoder before it looks for trailing bytes. -/
def parseBody (data : Bytes) : Decode (List Bytes) :=
  if data.head? = some dollar then do
    modify fun d => { d with remaining := defaultLimits.maxRequestBytes }
    let value ← bulk parseConfig
    return [value]
  else readCommand parseConfig

def parse (data : Bytes) : Except Error (List Bytes) :=
  if defaultLimits.maxRequestBytes < data.length then .error .requestExceedsByteLimit
  else
    match (parseBody data).run ⟨⟨[], data, [], false⟩, 0, []⟩ with
    | (.error e, _) => .error e
    | (.ok args, d) =>
      match BufReader.peekByte parseConfig.bufferSize d.reader with
      | (.error .eof, _) => .ok args
      | _ => .error .trailingBytes

example : parse (ascii "*2\r\n$3\r\nGET\r\n$1\r\nk\r\n") = .ok [ascii "GET", ascii "k"] := by
  decide +kernel

end Resp
end SnugKV
