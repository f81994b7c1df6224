import SnugKV.Lib.Binary
import SnugKV.Lib.Buffer
import SnugKV.Lib.Digits

/-!
# Scalar codecs — compact forms of short texts

A codec turns a text into a shorter record, or declines; its decoder gets the record and the
length of the text.  This module has the codecs a write tries first: raw bytes, signed and
unsigned integers, UUIDs, ULIDs, timestamps, floats and booleans.

`DecodeInto` reuses a destination slice.  A slice is modelled by its backing bytes up to its
capacity: `reslice` is the slice of `n` bytes that a decoder overwrites, and a decoder that
appends starts from `dst[:0]`, which is empty.

Names and log texts of codecs are left out.  What the codecs take from the platform (parsing
and printing of floats and times, the block compressors) is a parameter of the model.
-/

namespace SnugKV
namespace Codecs

open Lib

abbrev Result := Except String Bytes

/-- `dst[:n]`, or a new slice when the capacity is too small. -/
def reslice (dst : Bytes) (n : Nat) : Bytes :=
  if dst.length < n then List.replicate n 0 else dst.take n

/-- Functions of the platform and of other packages, with nothing assumed of them. -/
structure Platform where
  /-- `strconv.ParseFloat(s, 64)`: the bits of the float; `none` on an error. -/
  parseFloat : Bytes → Option UInt64
  /-- `strconv.FormatFloat(f, 'g', -1, 64)` -/
  formatFloat : UInt64 → Bytes
  /-- `time.Parse(timestampLayout, s)`, as seconds since 1970; `none` on an error. -/
  parseTime : Bytes → Option Int
  /-- `time.Unix(s, 0).UTC().Format(timestampLayout)` -/
  formatTime : Int → Bytes
  /-- `time.Unix(s, 0).UTC().Year()` -/
  yearOf : Int → Int
  /-- `lz4.CompressBlock` into a buffer of the bound's size; `none` on an error or no gain. -/
  lz4Compress : Bytes → Option Bytes
  /-- `lz4.UncompressBlock` into a buffer of the given size: the bytes written. -/
  lz4Uncompress : Bytes → Nat → Option Bytes
  /-- `EncodeAll` -/
  zstdEncode : Bytes → Bytes
  /-- The content of the frames that `DecodeAll` reads; `none` on an error. -/
  zstdContent : Bytes → Option Bytes
  /-- `jsonshape.Decode` under the schema of the record. -/
  shapeDecode : Bytes → Nat → Result

/-! ## Raw bytes -/

def rawDecode (src : Bytes) (n : Nat) : Result :=
  if src.length ≠ n then .error "invalid raw length" else .ok src

def rawDecodeInto (src : Bytes) (n : Nat) (dst : Bytes) : Result :=
  if src.length ≠ n then .error "invalid raw length"
  else .ok (writeAt (reslice dst n) 0 src)

/-! ## Decimal integers -/

def maxInt64 : Nat := 2 ^ 63 - 1

/-- The digit loop: refuses other bytes, and a value above `limit` before it can overflow. -/
def scanDigits (limit : Nat) : Nat → Bytes → Option Nat
  | magnitude, [] => some magnitude
  | magnitude, b :: rest =>
    if !isDigit b then none
    else if (limit - digitOf b) / 10 < magnitude then none
    else scanDigits limit (magnitude * 10 + digitOf b) rest

/-- The value of a text that `strconv.FormatInt` would print. -/
def canonicalInt64Bytes (src : Bytes) : Option Int :=
  match src with
  | [] => none
  | b :: rest =>
    let negative := b == minusSign
    let digits := if negative then rest else src
    if negative ∧ rest = [] then none
    else if b = plusSign then none
    else if digits.head? = some digit0 ∧ 1 < digits.length then none
    else
      match scanDigits (if negative then maxInt64 + 1 else maxInt64) 0 digits with
      | none => none
      | some magnitude =>
        if !negative then some (magnitude : Int)
        else if magnitude = 0 then none
        else some (-(magnitude : Int))

/-- `binary.PutVarint`: the sign goes to the low bit. -/
def putVarint : Int → Bytes
  | .ofNat n => putUvarint (2 * n)
  | .negSucc n => putUvarint (2 * n + 1)

/-- `binary.Varint`, with the width read. -/
def varint (bs : Bytes) : Option (Int × Nat) :=
  (uvarint bs).map fun (ux, size) =>
    (if ux % 2 = 0 then .ofNat (ux / 2) else .negSucc (ux / 2), size)

def integerEncode (src : Bytes) : Option Bytes :=
  (canonicalInt64Bytes src).map putVarint

def integerDecode (src : Bytes) (_ : Nat) : Result :=
  match varint src with
  | none => .error "invalid integer"
  | some (n, size) => if size ≠ src.length then .error "invalid integer" else .ok (formatInt n)

/-- `strconv.ParseUint(s, 10, 64)` -/
def parseUint (src : Bytes) : Option Nat :=
  if src = [] then none
  else if !src.all isDigit then none
  else
    let n := valueFrom 10 0 (src.map digitOf)
    if 2 ^ 64 ≤ n then none else some n

/-- `strconv.ParseInt(s, 10, 64)` -/
def parseInt (src : Bytes) : Option Int :=
  match src with
  | [] => none
  | b :: rest =>
    let text := if b = minusSign ∨ b = plusSign then rest else src
    match parseUint text with
    | none => none
    | some n =>
      if b = minusSign then if 2 ^ 63 < n then none else some (-(n : Int))
      else if 2 ^ 63 ≤ n then none else some (n : Int)

/-- Texts above `MaxInt64` only: smaller ones have their own codec. -/
def unsignedIntegerEncode (src : Bytes) : Option Bytes :=
  match parseUint src with
  | none => none
  | some n =>
    if formatUint n ≠ src then none
    else if n ≤ maxInt64 then none
    else some (putUint 8 n)

def unsignedIntegerDecode (src : Bytes) (_ : Nat) : Result :=
  if src.length ≠ 8 then .error "invalid unsigned integer"
  else if getUint src ≤ maxInt64 then .error "invalid unsigned integer range"
  else .ok (formatUint (getUint src))

/-! ## Floats and timestamps -/

def finite (bits : UInt64) : Bool :=
  bits.toNat / 2 ^ 52 % 2 ^ 11 != 2 ^ 11 - 1

def canonicalFloat64 (p : Platform) (src : Bytes) : Option UInt64 :=
  if src.length = 0 then none
  else
    match p.parseFloat src with
    | none => none
    | some n =>
      if !finite n then none
      else if p.formatFloat n ≠ src then none
      else some n

def float64Encode (p : Platform) (src : Bytes) : Option Bytes :=
  match canonicalFloat64 p src with
  | none => none
  | some n =>
    if (parseInt src).any (fun i => formatInt i == src) then none
    else if (parseUint src).any (fun u => formatUint u == src) then none
    else some (putUint 8 n.toNat)

def float64Decode (p : Platform) (src : Bytes) (_ : Nat) : Result :=
  if src.length ≠ 8 then .error "invalid float64"
  else if !finite (UInt64.ofNat (getUint src)) then .error "invalid float64 value"
  else .ok (p.formatFloat (UInt64.ofNat (getUint src)))

/-- `int64(u)` of a 64-bit word. -/
def signed64 (u : Nat) : Int :=
  if u < 2 ^ 63 then u else (u : Int) - 2 ^ 64

def timestampEncode (p : Platform) (src : Bytes) : Option Bytes :=
  if src.length ≠ 20 then none
  else
    match p.parseTime src with
    | none => none
    | some t =>
      if p.formatTime t ≠ src then none
      else some (putUint 8 (t % 2 ^ 64).toNat)

def timestampDecode (p : Platform) (src : Bytes) (_ : Nat) : Result :=
  if src.length ≠ 8 then .error "invalid timestamp"
  else
    let t := signed64 (getUint src)
    if p.yearOf t < 0 ∨ 9999 < p.yearOf t then .error "timestamp out of range"
    else .ok (p.formatTime t)

/-! ## Booleans -/

def trueText : Bytes := ascii "true"
def falseText : Bytes := ascii "false"

/-- No payload: the length of the text tells the two apart. -/
def boolEncode (src : Bytes) : Option Bytes :=
  if src = falseText ∨ src = trueText then some [] else none

def boolDecode (src : Bytes) (rawLength : Nat) : Result :=
  if src.length ≠ 0 then .error "invalid bool payload"
  else if rawLength = 4 then .ok trueText
  else if rawLength = 5 then .ok falseText
  else .error "invalid bool length"

/-! ## UUIDs -/

def dash : UInt8 := '-'.toUInt8

def uuidHexNibble (b : UInt8) : Option UInt8 :=
  if '0'.toUInt8 ≤ b ∧ b ≤ '9'.toUInt8 then some (b - '0'.toUInt8)
  else if 'a'.toUInt8 ≤ b ∧ b ≤ 'f'.toUInt8 then some (b - 'a'.toUInt8 + 10)
  else none

/-- The positions of the dashes in the text. -/
def uuidDashes : List Nat := [8, 13, 18, 23]

/-- The loop over the output bytes; `si` skips a dash before it reads two digits. -/
def uuidPack (src : Bytes) : Nat → Nat → Option Bytes
  | 0, _ => some []
  | n + 1, si =>
    let si := if si ∈ uuidDashes then si + 1 else si
    match uuidHexNibble (src.getD si 0), uuidHexNibble (src.getD (si + 1) 0) with
    | some hi, some lo => (uuidPack src n (si + 2)).map ((hi <<< 4 ||| lo) :: ·)
    | _, _ => none

def uuidEncode (src : Bytes) : Option Bytes :=
  if src.length ≠ 36 then none
  else if uuidDashes.any (fun i => src.getD i 0 != dash) then none
  else uuidPack src 16 0

def hexDigits : Bytes :=
  ascii "0123456789abcdef"

def uuidHex (b : UInt8) : Bytes :=
  [hexDigits.getD (b >>> 4).toNat 0, hexDigits.getD (b &&& 0x0f).toNat 0]

/-- The text of the bytes from index `i` on. -/
def uuidText : Nat → Bytes → Bytes
  | _, [] => []
  | i, b :: rest =>
    (if i ∈ [4, 6, 8, 10] then [dash] else []) ++ uuidHex b ++ uuidText (i + 1) rest

def uuidDecode (src : Bytes) (_ : Nat) : Result :=
  if src.length ≠ 16 then .error "invalid UUID" else .ok (uuidText 0 src)

/-! ## ULIDs -/

def ulidAlphabet : Bytes :=
  ascii "0123456789ABCDEFGHJKMNPQRSTVWXYZ"

def ulidDecodeValue (b : UInt8) : Option UInt8 :=
  if '0'.toUInt8 ≤ b ∧ b ≤ '9'.toUInt8 then some (b - '0'.toUInt8)
  else if 'A'.toUInt8 ≤ b ∧ b ≤ 'H'.toUInt8 then some (b - 'A'.toUInt8 + 10)
  else if 'J'.toUInt8 ≤ b ∧ b ≤ 'K'.toUInt8 then some (b - 'J'.toUInt8 + 18)
  else if 'M'.toUInt8 ≤ b ∧ b ≤ 'N'.toUInt8 then some (b - 'M'.toUInt8 + 20)
  else if 'P'.toUInt8 ≤ b ∧ b ≤ 'T'.toUInt8 then some (b - 'P'.toUInt8 + 22)
  else if 'V'.toUInt8 ≤ b ∧ b ≤ 'Z'.toUInt8 then some (b - 'V'.toUInt8 + 27)
  else none

/-- Three bits of the first character and five of each other fill sixteen bytes. -/
def ulidEncode (src : Bytes) : Option Bytes :=
  if src.length ≠ 26 then none
  else
    match src.mapM ulidDecodeValue with
    | some (first :: rest) =>
      if 7 < first then none
      else
        let (out, _, bits) := regroup 5 8 first.toNat 3 (rest.map UInt8.toNat)
        if out.length ≠ 16 ∨ bits ≠ 0 then none else some (out.map UInt8.ofNat)
    | _ => none

/-- The text has two leading zero bits: 26 characters of five bits. -/
def ulidText (src : Bytes) : Bytes :=
  (regroup 8 5 0 2 (src.map UInt8.toNat)).1.map (fun d => ulidAlphabet.getD (d % 32) 0)

def ulidDecode (src : Bytes) (_ : Nat) : Result :=
  if src.length ≠ 16 then .error "invalid ULID"
  else if (ulidText src).length ≠ 26 then .error "invalid ULID encoding"
  else .ok (ulidText src)

end Codecs
end SnugKV
