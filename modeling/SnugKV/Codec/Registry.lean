import SnugKV.Codec.Compression
import SnugKV.Codec.Identifier
import SnugKV.Codec.Solana

/-!
# Registry — choosing a codec for a value and reading a record back

`encode` is the write path: exact shapes first, then the cheap scalar codecs, each checked by a
decode.  `encodeGeneral` is the background path with the compressors, and `encodeIdentifier` the
one for hashes, keys and balances.
-/

namespace SnugKV
namespace Codecs

open Lib

inductive ID where
  | raw
  | integer
  | unsignedInteger
  | uuid
  | timestamp
  | jsonShape
  | float64
  | boolean
  | repeatByte
  | lz4
  | zstandard
  | periodic
  | ulid
  | hex
  | base58
  | bigDecimal
  | solanaTokenAccount
  deriving DecidableEq, Repr

def ID.toNat : ID → Nat
  | .raw => 0
  | .integer => 1
  | .unsignedInteger => 2
  | .uuid => 3
  | .timestamp => 4
  | .jsonShape => 5
  | .float64 => 6
  | .boolean => 7
  | .repeatByte => 8
  | .lz4 => 9
  | .zstandard => 10
  | .periodic => 11
  | .ulid => 12
  | .hex => 13
  | .base58 => 14
  | .bigDecimal => 15
  | .solanaTokenAccount => 16

structure Record where
  id : ID
  rawLength : Nat
  data : Bytes
  deriving DecidableEq, Repr

structure Codec where
  id : ID
  encode : Bytes → Option Bytes
  decode : Bytes → Nat → Result
  /-- The optional interface `decodeIntoCodec`. -/
  decodeInto : Option (Bytes → Nat → Bytes → Result)

/-- A decoder that appends to `dst[:0]` gives the same bytes for every destination. -/
def appending (decode : Bytes → Nat → Result) : Option (Bytes → Nat → Bytes → Result) :=
  some fun src n dst => (decode src n).map (dst.take 0 ++ ·)

section Registered

variable (p : Platform)

def rawCodec : Codec :=
  { id := .raw, encode := some, decode := rawDecode, decodeInto := some rawDecodeInto }

def integerCodec : Codec :=
  { id := .integer, encode := integerEncode, decode := integerDecode
    decodeInto := appending integerDecode }

def unsignedIntegerCodec : Codec :=
  { id := .unsignedInteger, encode := unsignedIntegerEncode, decode := unsignedIntegerDecode
    decodeInto := appending unsignedIntegerDecode }

def uuidCodec : Codec :=
  { id := .uuid, encode := uuidEncode, decode := uuidDecode, decodeInto := appending uuidDecode }

def ulidCodec : Codec :=
  { id := .ulid, encode := ulidEncode, decode := ulidDecode, decodeInto := appending ulidDecode }

def timestampCodec : Codec :=
  { id := .timestamp, encode := timestampEncode p, decode := timestampDecode p
    decodeInto := appending (timestampDecode p) }

def float64Codec : Codec :=
  { id := .float64, encode := float64Encode p, decode := float64Decode p
    decodeInto := appending (float64Decode p) }

def boolCodec : Codec :=
  { id := .boolean, encode := boolEncode, decode := boolDecode, decodeInto := none }

def repeatByteCodec : Codec :=
  { id := .repeatByte, encode := repeatByteEncode, decode := repeatByteDecode
    decodeInto := some repeatByteDecodeInto }

def lz4Codec : Codec :=
  { id := .lz4, encode := lz4Encode p, decode := lz4Decode p, decodeInto := some (lz4DecodeInto p) }

def zstdCodec : Codec :=
  { id := .zstandard, encode := zstdCodecEncode p, decode := zstdDecode p
    decodeInto := some (zstdDecodeInto p) }

def periodicCodec : Codec :=
  { id := .periodic, encode := periodicEncode, decode := periodicDecode
    decodeInto := some periodicDecodeInto }

def hexCodec : Codec :=
  { id := .hex, encode := hexEncode, decode := hexDecode, decodeInto := appending hexDecode }

def base58Codec : Codec :=
  { id := .base58, encode := base58CodecEncode, decode := base58CodecDecode
    decodeInto := appending base58CodecDecode }

def bigDecimalCodec : Codec :=
  { id := .bigDecimal, encode := bigDecimalEncode, decode := bigDecimalDecode
    decodeInto := appending bigDecimalDecode }

def solanaTokenCodec : Codec :=
  { id := .solanaTokenAccount, encode := tokenEncode, decode := tokenDecode
    decodeInto := some tokenDecodeInto }

/-- `NewRegistry`: the codecs in their order of registration. -/
def order : List Codec :=
  [rawCodec, integerCodec, unsignedIntegerCodec, uuidCodec, ulidCodec, timestampCodec p,
    float64Codec p, boolCodec, repeatByteCodec, lz4Codec p, zstdCodec p, periodicCodec, hexCodec,
    base58Codec, bigDecimalCodec, solanaTokenCodec]

def codecOf (id : ID) : Option Codec :=
  (order p).find? (fun c => c.id = id)

/-! ## Decoding -/

/-- The check both decoders end with. -/
def checkLength (n : Nat) : Result → Result
  | .error e => .error e
  | .ok out => if out.length ≠ n then .error "decoded length mismatch" else .ok out

def decode (rec : Record) (max : Nat) : Result :=
  if max < rec.rawLength then .error "decoded length exceeds limit"
  else if rec.id = .jsonShape then checkLength rec.rawLength (p.shapeDecode rec.data rec.rawLength)
  else
    match codecOf p rec.id with
    | none => .error "unknown codec ID"
    | some c => checkLength rec.rawLength (c.decode rec.data rec.rawLength)

def decodeInto (rec : Record) (max : Nat) (dst : Bytes) : Result :=
  if max < rec.rawLength then .error "decoded length exceeds limit"
  else
    match rec.id with
    | .raw => checkLength rec.rawLength (rawDecodeInto rec.data rec.rawLength dst)
    | .repeatByte => checkLength rec.rawLength (repeatByteDecodeInto rec.data rec.rawLength dst)
    | .lz4 => checkLength rec.rawLength (lz4DecodeInto p rec.data rec.rawLength dst)
    | .zstandard => checkLength rec.rawLength (zstdDecodeInto p rec.data rec.rawLength dst)
    | .periodic => checkLength rec.rawLength (periodicDecodeInto rec.data rec.rawLength dst)
    | .jsonShape => checkLength rec.rawLength (p.shapeDecode rec.data rec.rawLength)
    | id =>
      match codecOf p id with
      | none => .error "unknown codec ID"
      | some c =>
        match c.decodeInto with
        | some into => checkLength rec.rawLength (into rec.data rec.rawLength dst)
        | none => decode p rec max

/-! ## Choosing a codec -/

/-- Whether the record of a codec reads back as the value. -/
def readsBack (c : Codec) (data src : Bytes) : Bool :=
  match c.decode data src.length with
  | .error _ => false
  | .ok out => out == src

def encodeHexForeground (src : Bytes) : Option Record :=
  if src.length < hexMinDigits ∨ hexMaxDigits + 2 < src.length then none
  else
    match hexEncode src with
    | none => none
    | some data =>
      if src.length ≤ data.length then none
      else if src.length ≤ bigDecimalMaxLen ∧ data.headD 0 &&& hexFlagPrefix = 0 ∧
          allDigits src = true then none
      else if !readsBack hexCodec data src then none
      else some { id := .hex, rawLength := src.length, data }

def encodeSolanaTokenAccount (src : Bytes) : Option Record :=
  if src.length ≠ tokenAccountSize ∧ src.length ≠ tokenAccountB64Size then none
  else
    match tokenEncode src with
    | none => none
    | some data =>
      if src.length ≤ data.length then none
      else if !readsBack solanaTokenCodec data src then none
      else some { id := .solanaTokenAccount, rawLength := src.length, data }

/-- One candidate: it replaces the best record so far if it is shorter and reads back. -/
def consider (src : Bytes) (best : Record) (c : Codec) : Record :=
  match c.encode src with
  | none => best
  | some data =>
    if best.data.length ≤ data.length then best
    else if !readsBack c data src then best
    else { id := c.id, rawLength := src.length, data }

def rawRecord (src : Bytes) : Record :=
  { id := .raw, rawLength := src.length, data := src }

/-- Codecs the scan of `encode` leaves out: those already tried, and the background ones. -/
def scanSkips (id : ID) : Bool :=
  id = .raw || id = .integer || id = .uuid || id = .jsonShape ||
    decide (ID.repeatByte.toNat ≤ id.toNat)

def scanScalars (src : Bytes) : Record :=
  if 36 < src.length then rawRecord src
  else if src.head? = some '{'.toUInt8 ∨ src.head? = some '['.toUInt8 then rawRecord src
  else (order p).foldl (fun best c => if scanSkips c.id then best else consider src best c)
    (rawRecord src)

/-- The record of a codec that is trusted without a decode. -/
def direct (c : Codec) (src : Bytes) : Option Record :=
  (c.encode src).map fun data => { id := c.id, rawLength := src.length, data }

def encodeInteger (src : Bytes) : Option Record :=
  if 20 < src.length then none
  else
    match canonicalInt64Bytes src with
    | none => none
    | some n =>
      if (putVarint n).length < src.length then
        some { id := .integer, rawLength := src.length, data := putVarint n }
      else none

def encode (src : Bytes) : Record :=
  ((if src.length = 36 then direct uuidCodec src else none) <|>
    (if src.length = 26 then direct ulidCodec src else none) <|>
    encodeInteger src <|> encodeHexForeground src <|> encodeSolanaTokenAccount src).getD
    (scanScalars p src)

/-- The block compressors; the slower one only for cold values. -/
def blockCodecs (cold : Bool) : List Codec :=
  if cold then [lz4Codec p, zstdCodec p] else [lz4Codec p]

/-- `EncodeGeneral`: exact repetitions first, then the block compressors. -/
def encodeGeneral (src : Bytes) (cold : Bool) : Record :=
  if src.length < 256 ∨ alreadyCompressed src then rawRecord src
  else
    match direct repeatByteCodec src with
    | some rec => rec
    | none =>
      let best := (direct periodicCodec src).getD (rawRecord src)
      if best.id = .periodic ∧ best.data.length ≤ 32 then best
      else (blockCodecs p cold).foldl (consider src) best

def alnum (c : UInt8) : Bool :=
  isDigit c || decide ('a'.toUInt8 ≤ c ∧ c ≤ 'z'.toUInt8) ||
    decide ('A'.toUInt8 ≤ c ∧ c ≤ 'Z'.toUInt8)

/-- The codecs for an identifier of `n` characters. -/
def identifierCodecs (n : Nat) : List Codec :=
  (if n ≤ bigDecimalMaxLen then [bigDecimalCodec] else []) ++
    (if hexMinDigits ≤ n then [hexCodec] else []) ++ (if n ≤ 44 then [base58Codec] else [])

/-- The best candidate; none is taken unless it is shorter than the text. -/
def encodeIdentifier (src : Bytes) : Option Record :=
  let n := src.length
  if n < bigDecimalMinLen ∨ hexMaxDigits + 2 < n then none
  else if !alnum (src.headD 0) then none
  else
    let best := (identifierCodecs n).foldl (consider src) (rawRecord src)
    if best.id = .raw then none else some best

end Registered

end Codecs
end SnugKV
