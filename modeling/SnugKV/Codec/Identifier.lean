import SnugKV.Codec.Scalar

/-!
# Identifier codecs — hex, base58 and long decimal texts

Hashes, addresses, public keys and balances are binary numbers written in a larger alphabet.
The hex record is a flag byte, the bytes the digits spell and, for mixed case, one bit per digit.
Base58 and long decimals go through numbers in 32-bit limbs: `radixDecode` multiplies a chunk of
digits in at a time, `radixAppend` divides a chunk out at a time.
-/

namespace SnugKV
namespace Codecs

open Lib

def hexMinDigits : Nat := 32
def hexMaxDigits : Nat := 4096
def bigDecimalMinLen : Nat := 20
/-- `2^256 - 1` has 78 digits. -/
def bigDecimalMaxLen : Nat := 78
def bigDecimalMaxBit : Nat := 256

def allDigits (src : Bytes) : Bool :=
  src.all isDigit

/-! ## Hex -/

def hexFlagPrefix : UInt8 := 0x01
def hexCaseShift : UInt8 := 1
def hexCaseMask : UInt8 := (0x03 : UInt8) <<< 1
def hexCaseUpper : UInt8 := 1
def hexCaseMixed : UInt8 := 2
def hexKnownFlags : UInt8 := hexFlagPrefix ||| hexCaseMask

/-- The value of a hex digit, and whether it is an upper-case letter. -/
def hexValue (b : UInt8) : Option (UInt8 × Bool) :=
  if '0'.toUInt8 ≤ b ∧ b ≤ '9'.toUInt8 then some (b - '0'.toUInt8, false)
  else if 'a'.toUInt8 ≤ b ∧ b ≤ 'f'.toUInt8 then some (b - 'a'.toUInt8 + 10, false)
  else if 'A'.toUInt8 ≤ b ∧ b ≤ 'F'.toUInt8 then some (b - 'A'.toUInt8 + 10, true)
  else none

def isUpperHex (b : UInt8) : Bool :=
  decide ('A'.toUInt8 ≤ b ∧ b ≤ 'F'.toUInt8)

def isLowerHex (b : UInt8) : Bool :=
  decide ('a'.toUInt8 ≤ b ∧ b ≤ 'f'.toUInt8)

def hexBody : Bytes → Option Bytes
  | [] => some []
  | [_] => none
  | a :: b :: rest =>
    match hexValue a, hexValue b with
    | some (hi, _), some (lo, _) => (hexBody rest).map ((hi <<< 4 ||| lo) :: ·)
    | _, _ => none

/-- One bit for each of eight digits, set for an upper-case letter. -/
def maskByte (digits : Bytes) : UInt8 :=
  (List.range 8).foldl
    (fun m i => if isUpperHex (digits.getD i 0) then m ||| (1 : UInt8) <<< UInt8.ofNat i else m) 0

/-- The case mask of the digits: `(n + 7) / 8` bytes. -/
def upperMask (digits : Bytes) : Bytes :=
  (List.range ((digits.length + 7) / 8)).map (fun i => maskByte (digits.drop (8 * i)))

def hexTextHasPrefix (src : Bytes) : Bool :=
  src.take 2 == ascii "0x"

def hexEncode (src : Bytes) : Option Bytes :=
  let flags : UInt8 := if hexTextHasPrefix src then hexFlagPrefix else 0
  let digits := if hexTextHasPrefix src then src.drop 2 else src
  if digits.length < hexMinDigits ∨ hexMaxDigits < digits.length ∨ digits.length % 2 ≠ 0 then none
  else
    match hexBody digits with
    | none => none
    | some body =>
      let sawUpper := digits.any isUpperHex
      let sawLower := digits.any isLowerHex
      if sawUpper && sawLower then
        some ((flags ||| hexCaseMixed <<< hexCaseShift) :: body ++ upperMask digits)
      else if sawUpper then some ((flags ||| hexCaseUpper <<< hexCaseShift) :: body)
      else some (flags :: body)

def upperHexDigits : Bytes :=
  ascii "0123456789ABCDEF"

/-- Whether the digit at `pos` is written in upper case. -/
def upperAt (caseMode : UInt8) (mask : Bytes) (pos : Nat) : Bool :=
  if caseMode = hexCaseUpper then true
  else if caseMode = hexCaseMixed then
    mask.getD (pos / 8) 0 &&& (1 : UInt8) <<< UInt8.ofNat (pos % 8) != 0
  else false

def hexDigitAt (caseMode : UInt8) (mask : Bytes) (pos : Nat) (nib : UInt8) : UInt8 :=
  (if upperAt caseMode mask pos then upperHexDigits else hexDigits).getD nib.toNat 0

/-- `appendHexDigits` from digit position `pos` on. -/
def hexText (caseMode : UInt8) (mask : Bytes) : Nat → Bytes → Bytes
  | _, [] => []
  | pos, b :: rest =>
    hexDigitAt caseMode mask pos (b >>> 4) :: hexDigitAt caseMode mask (pos + 1) (b &&& 0x0f) ::
      hexText caseMode mask (pos + 2) rest

def hexDecode (src : Bytes) (rawLength : Nat) : Result :=
  match src with
  | [] => .error "invalid hex payload"
  | flags :: body =>
    if flags &&& ~~~hexKnownFlags ≠ 0 then .error "unknown hex flags"
    else
      let caseMode := (flags &&& hexCaseMask) >>> hexCaseShift
      if hexCaseMixed < caseMode then .error "unknown hex case mode"
      else
        let hasPrefix := flags &&& hexFlagPrefix != 0
        -- a length below the prefix is below the least number of digits, too
        let digits := if hasPrefix then rawLength - 2 else rawLength
        if digits < hexMinDigits ∨ hexMaxDigits < digits ∨ digits % 2 ≠ 0 then
          .error "invalid hex length"
        else
          let want := digits / 2
          let maskLen := if caseMode = hexCaseMixed then (digits + 7) / 8 else 0
          if body.length ≠ want + maskLen then .error "invalid hex payload length"
          else
            .ok ((if hasPrefix then ascii "0x" else []) ++
              hexText caseMode (body.drop want) 0 (body.take want))

/-! ## Radix conversion -/

/-- `limbs = limbs*mult + carry`, little-endian limbs of 32 bits. -/
def mulAdd (mult : Nat) : Nat → List Nat → List Nat
  | carry, [] => growLimbs 3 carry
  | carry, limb :: limbs =>
    let cur := limb * mult + carry
    cur % 2 ^ 32 :: mulAdd mult (cur / 2 ^ 32) limbs
where
  /-- `for carry != 0`: a 64-bit carry fills two limbs at most. -/
  growLimbs : Nat → Nat → List Nat
    | 0, _ => []
    | fuel + 1, carry => if carry = 0 then [] else carry % 2 ^ 32 :: growLimbs fuel (carry / 2 ^ 32)

/-- The digits of one chunk as a number, and the power of the radix it stands for. -/
def chunkValue (radix : Nat) (digit : UInt8 → Option Nat) : Nat × Nat → Bytes → Option (Nat × Nat)
  | r, [] => some r
  | (val, mult), c :: rest =>
    match digit c with
    | none => none
    | some d => chunkValue radix digit (val * radix + d, mult * radix) rest

def radixLimbs (radix chunk : Nat) (digit : UInt8 → Option Nat) :
    Nat → Bytes → List Nat → Option (List Nat)
  | 0, _, limbs => some limbs
  | fuel + 1, text, limbs =>
    if text = [] then some limbs
    else
      match chunkValue radix digit (0, 1) (text.take chunk) with
      | none => none
      | some (val, mult) =>
        radixLimbs radix chunk digit fuel (text.drop chunk) (mulAdd mult val limbs)

def limbBytes (limb : Nat) : Bytes :=
  (putUint 4 limb).reverse

/-- The big-endian bytes of a text in the given radix, without leading zeros. -/
def radixDecode (text : Bytes) (radix chunk : Nat) (digit : UInt8 → Option Nat) : Option Bytes :=
  (radixLimbs radix chunk digit text.length text []).map fun limbs =>
    (limbs.reverse.flatMap limbBytes).dropWhile (· == 0)

def quadLimbs : Bytes → List Nat
  | a :: b :: c :: d :: rest => getUint [d, c, b, a] :: quadLimbs rest
  | _ => []

/-- Big-endian limbs of 32 bits, a shorter one in front, without leading zeros. -/
def limbsOf (src : Bytes) : List Nat :=
  let first := src.length % 4
  let head := if first ≠ 0 then [getUint (src.take first).reverse] else []
  (head ++ quadLimbs (src.drop first)).dropWhile (· == 0)

/-- Long division of the limbs by `div`: the quotient limbs and the remainder. -/
def divLimbs (div : Nat) : Nat → List Nat → List Nat × Nat
  | rem, [] => ([], rem)
  | rem, limb :: limbs =>
    let cur := rem * 2 ^ 32 + limb
    let rest := divLimbs div (cur % div) limbs
    (cur / div % 2 ^ 32 :: rest.1, rest.2)

/-- The `k` low digits of `rem`, least significant first. -/
def chunkDigits (radix : Nat) (symbols : Bytes) : Nat → Nat → Bytes
  | 0, _ => []
  | k + 1, rem => symbols.getD (rem % radix) 0 :: chunkDigits radix symbols k (rem / radix)

/-- The digits of the limbs, least significant first; every pass divides by `chunkDiv`. -/
def radixDigits (radix chunk chunkDiv : Nat) (symbols : Bytes) : Nat → List Nat → Bytes
  | 0, _ => []
  | fuel + 1, limbs =>
    if limbs = [] then []
    else
      let (quotient, rem) := divLimbs chunkDiv 0 limbs
      chunkDigits radix symbols chunk rem ++
        radixDigits radix chunk chunkDiv symbols fuel (quotient.dropWhile (· == 0))

/-- `radixAppend`: the digits of a big-endian number, without leading zero digits. -/
def radixText (src : Bytes) (radix chunk chunkDiv : Nat) (symbols : Bytes) : Bytes :=
  let out := radixDigits radix chunk chunkDiv symbols (8 * src.length + 1) (limbsOf src)
  out.reverse.dropWhile (· == symbols.getD 0 0)

/-! ## Base58 -/

def base58Alphabet : Bytes :=
  ascii "123456789ABCDEFGHJKLMNPQRSTUVWXYZabcdefghijkmnopqrstuvwxyz"

def base58Chunk : Nat := 58 ^ 5

def base58Digit (c : UInt8) : Option Nat :=
  base58Alphabet.findIdx? (· == c)

/-- Leading `1` characters stand for zero bytes. -/
def base58Decode (src : Bytes) : Option Bytes :=
  let zeros := (src.takeWhile (· == '1'.toUInt8)).length
  (radixDecode (src.drop zeros) 58 5 base58Digit).map (List.replicate zeros 0 ++ ·)

/-- The one decoded width worth a codec. -/
def base58Size (n : Nat) : Bool :=
  n == 32

def base58CodecEncode (src : Bytes) : Option Bytes :=
  if src.length < 32 ∨ 44 < src.length then none
  else
    match base58Decode src with
    | none => none
    | some out => if base58Size out.length then some out else none

def base58CodecDecode (src : Bytes) (rawLength : Nat) : Result :=
  if !base58Size src.length then .error "invalid base58 payload"
  else
    let zeros := (src.takeWhile (· == 0)).length
    let text := List.replicate zeros '1'.toUInt8 ++
      radixText (src.drop zeros) 58 5 base58Chunk base58Alphabet
    if text.length ≠ rawLength then .error "base58 length mismatch" else .ok text

/-! ## Long decimals -/

def decimalDigit (c : UInt8) : Option Nat :=
  if isDigit c then some (digitOf c) else none

def decimalAlphabet : Bytes :=
  ascii "0123456789"

def bigDecimalEncode (src : Bytes) : Option Bytes :=
  if src.length < bigDecimalMinLen ∨ bigDecimalMaxLen < src.length ∨ src.getD 0 0 = digit0 then none
  else
    match radixDecode src 10 9 decimalDigit with
    | none => none
    | some out => if out.length < 9 ∨ bigDecimalMaxBit / 8 < out.length then none else some out

def bigDecimalDecode (src : Bytes) (rawLength : Nat) : Result :=
  if src.length < 9 ∨ bigDecimalMaxBit / 8 < src.length ∨ src.getD 0 0 = 0 then
    .error "invalid big decimal payload"
  else
    let text := radixText src 10 9 1000000000 decimalAlphabet
    if text.length ≠ rawLength then .error "big decimal length mismatch" else .ok text

end Codecs
end SnugKV
