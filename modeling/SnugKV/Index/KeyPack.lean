import SnugKV.Lib.Hex

/-!
# KeyPack — key records of the index's key log

A key is stored in the log either raw, as its length and its bytes, or, when its tail is a
long run of hex digits, in an escaped form that keeps two digits in a byte:

    0x00 flags [plen prefix] nbytes [mask] payload

The module embeds `packKey`, the writer `record` and the readers `keyAt`, `keyEquals` and
`recordLen`.
-/

namespace SnugKV
namespace Index

open Lib

abbrev Key := Bytes

def packEscape : UInt8 := 0x00
def packCaseMask : UInt8 := 0x03
def packCaseUp : UInt8 := 1
def packCaseMix : UInt8 := 2
def pack0x : UInt8 := 0x04
def packPrefix : UInt8 := 0x08
def packEmpty : UInt8 := 0xff

def packMinDigits : Nat := 16
def packMaxDigits : Nat := 128
def packMaxPrefix : Nat := 255

/-! ## Hex tables -/

/-- The table byte: digit 1, lower-case letter 2, upper-case letter 4, otherwise 0. -/
def hexClass (c : UInt8) : UInt8 :=
  match Hex.classOf c with
  | .digit => 1
  | .lower => 2
  | .upper => 4
  | .none => 0

def hexPairLower (b : UInt8) : UInt8 × UInt8 :=
  (Hex.lowerDigit (b >>> 4), Hex.lowerDigit (b &&& 0x0f))

def hexPairUpper (b : UInt8) : UInt8 × UInt8 :=
  (Hex.upperDigit (b >>> 4), Hex.upperDigit (b &&& 0x0f))

def pairWord (c : UInt8 × UInt8) : UInt16 :=
  c.1.toUInt16 ||| c.2.toUInt16 <<< 8

def hexWordLower (b : UInt8) : UInt16 := pairWord (hexPairLower b)
def hexWordUpper (b : UInt8) : UInt16 := pairWord (hexPairUpper b)

/-! ## Sizes -/

def uvarintLenAux : Nat → Nat → Nat
  | 0, _ => 1
  | fuel + 1, n => if 0x80 ≤ n then uvarintLenAux fuel (n >>> 7) + 1 else 1

/-- A Go `int` is shifted to below `0x80` in at most nine rounds. -/
def uvarintLen (n : Nat) : Nat :=
  uvarintLenAux 9 n

def recordBytes (keyLen : Nat) : Nat :=
  uvarintLen keyLen + keyLen

/-! ## Analysis of a key -/

/-- A key that can be stored in escaped form. -/
structure PackedKey where
  flags : UInt8
  lead : Bytes
  digits : Bytes
  size : Nat
  deriving DecidableEq, Repr

def hexRun (key : Key) : Nat :=
  (key.reverse.takeWhile (fun c => hexClass c != 0)).length

/-- The classes that occur in a run of digits. -/
def seenClasses (digits : Bytes) : UInt8 :=
  digits.foldl (fun seen c => seen ||| hexClass c) 0

def packFlags (has0x : Bool) (prefixLen : Nat) (seen : UInt8) : UInt8 :=
  let flags : UInt8 := if has0x then pack0x else 0
  let flags := if 0 < prefixLen then flags ||| packPrefix else flags
  if seen &&& 2 ≠ 0 ∧ seen &&& 4 ≠ 0 then flags ||| packCaseMix
  else if seen &&& 4 ≠ 0 then flags ||| packCaseUp
  else flags

/-- Where the packed digits start: an odd run gives up its first digit. -/
def digitStart (key : Key) : Nat :=
  if hexRun key % 2 = 1 then key.length - hexRun key + 1 else key.length - hexRun key

/-- Whether a literal `0x` stands right before position `s`. -/
def follows0x (key : Key) (s : Nat) : Bool :=
  decide (2 ≤ s ∧ (key.take s).drop (s - 2) = [0x30, 0x78])

def prefixEnd (key : Key) (s : Nat) : Nat :=
  if follows0x key s then s - 2 else s

def escapedSize (flags : UInt8) (prefixLen ndigits : Nat) : Nat :=
  2 + uvarintLen (ndigits / 2) + ndigits / 2 +
    (if 0 < prefixLen then 1 + prefixLen else 0) +
    (if flags &&& packCaseMask = packCaseMix then (ndigits + 7) / 8 else 0)

/-- The escaped form of a key whose digits start at `s`. -/
def packAt (key : Key) (s : Nat) : PackedKey :=
  let digits := key.drop s
  let flags := packFlags (follows0x key s) (prefixEnd key s) (seenClasses digits)
  { flags, lead := key.take (prefixEnd key s), digits,
    size := escapedSize flags (prefixEnd key s) digits.length }

/-- Whether the key has a packable hex tail, and its escaped form. -/
def packKey (key : Key) : Option PackedKey :=
  if key.length < packMinDigits then none
  else if hexRun key < packMinDigits then none
  else if packMaxDigits < (key.drop (digitStart key)).length then none
  else if packMaxPrefix < prefixEnd key (digitStart key) then none
  else if recordBytes key.length ≤ (packAt key (digitStart key)).size then none
  else some (packAt key (digitStart key))

/-! ## Writing a record -/

/-- One bit for each digit, set for the upper-case letters. -/
def caseMask (digits : Bytes) : Bytes :=
  (List.range digits.length).foldl
    (fun mask i =>
      if hexClass (digits.getD i 0) = 4 then
        mask.modify (i >>> 3) (· ||| 1 <<< UInt8.ofNat (i &&& 7))
      else mask)
    (List.replicate ((digits.length + 7) / 8) 0)

/-- `packedKey.appendTo`, as the bytes it appends. -/
def PackedKey.encode (p : PackedKey) : Bytes :=
  [packEscape, p.flags] ++
    (if p.flags &&& packPrefix ≠ 0 then UInt8.ofNat p.lead.length :: p.lead else []) ++
    putUvarint (p.digits.length / 2) ++
    (if p.flags &&& packCaseMask = packCaseMix then caseMask p.digits else []) ++
    Hex.packPairs p.digits

/-- The bytes `appendKey` adds to the log for a key. -/
def record (key : Key) : Bytes :=
  match packKey key with
  | some p => p.encode
  | none => if key.length = 0 then [packEscape, packEmpty] else putUvarint key.length ++ key

/-- `KeyRecordSize`: the log space the key occupies, whichever form it is stored in. -/
def keyRecordSize (key : Key) : Nat :=
  if key.length = 0 then 2
  else
    match packKey key with
    | some p => p.size
    | none => recordBytes key.length

/-! ## Reading a record -/

/-- An escaped record, split. -/
structure PackedParts where
  flags : UInt8
  lead : Bytes
  mask : Bytes
  payload : Bytes
  total : Nat
  deriving DecidableEq, Repr

/-- `binary.Uvarint`, which gives width 0 on a malformed varint. -/
def readUvarint (b : Bytes) : Nat × Nat :=
  (uvarint b).getD (0, 0)

def PackedParts.parse (rec : Bytes) : PackedParts :=
  let flags := rec.getD 1 0
  if flags = packEmpty then { flags, lead := [], mask := [], payload := [], total := 2 }
  else
    let lead := if flags &&& packPrefix ≠ 0 then
      (rec.drop 3).take (rec.getD 2 0).toNat else []
    let i := if flags &&& packPrefix ≠ 0 then 2 + (1 + (rec.getD 2 0).toNat) else 2
    let v := readUvarint (rec.drop i)
    let i := i + v.2
    let mixed := flags &&& packCaseMask = packCaseMix
    let m := (v.1 * 2 + 7) / 8
    let mask := if mixed then (rec.drop i).take m else []
    let i := if mixed then i + m else i
    { flags, lead, mask, payload := (rec.drop i).take v.1, total := i + v.1 }

/-- The two case bits of payload byte `j`. -/
def PackedParts.caseBits (p : PackedParts) (j : Nat) : UInt8 :=
  p.mask.getD (j >>> 2) 0 >>> (UInt8.ofNat (j &&& 3) * 2) &&& 3

/-- The two digits of payload byte `j`; a flagged letter is raised by clearing bit 5. -/
def PackedParts.digitPair (p : PackedParts) (j : Nat) (b : UInt8) : UInt8 × UInt8 :=
  let pair := if p.flags &&& packCaseMask = packCaseUp then hexPairUpper b else hexPairLower b
  if p.flags &&& packCaseMask = packCaseMix then
    (pair.1 - (p.caseBits j &&& 1) <<< 5, pair.2 - (p.caseBits j >>> 1) <<< 5)
  else pair

def PackedParts.digitsFrom (p : PackedParts) : Nat → Bytes → Bytes
  | _, [] => []
  | j, b :: bs => (p.digitPair j b).1 :: (p.digitPair j b).2 :: p.digitsFrom (j + 1) bs

/-- `packedParts.appendKey`, as the decoded key. -/
def PackedParts.key (p : PackedParts) : Key :=
  if p.flags = packEmpty then []
  else
    p.lead ++ (if p.flags &&& pack0x ≠ 0 then [0x30, 0x78] else []) ++ p.digitsFrom 0 p.payload

/-- The word payload byte `j` is compared by. -/
def PackedParts.wantWord (p : PackedParts) (j : Nat) (b : UInt8) : UInt16 :=
  let want := if p.flags &&& packCaseMask = packCaseUp then hexWordUpper b else hexWordLower b
  if p.flags &&& packCaseMask = packCaseMix then
    let low : UInt16 := (p.caseBits j &&& 1).toUInt16 * 0x20
    let high : UInt16 := (p.caseBits j >>> 1).toUInt16 <<< 13
    want - (low + high)
  else want

def PackedParts.equalsFrom (p : PackedParts) : Nat → Bytes → Bytes → Bool
  | _, [], _ => true
  | j, b :: bs, c :: d :: rest =>
    if pairWord (c, d) ≠ p.wantWord j b then false else p.equalsFrom (j + 1) bs rest
  | _, _ :: _, _ => false

/-- Compares the decoded key with `key` without decoding it. -/
def PackedParts.equals (p : PackedParts) (key : Key) : Bool :=
  if p.flags = packEmpty then decide (key.length = 0)
  else
    let has0x := p.flags &&& pack0x ≠ 0
    let n := p.lead.length + 2 * p.payload.length
    let n := if has0x then n + 2 else n
    if n ≠ key.length then false
    else
      let i := p.lead.length
      if p.lead ≠ key.take i then false
      else if has0x ∧ (key.drop i).take 2 ≠ [0x30, 0x78] then false
      else p.equalsFrom 0 p.payload (key.drop (if has0x then i + 2 else i))

/-- The position and the length of a raw key, relative to its record. -/
def rawRecord (b : Bytes) : Nat × Nat :=
  let c := b.getD 0 0
  if c < 0x80 then (1, c.toNat)
  else ((readUvarint b).2, (readUvarint b).1)

def keyAt (log : Bytes) (offset : Nat) : Key :=
  let b := log.drop offset
  if b.getD 0 0 = packEscape then (PackedParts.parse b).key
  else (b.drop (rawRecord b).1).take (rawRecord b).2

/-- Whether the key stored at the offset is `key`. -/
def keyEquals (log : Bytes) (offset : Nat) (key : Key) : Bool :=
  let b := log.drop offset
  if b.getD 0 0 = packEscape then (PackedParts.parse b).equals key
  else if (rawRecord b).2 ≠ key.length then false
  else (b.drop (rawRecord b).1).take (rawRecord b).2 == key

def recordLen (log : Bytes) (offset : Nat) : Nat :=
  let b := log.drop offset
  if b.getD 0 0 = packEscape then (PackedParts.parse b).total
  else (rawRecord b).1 + (rawRecord b).2

end Index
end SnugKV
