import SnugKV.Codec.Scalar
import SnugKV.Lib.Base64

/-!
# Token accounts — the 165-byte account layout without its absent fields

An account is stored as a flag byte, mint and owner, the amounts as varints, and the optional
fields that are present.  The text may be the 165 bytes themselves or their 220 characters of
standard base64.
-/

namespace SnugKV
namespace Codecs

open Lib

/-! ## The account layout -/

def tokenAccountSize : Nat := 165
/-- 165 bytes in standard base64 need no padding. -/
def tokenAccountB64Size : Nat := 220

def tokenFlagDelegate : UInt8 := 1
def tokenFlagNative : UInt8 := 2
def tokenFlagClose : UInt8 := 4
def tokenStateShift : UInt8 := 3
def tokenStateMask : UInt8 := (3 : UInt8) <<< 3
def tokenKnownFlags : UInt8 :=
  tokenFlagDelegate ||| tokenFlagNative ||| tokenFlagClose ||| tokenStateMask

def offMint : Nat := 0
def offAmount : Nat := 64
def offDelegateTag : Nat := 72
def offDelegate : Nat := 76
def offState : Nat := 108
def offNativeTag : Nat := 109
def offNative : Nat := 113
def offDelegated : Nat := 121
def offCloseTag : Nat := 129
def offClose : Nat := 133

/-- The tag of an optional field; the payload of an absent one must be zero, as it is not
stored. -/
def tokenOption (raw : Bytes) (tagOff valOff size : Nat) : Option Bool :=
  match getUint (readAt raw tagOff 4) with
  | 1 => some true
  | 0 => if (readAt raw valOff size).all (· == 0) then some false else none
  | _ => none

/-- The account bytes of either form of the text. -/
def tokenAccountBytes (src : Bytes) : Option Bytes :=
  if src.length = tokenAccountB64Size then
    match base64Decode true src with
    | none => none
    | some raw => if raw.length ≠ tokenAccountSize then none else some raw
  else if src.length ≠ tokenAccountSize then none
  else some src

def tokenWord (raw : Bytes) (off : Nat) : Bytes :=
  putUvarint (getUint (readAt raw off 8))

def tokenEncode (src : Bytes) : Option Bytes :=
  match tokenAccountBytes src with
  | none => none
  | some raw =>
    let state := raw.getD offState 0
    if 2 < state then none
    else
      match tokenOption raw offDelegateTag offDelegate 32, tokenOption raw offNativeTag offNative 8,
        tokenOption raw offCloseTag offClose 32 with
      | some delegate, some native, some closeAuth =>
        let flags := state <<< tokenStateShift |||
          (if delegate then tokenFlagDelegate else 0) |||
          (if native then tokenFlagNative else 0) |||
          (if closeAuth then tokenFlagClose else 0)
        some (flags :: readAt raw offMint 64 ++ tokenWord raw offAmount ++
          (if delegate then readAt raw offDelegate 32 else []) ++
          (if native then tokenWord raw offNative else []) ++
          tokenWord raw offDelegated ++
          (if closeAuth then readAt raw offClose 32 else []))
      | _, _, _ => none

/-! ## Reading a record -/

/-- `next`: a varint off the payload. -/
def tokenNext (p : Bytes) : Except String (Nat × Bytes) :=
  match uvarint p with
  | none => .error "invalid token account varint"
  | some (v, n) => .ok (v, p.drop n)

/-- `take`: a fixed number of bytes off the payload. -/
def tokenTake (size : Nat) (p : Bytes) : Except String (Bytes × Bytes) :=
  if p.length < size then .error "short token account payload" else .ok (p.take size, p.drop size)

/-- An amount: eight bytes of the account, a varint of the payload. -/
def tokenAmount (off : Nat) (raw p : Bytes) : Except String (Bytes × Bytes) := do
  let (v, p) ← tokenNext p
  .ok (writeAt raw off (putUint 8 v), p)

/-- An optional key of 32 bytes, behind its tag. -/
def tokenKey (present : Bool) (tagOff off : Nat) (raw p : Bytes) : Except String (Bytes × Bytes) :=
  if present then do
    let (b, p) ← tokenTake 32 p
    .ok (writeAt (writeAt raw tagOff (putUint 4 1)) off b, p)
  else .ok (raw, p)

/-- The optional native balance, behind its tag. -/
def tokenNative (present : Bool) (raw p : Bytes) : Except String (Bytes × Bytes) :=
  if present then tokenAmount offNative (writeAt raw offNativeTag (putUint 4 1)) p else .ok (raw, p)

def tokenFields (flags : UInt8) (raw p : Bytes) : Result := do
  let (raw, p) ← tokenAmount offAmount raw p
  let (raw, p) ← tokenKey (flags &&& tokenFlagDelegate != 0) offDelegateTag offDelegate raw p
  let raw := writeAt raw offState [(flags &&& tokenStateMask) >>> tokenStateShift]
  let (raw, p) ← tokenNative (flags &&& tokenFlagNative != 0) raw p
  let (raw, p) ← tokenAmount offDelegated raw p
  let (raw, p) ← tokenKey (flags &&& tokenFlagClose != 0) offCloseTag offClose raw p
  if p.length ≠ 0 then .error "trailing token account bytes" else .ok raw

def tokenAccountOf (src : Bytes) : Result :=
  match src with
  | [] => .error "short token account payload"
  | flags :: p =>
    if src.length < 1 + 64 + 1 + 1 then .error "short token account payload"
    else if flags &&& ~~~tokenKnownFlags ≠ 0 then .error "unknown token account flags"
    else if 2 < (flags &&& tokenStateMask) >>> tokenStateShift then
      .error "invalid token account state"
    else
      tokenFields flags (writeAt (List.replicate tokenAccountSize 0) offMint (p.take 64))
        (p.drop 64)

def tokenDecode (src : Bytes) (rawLength : Nat) : Result :=
  if rawLength ≠ tokenAccountSize ∧ rawLength ≠ tokenAccountB64Size then
    .error "invalid token account length"
  else
    match tokenAccountOf src with
    | .error e => .error e
    | .ok raw => if rawLength = tokenAccountSize then .ok raw else .ok (base64Encode raw)

/-- The base64 text overwrites the first 220 bytes of the destination. -/
def tokenDecodeInto (src : Bytes) (rawLength : Nat) (dst : Bytes) : Result :=
  if rawLength ≠ tokenAccountSize ∧ rawLength ≠ tokenAccountB64Size then
    .error "invalid token account length"
  else
    match tokenAccountOf src with
    | .error e => .error e
    | .ok raw =>
      if rawLength = tokenAccountSize then .ok raw
      else .ok (writeAt (reslice dst tokenAccountB64Size) 0 (base64Encode raw))

end Codecs
end SnugKV
