import SnugKV.Codec.Scalar

/-!
# Compression codecs — repeated bytes, short periods, LZ4 and Zstandard

The first two are exact by construction and are trusted without a decode; the block
compressors are parameters and the registry checks what they return.
-/

namespace SnugKV
namespace Codecs

open Lib

/-! ## Repeated bytes -/

def repeatByteEncode (src : Bytes) : Option Bytes :=
  if src.length < 16 then none
  else if src.tail.all (fun b => b == src.headD 0) then some [src.headD 0]
  else none

def repeatByteDecode (src : Bytes) (n : Nat) : Result :=
  match src with
  | [b] => .ok (List.replicate n b)
  | _ => .error "invalid repeat-byte record"

/-- `for i := range dst { dst[i] = src[0] }` -/
def repeatByteDecodeInto (src : Bytes) (n : Nat) (dst : Bytes) : Result :=
  match src with
  | [b] => .ok ((reslice dst n).map (fun _ => b))
  | _ => .error "invalid repeat-byte record"

/-! ## Short periods -/

/-- Every byte from `period` on repeats the one a period before. -/
def hasPeriod (src : Bytes) (period : Nat) : Bool :=
  (List.range' period (src.length - period)).all
    (fun i => src.getD i 0 == src.getD (i - period) 0)

def periodicEncode (src : Bytes) : Option Bytes :=
  if src.length < 32 then none
  else
    let maxPeriod := if src.length / 2 < 64 then src.length / 2 else 64
    let found := (List.range' 2 (maxPeriod - 1)).find? fun period =>
      src.getD period 0 == src.getD 0 0 && hasPeriod src period
    found.map (fun period => src.take period)

/-- `copied += copy(dst[copied:], dst[:copied])` until the destination is full. -/
def doubleUp : Nat → Bytes → Nat → Bytes
  | 0, dst, _ => dst
  | fuel + 1, dst, copied =>
    if copied < dst.length then
      let chunk := (dst.take copied).take (dst.length - copied)
      doubleUp fuel (writeAt dst copied chunk) (copied + chunk.length)
    else dst

def expandPeriodic (dst pattern : Bytes) : Bytes :=
  if dst.length = 0 then dst
  else
    let first := pattern.take dst.length
    doubleUp dst.length (writeAt dst 0 first) first.length

def periodicDecode (src : Bytes) (n : Nat) : Result :=
  if src.length < 2 ∨ 64 < src.length ∨ n < src.length then .error "invalid periodic record"
  else .ok (expandPeriodic (List.replicate n 0) src)

def periodicDecodeInto (src : Bytes) (n : Nat) (dst : Bytes) : Result :=
  if src.length < 2 ∨ 64 < src.length ∨ n < src.length then .error "invalid periodic record"
  else .ok (expandPeriodic (reslice dst n) src)

/-! ## LZ4 and Zstandard -/

def lz4Encode (p : Platform) (src : Bytes) : Option Bytes :=
  if src.length < 256 then none
  else
    match p.lz4Compress src with
    | none => none
    | some out =>
      if out.length = 0 ∨ src.length * 7 < out.length * 8 then none else some out

/-- The block is written into `n` bytes, whatever they held. -/
def lz4Decode (p : Platform) (src : Bytes) (n : Nat) : Result :=
  match p.lz4Uncompress src n with
  | none => .error "lz4: invalid source or destination buffer too short"
  | some out => if out.length ≠ n then .error "LZ4 length mismatch" else .ok out

def lz4DecodeInto (p : Platform) (src : Bytes) (n : Nat) (dst : Bytes) : Result :=
  match p.lz4Uncompress src (reslice dst n).length with
  | none => .error "lz4: invalid source or destination buffer too short"
  | some out => if out.length ≠ n then .error "LZ4 length mismatch" else .ok out

def zstdDecoderMaxMemory : Nat := 64 * 2 ^ 20

def zstdCodecEncode (p : Platform) (src : Bytes) : Option Bytes :=
  if src.length < 1024 then none
  else if src.length * 4 < (p.zstdEncode src).length * 5 then none
  else some (p.zstdEncode src)

/-- `DecodeAll` under `WithDecodeAllCapLimit`: an output above the capacity is refused. -/
def zstdDecodeAll (p : Platform) (src : Bytes) (cap : Nat) : Result :=
  match p.zstdContent src with
  | none => .error "zstd: invalid input"
  | some out =>
    if cap < out.length then .error "decompressed size exceeds configured limit" else .ok out

def zstdDecodeCap (p : Platform) (src : Bytes) (n cap : Nat) : Result :=
  if zstdDecoderMaxMemory < n then .error "Zstandard length out of range"
  else
    match zstdDecodeAll p src cap with
    | .error e => .error e
    | .ok out => if out.length ≠ n then .error "Zstandard length mismatch" else .ok out

def zstdDecode (p : Platform) (src : Bytes) (n : Nat) : Result :=
  zstdDecodeCap p src n n

def zstdDecodeInto (p : Platform) (src : Bytes) (n : Nat) (dst : Bytes) : Result :=
  zstdDecodeCap p src n (max dst.length n)

/-- Signatures of formats that are compressed already. -/
def compressedSignatures : List Bytes :=
  [[0x1f, 0x8b], 0x89 :: ascii "PNG", [0xff, 0xd8, 0xff], [0x28, 0xb5, 0x2f, 0xfd],
    [0x04, 0x22, 0x4d, 0x18], ascii "PK" ++ [3, 4]]

def alreadyCompressed (src : Bytes) : Bool :=
  compressedSignatures.any (fun sig => sig.isPrefixOf src)

end Codecs
end SnugKV
