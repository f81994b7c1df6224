import SnugKV.Lib.Buffer
import SnugKV.Persistence.Record

/-!
# Log frames — writing and reading a log file

The three frame kinds of `persistence/log.go` share one envelope: the length and the CRC-32 of
the payload, then the payload.  `readLog` is `Read`: it hands the records of each complete frame to
`apply` and returns the offset behind the last of them.
-/

namespace SnugKV
namespace Persistence

open Lib

/-! ## Errors -/

inductive Error where
  | eof
  | unexpectedEOF
  /-- What the JSON decoder reports. -/
  | json
  | text (msg : String)
deriving DecidableEq

def errFrameLimit : Error := .text "persistence frame exceeds limit"
def errPlainSetBatch : Error := .text "invalid plain SET batch"
def errFormat : Error := .text "unknown persistence format"
def errChecksum : Error := .text "persistence checksum mismatch"
def errPlainSetFrame : Error := .text "invalid plain SET persistence frame"
def errPlainSetBatchFrame : Error := .text "invalid plain SET batch persistence frame"
def errTrailingBatch : Error := .text "trailing plain SET batch persistence data"
def errTrailingFrame : Error := .text "trailing frame data"

/-! ## Checksum -/

/-- One bit of the reflected CRC-32 with the IEEE polynomial. -/
def crcBit (c : UInt32) : UInt32 :=
  if c &&& 1 = 1 then (c >>> 1) ^^^ 0xEDB88320 else c >>> 1

def crcByte (c : UInt32) (b : UInt8) : UInt32 :=
  crcBit^[8] (c ^^^ b.toUInt32)

def checksumIEEE (payload : Bytes) : UInt32 :=
  ~~~(payload.foldl crcByte 0xFFFFFFFF)

/-! ## Writing -/

def magic : Bytes := ascii "MCLOG001"

def maxFrameBytes : Nat := 128 * 2 ^ 20

def plainSetFrameTag : UInt8 := 0
def plainSetBatchFrameTag : UInt8 := 1

def envelope (payload : Bytes) : Bytes :=
  putUint 4 payload.length ++ putUint 4 (checksumIEEE payload).toNat ++ payload

/-- `json.Marshal` of a slice of records; a nil slice is null. -/
def marshalRecords : Option (List Record) → Bytes
  | none => Json.render .null
  | some records => Json.render ((Json.listKind recordKind).write records)

def writeFrame (records : Option (List Record)) : Except Error Bytes :=
  let payload := marshalRecords records
  if payload.length > maxFrameBytes then .error errFrameLimit else .ok (envelope payload)

def plainSetPayload (key value : Bytes) : Bytes :=
  plainSetFrameTag :: putUint 4 key.length ++ key ++ value

def encodePlainSetFrame (key value : Bytes) : Except Error Bytes :=
  if 5 + key.length + value.length > maxFrameBytes then .error errFrameLimit
  else .ok (envelope (plainSetPayload key value))

def plainPair (p : Bytes × Bytes) : Bytes :=
  putUint 4 p.1.length ++ putUint 4 p.2.length ++ p.1 ++ p.2

def plainSetBatchPayload (keys values : List Bytes) : Bytes :=
  plainSetBatchFrameTag :: putUint 4 keys.length ++ (keys.zip values).flatMap plainPair

def plainSetBatchLength (keys values : List Bytes) : Nat :=
  5 + ((keys.zip values).map (fun p => 8 + p.1.length + p.2.length)).sum

def encodePlainSetBatchFrame (keys values : List Bytes) : Except Error Bytes :=
  if keys.length = 0 ∨ keys.length ≠ values.length then .error errPlainSetBatch
  else if plainSetBatchLength keys values > maxFrameBytes then .error errFrameLimit
  else .ok (envelope (plainSetBatchPayload keys values))

/-! ## Reading a payload -/

/-- `append([]byte(nil), b...)`: nil when there is nothing to append. -/
def appendNil (b : Bytes) : Option Bytes :=
  if b = [] then none else some b

def plainRecord (key value : Bytes) : Record :=
  { key := appendNil key, value := value }

def readPlainSet (payload : Bytes) : Except Error (List Record) :=
  if payload.length < 5 then .error errPlainSetFrame
  else if getUint (readAt payload 1 4) > payload.length - 5 then .error errPlainSetFrame
  else
    .ok [plainRecord (readAt payload 5 (getUint (readAt payload 1 4)))
      (payload.drop (5 + getUint (readAt payload 1 4)))]

/-- The loop over the pairs of a batch, from `pos` on. -/
def readPlainPairs (payload : Bytes) : Nat → Nat → Except Error (List Record)
  | 0, pos => if pos ≠ payload.length then .error errTrailingBatch else .ok []
  | count + 1, pos =>
    if pos + 8 > payload.length then .error errPlainSetBatchFrame
    else
      let keyLen := getUint (readAt payload pos 4)
      let valueLen := getUint (readAt payload (pos + 4) 4)
      if pos + 8 + keyLen + valueLen > payload.length then .error errPlainSetBatchFrame
      else
        match readPlainPairs payload count (pos + 8 + keyLen + valueLen) with
        | .error e => .error e
        | .ok records =>
          .ok (plainRecord (readAt payload (pos + 8) keyLen)
            (readAt payload (pos + 8 + keyLen) valueLen) :: records)

def readPlainSetBatch (payload : Bytes) : Except Error (List Record) :=
  if payload.length < 5 then .error errPlainSetBatchFrame
  else readPlainPairs payload (getUint (readAt payload 1 4)) 5

def readJson (payload : Bytes) : Except Error (List Record) :=
  match Json.parseFirst payload with
  | none => .error .json
  | some (j, rest) =>
    match (Json.listKind recordKind).read [] j with
    | none => .error .json
    | some records =>
      if Json.skipBlanks rest ≠ [] then .error errTrailingFrame else .ok records

def readPayload (payload : Bytes) : Except Error (List Record) :=
  if payload.head? = some plainSetFrameTag then readPlainSet payload
  else if payload.head? = some plainSetBatchFrameTag then readPlainSetBatch payload
  else readJson payload

/-! ## Reading a file -/

/-- What `Read` leaves behind: the state of the callback, the offset and the error. -/
structure ReadResult (σ : Type) where
  state : σ
  offset : Nat
  err : Option Error

section Read

variable {σ : Type} (apply : σ → List Record → σ × Option Error)

/-- The loop of `Read`.  Each round takes a header, so the length of the data is fuel enough. -/
def readFrames : Nat → Bytes → Nat → σ → ReadResult σ
  | 0, _, offset, s => ⟨s, offset, none⟩
  | fuel + 1, data, offset, s =>
    -- a header that is not complete ends the log
    if data.length < 8 then ⟨s, offset, none⟩
    else
      let length := getUint (readAt data 0 4)
      let payload := readAt data 8 length
      if length > maxFrameBytes then ⟨s, offset, some errFrameLimit⟩
      else if data.length - 8 < length then ⟨s, offset, none⟩
      else if (checksumIEEE payload).toNat ≠ getUint (readAt data 4 4) then
        ⟨s, offset, some errChecksum⟩
      else
        match readPayload payload with
        | .error e => ⟨s, offset, some e⟩
        | .ok records =>
          match apply s records with
          | (s, some e) => ⟨s, offset, some e⟩
          | (s, none) => readFrames fuel (data.drop (8 + length)) (offset + 8 + length) s

def readLog (s : σ) (data : Bytes) : ReadResult σ :=
  if data.length < magic.length then ⟨s, 0, some (if data = [] then .eof else .unexpectedEOF)⟩
  else if data.take magic.length ≠ magic then ⟨s, 0, some errFormat⟩
  else readFrames apply data.length (data.drop magic.length) magic.length s

end Read

/-! ## Files -/

/-- One call that writes a frame. -/
inductive Frame where
  | generic (records : Option (List Record))
  | plainSet (key value : Bytes)
  | plainSetBatch (keys values : List Bytes)

def Frame.encode : Frame → Except Error Bytes
  | .generic records => writeFrame records
  | .plainSet key value => encodePlainSetFrame key value
  | .plainSetBatch keys values => encodePlainSetBatchFrame keys values

def Frame.batch : Frame → List Record
  | .generic records => records.getD []
  | .plainSet key value => [plainRecord key value]
  | .plainSetBatch keys values => (keys.zip values).map (fun p => plainRecord p.1 p.2)

def fileOf (texts : List Bytes) : Bytes :=
  magic ++ texts.flatten

/-- Where frame `k` starts. -/
def frameOffset (texts : List Bytes) (k : Nat) : Nat :=
  magic.length + (texts.take k).flatten.length

/-- How many frames lie completely inside the first `n` bytes of the file. -/
def framesInside (texts : List Bytes) (n : Nat) : Nat :=
  (List.range texts.length).countP (fun k => frameOffset texts (k + 1) ≤ n)

def collect (batches : List (List Record)) (records : List Record) :
    List (List Record) × Option Error :=
  (batches ++ [records], none)

end Persistence
end SnugKV
