import SnugKV.Lib.Binary
import SnugKV.Lib.Buffer

/-!
# Entry — stream ids, entries and their packed bytes

`engine/stream.go` and the readers of `engine/stream_body.go`.  An entry is packed as its id in
sixteen big-endian bytes, the number of fields as a varint, and for each field and each value a
varint length and the bytes.

* `StreamID` with the order `less` decides;
* `entryBytes`, `streamEntrySize` — the packed form and its size;
* `streamEntryIDAt`, `streamEntryEnd`, `decodeStreamEntryAt` — the readers at an offset, `none`
  where the program panics on a corrupt chunk.
-/

namespace SnugKV
namespace Stream

open Lib List

/-! ## Ids -/

@[ext] structure StreamID where
  millis : UInt64
  sequence : UInt64
  deriving DecidableEq, Repr

namespace StreamID

def less (a b : StreamID) : Bool :=
  a.millis < b.millis || (a.millis == b.millis && a.sequence < b.sequence)

/-- Milliseconds first, then the sequence number. -/
def rank (id : StreamID) : Nat ×ₗ Nat := toLex (id.millis.toNat, id.sequence.toNat)

theorem rank_injective : Function.Injective rank := by
  intro a b h
  have hpair : (a.millis.toNat, a.sequence.toNat) = (b.millis.toNat, b.sequence.toNat) :=
    toLex.injective h
  rw [Prod.mk.injEq, UInt64.toNat_inj, UInt64.toNat_inj] at hpair
  exact StreamID.ext hpair.1 hpair.2

instance : LinearOrder StreamID := LinearOrder.lift' rank rank_injective

theorem less_iff {a b : StreamID} : a.less b = true ↔ a < b := by
  have hlex : a < b ↔ a.millis.toNat < b.millis.toNat ∨
      a.millis.toNat = b.millis.toNat ∧ a.sequence.toNat < b.sequence.toNat :=
    Prod.Lex.toLex_lt_toLex
  rw [hlex, ← UInt64.lt_iff_toNat_lt, ← UInt64.lt_iff_toNat_lt, UInt64.toNat_inj]
  simp [less]

@[simp] theorem less_eq_decide (a b : StreamID) : a.less b = decide (a < b) := by
  rw [Bool.eq_iff_iff, less_iff, decide_eq_true_eq]

end StreamID

/-! ## Entries -/

structure StreamField where
  field : Bytes
  value : Bytes
  deriving DecidableEq, Repr

structure StreamEntry where
  id : StreamID
  fields : List StreamField
  deriving DecidableEq, Repr

/-- The lengths of Go slices. -/
def StreamField.Fits (f : StreamField) : Prop :=
  f.field.length < 2 ^ 63 ∧ f.value.length < 2 ^ 63

def StreamEntry.Fits (e : StreamEntry) : Prop :=
  e.fields.length < 2 ^ 63 ∧ ∀ f ∈ e.fields, f.Fits

/-- `binary.BigEndian.PutUint64`. -/
def putUint64 (x : UInt64) : Bytes := (putUint 8 x.toNat).reverse

def getUint64 (bs : Bytes) : UInt64 := UInt64.ofNat (getUint bs.reverse)

/-- `appendStreamID`. -/
def idBytes (id : StreamID) : Bytes := putUint64 id.millis ++ putUint64 id.sequence

/-- `appendStreamString`. -/
def stringBytes (s : Bytes) : Bytes := putUvarint s.length ++ s

def fieldBytes (f : StreamField) : Bytes := stringBytes f.field ++ stringBytes f.value

/-- `appendStreamEntryBytes`. -/
def entryBytes (e : StreamEntry) : Bytes :=
  idBytes e.id ++ putUvarint e.fields.length ++ e.fields.flatMap fieldBytes

def entriesBytes (es : List StreamEntry) : Bytes := es.flatMap entryBytes

/-- `uvarintLen`. -/
def uvarintLenLoop : Nat → Nat → Nat → Nat
  | 0, n, _ => n
  | fuel + 1, n, v => if 0x80 ≤ v then uvarintLenLoop fuel (n + 1) (v >>> 7) else n

def uvarintLen (v : Nat) : Nat := uvarintLenLoop 9 1 v

def streamEntrySize (fields : List StreamField) : Nat :=
  fields.foldl (fun n f =>
      n + (uvarintLen f.field.length + f.field.length + uvarintLen f.value.length +
        f.value.length))
    (16 + uvarintLen fields.length)

theorem length_putUint64 (x : UInt64) : (putUint64 x).length = 8 := by simp [putUint64]

theorem getUint64_putUint64 (x : UInt64) : getUint64 (putUint64 x) = x := by
  have hx := x.toNat_lt
  rw [getUint64, putUint64, reverse_reverse,
    getUint_putUint_of_lt (by norm_num; omega), UInt64.ofNat_toNat]

theorem length_idBytes (id : StreamID) : (idBytes id).length = 16 := by
  simp [idBytes, length_putUint64]

theorem uvarintLenLoop_eq (fuel n v : Nat) (hv : v < 2 ^ (7 * fuel + 7)) :
    uvarintLenLoop fuel n v + 1 = n + (putUvarintAux (fuel + 1) v).length := by
  induction fuel generalizing n v with
  | zero =>
    have hsmall : v < 128 := by simpa using hv
    simp [uvarintLenLoop, putUvarintAux, hsmall]
  | succ fuel ih =>
    by_cases hsmall : v < 128
    · rw [uvarintLenLoop, if_neg (by omega), putUvarintAux, if_pos hsmall]
      simp
    · have hdiv : v >>> 7 = v / 128 := Nat.shiftRight_eq_div_pow v 7
      have hnext : v / 128 < 2 ^ (7 * fuel + 7) := by
        rw [Nat.div_lt_iff_lt_mul (by norm_num)]
        calc v < 2 ^ (7 * (fuel + 1) + 7) := hv
          _ = 2 ^ (7 * fuel + 7) * 128 := by
            rw [show 7 * (fuel + 1) + 7 = (7 * fuel + 7) + 7 by ring, pow_add]
            norm_num
      have hput : putUvarintAux (fuel + 1 + 1) v =
          UInt8.ofNat (v % 128 + 128) :: putUvarintAux (fuel + 1) (v / 128) := if_neg hsmall
      rw [uvarintLenLoop, if_pos (by omega), hdiv, ih (n + 1) (v / 128) hnext, hput, length_cons]
      omega

theorem length_putUvarint {n : Nat} (h : n < 2 ^ 63) : (putUvarint n).length = uvarintLen n := by
  have hlen := uvarintLenLoop_eq 9 1 n (lt_trans h (by norm_num))
  change uvarintLen n + 1 = 1 + (putUvarint n).length at hlen
  omega

theorem length_fieldBytes {f : StreamField} (h : f.Fits) :
    (fieldBytes f).length =
      uvarintLen f.field.length + f.field.length + uvarintLen f.value.length + f.value.length := by
  simp only [fieldBytes, stringBytes, length_append, length_putUvarint h.1, length_putUvarint h.2]
  omega

/-- The size computed before an append is the length of the bytes appended. -/
theorem streamEntrySize_eq {e : StreamEntry} (h : e.Fits) :
    streamEntrySize e.fields = (entryBytes e).length := by
  have hfold : ∀ (fs : List StreamField) (n : Nat), (∀ f ∈ fs, f.Fits) → fs.foldl (fun n f =>
        n + (uvarintLen f.field.length + f.field.length + uvarintLen f.value.length +
          f.value.length)) n = n + (fs.flatMap fieldBytes).length := by
    intro fs
    induction fs with
    | nil => simp
    | cons f fs ih =>
      intro n hfs
      have hf := length_fieldBytes (hfs f (mem_cons_self ..))
      rw [foldl_cons, ih _ (fun g hg => hfs g (mem_cons_of_mem _ hg))]
      simp only [flatMap_cons, length_append, hf]
      omega
  rw [streamEntrySize, hfold _ _ h.2, entryBytes]
  simp only [length_append, length_idBytes, length_putUvarint h.1]

/-! ## Readers -/

/-- `data[off : off+16]` panics past the end. -/
def streamEntryIDAt (data : Bytes) (off : Nat) : Option StreamID :=
  if off + 16 ≤ data.length then
    some ⟨getUint64 (readAt data off 8), getUint64 (readAt data (off + 8) 8)⟩
  else none

def chunkUvarint (data : Bytes) (p : Nat) : Option (Nat × Nat) :=
  if p ≤ data.length then (uvarint (data.drop p)).map fun r => (r.1, p + r.2) else none

/-- The loop of `streamEntryEnd` over the remaining lengths. -/
def skipStrings (data : Bytes) : Nat → Nat → Option Nat
  | 0, p => some p
  | n + 1, p => do
      let (l, p) ← chunkUvarint data p
      skipStrings data n (p + l)

def streamEntryEnd (data : Bytes) (off : Nat) : Option Nat := do
  let (fields, p) ← chunkUvarint data (off + 16)
  let p ← skipStrings data (fields * 2 % 2 ^ 64) p
  if p ≤ data.length then some p else none

def chunkString (data : Bytes) (p : Nat) : Option (Bytes × Nat) := do
  let (l, p) ← chunkUvarint data p
  if p + l ≤ data.length then some (readAt data p l, p + l) else none

def chunkFields (data : Bytes) : Nat → Nat → Option (List StreamField × Nat)
  | 0, p => some ([], p)
  | n + 1, p => do
      let (field, p) ← chunkString data p
      let (value, p) ← chunkString data p
      let (rest, p) ← chunkFields data n p
      some (⟨field, value⟩ :: rest, p)

def decodeStreamEntryAt (data : Bytes) (off : Nat) : Option (StreamEntry × Nat) := do
  let id ← streamEntryIDAt data off
  let (n, p) ← chunkUvarint data (off + 16)
  let (fields, p) ← chunkFields data n p
  some (⟨id, fields⟩, p)

section Readers

variable {data : Bytes} {p : Nat}

theorem chunkUvarint_of_hasAt {n : Nat} (hn : n < 2 ^ 64) (h : HasAt data p (putUvarint n)) :
    chunkUvarint data p = some (n, p + (putUvarint n).length) := by
  have hle := h.bound
  rcases h with ⟨pre, post, rfl, rfl⟩
  rw [chunkUvarint, if_pos (by omega), drop_left, uvarint_putUvarint hn, Option.map_some]

theorem chunkString_of_hasAt {s : Bytes} (hs : s.length < 2 ^ 63)
    (h : HasAt data p (stringBytes s)) :
    chunkString data p = some (s, p + (stringBytes s).length) := by
  rcases hasAt_append.1 h with ⟨hlen, hbytes⟩
  have hbound := hbytes.bound
  rw [chunkString, chunkUvarint_of_hasAt (hs.trans (by decide)) hlen]
  simp only [some_bind]
  rw [if_pos hbound, hbytes.readAt, stringBytes, length_append, add_assoc]

theorem skipStrings_of_hasAt {fs : List StreamField} (hfs : ∀ f ∈ fs, f.Fits)
    (h : HasAt data p (fs.flatMap fieldBytes)) :
    skipStrings data (fs.length * 2) p = some (p + (fs.flatMap fieldBytes).length) := by
  induction fs generalizing p with
  | nil => simp [skipStrings]
  | cons f fs ih =>
    rw [flatMap_cons] at h ⊢
    rcases hasAt_append.1 h with ⟨hf, hrest⟩
    rcases hasAt_append.1 hf with ⟨hfield, hvalue⟩
    have hfits := hfs f (mem_cons_self ..)
    have hl := chunkUvarint_of_hasAt (hfits.1.trans (by decide)) (hasAt_append.1 hfield).1
    have hv := chunkUvarint_of_hasAt (hfits.2.trans (by decide)) (hasAt_append.1 hvalue).1
    have hnext := ih (fun g hg => hfs g (mem_cons_of_mem _ hg)) hrest
    rw [show (f :: fs).length * 2 = fs.length * 2 + 1 + 1 by simp; ring, skipStrings, hl]
    simp only [some_bind]
    rw [skipStrings, show p + (putUvarint f.field.length).length + f.field.length =
      p + (stringBytes f.field).length by simp [stringBytes]; omega, hv]
    simp only [some_bind]
    rw [show p + (stringBytes f.field).length + (putUvarint f.value.length).length +
        f.value.length = p + (fieldBytes f).length by simp [fieldBytes, stringBytes]; omega,
      hnext, length_append, add_assoc]

theorem chunkFields_of_hasAt {fs : List StreamField} (hfs : ∀ f ∈ fs, f.Fits)
    (h : HasAt data p (fs.flatMap fieldBytes)) :
    chunkFields data fs.length p = some (fs, p + (fs.flatMap fieldBytes).length) := by
  induction fs generalizing p with
  | nil => simp [chunkFields]
  | cons f fs ih =>
    rcases hasAt_append.1 h with ⟨hf, hrest⟩
    rcases hasAt_append.1 hf with ⟨hfield, hvalue⟩
    have hfits := hfs f (mem_cons_self ..)
    have hnext := ih (fun g hg => hfs g (mem_cons_of_mem _ hg)) hrest
    rw [length_cons, chunkFields, chunkString_of_hasAt hfits.1 hfield]
    simp only [some_bind]
    rw [chunkString_of_hasAt hfits.2 hvalue]
    simp only [some_bind]
    rw [show p + (stringBytes f.field).length + (stringBytes f.value).length =
      p + (fieldBytes f).length by simp [fieldBytes]; omega, hnext]
    simp [add_assoc]

variable {off : Nat} {e : StreamEntry}

theorem streamIDAt_of_hasAt {id : StreamID} (hid : HasAt data off (idBytes id)) :
    streamEntryIDAt data off = some id := by
  have hbound := hid.bound
  rcases hasAt_append.1 hid with ⟨hmillis, hsequence⟩
  have hm := hmillis.readAt
  have hs := hsequence.readAt
  rw [length_putUint64] at hm hs
  rw [length_idBytes] at hbound
  rw [length_putUint64] at hs
  rw [streamEntryIDAt, if_pos hbound, hm, hs, getUint64_putUint64, getUint64_putUint64]

theorem streamEntryIDAt_of_hasAt (h : HasAt data off (entryBytes e)) :
    streamEntryIDAt data off = some e.id :=
  streamIDAt_of_hasAt (hasAt_append.1 (hasAt_append.1 h).1).1

theorem hasAt_entry_tail (h : HasAt data off (entryBytes e)) :
    HasAt data (off + 16) (putUvarint e.fields.length) ∧
      HasAt data (off + 16 + (putUvarint e.fields.length).length)
        (e.fields.flatMap fieldBytes) := by
  rcases hasAt_append.1 h with ⟨hhead, hfields⟩
  rcases hasAt_append.1 hhead with ⟨_, hcount⟩
  rw [length_append, length_idBytes, ← add_assoc] at hfields
  exact ⟨hcount, hfields⟩

theorem length_entry_tail (off : Nat) (e : StreamEntry) :
    off + 16 + (putUvarint e.fields.length).length + (e.fields.flatMap fieldBytes).length =
      off + (entryBytes e).length := by
  simp [entryBytes, length_idBytes]
  omega

theorem streamEntryEnd_of_hasAt (hfits : e.Fits) (h : HasAt data off (entryBytes e)) :
    streamEntryEnd data off = some (off + (entryBytes e).length) := by
  have hbound := h.bound
  rcases hasAt_entry_tail h with ⟨hcount, hfields⟩
  have hsmall : e.fields.length * 2 % 2 ^ 64 = e.fields.length * 2 :=
    Nat.mod_eq_of_lt (by have := hfits.1; omega)
  rw [streamEntryEnd, chunkUvarint_of_hasAt (hfits.1.trans (by decide)) hcount]
  simp only [some_bind]
  rw [hsmall, skipStrings_of_hasAt hfits.2 hfields]
  simp only [some_bind, length_entry_tail, hbound, if_true]

theorem decodeStreamEntryAt_of_hasAt (hfits : e.Fits) (h : HasAt data off (entryBytes e)) :
    decodeStreamEntryAt data off = some (e, off + (entryBytes e).length) := by
  rcases hasAt_entry_tail h with ⟨hcount, hfields⟩
  rw [decodeStreamEntryAt, streamEntryIDAt_of_hasAt h]
  simp only [some_bind]
  rw [chunkUvarint_of_hasAt (hfits.1.trans (by decide)) hcount]
  simp only [some_bind]
  rw [chunkFields_of_hasAt hfits.2 hfields]
  simp only [some_bind, length_entry_tail]

end Readers

end Stream
end SnugKV
