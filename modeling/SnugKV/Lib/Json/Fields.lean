import SnugKV.Lib.Base64
import SnugKV.Lib.Json.Proofs

/-!
# JSON of typed values

* `Kind` — how values of a type are written, what counts as empty, and how a tree is read into
  an existing value; kinds for booleans, machine integers, strings, bytes, pairs, lists,
  pointers and structures;
* `FieldCodec` — a named field of a structure, left out when it is empty and may be;
* `Kind.Lawful` — reading what was written gives the value back up to the repair of its strings;
  each kind keeps it, and `reads_field` goes through the fields of a structure one by one.
-/

namespace SnugKV
namespace Lib

open List
namespace Json

/-! ## Kinds -/

structure Kind (α : Type) where
  zero : α
  isEmpty : α → Bool
  write : α → Json
  read : α → Json → Option α

def boolKind : Kind Bool where
  zero := false
  isEmpty b := !b
  write b := .bool b
  read old
    | .null => some old
    | .bool b => some b
    | _ => none

/-- Integers of a machine type with its range. -/
def numberKind {α : Type} [DecidableEq α] (zero : α) (toInt : α → Int) (ofInt : Int → α)
    (lo hi : Int) : Kind α where
  zero := zero
  isEmpty n := decide (n = zero)
  write n := .num (toInt n)
  read old
    | .null => some old
    | .num n => if lo ≤ n ∧ n < hi then some (ofInt n) else none
    | _ => none

def int64Kind : Kind Int64 :=
  numberKind 0 Int64.toInt Int64.ofInt (-2 ^ 63) (2 ^ 63)

def uint64Kind : Kind UInt64 :=
  numberKind 0 (fun n => n.toNat) (fun n => UInt64.ofNat n.toNat) 0 (2 ^ 64)

def uint8Kind : Kind UInt8 :=
  numberKind 0 (fun n => n.toNat) (fun n => UInt8.ofNat n.toNat) 0 (2 ^ 8)

/-- Text, which must be UTF-8. -/
def stringKind : Kind Bytes where
  zero := []
  isEmpty s := s.isEmpty
  write s := .str s
  read old
    | .null => some old
    | .str s => some s
    | _ => none

/-- Bytes in base64; an array of small numbers is read, too. -/
def readBytes : Json → Option Bytes
  | .null => some []
  | .str s => base64Decode false s
  | .arr xs => xs.mapM (uint8Kind.read 0)
  | _ => none

def bytesKind : Kind Bytes where
  zero := []
  isEmpty b := b.isEmpty
  write b := .str (base64Encode b)
  read _ j := readBytes j

/-- Bytes that tell a missing slice from an empty one. -/
def sliceKind : Kind (Option Bytes) where
  zero := none
  isEmpty b := (b.getD []).isEmpty
  write
    | none => .null
    | some b => .str (base64Encode b)
  read _
    | .null => some none
    | j => (readBytes j).map some

def both {α : Type} : Option α → Option α → Option (α × α)
  | some a, some b => some (a, b)
  | _, _ => none

/-- An array of two numbers: missing ones are zero, further ones are skipped. -/
def pairKind : Kind (UInt64 × UInt64) where
  zero := (0, 0)
  isEmpty _ := false
  write p := .arr [uint64Kind.write p.1, uint64Kind.write p.2]
  read old
    | .null => some old
    | .arr [] => some (0, 0)
    | .arr [a] => (uint64Kind.read old.1 a).map (fun a => (a, 0))
    | .arr (a :: b :: _) => both (uint64Kind.read old.1 a) (uint64Kind.read old.2 b)
    | _ => none

def listKind {α : Type} (K : Kind α) : Kind (List α) where
  zero := []
  isEmpty xs := xs.isEmpty
  write xs := .arr (xs.map K.write)
  read _
    | .null => some []
    | .arr xs => xs.mapM (K.read K.zero)
    | _ => none

def pointerKind {α : Type} (K : Kind α) : Kind (Option α) where
  zero := none
  isEmpty p := p.isNone
  write
    | none => .null
    | some a => K.write a
  read old
    | .null => some none
    | j => (K.read (old.getD K.zero) j).map some

/-! ## Structures -/

structure FieldCodec (σ : Type) where
  name : Bytes
  skipped : σ → Bool
  write : σ → Json
  read : σ → Json → Option σ

def field {σ α : Type} (name : String) (K : Kind α) (omitEmpty : Bool) (get : σ → α)
    (put : α → σ → σ) : FieldCodec σ where
  name := ascii name
  skipped r := omitEmpty && K.isEmpty (get r)
  write r := K.write (get r)
  read s j := (K.read (get s) j).map (fun a => put a s)

def FieldCodec.text {σ : Type} (r : σ) (f : FieldCodec σ) : List (Bytes × Json) :=
  if f.skipped r then [] else [(f.name, f.write r)]

/-- A field of the text is read into the field of its name; unknown names are refused. -/
def readField {σ : Type} (fields : List (FieldCodec σ)) (s : σ) (kv : Bytes × Json) : Option σ :=
  match fields.find? (fun f => decide (f.name = kv.1)) with
  | some f => f.read s kv.2
  | none => none

def structKind {σ : Type} (zero : σ) (fields : List (FieldCodec σ)) : Kind σ where
  zero := zero
  isEmpty _ := false
  write r := .obj (fields.flatMap (FieldCodec.text r))
  read old
    | .null => some old
    | .obj kvs => kvs.foldlM (readField fields) old
    | _ => none

/-- What is written reads back as `norm` of it, and only values that read as zero are empty. -/
structure Kind.Lawful {α : Type} (K : Kind α) (norm : α → α) : Prop where
  empty : ∀ a, K.isEmpty a = true → norm a = K.zero
  read_write : ∀ a, K.read K.zero (repair (K.write a)) = some (norm a)

theorem lawful_bool : boolKind.Lawful id := ⟨fun b h => by simpa [boolKind] using h, fun _ => rfl⟩

variable {α : Type} {K : Kind α} {norm : α → α} {σ : Type}

theorem read_number [DecidableEq α] {zero : α} {toInt : α → Int} {ofInt : Int → α}
    {lo hi : Int} (hrange : ∀ a, lo ≤ toInt a ∧ toInt a < hi) (hback : ∀ a, ofInt (toInt a) = a)
    (old a : α) : (numberKind zero toInt ofInt lo hi).read old (.num (toInt a)) = some a := by
  simp only [numberKind]
  rw [if_pos (hrange a), hback]

theorem lawful_number [DecidableEq α] {zero : α} {toInt : α → Int} {ofInt : Int → α}
    {lo hi : Int} (hrange : ∀ a, lo ≤ toInt a ∧ toInt a < hi) (hback : ∀ a, ofInt (toInt a) = a) :
    (numberKind zero toInt ofInt lo hi).Lawful id :=
  ⟨fun _ h => of_decide_eq_true h, fun a => read_number hrange hback zero a⟩

theorem uint64_range (a : UInt64) : (0 : Int) ≤ a.toNat ∧ (a.toNat : Int) < 2 ^ 64 :=
  ⟨Int.natCast_nonneg _, by exact_mod_cast a.toNat_lt⟩

theorem lawful_int64 : int64Kind.Lawful id :=
  lawful_number (fun a => ⟨a.le_toInt, a.toInt_lt⟩) Int64.ofInt_toInt

theorem lawful_uint64 : uint64Kind.Lawful id := lawful_number uint64_range (fun a => by simp)

theorem lawful_uint8 : uint8Kind.Lawful id :=
  lawful_number (fun a => ⟨Int.natCast_nonneg _, by exact_mod_cast a.toNat_lt⟩) (fun a => by simp)

theorem lawful_string : stringKind.Lawful toValidUtf8 := by
  refine ⟨fun s h => ?_, fun s => rfl⟩
  rw [isEmpty_iff.1 h]
  rfl

theorem readBytes_base64 (b : Bytes) : readBytes (repair (.str (base64Encode b))) = some b := by
  have hascii : ∀ c ∈ base64Encode b, c < 0x80 := fun c hc => (base64Encode_plain hc).1
  rw [repair, (toValidUtf8_eq_self_iff _).2 (validUtf8_ascii hascii)]
  exact base64Decode_encode false b

theorem lawful_bytes : bytesKind.Lawful id := ⟨fun _ h => isEmpty_iff.1 h, readBytes_base64⟩

theorem read_slice (b : Option Bytes) :
    sliceKind.read sliceKind.zero (repair (sliceKind.write b)) = some (id b) := by
  cases b with
  | none => rfl
  | some b =>
    have h := readBytes_base64 b
    rw [repair] at h
    change (readBytes (.str (toValidUtf8 (base64Encode b)))).map some = _
    rw [h]
    rfl

theorem read_uint64 (old a : UInt64) : uint64Kind.read old (.num a.toNat) = some a :=
  read_number uint64_range (fun a => by simp) old a

theorem lawful_pair : pairKind.Lawful id := by
  refine ⟨fun _ h => (Bool.false_ne_true h).elim, fun p => ?_⟩
  have hread : ∀ a b : Json, pairKind.read pairKind.zero (.arr [a, b]) =
      both (uint64Kind.read 0 a) (uint64Kind.read 0 b) := fun _ _ => rfl
  have hwrite : repair (pairKind.write p) = .arr [.num p.1.toNat, .num p.2.toNat] := rfl
  rw [hwrite, hread, read_uint64, read_uint64]
  rfl

theorem repairElems_map (xs : List Json) : repairElems xs = xs.map repair := by
  induction xs with
  | nil => rfl
  | cons x xs ih => rw [repairElems, ih, map_cons]

theorem mapM_some {β γ : Type} {write : α → β} {read : β → Option γ} {norm : α → γ}
    (h : ∀ a, read (write a) = some (norm a)) (xs : List α) :
    (xs.map write).mapM read = some (xs.map norm) := by
  induction xs with
  | nil => rfl
  | cons x xs ih => simp [mapM_cons, h x, ih]

theorem lawful_list (hK : K.Lawful norm) : (listKind K).Lawful (map norm) := by
  refine ⟨fun xs h => by rw [isEmpty_iff.1 h]; rfl, fun xs => ?_⟩
  change (repairElems (xs.map K.write)).mapM (K.read K.zero) = _
  rw [repairElems_map, map_map]
  exact mapM_some hK.read_write xs

theorem lawful_list_id (hK : K.Lawful id) : (listKind K).Lawful id := by
  simpa using lawful_list hK

theorem lawful_pointer (hK : K.Lawful norm)
    (hnull : ∀ a, repair (K.write a) ≠ .null) : (pointerKind K).Lawful (Option.map norm) := by
  refine ⟨fun p h => by rw [Option.isNone_iff_eq_none.1 h]; rfl, fun p => ?_⟩
  cases p with
  | none => rfl
  | some a =>
    have h := hK.read_write a
    have hread : ∀ j, j ≠ Json.null →
        (pointerKind K).read (pointerKind K).zero j = (K.read K.zero j).map some := by
      intro j hj
      cases j with
      | null => exact absurd rfl hj
      | _ => rfl
    change (pointerKind K).read _ (repair (K.write a)) = _
    rw [hread _ (hnull a), h]
    rfl

/-- A list that is written as null when it is empty. -/
def nilListKind {α : Type} (K : Kind α) : Kind (List α) :=
  { listKind K with write := fun xs => if xs.isEmpty then .null else (listKind K).write xs }

theorem lawful_pointer_id (hK : K.Lawful id)
    (hnull : ∀ a, repair (K.write a) ≠ .null) : (pointerKind K).Lawful id := by
  simpa using lawful_pointer hK hnull

/-! ## Laws of structures -/

theorem repair_struct_ne_null (zero : σ) (fields : List (FieldCodec σ)) (r : σ) :
    repair ((structKind zero fields).write r) ≠ .null := by
  intro h
  cases h

theorem repairFields_append (xs ys : List (Bytes × Json)) :
    repairFields (xs ++ ys) = repairFields xs ++ repairFields ys := by
  induction xs with
  | nil => rfl
  | cons x xs ih =>
    rw [cons_append, repairFields, ih, repairFields, cons_append]

/-- Reading what the fields `fs` of `r` wrote takes `s` to `t`. -/
def ReadsFields {σ : Type} (fields fs : List (FieldCodec σ)) (r s t : σ) : Prop :=
  (repairFields (fs.flatMap (FieldCodec.text r))).foldlM (readField fields) s = some t

theorem readsFields_nil {fields : List (FieldCodec σ)} {r s : σ} :
    ReadsFields fields [] r s s :=
  rfl

section OneField

variable {σ α : Type} {fields fs : List (FieldCodec σ)} {name : String} {K : Kind α}
  {omitEmpty : Bool} {get : σ → α} {put : α → σ → σ} {norm : α → α} {r s t : σ}

/-- A field that is written: it still was zero, and takes the value from the text. -/
theorem readsFields_written (hread : K.read K.zero (repair (K.write (get r))) = some (norm (get r)))
    (h : ReadsFields fields fs r (put (norm (get r)) s) t)
    (hskip : ¬ (field name K omitEmpty get put).skipped r = true)
    (hfind : fields.find? (fun f => decide (f.name = ascii name)) =
      some (field name K omitEmpty get put) := by rfl)
    (hname : toValidUtf8 (ascii name) = ascii name := by decide +kernel)
    (hzero : get s = K.zero := by rfl) :
    ReadsFields fields (field name K omitEmpty get put :: fs) r s t := by
  have hfield : readField fields s (ascii name, repair (K.write (get r))) =
      some (put (norm (get r)) s) := by
    rw [readField, hfind]
    change (K.read (get s) (repair (K.write (get r)))).map (fun a => put a s) = _
    rw [hzero, hread]
    rfl
  unfold ReadsFields at h ⊢
  rw [flatMap_cons, repairFields_append, FieldCodec.text, if_neg hskip]
  change foldlM _ s ((toValidUtf8 (ascii name), repair (K.write (get r))) :: _) = _
  rw [hname, foldlM_cons, hfield]
  exact h

/-- The name, the place of the field and its zero are read off the list of the fields. -/
theorem readsFields_cons (hK : K.Lawful norm)
    (h : ReadsFields fields fs r (put (norm (get r)) s) t)
    (hfind : fields.find? (fun f => decide (f.name = ascii name)) =
      some (field name K omitEmpty get put) := by rfl)
    (hname : toValidUtf8 (ascii name) = ascii name := by decide +kernel)
    (hzero : get s = K.zero := by rfl) (hput : put (get s) s = s := by rfl) :
    ReadsFields fields (field name K omitEmpty get put :: fs) r s t := by
  by_cases hskip : (field name K omitEmpty get put).skipped r = true
  · -- an empty field is not written, and stays zero
    have hempty : K.isEmpty (get r) = true := (Bool.and_eq_true_iff.1 hskip).2
    rw [hK.empty _ hempty, ← hzero, hput] at h
    unfold ReadsFields at h ⊢
    rw [flatMap_cons, repairFields_append, FieldCodec.text, if_pos hskip]
    exact h
  · exact readsFields_written (hK.read_write (get r)) h hskip hfind hname hzero

end OneField

theorem lawful_struct {zero : σ} {fields : List (FieldCodec σ)} {norm : σ → σ}
    (h : ∀ r, ReadsFields fields fields r zero (norm r)) : (structKind zero fields).Lawful norm :=
  ⟨fun _ hempty => (Bool.false_ne_true hempty).elim, h⟩

end Json
end Lib
end SnugKV
