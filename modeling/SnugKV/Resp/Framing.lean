import SnugKV.Resp.Parser

/-!
# RESP framing — what the general reader accepts

* `LengthLine`, `BulkText`, `Frame` — the wire grammar: a length line of one to twenty decimal
  digits, a bulk string, and a non-empty array of bulk strings within the limits;
* `Exact x G` — the computation `x` succeeds on the texts of the grammar `G` that the byte limit
  admits and on nothing else, and takes exactly that text away;
* `Within` — everything a computation allocates is within the limits, also when it fails.

Both notions are closed under sequencing, so the reader of a command is exact because its parts
are.
-/

namespace SnugKV
namespace Resp

open Lib Decode List BufReader

/-! ## The grammar -/

/-- A marker, one to twenty decimal digits with the value `n`, and CRLF. -/
def LengthLine (marker : UInt8) (n : Nat) (line : Bytes) : Prop :=
  ∃ digits : Bytes, line = marker :: digits ++ [cr, lf] ∧ digits ≠ [] ∧ digits.length ≤ 20 ∧
    (∀ b ∈ digits, isDigit b = true) ∧ valueFrom 10 0 (digits.map digitOf) = n

/-- A bulk string: its length line, its bytes and CRLF. -/
def BulkText (arg text : Bytes) : Prop :=
  ∃ line, LengthLine dollar arg.length line ∧ text = line ++ arg ++ [cr, lf]

/-- Bulk strings one after another, each within `max` bytes. -/
inductive BulkTexts (max : Nat) : List Bytes → Bytes → Prop where
  | nil : BulkTexts max [] []
  | cons {arg text : Bytes} {args : List Bytes} {texts : Bytes} :
      arg.length ≤ max → BulkText arg text → BulkTexts max args texts →
      BulkTexts max (arg :: args) (text ++ texts)

def ArrayText (max : Nat) (args : List Bytes) (text : Bytes) : Prop :=
  ∃ line texts, LengthLine star args.length line ∧ BulkTexts max args texts ∧ text = line ++ texts

/-- A command within the limits: a non-empty array of bulk strings. -/
structure Frame (l : Limits) (args : List Bytes) (text : Bytes) : Prop where
  array : ArrayText l.maxBulkBytes args text
  nonempty : args ≠ []
  arguments : args.length ≤ l.maxArguments
  bytes : text.length ≤ l.maxRequestBytes

/-! ## Running a computation -/

variable {d d' : Decoder}

namespace Decode

theorem run_bind (x : Decode α) (f : α → Decode β) (d : Decoder) :
    (x >>= f).run d = match x.run d with
      | (.ok a, d') => (f a).run d'
      | (.error e, d') => (.error e, d') := by
  simp only [run, ExceptT.run_bind, StateT.run_bind]
  rcases StateT.run (ExceptT.run x) d with ⟨_ | _, _⟩ <;> rfl

theorem run_bind_ok {x : Decode α} {f : α → Decode β} {b : β} :
    (x >>= f).run d = (.ok b, d') ↔ ∃ a d₁, x.run d = (.ok a, d₁) ∧ (f a).run d₁ = (.ok b, d') := by
  rw [run_bind]
  rcases x.run d with ⟨e | a, d₁⟩ <;> simp

@[simp] theorem run_allocate (a : Alloc) (d : Decoder) :
    (allocate a).run d = (.ok (), { d with allocated := d.allocated ++ [a] }) := rfl

theorem run_refuse (p : Decoder → Prop) [DecidablePred p] (e : Error) (d : Decoder) :
    (refuse p e).run d = if p d then (.error e, d) else (.ok (), d) := rfl

theorem run_io (op : BufReader → Except ReadError α × BufReader) (d : Decoder) :
    (io op).run d = match op d.reader with
      | (.ok a, r) => (.ok a, { d with reader := r })
      | (.error e, r) => (.error (.io e), { d with reader := r }) := rfl

theorem run_io_ok {op : BufReader → Except ReadError α × BufReader} {a : α} :
    (io op).run d = (.ok a, d') ↔ ∃ r, op d.reader = (.ok a, r) ∧ d' = { d with reader := r } := by
  rw [run_io]
  rcases op d.reader with ⟨e | b, r⟩
  · simp
  · simp [eq_comm]

end Decode

/-! ## Exact readers -/

/-- `x` reads exactly the texts of `G`: it succeeds on each of them that the byte limit admits, on
nothing else, and takes that text and nothing more. -/
structure Exact (x : Decode α) (G : α → Bytes → Prop) : Prop where
  sound : ∀ {d d' : Decoder} {a : α}, x.run d = (.ok a, d') →
    ∃ text, G a text ∧ text.length ≤ d.remaining ∧
      d.reader.contents = text ++ d'.reader.contents ∧ d'.remaining = d.remaining - text.length
  complete : ∀ {d : Decoder} {a : α} {text cs : Bytes}, G a text → text.length ≤ d.remaining →
    d.reader.contents = text ++ cs →
    ∃ d', x.run d = (.ok a, d') ∧ d'.reader.contents = cs ∧
      d'.remaining = d.remaining - text.length

variable {e : Error}

namespace Exact

variable {x : Decode α} {G : α → Bytes → Prop}

theorem of_iff {H : α → Bytes → Prop} (h : Exact x G) (hiff : ∀ a text, G a text ↔ H a text) :
    Exact x H := by
  have hGH : G = H := funext fun a => funext fun text => propext (hiff a text)
  exact hGH ▸ h

theorem pure (a : α) : Exact (Pure.pure a : Decode α) (fun b text => b = a ∧ text = []) where
  sound := by
    intro d d' b h
    cases h
    exact ⟨[], ⟨rfl, rfl⟩, Nat.zero_le _, rfl, rfl⟩
  complete := by
    rintro d b text cs ⟨rfl, rfl⟩ - hc
    exact ⟨d, rfl, hc, rfl⟩

theorem bind {f : α → Decode β} {H : α → β → Bytes → Prop} (hx : Exact x G)
    (hf : ∀ a, Exact (f a) (H a)) :
    Exact (x >>= f) (fun b text => ∃ a t₁ t₂, G a t₁ ∧ H a b t₂ ∧ text = t₁ ++ t₂) where
  sound := by
    intro d d' b h
    rcases run_bind_ok.1 h with ⟨a, d₁, hxa, hfb⟩
    rcases hx.sound hxa with ⟨t₁, hG, hle₁, hc₁, hr₁⟩
    rcases (hf a).sound hfb with ⟨t₂, hH, hle₂, hc₂, hr₂⟩
    refine ⟨t₁ ++ t₂, ⟨a, t₁, t₂, hG, hH, rfl⟩, ?_, ?_, ?_⟩
    · rw [length_append]; omega
    · rw [hc₁, hc₂, append_assoc]
    · rw [length_append]; omega
  complete := by
    rintro d b text cs ⟨a, t₁, t₂, hG, hH, rfl⟩ hle hc
    rw [length_append] at hle
    rw [append_assoc] at hc
    rcases hx.complete hG (by omega) hc with ⟨d₁, hrun₁, hc₁, hr₁⟩
    rcases (hf a).complete hH (by omega) hc₁ with ⟨d₂, hrun₂, hc₂, hr₂⟩
    exact ⟨d₂, run_bind_ok.2 ⟨a, d₁, hrun₁, hrun₂⟩, hc₂, by rw [length_append]; omega⟩

/-- A check that no admitted text of `G` fails changes nothing. -/
theorem refuse {p : Decoder → Prop} [DecidablePred p] (hx : Exact x G)
    (hp : ∀ {d : Decoder} {a : α} {text : Bytes}, G a text → text.length ≤ d.remaining → ¬ p d) :
    Exact (Decode.refuse p e >>= fun _ => x) G where
  sound := by
    intro d d' a h
    rcases run_bind_ok.1 h with ⟨⟨⟩, d₁, hrefuse, hrun⟩
    rw [run_refuse] at hrefuse
    split_ifs at hrefuse
    · cases hrefuse
    · cases hrefuse
      exact hx.sound hrun
  complete := by
    intro d a text cs hG hle hc
    rcases hx.complete hG hle hc with ⟨d', hrun, hrest⟩
    refine ⟨d', run_bind_ok.2 ⟨(), d, ?_, hrun⟩, hrest⟩
    rw [run_refuse, if_neg (hp hG hle)]

/-- A check of a value already read selects the texts with that value. -/
theorem refuse_value {p : Prop} [Decidable p] (hx : Exact x G) :
    Exact (Decode.refuse (fun _ => p) e >>= fun _ => x) (fun a text => ¬ p ∧ G a text) := by
  by_cases hp : p
  · refine ⟨fun h => ?_, fun hG => absurd hp hG.1⟩
    rcases run_bind_ok.1 h with ⟨⟨⟩, d₁, hrefuse, -⟩
    rw [run_refuse, if_pos hp] at hrefuse
    cases hrefuse
  · exact (hx.refuse fun _ _ => hp).of_iff fun a text => by simp [hp]

theorem allocate {a : Alloc} (hx : Exact x G) : Exact (Decode.allocate a >>= fun _ => x) G where
  sound := by
    intro d d' b h
    rcases run_bind_ok.1 h with ⟨⟨⟩, d₁, halloc, hrun⟩
    cases halloc
    have hread := hx.sound hrun
    exact hread
  complete := by
    intro d b text cs hG hle hc
    rcases @hx.complete { d with allocated := d.allocated ++ [a] } b text cs hG hle hc with
      ⟨d', hrun, hrest⟩
    exact ⟨d', run_bind_ok.2 ⟨(), _, rfl, hrun⟩, hrest⟩

end Exact

/-! ## Length lines -/

theorem le_valueFrom (n : Nat) (ds : List Nat) : n ≤ valueFrom 10 n ds := by
  induction ds generalizing n with
  | nil => exact le_refl n
  | cons d ds ih =>
    calc n ≤ n * 10 + d := by omega
      _ ≤ valueFrom 10 (n * 10 + d) ds := ih _

variable {max n : Nat}

/-- The digit loop stops before the limit is passed, and computes the value otherwise. -/
theorem lengthDigits_ok : ∀ (digits : Bytes) (start : Nat), start ≤ max →
    (lengthDigits max digits start = .ok n ↔
      (∀ b ∈ digits, isDigit b = true) ∧ valueFrom 10 start (digits.map digitOf) = n ∧
        n ≤ max) := by
  intro digits
  induction digits with
  | nil =>
    intro start hstart
    constructor
    · rintro h
      cases h
      exact ⟨by simp, rfl, hstart⟩
    · rintro ⟨-, rfl, -⟩
      rfl
  | cons b digits ih =>
    intro start hstart
    rw [lengthDigits]
    by_cases hdigit : isDigit b = true
    · rw [if_neg (by simp [hdigit])]
      have hten := (digitOf_spec b hdigit).1
      by_cases hbig : max / 10 < start ∨ (start = max / 10 ∧ max % 10 < digitOf b)
      · rw [if_pos hbig]
        refine ⟨(fun h => by cases h), ?_⟩
        rintro ⟨-, hvalue, hle⟩
        have hge := le_valueFrom (start * 10 + digitOf b) (digits.map digitOf)
        rw [map_cons, valueFrom] at hvalue
        omega
      · rw [if_neg hbig, ih _ (by omega)]
        simp only [mem_cons, forall_eq_or_imp, hdigit, true_and, map_cons, valueFrom]
    · rw [if_pos (by simpa using hdigit)]
      refine ⟨(fun h => by cases h), fun h => absurd (h.1 b (by simp)) hdigit⟩

variable {marker : UInt8} {line text data : Bytes}

/-- A line that starts with the marker and ends in CRLF is cut into marker, digits and CRLF. -/
theorem line_parts (hlen : 4 ≤ line.length)
    (hhead : line.head? = some marker) (hcr : line.getD (line.length - 2) 0 = cr)
    (hlf : line.getLast? = some lf) :
    line = marker :: (line.drop 1).take (line.length - 3) ++ [cr, lf] := by
  obtain ⟨front, rfl⟩ := getLast?_eq_some_iff.1 hlf
  obtain ⟨rest, rfl⟩ : ∃ rest, front = marker :: rest := by
    cases front with
    | nil => simp at hlen
    | cons m rest => exact ⟨rest, by simpa using hhead⟩
  rcases eq_nil_or_concat' rest with rfl | ⟨digits, b, rfl⟩
  · simp at hlen
  · obtain rfl : b = cr := by simpa [getD_eq_getElem?_getD] using hcr
    simp

theorem lengthLine_ok (hlf : line.getLast? = some lf) :
    lengthLine marker max line = .ok n ↔ LengthLine marker n line ∧ n ≤ max := by
  constructor
  · intro h
    rw [lengthLine] at h
    dsimp only at h
    split_ifs at h with hshape hmarker hcr hempty hlong
    rw [not_or, not_lt, not_not] at hshape
    rcases (lengthDigits_ok _ 0 (Nat.zero_le _)).1 h with ⟨hdigits, hvalue, hle⟩
    refine ⟨⟨_, line_parts hshape.1 hshape.2 (not_not.1 hcr) hlf, ?_, by omega, hdigits,
      hvalue⟩, hle⟩
    exact fun hnil => hempty (by rw [hnil, length_nil])
  · rintro ⟨⟨digits, rfl, hne, hlong, hdigits, hvalue⟩, hle⟩
    have hpos : 0 < digits.length := length_pos_iff.2 hne
    have hlen : (marker :: digits ++ [cr, lf]).length = digits.length + 3 := by simp
    have htext : ((marker :: digits ++ [cr, lf]).drop 1).take (digits.length + 3 - 3) = digits := by
      simp
    have hcr : (marker :: digits ++ [cr, lf]).getD (digits.length + 3 - 2) 0 = cr := by
      simp
    rw [lengthLine, hlen, htext, if_neg (by simp; omega), if_neg (not_not.2 hcr)]
    rw [if_neg (by omega), if_neg (by omega)]
    exact (lengthDigits_ok digits 0 (Nat.zero_le _)).2 ⟨hdigits, hvalue, hle⟩

/-- A length line has no line feed before its last byte. -/
theorem LengthLine.cut (h : LengthLine marker n line)
    (hmarker : marker ≠ lf) :
    ∃ front, line = front ++ [lf] ∧ lf ∉ front ∧ front.length < maxLineBytes := by
  rcases h with ⟨digits, rfl, -, hlong, hdigits, -⟩
  refine ⟨marker :: digits ++ [cr], by simp, ?_, by simp [maxLineBytes]; omega⟩
  intro hmem
  simp only [cons_append, mem_cons, mem_append, not_mem_nil, or_false] at hmem
  rcases hmem with h | h | h
  · exact hmarker h.symm
  · exact absurd (hdigits lf h) (by decide)
  · exact absurd h (by decide)

section

variable (c : Config)

theorem exact_length (max : Nat) (hmarker : marker ≠ lf) :
    Exact (length c marker max) (fun n line => LengthLine marker n line ∧ n ≤ max) where
  sound := by
    intro d d' n h
    rcases run_bind_ok.1 h with ⟨line, d₁, hread, h⟩
    rcases run_io_ok.1 hread with ⟨r, hslice, rfl⟩
    rcases readSlice_ok hslice with ⟨front, rfl, -, hc⟩
    rw [run_bind, run_refuse] at h
    split_ifs at h with hlimit
    · cases h
    have hline : lengthLine marker max (front ++ [lf]) = .ok n := (Prod.mk.inj h).1
    have hd' := (Prod.mk.inj h).2
    refine ⟨front ++ [lf], (lengthLine_ok (by simp)).1 hline, not_lt.1 hlimit, ?_, ?_⟩
    · rw [hc, ← hd']
    · rw [← hd']
  complete := by
    rintro d n line cs ⟨hline, hle⟩ hlimit hc
    rcases hline.cut hmarker with ⟨front, rfl, hfront, hshort⟩
    rw [append_assoc, singleton_append] at hc
    have hfits : front.length < c.bufferSize := lt_of_lt_of_le hshort c.lineFits
    rcases readSlice_line hfront hfits hc with ⟨r, hslice, hcs⟩
    refine ⟨{ d with reader := r, remaining := d.remaining - (front ++ [lf]).length }, ?_, hcs, rfl⟩
    refine run_bind_ok.2 ⟨_, _, run_io_ok.2 ⟨r, hslice, rfl⟩, ?_⟩
    rw [run_bind, run_refuse, if_neg (not_lt.2 hlimit)]
    change (lengthLine marker max (front ++ [lf]), _) = _
    rw [(lengthLine_ok (by simp)).2 ⟨hline, hle⟩]

/-! ## Bulk strings -/

theorem bufferSize_pos : 0 < c.bufferSize := lt_of_lt_of_le (by decide) c.lineFits

theorem exact_readByte : Exact (readByte c) (fun b text => text = [b]) where
  sound := by
    intro d d' b h
    rw [readByte, run_bind, run_refuse] at h
    split_ifs at h with hzero
    · cases h
    rcases run_bind_ok.1 h with ⟨b', d₁, hread, h⟩
    rcases run_io_ok.1 hread with ⟨r, hbyte, rfl⟩
    cases h
    cases hc : d.reader.contents with
    | nil =>
      simp only [BufReader.readByte, BufReader.peekByte_nil hc] at hbyte
      cases hbyte
    | cons b₀ cs =>
      rcases BufReader.readByte_cons (bufferSize_pos c) hc with ⟨r', hbyte', hcs⟩
      rw [hbyte'] at hbyte
      cases hbyte
      exact ⟨[b], rfl, Nat.pos_of_ne_zero hzero, by rw [hcs]; rfl, rfl⟩
  complete := by
    rintro d b text cs rfl hle hc
    rcases BufReader.readByte_cons (bufferSize_pos c) hc with ⟨r, hbyte, hcs⟩
    refine ⟨{ d with reader := r, remaining := d.remaining - 1 }, ?_, hcs, rfl⟩
    have hpos : d.remaining ≠ 0 := ne_of_gt hle
    rw [readByte, run_bind, run_refuse, if_neg hpos]
    exact run_bind_ok.2 ⟨b, _, run_io_ok.2 ⟨r, hbyte, rfl⟩, rfl⟩

theorem exact_bulkTerminator : Exact (bulkTerminator c) (fun _ text => text = [cr, lf]) := by
  have hlast : ∀ a b : UInt8, Exact (refuse (fun _ => a ≠ cr ∨ b ≠ lf) .invalidBulkTerminator)
      (fun _ text => (a = cr ∧ b = lf) ∧ text = []) := by
    intro a b
    have h := (Exact.pure ()).refuse_value (p := a ≠ cr ∨ b ≠ lf) (e := .invalidBulkTerminator)
    rw [bind_pure_unit] at h
    refine Exact.of_iff h fun u text => ?_
    simp [not_or]
  refine Exact.of_iff ((exact_readByte c).bind fun a => (exact_readByte c).bind fun b => hlast a b)
    fun u text => ?_
  constructor
  · rintro ⟨a, _, _, rfl, ⟨b, _, _, rfl, ⟨⟨rfl, rfl⟩, rfl⟩, rfl⟩, rfl⟩
    rfl
  · rintro rfl
    exact ⟨cr, [cr], [lf], rfl, ⟨lf, [lf], [], rfl, ⟨⟨rfl, rfl⟩, rfl⟩, rfl⟩, rfl⟩

/-- What follows the length line of a bulk string.  The check of the byte limit comes before the
allocation, so the payload and its terminator are read under it together. -/
def bulkBody (n : Nat) : Decode Bytes := do
  refuse (fun d => d.remaining < 2 ∨ d.remaining - 2 < n) .requestExceedsByteLimit
  let payload ← payload c n
  bulkTerminator c
  return payload

theorem exact_bulkBody (n : Nat) :
    Exact (bulkBody c n) (fun arg text => arg.length = n ∧ text = arg ++ [cr, lf]) where
  sound := by
    intro d d' arg h
    rw [bulkBody, run_bind, run_refuse] at h
    split_ifs at h with hlimit
    · cases h
    rcases run_bind_ok.1 h with ⟨p, d₁, hpayload, h⟩
    rcases run_bind_ok.1 h with ⟨⟨⟩, d₂, hterm, h⟩
    cases h
    rw [payload, run_bind] at hpayload
    rcases run_bind_ok.1 hpayload with ⟨p', d₀, hread, hpayload⟩
    rcases run_io_ok.1 hread with ⟨r, hfull, rfl⟩
    cases hpayload
    rcases readFull_ok (bufferSize_pos c) hfull with ⟨hlen, hc⟩
    rcases (exact_bulkTerminator c).sound hterm with ⟨_, rfl, hle, hcs, hrem⟩
    refine ⟨arg ++ [cr, lf], ⟨hlen, rfl⟩, ?_, ?_, ?_⟩
    · rw [length_append, hlen]
      simp only [length_cons, length_nil]
      omega
    · rw [append_assoc, ← hcs]
      exact hc
    · rw [hrem, length_append, hlen, Nat.sub_sub]
  complete := by
    rintro d arg text cs ⟨rfl, rfl⟩ hle hc
    rw [append_assoc] at hc
    rcases readFull_block (bufferSize_pos c) hc with ⟨r, hfull, hcs⟩
    have hlimit : ¬ (d.remaining < 2 ∨ d.remaining - 2 < arg.length) := by
      simp only [length_append, length_cons, length_nil] at hle
      omega
    let d₁ : Decoder :=
      { reader := r, remaining := d.remaining - arg.length,
        allocated := d.allocated ++ [.payload arg.length] }
    have hroom : [cr, lf].length ≤ d₁.remaining := by
      simp only [d₁, length_cons, length_nil]
      omega
    rcases (exact_bulkTerminator c).complete (d := d₁) (a := ()) rfl hroom hcs with
      ⟨d₂, hterm, hcs₂, hrem⟩
    refine ⟨d₂, ?_, hcs₂, by rw [hrem, length_append, ← Nat.sub_sub]⟩
    rw [bulkBody, run_bind, run_refuse, if_neg hlimit]
    have hpayload : (payload c arg.length).run d = (.ok arg, d₁) := by
      rw [payload, run_bind]
      exact run_bind_ok.2 ⟨arg, _, run_io_ok.2 ⟨r, hfull, rfl⟩, rfl⟩
    exact run_bind_ok.2 ⟨arg, d₁, hpayload, run_bind_ok.2 ⟨(), d₂, hterm, rfl⟩⟩

theorem exact_bulk :
    Exact (bulk c) (fun arg text => BulkText arg text ∧ arg.length ≤ c.limits.maxBulkBytes) := by
  refine Exact.of_iff ((exact_length c c.limits.maxBulkBytes (by decide)).bind (exact_bulkBody c))
    fun arg text => ?_
  constructor
  · rintro ⟨n, line, _, ⟨hline, hle⟩, ⟨rfl, rfl⟩, rfl⟩
    exact ⟨⟨line, hline, by rw [append_assoc]⟩, hle⟩
  · rintro ⟨⟨line, hline, rfl⟩, hle⟩
    exact ⟨arg.length, line, arg ++ [cr, lf], ⟨hline, hle⟩, ⟨rfl, rfl⟩, by rw [append_assoc]⟩

theorem exact_bulks (n : Nat) : Exact (bulks c n)
    (fun args text => args.length = n ∧ BulkTexts c.limits.maxBulkBytes args text) := by
  induction n with
  | zero =>
    refine Exact.of_iff (Exact.pure []) fun args text => ?_
    constructor
    · rintro ⟨rfl, rfl⟩
      exact ⟨rfl, .nil⟩
    · rintro ⟨hlen, htexts⟩
      cases htexts with
      | nil => exact ⟨rfl, rfl⟩
      | cons => cases hlen
  | succ n ih =>
    refine Exact.of_iff ((exact_bulk c).bind fun arg => ih.bind fun args =>
      Exact.pure (arg :: args))
      fun args text => ?_
    constructor
    · rintro ⟨arg, t, _, ⟨hbulk, hle⟩, ⟨args', t', _, ⟨rfl, htexts⟩, ⟨rfl, rfl⟩, rfl⟩, rfl⟩
      rw [append_nil]
      exact ⟨rfl, .cons hle hbulk htexts⟩
    · rintro ⟨hlen, htexts⟩
      cases htexts with
      | nil => cases hlen
      | @cons arg t args' t' hle hbulk htexts =>
        exact ⟨arg, t, t', ⟨hbulk, hle⟩, ⟨args', t', [], ⟨Nat.succ.inj hlen, htexts⟩, ⟨rfl, rfl⟩,
          by rw [append_nil]⟩, rfl⟩

/-! ## Commands -/

theorem LengthLine.length (h : LengthLine marker n line) : 4 ≤ line.length := by
  rcases h with ⟨digits, rfl, hne, -⟩
  have hpos : 0 < digits.length := length_pos_iff.2 hne
  simp only [length_append, length_cons, length_nil]
  omega

variable {args : List Bytes}

theorem BulkTexts.length (h : BulkTexts max args text) : 6 * args.length ≤ text.length := by
  induction h with
  | nil => exact le_refl 0
  | cons _ hbulk _ ih =>
    rcases hbulk with ⟨line, hline, rfl⟩
    have := hline.length
    simp only [length_append, length_cons, length_nil]
    omega

theorem exact_readArray : Exact (readArray c) (fun args text =>
    ArrayText c.limits.maxBulkBytes args text ∧ args ≠ [] ∧
      args.length ≤ c.limits.maxArguments) := by
  have hbody : ∀ n, Exact (refuse (fun _ => n = 0) .emptyCommandArray >>= fun _ =>
      refuse (fun d => d.remaining / 6 < n) .requestExceedsByteLimit >>= fun _ =>
      allocate (.vector n) >>= fun _ => bulks c n)
      (fun args text => ¬ n = 0 ∧ args.length = n ∧ BulkTexts c.limits.maxBulkBytes args text) := by
    intro n
    refine ((exact_bulks c n).allocate.refuse ?_).refuse_value
    rintro d args text ⟨rfl, htexts⟩ hle
    have := htexts.length
    omega
  refine Exact.of_iff ((exact_length c c.limits.maxArguments (by decide)).bind hbody)
    fun args text => ?_
  constructor
  · rintro ⟨n, line, texts, ⟨hline, hle⟩, ⟨hne, rfl, htexts⟩, rfl⟩
    exact ⟨⟨line, texts, hline, htexts, rfl⟩, fun hnil => hne (by rw [hnil, length_nil]), hle⟩
  · rintro ⟨⟨line, texts, hline, htexts, rfl⟩, hne, hle⟩
    exact ⟨args.length, line, texts, ⟨hline, hle⟩,
      ⟨fun hzero => hne (length_eq_zero_iff.1 hzero), rfl, htexts⟩, rfl⟩

theorem run_unexpectedEof_ok {x : Decode α} {a : α} :
    (unexpectedEof x).run d = (.ok a, d') ↔ x.run d = (.ok a, d') := by
  rw [run_unexpectedEof]
  split
  next h => rw [h]; simp
  next h => rfl

theorem run_readCommand_ok :
    (readCommand c).run d = (.ok args, d') ↔ ∃ b r, peekByte c.bufferSize d.reader = (.ok b, r) ∧
      (readArray c).run { d with reader := r, remaining := c.limits.maxRequestBytes } =
        (.ok args, d') := by
  change (io (peekByte c.bufferSize) >>= fun _ => unexpectedEof (readArray c)).run
    { d with remaining := c.limits.maxRequestBytes } = _ ↔ _
  rw [run_bind_ok]
  constructor
  · rintro ⟨b, d₁, hpeek, h⟩
    rcases run_io_ok.1 hpeek with ⟨r, hr, rfl⟩
    exact ⟨b, r, hr, run_unexpectedEof_ok.1 h⟩
  · rintro ⟨b, r, hr, h⟩
    exact ⟨b, _, run_io_ok.2 ⟨r, hr, rfl⟩, run_unexpectedEof_ok.2 h⟩

theorem frame_of_readCommand (h : (readCommand c).run d = (.ok args, d')) :
    ∃ text, Frame c.limits args text ∧ d.reader.contents = text ++ d'.reader.contents := by
  rcases (run_readCommand_ok c).1 h with ⟨b, r, hpeek, hread⟩
  rcases (exact_readArray c).sound hread with ⟨text, ⟨harray, hne, hle⟩, hbytes, hc, -⟩
  have hsame := @BufReader.contents_peekByte c.bufferSize d.reader
  rw [hpeek] at hsame
  exact ⟨text, ⟨harray, hne, hle, hbytes⟩, hsame ▸ hc⟩

theorem readCommand_frame {cs : Bytes} (hframe : Frame c.limits args text)
    (hc : d.reader.contents = text ++ cs) :
    ∃ d', (readCommand c).run d = (.ok args, d') ∧ d'.reader.contents = cs := by
  have hfirst : ∃ b bs, text ++ cs = b :: bs := by
    rcases hframe.array with ⟨line, texts, ⟨digits, rfl, -⟩, -, rfl⟩
    exact ⟨star, _, rfl⟩
  rcases hfirst with ⟨b, bs, hcons⟩
  rcases peekByte_cons (bufferSize_pos c) (hc.trans hcons) with ⟨r, hpeek, hsame, -⟩
  have hread := (exact_readArray c).complete
    (d := { d with reader := r, remaining := c.limits.maxRequestBytes })
    ⟨hframe.array, hframe.nonempty, hframe.arguments⟩ hframe.bytes (hsame.trans hc)
  rcases hread with ⟨d', hrun, hcs, -⟩
  exact ⟨d', (run_readCommand_ok c).2 ⟨b, r, hpeek, hrun⟩, hcs⟩

theorem readCommands_frames : ∀ (frames : List (List Bytes × Bytes)) (d : Decoder) (cs : Bytes),
    (∀ f ∈ frames, Frame c.limits f.1 f.2) →
    d.reader.contents = (frames.map Prod.snd).flatten ++ cs →
    ∃ d', (readCommands c frames.length).run d = (.ok (frames.map Prod.fst), d') ∧
      d'.reader.contents = cs := by
  intro frames
  induction frames with
  | nil => exact fun d cs _ hc => ⟨d, rfl, hc⟩
  | cons f frames ih =>
    intro d cs hframes hc
    rw [map_cons, flatten_cons, append_assoc] at hc
    rcases readCommand_frame c (hframes f (by simp)) hc with ⟨d₁, hrun₁, hc₁⟩
    rcases ih d₁ cs (fun g hg => hframes g (mem_cons_of_mem f hg)) hc₁ with ⟨d₂, hrun₂, hc₂⟩
    refine ⟨d₂, run_bind_ok.2 ⟨f.1, d₁, hrun₁, ?_⟩, hc₂⟩
    exact run_bind_ok.2 ⟨_, d₂, hrun₂, rfl⟩

end

/-! ## Allocations -/

/-- A slice that the limits admit. -/
def Alloc.Allowed (l : Limits) : Alloc → Prop
  | .payload n => n ≤ l.maxBulkBytes
  | .vector n => n ≤ l.maxArguments

def payloadBytes : List Alloc → Nat
  | [] => 0
  | .payload n :: as => n + payloadBytes as
  | .vector _ :: as => payloadBytes as

theorem payloadBytes_append (as bs : List Alloc) :
    payloadBytes (as ++ bs) = payloadBytes as + payloadBytes bs := by
  induction as with
  | nil => simp [payloadBytes]
  | cons a as ih => cases a <;> simp [payloadBytes, ih, add_assoc]

/-- The part of the byte limit that is left for what follows. -/
def left : Except Error α × Decoder → Nat
  | (.ok _, d) => d.remaining
  | (.error _, _) => 0

/-- What a run from `d` allocates is admitted by the limits and paid for out of the byte limit,
whether the run succeeds or not; the way the stream ends stays the same. -/
structure Within (l : Limits) (d : Decoder) (r : Except Error α × Decoder) : Prop where
  broken : r.2.reader.broken = d.reader.broken
  allocated : ∃ new, r.2.allocated = d.allocated ++ new ∧ (∀ a ∈ new, a.Allowed l) ∧
    payloadBytes new + left r ≤ d.remaining

namespace Within

variable {l : Limits} {x : Decode α}

theorem of_same {r : Except Error α × Decoder}
    (hbroken : r.2.reader.broken = d.reader.broken) (halloc : r.2.allocated = d.allocated)
    (hleft : r.2.remaining ≤ d.remaining) : Within l d r := by
  refine ⟨hbroken, [], by rw [halloc, append_nil], nofun, ?_⟩
  rcases r with ⟨_ | _, d'⟩
  · exact Nat.zero_le _
  · simpa [payloadBytes, left] using hleft

theorem bind {f : α → Decode β} (hx : Within l d (x.run d))
    (hf : ∀ a d₁, x.run d = (.ok a, d₁) → Within l d₁ ((f a).run d₁)) :
    Within l d ((x >>= f).run d) := by
  rw [run_bind]
  rcases hrun : x.run d with ⟨e | a, d₁⟩
  · rw [hrun] at hx
    exact ⟨hx.broken, hx.allocated⟩
  · rw [hrun] at hx
    have hfa := hf a d₁ hrun
    rcases hx.allocated with ⟨new₁, hnew₁, hall₁, hle₁⟩
    rcases hfa.allocated with ⟨new₂, hnew₂, hall₂, hle₂⟩
    refine ⟨hfa.broken.trans hx.broken, new₁ ++ new₂, ?_, ?_, ?_⟩
    · rw [hnew₂, hnew₁, append_assoc]
    · exact forall_mem_append.2 ⟨hall₁, hall₂⟩
    · rw [payloadBytes_append]
      simp only [left] at hle₁ hle₂ ⊢
      omega

theorem refuse {p : Decoder → Prop} [DecidablePred p] (d : Decoder) :
    Within l d ((Decode.refuse p e).run d) := by
  rw [run_refuse]
  split_ifs <;> exact of_same rfl rfl (le_refl _)

theorem spend (n : Nat) (d : Decoder) : Within l d ((Decode.spend n).run d) :=
  of_same rfl rfl (Nat.sub_le _ _)

theorem io {op : BufReader → Except ReadError α × BufReader}
    (hop : ∀ r, (op r).2.broken = r.broken) (d : Decoder) : Within l d ((Decode.io op).run d) := by
  have hsame := hop d.reader
  rw [run_io]
  rcases hrun : op d.reader with ⟨_ | _, r⟩
  all_goals
    rw [hrun] at hsame
    exact of_same hsame rfl (le_refl _)

theorem pure (a : α) (d : Decoder) : Within l d ((Pure.pure a : Decode α).run d) :=
  of_same rfl rfl (le_refl _)

theorem unexpectedEof (h : Within l d (x.run d)) : Within l d ((Decode.unexpectedEof x).run d) := by
  rw [run_unexpectedEof]
  split
  next hrun =>
    rw [hrun] at h
    exact ⟨h.broken, h.allocated⟩
  next => exact h

end Within

section

variable (c : Config) {l : Limits}

theorem within_length (marker : UInt8) (max : Nat) (d : Decoder) :
    Within l d ((length c marker max).run d) := by
  refine (Within.io (broken_readSlice _ _) d).bind fun line d₁ _ => ?_
  refine (Within.refuse d₁).bind fun _ d₂ _ => ?_
  refine (Within.spend _ d₂).bind fun _ d₃ _ => ?_
  exact Within.of_same rfl rfl (le_refl _)

theorem within_readByte (d : Decoder) : Within l d ((readByte c).run d) := by
  refine (Within.refuse d).bind fun _ d₁ _ => ?_
  refine (Within.io (broken_readByte _) d₁).bind fun b d₂ _ => ?_
  exact (Within.spend 1 d₂).bind fun _ d₃ _ => Within.pure b d₃

/-- A payload that fits into the byte limit is paid for when it is read, and it is within the
byte limit when the stream ends inside it. -/
theorem within_payload (hlimit : n ≤ d.remaining)
    (hbulk : n ≤ l.maxBulkBytes) : Within l d ((payload c n).run d) := by
  have hallowed : ∀ a ∈ [Alloc.payload n], a.Allowed l := by
    intro a ha
    rw [mem_singleton.1 ha]
    exact hbulk
  have hsame := broken_readFull c.bufferSize n d.reader
  change Within l d ((io (readFull c.bufferSize n) >>= _).run _)
  rw [run_bind, run_io]
  rcases hrun : readFull c.bufferSize n d.reader with ⟨e | p, r⟩
  · rw [hrun] at hsame
    exact ⟨hsame, [.payload n], rfl, hallowed, by simpa [payloadBytes, left] using hlimit⟩
  · rw [hrun] at hsame
    refine ⟨hsame, [.payload n], rfl, hallowed, ?_⟩
    change n + 0 + (d.remaining - n) ≤ d.remaining
    omega

theorem within_bulk (d : Decoder) : Within c.limits d ((bulk c).run d) := by
  refine (within_length c _ _ d).bind fun n d₁ hlen => ?_
  rcases (exact_length c c.limits.maxBulkBytes (by decide)).sound hlen with ⟨_, ⟨-, hbulk⟩, -⟩
  refine (Within.refuse d₁).bind fun _ d₂ hrefuse => ?_
  rw [run_refuse] at hrefuse
  split_ifs at hrefuse with hlimit
  · cases hrefuse
  cases hrefuse
  refine (within_payload c (by omega) hbulk).bind fun p d₃ _ => ?_
  refine Within.bind ?_ fun _ d₄ _ => Within.pure p d₄
  refine (within_readByte c d₃).bind fun a d₅ _ => ?_
  exact (within_readByte c d₅).bind fun b d₆ _ => Within.refuse d₆

theorem within_bulks (n : Nat) (d : Decoder) : Within c.limits d ((bulks c n).run d) := by
  induction n generalizing d with
  | zero => exact Within.pure [] d
  | succ n ih =>
    refine (within_bulk c d).bind fun arg d₁ _ => ?_
    exact (ih d₁).bind fun args d₂ _ => Within.pure (arg :: args) d₂

theorem within_allocate_vector (h : n ≤ l.maxArguments) (d : Decoder) :
    Within l d ((allocate (.vector n)).run d) := by
  refine ⟨rfl, [.vector n], rfl, fun a ha => ?_, ?_⟩
  · rw [mem_singleton.1 ha]
    exact h
  · simp [payloadBytes, left]

theorem within_readArray (d : Decoder) : Within c.limits d ((readArray c).run d) := by
  refine (within_length c _ _ d).bind fun n d₁ hlen => ?_
  rcases (exact_length c c.limits.maxArguments (by decide)).sound hlen with ⟨_, ⟨-, hargs⟩, -⟩
  refine (Within.refuse d₁).bind fun _ d₂ _ => ?_
  refine (Within.refuse d₂).bind fun _ d₃ _ => ?_
  exact (within_allocate_vector hargs d₃).bind fun _ d₄ _ => within_bulks c n d₄

theorem within_readCommand (d : Decoder) :
    Within c.limits { d with remaining := c.limits.maxRequestBytes } ((readCommand c).run d) := by
  refine (Within.io (broken_peekByte _) _).bind fun b d₁ _ => ?_
  exact (within_readArray c d₁).unexpectedEof

end

/-! ## Whole byte strings -/

/-- What `Parse` accepts: a command, or a bulk string on its own. -/
def ParseText (args : List Bytes) (data : Bytes) : Prop :=
  Frame defaultLimits args data ∨
    ∃ value, args = [value] ∧ BulkText value data ∧ value.length ≤ defaultLimits.maxBulkBytes ∧
      data.length ≤ defaultLimits.maxRequestBytes

/-- The decoder that `Parse` builds for its data. -/
def parseDecoder (data : Bytes) : Decoder :=
  ⟨⟨[], data, [], false⟩, 0, []⟩

theorem BulkText.head {arg : Bytes} (h : BulkText arg text) : text.head? = some dollar := by
  rcases h with ⟨line, ⟨digits, rfl, -⟩, rfl⟩
  rfl

variable {args : List Bytes}

theorem Frame.head {l : Limits} (h : Frame l args text) : text.head? = some star := by
  rcases h.array with ⟨line, texts, ⟨digits, rfl, -⟩, -, rfl⟩
  rfl

/-- The branch of `Parse` for a standalone bulk string. -/
def parseBulk : Decode (List Bytes) := do
  modify fun d => { d with remaining := defaultLimits.maxRequestBytes }
  let value ← bulk parseConfig
  return [value]

theorem parseBody_eq (data : Bytes) :
    parseBody data = if data.head? = some dollar then parseBulk else readCommand parseConfig := rfl

theorem run_parseBulk_ok :
    parseBulk.run d = (.ok args, d') ↔ ∃ value, args = [value] ∧
      (bulk parseConfig).run { d with remaining := defaultLimits.maxRequestBytes } =
        (.ok value, d') := by
  rw [parseBulk, run_bind]
  change (bulk parseConfig >>= fun value => pure [value]).run
    { d with remaining := defaultLimits.maxRequestBytes } = _ ↔ _
  rw [run_bind_ok]
  constructor
  · rintro ⟨value, d₁, hrun, h⟩
    cases h
    exact ⟨value, rfl, hrun⟩
  · rintro ⟨value, rfl, hrun⟩
    exact ⟨value, d', hrun, rfl⟩

theorem within_parseBody (data : Bytes) (d : Decoder) : Within defaultLimits
    { d with remaining := defaultLimits.maxRequestBytes } ((parseBody data).run d) := by
  rw [parseBody_eq]
  split_ifs
  · rw [parseBulk, run_bind]
    exact (within_bulk parseConfig _).bind fun value d₁ _ => Within.pure [value] d₁
  · exact within_readCommand parseConfig d

theorem parseBody_ok {rest : Bytes} :
    (∃ d, (parseBody data).run (parseDecoder data) = (.ok args, d) ∧ d.reader.contents = rest) ↔
      ∃ text, ParseText args text ∧ data = text ++ rest := by
  have hc : (parseDecoder data).reader.contents = data := rfl
  rw [parseBody_eq]
  constructor
  · rintro ⟨d, hrun, rfl⟩
    split_ifs at hrun with hhead
    · rcases run_parseBulk_ok.1 hrun with ⟨value, rfl, hbulk⟩
      rcases (exact_bulk parseConfig).sound hbulk with ⟨text, ⟨htext, hle⟩, hbytes, hcut, -⟩
      exact ⟨text, .inr ⟨value, rfl, htext, hle, hbytes⟩, hcut⟩
    · rcases frame_of_readCommand parseConfig hrun with ⟨text, hframe, hcut⟩
      exact ⟨text, .inl hframe, hcut⟩
  · rintro ⟨text, hframe | ⟨value, rfl, htext, hle, hbytes⟩, hcut⟩
    · have hhead : data.head? ≠ some dollar := by
        rw [hcut, head?_append, hframe.head, Option.some_or]
        decide
      rw [if_neg hhead]
      exact readCommand_frame parseConfig hframe (hc.trans hcut)
    · have hhead : data.head? = some dollar := by
        rw [hcut, head?_append, htext.head]
        rfl
      rw [if_pos hhead]
      have hread := (exact_bulk parseConfig).complete
        (d := { parseDecoder data with remaining := defaultLimits.maxRequestBytes })
        ⟨htext, hle⟩ hbytes (hc.trans hcut)
      rcases hread with ⟨d', hrun, hrest, -⟩
      exact ⟨d', run_parseBulk_ok.2 ⟨value, rfl, hrun⟩, hrest⟩

theorem ParseText.length (h : ParseText args data) :
    data.length ≤ defaultLimits.maxRequestBytes := by
  rcases h with h | ⟨_, _, _, _, h⟩
  · exact h.bytes
  · exact h

theorem parse_ok : parse data = .ok args ↔ ParseText args data := by
  have hfind := @parseBody_ok data args []
  simp only [append_nil] at hfind
  -- Nothing is left behind exactly when the next byte is the end of the data.
  have hend : parse data = .ok args ↔ data.length ≤ defaultLimits.maxRequestBytes ∧
      ∃ d, (parseBody data).run (parseDecoder data) = (.ok args, d) ∧ d.reader.contents = [] := by
    rw [parse]
    by_cases hlen : defaultLimits.maxRequestBytes < data.length
    · rw [if_pos hlen]
      exact ⟨nofun, fun h => absurd h.1 (not_le.2 hlen)⟩
    · rw [if_neg hlen]
      have hbroken := (within_parseBody data (parseDecoder data)).broken
      rw [show (⟨⟨[], data, [], false⟩, 0, []⟩ : Decoder) = parseDecoder data from rfl]
      rcases hrun : (parseBody data).run (parseDecoder data) with ⟨e | args', d⟩
      · simp
      · cases hrest : d.reader.contents with
        | nil =>
          have hend : d.reader.endError = .eof := by
            rw [hrun] at hbroken
            rw [endError, if_neg (ne_true_of_eq_false hbroken)]
          simp only [peekByte_nil hrest, hend]
          simp [not_lt.1 hlen, hrest]
        | cons b bs =>
          rcases peekByte_cons (bufferSize_pos parseConfig) hrest with ⟨r, hpeek, -⟩
          simp [hpeek, hrest]
  rw [hend, hfind]
  constructor
  · rintro ⟨-, text, htext, rfl⟩
    exact htext
  · exact fun h => ⟨h.length, data, h, rfl⟩

/-! ## Framing -/

/-- The general reader accepts exactly the commands within the limits that stand at the front of
the stream, returns their arguments and takes them and nothing else away, so commands that follow
one another are read in order.  All that it allocates, whether it succeeds or not, is within the
limits.  `Parse` accepts exactly one command or bulk string. -/
theorem readCommand_framing (c : Config) (d : Decoder) :
    (∀ (args : List Bytes) (rest : Bytes),
      (∃ d', (readCommand c).run d = (.ok args, d') ∧ d'.reader.contents = rest) ↔
        ∃ text, Frame c.limits args text ∧ d.reader.contents = text ++ rest) ∧
    (∀ (frames : List (List Bytes × Bytes)) (rest : Bytes), (∀ f ∈ frames, Frame c.limits f.1 f.2) →
      d.reader.contents = (frames.map Prod.snd).flatten ++ rest →
      ∃ d', (readCommands c frames.length).run d = (.ok (frames.map Prod.fst), d') ∧
        d'.reader.contents = rest) ∧
    (∃ new, ((readCommand c).run d).2.allocated = d.allocated ++ new ∧
      (∀ a ∈ new, a.Allowed c.limits) ∧ payloadBytes new ≤ c.limits.maxRequestBytes) ∧
    (∀ (data : Bytes) (args : List Bytes), parse data = .ok args ↔ ParseText args data) := by
  refine ⟨fun args rest => ⟨?_, ?_⟩, fun frames rest => readCommands_frames c frames d rest, ?_,
    fun data args => parse_ok⟩
  · rintro ⟨d', hrun, rfl⟩
    exact frame_of_readCommand c hrun
  · rintro ⟨text, hframe, hc⟩
    exact readCommand_frame c hframe hc
  · rcases (within_readCommand c d).allocated with ⟨new, hnew, hall, hle⟩
    exact ⟨new, hnew, hall, Nat.le_trans (Nat.le_add_right _ _) hle⟩

/-- Two commands in one byte string, the second with a length that has a leading zero. -/
theorem readCommand_framing_pings :
    ∃ d', (readCommands parseConfig 2).run
        (parseDecoder (ascii "*1\r\n$4\r\nPING\r\n*1\r\n$04\r\nPING\r\n")) =
      (.ok [[ascii "PING"], [ascii "PING"]], d') ∧ d'.reader.contents = [] := by
  have hone : LengthLine star 1 (ascii "*1\r\n") :=
    ⟨ascii "1", by decide +kernel, by decide, by decide, by decide +kernel, by decide +kernel⟩
  have hfour : LengthLine dollar 4 (ascii "$4\r\n") :=
    ⟨ascii "4", by decide +kernel, by decide, by decide, by decide +kernel, by decide +kernel⟩
  have hzero : LengthLine dollar 4 (ascii "$04\r\n") :=
    ⟨ascii "04", by decide +kernel, by decide, by decide, by decide +kernel, by decide +kernel⟩
  have hframe : ∀ line : Bytes, LengthLine dollar 4 line → line.length ≤ 5 →
      Frame defaultLimits [ascii "PING"]
        (ascii "*1\r\n" ++ (line ++ ascii "PING" ++ [cr, lf] ++ [])) := by
    intro line hline hlen
    refine ⟨⟨_, _, hone, .cons (by decide +kernel) ⟨line, hline, rfl⟩ .nil, rfl⟩,
      by decide, by decide, ?_⟩
    refine Nat.le_trans (m := 17) ?_ (by decide)
    simp only [length_append, show (ascii "*1\r\n").length = 4 by decide,
      show (ascii "PING").length = 4 by decide, length_cons, length_nil]
    omega
  refine (readCommand_framing parseConfig _).2.1
    [([ascii "PING"], ascii "*1\r\n" ++ (ascii "$4\r\n" ++ ascii "PING" ++ [cr, lf] ++ [])),
      ([ascii "PING"], ascii "*1\r\n" ++ (ascii "$04\r\n" ++ ascii "PING" ++ [cr, lf] ++ []))] []
    ?_ (by decide +kernel)
  intro f hf
  simp only [mem_cons, not_mem_nil, or_false] at hf
  rcases hf with rfl | rfl
  · exact hframe _ hfour (by decide)
  · exact hframe _ hzero (by decide)

end Resp
end SnugKV
