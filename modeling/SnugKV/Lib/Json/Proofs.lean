import SnugKV.Lib.Json

/-!
# JSON round trip

`parseBody_render` takes one step of the string reader for each sequence of the string;
`parseValue_render` and its two companions recurse over the tree.  The fuel of the reader is
bounded by the length of the text it reads.
-/

namespace SnugKV
namespace Lib

open List
namespace Json

/-! ## Escapes -/

theorem hex4_hexChar {v : Nat} (h : v < 0x10000) :
    hex4 (hexChar (v / 4096)) (hexChar (v / 256)) (hexChar (v / 16)) (hexChar v) = some v := by
  have hall : ∀ i : Fin 16, hexVal (hexChar i.val) = some i.val := by decide +kernel
  have hdigit : ∀ n, hexVal (hexChar n) = some (n % 16) := fun n => by
    simpa [hexChar] using hall ⟨n % 16, Nat.mod_lt _ (by decide)⟩
  simp only [hex4, hdigit, Option.bind_eq_bind, Option.bind_some, Option.some.injEq]
  omega

/-- An ASCII byte is written as itself, with an escape of one letter, or by its code. -/
theorem escapeAscii_cases : ∀ b : UInt8, b < 0x80 →
    (escapeAscii b = [b] ∧ b ≠ quote ∧ b ≠ backslash ∧ ¬ b < 0x20) ∨
    (escapeAscii b = [backslash, (escapeAscii b).getD 1 0] ∧
      (escapeAscii b).getD 1 0 ≠ 'u'.toUInt8 ∧ (escapeAscii b).getD 1 0 ≠ '/'.toUInt8 ∧
      shortEscapes.find? (fun e => e.2 = (escapeAscii b).getD 1 0) =
        some (b, (escapeAscii b).getD 1 0)) ∨
    (escapeAscii b = unicodeEscape b.toNat ∧ encodeRune b.toNat = [b]) :=
  forall_byte (by decide +kernel)

/-- One step of the string reader gives `out` and goes on with `rest`. -/
def Reads (text out rest : Bytes) : Prop :=
  ∀ fuel, parseBody (fuel + 1) text = (parseBody fuel rest).map (fun r => (out ++ r.1, r.2))

variable {rest s : Bytes}

theorem reads_escape {e out : Bytes} (h : parseEscape e = some (out, rest)) :
    Reads (backslash :: e) out rest := by
  intro fuel
  rw [parseBody, if_neg (by decide), if_pos rfl, h]

theorem reads_unicode {v : Nat} (hv : v < 0xD800 ∨ 0xE000 ≤ v) (hmax : v < 0x10000) (rest : Bytes) :
    Reads (unicodeEscape v ++ rest) (encodeRune v) rest := by
  refine reads_escape ?_
  simp [parseEscape, hex4_hexChar hmax, codePoint, hv]

variable {b : UInt8}

theorem reads_ascii (hb : b < 0x80) (rest : Bytes) : Reads (escapeAscii b ++ rest) [b] rest := by
  rcases escapeAscii_cases b hb with ⟨h, hq, hs, hc⟩ | ⟨h, hu, hslash, hfind⟩ | ⟨h, hrune⟩
  · intro fuel
    have hsize := runeSize_ascii hb rest
    rw [h, singleton_append, parseBody, if_neg hq, if_neg hs, if_neg hc,
      if_neg (by rw [hsize]; decide), hsize]
    rfl
  · rw [h]
    refine reads_escape ?_
    change parseEscape ((escapeAscii b).getD 1 0 :: rest) = some ([b], rest)
    simp only [parseEscape, hu, hslash, if_false, hfind]
  · rw [h, ← hrune]
    refine reads_unicode (Or.inl ?_) ?_ rest
    · have := UInt8.lt_iff_toNat_lt.1 hb
      have h128 : (0x80 : UInt8).toNat = 128 := rfl
      omega
    · exact b.toNat_lt.trans (by decide)

theorem reads_sequence (h : runeSize s ≠ 0) (rest : Bytes) :
    Reads (escapeSequence (s.take (runeSize s)) ++ rest) (s.take (runeSize s)) rest := by
  unfold escapeSequence
  split_ifs with h8 h9
  · rw [h8]
    exact reads_unicode (by decide) (by decide) rest
  · rw [h9]
    exact reads_unicode (by decide) (by decide) rest
  · rcases sequence_cases h with ⟨b, hb, hseq⟩ | ⟨a, b, t, ha, hseq⟩
    · rw [hseq]
      exact reads_ascii hb rest
    · -- a longer sequence is copied; its first byte is no quote, backslash or control
      have hsize := runeSize_take_append h rest
      have hlen : (s.take (runeSize s)).length = runeSize s := by
        rw [length_take, min_eq_left (runeSize_le_length s)]
      rw [hseq] at hsize hlen ⊢
      intro fuel
      have hquote : a ≠ quote := fun hq => ha (by rw [hq]; decide)
      have hslash : a ≠ backslash := fun hs => ha (by rw [hs]; decide)
      have hcontrol : ¬ a < 0x20 := fun hc => ha (UInt8.lt_trans hc (by decide))
      rw [cons_append] at hsize ⊢
      rw [parseBody, if_neg hquote, if_neg hslash, if_neg hcontrol, hsize, if_neg h, ← hlen,
        ← cons_append, drop_left, take_left]

/-! ## Strings -/

theorem parseBody_render (s : Bytes) : ∀ {fuel : Nat} (rest : Bytes), (pieces s).length < fuel →
    parseBody fuel ((pieces s).flatMap escapePiece ++ quote :: rest) =
      some (toValidUtf8 s, rest) := by
  induction s using runes_induction with
  | nil =>
    intro fuel rest hfuel
    obtain ⟨fuel, rfl⟩ := Nat.exists_eq_add_one_of_ne_zero (Nat.ne_zero_of_lt hfuel)
    rfl
  | ok s h ih =>
    intro fuel rest hfuel
    obtain ⟨fuel, rfl⟩ := Nat.exists_eq_add_one_of_ne_zero (Nat.ne_zero_of_lt hfuel)
    rw [pieces_ok h, length_cons] at hfuel
    rw [pieces_ok h, flatMap_cons, append_assoc, escapePiece,
      reads_sequence h _ fuel, ih rest (by omega), toValidUtf8_ok h]
    rfl
  | bad b s h ih =>
    intro fuel rest hfuel
    obtain ⟨fuel, rfl⟩ := Nat.exists_eq_add_one_of_ne_zero (Nat.ne_zero_of_lt hfuel)
    rw [pieces_bad h, length_cons] at hfuel
    rw [pieces_bad h, flatMap_cons, append_assoc, escapePiece,
      reads_unicode (by decide) (by decide) _ fuel, ih rest (by omega), toValidUtf8_bad h]
    rfl

theorem escapePiece_pos (h : runeSize s ≠ 0) :
    0 < (escapePiece (some (s.take (runeSize s)))).length := by
  have hall : ∀ b : UInt8, 0 < (escapeAscii b).length := forall_byte (by decide +kernel)
  rcases sequence_cases h with ⟨b, _, hseq⟩ | ⟨a, b, t, _, hseq⟩
  · have hone : escapePiece (some [b]) = escapeAscii b := by simp [escapePiece, escapeSequence]
    rw [hseq, hone]
    exact hall b
  · rw [hseq]
    simp only [escapePiece, escapeSequence]
    split_ifs <;> exact Nat.succ_pos _

theorem length_pieces_le (s : Bytes) :
    (pieces s).length ≤ ((pieces s).flatMap escapePiece).length := by
  induction s using runes_induction with
  | nil => exact le_rfl
  | ok s h ih =>
    have := escapePiece_pos h
    rw [pieces_ok h, flatMap_cons, length_append, length_cons]
    omega
  | bad b s h ih =>
    have : (escapePiece none).length = 6 := rfl
    rw [pieces_bad h, flatMap_cons, length_append, length_cons]
    omega

theorem parseString_render (s rest : Bytes) :
    parseString ((pieces s).flatMap escapePiece ++ quote :: rest) = some (toValidUtf8 s, rest) := by
  refine parseBody_render s rest ?_
  have := length_pieces_le s
  rw [length_append, length_cons]
  omega

theorem renderString_append (s rest : Bytes) :
    renderString s ++ rest = quote :: ((pieces s).flatMap escapePiece ++ quote :: rest) := by
  simp [renderString]

/-! ## Numbers -/

/-- What may follow a number. -/
def Stops (rest : Bytes) : Prop :=
  ∀ b, rest.head? = some b →
    isDigit b = false ∧ b ≠ '.'.toUInt8 ∧ b ≠ 'e'.toUInt8 ∧ b ≠ 'E'.toUInt8

theorem stops_cons (h : b = comma ∨ b = closeArr ∨ b = closeObj) (rest : Bytes) :
    Stops (b :: rest) := by
  rintro c hc
  rw [head?_cons, Option.some.injEq] at hc
  rw [← hc]
  rcases h with rfl | rfl | rfl <;> decide

theorem parseNat_formatUint (n : Nat) (hrest : Stops rest) :
    parseNat (formatUint n ++ rest) = some (n, rest) := by
  have htake : (formatUint n ++ rest).takeWhile isDigit = formatUint n := by
    rw [takeWhile_append_of_pos (formatUint_digits n)]
    cases rest with
    | nil => simp
    | cons b rest => simp [(hrest b rfl).1]
  have hdrop : (formatUint n ++ rest).dropWhile isDigit = rest := by
    rw [dropWhile_append_of_pos (formatUint_digits n)]
    cases rest with
    | nil => rfl
    | cons b rest => simp [(hrest b rfl).1]
  rcases @textDigits_lead 10 n with ⟨d, ds, hdigits, hlead⟩
  have htext : formatUint n = digitByte d :: ds.map digitByte := by
    rw [formatUint, hdigits, map_cons]
  have hd : d < 10 := textDigits_lt (by decide) n d (by rw [hdigits]; exact mem_cons_self)
  have hzero : ¬ ((formatUint n).head? = some digit0 ∧ 1 < (formatUint n).length) := by
    rintro ⟨h0, hlong⟩
    rw [htext, head?_cons, Option.some.injEq] at h0
    rw [htext, hlead ((digitByte_spec hd).2.2 h0)] at hlong
    exact absurd hlong (by simp)
  have hend : ¬ (rest.head? = some '.'.toUInt8 ∨ rest.head? = some 'e'.toUInt8 ∨
      rest.head? = some 'E'.toUInt8) := by
    rintro (h | h | h)
    · exact (hrest _ h).2.1 rfl
    · exact (hrest _ h).2.2.1 rfl
    · exact (hrest _ h).2.2.2 rfl
  simp only [parseNat, htake, hdrop]
  rw [if_neg (by rw [htext]; exact cons_ne_nil _ _), if_neg hzero, if_neg hend,
    map_digitOf_formatUint, valueFrom_textDigits]

theorem formatInt_head (n : Int) :
    ∃ b t, formatInt n = b :: t ∧ (isDigit b = true ∨ b = minusSign) := by
  cases n with
  | ofNat n =>
    rcases @textDigits_lead 10 n with ⟨d, ds, hdigits, _⟩
    refine ⟨digitByte d, ds.map digitByte, ?_, Or.inl ?_⟩
    · rw [formatInt, formatUint, hdigits, map_cons]
    · exact (digitByte_spec (textDigits_lt (by decide) n d
        (by rw [hdigits]; exact mem_cons_self))).1
  | negSucc n => exact ⟨minusSign, formatUint (n + 1), rfl, Or.inr rfl⟩

theorem parseNumber_formatInt (n : Int) (hrest : Stops rest) :
    parseNumber (formatInt n ++ rest) = some (.num n, rest) := by
  cases n with
  | ofNat n =>
    have hhead : (formatInt (.ofNat n) ++ rest).head? ≠ some minusSign := by
      rcases @textDigits_lead 10 n with ⟨d, ds, hdigits, _⟩
      have hd : d < 10 := textDigits_lt (by decide) n d (by rw [hdigits]; exact mem_cons_self)
      rw [formatInt, formatUint, hdigits, map_cons, cons_append, head?_cons]
      intro h
      exact (digitOf_spec _ (digitByte_spec hd).1).2.2.2 (Option.some.inj h)
    rw [parseNumber, if_neg hhead, formatInt, parseNat_formatUint n hrest]
    rfl
  | negSucc n =>
    have hhead : (formatInt (.negSucc n) ++ rest).head? = some minusSign := rfl
    change (parseNat (formatUint (n + 1) ++ rest)).map _ = _
    rw [parseNat_formatUint (n + 1) hrest]
    rfl

/-! ## Values -/

mutual

/-- The tree with every string and every field name repaired. -/
def repair : Json → Json
  | .null => .null
  | .bool b => .bool b
  | .num n => .num n
  | .str s => .str (toValidUtf8 s)
  | .arr xs => .arr (repairElems xs)
  | .obj fs => .obj (repairFields fs)
termination_by structural j => j

def repairElems : List Json → List Json
  | [] => []
  | x :: xs => repair x :: repairElems xs
termination_by structural xs => xs

def repairFields : List (Bytes × Json) → List (Bytes × Json)
  | [] => []
  | (k, v) :: fs => (toValidUtf8 k, repair v) :: repairFields fs
termination_by structural fs => fs

end

/-- What the first byte of a value can be, as the reader tells the values apart. -/
theorem number_byte : ∀ b : UInt8, isDigit b = true ∨ b = minusSign →
    isBlank b = false ∧ b ≠ quote ∧ b ≠ openArr ∧ b ≠ openObj ∧ b ≠ 'n'.toUInt8 ∧
      b ≠ 't'.toUInt8 ∧ b ≠ 'f'.toUInt8 ∧ b ≠ closeArr :=
  forall_byte (by decide +kernel)

theorem skipBlanks_cons (h : isBlank b = false) (rest : Bytes) :
    skipBlanks (b :: rest) = b :: rest := by
  simp [skipBlanks, h]

theorem render_head (j : Json) : ∃ b t, render j = b :: t ∧ isBlank b = false ∧ b ≠ closeArr := by
  cases j with
  | null => exact ⟨_, _, rfl, by decide, by decide⟩
  | bool b => cases b <;> exact ⟨_, _, rfl, by decide, by decide⟩
  | num n =>
    rcases formatInt_head n with ⟨b, t, hb, hkind⟩
    have := number_byte b hkind
    exact ⟨b, t, hb, this.1, this.2.2.2.2.2.2.2⟩
  | str s => exact ⟨_, _, rfl, by decide, by decide⟩
  | arr xs => cases xs <;> exact ⟨_, _, rfl, by decide, by decide⟩
  | obj fs => cases fs <;> exact ⟨_, _, rfl, by decide, by decide⟩

theorem render_pos (j : Json) : 0 < (render j).length := by
  rcases render_head j with ⟨b, t, h, _⟩
  rw [h]
  exact Nat.succ_pos _

theorem stops_renderElems (xs : List Json) (rest : Bytes) : Stops (renderElems xs ++ rest) := by
  cases xs with
  | nil => exact stops_cons (Or.inr (Or.inl rfl)) _
  | cons x xs => exact stops_cons (Or.inl rfl) _

theorem stops_renderFields (fs : List (Bytes × Json)) (rest : Bytes) :
    Stops (renderFields fs ++ rest) := by
  cases fs with
  | nil => exact stops_cons (Or.inr (Or.inr rfl)) _
  | cons f fs => exact stops_cons (Or.inl rfl) _

def elemsText : List Json → Bytes
  | [] => []
  | x :: xs => render x ++ renderElems xs

def fieldsText : List (Bytes × Json) → Bytes
  | [] => []
  | (k, v) :: fs => renderString k ++ colon :: render v ++ renderFields fs

theorem renderElems_eq (xs : List Json) :
    renderElems xs = if xs = [] then [closeArr] else comma :: elemsText xs := by
  cases xs <;> simp [renderElems, elemsText]

theorem renderFields_eq (fs : List (Bytes × Json)) :
    renderFields fs = if fs = [] then [closeObj] else comma :: fieldsText fs := by
  cases fs <;> simp [renderFields, fieldsText]

theorem parseValue_openArr (fuel : Nat)
    (h : (skipBlanks rest).head? ≠ some closeArr) :
    parseValue (fuel + 1) (openArr :: rest) =
      (parseElems fuel rest).map (fun r => (.arr r.1, r.2)) := by
  change (if (skipBlanks rest).head? = some closeArr then _ else _) = _
  rw [if_neg h]

theorem parseValue_openObj (fuel : Nat)
    (h : (skipBlanks rest).head? ≠ some closeObj) :
    parseValue (fuel + 1) (openObj :: rest) =
      (parseFields fuel rest).map (fun r => (.obj r.1, r.2)) := by
  change (if (skipBlanks rest).head? = some closeObj then _ else _) = _
  rw [if_neg h]

mutual

/-- The reader at the text of a value, by recursion on the tree. -/
theorem parseValue_render (j : Json) : ∀ {fuel : Nat} {rest : Bytes}, Stops rest →
    (render j).length ≤ fuel → parseValue fuel (render j ++ rest) = some (repair j, rest) := by
  intro fuel rest hrest hfuel
  obtain ⟨fuel, rfl⟩ : ∃ k, fuel = k + 1 := ⟨fuel - 1, by have := render_pos j; omega⟩
  cases j with
  | null => rfl
  | bool b => cases b <;> rfl
  | num n =>
    rcases formatInt_head n with ⟨b, t, hb, hkind⟩
    have hnum := parseNumber_formatInt n hrest
    rcases number_byte b hkind with ⟨hblank, hq, ha, ho, hn, ht, hf, _⟩
    rw [render, repair]
    rw [hb, cons_append] at hnum ⊢
    simp only [parseValue, skipBlanks_cons hblank, if_neg hq, if_neg ha, if_neg ho, if_neg hn,
      if_neg ht, if_neg hf]
    exact hnum
  | str s =>
    rw [render, repair, renderString_append, parseValue, skipBlanks_cons (by decide)]
    simp only [if_true, parseString_render]
    rfl
  | arr xs =>
    cases xs with
    | nil => rfl
    | cons x xs =>
      have helems := @parseElems_render (x :: xs) fuel rest (cons_ne_nil _ _)
        (by simpa [render, elemsText] using hfuel)
      have hopen : (skipBlanks (elemsText (x :: xs) ++ rest)).head? ≠ some closeArr := by
        rcases render_head x with ⟨b, t, hb, hblank, hclose⟩
        rw [elemsText, hb, cons_append, cons_append, skipBlanks_cons hblank]
        exact fun h => hclose (Option.some.inj h)
      have htext : render (.arr (x :: xs)) ++ rest = openArr :: (elemsText (x :: xs) ++ rest) := by
        simp [render, elemsText]
      rw [htext, parseValue_openArr fuel hopen, helems]
      rfl
  | obj fs =>
    cases fs with
    | nil => rfl
    | cons f fs =>
      rcases f with ⟨k, v⟩
      have hfields := @parseFields_render ((k, v) :: fs) fuel rest (cons_ne_nil _ _)
        (by simpa [render, fieldsText] using hfuel)
      have htext : render (.obj ((k, v) :: fs)) ++ rest =
          openObj :: (fieldsText ((k, v) :: fs) ++ rest) := by
        simp [render, fieldsText]
      have hopen : (skipBlanks (fieldsText ((k, v) :: fs) ++ rest)).head? ≠ some closeObj := by
        rw [fieldsText, append_assoc, append_assoc, renderString_append,
          skipBlanks_cons (by decide)]
        exact fun h => absurd (Option.some.inj h) (by decide)
      rw [htext, parseValue_openObj fuel hopen, hfields]
      rfl
termination_by structural j

theorem parseElems_render (l : List Json) : ∀ {fuel : Nat} {rest : Bytes}, l ≠ [] →
    (elemsText l).length ≤ fuel →
      parseElems fuel (elemsText l ++ rest) = some (repairElems l, rest) := by
  intro fuel rest hne hfuel
  cases l with
  | nil => exact absurd rfl hne
  | cons x xs =>
    rw [elemsText, length_append] at hfuel
    have hend : 0 < (renderElems xs).length := by cases xs <;> simp [renderElems]
    obtain ⟨fuel, rfl⟩ : ∃ k, fuel = k + 1 := ⟨fuel - 1, by omega⟩
    have hx := @parseValue_render x fuel (renderElems xs ++ rest) (stops_renderElems xs rest)
      (by omega)
    rw [elemsText, append_assoc, parseElems, hx]
    cases xs with
    | nil => rfl
    | cons y ys =>
      have hys := @parseElems_render (y :: ys) fuel rest (cons_ne_nil _ _) (by
        rw [renderElems_eq, if_neg (cons_ne_nil _ _), length_cons] at hfuel
        have := render_pos x
        omega)
      rw [renderElems_eq, if_neg (cons_ne_nil _ _), cons_append]
      simp only [skipBlanks_cons (by decide : isBlank comma = false)]
      rw [if_neg (by decide), if_pos trivial, hys]
      rfl
termination_by structural l

theorem parseFields_render (l : List (Bytes × Json)) : ∀ {fuel : Nat} {rest : Bytes}, l ≠ [] →
    (fieldsText l).length ≤ fuel →
      parseFields fuel (fieldsText l ++ rest) = some (repairFields l, rest) := by
  intro fuel rest hne hfuel
  cases l with
  | nil => exact absurd rfl hne
  | cons f fs =>
    rcases f with ⟨k, v⟩
    simp only [fieldsText, length_append, length_cons] at hfuel
    obtain ⟨fuel, rfl⟩ : ∃ k, fuel = k + 1 := ⟨fuel - 1, by omega⟩
    have hv := @parseValue_render v fuel (renderFields fs ++ rest) (stops_renderFields fs rest)
      (by omega)
    rw [fieldsText, append_assoc, append_assoc, renderString_append, parseFields,
      skipBlanks_cons (by decide)]
    simp only [ne_eq, not_true, if_false, parseString_render, cons_append,
      skipBlanks_cons (by decide : isBlank colon = false), hv]
    cases fs with
    | nil => rfl
    | cons g gs =>
      have hgs := @parseFields_render (g :: gs) fuel rest (cons_ne_nil _ _) (by
        rw [renderFields_eq, if_neg (cons_ne_nil _ _), length_cons] at hfuel
        omega)
      rw [renderFields_eq, if_neg (cons_ne_nil _ _), cons_append]
      simp only [skipBlanks_cons (by decide : isBlank comma = false)]
      rw [if_neg (by decide), if_pos trivial, hgs]
      rfl
termination_by structural l

end

theorem parseFirst_render (j : Json) : parseFirst (render j) = some (repair j, []) := by
  have h := @parseValue_render j ((render j).length + 1) [] nofun (by omega)
  rwa [append_nil] at h

end Json
end Lib
end SnugKV
