import SnugKV.Lib.Digits
import SnugKV.Lib.Utf8

/-!
# JSON — trees with integer numbers, their text, and its reader

* `render` writes a tree without blanks; strings are escaped for use inside HTML and repaired to
  valid UTF-8 on the way;
* `parseFirst` reads any text of the grammar: blanks, all escapes, surrogate pairs; numbers
  with a fraction or an exponent are outside this model.
-/

namespace SnugKV
namespace Lib

inductive Json where
  | null
  | bool (b : Bool)
  | num (n : Int)
  | str (s : Bytes)
  | arr (xs : List Json)
  | obj (fields : List (Bytes × Json))

namespace Json

def quote : UInt8 := '"'.toUInt8
def backslash : UInt8 := '\\'.toUInt8
def comma : UInt8 := ','.toUInt8
def colon : UInt8 := ':'.toUInt8
def openArr : UInt8 := '['.toUInt8
def closeArr : UInt8 := ']'.toUInt8
def openObj : UInt8 := 0x7B
def closeObj : UInt8 := 0x7D

/-! ## Writing -/

def hexChar (v : Nat) : UInt8 :=
  (ascii "0123456789abcdef").getD (v % 16) 0

/-- A backslash, `u` and four hex digits. -/
def unicodeEscape (v : Nat) : Bytes :=
  [backslash, 'u'.toUInt8, hexChar (v / 4096), hexChar (v / 256), hexChar (v / 16), hexChar v]

/-- Bytes with an escape of one letter. -/
def shortEscapes : List (UInt8 × UInt8) :=
  [(quote, quote), (backslash, backslash), (8, 'b'.toUInt8), (12, 'f'.toUInt8), (10, 'n'.toUInt8),
    (13, 'r'.toUInt8), (9, 't'.toUInt8)]

def escapeAscii (b : UInt8) : Bytes :=
  match shortEscapes.lookup b with
  | some c => [backslash, c]
  | none =>
    if b < 0x20 ∨ b = '<'.toUInt8 ∨ b = '>'.toUInt8 ∨ b = '&'.toUInt8 then unicodeEscape b.toNat
    else [b]

/-- The separators `U+2028` and `U+2029` are escaped, too. -/
def escapeSequence (seq : Bytes) : Bytes :=
  if seq = [0xE2, 0x80, 0xA8] then unicodeEscape 0x2028
  else if seq = [0xE2, 0x80, 0xA9] then unicodeEscape 0x2029
  else
    match seq with
    | [b] => escapeAscii b
    | _ => seq

def escapePiece : Option Bytes → Bytes
  | some seq => escapeSequence seq
  | none => unicodeEscape 0xFFFD

def renderString (s : Bytes) : Bytes :=
  quote :: (pieces s).flatMap escapePiece ++ [quote]

mutual

def render : Json → Bytes
  | .null => ascii "null"
  | .bool true => ascii "true"
  | .bool false => ascii "false"
  | .num n => formatInt n
  | .str s => renderString s
  | .arr [] => [openArr, closeArr]
  | .arr (x :: xs) => openArr :: render x ++ renderElems xs
  | .obj [] => [openObj, closeObj]
  | .obj ((k, v) :: fs) => openObj :: renderString k ++ colon :: render v ++ renderFields fs
termination_by structural j => j

def renderElems : List Json → Bytes
  | [] => [closeArr]
  | x :: xs => comma :: render x ++ renderElems xs
termination_by structural xs => xs

def renderFields : List (Bytes × Json) → Bytes
  | [] => [closeObj]
  | (k, v) :: fs => comma :: renderString k ++ colon :: render v ++ renderFields fs
termination_by structural fs => fs

end

/-! ## Reading strings -/

def hexVal (c : UInt8) : Option Nat :=
  if '0'.toUInt8 ≤ c ∧ c ≤ '9'.toUInt8 then some (c - '0'.toUInt8).toNat
  else if 'a'.toUInt8 ≤ c ∧ c ≤ 'f'.toUInt8 then some ((c - 'a'.toUInt8).toNat + 10)
  else if 'A'.toUInt8 ≤ c ∧ c ≤ 'F'.toUInt8 then some ((c - 'A'.toUInt8).toNat + 10)
  else none

def hex4 (a b c d : UInt8) : Option Nat := do
  let a ← hexVal a
  let b ← hexVal b
  let c ← hexVal c
  let d ← hexVal d
  some (((a * 16 + b) * 16 + c) * 16 + d)

def encodeRune (r : Nat) : Bytes :=
  if r < 0x80 then [UInt8.ofNat r]
  else if r < 0x800 then [UInt8.ofNat (0xC0 + r / 64), UInt8.ofNat (0x80 + r % 64)]
  else if r < 0x10000 then
    [UInt8.ofNat (0xE0 + r / 4096), UInt8.ofNat (0x80 + r / 64 % 64), UInt8.ofNat (0x80 + r % 64)]
  else
    [UInt8.ofNat (0xF0 + r / 262144), UInt8.ofNat (0x80 + r / 4096 % 64),
      UInt8.ofNat (0x80 + r / 64 % 64), UInt8.ofNat (0x80 + r % 64)]

/-- The second half of a surrogate pair, when one follows. -/
def lowSurrogate : Bytes → Option (Nat × Bytes)
  | x :: y :: a :: b :: c :: d :: rest =>
    if x = backslash ∧ y = 'u'.toUInt8 then
      match hex4 a b c d with
      | some w => if 0xDC00 ≤ w ∧ w < 0xE000 then some (w, rest) else none
      | none => none
    else none
  | _ => none

/-- The code point of four hex digits; a lone surrogate is replaced. -/
def codePoint (v : Nat) (rest : Bytes) : Bytes × Bytes :=
  if v < 0xD800 ∨ 0xE000 ≤ v then (encodeRune v, rest)
  else if 0xDC00 ≤ v then (replacement, rest)
  else
    match lowSurrogate rest with
    | some (w, rest) => (encodeRune (0x10000 + (v - 0xD800) * 1024 + (w - 0xDC00)), rest)
    | none => (replacement, rest)

/-- What stands behind a backslash. -/
def parseEscape : Bytes → Option (Bytes × Bytes)
  | [] => none
  | c :: rest =>
    if c = 'u'.toUInt8 then
      match rest with
      | a :: b :: x :: y :: rest => (hex4 a b x y).map (fun v => codePoint v rest)
      | _ => none
    else if c = '/'.toUInt8 then some ([c], rest)
    else
      match shortEscapes.find? (fun e => e.2 = c) with
      | some e => some ([e.1], rest)
      | none => none

/-- The characters of a string up to its closing quote. -/
def parseBody : Nat → Bytes → Option (Bytes × Bytes)
  | 0, _ => none
  | _ + 1, [] => none
  | fuel + 1, b :: s =>
    if b = quote then some ([], s)
    else if b = backslash then
      match parseEscape s with
      | none => none
      | some (out, rest) => (parseBody fuel rest).map (fun r => (out ++ r.1, r.2))
    else if b < 0x20 then none
    else if runeSize (b :: s) = 0 then
      (parseBody fuel s).map (fun r => (replacement ++ r.1, r.2))
    else
      (parseBody fuel ((b :: s).drop (runeSize (b :: s)))).map
        (fun r => ((b :: s).take (runeSize (b :: s)) ++ r.1, r.2))

def parseString (s : Bytes) : Option (Bytes × Bytes) :=
  parseBody s.length s

/-! ## Reading values -/

def isBlank (b : UInt8) : Bool :=
  b == 0x20 || b == 0x09 || b == 0x0A || b == 0x0D

def skipBlanks (s : Bytes) : Bytes :=
  s.dropWhile isBlank

def parseLiteral (lit : Bytes) (j : Json) (s : Bytes) : Option (Json × Bytes) :=
  if s.take lit.length = lit then some (j, s.drop lit.length) else none

/-- The digits of a number: no leading zero, no fraction and no exponent. -/
def parseNat (s : Bytes) : Option (Nat × Bytes) :=
  let digits := s.takeWhile isDigit
  let rest := s.dropWhile isDigit
  if digits = [] then none
  else if digits.head? = some digit0 ∧ 1 < digits.length then none
  else if rest.head? = some '.'.toUInt8 ∨ rest.head? = some 'e'.toUInt8 ∨
      rest.head? = some 'E'.toUInt8 then none
  else some (valueFrom 10 0 (digits.map digitOf), rest)

def parseNumber (s : Bytes) : Option (Json × Bytes) :=
  if s.head? = some minusSign then
    (parseNat (s.drop 1)).map (fun r => (.num (-(r.1 : Int)), r.2))
  else (parseNat s).map (fun r => (.num (r.1 : Int), r.2))

mutual

def parseValue : Nat → Bytes → Option (Json × Bytes)
  | 0, _ => none
  | fuel + 1, s =>
    match skipBlanks s with
    | [] => none
    | b :: rest =>
      if b = quote then (parseString rest).map (fun r => (.str r.1, r.2))
      else if b = openArr then
        if (skipBlanks rest).head? = some closeArr then some (.arr [], (skipBlanks rest).drop 1)
        else (parseElems fuel rest).map (fun r => (.arr r.1, r.2))
      else if b = openObj then
        if (skipBlanks rest).head? = some closeObj then some (.obj [], (skipBlanks rest).drop 1)
        else (parseFields fuel rest).map (fun r => (.obj r.1, r.2))
      else if b = 'n'.toUInt8 then parseLiteral (ascii "null") .null (b :: rest)
      else if b = 't'.toUInt8 then parseLiteral (ascii "true") (.bool true) (b :: rest)
      else if b = 'f'.toUInt8 then parseLiteral (ascii "false") (.bool false) (b :: rest)
      else parseNumber (b :: rest)

def parseElems : Nat → Bytes → Option (List Json × Bytes)
  | 0, _ => none
  | fuel + 1, s =>
    match parseValue fuel s with
    | none => none
    | some (x, rest) =>
      match skipBlanks rest with
      | [] => none
      | b :: rest =>
        if b = closeArr then some ([x], rest)
        else if b = comma then (parseElems fuel rest).map (fun r => (x :: r.1, r.2))
        else none

def parseFields : Nat → Bytes → Option (List (Bytes × Json) × Bytes)
  | 0, _ => none
  | fuel + 1, s =>
    match skipBlanks s with
    | [] => none
    | q :: rest =>
      if q ≠ quote then none
      else
        match parseString rest with
        | none => none
        | some (k, rest) =>
          match skipBlanks rest with
          | [] => none
          | c :: rest =>
            if c ≠ colon then none
            else
              match parseValue fuel rest with
              | none => none
              | some (v, rest) =>
                match skipBlanks rest with
                | [] => none
                | b :: rest =>
                  if b = closeObj then some ([(k, v)], rest)
                  else if b = comma then
                    (parseFields fuel rest).map (fun r => ((k, v) :: r.1, r.2))
                  else none

end

def parseFirst (s : Bytes) : Option (Json × Bytes) :=
  parseValue (s.length + 1) s

end Json

end Lib
end SnugKV
