import SnugKV.Lib.Binary

/-!
# Glob patterns — byte-oriented MATCH

`redisGlobMatch` of `internal/engine/glob.go`.  Positions of the source are suffixes here; every
turn of its loop moves forward in the pattern, so the length of the pattern bounds the turns.
-/

namespace SnugKV
namespace Engine

open Lib

def globMember (c : UInt8) (p : Bytes) : UInt8 × Bytes :=
  if c = '\\'.toUInt8 then
    match p with
    | d :: q => (d, q)
    | [] => (c, p)
  else (c, p)

/-- The loop over a character class for the byte `b`: whether a member matched, and the pattern
behind the closing bracket; `none` when the class is not closed. -/
def globClass (b : UInt8) : Nat → Bytes → Bool → Option (Bool × Bytes)
  | 0, _, _ => none
  | _ + 1, [], _ => none
  | fuel + 1, c :: p, matched =>
    if c = ']'.toUInt8 then some (matched, p)
    else
      let (lo, p) := globMember c p
      match p with
      | d :: h :: q =>
        if d = '-'.toUInt8 ∧ h ≠ ']'.toUInt8 then
          let (hi, q) := globMember h q
          globClass b fuel q (matched || decide (lo ≤ hi ∧ lo ≤ b ∧ b ≤ hi))
        else globClass b fuel p (matched || decide (b = lo))
      | _ => globClass b fuel p (matched || decide (b = lo))

def globNegated (p : Bytes) : Bool × Bytes :=
  match p with
  | c :: q => if c = '^'.toUInt8 ∨ c = '!'.toUInt8 then (true, q) else (false, p)
  | [] => (false, p)

/-- The closure `match` of `redisGlobMatch`, on what is left of the pattern and of the value. -/
def globLoop : Nat → Bytes → Bytes → Bool
  | 0, p, v => p.isEmpty && v.isEmpty
  | _ + 1, [], v => v.isEmpty
  | fuel + 1, c :: p, v =>
    if c = '*'.toUInt8 then
      let q := p.dropWhile (fun d => d == '*'.toUInt8)
      if q.isEmpty then true
      else (List.range (v.length + 1)).any (fun k => globLoop fuel q (v.drop k))
    else
      match v with
      | [] => false
      | b :: w =>
        if c = '?'.toUInt8 then globLoop fuel p w
        else if c = '\\'.toUInt8 then
          match p with
          | [] => if b = c then globLoop fuel [] w else false
          | d :: q => if b = d then globLoop fuel q w else false
        else if c = '['.toUInt8 then
          let (negate, q) := globNegated p
          match globClass b q.length q false with
          | some (matched, rest) => if matched = negate then false else globLoop fuel rest w
          -- An unterminated class is a literal bracket.
          | none => if b = c then globLoop fuel p w else false
        else if b = c then globLoop fuel p w
        else false

def redisGlobMatch (pattern value : Bytes) : Bool :=
  globLoop pattern.length pattern value

example : redisGlobMatch (ascii "user:[0-9]*\\?") (ascii "user:17?") = true := by decide +kernel

end Engine
end SnugKV
