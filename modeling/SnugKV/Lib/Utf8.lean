import SnugKV.Lib.Binary

/-!
# UTF-8 — well-formed sequences and their repair

`runeSize` is the length of the well-formed sequence at the head of a byte string, 0 if there is
none.  `validUtf8` decides whether a string is made of such sequences, and `toValidUtf8` puts the
replacement character in place of every byte that starts none.  `toValidUtf8_eq_self_iff`: the
repair leaves alone the valid strings, and only them.
-/

namespace SnugKV
namespace Lib

open List

/-! ## One sequence -/

/-- The length that the first byte of a sequence announces. -/
def leadSize (a : UInt8) : Nat :=
  if a < 0x80 then 1
  else if 0xC2 ≤ a ∧ a ≤ 0xDF then 2
  else if 0xE0 ≤ a ∧ a ≤ 0xEF then 3
  else if 0xF0 ≤ a ∧ a ≤ 0xF4 then 4
  else 0

/-- The bytes that may follow the first one: no overlong forms, no surrogates, nothing above
`U+10FFFF`. -/
def secondOk (a b : UInt8) : Bool :=
  if a = 0xE0 then decide (0xA0 ≤ b ∧ b ≤ 0xBF)
  else if a = 0xED then decide (0x80 ≤ b ∧ b ≤ 0x9F)
  else if a = 0xF0 then decide (0x90 ≤ b ∧ b ≤ 0xBF)
  else if a = 0xF4 then decide (0x80 ≤ b ∧ b ≤ 0x8F)
  else decide (0x80 ≤ b ∧ b ≤ 0xBF)

def isTail (b : UInt8) : Bool :=
  decide (0x80 ≤ b ∧ b ≤ 0xBF)

/-- The bytes behind the first one, all of them. -/
def tailOk (a : UInt8) : Bytes → Bool
  | [] => true
  | b :: rest => secondOk a b && rest.all isTail

def runeSize : Bytes → Nat
  | [] => 0
  | a :: rest =>
    let n := leadSize a
    if (rest.take (n - 1)).length = n - 1 ∧ tailOk a (rest.take (n - 1)) then n else 0

theorem runeSize_le_length (s : Bytes) : runeSize s ≤ s.length := by
  cases s with
  | nil => exact Nat.le_refl 0
  | cons a rest =>
    rw [runeSize]
    split
    next h =>
      have := h.1
      rw [length_take] at this
      rw [length_cons]
      omega
    next => exact Nat.zero_le _

/-- What a sequence is: as long as its first byte says, with a tail that fits it. -/
theorem runeSize_ok {a : UInt8} {tail : Bytes} (h : runeSize (a :: tail) ≠ 0) :
    runeSize (a :: tail) = leadSize a ∧ (tail.take (leadSize a - 1)).length = leadSize a - 1 ∧
      tailOk a (tail.take (leadSize a - 1)) = true := by
  rw [runeSize] at h ⊢
  split at h
  next hok => exact ⟨by rw [if_pos hok], hok⟩
  next => exact absurd rfl h

theorem take_runeSize {a : UInt8} {tail : Bytes} (h : runeSize (a :: tail) ≠ 0) :
    (a :: tail).take (runeSize (a :: tail)) = a :: tail.take (leadSize a - 1) := by
  have hsize := (runeSize_ok h).1
  rw [hsize] at h ⊢
  rw [← take_succ_cons, Nat.sub_add_cancel (Nat.pos_of_ne_zero h)]

variable {s : Bytes}

theorem runeSize_take_append (h : runeSize s ≠ 0) (rest : Bytes) :
    runeSize (s.take (runeSize s) ++ rest) = runeSize s := by
  cases s with
  | nil => exact absurd rfl h
  | cons a tail =>
    rcases runeSize_ok h with ⟨hsize, hok⟩
    have hagain : (tail.take (leadSize a - 1) ++ rest).take (leadSize a - 1) =
        tail.take (leadSize a - 1) := by
      rw [take_append_of_le_length (by omega), take_take, Nat.min_self]
    rw [take_runeSize h, hsize, cons_append, runeSize]
    simp only [hagain]
    rw [if_pos hok]

/-- A sequence is one ASCII byte, or a byte above with at least one more. -/
theorem sequence_cases (h : runeSize s ≠ 0) : (∃ b, b < 0x80 ∧ s.take (runeSize s) = [b]) ∨
      ∃ a b t, ¬ a < 0x80 ∧ s.take (runeSize s) = a :: b :: t := by
  cases s with
  | nil => exact absurd rfl h
  | cons a tail =>
    rcases runeSize_ok h with ⟨hsize, hlen, _⟩
    rw [take_runeSize h]
    by_cases ha : a < 0x80
    · refine Or.inl ⟨a, ha, ?_⟩
      have h1 : leadSize a = 1 := by simp [leadSize, ha]
      rw [h1]
      rfl
    · refine Or.inr ⟨a, ?_⟩
      have h2 : 2 ≤ leadSize a := by
        rw [hsize] at h
        unfold leadSize at h ⊢
        split_ifs at h ⊢ <;> omega
      cases htail : tail.take (leadSize a - 1) with
      | nil =>
        rw [htail] at hlen
        simp at hlen
        omega
      | cons b t => exact ⟨b, t, ha, rfl⟩

theorem runeSize_ascii {a : UInt8} (h : a < 0x80) (rest : Bytes) : runeSize (a :: rest) = 1 := by
  simp [runeSize, leadSize, h, tailOk]

/-! ## Whole strings -/

def piecesAux : Nat → Bytes → List (Option Bytes)
  | 0, _ => []
  | _ + 1, [] => []
  | fuel + 1, b :: s =>
    if runeSize (b :: s) = 0 then none :: piecesAux fuel s
    else
      some ((b :: s).take (runeSize (b :: s))) :: piecesAux fuel ((b :: s).drop (runeSize (b :: s)))

/-- The sequences of a string in order, `none` for a byte that starts none. -/
def pieces (s : Bytes) : List (Option Bytes) :=
  piecesAux s.length s

theorem piecesAux_eq {fuel fuel' : Nat} (h : s.length ≤ fuel) (h' : s.length ≤ fuel') :
    piecesAux fuel s = piecesAux fuel' s := by
  induction fuel generalizing s fuel' with
  | zero =>
    rw [eq_nil_of_length_eq_zero (Nat.le_zero.1 h)]
    cases fuel' <;> rfl
  | succ fuel ih =>
    cases s with
    | nil => cases fuel' <;> rfl
    | cons b s =>
      cases fuel' with
      | zero => cases h'
      | succ fuel' =>
        rw [length_cons] at h h'
        rw [piecesAux, piecesAux]
        split
        · rw [@ih s fuel' (by omega) (by omega)]
        · rw [@ih _ fuel'] <;> rw [length_drop, length_cons] <;> omega

theorem pieces_bad {b : UInt8} (h : runeSize (b :: s) = 0) :
    pieces (b :: s) = none :: pieces s := by
  rw [pieces, length_cons, piecesAux, if_pos h]
  rfl

theorem pieces_ok (h : runeSize s ≠ 0) :
    pieces s = some (s.take (runeSize s)) :: pieces (s.drop (runeSize s)) := by
  cases s with
  | nil => exact absurd rfl h
  | cons b s =>
    rw [pieces, length_cons, piecesAux, if_neg h, pieces, piecesAux_eq _ le_rfl]
    rw [length_drop, length_cons]
    omega

theorem pieces_ascii {a : UInt8} (h : a < 0x80) (s : Bytes) :
    pieces (a :: s) = some [a] :: pieces s := by
  have hsize := runeSize_ascii h s
  rw [pieces_ok (by rw [hsize]; decide), hsize]
  rfl

/-- Induction over a string, sequence by sequence. -/
theorem runes_induction {P : Bytes → Prop} (nil : P [])
    (ok : ∀ s, runeSize s ≠ 0 → P (s.drop (runeSize s)) → P s)
    (bad : ∀ b s, runeSize (b :: s) = 0 → P s → P (b :: s)) (s : Bytes) : P s := by
  induction hn : s.length using Nat.strongRecOn generalizing s with
  | _ n ih =>
    cases s with
    | nil => exact nil
    | cons b s =>
      by_cases h : runeSize (b :: s) = 0
      · exact bad b s h (ih s.length (by rw [← hn]; simp) s rfl)
      · refine ok _ h (ih _ ?_ _ rfl)
        rw [length_drop, ← hn, length_cons]
        omega

/-! ## Validity and repair -/

/-- `U+FFFD` -/
def replacement : Bytes := [0xEF, 0xBF, 0xBD]

def validUtf8 (s : Bytes) : Bool :=
  (pieces s).all Option.isSome

/-- The string with the replacement character for every byte outside a sequence. -/
def toValidUtf8 (s : Bytes) : Bytes :=
  (pieces s).flatMap (fun piece => piece.getD replacement)

theorem toValidUtf8_ok (h : runeSize s ≠ 0) :
    toValidUtf8 s = s.take (runeSize s) ++ toValidUtf8 (s.drop (runeSize s)) := by
  rw [toValidUtf8, pieces_ok h]
  rfl

theorem toValidUtf8_bad {b : UInt8} (h : runeSize (b :: s) = 0) :
    toValidUtf8 (b :: s) = replacement ++ toValidUtf8 s := by
  rw [toValidUtf8, pieces_bad h]
  rfl

/-- The repair changes a string exactly when it is not valid: a byte that starts no sequence is
never the first byte of a replacement character. -/
theorem toValidUtf8_eq_self_iff (s : Bytes) : toValidUtf8 s = s ↔ validUtf8 s = true := by
  induction s using runes_induction with
  | nil => exact ⟨fun _ => rfl, fun _ => rfl⟩
  | ok s h ih =>
    have hsplit : s = s.take (runeSize s) ++ s.drop (runeSize s) := (take_append_drop _ _).symm
    have hvalid : validUtf8 s = validUtf8 (s.drop (runeSize s)) := by
      rw [validUtf8, pieces_ok h]
      rfl
    rw [hvalid, ← ih, toValidUtf8_ok h]
    constructor
    · intro heq
      exact append_cancel_left (heq.trans hsplit)
    · intro heq
      rw [heq]
      exact hsplit.symm
  | bad b s h _ =>
    have hvalid : validUtf8 (b :: s) = false := by
      rw [validUtf8, pieces_bad h]
      rfl
    rw [hvalid, toValidUtf8_bad h]
    refine ⟨fun heq => ?_, fun hfalse => by cases hfalse⟩
    -- then the string would start with the replacement character itself
    rw [← heq] at h
    have hsize : runeSize (replacement ++ toValidUtf8 s) = 3 := by
      simp [replacement, runeSize, leadSize, tailOk, secondOk, isTail]
    cases h

theorem validUtf8_ascii (h : ∀ b ∈ s, b < 0x80) : validUtf8 s = true := by
  induction s with
  | nil => rfl
  | cons b s ih =>
    rw [validUtf8, pieces_ascii (h b mem_cons_self)]
    exact ih (fun c hc => h c (mem_cons_of_mem _ hc))

end Lib
end SnugKV
