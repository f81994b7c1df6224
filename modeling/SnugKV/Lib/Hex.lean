import SnugKV.Lib.Binary

/-!
# Hex — hexadecimal digits and bytes

A hex digit is a byte of one of three classes: decimal digit, lower-case letter, upper-case
letter.  The module gives the value of a digit (`nibble`), the two digit alphabets and the
packing of digit pairs into bytes (`packPairs`), and proves that a packed pair prints back as
the digits it came from, in the case they had.
-/

namespace SnugKV
namespace Lib
namespace Hex

/-- Which alphabet a byte belongs to. -/
inductive Class where
  | none
  | digit
  | lower
  | upper
  deriving DecidableEq, Repr

def classOf (c : UInt8) : Class :=
  if 0x30 ≤ c ∧ c ≤ 0x39 then .digit
  else if 0x61 ≤ c ∧ c ≤ 0x66 then .lower
  else if 0x41 ≤ c ∧ c ≤ 0x46 then .upper
  else .none

/-- The value of a hex digit; `0xff` for a byte that is none. -/
def nibble (c : UInt8) : UInt8 :=
  match classOf c with
  | .digit => c - 0x30
  | .lower => c - 0x61 + 10
  | .upper => c - 0x41 + 10
  | .none => 0xff

/-- `"0123456789abcdef"[n]` -/
def lowerDigit (n : UInt8) : UInt8 :=
  if n < 10 then 0x30 + n else 0x57 + n

/-- `"0123456789ABCDEF"[n]` -/
def upperDigit (n : UInt8) : UInt8 :=
  if n < 10 then 0x30 + n else 0x37 + n

theorem nibble_lt : ∀ c : UInt8, classOf c ≠ .none → (nibble c).toNat < 16 :=
  forall_byte (by decide +kernel)

theorem lowerDigit_nibble :
    ∀ c : UInt8, classOf c ≠ .none → classOf c ≠ .upper → lowerDigit (nibble c) = c :=
  forall_byte (by decide +kernel)

theorem upperDigit_nibble :
    ∀ c : UInt8, classOf c ≠ .none → classOf c ≠ .lower → upperDigit (nibble c) = c :=
  forall_byte (by decide +kernel)

theorem lowerDigit_nibble_sub :
    ∀ c : UInt8, classOf c = .upper → lowerDigit (nibble c) - 0x20 = c :=
  forall_byte (by decide +kernel)

/-! ## Digit pairs -/

/-- The byte of two digits, high digit first. -/
def packPair (hi lo : UInt8) : UInt8 :=
  nibble hi <<< 4 ||| nibble lo

def packPairs : Bytes → Bytes
  | hi :: lo :: rest => packPair hi lo :: packPairs rest
  | _ => []

theorem length_packPairs : ∀ ds : Bytes, (packPairs ds).length = ds.length / 2
  | [] => rfl
  | [_] => by simp [packPairs]
  | _ :: _ :: rest => by
      simp only [packPairs, List.length_cons, length_packPairs rest]
      omega

theorem nibbles_of_lt : ∀ a b : Fin 16,
    ((UInt8.ofNat a.val <<< 4 ||| UInt8.ofNat b.val) >>> 4 = UInt8.ofNat a.val) ∧
      ((UInt8.ofNat a.val <<< 4 ||| UInt8.ofNat b.val) &&& 0x0f = UInt8.ofNat b.val) := by
  decide +kernel

theorem packPair_nibbles {hi lo : UInt8} (hhi : classOf hi ≠ .none) (hlo : classOf lo ≠ .none) :
    packPair hi lo >>> 4 = nibble hi ∧ packPair hi lo &&& 0x0f = nibble lo := by
  have := nibbles_of_lt ⟨(nibble hi).toNat, nibble_lt hi hhi⟩ ⟨(nibble lo).toNat, nibble_lt lo hlo⟩
  simpa [packPair] using this

end Hex
end Lib
end SnugKV
