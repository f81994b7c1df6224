import SnugKV.Lib.Binary

/-!
# Base64 — the standard alphabet with padding

`base64Encode` writes four characters for each three bytes and pads the last group;
`base64Decode` reads them back, skipping line breaks.  The strict reader refuses a last group
whose unused bits are not zero.
-/

namespace SnugKV
namespace Lib

open List

def base64Alphabet : Bytes :=
  ascii "ABCDEFGHIJKLMNOPQRSTUVWXYZabcdefghijklmnopqrstuvwxyz0123456789+/"

def base64Pad : UInt8 := '='.toUInt8

def base64Char (v : Nat) : UInt8 :=
  base64Alphabet.getD (v % 64) 0

def base64Encode : Bytes → Bytes
  | [] => []
  | [a] =>
    let v := a.toNat * 16
    [base64Char (v / 64), base64Char v, base64Pad, base64Pad]
  | [a, b] =>
    let v := (a.toNat * 256 + b.toNat) * 4
    [base64Char (v / 4096), base64Char (v / 64), base64Char v, base64Pad]
  | a :: b :: c :: rest =>
    let v := (a.toNat * 256 + b.toNat) * 256 + c.toNat
    base64Char (v / 262144) :: base64Char (v / 4096) :: base64Char (v / 64) :: base64Char v ::
      base64Encode rest

def base64Value (c : UInt8) : Option Nat :=
  base64Alphabet.findIdx? (· == c)

/-- The groups of four characters; padding ends the text. -/
def base64Groups (strict : Bool) : Bytes → Option Bytes
  | [] => some []
  | a :: b :: c :: d :: rest =>
    match base64Value a, base64Value b, base64Value c, base64Value d with
    | some va, some vb, some vc, some vd =>
      let v := ((va * 64 + vb) * 64 + vc) * 64 + vd
      (base64Groups strict rest).map fun out =>
        UInt8.ofNat (v / 65536) :: UInt8.ofNat (v / 256) :: UInt8.ofNat v :: out
    | some va, some vb, some vc, none =>
      let v := (va * 64 + vb) * 64 + vc
      if d ≠ base64Pad ∨ rest ≠ [] ∨ strict = true ∧ v % 4 ≠ 0 then none
      else some [UInt8.ofNat (v / 1024), UInt8.ofNat (v / 4)]
    | some va, some vb, none, none =>
      let v := va * 64 + vb
      if c ≠ base64Pad ∨ d ≠ base64Pad ∨ rest ≠ [] ∨ strict = true ∧ v % 16 ≠ 0 then none
      else some [UInt8.ofNat (v / 16)]
    | _, _, _, _ => none
  | _ => none

def isLineBreak (c : UInt8) : Bool :=
  c == '\r'.toUInt8 || c == '\n'.toUInt8

def base64Decode (strict : Bool) (src : Bytes) : Option Bytes :=
  base64Groups strict (src.filter (fun c => !isLineBreak c))

theorem length_base64Encode : ∀ raw : Bytes, (base64Encode raw).length = (raw.length + 2) / 3 * 4
  | [] => rfl
  | [_] => by simp [base64Encode]
  | [_, _] => by simp [base64Encode]
  | a :: b :: c :: rest => by
      simp only [base64Encode, length_cons, length_base64Encode rest]
      omega

/-! ## Reading back -/

theorem base64Value_char (v : Nat) : base64Value (base64Char v) = some (v % 64) := by
  have hall : ∀ i : Fin 64, base64Value (base64Char i.val) = some i.val := by decide +kernel
  have := hall ⟨v % 64, Nat.mod_lt _ (by decide)⟩
  simpa [base64Char] using this

@[simp] theorem base64Value_pad : base64Value base64Pad = none := by
  decide +kernel

theorem base64Char_mem (v : Nat) : base64Char v ∈ base64Alphabet := by
  have hlt : v % 64 < base64Alphabet.length := Nat.mod_lt _ (by decide)
  rw [base64Char, getD_eq_getElem _ _ hlt]
  exact getElem_mem hlt

theorem ofNat_eq_of_mod {n : Nat} {b : UInt8} (h : n % 256 = b.toNat) : UInt8.ofNat n = b := by
  apply UInt8.toNat_inj.1
  rw [UInt8.toNat_ofNat', ← h]

theorem base64Groups_encode (strict : Bool) :
    ∀ raw : Bytes, base64Groups strict (base64Encode raw) = some raw
  | [] => rfl
  | [a] => by
      have ha := a.toNat_lt
      have hbits : (a.toNat * 16 / 64 % 64 * 64 + a.toNat * 16 % 64) % 16 = 0 := by omega
      simp only [base64Encode, base64Groups, base64Value_char, base64Value_pad]
      rw [if_neg (by simp [hbits]), ofNat_eq_of_mod (b := a) (by omega)]
  | [a, b] => by
      have ha := a.toNat_lt
      have hb := b.toNat_lt
      have hbits : (((a.toNat * 256 + b.toNat) * 4 / 4096 % 64 * 64 +
          (a.toNat * 256 + b.toNat) * 4 / 64 % 64) * 64 + (a.toNat * 256 + b.toNat) * 4 % 64) % 4 =
          0 := by omega
      simp only [base64Encode, base64Groups, base64Value_char, base64Value_pad]
      rw [if_neg (by simp [hbits]), ofNat_eq_of_mod (b := a) (by omega),
        ofNat_eq_of_mod (b := b) (by omega)]
  | a :: b :: c :: rest => by
      have ha := a.toNat_lt
      have hb := b.toNat_lt
      have hc := c.toNat_lt
      simp only [base64Encode, base64Groups, base64Value_char, base64Groups_encode strict rest,
        Option.map_some]
      rw [ofNat_eq_of_mod (b := a) (by omega), ofNat_eq_of_mod (b := b) (by omega),
        ofNat_eq_of_mod (b := c) (by omega)]

theorem mem_base64Encode (raw : Bytes) :
    ∀ c ∈ base64Encode raw, c ∈ base64Pad :: base64Alphabet := by
  fun_induction base64Encode raw with
  | case1 => simp
  | case2 a => simp [base64Char_mem]
  | case3 a b => simp [base64Char_mem]
  | case4 a b c rest v ih => simpa [base64Char_mem] using ih

theorem base64Encode_plain {raw : Bytes} {c : UInt8} (hc : c ∈ base64Encode raw) :
    c < 0x80 ∧ isLineBreak c = false := by
  have hall : (base64Pad :: base64Alphabet).all (fun c => c < 0x80 ∧ isLineBreak c = false) := by
    decide +kernel
  exact of_decide_eq_true (all_eq_true.1 hall c (mem_base64Encode raw c hc))

theorem base64Decode_encode (strict : Bool) (raw : Bytes) :
    base64Decode strict (base64Encode raw) = some raw := by
  have hkeep : (base64Encode raw).filter (fun c => !isLineBreak c) = base64Encode raw :=
    filter_eq_self.2 fun c hc => by simp [(base64Encode_plain hc).2]
  rw [base64Decode, hkeep, base64Groups_encode]

end Lib
end SnugKV
