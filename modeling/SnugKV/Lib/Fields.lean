import Mathlib.Tactic
import SnugKV.Lib.Binary

/-!
# Fields — the words of a text, and its lines

Words are separated by the white space of Unicode, as in Go's `strings.Fields`, and lines by line
feeds, as a `bufio.Scanner` reads them.  A white-space character of more than one byte starts with
the first byte of a sequence and goes on with bytes that start none, so it is found without decoding
what stands before it.

* `fields_spaced`      — words put next to each other with single spaces are read back;
* `trimSpace_spaced`   — and there is nothing to trim;
* `scanLines_flatMap`  — lines that end in a line feed are read back if they are short enough.
-/

namespace SnugKV
namespace Lib

open List

/-! ## White space -/

def asciiSpace (a : UInt8) : Bool :=
  a == 0x20 || (0x09 ≤ a && a ≤ 0x0D)

/-- U+1680, U+2000 to U+200A, U+2028, U+2029, U+202F, U+205F and U+3000. -/
def wideSpace (a b c : UInt8) : Bool :=
  (a == 0xE1 && b == 0x9A && c == 0x80) ||
  (a == 0xE2 && b == 0x80 && (0x80 ≤ c && c ≤ 0x8A || c == 0xA8 || c == 0xA9 || c == 0xAF)) ||
  (a == 0xE2 && b == 0x81 && c == 0x9F) ||
  (a == 0xE3 && b == 0x80 && c == 0x80)

/-- The length of the white-space character at the head, 0 if there is none. -/
def spaceSize : Bytes → Nat
  | [] => 0
  | [a] => if asciiSpace a then 1 else 0
  | [a, b] =>
    if asciiSpace a then 1
    else if a == 0xC2 && (b == 0x85 || b == 0xA0) then 2
    else 0
  | a :: b :: c :: _ =>
    if asciiSpace a then 1
    else if a == 0xC2 && (b == 0x85 || b == 0xA0) then 2
    else if wideSpace a b c then 3
    else 0

def hasSpace : Bytes → Bool
  | [] => false
  | a :: s => spaceSize (a :: s) != 0 || hasSpace s

variable {u s pre : Bytes} {a b x y : UInt8}

theorem beq_of_ascii (hx : x < 0x80) (hy : ¬ y < 0x80) : (x == y) = false := by
  simp only [beq_eq_false_iff_ne, ne_eq]
  rintro rfl
  exact hy hx

theorem spaceSize_append_ascii (hu : u ≠ []) (hx : x < 0x80) (rest : Bytes) :
    spaceSize (u ++ x :: rest) = spaceSize u := by
  have hle (y : UInt8) (hy : ¬ y < 0x80) : decide (y ≤ x) = false := by
    simp only [decide_eq_false_iff_not]
    exact fun hle => hy (UInt8.lt_of_le_of_lt hle hx)
  match u with
  | [a] =>
    cases rest <;> simp [spaceSize, wideSpace, beq_of_ascii hx]
  | [a, b] => simp [spaceSize, wideSpace, beq_of_ascii hx, hle]
  | a :: b :: c :: u => rfl

theorem spaceSize_of_asciiSpace (ha : asciiSpace a = true) (s : Bytes) :
    spaceSize (a :: s) = 1 := by
  match s with
  | [] => simp [spaceSize, ha]
  | [_] => simp [spaceSize, ha]
  | _ :: _ :: _ => simp [spaceSize, ha]

theorem hasSpace_cons_ascii (ha : a < 0x80) (hspace : asciiSpace a = false) (s : Bytes) :
    hasSpace (a :: s) = hasSpace s := by
  have hsize : spaceSize (a :: s) = 0 := by
    match s with
    | [] => simp [spaceSize, hspace]
    | [b] => simp [spaceSize, hspace, beq_of_ascii ha]
    | b :: c :: s => simp [spaceSize, wideSpace, hspace, beq_of_ascii ha]
  rw [hasSpace, hsize]
  rfl

theorem hasSpace_of_ascii (h : ∀ a ∈ s, a < 0x80 ∧ asciiSpace a = false) : hasSpace s = false := by
  induction s with
  | nil => rfl
  | cons a s ih =>
    obtain ⟨ha, hs⟩ := forall_mem_cons.1 h
    rw [hasSpace_cons_ascii ha.1 ha.2, ih hs]

theorem hasSpace_append_ascii (ha : a < 0x80) (hspace : asciiSpace a = false) :
    hasSpace (s ++ [a]) = hasSpace s := by
  induction s with
  | nil => rw [nil_append, hasSpace_cons_ascii ha hspace]
  | cons b s ih =>
    rw [cons_append, hasSpace, hasSpace, ih, ← cons_append,
      spaceSize_append_ascii (cons_ne_nil b s) ha]

/-! ## Words -/

/-- A word that has come to its end. -/
def closeWord (word : Bytes) (rest : List Bytes) : List Bytes :=
  if word = [] then rest else word :: rest

/-- `skip` counts the bytes of a white-space character that are still to come. -/
def wordsFrom : Nat → Bytes → Bytes → List Bytes
  | _, word, [] => closeWord word []
  | skip + 1, word, _ :: s => wordsFrom skip word s
  | 0, word, a :: s =>
    match spaceSize (a :: s) with
    | 0 => wordsFrom 0 (word ++ [a]) s
    | n + 1 => closeWord word (wordsFrom n [] s)

/-- `strings.Fields`. -/
def fields (s : Bytes) : List Bytes :=
  wordsFrom 0 [] s

variable {w : Bytes} {ws : List Bytes}

theorem mem_of_mem_wordsFrom {skip : Nat} {word : Bytes}
    (hw : w ∈ wordsFrom skip word s) (hb : b ∈ w) : b ∈ word ++ s := by
  induction s generalizing skip word with
  | nil =>
    rw [wordsFrom.eq_1, closeWord] at hw
    split_ifs at hw
    · cases hw
    · rw [append_nil, ← mem_singleton.1 hw]; exact hb
  | cons a s ih =>
    cases skip with
    | succ skip =>
      have hmem := ih hw
      simp only [mem_append, mem_cons] at hmem ⊢
      tauto
    | zero =>
      rw [wordsFrom.eq_3] at hw
      split at hw
      · simpa using ih hw
      · rename_i n _
        have hrest : w ∈ wordsFrom n [] s → b ∈ word ++ a :: s := fun hw =>
          mem_append_right _ (.tail _ (ih hw))
        rw [closeWord] at hw
        split_ifs at hw
        · exact hrest hw
        · rcases mem_cons.1 hw with rfl | hw
          · exact mem_append_left _ hb
          · exact hrest hw

/-- Words behind a first one, each after a space. -/
def spaced (first : Bytes) (words : List Bytes) : Bytes :=
  first ++ words.flatMap fun w => 0x20 :: w

/-- What can be a word. -/
def IsWord (w : Bytes) : Prop :=
  w ≠ [] ∧ hasSpace w = false

instance (w : Bytes) : Decidable (IsWord w) :=
  inferInstanceAs (Decidable (_ ∧ _))

theorem wordsFrom_word {tail : Bytes} (hw : hasSpace w = false)
    (htail : tail = [] ∨ ∃ rest, tail = 0x20 :: rest) (word : Bytes) :
    wordsFrom 0 word (w ++ tail) = wordsFrom 0 (word ++ w) tail := by
  induction w generalizing word with
  | nil => simp
  | cons a w ih =>
    simp only [hasSpace, Bool.or_eq_false_iff, bne_eq_false_iff_eq] at hw
    have hsize : spaceSize (a :: (w ++ tail)) = 0 := by
      rcases htail with rfl | ⟨rest, rfl⟩
      · rw [append_nil]
        exact hw.1
      · rw [← cons_append, spaceSize_append_ascii (by simp) (by decide)]
        exact hw.1
    rw [cons_append, wordsFrom, hsize]
    rw [ih hw.2, append_assoc]
    rfl

theorem wordsFrom_spaced (hw : IsWord w) (hws : ∀ x ∈ ws, IsWord x) :
    wordsFrom 0 [] (spaced w ws) = w :: ws := by
  induction ws generalizing w with
  | nil =>
    have := wordsFrom_word hw.2 (.inl rfl) []
    simpa [spaced, wordsFrom, closeWord, hw.1] using this
  | cons x ws ih =>
    obtain ⟨hx, hws⟩ := forall_mem_cons.1 hws
    have hsplit : spaced w (x :: ws) = w ++ 0x20 :: spaced x ws := by simp [spaced]
    rw [hsplit, wordsFrom_word hw.2 (.inr ⟨_, rfl⟩), wordsFrom, spaceSize_of_asciiSpace rfl]
    simp only [ih hx hws, nil_append, closeWord, if_neg hw.1]

/-- Words with single spaces between them are read back. -/
theorem fields_spaced (h : ∀ x ∈ w :: ws, IsWord x) : fields (spaced w ws) = w :: ws :=
  wordsFrom_spaced (h w (mem_cons_self ..)) fun x hx => h x (.tail _ hx)

/-! ## Trimming -/

def trimLeftAux : Nat → Bytes → Bytes
  | 0, s => s
  | fuel + 1, s => if spaceSize s = 0 then s else trimLeftAux fuel (s.drop (spaceSize s))

/-- The length of the white-space character at the end, 0 if there is none. -/
def endSpaceSize (s : Bytes) : Nat :=
  if spaceSize (s.drop (s.length - 3)) = 3 then 3
  else if spaceSize (s.drop (s.length - 2)) = 2 ∧ 2 ≤ s.length then 2
  else if spaceSize (s.drop (s.length - 1)) = 1 then 1
  else 0

def trimRightAux : Nat → Bytes → Bytes
  | 0, s => s
  | fuel + 1, s =>
    if endSpaceSize s = 0 then s else trimRightAux fuel (s.take (s.length - endSpaceSize s))

/-- `strings.TrimSpace`. -/
def trimSpace (s : Bytes) : Bytes :=
  let s := trimLeftAux s.length s
  trimRightAux s.length s

theorem spaceSize_le_one (a : UInt8) : spaceSize [a] ≤ 1 := by
  rw [spaceSize]
  split_ifs <;> omega

theorem spaceSize_le_three (s : Bytes) : spaceSize s ≤ 3 := by
  match s with
  | [] => exact Nat.zero_le 3
  | [a] => exact (spaceSize_le_one a).trans (by decide)
  | [a, b] =>
    rw [spaceSize]
    split_ifs <;> omega
  | a :: b :: c :: s =>
    rw [spaceSize]
    split_ifs <;> omega

theorem spaceSize_of_suffix (hw : hasSpace w = false) (hu : u <:+ w) (hne : u ≠ []) :
    spaceSize u = 0 := by
  induction w with
  | nil => exact absurd (suffix_nil.1 hu) hne
  | cons a w ih =>
    simp only [hasSpace, Bool.or_eq_false_iff, bne_eq_false_iff_eq] at hw
    rcases suffix_cons_iff.1 hu with rfl | hu
    · exact hw.1
    · exact ih hw.2 hu

theorem notMem_of_not_hasSpace (hw : hasSpace w = false) (ha : asciiSpace a = true) : a ∉ w := by
  intro hmem
  obtain ⟨before, after, rfl⟩ := append_of_mem hmem
  have hsize := spaceSize_of_suffix hw ⟨before, rfl⟩ (cons_ne_nil _ _)
  rw [spaceSize_of_asciiSpace ha] at hsize
  cases hsize

/-- A text whose last word follows a space, or is all there is, has no white space at its end. -/
theorem spaceSize_end_ne {t : Bytes} (hw : IsWord w) (hpre : pre = [] ∨ ∃ q, pre = q ++ [0x20])
    (hsuf : t <:+ pre ++ w) {k : Nat} (hk : 0 < k) (hlen : t.length ≤ k) : spaceSize t ≠ k := by
  intro hsize
  have hne : t ≠ [] := by
    rintro rfl
    simp only [spaceSize] at hsize
    omega
  have hpos : 0 < w.length := length_pos_of_ne_nil hw.1
  by_cases hin : t.length ≤ w.length
  · have := spaceSize_of_suffix hw.2 (suffix_of_suffix_length_le hsuf (suffix_append ..) hin) hne
    omega
  · -- the text is longer than the word: it takes the space before it along
    obtain ⟨v, rfl⟩ := suffix_of_suffix_length_le (suffix_append pre w) hsuf (by omega)
    rw [length_append] at hin hlen
    have hv : v <:+ pre := by
      obtain ⟨before, hbefore⟩ := hsuf
      rw [← append_assoc] at hbefore
      exact ⟨before, append_cancel_right hbefore⟩
    rcases hpre with rfl | ⟨q, rfl⟩
    · rw [suffix_nil.1 hv] at hin
      simp at hin
    · obtain ⟨v', rfl⟩ : ∃ v', v = v' ++ [0x20] := by
        rcases suffix_concat_iff.1 hv with rfl | ⟨v', rfl, -⟩
        · simp at hin
        · exact ⟨v', rfl⟩
      have hthree := spaceSize_le_three (v' ++ 0x20 :: w)
      rw [append_assoc, singleton_append] at hsize
      rw [length_append, length_singleton] at hlen
      match v' with
      | [] =>
        rw [nil_append, spaceSize_of_asciiSpace rfl] at hsize
        omega
      | [a] =>
        rw [spaceSize_append_ascii (by simp) (by decide)] at hsize
        have := spaceSize_le_one a
        omega
      | _ :: _ :: _ =>
        simp only [length_cons] at hlen
        omega

theorem endSpaceSize_eq_zero (hw : IsWord w)
    (hpre : pre = [] ∨ ∃ q, pre = q ++ [0x20]) : endSpaceSize (pre ++ w) = 0 := by
  have hend (k : Nat) (hk : 0 < k) :
      spaceSize ((pre ++ w).drop ((pre ++ w).length - k)) ≠ k :=
    spaceSize_end_ne hw hpre (drop_suffix ..) hk (by rw [length_drop]; omega)
  rw [endSpaceSize, if_neg (hend 3 (by omega)), if_neg fun h => hend 2 (by omega) h.1,
    if_neg (hend 1 (by omega))]

theorem spaced_last (h : ∀ x ∈ w :: ws, IsWord x) :
    ∃ pre last, spaced w ws = pre ++ last ∧ IsWord last ∧ (pre = [] ∨ ∃ q, pre = q ++ [0x20]) := by
  induction ws using reverseRecOn with
  | nil => exact ⟨[], w, by simp [spaced], h w (mem_cons_self ..), .inl rfl⟩
  | append_singleton ws x _ =>
    refine ⟨spaced w ws ++ [0x20], x, by simp [spaced], h x (by simp), .inr ⟨_, rfl⟩⟩

theorem trimSpace_spaced (h : ∀ x ∈ w :: ws, IsWord x) : trimSpace (spaced w ws) = spaced w ws := by
  obtain ⟨hne, hspace⟩ := h w (mem_cons_self ..)
  have hstart : spaceSize (spaced w ws) = 0 := by
    have hw : spaceSize w = 0 := spaceSize_of_suffix hspace suffix_rfl hne
    cases ws with
    | nil => simpa [spaced] using hw
    | cons x ws =>
      rw [spaced, flatMap_cons, cons_append, spaceSize_append_ascii hne (by decide)]
      exact hw
  have hleft : trimLeftAux (spaced w ws).length (spaced w ws) = spaced w ws := by
    cases (spaced w ws).length with
    | zero => rfl
    | succ n => rw [trimLeftAux, if_pos hstart]
  have hend : endSpaceSize (spaced w ws) = 0 := by
    obtain ⟨pre, last, heq, hlast, hpre⟩ := spaced_last h
    rw [heq]
    exact endSpaceSize_eq_zero hlast hpre
  rw [trimSpace, hleft]
  cases (spaced w ws).length with
  | zero => rfl
  | succ n => rw [trimRightAux, if_pos hend]

/-! ## Lines -/

def dropCR (line : Bytes) : Bytes :=
  if line.getLast? = some 0x0D then line.dropLast else line

/-- The lines a scanner gives; `none` stands for a line that its buffer cannot hold, after which it
stops. -/
def linesFrom (limit : Nat) : Bytes → Bytes → List (Option Bytes)
  | line, [] =>
    if line = [] then [] else if limit ≤ line.length then [none] else [some (dropCR line)]
  | line, a :: s =>
    if a = 0x0A then
      if line.length < limit then some (dropCR line) :: linesFrom limit [] s else [none]
    else linesFrom limit (line ++ [a]) s

def scanLines (limit : Nat) (s : Bytes) : List (Option Bytes) :=
  linesFrom limit [] s

theorem notMem_spaced (h : ∀ x ∈ w :: ws, IsWord x) (ha : asciiSpace a = true)
    (hspace : a ≠ 0x20) : a ∉ spaced w ws := by
  simp only [spaced, mem_append, mem_flatMap, mem_cons]
  rintro (hmem | ⟨x, hx, rfl | hmem⟩)
  · exact notMem_of_not_hasSpace (h w (mem_cons_self ..)).2 ha hmem
  · exact hspace rfl
  · exact notMem_of_not_hasSpace (h x (.tail _ hx)).2 ha hmem

theorem dropCR_spaced (h : ∀ x ∈ w :: ws, IsWord x) : dropCR (spaced w ws) = spaced w ws := by
  rw [dropCR, if_neg]
  intro hlast
  exact notMem_spaced h (show asciiSpace 0x0D = true from rfl) (by decide) (mem_of_getLast? hlast)

theorem linesFrom_line {limit : Nat} {line : Bytes} (h : 0x0A ∉ line) (before s : Bytes) :
    linesFrom limit before (line ++ 0x0A :: s) =
      if (before ++ line).length < limit then some (dropCR (before ++ line)) :: linesFrom limit [] s
      else [none] := by
  induction line generalizing before with
  | nil => simp [linesFrom]
  | cons a line ih =>
    have hne : a ≠ 0x0A := fun heq => h (heq ▸ mem_cons_self ..)
    have htail := ih (fun hmem => h (.tail _ hmem)) (before ++ [a])
    simp only [append_assoc, singleton_append] at htail
    rw [cons_append, linesFrom, if_neg hne, htail]

theorem scanLines_flatMap {limit : Nat} {lines : List Bytes}
    (h : ∀ l ∈ lines, 0x0A ∉ l ∧ l.length < limit) :
    scanLines limit (lines.flatMap fun l => l ++ [0x0A]) = lines.map fun l => some (dropCR l) := by
  unfold scanLines
  induction lines with
  | nil => rfl
  | cons l lines ih =>
    obtain ⟨hl, hlines⟩ := forall_mem_cons.1 h
    rw [flatMap_cons, append_assoc, singleton_append, linesFrom_line hl.1,
      nil_append, if_pos hl.2, ih hlines, map_cons]

end Lib
end SnugKV
