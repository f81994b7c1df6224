import SnugKV.Lib.Binary

/-!
# Buffered reader — a byte source read through a buffer

A source delivers its bytes in pieces whose sizes nobody controls; a buffered reader of `size`
bytes hides the pieces.  The module follows the documented behaviour of such a reader:

* `fill`, `readByte`, `peekByte`, `readSlice`, `readFull` — one read of the source at a time, the
  amount it delivers taken from the schedule `arrivals`;
* `contents` — the bytes still to come, buffered or not.

The laws say that what an operation returns depends on `contents` alone: whatever the schedule,
a line, a block or a byte that stands at the front of the contents is returned and is all that
is taken away.
-/

namespace SnugKV
namespace Lib

open List

/-- The errors of a read: the end of the source, an end inside a block, a line that does not fit
into the buffer, and any other error of the source. -/
inductive ReadError where
  | eof
  | unexpectedEof
  | bufferFull
  | source
  deriving DecidableEq, Repr

/-- A buffered reader: the bytes it holds, the bytes the source still has, how much each of the
source's next reads delivers at most, and whether the source ends with an error of its own. -/
structure BufReader where
  buffer : Bytes
  rest : Bytes
  arrivals : List Nat
  broken : Bool
  deriving DecidableEq, Repr

namespace BufReader

def contents (r : BufReader) : Bytes :=
  r.buffer ++ r.rest

def endError (r : BufReader) : ReadError :=
  if r.broken then .source else .eof

/-! ## Operations -/

/-- How much one read of the source delivers into `space` free bytes: something as long as the
source has something, and never more than fits. -/
def delivered (r : BufReader) (space : Nat) : Nat :=
  min (min (max 1 (r.arrivals.headD r.rest.length)) space) r.rest.length

/-- One read of the source into the free part of a buffer of `size` bytes. -/
def fill (size : Nat) (r : BufReader) : BufReader :=
  let n := r.delivered (size - r.buffer.length)
  { r with buffer := r.buffer ++ r.rest.take n, rest := r.rest.drop n, arrivals := r.arrivals.tail }

/-- Makes sure that a byte is buffered. -/
def peekByte (size : Nat) (r : BufReader) : Except ReadError UInt8 × BufReader :=
  match r.buffer with
  | b :: _ => (.ok b, r)
  | [] =>
    match (fill size r).buffer with
    | b :: _ => (.ok b, fill size r)
    | [] => (.error r.endError, r)

/-- Takes the first `n` buffered bytes away. -/
def discard (n : Nat) (r : BufReader) : BufReader :=
  { r with buffer := r.buffer.drop n }

def readByte (size : Nat) (r : BufReader) : Except ReadError UInt8 × BufReader :=
  match peekByte size r with
  | (.ok b, r') => (.ok b, r'.discard 1)
  | (.error e, r') => (.error e, r')

/-- The loop of `readSlice`: the buffer is searched, then filled.  A full buffer without the
delimiter is an error, and so is the end of the source; both drop what was buffered. -/
def readSliceLoop (size : Nat) (delim : UInt8) :
    Nat → BufReader → Except ReadError Bytes × BufReader
  | 0, r => (.error .bufferFull, { r with buffer := [] })
  | fuel + 1, r =>
    match r.buffer.findIdx? (fun b => b == delim) with
    | some i => (.ok (r.buffer.take (i + 1)), r.discard (i + 1))
    | none =>
      if size ≤ r.buffer.length then (.error .bufferFull, { r with buffer := [] })
      else if r.rest = [] then (.error r.endError, { r with buffer := [] })
      else readSliceLoop size delim fuel (fill size r)

/-- Reads through the first delimiter.  Each turn of the loop buffers at least one byte more. -/
def readSlice (size : Nat) (delim : UInt8) (r : BufReader) : Except ReadError Bytes × BufReader :=
  readSliceLoop size delim (size + 1) r

/-- One read of at most `n` bytes: from the buffer if it holds any, past the buffer if the block
is at least as large as the buffer, and through the buffer otherwise. -/
def read (size n : Nat) (r : BufReader) : Except ReadError Bytes × BufReader :=
  if r.buffer ≠ [] then (.ok (r.buffer.take n), r.discard n)
  else if r.rest = [] then (.error r.endError, r)
  else if size ≤ n then
    let k := r.delivered n
    (.ok (r.rest.take k), { r with rest := r.rest.drop k, arrivals := r.arrivals.tail })
  else (.ok ((fill size r).buffer.take n), (fill size r).discard n)

/-- The loop of `readFull`: `acc` has been read and `need` bytes are missing. -/
def readFullLoop (size : Nat) : Nat → Bytes → Nat → BufReader → Except ReadError Bytes × BufReader
  | 0, acc, _, r => (.ok acc, r)
  | fuel + 1, acc, need, r =>
    if need = 0 then (.ok acc, r)
    else
      match read size need r with
      | (.ok bs, r') => readFullLoop size fuel (acc ++ bs) (need - bs.length) r'
      | (.error e, r') =>
        (.error (if e = .eof ∧ acc ≠ [] then .unexpectedEof else e), r')

/-- Reads exactly `n` bytes. -/
def readFull (size n : Nat) (r : BufReader) : Except ReadError Bytes × BufReader :=
  readFullLoop size n [] n r

/-! ## Filling -/

@[simp] theorem contents_fill (size : Nat) (r : BufReader) :
    (fill size r).contents = r.contents := by
  simp only [fill, contents, append_assoc, take_append_drop]

variable {r r' : BufReader} {size : Nat} {cs : Bytes} {delim : UInt8}

variable {n : Nat}

theorem contents_discard (h : n ≤ r.buffer.length) :
    (r.discard n).contents = r.contents.drop n := by
  rw [contents, contents, drop_append_of_le_length h]
  rfl

theorem delivered_pos {space : Nat} (hs : 0 < space) (hr : r.rest ≠ []) :
    0 < r.delivered space := by
  have hlen : 0 < r.rest.length := length_pos_iff.2 hr
  unfold delivered
  omega

theorem delivered_le (r : BufReader) (space : Nat) : r.delivered space ≤ space := by
  unfold delivered
  omega

theorem delivered_le_rest (r : BufReader) (space : Nat) : r.delivered space ≤ r.rest.length := by
  unfold delivered
  omega

theorem length_buffer_fill (size : Nat) (r : BufReader) :
    (fill size r).buffer.length = r.buffer.length + r.delivered (size - r.buffer.length) := by
  have h := r.delivered_le_rest (size - r.buffer.length)
  simp only [fill, length_append, length_take]
  omega

theorem buffer_fill_ne_nil (hb : r.buffer = []) (hsize : 0 < size) (hr : r.rest ≠ []) :
    (fill size r).buffer ≠ [] := by
  have hpos := @delivered_pos r (size - r.buffer.length) (by simpa [hb] using hsize) hr
  intro hnil
  have hlen := length_buffer_fill size r
  rw [hnil] at hlen
  simp only [length_nil] at hlen
  omega

/-! ## Single bytes -/

theorem peekByte_cons (hsize : 0 < size) {b : UInt8} (h : r.contents = b :: cs) :
    ∃ r', peekByte size r = (.ok b, r') ∧ r'.contents = r.contents ∧ r'.buffer.head? = some b := by
  unfold peekByte
  cases hb : r.buffer with
  | cons b' bs =>
    have hbb : b' = b := by
      rw [contents, hb, cons_append] at h
      exact (cons.inj h).1
    exact ⟨r, by rw [hbb], rfl, by rw [hb, hbb, head?_cons]⟩
  | nil =>
    have hr : r.rest ≠ [] := by
      intro hnil
      rw [contents, hb, hnil] at h
      cases h
    have hfill := contents_fill size r
    cases hf : (fill size r).buffer with
    | nil => exact absurd hf (buffer_fill_ne_nil hb hsize hr)
    | cons b' bs =>
      have hbb : b' = b := by
        rw [h, contents, hf, cons_append] at hfill
        exact (cons.inj hfill).1
      exact ⟨fill size r, by simp only [hbb], hfill, by rw [hf, hbb, head?_cons]⟩

theorem peekByte_nil (h : r.contents = []) : peekByte size r = (.error r.endError, r) := by
  have hparts : r.buffer = [] ∧ r.rest = [] := by simpa [contents] using h
  have hfill : (fill size r).buffer = [] := by simp [fill, hparts.1, hparts.2]
  simp only [peekByte, hparts.1, hfill]

theorem readByte_cons (hsize : 0 < size) {b : UInt8} (h : r.contents = b :: cs) :
    ∃ r', readByte size r = (.ok b, r') ∧ r'.contents = cs := by
  rcases peekByte_cons hsize h with ⟨r', hpeek, hcont, hhead⟩
  refine ⟨r'.discard 1, by simp only [readByte, hpeek], ?_⟩
  have hlen : 1 ≤ r'.buffer.length := by
    cases hb : r'.buffer with
    | nil => rw [hb] at hhead; cases hhead
    | cons _ _ => simp
  rw [contents_discard hlen, hcont, h, drop_one, tail_cons]

theorem contents_peekByte (r : BufReader) : (peekByte size r).2.contents = r.contents := by
  unfold peekByte
  cases r.buffer with
  | cons _ _ => rfl
  | nil =>
    cases hf : (fill size r).buffer with
    | nil => rfl
    | cons _ _ => exact contents_fill size r

/-! ## Lines -/

variable {line out : Bytes}

/-- The first delimiter of a text is found at the end of the delimiter-free part before it. -/
theorem findIdx?_line (h : delim ∉ line) :
    (line ++ delim :: cs).findIdx? (fun b => b == delim) = some line.length := by
  have hnone : line.findIdx? (fun b => b == delim) = none := by
    refine findIdx?_eq_none_iff.2 fun b hb => ?_
    exact beq_eq_false_iff_ne.2 fun hbd => h (hbd ▸ hb)
  rw [findIdx?_append, hnone, findIdx?_cons]
  simp

theorem readSliceLoop_ok : ∀ (fuel : Nat) {r r' : BufReader} {out : Bytes},
    readSliceLoop size delim fuel r = (.ok out, r') →
    ∃ line, out = line ++ [delim] ∧ delim ∉ line ∧ r.contents = out ++ r'.contents := by
  intro fuel
  induction fuel with
  | zero => intro r r' out h; cases h
  | succ fuel ih =>
    intro r r' out h
    rw [readSliceLoop] at h
    cases hfind : r.buffer.findIdx? (fun b => b == delim) with
    | some i =>
      rw [hfind] at h
      cases h
      rcases findIdx?_eq_some_iff_getElem.1 hfind with ⟨hlt, hget, hbefore⟩
      refine ⟨r.buffer.take i, ?_, ?_, ?_⟩
      · rw [take_succ_eq_append_getElem hlt, eq_of_beq hget]
      · intro hmem
        rcases mem_take_iff_getElem.1 hmem with ⟨j, hj, hjd⟩
        exact hbefore j (by omega) (by rw [hjd]; exact beq_self_eq_true delim)
      · rw [contents_discard hlt, contents, drop_append_of_le_length hlt, ← append_assoc,
          take_append_drop]
    | none =>
      rw [hfind] at h
      split_ifs at h with hfull hrest
      · cases h
      · cases h
      rcases ih h with ⟨line, hout, hline, hc⟩
      exact ⟨line, hout, hline, by rw [← contents_fill size r, hc]⟩

theorem readSlice_ok (h : readSlice size delim r = (.ok out, r')) :
    ∃ line, out = line ++ [delim] ∧ delim ∉ line ∧ r.contents = out ++ r'.contents :=
  readSliceLoop_ok _ h

theorem readSliceLoop_total (hsize : line.length < size) :
    ∀ (fuel : Nat) (r : BufReader), size - r.buffer.length < fuel →
    r.contents = line ++ delim :: cs →
      ∃ out r', readSliceLoop size delim fuel r = (.ok out, r') := by
  -- The buffer grows by a byte at least while the delimiter is not in it.
  intro fuel
  induction fuel with
  | zero => intro r hfuel; omega
  | succ fuel ih =>
    intro r hfuel hc
    rw [readSliceLoop]
    cases hfind : r.buffer.findIdx? (fun b => b == delim) with
    | some i => exact ⟨_, _, rfl⟩
    | none =>
      have hnot : delim ∉ r.buffer := fun hmem => by
        have := findIdx?_eq_none_iff.1 hfind delim hmem
        simp at this
      have hshort : r.buffer.length ≤ line.length := by
        by_contra hlong
        have hleft : r.contents[line.length]? = r.buffer[line.length]? :=
          getElem?_append_left (by omega)
        refine hnot (mem_of_getElem? (hleft.symm.trans ?_))
        rw [hc, getElem?_append_right (le_refl _), Nat.sub_self, getElem?_cons_zero]
      have hrest : r.rest ≠ [] := by
        intro hnil
        apply hnot
        have hmem : delim ∈ r.contents := by rw [hc]; simp
        rwa [contents, hnil, append_nil] at hmem
      have hgrow := length_buffer_fill size r
      have hpos := @delivered_pos r (size - r.buffer.length) (by omega) hrest
      rw [if_neg (by omega), if_neg hrest]
      exact ih _ (by omega) (by rw [contents_fill, hc])

/-- A line at the front of the contents that fits into the buffer is returned with its
delimiter, and nothing else is taken away. -/
theorem readSlice_line (hline : delim ∉ line) (hsize : line.length < size)
    (hc : r.contents = line ++ delim :: cs) :
    ∃ r', readSlice size delim r = (.ok (line ++ [delim]), r') ∧ r'.contents = cs := by
  obtain ⟨out, r', hread⟩ := readSliceLoop_total hsize (size + 1) r (by omega) hc
  obtain ⟨line', rfl, hline', hc'⟩ := readSlice_ok hread
  -- both lines end at the first delimiter of the contents
  rw [hc, append_assoc, singleton_append] at hc'
  have hlen : line.length = line'.length := by
    have hfirst : (line ++ delim :: cs).findIdx? (fun b => b == delim) = _ := findIdx?_line hline
    rw [hc', findIdx?_line hline'] at hfirst
    exact (Option.some.inj hfirst).symm
  obtain ⟨rfl, hcs⟩ := append_inj hc' hlen
  exact ⟨r', hread, (cons.inj hcs).2.symm⟩

/-! ## Blocks -/

theorem read_ok {bs : Bytes} (hsize : 0 < size) (hn : 0 < n)
    (h : read size n r = (.ok bs, r')) :
    0 < bs.length ∧ bs.length ≤ n ∧ r.contents = bs ++ r'.contents := by
  rw [read] at h
  split_ifs at h with hbuf hrest hlarge
  · cases h
    have hlen : 0 < r.buffer.length := length_pos_iff.2 hbuf
    have hcut : r.contents = r.buffer.take n ++ (r.discard n).contents := by
      rw [contents, contents, discard, ← append_assoc, take_append_drop]
    exact ⟨by rw [length_take]; omega, by rw [length_take]; omega, hcut⟩
  · cases h
  · cases h
    have hpos := delivered_pos hn hrest
    have hle := r.delivered_le n
    have hle' := r.delivered_le_rest n
    refine ⟨by rw [length_take]; omega, by rw [length_take]; omega, ?_⟩
    have hnil : r.buffer = [] := not_not.1 hbuf
    simp only [contents, hnil, nil_append, take_append_drop]
  · cases h
    have hne := buffer_fill_ne_nil (not_not.1 hbuf) hsize hrest
    have hlen : 0 < (fill size r).buffer.length := length_pos_iff.2 hne
    refine ⟨by rw [length_take]; omega, by rw [length_take]; omega, ?_⟩
    rw [← contents_fill size r, contents, contents, discard, ← append_assoc, take_append_drop]

theorem read_error {e : ReadError} (h : read size n r = (.error e, r')) : r.contents = [] := by
  rw [read] at h
  split_ifs at h with hbuf hrest hlarge
  all_goals cases h
  rw [contents, not_not.1 hbuf, hrest, append_nil]

section

variable (hsize : 0 < size)

include hsize

theorem readFullLoop_ok : ∀ (fuel : Nat) {acc out : Bytes} {need : Nat}
    {r r' : BufReader}, need ≤ fuel → readFullLoop size fuel acc need r = (.ok out, r') →
    ∃ block, out = acc ++ block ∧ block.length = need ∧ r.contents = block ++ r'.contents := by
  intro fuel
  induction fuel with
  | zero =>
    intro acc out need r r' hfuel h
    cases h
    exact ⟨[], by rw [append_nil], by simp only [length_nil]; omega, rfl⟩
  | succ fuel ih =>
    intro acc out need r r' hfuel h
    rw [readFullLoop] at h
    split_ifs at h with hz
    · cases h
      exact ⟨[], by rw [append_nil], hz.symm, rfl⟩
    · rcases hread : read size need r with ⟨e | bs, r₁⟩
      · rw [hread] at h
        cases h
      · rw [hread] at h
        rcases read_ok hsize (Nat.pos_of_ne_zero hz) hread with ⟨hpos, hle, hcut⟩
        rcases ih (by omega) h with ⟨block, hout, hlen, hc⟩
        exact ⟨bs ++ block, by rw [hout, append_assoc], by rw [length_append]; omega,
          by rw [hcut, hc, append_assoc]⟩

theorem readFull_ok
    (h : readFull size n r = (.ok out, r')) : out.length = n ∧ r.contents = out ++ r'.contents := by
  rcases readFullLoop_ok hsize n (le_refl _) h with ⟨block, hout, hlen, hc⟩
  exact ⟨hout ▸ hlen, hout ▸ hc⟩

theorem readFullLoop_total (fuel : Nat) (acc : Bytes) {need : Nat}
    {r : BufReader} (h : need ≤ r.contents.length) :
    ∃ out r', readFullLoop size fuel acc need r = (.ok out, r') := by
  induction fuel generalizing acc need r with
  | zero => exact ⟨acc, r, rfl⟩
  | succ fuel ih =>
    rw [readFullLoop]
    split_ifs with hz
    · exact ⟨acc, r, rfl⟩
    · rcases hread : read size need r with ⟨e | bs, r'⟩
      · rw [read_error hread, length_nil] at h
        exact absurd (Nat.le_zero.1 h) hz
      · have hcut := (read_ok hsize (Nat.pos_of_ne_zero hz) hread).2.2
        rw [hcut, length_append] at h
        exact ih _ (by omega)

theorem readFull_block {block : Bytes} (hc : r.contents = block ++ cs) :
    ∃ r', readFull size block.length r = (.ok block, r') ∧ r'.contents = cs := by
  have hle : block.length ≤ r.contents.length := by rw [hc, length_append]; omega
  obtain ⟨out, r', hread⟩ := readFullLoop_total hsize block.length [] hle
  obtain ⟨hlen, hc'⟩ := readFull_ok hsize hread
  obtain ⟨rfl, hcs⟩ := append_inj (hc'.symm.trans hc) hlen
  exact ⟨r', hread, hcs⟩

end

/-! ## The end of the source -/

theorem broken_peekByte (size : Nat) (r : BufReader) : (peekByte size r).2.broken = r.broken := by
  unfold peekByte
  cases r.buffer with
  | cons _ _ => rfl
  | nil => cases (fill size r).buffer <;> rfl

theorem broken_readByte (size : Nat) (r : BufReader) : (readByte size r).2.broken = r.broken := by
  have h := broken_peekByte size r
  unfold readByte
  rcases hpeek : peekByte size r with ⟨_ | _, r'⟩
  all_goals
    rw [hpeek] at h
    exact h

theorem broken_readSlice (size : Nat) (delim : UInt8) (r : BufReader) :
    (readSlice size delim r).2.broken = r.broken := by
  unfold readSlice
  generalize size + 1 = fuel
  induction fuel generalizing r with
  | zero => rfl
  | succ fuel ih =>
    rw [readSliceLoop]
    cases r.buffer.findIdx? (fun b => b == delim) with
    | some i => rfl
    | none =>
      split_ifs
      · rfl
      · rfl
      · exact ih (fill size r)

theorem broken_read (size n : Nat) (r : BufReader) : (read size n r).2.broken = r.broken := by
  rw [read]
  split_ifs <;> rfl

theorem broken_readFull (size n : Nat) (r : BufReader) :
    (readFull size n r).2.broken = r.broken := by
  have hloop : ∀ (fuel : Nat) (acc : Bytes) (need : Nat) (r : BufReader),
      (readFullLoop size fuel acc need r).2.broken = r.broken := by
    intro fuel
    induction fuel with
    | zero => exact fun _ _ _ => rfl
    | succ fuel ih =>
      intro acc need r
      have hread := broken_read size need r
      rw [readFullLoop]
      split_ifs
      · rfl
      · rcases hone : read size need r with ⟨_ | _, r'⟩
        all_goals rw [hone] at hread
        · exact hread
        · exact (ih _ _ r').trans hread
  exact hloop n [] n r

end BufReader
end Lib
end SnugKV
