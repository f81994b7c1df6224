import SnugKV.Resp.Framing
import SnugKV.Lib.Buffer

/-!
# Buffered readers — commands taken straight from the buffer

The fast readers of `internal/resp/parser.go` look at the bytes that are already buffered, clipped
to the request limit, and take a frame only when it is there completely:

* `scanLength`, `parseBulk` — the hand-written length parsing they share;
* `matchGET`, `matchSET`, `matchMember`, `matchNativeMutation` — the matchers; positions are those
  of the source, and `i + n + 2` that does not fit into an `int` is a panic of the source;
* `BufferedReader.read` — the five readers.

Every match is a frame of the grammar at the front of the buffer, so the general reader reads
the same command.
-/

namespace SnugKV
namespace Resp

open Lib Decode List

/-! ## Case folding -/

def lowerByte (b : UInt8) : UInt8 :=
  if 'A'.toUInt8 ≤ b ∧ b ≤ 'Z'.toUInt8 then b + 32 else b

/-- `bytes.EqualFold` against an ASCII name.  Beside the two cases of a letter, the folding of
Unicode identifies the long s with S and the Kelvin sign with K. -/
def equalFold : Bytes → Bytes → Bool
  | [], [] => true
  | b :: s, t :: ts =>
    if lowerByte b = lowerByte t then equalFold s ts
    else if lowerByte t = 's'.toUInt8 ∧ b = 0xC5 ∧ s.head? = some 0xBF then equalFold (s.drop 1) ts
    else if lowerByte t = 'k'.toUInt8 ∧ b = 0xE2 ∧ s.take 2 = [0x84, 0xAA] then
      equalFold (s.drop 2) ts
    else false
  | _, _ => false
termination_by structural _ ts => ts

theorem equalFold_of_lower : ∀ {s t : Bytes}, s.map lowerByte = t.map lowerByte →
    equalFold s t = true
  | [], [], _ => rfl
  | b :: s, c :: t, h => by
      rw [map_cons, map_cons, cons.injEq] at h
      rw [equalFold, if_pos h.1]
      exact equalFold_of_lower h.2
  | [], _ :: _, h => by cases h
  | _ :: _, [], h => by cases h

/-! ## The matchers -/

/-- Why a matcher gives no command. -/
inductive Stop where
  | noMatch
  | panics
  deriving DecidableEq, Repr

abbrev Attempt (α : Type) := Except Stop α

/-- `if p { return ... false }`. -/
def miss (p : Prop) [Decidable p] : Attempt Unit :=
  if p then .error .noMatch else .ok ()

def maxInt : Nat := 2 ^ 63 - 1

/-- The index expressions behind `pos + n + 2 > len(buf)`: when the sum overflows, the comparison
lets it pass and the index panics. -/
def indexable (pos n : Nat) : Attempt Unit :=
  if maxInt < pos + n + 2 then .error .panics else .ok ()

/-- The digit loop: what is left of the buffer, the position, the value so far and the number of
digits.  `none` is a return without a match; the loop also ends where the buffer ends. -/
def scanLength (max : Nat) : Bytes → Nat → Nat → Nat → Option (Nat × Nat × Nat)
  | [], pos, n, digits => some (pos, n, digits)
  | b :: rest, pos, n, digits =>
    if b = cr then
      if digits = 0 ∨ rest.head? ≠ some lf then none else some (pos + 2, n, digits)
    else if isDigit b = false ∨ 20 ≤ digits then none
    else if max / 10 < n ∨ (n = max / 10 ∧ max % 10 < digitOf b) then none
    else scanLength max rest (pos + 1) (n * 10 + digitOf b) (digits + 1)

/-- The closure `parseBulk`: start and length of the payload, and the position behind its CRLF. -/
def parseBulkAt (max : Nat) (buf : Bytes) (pos : Nat) : Attempt (Nat × Nat × Nat) := do
  miss (buf[pos]? ≠ some dollar)
  match scanLength max (buf.drop (pos + 1)) (pos + 1) 0 0 with
  | none => .error .noMatch
  | some (start, n, digits) =>
    miss (digits = 0)
    indexable start n
    miss (buf.length < start + n + 2)
    miss (buf[start + n]? ≠ some cr ∨ buf[start + n + 1]? ≠ some lf)
    return (start, n, start + n + 2)

/-- Bulk strings parsed one after another: their bytes and the position behind them. -/
def parseBulksAt (max : Nat) (buf : Bytes) : Nat → Nat → Attempt (List Bytes × Nat)
  | 0, pos => return ([], pos)
  | k + 1, pos => do
      let (start, n, next) ← parseBulkAt max buf pos
      let (args, last) ← parseBulksAt max buf k next
      return (readAt buf start n :: args, last)

/-- A matched command: its name as the reader reports it, its arguments and the frame's length. -/
structure Match where
  command : Bytes
  args : List Bytes
  frameLen : Nat
  deriving DecidableEq, Repr

section

variable (l : Limits)

/-- `*k`, the name as a bulk string of three bytes in any case, checked byte by byte. -/
def shortHeader (k : Char) (name : Bytes) (buf : Bytes) : Prop :=
  buf.take 8 = [star, k.toUInt8, cr, lf, dollar, '3'.toUInt8, cr, lf] ∧
    (readAt buf 8 3).map lowerByte = name.map lowerByte ∧ readAt buf 11 2 = [cr, lf]

instance (k : Char) (name buf : Bytes) : Decidable (shortHeader k name buf) :=
  inferInstanceAs (Decidable (_ ∧ _ ∧ _))

/-- The body of `ReadBufferedGET` on the peeked bytes.  Its length loop is written out once more,
and the checks come in another order than in `parseBulk`. -/
def matchGET (buf : Bytes) : Attempt Match := do
  miss (buf.length < 17 ∨ ¬ shortHeader '2' (ascii "GET") buf ∨ buf[13]? ≠ some dollar)
  match scanLength l.maxBulkBytes (buf.drop 14) 14 0 0 with
  | none => .error .noMatch
  | some (i, keyLen, digits) =>
    miss (digits = 0 ∨ buf.length < i)
    indexable i keyLen
    miss (buf.length < i + keyLen + 2 ∨ l.maxRequestBytes < i + keyLen + 2)
    miss (buf[i + keyLen]? ≠ some cr ∨ buf[i + keyLen + 1]? ≠ some lf)
    miss (l.maxArguments < 2)
    return ⟨ascii "GET", [readAt buf i keyLen], i + keyLen + 2⟩

/-- The body of `ReadBufferedSET`. -/
def matchSET (buf : Bytes) : Attempt Match := do
  miss (buf.length < 13 ∨ ¬ shortHeader '3' (ascii "SET") buf)
  miss (l.maxArguments < 3)
  let (args, frameLen) ← parseBulksAt l.maxBulkBytes buf 2 13
  miss (l.maxRequestBytes < frameLen)
  return ⟨ascii "SET", args, frameLen⟩

/-- The shared body of `ReadBufferedSADD` and `ReadBufferedSISMEMBER`. -/
def matchMember (name : Bytes) (buf : Bytes) : Attempt Match := do
  miss (buf.length < 14 ∨ buf.take 4 ≠ [star, '3'.toUInt8, cr, lf])
  let (start, n, pos) ← parseBulkAt l.maxBulkBytes buf 4
  miss (n ≠ name.length ∨ equalFold (readAt buf start n) name = false)
  miss (l.maxArguments < 3)
  let (args, frameLen) ← parseBulksAt l.maxBulkBytes buf 2 pos
  miss (l.maxRequestBytes < frameLen)
  return ⟨name, args, frameLen⟩

/-- The switch of `ReadBufferedNativeMutation`: the reported name and the number of arguments. -/
def nativeCommand (arrayCount : Nat) (command : Bytes) : Option (Bytes × Nat) :=
  if arrayCount = 4 ∧ equalFold command (ascii "HSET") then some (ascii "HSET", 3)
  else if arrayCount = 3 ∧ equalFold command (ascii "RPUSH") then some (ascii "RPUSH", 2)
  else if arrayCount = 3 ∧ equalFold command (ascii "SADD") then some (ascii "SADD", 2)
  else if arrayCount = 4 ∧ equalFold command (ascii "ZADD") then some (ascii "ZADD", 3)
  else none

/-- The body of `ReadBufferedNativeMutation`. -/
def matchNativeMutation (buf : Bytes) : Attempt Match := do
  miss (buf.length < 13 ∨ buf[0]? ≠ some star ∨ readAt buf 2 2 ≠ [cr, lf])
  let count := buf.getD 1 0
  let arrayCount := digitOf count
  miss (isDigit count = false ∨ (arrayCount ≠ 3 ∧ arrayCount ≠ 4))
  let (start, n, pos) ← parseBulkAt l.maxBulkBytes buf 4
  match nativeCommand arrayCount (readAt buf start n) with
  | none => .error .noMatch
  | some (cmd, argc) =>
    miss (l.maxArguments < arrayCount)
    let (args, frameLen) ← parseBulksAt l.maxBulkBytes buf argc pos
    miss (l.maxRequestBytes < frameLen)
    return ⟨cmd, args, frameLen⟩

end

/-- What the fast readers share: at least `least` bytes are buffered, the buffered bytes are
clipped to the request limit, and a matched frame is discarded. -/
def readBuffered (l : Limits) (least : Nat) (body : Bytes → Attempt Match) (d : Decoder) :
    Attempt (Bytes × List Bytes) × Decoder :=
  if d.reader.buffer.length < least then (.error .noMatch, d)
  else
    match body (d.reader.buffer.take (min d.reader.buffer.length l.maxRequestBytes)) with
    | .error stop => (.error stop, d)
    | .ok m => (.ok (m.command, m.args), { d with reader := d.reader.discard m.frameLen })

def readBufferedGET (l : Limits) : Decoder → Attempt (Bytes × List Bytes) × Decoder :=
  readBuffered l (ascii "*2\r\n$3\r\nGET\r\n$0\r\n\r\n").length (matchGET l)

def readBufferedSET (l : Limits) : Decoder → Attempt (Bytes × List Bytes) × Decoder :=
  readBuffered l (ascii "*3\r\n$3\r\nSET\r\n$0\r\n\r\n$0\r\n\r\n").length (matchSET l)

def readBufferedSADD (l : Limits) : Decoder → Attempt (Bytes × List Bytes) × Decoder :=
  readBuffered l 24 (matchMember l (ascii "SADD"))

def readBufferedSISMEMBER (l : Limits) : Decoder → Attempt (Bytes × List Bytes) × Decoder :=
  readBuffered l 29 (matchMember l (ascii "SISMEMBER"))

def readBufferedNativeMutation (l : Limits) : Decoder → Attempt (Bytes × List Bytes) × Decoder :=
  readBuffered l 24 (matchNativeMutation l)

/-- The fast readers. -/
inductive BufferedReader where
  | get
  | set
  | sadd
  | sismember
  | nativeMutation
  deriving DecidableEq, Repr

def BufferedReader.read (l : Limits) : BufferedReader → Decoder →
    Attempt (Bytes × List Bytes) × Decoder
  | .get => readBufferedGET l
  | .set => readBufferedSET l
  | .sadd => readBufferedSADD l
  | .sismember => readBufferedSISMEMBER l
  | .nativeMutation => readBufferedNativeMutation l

/-! ## Successful attempts -/

theorem bind_ok {x : Attempt α} {f : α → Attempt β} {b : β} :
    (x >>= f) = .ok b ↔ ∃ a, x = .ok a ∧ f a = .ok b := by
  cases x with
  | error e => exact ⟨nofun, nofun⟩
  | ok a => exact ⟨fun h => ⟨a, rfl, h⟩, fun ⟨_, h, h'⟩ => (by cases h; exact h')⟩

variable {f : Unit → Attempt α}

theorem miss_ok {p : Prop} [Decidable p] {a : α} : (miss p >>= f) = .ok a ↔ ¬ p ∧ f () = .ok a := by
  rw [bind_ok, miss]
  by_cases hp : p
  · rw [if_pos hp]
    exact ⟨nofun, fun h => absurd hp h.1⟩
  · rw [if_neg hp]
    exact ⟨fun ⟨_, _, h⟩ => ⟨hp, h⟩, fun h => ⟨(), rfl, h.2⟩⟩

variable {pos n max : Nat} {buf name : Bytes} {args : List Bytes} {l : Limits} {m : Match}
  {body : Bytes → Attempt Match}

theorem indexable_ok {a : α} (h : (indexable pos n >>= f) = .ok a) : f () = .ok a := by
  rw [indexable] at h
  split_ifs at h
  · cases h
  · exact h

/-! ## Bulk strings in the buffer -/

/-- Where the digit loop ends: at the end of the buffer, or behind a CRLF after the digits. -/
theorem scanLength_some : ∀ (rest : Bytes) (pos n digits : Nat) {pos' n' digits' : Nat},
    scanLength max rest pos n digits = some (pos', n', digits') → n ≤ max → digits ≤ 20 →
    pos' = pos + rest.length ∨
    ∃ ds tail : Bytes, rest = ds ++ cr :: lf :: tail ∧ (∀ b ∈ ds, isDigit b = true) ∧
      digits' = digits + ds.length ∧ digits' ≤ 20 ∧ valueFrom 10 n (ds.map digitOf) = n' ∧
        n' ≤ max ∧
      pos' = pos + ds.length + 2 := by
  intro rest
  induction rest with
  | nil =>
    intro pos n digits pos' n' digits' h _ _
    cases h
    exact .inl rfl
  | cons b rest ih =>
    intro pos n digits pos' n' digits' h hn hdigits
    rw [scanLength] at h
    split_ifs at h with hcr hstop hdig hbig
    · cases h
      right
      rcases rest with _ | ⟨b', tail⟩
      · exact absurd (Or.inr (by simp)) hstop
      · have hlf : b' = lf := by
          by_contra hne
          exact hstop (.inr (by simpa using hne))
        exact ⟨[], tail, by rw [hcr, hlf]; rfl, nofun, rfl, hdigits, rfl, hn, rfl⟩
    · rw [not_or, Bool.not_eq_false] at hdig
      have hten := (digitOf_spec b hdig.1).1
      rcases ih _ _ _ h (by omega) (by omega) with hend |
        ⟨ds, tail, hrest, hall, hcount, hle, hval, hmax, hpos⟩
      · rw [hend, length_cons]
        omega
      · right
        refine ⟨b :: ds, tail, by rw [hrest]; rfl, ?_, ?_, hle, ?_, hmax, ?_⟩
        · exact forall_mem_cons.2 ⟨hdig.1, hall⟩
        · rw [hcount, length_cons]
          omega
        · rw [map_cons, valueFrom, hval]
        · rw [hpos, length_cons]
          omega

variable {start last least : Nat}

theorem bulkText_of_scan {digits : Nat} (hdollar : buf[pos]? = some dollar)
    (hscan : scanLength max (buf.drop (pos + 1)) (pos + 1) 0 0 = some (start, n, digits))
    (hdigits : digits ≠ 0) (hroom : start + n + 2 ≤ buf.length) (hcr : buf[start + n]? = some cr)
    (hlf : buf[start + n + 1]? = some lf) :
    ∃ text, BulkText (readAt buf start n) text ∧ n ≤ max ∧ HasAt buf pos text ∧
      start + n + 2 = pos + text.length := by
  have hpos := (hasAt_singleton.2 hdollar).bound
  rcases scanLength_some _ _ _ _ hscan (Nat.zero_le _) (Nat.zero_le _) with
    hend | ⟨ds, tail, hrest, hall, hcount, hle, hval, hmax, hstart⟩
  · -- The loop ran off the buffer, so there is no room for a terminator.
    rw [length_drop] at hend
    omega
  · have hlen : (readAt buf start n).length = n := by
      rw [length_readAt]
      omega
    have hdigitsAt : HasAt buf (pos + 1) (ds ++ [cr, lf]) :=
      hasAt_of_drop (show _ = _ ++ tail by rw [hrest]; simp) hpos
    have hline : HasAt buf pos (dollar :: ds ++ [cr, lf]) :=
      (@hasAt_append _ _ _ _ [dollar]).2 ⟨hasAt_singleton.2 hdollar, hdigitsAt⟩
    have hlineLen : pos + (dollar :: ds ++ [cr, lf]).length = start := by
      simp only [length_append, length_cons, length_nil]
      omega
    refine ⟨dollar :: ds ++ [cr, lf] ++ readAt buf start n ++ [cr, lf],
      ⟨_, ⟨ds, rfl, ?_, by omega, hall, ?_⟩, rfl⟩,
      hmax, hasAt_append.2 ⟨hasAt_append.2 ⟨hline, ?_⟩, ?_⟩, ?_⟩
    · rintro rfl
      exact hdigits hcount
    · rw [hval, hlen]
    · rw [hlineLen]
      exact hasAt_readAt (by omega)
    · rw [length_append, ← Nat.add_assoc, hlineLen, hlen]
      exact (@hasAt_append _ _ _ _ [cr]).2 ⟨hasAt_singleton.2 hcr, hasAt_singleton.2 hlf⟩
    · rw [length_append, length_append, ← Nat.add_assoc, ← Nat.add_assoc, hlineLen, hlen]
      rfl

theorem parseBulkAt_ok {next : Nat} (h : parseBulkAt max buf pos = .ok (start, n, next)) :
    ∃ text, BulkText (readAt buf start n) text ∧ (readAt buf start n).length ≤ max ∧
      HasAt buf pos text ∧ next = pos + text.length := by
  rcases miss_ok.1 h with ⟨hdollar, h⟩
  rcases hscan : scanLength max (buf.drop (pos + 1)) (pos + 1) 0 0 with _ | ⟨i, m, digits⟩
  · rw [hscan] at h
    cases h
  · rw [hscan] at h
    rcases miss_ok.1 h with ⟨hdigits, h⟩
    rcases miss_ok.1 (indexable_ok h) with ⟨hroom, h⟩
    rcases miss_ok.1 h with ⟨hterm, h⟩
    cases h
    rw [not_or, not_not, not_not] at hterm
    rcases bulkText_of_scan (not_not.1 hdollar) hscan hdigits (not_lt.1 hroom) hterm.1 hterm.2 with
      ⟨text, htext, hmax, hat, hlen⟩
    exact ⟨text, htext, by rw [length_readAt]; omega, hat, hlen⟩

/-- The arguments of a command as bulk strings of the buffer, between two positions. -/
def ArgsAt (max : Nat) (buf : Bytes) (args : List Bytes) (pos last : Nat) : Prop :=
  ∃ text, BulkTexts max args text ∧ HasAt buf pos text ∧ last = pos + text.length

theorem parseBulksAt_ok {k : Nat}
    (h : parseBulksAt max buf k pos = .ok (args, last)) (hpos : pos ≤ buf.length) :
    ArgsAt max buf args pos last ∧ args.length = k := by
  induction k generalizing pos args with
  | zero =>
    cases h
    exact ⟨⟨[], .nil, hasAt_of_drop rfl hpos, rfl⟩, rfl⟩
  | succ k ih =>
    rcases bind_ok.1 h with ⟨⟨start, n, next⟩, hbulk, h⟩
    rcases bind_ok.1 h with ⟨⟨args', last'⟩, hbulks, h⟩
    cases h
    rcases parseBulkAt_ok hbulk with ⟨t, htext, hmax, hat, rfl⟩
    rcases ih hbulks hat.bound with ⟨⟨ts, htexts, hats, rfl⟩, rfl⟩
    refine ⟨⟨t ++ ts, .cons hmax htext htexts, hasAt_append.2 ⟨hat, hats⟩, ?_⟩, rfl⟩
    rw [length_append, add_assoc]

/-! ## Matches are frames -/

/-- The match `m` is a frame at the front of `buf` whose command has the reported name in some
case. -/
def IsFrame (l : Limits) (buf : Bytes) (m : Match) : Prop :=
  ∃ name, equalFold name m.command = true ∧ Frame l (name :: m.args) (buf.take m.frameLen) ∧
    m.frameLen ≤ buf.length

theorem lengthLine_digit {marker d : UInt8} (h : isDigit d = true) :
    LengthLine marker (digitOf d) [marker, d, cr, lf] := by
  refine ⟨[d], rfl, by simp, by simp, fun b hb => ?_, ?_⟩
  · rw [mem_singleton.1 hb]
    exact h
  · simp [valueFrom]

/-- The name of a command as a bulk string of the buffer, between positions 4 and `pos`. -/
def NameAt (max : Nat) (buf name : Bytes) (pos : Nat) : Prop :=
  ∃ text, BulkText name text ∧ name.length ≤ max ∧ HasAt buf 4 text ∧ pos = 4 + text.length

theorem NameAt.le (h : NameAt max buf name pos) : pos ≤ buf.length := by
  rcases h with ⟨_, _, _, hat, rfl⟩
  exact hat.bound

theorem ArgsAt.length (h : ArgsAt max buf args pos last) : pos + 6 * args.length ≤ last := by
  rcases h with ⟨text, htexts, _, hlast⟩
  have := htexts.length
  omega

variable {command cmd : Bytes}

/-- An array header of one digit, the name and the arguments, one behind another, make a frame. -/
theorem isFrame_of_parts {d : UInt8} (hd : isDigit d = true)
    (hhead : buf.take 4 = [star, d, cr, lf]) (hname : NameAt l.maxBulkBytes buf name pos)
    (hargs : ArgsAt l.maxBulkBytes buf args pos last) (hcount : digitOf d = args.length + 1)
    (hmax : digitOf d ≤ l.maxArguments) (hbytes : last ≤ l.maxRequestBytes)
    (hfold : equalFold name command = true) : IsFrame l buf ⟨command, args, last⟩ := by
  rcases hname with ⟨nameText, hname, hlen, hnameAt, rfl⟩
  rcases hargs with ⟨argTexts, hargs, hargsAt, hlast⟩
  have hall : HasAt buf 0 ([star, d, cr, lf] ++ (nameText ++ argTexts)) :=
    hasAt_append.2 ⟨hasAt_zero.2 hhead, hasAt_append.2 ⟨hnameAt, hargsAt⟩⟩
  have hfull : ([star, d, cr, lf] ++ (nameText ++ argTexts)).length = last := by
    simp only [length_append, length_cons, length_nil]
    omega
  have hle := hall.bound
  have hfront := hasAt_zero.1 hall
  rw [hfull] at hle hfront
  have hline : LengthLine star (args.length + 1) [star, d, cr, lf] := hcount ▸ lengthLine_digit hd
  refine ⟨name, hfold, ⟨⟨_, _, hline, .cons hlen hname hargs, hfront⟩, by simp, ?_, ?_⟩,
    by simpa using hle⟩
  · rw [length_cons, ← hcount]
    exact hmax
  · change (buf.take last).length ≤ _
    rw [length_take]
    omega

theorem matchMember_frame (h : matchMember l name buf = .ok m) : IsFrame l buf m := by
  rcases miss_ok.1 h with ⟨hhead, h⟩
  rcases bind_ok.1 h with ⟨⟨start, n, pos⟩, hcommand, h⟩
  rcases miss_ok.1 h with ⟨hname, h⟩
  rcases miss_ok.1 h with ⟨hlimit, h⟩
  rcases bind_ok.1 h with ⟨⟨args, frameLen⟩, hparse, h⟩
  rcases miss_ok.1 h with ⟨hbytes, h⟩
  cases h
  rw [not_or, not_not] at hhead
  rw [not_or, Bool.not_eq_false] at hname
  have hnameAt : NameAt .. := parseBulkAt_ok hcommand
  rcases parseBulksAt_ok hparse hnameAt.le with ⟨hargs, hcount⟩
  exact isFrame_of_parts (by decide) hhead.2 hnameAt hargs (by rw [hcount]; decide)
    (not_lt.1 hlimit) (not_lt.1 hbytes) hname.2

/-- A command of the switch has the reported name in some case, and one argument less than the
array has elements. -/
theorem nativeCommand_some {arrayCount argc : Nat}
    (h : nativeCommand arrayCount command = some (cmd, argc)) :
    equalFold command cmd = true ∧ arrayCount = argc + 1 := by
  rw [nativeCommand] at h
  split_ifs at h with h₁ h₂ h₃ h₄
  all_goals cases h
  · exact ⟨h₁.2, h₁.1⟩
  · exact ⟨h₂.2, h₂.1⟩
  · exact ⟨h₃.2, h₃.1⟩
  · exact ⟨h₄.2, h₄.1⟩

theorem matchNativeMutation_frame (h : matchNativeMutation l buf = .ok m) : IsFrame l buf m := by
  rcases miss_ok.1 h with ⟨hhead, h⟩
  rcases miss_ok.1 h with ⟨hdigit, h⟩
  rcases bind_ok.1 h with ⟨⟨start, n, pos⟩, hcommand, h⟩
  rcases hswitch : nativeCommand (digitOf (buf.getD 1 0)) (readAt buf start n) with _ | ⟨cmd, argc⟩
  · simp only [hswitch] at h
    cases h
  simp only [hswitch] at h
  rcases miss_ok.1 h with ⟨hlimit, h⟩
  rcases bind_ok.1 h with ⟨⟨args, frameLen⟩, hparse, h⟩
  rcases miss_ok.1 h with ⟨hbytes, h⟩
  cases h
  rw [not_or, not_or, not_not, not_not, not_lt] at hhead
  rw [not_or, Bool.not_eq_false] at hdigit
  rcases nativeCommand_some hswitch with ⟨hfold, hcount⟩
  have hnameAt : NameAt .. := parseBulkAt_ok hcommand
  rcases parseBulksAt_ok hparse hnameAt.le with ⟨hargs, hargc⟩
  -- The four bytes of the array header were checked one by one.
  have htake : buf.take 4 = [star, buf.getD 1 0, cr, lf] := by
    rcases hhead with ⟨hlen, hstar, hcrlf⟩
    have hcount : HasAt buf 1 [buf.getD 1 0] :=
      hasAt_singleton.2 (by rw [getD_eq_getElem _ _ (by omega), getElem?_eq_getElem])
    exact hasAt_zero.1 ((@hasAt_append _ _ _ _ [star, buf.getD 1 0]).2
      ⟨(@hasAt_append _ _ _ _ [star]).2 ⟨hasAt_singleton.2 hstar, hcount⟩,
        hcrlf ▸ hasAt_readAt (by omega)⟩)
  exact isFrame_of_parts hdigit.1 htake hnameAt hargs (by rw [hargc]; exact hcount)
    (not_lt.1 hlimit) (not_lt.1 hbytes) hfold

theorem shortHeader_parts {k : Char} (h : shortHeader k name buf) (hlen : 13 ≤ buf.length)
    (hmax : 3 ≤ max) : buf.take 4 = [star, k.toUInt8, cr, lf] ∧ NameAt max buf (readAt buf 8 3) 13 ∧
      equalFold (readAt buf 8 3) name = true := by
  rcases h with ⟨hhead, hfold, hcrlf⟩
  have hname : (readAt buf 8 3).length = 3 := by
    rw [length_readAt]
    omega
  have hline : LengthLine dollar (readAt buf 8 3).length [dollar, '3'.toUInt8, cr, lf] := by
    rw [hname]
    exact lengthLine_digit (by decide)
  obtain ⟨harray, hlength⟩ := (@hasAt_append _ _ [dollar, '3'.toUInt8, cr, lf] _
    [star, k.toUInt8, cr, lf]).1 (hasAt_zero.2 hhead)
  have hend : HasAt buf 11 [cr, lf] := hcrlf ▸ hasAt_readAt (by omega)
  refine ⟨hasAt_zero.1 harray, ⟨_, ⟨_, hline, rfl⟩, by omega, ?_, by simp [hname]⟩,
    equalFold_of_lower hfold⟩
  refine hasAt_append.2 ⟨hasAt_append.2 ⟨hlength, hasAt_readAt (by simp; omega)⟩, ?_⟩
  simpa [hname] using hend

theorem matchSET_ok (h : matchSET l buf = .ok m) :
    13 ≤ buf.length ∧ shortHeader '3' (ascii "SET") buf ∧ 3 ≤ l.maxArguments ∧
    ∃ args last, m = ⟨ascii "SET", args, last⟩ ∧ args.length = 2 ∧ last ≤ l.maxRequestBytes ∧
      ArgsAt l.maxBulkBytes buf args 13 last := by
  rcases miss_ok.1 h with ⟨hhead, h⟩
  rcases miss_ok.1 h with ⟨hlimit, h⟩
  rcases bind_ok.1 h with ⟨⟨args, frameLen⟩, hparse, h⟩
  rcases miss_ok.1 h with ⟨hbytes, h⟩
  cases h
  rw [not_or, not_not, not_lt] at hhead
  rcases parseBulksAt_ok hparse hhead.1 with ⟨hargs, hcount⟩
  exact ⟨hhead.1, hhead.2, not_lt.1 hlimit, args, frameLen, rfl, hcount, not_lt.1 hbytes, hargs⟩

theorem matchGET_ok (h : matchGET l buf = .ok m) :
    17 ≤ buf.length ∧ shortHeader '2' (ascii "GET") buf ∧ 2 ≤ l.maxArguments ∧
    ∃ key last, m = ⟨ascii "GET", [key], last⟩ ∧ last ≤ l.maxRequestBytes ∧
      ArgsAt l.maxBulkBytes buf [key] 13 last := by
  rcases miss_ok.1 h with ⟨hhead, h⟩
  rw [not_or, not_or, not_not, not_not, not_lt] at hhead
  rcases hscan : scanLength l.maxBulkBytes (buf.drop 14) 14 0 0 with _ | ⟨i, keyLen, digits⟩
  · rw [hscan] at h
    cases h
  rw [hscan] at h
  rcases miss_ok.1 h with ⟨hdigits, h⟩
  rcases miss_ok.1 (indexable_ok h) with ⟨hroom, h⟩
  rcases miss_ok.1 h with ⟨hterm, h⟩
  rcases miss_ok.1 h with ⟨hlimit, h⟩
  cases h
  rw [not_or] at hdigits
  rw [not_or, not_lt, not_lt] at hroom
  rw [not_or, not_not, not_not] at hterm
  rcases bulkText_of_scan hhead.2.2 hscan hdigits.1 hroom.1 hterm.1 hterm.2 with
    ⟨text, htext, hmax, hat, hlen⟩
  have hkey : (readAt buf i keyLen).length ≤ l.maxBulkBytes := by
    rw [length_readAt]
    omega
  refine ⟨hhead.1, hhead.2.1, not_lt.1 hlimit, _, _, rfl, hroom.2, text, ?_, hat, hlen⟩
  rw [← append_nil text]
  exact .cons hkey htext .nil

/-- When the limits admit a command of one reader's shape at all, the bulk limit admits its
name.  `GET` and `SET` check the bytes of the name without the bulk limit; the other readers parse
the name under it. -/
def NameFits (l : Limits) : BufferedReader → Prop
  | .get => 3 ≤ l.maxBulkBytes ∨ l.maxArguments < 2 ∨ l.maxRequestBytes < 19
  | .set => 3 ≤ l.maxBulkBytes ∨ l.maxArguments < 3 ∨ l.maxRequestBytes < 25
  | _ => True

theorem matchGET_frame (hname : NameFits l .get) (h : matchGET l buf = .ok m) :
    IsFrame l buf m := by
  rcases matchGET_ok h with ⟨hlen, hhead, hlimit, key, last, rfl, hbytes, hargs⟩
  have hshort := hargs.length
  rw [length_singleton] at hshort
  rcases hname with hname | hfew | hsmall
  · rcases shortHeader_parts hhead (by omega) hname with ⟨htake, hnameAt, hfold⟩
    exact isFrame_of_parts (by decide) htake hnameAt hargs (by rw [length_singleton]; decide)
      hlimit hbytes hfold
  · omega
  · omega

theorem matchSET_frame (hname : NameFits l .set) (h : matchSET l buf = .ok m) :
    IsFrame l buf m := by
  rcases matchSET_ok h with ⟨hlen, hhead, hlimit, args, last, rfl, hcount, hbytes, hargs⟩
  have hshort := hargs.length
  rcases hname with hname | hfew | hsmall
  · rcases shortHeader_parts hhead hlen hname with ⟨htake, hnameAt, hfold⟩
    exact isFrame_of_parts (by decide) htake hnameAt hargs (by rw [hcount]; decide) hlimit hbytes
      hfold
  · omega
  · omega

/-! ## The readers -/

variable {d d' : Decoder}

theorem readBuffered_error {stop : Stop}
    (h : readBuffered l least body d = (.error stop, d')) : d' = d := by
  rw [readBuffered] at h
  split_ifs at h
  · cases h
    rfl
  · split at h <;> cases h
    rfl

theorem readCommand_of_match (c : Config)
    (hbody : ∀ buf m, body buf = .ok m → IsFrame c.limits buf m)
    (h : readBuffered c.limits least body d = (.ok (cmd, args), d')) :
    ∃ name d'', (readCommand c).run d = (.ok (name :: args), d'') ∧ equalFold name cmd = true ∧
      d''.reader.contents = d'.reader.contents := by
  rw [readBuffered] at h
  split_ifs at h
  · cases h
  · split at h
    · cases h
    next m hm =>
      cases h
      rcases hbody _ m hm with ⟨name, hfold, hframe, hle⟩
      rw [length_take] at hle
      rw [take_take, min_eq_left (by omega)] at hframe
      have hcut : d.reader.contents =
          d.reader.buffer.take m.frameLen ++ (d.reader.discard m.frameLen).contents := by
        rw [BufReader.contents, BufReader.contents, BufReader.discard, ← append_assoc,
          take_append_drop]
      rcases readCommand_frame c hframe hcut with ⟨d'', hrun, hrest⟩
      exact ⟨name, d'', hrun, hfold, hrest⟩

/-- A fast reader agrees with the general one on a decoder: a match is the command that the general
reader reads, up to the case of its name, with the same arguments and the same bytes behind it;
without a match nothing happens. -/
def Agrees (c : Config) (k : BufferedReader) (d : Decoder) : Prop :=
  (∀ cmd args d', k.read c.limits d = (.ok (cmd, args), d') →
    ∃ name d'', (readCommand c).run d = (.ok (name :: args), d'') ∧ equalFold name cmd = true ∧
      d''.reader.contents = d'.reader.contents) ∧
  ∀ stop d', k.read c.limits d = (.error stop, d') → d' = d

variable {c : Config} {k : BufferedReader}

theorem agrees_of_nameFits (h : NameFits c.limits k) (d : Decoder) : Agrees c k d := by
  constructor
  · intro cmd args d' hread
    cases k with
    | get => exact readCommand_of_match c (fun _ _ => matchGET_frame h) hread
    | set => exact readCommand_of_match c (fun _ _ => matchSET_frame h) hread
    | sadd => exact readCommand_of_match c (fun _ _ => matchMember_frame) hread
    | sismember => exact readCommand_of_match c (fun _ _ => matchMember_frame) hread
    | nativeMutation => exact readCommand_of_match c (fun _ _ => matchNativeMutation_frame) hread
  · intro stop d' hread
    cases k <;> exact readBuffered_error hread

/-! ## Names over the bulk limit -/

theorem LengthLine.unique {marker : UInt8} {n' : Nat} {line line' x y : Bytes}
    (hmarker : marker ≠ lf) (h : LengthLine marker n line) (h' : LengthLine marker n' line')
    (e : line ++ x = line' ++ y) : n = n' ∧ x = y := by
  have hline : line = line' := by
    rcases h.cut hmarker with ⟨front, rfl, hfront, -⟩
    rcases h'.cut hmarker with ⟨front', rfl, hfront', -⟩
    rw [append_assoc, append_assoc, singleton_append, singleton_append] at e
    have hidx := congrArg (findIdx? fun b => b == lf) e
    rw [BufReader.findIdx?_line hfront, BufReader.findIdx?_line hfront', Option.some.injEq] at hidx
    rw [(append_inj e hidx).1]
  subst hline
  refine ⟨?_, append_cancel_left e⟩
  rcases h with ⟨digits, hd, -, -, -, rfl⟩
  rcases h' with ⟨digits', hd', -, -, -, rfl⟩
  have hcut := hd.symm.trans hd'
  rw [cons_append, cons_append, cons.injEq, append_left_inj] at hcut
  rw [hcut.2]

/-- The general reader reads no command whose name is longer than the bulk limit. -/
theorem three_le_of_readCommand {k : UInt8} {rest : Bytes}
    (hk : isDigit k = true)
    (hc : d.reader.contents = [star, k, cr, lf] ++ ([dollar, '3'.toUInt8, cr, lf] ++ rest))
    (h : (readCommand c).run d = (.ok (name :: args), d')) : 3 ≤ c.limits.maxBulkBytes := by
  rcases frame_of_readCommand c h with ⟨text, hframe, hcut⟩
  rcases hframe.array with ⟨line, texts, hline, htexts, rfl⟩
  rw [hc, append_assoc] at hcut
  have htail := ((lengthLine_digit hk).unique (by decide) hline hcut).2
  cases htexts with
  | @cons _ text _ more hle hbulk _ =>
    rcases hbulk with ⟨line₂, hline₂, rfl⟩
    rw [append_assoc, append_assoc, append_assoc] at htail
    have hthree : isDigit '3'.toUInt8 = true := by decide
    have hlen := ((lengthLine_digit hthree).unique (by decide) hline₂ htail).1
    calc 3 = name.length := hlen
      _ ≤ c.limits.maxBulkBytes := hle

theorem scanLength_zero (max pos : Nat) (rest : Bytes) :
    scanLength max (digit0 :: cr :: lf :: rest) pos 0 0 = some (pos + 3, 0, 1) := by
  have hzero : digitOf digit0 = 0 := by decide
  rw [scanLength, if_neg (by decide), if_neg (by decide), hzero, if_neg (by omega), scanLength,
    if_pos rfl, if_neg (by simp)]

theorem parseBulkAt_empty (max : Nat) (buf : Bytes) (pos : Nat) (rest : Bytes)
    (hpos : pos + 7 ≤ maxInt)
    (h : buf.drop pos = [dollar, digit0, cr, lf, cr, lf] ++ rest) :
    parseBulkAt max buf pos = .ok (pos + 4, 0, pos + 6) := by
  have hget : ∀ i, buf[pos + i]? = ([dollar, digit0, cr, lf, cr, lf] ++ rest)[i]? := by
    intro i
    rw [← h, getElem?_drop]
  have hlen : pos + 6 ≤ buf.length := by
    have := congrArg List.length h
    rw [length_drop, length_append] at this
    simp only [length_cons, length_nil] at this
    omega
  have hdrop : buf.drop (pos + 1) = digit0 :: cr :: lf :: ([cr, lf] ++ rest) := by
    rw [← drop_drop, h]
    rfl
  refine miss_ok.2 ⟨not_not.2 (hget 0), ?_⟩
  rw [hdrop, scanLength_zero]
  refine miss_ok.2 ⟨by decide, ?_⟩
  rw [indexable, if_neg (by omega)]
  refine miss_ok.2 ⟨by omega, ?_⟩
  exact miss_ok.2 ⟨by rw [not_or, not_not, not_not]; exact ⟨hget 4, hget 5⟩, rfl⟩

/-- `GET` with an empty key. -/
def emptyGET : Bytes := ascii "*2\r\n$3\r\nGET\r\n$0\r\n\r\n"

/-- `SET` with an empty key and an empty value. -/
def emptySET : Bytes := ascii "*3\r\n$3\r\nSET\r\n$0\r\n\r\n$0\r\n\r\n"

theorem matchGET_empty (hargs : 2 ≤ l.maxArguments) (hbytes : 19 ≤ l.maxRequestBytes) :
    matchGET l emptyGET = .ok ⟨ascii "GET", [[]], 19⟩ := by
  have hdrop : emptyGET.drop 14 = digit0 :: cr :: lf :: [cr, lf] := by decide +kernel
  have hlen : emptyGET.length = 19 := by decide +kernel
  refine miss_ok.2 ⟨by decide +kernel, ?_⟩
  rw [hdrop, scanLength_zero, hlen]
  refine miss_ok.2 ⟨by decide, ?_⟩
  refine miss_ok.2 ⟨by omega, ?_⟩
  refine miss_ok.2 ⟨by decide +kernel, ?_⟩
  exact miss_ok.2 ⟨by omega, rfl⟩

theorem matchSET_empty (hargs : 3 ≤ l.maxArguments) (hbytes : 25 ≤ l.maxRequestBytes) :
    matchSET l emptySET = .ok ⟨ascii "SET", [[], []], 25⟩ := by
  have hkey := parseBulkAt_empty l.maxBulkBytes emptySET 13
    [dollar, digit0, cr, lf, cr, lf] (by decide) (by decide +kernel)
  have hvalue := parseBulkAt_empty l.maxBulkBytes emptySET 19 [] (by decide) (by decide +kernel)
  have hparse : parseBulksAt l.maxBulkBytes emptySET 2 13 = .ok ([[], []], 25) := by
    refine bind_ok.2 ⟨_, hkey, bind_ok.2 ⟨([[]], 25), ?_, rfl⟩⟩
    exact bind_ok.2 ⟨_, hvalue, bind_ok.2 ⟨([], 25), rfl, rfl⟩⟩
  refine miss_ok.2 ⟨by decide +kernel, ?_⟩
  refine miss_ok.2 ⟨by omega, ?_⟩
  refine bind_ok.2 ⟨_, hparse, ?_⟩
  exact miss_ok.2 ⟨by omega, rfl⟩

def buffered (text : Bytes) : Decoder :=
  ⟨⟨text, [], [], false⟩, 0, []⟩

theorem readBuffered_buffered {text : Bytes} (hleast : least ≤ text.length)
    (hlimit : text.length ≤ l.maxRequestBytes) (hbody : body text = .ok m) :
    ∃ d', readBuffered l least body (buffered text) = (.ok (m.command, m.args), d') := by
  have htake : text.take (min text.length l.maxRequestBytes) = text := by
    rw [min_eq_left hlimit, take_length]
  refine ⟨{ buffered text with reader := (buffered text).reader.discard m.frameLen }, ?_⟩
  have hbuf : (buffered text).reader.buffer = text := rfl
  simp only [readBuffered, hbuf, htake, hbody, if_neg (not_lt.2 hleast)]

theorem three_le_of_agrees (h : ∀ d, Agrees c k d) (text : Bytes)
    (digit : UInt8) (hdigit : isDigit digit = true) (htext : (buffered text).reader.contents =
      [star, digit, cr, lf] ++ ([dollar, '3'.toUInt8, cr, lf] ++ text.drop 8))
    (hread : ∃ d', k.read c.limits (buffered text) = (.ok (m.command, m.args), d')) :
    3 ≤ c.limits.maxBulkBytes := by
  rcases hread with ⟨d', hread⟩
  rcases (h (buffered text)).1 _ _ d' hread with ⟨name, d'', hrun, -⟩
  exact three_le_of_readCommand hdigit htext hrun

/-- The fast readers agree with the general reader on every buffer exactly when the bulk limit
admits the names of the commands they take. -/
theorem buffered_agrees_iff (c : Config) (k : BufferedReader) :
    (∀ d, Agrees c k d) ↔ NameFits c.limits k := by
  refine ⟨fun h => ?_, agrees_of_nameFits⟩
  cases k with
  | get =>
    by_contra hname
    simp only [NameFits, not_or, not_lt, not_le] at hname
    have hlen : emptyGET.length = 19 := by decide +kernel
    have := three_le_of_agrees h emptyGET '2'.toUInt8 (by decide) (by decide +kernel)
      (readBuffered_buffered (Nat.le_refl _) (hlen ▸ hname.2.2)
        (matchGET_empty hname.2.1 hname.2.2))
    omega
  | set =>
    by_contra hname
    simp only [NameFits, not_or, not_lt, not_le] at hname
    have hlen : emptySET.length = 25 := by decide +kernel
    have := three_le_of_agrees h emptySET '3'.toUInt8 (by decide) (by decide +kernel)
      (readBuffered_buffered (Nat.le_refl _) (hlen ▸ hname.2.2)
        (matchSET_empty hname.2.1 hname.2.2))
    omega
  | sadd => exact trivial
  | sismember => exact trivial
  | nativeMutation => exact trivial

/-- A bulk limit of two bytes: the fast reader takes the `GET` that the general reader refuses for
its length. -/
def tightConfig : Config where
  limits := ⟨64 * 2 ^ 20, 2, 1024⟩
  valid := by decide
  bufferSize := 256 * 2 ^ 10
  lineFits := by decide

theorem tight_get_disagrees :
    ((BufferedReader.get.read tightConfig.limits
      (buffered (ascii "*2\r\n$3\r\nGET\r\n$1\r\nk\r\n"))).1 =
        .ok (ascii "GET", [ascii "k"])) ∧
      (((readCommand tightConfig).run (buffered (ascii "*2\r\n$3\r\nGET\r\n$1\r\nk\r\n"))).1 =
        .error .declaredLengthExceedsLimit) := by
  constructor <;> decide +kernel

end Resp
end SnugKV
