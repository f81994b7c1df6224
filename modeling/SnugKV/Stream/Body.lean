import SnugKV.Lib.Search
import SnugKV.Stream.Entry

/-!
# Body — the chunked entry log of a stream

`engine/stream_body.go`, with the parts of `stream_spill.go`, `stream_store.go` and `stream_tx.go`
that its operations run: the spill of cold chunks, the append mark and the journal of a
transaction.

* `Chunk`, `Body` — packed runs of entries and the log made of them;
* `append`, `trimFront`, `delete`, `seal` — the mutations;
* `get`, `has`, `forEachFrom`, `forEachReverse`, `countBefore`, `countThrough` — the queries.

Reading a corrupt chunk is a panic and gives `none`.  A spilled chunk keeps its bytes here, marked
as lying in a segment file: segment files are written once and removed only when no chunk refers
to them.  How far `append` over-allocates a buffer is up to the runtime and a parameter.
-/

namespace SnugKV
namespace Stream

open Lib

/-- `streamChunkTarget`. -/
def streamChunkTarget : Nat := 32 * 2 ^ 10

structure Chunk where
  first : StreamID
  last : StreamID
  count : Nat
  /-- Live entries start at `data[head:]`. -/
  head : Nat
  lastOff : Nat
  data : Bytes
  /-- `cap(c.data)`; zero for a spilled chunk. -/
  cap : Nat
  /-- `c.seg != nil`. -/
  spilled : Bool
  deriving DecidableEq, Repr

/-- `streamAppendMark`, without the memory figure nothing reads. -/
structure AppendMark where
  chunks : Nat
  /-- `len(c.data)`, count, first, last and lastOff of the newest chunk. -/
  newest : Option (Nat × Nat × StreamID × StreamID × Nat)
  length : Nat
  bytes : Nat
  lastID : StreamID
  maxDel : StreamID
  added : Nat
  deriving DecidableEq, Repr

/-- `streamBodySnapshot`: the chunk buffers are shared, because they are never rewritten in
place. -/
structure Snapshot where
  chunks : List Chunk
  length : Nat
  dataBytes : Nat
  lastID : StreamID
  maxDeletedID : StreamID
  entriesAdded : Nat
  deriving DecidableEq, Repr

/-- `bodyJournal`. -/
structure Journal where
  appended : Bytes := []
  appendedCount : Nat := 0
  through : Option StreamID := none
  deleted : List StreamID := []
  mark : Option AppendMark := none
  snap : Option Snapshot := none
  deriving DecidableEq, Repr

structure Body where
  chunks : List Chunk := []
  length : Nat := 0
  dataBytes : Nat := 0
  dataCap : Nat := 0
  lastID : StreamID := ⟨0, 0⟩
  maxDeletedID : StreamID := ⟨0, 0⟩
  entriesAdded : Nat := 0
  j : Option Journal := none
  deriving DecidableEq, Repr

/-- What the machine decides around one call: how buffers grow, the memory limit of a spilling
stream, and whether a segment file can be written. -/
structure Env where
  grow : Nat → Nat → Nat
  /-- Growing gives at least what is needed. -/
  le_grow : ∀ cap needed, needed ≤ grow cap needed
  /-- `sp.limit()`, `none` without a spill directory. -/
  spill : Option Nat := none
  writes : Bool := true

namespace Body

/-! ## The journal -/

def mark (b : Body) : AppendMark :=
  { chunks := b.chunks.length
    newest := b.chunks.getLast?.map fun c =>
      (if c.spilled then 0 else c.data.length, c.count, c.first, c.last, c.lastOff)
    length := b.length
    bytes := b.dataBytes
    lastID := b.lastID
    maxDel := b.maxDeletedID
    added := b.entriesAdded }

def snapshot (b : Body) : Snapshot :=
  { chunks := b.chunks
    length := b.length
    dataBytes := b.dataBytes
    lastID := b.lastID
    maxDeletedID := b.maxDeletedID
    entriesAdded := b.entriesAdded }

def noteAppend (b : Body) (e : StreamEntry) : Body :=
  { b with j := b.j.map fun j =>
      { j with
        mark := if j.mark.isNone && j.snap.isNone then some b.mark else j.mark
        appended := j.appended ++ entryBytes e
        appendedCount := j.appendedCount + 1 } }

def beforeDestructive (b : Body) : Body :=
  { b with j := b.j.map fun j =>
      { j with snap := if j.snap.isNone then some b.snapshot else j.snap } }

def noteThrough (b : Body) (id : StreamID) : Body :=
  { b with j := b.j.map fun j =>
      { j with through :=
          match j.through with
          | none => some id
          | some through => if through.less id then some id else some through } }

def noteDeleted (b : Body) (ids : List StreamID) : Body :=
  { b with j := b.j.map fun j => { j with deleted := j.deleted ++ ids } }

/-! ## Spilling -/

/-- The loop that picks the oldest resident chunks; the newest chunk is never picked. -/
def pickCold (target : Nat) : List Chunk → Nat → List Chunk
  | [], _ => []
  | [c], _ => [c]
  | c :: c' :: cs, resident =>
    if resident > target then
      if c.spilled || c.data.length = 0 then c :: pickCold target (c' :: cs) resident
      else { c with spilled := true, cap := 0 } ::
        pickCold target (c' :: cs) (resident - c.cap)
    else c :: c' :: cs

def residentBytes (chunks : List Chunk) : Nat := (chunks.map Chunk.cap).sum

def spillCold (env : Env) (b : Body) : Body :=
  match env.spill with
  | none => b
  | some limit =>
    if b.j.isSome || b.chunks.length < 2 || b.dataCap ≤ limit || !env.writes then b
    else
      let chunks := pickCold (limit / 2) b.chunks b.dataCap
      { b with
        chunks := chunks
        dataCap := b.dataCap - (residentBytes b.chunks - residentBytes chunks) }

/-- `unspill`: the bytes are read back into a buffer of their size. -/
def unspill (c : Chunk) : Chunk :=
  if c.spilled then { c with spilled := false, cap := c.data.length } else c

/-! ## Appending -/

/-- `seal` on one chunk: a buffer with more than a sixteenth to spare is copied. -/
def sealChunk (c : Chunk) : Chunk :=
  if c.spilled || c.cap - c.data.length ≤ c.data.length / 16 then c
  else { c with cap := c.data.length }

def setChunk (b : Body) (i : Nat) (c : Chunk) : Body :=
  { b with chunks := b.chunks.set i c }

def sealAt (b : Body) (i : Nat) : Body :=
  match b.chunks[i]? with
  | none => b
  | some c =>
    { b.setChunk i (sealChunk c) with dataCap := b.dataCap - (c.cap - (sealChunk c).cap) }

/-- The chunk an entry goes to, opening a new one when the newest is full or spilled. -/
def openChunk (b : Body) (id : StreamID) (size : Nat) : Body :=
  let fresh : Chunk := ⟨id, ⟨0, 0⟩, 0, 0, 0, [], size, false⟩
  match b.chunks.getLast? with
  | none => { b with chunks := b.chunks ++ [fresh], dataCap := b.dataCap + size }
  | some c =>
    if c.spilled || streamChunkTarget ≤ c.data.length then
      let b := b.sealAt (b.chunks.length - 1)
      { b with chunks := b.chunks ++ [fresh], dataCap := b.dataCap + size }
    else b

/-- `append` on the buffer of one chunk. -/
def Chunk.push (env : Env) (c : Chunk) (e : StreamEntry) : Chunk :=
  let data := c.data ++ entryBytes e
  { c with
    first := if c.count = 0 then e.id else c.first
    lastOff := c.data.length
    data := data
    cap := if data.length ≤ c.cap then c.cap else env.grow c.cap data.length
    last := e.id
    count := c.count + 1 }

def append (env : Env) (b : Body) (e : StreamEntry) : Option Body :=
  let size := streamEntrySize e.fields
  let b := (b.noteAppend e).openChunk e.id size
  match b.chunks.getLast? with
  | none => none
  | some c =>
    let c' := Chunk.push env c e
    let b := { b.setChunk (b.chunks.length - 1) c' with
      dataCap := b.dataCap + (c'.cap - c.cap)
      length := b.length + 1
      dataBytes := b.dataBytes + size }
    some (b.spillCold env)

/-! ## Removing -/

/-- The counters `TrimFront` moves while it walks the chunks. -/
structure Trim where
  n : Nat
  removed : Nat
  lastGone : StreamID
  length : Nat
  dataBytes : Nat
  dataCap : Nat

/-- `n` entries forward from `off`: the offset behind them and the id of the last one. -/
def skipEntries (data : Bytes) : Nat → Nat → StreamID → Option (Nat × StreamID)
  | 0, off, gone => some (off, gone)
  | n + 1, off, _ => do
      let id ← streamEntryIDAt data off
      let off ← streamEntryEnd data off
      skipEntries data n off id

/-- The chunk that keeps some of its entries; its buffer is copied when over half of it is dead. -/
def trimChunk (c : Chunk) (t : Trim) : Option (Chunk × Trim) := do
  let c' := unspill c
  let (off, gone) ← skipEntries c'.data t.n c'.head t.lastGone
  let first ← streamEntryIDAt c'.data off
  let cut := { c' with count := c'.count - t.n, head := off, first := first }
  let live := c'.data.length - off
  let packed := if off > c'.data.length / 2 then
      { cut with lastOff := cut.lastOff - off, data := c'.data.drop off, head := 0, cap := live }
    else cut
  some (packed,
    { n := 0
      removed := t.removed + t.n
      lastGone := gone
      length := t.length - t.n
      dataBytes := t.dataBytes - (off - c'.head)
      dataCap := t.dataCap + (c'.cap - c.cap) - (c'.cap - packed.cap) })

def trimChunks : List Chunk → Trim → Option (List Chunk × Trim)
  | [], t => some ([], t)
  | c :: cs, t =>
    if t.n = 0 then some (c :: cs, t)
    else if c.count ≤ t.n then
      trimChunks cs
        { n := t.n - c.count
          removed := t.removed + c.count
          lastGone := c.last
          length := t.length - c.count
          dataBytes := t.dataBytes - (c.data.length - c.head)
          dataCap := t.dataCap - c.cap }
    else (trimChunk c t).map fun r => (r.1 :: cs, r.2)

/-- The body after the loop, with the journal's note of how far it went. -/
def trimmed (b : Body) (chunks : List Chunk) (t : Trim) : Body :=
  let b := { b with
    chunks := chunks, length := t.length, dataBytes := t.dataBytes, dataCap := t.dataCap }
  if 0 < t.removed then b.noteThrough t.lastGone else b

def trimFront (b : Body) (n : Int) : Option (Body × Nat) := do
  let b := if 0 < n ∧ 0 < b.length then b.beforeDestructive else b
  let (chunks, t) ← trimChunks b.chunks
    ⟨n.toNat, 0, ⟨0, 0⟩, b.length, b.dataBytes, b.dataCap⟩
  some (b.trimmed chunks t, t.removed)

/-- What `rewriteChunk` gathers over the entries of a chunk. -/
structure Kept where
  data : Bytes := []
  count : Nat := 0
  first : StreamID := ⟨0, 0⟩
  last : StreamID := ⟨0, 0⟩
  lastOff : Nat := 0
  gone : List StreamID := []

def keepEntries (data : Bytes) (drop : StreamID → Bool) : Nat → Nat → Kept → Option Kept
  | 0, _, k => some k
  | n + 1, off, k => do
      let stop ← streamEntryEnd data off
      let id ← streamEntryIDAt data off
      keepEntries data drop n stop
        (if drop id then { k with gone := k.gone ++ [id] }
        else
          { k with
            first := if k.count = 0 then id else k.first
            last := id
            lastOff := k.data.length
            data := k.data ++ readAt data off (stop - off)
            count := k.count + 1 })

def dropChunk (b : Body) (i : Nat) (c : Chunk) : Body :=
  { b with
    dataCap := b.dataCap - c.cap
    dataBytes := b.dataBytes - (c.data.length - c.head)
    length := b.length - c.count
    chunks := b.chunks.eraseIdx i }

/-- The chunk without the dropped entries; a chunk that keeps none goes. -/
def replaceChunk (b : Body) (ci : Nat) (c : Chunk) (k : Kept) : Body × Nat :=
  let live := c.data.length - c.head
  if k.gone.length = 0 then (b, 0)
  else if k.count = 0 then (b.dropChunk ci c, k.gone.length)
  else
    ({ b.setChunk ci ⟨k.first, k.last, k.count, 0, k.lastOff, k.data, live, false⟩ with
        dataCap := b.dataCap - c.cap + live
        dataBytes := b.dataBytes - live + k.data.length
        length := b.length - k.gone.length },
      k.gone.length)

/-- `b.unspill(c)` for the chunk at `ci`. -/
def unspillAt (b : Body) (ci : Nat) (c : Chunk) : Body :=
  { b.setChunk ci (unspill c) with dataCap := b.dataCap + ((unspill c).cap - c.cap) }

def rewriteChunk (b : Body) (ci : Nat) (drop : StreamID → Bool) : Option (Body × Nat) := do
  let c ← b.chunks[ci]?
  let k ← keepEntries (unspill c).data drop (unspill c).count (unspill c).head {}
  some (((b.unspillAt ci c).noteDeleted k.gone).replaceChunk ci (unspill c) k)

def firstChunkAtOrAfter (b : Body) (id : StreamID) (inclusive : Bool) : Nat :=
  searchList b.chunks fun c => if inclusive then !c.last.less id else id.less c.last

/-- The chunk whose range holds `id`. -/
def chunkFor (b : Body) (id : StreamID) : Option (Nat × Chunk) :=
  let ci := b.firstChunkAtOrAfter id true
  match b.chunks[ci]? with
  | none => none
  | some c => if id.less c.first then none else some (ci, c)

def rewriteChunks (b : Body) : List (Nat × List StreamID) → Option (Body × Nat)
  | [] => some (b, 0)
  | (ci, drop) :: rest => do
      let (b, k) ← b.rewriteChunk ci (fun id => decide (id ∈ drop))
      let (b, n) ← b.rewriteChunks rest
      some (b, k + n)

/-- `byChunk` in descending order of the chunks. -/
def byChunk (b : Body) (ids : List StreamID) : List (Nat × List StreamID) :=
  ((List.range b.chunks.length).reverse.map fun ci =>
      (ci, ids.filter fun id => (b.chunkFor id).any fun r => r.1 == ci)).filter
    fun r => !r.2.isEmpty

/-- `Delete`; the keys of the map come in some order. -/
def delete (b : Body) (ids : List StreamID) : Option (Body × Nat) :=
  if ids.isEmpty || b.length = 0 then some (b, 0)
  else
    let b := b.beforeDestructive
    b.rewriteChunks (b.byChunk ids)

/-! ## Queries -/

/-- The loop of `Get` over one chunk. -/
def getFrom (data : Bytes) (id : StreamID) : Nat → Nat → Option (Option StreamEntry)
  | 0, _ => some none
  | n + 1, off => do
      let eid ← streamEntryIDAt data off
      if eid = id then
        let (e, _) ← decodeStreamEntryAt data off
        some (some e)
      else if id.less eid then some none
      else
        let off ← streamEntryEnd data off
        getFrom data id n off

def get (b : Body) (id : StreamID) : Option (Option StreamEntry) :=
  match b.chunkFor id with
  | none => some none
  | some (_, c) => getFrom c.data id c.count c.head

def hasFrom (data : Bytes) (id : StreamID) : Nat → Nat → Option Bool
  | 0, _ => some false
  | n + 1, off => do
      let eid ← streamEntryIDAt data off
      if eid = id then some true
      else if id.less eid then some false
      else
        let off ← streamEntryEnd data off
        hasFrom data id n off

def has (b : Body) (id : StreamID) : Option Bool :=
  match b.chunkFor id with
  | none => some false
  | some (_, c) => hasFrom c.data id c.count c.head

section Visits

variable {σ : Type}

/-- The loop of `ForEachFrom` over one chunk; the flag says whether `fn` wants more. -/
def visitFrom (data : Bytes) (pass : StreamID → Bool) (fn : σ → StreamEntry → σ × Bool) :
    Nat → Nat → σ → Option (σ × Bool)
  | 0, _, s => some (s, true)
  | n + 1, off, s => do
      let id ← streamEntryIDAt data off
      if !pass id then
        let off ← streamEntryEnd data off
        visitFrom data pass fn n off s
      else
        let (e, next) ← decodeStreamEntryAt data off
        let (s, more) := fn s e
        if more then visitFrom data pass fn n next s else some (s, false)

def visitChunks (pass : StreamID → Bool) (fn : σ → StreamEntry → σ × Bool) :
    List Chunk → σ → Option (σ × Bool)
  | [], s => some (s, true)
  | c :: cs, s => do
      let (s, more) ← visitFrom c.data pass fn c.count c.head s
      if more then visitChunks pass fn cs s else some (s, false)

def forEachFrom (b : Body) (start : StreamID) (inclusive : Bool)
    (fn : σ → StreamEntry → σ × Bool) (s : σ) : Option σ :=
  let pass := fun id : StreamID => if inclusive then !id.less start else start.less id
  (visitChunks pass fn (b.chunks.drop (b.firstChunkAtOrAfter start inclusive)) s).map Prod.fst

/-- The loop of `ForEachID` over one chunk. -/
def visitIDs (data : Bytes) (fn : σ → StreamID → σ × Bool) : Nat → Nat → σ → Option (σ × Bool)
  | 0, _, s => some (s, true)
  | n + 1, off, s => do
      let id ← streamEntryIDAt data off
      let (s, more) := fn s id
      if more then
        let off ← streamEntryEnd data off
        visitIDs data fn n off s
      else some (s, false)

def visitChunkIDs (fn : σ → StreamID → σ × Bool) : List Chunk → σ → Option (σ × Bool)
  | [], s => some (s, true)
  | c :: cs, s => do
      let (s, more) ← visitIDs c.data fn c.count c.head s
      if more then visitChunkIDs fn cs s else some (s, false)

def forEachID (b : Body) (fn : σ → StreamID → σ × Bool) (s : σ) : Option σ :=
  (visitChunkIDs fn b.chunks s).map Prod.fst

def offsets (data : Bytes) : Nat → Nat → Option (List Nat)
  | 0, _ => some []
  | n + 1, off => do
      let next ← streamEntryEnd data off
      let rest ← offsets data n next
      some (off :: rest)

def visitOffsets (data : Bytes) (stop : StreamID) (fn : σ → StreamEntry → σ × Bool) :
    List Nat → σ → Option (σ × Bool)
  | [], s => some (s, true)
  | off :: rest, s => do
      let id ← streamEntryIDAt data off
      if stop.less id then visitOffsets data stop fn rest s
      else
        let (e, _) ← decodeStreamEntryAt data off
        let (s, more) := fn s e
        if more then visitOffsets data stop fn rest s else some (s, false)

def visitReverse (stop : StreamID) (fn : σ → StreamEntry → σ × Bool) :
    List Chunk → σ → Option (σ × Bool)
  | [], s => some (s, true)
  | c :: cs, s => do
      let offs ← offsets c.data c.count c.head
      let (s, more) ← visitOffsets c.data stop fn offs.reverse s
      if more then visitReverse stop fn cs s else some (s, false)

def forEachReverse (b : Body) (stop : StreamID) (fn : σ → StreamEntry → σ × Bool) (s : σ) :
    Option σ :=
  let n := searchList b.chunks fun c => stop.less c.first
  (visitReverse stop fn (b.chunks.take n).reverse s).map Prod.fst

end Visits

/-- The loop of `CountBefore` over one chunk; the flag says whether it returned. -/
def countFrom (data : Bytes) (minID : StreamID) (limit : Int) : Nat → Nat → Nat → Option Nat
  | 0, _, count => some count
  | n + 1, off, count => do
      let id ← streamEntryIDAt data off
      if !id.less minID then some count
      else if 0 < limit ∧ limit ≤ count + 1 then some limit.toNat
      else
        let off ← streamEntryEnd data off
        countFrom data minID limit n off (count + 1)

def countChunks (minID : StreamID) (limit : Int) : List Chunk → Nat → Option Nat
  | [], count => some count
  | c :: cs, count =>
    if c.last.less minID then
      if 0 < limit ∧ limit ≤ count + c.count then some limit.toNat
      else countChunks minID limit cs (count + c.count)
    else countFrom c.data minID limit c.count c.head count

def countBefore (b : Body) (minID : StreamID) (limit : Int) : Option Nat :=
  countChunks minID limit b.chunks 0

def throughFrom (data : Bytes) (id : StreamID) : Nat → Nat → Nat → Option Nat
  | 0, _, count => some count
  | n + 1, off, count => do
      let eid ← streamEntryIDAt data off
      if id.less eid then some count
      else
        let off ← streamEntryEnd data off
        throughFrom data id n off (count + 1)

def throughChunks (id : StreamID) : List Chunk → Nat → Option Nat
  | [], count => some count
  | c :: cs, count =>
    if !id.less c.last then throughChunks id cs (count + c.count)
    else throughFrom c.data id c.count c.head count

def countThrough (b : Body) (id : StreamID) : Option Nat :=
  throughChunks id b.chunks 0

/-- `FirstID` and `LastEntryID`. -/
def firstID (b : Body) : Option StreamID :=
  if b.length = 0 then none else b.chunks.head?.map Chunk.first

def lastEntryID (b : Body) : Option StreamID :=
  if b.length = 0 then none else b.chunks.getLast?.map Chunk.last

def chunkEntries (data : Bytes) : Nat → Nat → Option (List StreamEntry)
  | 0, _ => some []
  | n + 1, off => do
      let (e, off) ← decodeStreamEntryAt data off
      let rest ← chunkEntries data n off
      some (e :: rest)

/-- `All`. -/
def all (b : Body) : Option (List StreamEntry) :=
  b.chunks.foldr
    (fun c rest => do
      let es ← chunkEntries c.data c.count c.head
      let rest ← rest
      some (es ++ rest))
    (some [])

/-- `packedEntries(nil)`. -/
def packedEntries (b : Body) : Bytes := b.chunks.flatMap fun c => c.data.drop c.head

end Body

end Stream
end SnugKV
