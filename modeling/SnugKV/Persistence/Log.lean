import SnugKV.Persistence.Frame

/-!
# Log — appends, the sync loop and the rewrite as interleaved steps

A state of `Log` in `persistence/log.go` and one action for every stretch of code that runs
under its locks.  The outcome of each file-system call is part of the action, so a run is a list
of actions and every interleaving with every failure is one.

* `Disk` — the open file, the buffered writer on it and the failure flag, guarded by `mu`;
* `Log.holder` — who holds `enqueueMu`, and how far it got;
* `step` — the actions of appenders, of the sync loop, of the rewriting caller and of
  `SetPolicy`.

The error texts of the file system are not kept: `failed` only says that `l.failed` is set.  The
sequence numbers are `Nat` here and `uint64` in the source, and `Close` is left out.
-/

namespace SnugKV
namespace Persistence

open Lib

/-! ## Files and the buffered writer -/

/-- An append: its frame, and by how much it moves the sequence number. -/
structure Entry where
  data : Bytes
  count : Nat
  pos : 0 < count
deriving DecidableEq

/-- A file: what was written to it and how much of that is synced.  `base` is the text it
started with, which stands for the first `since` admitted appends. -/
structure File where
  content : Bytes
  synced : Nat
  base : Bytes
  since : Nat
deriving DecidableEq

/-- `l.file`, what the writer on it still buffers, `l.failed` and the sequence numbers. -/
structure Disk where
  file : File
  pending : Bytes := []
  failed : Bool := false
  writtenSeq : Nat := 0
  syncedSeq : Nat := 0
deriving DecidableEq

/-- How a write ends: how many of the buffered bytes reached the file, and whether it succeeded. -/
structure Outcome where
  moved : Nat
  ok : Bool

/-- `writeAll(l.writer, data)`: the writer may pass on any part of what it holds. -/
def Disk.write (d : Disk) (data : Bytes) (o : Outcome) : Disk :=
  { d with
    file := { d.file with content := d.file.content ++ (d.pending ++ data).take o.moved }
    pending := (d.pending ++ data).drop o.moved
    failed := !o.ok }

/-- `l.writer.Flush()` -/
def Disk.flush (d : Disk) (o : Outcome) : Disk :=
  if o.ok then
    { d with file := { d.file with content := d.file.content ++ d.pending }, pending := [] }
  else
    { d with
      file := { d.file with content := d.file.content ++ d.pending.take o.moved }
      pending := d.pending.drop o.moved
      failed := true }

/-- `l.file.Sync()` -/
def Disk.sync (d : Disk) (ok : Bool) : Disk :=
  if ok then { d with file := { d.file with synced := d.file.content.length } }
  else { d with failed := true }

/-- A flush, and a sync when it succeeded. -/
def Disk.flushSync (d : Disk) (o : Outcome) (sync : Bool) : Disk :=
  if (d.flush o).failed then d.flush o else (d.flush o).sync sync

def Disk.wroteSeq (d : Disk) (seq : Nat) : Disk :=
  { d with writtenSeq := max d.writtenSeq seq }

/-- The sync loop moves `syncedSeq` up to what was written. -/
def Disk.markWritten (d : Disk) : Disk :=
  if d.failed then d else { d with syncedSeq := max d.syncedSeq d.writtenSeq }

/-! ## Steps of `FinishRewrite` that can fail -/

/-- Before the append admission is blocked. -/
inductive PrepareStep where
  | createTemp
  | closeTemp
  | removeTemp
  | snapshot
deriving DecidableEq

/-- While it is blocked. -/
inductive InstallStep where
  | openTemp
  | writeBuffer
  | flush
  | sync
  | rename
  | openDir
  | syncDir
  | closeDir
  | closePrevious
deriving DecidableEq

/-- The steps between the rename and the switch to the new file. -/
def InstallStep.afterRename : InstallStep → Bool
  | .openDir | .syncDir | .closeDir => true
  | _ => false

/-- The text of a snapshot: every record in a frame of its own, and the empty footer. -/
def snapshotText (records : List Record) : Except Error Bytes :=
  match (records.map (fun r => [r]) ++ [[]]).mapM (fun batch => writeFrame (some batch)) with
  | .error e => .error e
  | .ok texts => .ok (fileOf texts)

/-! ## The log -/

inductive Policy where
  | always
  | everysec
  | no
deriving DecidableEq

/-- A frame on its way to the sync loop; `sync` frames have a channel for the result. -/
structure QueuedFrame where
  entry : Entry
  seq : Nat
  sync : Bool
deriving DecidableEq

/-- What the holder of `enqueueMu` is doing. -/
inductive Task where
  /-- `appendEncoded` before it sends the frame, -/
  | send (f : QueuedFrame)
  /-- after it has sent it, -/
  | sent (f : QueuedFrame)
  /-- and while it waits for the result. -/
  | await (f : QueuedFrame)
  /-- `appendEncoded` under the policy `no` -/
  | append (e : Entry)
  | begin
  | finish (text : Bytes)
  | setPolicy (policy : Policy)
deriving DecidableEq

/-- Where the caller of `BeginRewrite` and `FinishRewrite` is. -/
inductive Rewriter where
  | idle
  | begun
  | writing (records : List Record)
  | aborting
  | ready (text : Bytes)
deriving DecidableEq

/-- `l.file.Name()`, the name a file was opened under: a rewritten file keeps its temporary one. -/
inductive FileName where
  | log
  | temp
deriving DecidableEq

structure Log extends Disk where
  /-- The file at the log path when it is not `l.file`. -/
  atPath : Option File := none
  fileName : FileName := .log
  policy : Policy
  appendedSeq : Nat := 0
  queue : List QueuedFrame := []
  /-- What the sync loop has taken from the queue. -/
  batch : List QueuedFrame := []
  /-- The results sent on the channels of `sync` frames, by sequence number. -/
  done : List (Nat × Bool) := []
  /-- The holder of `enqueueMu`, and whether it has seen the queue drained. -/
  holder : Option (Task × Bool) := none
  rewriteActive : Bool := false
  rewriteBuffer : List Bytes := []
  rewriter : Rewriter := .idle
  /-- All appends in the order of their admission. -/
  history : List Entry := []
  /-- How many of them precede the last `BeginRewrite`. -/
  begunAt : Nat := 0
  /-- The sequence numbers of the appends that returned under the policy `no`. -/
  returned : List Nat := []
deriving DecidableEq

/-- A log just opened on a file with this content. -/
def Log.opened (policy : Policy) (content : Bytes) : Log :=
  { file := { content := content, synced := 0, base := content, since := 0 }, policy := policy }

def Log.pathFile (l : Log) : File :=
  l.atPath.getD l.file

def queueCapacity : Nat := 4096
def batchFrames : Nat := 64
def batchBytes : Nat := 256 * 2 ^ 10

/-- How much an append moves the sequence number. -/
def Frame.count : Frame → Nat
  | .plainSetBatch keys _ => keys.length
  | _ => 1

theorem Frame.count_pos {f : Frame} {text : Bytes} (h : f.encode = .ok text) : 0 < f.count := by
  cases f with
  | generic records => exact Nat.one_pos
  | plainSet key value => exact Nat.one_pos
  | plainSetBatch keys values =>
    simp only [Frame.encode, encodePlainSetBatchFrame] at h
    split at h
    · cases h
    next hvalid => exact Nat.pos_of_ne_zero fun h0 => hvalid (Or.inl h0)

def Log.bufferRewriteFrame (l : Log) (frame : Bytes) : Log :=
  if l.rewriteActive then { l with rewriteBuffer := l.rewriteBuffer ++ [frame] } else l

def Log.release (l : Log) : Log :=
  { l with holder := none }

/-- `FinishRewrite` gives up, and so does its caller. -/
def Log.stopRewrite (l : Log) : Log :=
  { l with rewriteActive := false, rewriteBuffer := [], rewriter := .idle }

def Log.markSynced (l : Log) : Log :=
  { l with syncedSeq := max l.syncedSeq l.appendedSeq }

inductive Action where
  | append (f : Frame)
  | send
  | buffer
  | awaited
  | drain
  | appendWrite (write flush : Outcome)
  | receive
  | writeBatch (writes : List Outcome) (flush : Outcome) (sync : Bool)
  | tick (flush : Outcome) (sync : Bool)
  | beginRewrite
  | beginDone
  | finishRewrite (records : List Record)
  | prepare (fails : Option PrepareStep)
  | abort
  | finishLock
  | install (fails : Option InstallStep)
  | setPolicy (policy : Policy)
  | setPolicyDone (flush : Outcome) (sync : Bool)

/-! ## Appending -/

/-- `appendEncoded` up to the branch on the policy. -/
def appendEncoded (l : Log) (e : Entry) : Log :=
  if l.failed then l
  else if l.policy = .no then { l with holder := some (.append e, false) }
  else
    { l with
      appendedSeq := l.appendedSeq + e.count
      history := l.history ++ [e]
      holder := some (.send ⟨e, l.appendedSeq + e.count, l.policy = .always⟩, false) }

/-- A frame that cannot be encoded is refused before any lock is taken. -/
def append (l : Log) (f : Frame) : Option Log :=
  match l.holder with
  | some _ => none
  | none =>
    match h : f.encode with
    | .error _ => some l
    | .ok data => some (appendEncoded l ⟨data, f.count, Frame.count_pos h⟩)

/-- `l.queue <- frame`, which waits while the channel is full. -/
def send (l : Log) : Option Log :=
  match l.holder with
  | some (.send f, _) =>
    if l.queue.length < queueCapacity then
      some { l with queue := l.queue ++ [f], holder := some (.sent f, false) }
    else none
  | _ => none

/-- Behind the send: an `everysec` append returns, an `always` append waits, with the lock while
a rewrite is active and without it otherwise. -/
def buffer (l : Log) : Option Log :=
  match l.holder with
  | some (.sent f, _) =>
    if !f.sync then some (l.bufferRewriteFrame f.entry.data).release
    else if l.rewriteActive then some { l with holder := some (.await f, false) }
    else some l.release
  | _ => none

def awaited (l : Log) : Option Log :=
  match l.holder with
  | some (.await f, _) =>
    match l.done.lookup f.seq with
    | none => none
    | some true => some (l.bufferRewriteFrame f.entry.data).release
    | some false => some l.release
  | _ => none

/-- An append under the policy `no` has been written, and counts now; what is left to do is what
follows a send. -/
def Log.wroteNow (l : Log) (e : Entry) : Log :=
  { l with
    appendedSeq := l.appendedSeq + e.count
    writtenSeq := l.appendedSeq + e.count
    history := l.history ++ [e]
    holder := some (.sent ⟨e, l.appendedSeq + e.count, false⟩, false) }

/-- The end of an append under the policy `no`. -/
def appendWrite (l : Log) (write flush : Outcome) : Option Log :=
  match l.holder with
  | some (.append e, true) =>
    if l.failed then some l.release
    else
      let l1 : Log := { l with toDisk := l.toDisk.write e.data write }
      if l1.failed then some l1.release
      else
        let l2 : Log := { l1.wroteNow e with toDisk := (l1.wroteNow e).toDisk.flush flush }
        if l2.failed then some l2.release
        else
          let l3 : Log := { l2 with returned := l2.returned ++ [l2.appendedSeq] }
          some (l3.bufferRewriteFrame e.data).release
  | _ => none

/-! ## The sync loop -/

def receive (l : Log) : Option Log :=
  match l.queue with
  | [] => none
  | f :: rest =>
    if l.batch.length < batchFrames ∧ (l.batch.map (·.entry.data.length)).sum < batchBytes then
      some { l with queue := rest, batch := l.batch ++ [f] }
    else none

/-- The frames of a batch, up to the first write that fails. -/
def Disk.writeFrames : Disk → List QueuedFrame → List Outcome → Disk
  | d, [], _ => d
  | d, _ :: _, [] => d
  | d, f :: fs, o :: os =>
    if (d.write f.entry.data o).failed then d.write f.entry.data o
    else Disk.writeFrames ((d.write f.entry.data o).wroteSeq f.seq) fs os

/-- The batch is written, unless the log has failed. -/
def Log.writeQueued (l : Log) (writes : List Outcome) : Log :=
  { l with
    toDisk := if l.failed then l.toDisk else l.toDisk.writeFrames l.batch writes
    batch := [] }

/-- A batch with a `sync` frame in it is flushed and synced. -/
def Log.syncQueued (l : Log) (batch : List QueuedFrame) (flush : Outcome) (sync : Bool) : Log :=
  if l.failed ∨ batch.all (fun f => !f.sync) then l
  else { l with toDisk := (l.toDisk.flushSync flush sync).markWritten }

def writeBatch (l : Log) (writes : List Outcome) (flush : Outcome) (sync : Bool) : Option Log :=
  if l.batch = [] ∨ writes.length ≠ l.batch.length then none
  else
    let l1 := (l.writeQueued writes).syncQueued l.batch flush sync
    some { l1 with
      done := l1.done ++ (l.batch.filter (·.sync)).map (fun f => (f.seq, !l1.failed)) }

def tick (l : Log) (flush : Outcome) (sync : Bool) : Option Log :=
  if l.batch ≠ [] then none
  else if l.failed ∨ l.policy ≠ .everysec then some l
  else some { l with toDisk := (l.toDisk.flushSync flush sync).markWritten }

/-! ## Draining -/

/-- The tasks that call `drainEverysec` first. -/
def Task.drains : Task → Bool
  | .append _ | .begin | .finish _ | .setPolicy _ => true
  | _ => false

/-- What a task undoes when it finds the log failed. -/
def Log.giveUp (l : Log) : Task → Log
  | .finish _ => l.stopRewrite
  | _ => l

/-- `drainEverysec` returns: with the failure, or once everything appended is written. -/
def drain (l : Log) : Option Log :=
  match l.holder with
  | some (task, false) =>
    if !task.drains then none
    else if l.failed then some (l.giveUp task).release
    else if l.appendedSeq ≤ l.writtenSeq then some { l with holder := some (task, true) }
    else none
  | _ => none

/-! ## Rewriting -/

def beginRewrite (l : Log) : Option Log :=
  match l.holder with
  | some _ => none
  | none => if l.rewriteActive then some l else some { l with holder := some (.begin, false) }

def beginDone (l : Log) : Option Log :=
  match l.holder with
  | some (.begin, true) =>
    if l.failed then some l.release
    else
      some { l with
        rewriteActive := true
        rewriteBuffer := []
        rewriter := .begun
        begunAt := l.history.length
        holder := none }
  | _ => none

/-- The first critical section of `FinishRewrite`. -/
def finishRewrite (l : Log) (records : List Record) : Option Log :=
  match l.holder, l.rewriter with
  | none, .begun =>
    if l.failed then some l.stopRewrite else some { l with rewriter := .writing records }
  | _, _ => none

/-- The temporary file and the snapshot, while appends go on. -/
def prepare (l : Log) (fails : Option PrepareStep) : Option Log :=
  match l.rewriter with
  | .writing records =>
    match fails, snapshotText ({ reset := true } :: records) with
    | none, .ok text => some { l with rewriter := .ready text }
    | _, _ => some { l with rewriter := .aborting }
  | _ => none

def abort (l : Log) : Option Log :=
  match l.holder, l.rewriter with
  | none, .aborting => some l.stopRewrite
  | _, _ => none

def finishLock (l : Log) : Option Log :=
  match l.holder, l.rewriter with
  | none, .ready text =>
    if l.rewriteActive then some { l with holder := some (.finish text, false) }
    else some { l with rewriter := .idle }
  | _, _ => none

/-- The new file: the base image and the frames appended since. -/
def Log.rewritten (l : Log) (text : Bytes) : File :=
  let content := text ++ l.rewriteBuffer.flatten
  { content := content, synced := content.length, base := text, since := l.begunAt }

/-- The last critical section of `FinishRewrite`. -/
def install (l : Log) (fails : Option InstallStep) : Option Log :=
  match l.holder with
  | some (.finish text, true) =>
    if l.failed then some l.stopRewrite.release
    else
      match fails with
      | none | some .closePrevious =>
        let swapped : Log :=
          { l with
            file := l.rewritten text
            pending := []
            -- the rename went to the name of `l.file`, which is the log path the first time only
            atPath := if l.fileName = .log then none else some l.pathFile
            fileName := .temp
            writtenSeq := l.appendedSeq
            failed := fails.isSome }
        some swapped.markSynced.stopRewrite.release
      | some step =>
        -- behind the rename the path names the new file, but `l.file` stays the old one
        if step.afterRename ∧ l.fileName = .log then
          some { l with atPath := some (l.rewritten text) }.stopRewrite.release
        else some l.stopRewrite.release
  | _ => none

/-! ## The policy -/

def setPolicy (l : Log) (policy : Policy) : Option Log :=
  match l.holder with
  | some _ => none
  | none => some { l with holder := some (.setPolicy policy, false) }

def setPolicyDone (l : Log) (flush : Outcome) (sync : Bool) : Option Log :=
  match l.holder with
  | some (.setPolicy policy, true) =>
    if l.failed ∨ policy = l.policy then some l.release
    else if policy = .always then
      let l1 : Log := { l with toDisk := l.toDisk.flushSync flush sync }
      if l1.failed then some l1.release
      else some { l1.markSynced with policy := policy, holder := none }
    else some { l with policy := policy, holder := none }
  | _ => none

/-! ## Runs -/

def step (l : Log) : Action → Option Log
  | .append f => append l f
  | .send => send l
  | .buffer => buffer l
  | .awaited => awaited l
  | .drain => drain l
  | .appendWrite write flush => appendWrite l write flush
  | .receive => receive l
  | .writeBatch writes flush sync => writeBatch l writes flush sync
  | .tick flush sync => tick l flush sync
  | .beginRewrite => beginRewrite l
  | .beginDone => beginDone l
  | .finishRewrite records => finishRewrite l records
  | .prepare fails => prepare l fails
  | .abort => abort l
  | .finishLock => finishLock l
  | .install fails => install l fails
  | .setPolicy policy => setPolicy l policy
  | .setPolicyDone flush sync => setPolicyDone l flush sync

def run (l : Log) : List Action → Option Log
  | [] => some l
  | a :: as => (step l a).bind (fun l => run l as)

end Persistence
end SnugKV
