import SnugKV.Stream.GroupCommandProofs

/-!
# Transaction — stream commands watched as a whole

`engine/stream_tx.go` over all keys: `BeginStreamTx` attaches a journal to the log of every key it
is given, a command runs, and `Rollback` takes back what the command did.

* `beginStreamTx`, `endTx`, `rollback` — the transaction;
* `Command`, `execute` — the stream commands, each on the keys it names;
-/

namespace SnugKV
namespace Stream

open Lib List

/-! ## The store -/

structure Store where
  cell : Bytes → Cell
  /-- The keys of the active transaction. -/
  tx : Option (List Bytes) := none

def Store.set (s : Store) (key : Bytes) (c : Cell) : Store :=
  { s with cell := Function.update s.cell key c }

theorem Store.cell_set (s : Store) (key : Bytes) (c : Cell) : (s.set key c).cell key = c :=
  Function.update_self ..

theorem Store.cell_set_of_ne {k key : Bytes} (h : k ≠ key) (s : Store) (c : Cell) :
    (s.set key c).cell k = s.cell k := Function.update_of_ne h ..

abbrev StoreM (α : Type) : Type := Action Store StreamError α

def onKey {α : Type} (key : Bytes) (m : CellM α) : StoreM α := fun s =>
  ((m (s.cell key)).1, s.set key (m (s.cell key)).2)

variable {s s' : Store}

/-- A command on a key touches that key alone. -/
theorem onKey_eq {α : Type} {key : Bytes} {m : CellM α} {r : Except StreamError α} :
    onKey key m s = (r, s') ↔ ∃ c', m (s.cell key) = (r, c') ∧ s' = s.set key c' := by
  constructor
  · intro h
    obtain ⟨hres, rfl⟩ := Prod.mk.inj h
    exact ⟨_, Prod.ext hres rfl, rfl⟩
  · rintro ⟨c', hm, rfl⟩
    rw [onKey, hm]

/-- An action on each of the keys in turn. -/
def eachKey (m : Bytes → CellM Unit) : List Bytes → StoreM Unit
  | [] => pure ()
  | key :: keys => do
      onKey key (m key)
      eachKey m keys

variable {m : Bytes → CellM Unit}

theorem eachKey_eq_ok {keys : List Bytes} (hnodup : keys.Nodup) :
    eachKey m keys s = (.ok (), s') ↔ s'.tx = s.tx ∧
      (∀ key ∉ keys, s'.cell key = s.cell key) ∧
        ∀ key ∈ keys, m key (s.cell key) = (.ok (), s'.cell key) := by
  induction keys generalizing s with
  | nil =>
    constructor
    · rintro ⟨⟩
      exact ⟨rfl, fun _ _ => rfl, by simp⟩
    · rintro ⟨htx, hsame, -⟩
      obtain ⟨cell, tx⟩ := s'
      obtain rfl : cell = s.cell := funext fun key => hsame key not_mem_nil
      obtain rfl : tx = s.tx := htx
      rfl
  | cons key keys ih =>
    obtain ⟨hnot, hnodup⟩ := nodup_cons.1 hnodup
    have hother : ∀ k ∈ keys, k ≠ key := fun k hk heq => hnot (heq ▸ hk)
    constructor
    · intro h
      obtain ⟨_, s₁, hfirst, hrest⟩ := Action.bind_eq_ok.1 h
      obtain ⟨c', hc', rfl⟩ := onKey_eq.1 hfirst
      obtain ⟨htx, hsame, hin⟩ := (ih hnodup).1 hrest
      refine ⟨htx, fun k hk => ?_, fun k hk => ?_⟩
      · obtain ⟨hne, hk⟩ := not_or.1 (mt mem_cons.2 hk)
        exact (hsame k hk).trans (Store.cell_set_of_ne hne ..)
      · rcases mem_cons.1 hk with rfl | hk
        · rw [hsame k hnot, hc', Store.cell_set]
        · have := hin k hk
          rwa [Store.cell_set_of_ne (hother k hk)] at this
    · rintro ⟨htx, hsame, hin⟩
      refine (Action.bind_ok (onKey_eq.2 ⟨_, hin key mem_cons_self, rfl⟩)).trans
        ((ih hnodup).2 ⟨htx, fun k hk => ?_, fun k hk => ?_⟩)
      · by_cases heq : k = key
        · rw [heq, Store.cell_set]
        · rw [Store.cell_set_of_ne heq]
          exact hsame k (by simp [heq, hk])
      · rw [Store.cell_set_of_ne (hother k hk)]
        exact hin k (mem_cons_of_mem _ hk)

/-- The cells of the keys in `keys` with `P`, the others as in `s`. -/
def OnlyAt (keys : List Bytes) (P : Bytes → Cell → Prop) (s s' : Store) : Prop :=
  (∀ key ∈ keys, P key (s'.cell key)) ∧ (∀ key ∉ keys, s'.cell key = s.cell key) ∧ s'.tx = s.tx

theorem eachKey_onlyAt {keys : List Bytes} (hnodup : keys.Nodup) {Q : Bytes → Cell → Prop}
    (h : ∀ key ∈ keys, ∃ c', m key (s.cell key) = (.ok (), c') ∧ Q key c') :
    ∃ s', eachKey m keys s = (.ok (), s') ∧ OnlyAt keys Q s s' := by
  have hcell : ∀ key, ∃ c', (key ∈ keys → m key (s.cell key) = (.ok (), c') ∧ Q key c') ∧
      (key ∉ keys → c' = s.cell key) := by
    intro key
    by_cases hkey : key ∈ keys
    · obtain ⟨c', hc'⟩ := h key hkey
      exact ⟨c', fun _ => hc', fun hnot => absurd hkey hnot⟩
    · exact ⟨s.cell key, fun hin => absurd hin hkey, fun _ => rfl⟩
  choose cell hin hout using hcell
  exact ⟨⟨cell, s.tx⟩, (eachKey_eq_ok hnodup).2 ⟨rfl, hout, fun key hkey => (hin key hkey).1⟩,
    fun key hkey => (hin key hkey).2, hout, rfl⟩

/-- One key of `BeginStreamTx`; expired values and other types are refused. -/
def Cell.begin (now : Int64) (c : Cell) : Option Cell :=
  match c.slot with
  | none => some { c with item := some { existed := false } }
  | some s =>
    if s.expired now then none
    else
      match s.value with
      | .other _ => none
      | .stream stub log =>
        some ⟨some ⟨.stream stub { log with j := some {} }, s.expiresAt⟩,
          some { existed := true }⟩

/-- One key of `End`: the journal goes, and the log may spill again. -/
def Cell.ended (env : Env) (c : Cell) : Cell where
  slot :=
    match c.slot with
    | some ⟨.stream stub log, expiresAt⟩ =>
      if log.j.isSome then
        some ⟨.stream stub ({ log with j := none }.spillCold env), expiresAt⟩
      else c.slot
    | other => other
  item := none

/-- The keys in their order, each once; stops at the first refusal. -/
def beginKeys (now : Int64) : List Bytes → List Bytes → (Bytes → Cell) →
    (Bytes → Cell) × List Bytes × Bool
  | [], done, cells => (cells, done, true)
  | key :: keys, done, cells =>
    if key ∈ done then beginKeys now keys done cells
    else
      match (cells key).begin now with
      | none => (cells, done, false)
      | some c => beginKeys now keys (done ++ [key]) (Function.update cells key c)

def endTx (env : Env) (s : Store) : Store where
  cell key := if key ∈ s.tx.getD [] then (s.cell key).ended env else s.cell key
  tx := none

def beginStreamTx (env : Env) (now : Int64) (keys : List Bytes) (s : Store) : Store × Bool :=
  if s.tx.isSome then (s, false)
  else
    match beginKeys now keys [] s.cell with
    | (cells, done, true) => (⟨cells, some done⟩, true)
    | (cells, done, false) => (endTx env ⟨cells, some done⟩, false)

/-- `rollbackStreamItem`.  The log is the one the transaction began with when it has a journal. -/
def Cell.rollback (c : Cell) : Except StreamError Cell :=
  match c.item with
  | none => .ok c
  | some item =>
    if item.lost then .error .cannotUndo
    else if !item.existed then .ok (if c.slot.isSome then c.removed else c)
    else
      match c.slot with
      | some ⟨.stream stub log, expiresAt⟩ =>
        match log.j with
        | none => .error .cannotUndo
        | some j =>
          match if j.touched then (log.undo j).map fun b => { b with j := some j }
            else some log with
          | none => .error .panic
          | some log =>
            let (stub, expiresAt) := item.preStub.getD (stub, expiresAt)
            .ok { c with slot := some ⟨.stream stub log, expiresAt⟩ }
      | _ => .error .cannotUndo

def rollbackCell : CellM Unit := fun c =>
  match c.rollback with
  | .ok c' => (.ok (), c')
  | .error e => (.error e, c)

def rollbackKeys : List Bytes → StoreM Unit
  | [] => pure ()
  | key :: keys => do
      onKey key rollbackCell
      rollbackKeys keys

/-- `Rollback`: the keys from the last to the first. -/
def rollback : StoreM Unit := fun s => rollbackKeys (s.tx.getD []).reverse s

/-! ## Commands -/

/-- The commands on one key. -/
inductive KeyCommand where
  | add (spec : AddID) (fields : Fields) (o : AddOptions)
  | addWithPolicy (spec : AddID) (fields : Fields) (o : AddOptions) (policy : RefPolicy)
  | delete (ids : List StreamID)
  | trimMaxLen (maxLen limit : Int)
  | trimMinID (minID : StreamID) (limit : Int)
  | trimMaxLenWithPolicy (maxLen limit : Int) (policy : RefPolicy)
  | trimMinIDWithPolicy (minID : StreamID) (limit : Int) (policy : RefPolicy)
  | deleteEx (ids : List StreamID) (policy : RefPolicy)
  | ackDelete (group : Bytes) (ids : List StreamID) (policy : RefPolicy)
  | groupCreate (group : Bytes) (spec : GroupID) (mkstream : Bool) (entriesRead : Int64)
  | groupDestroy (group : Bytes)
  | groupSetID (group : Bytes) (spec : GroupID) (entriesRead : Option Int64)
  | groupCreateConsumer (group consumer : Bytes)
  | groupDeleteConsumer (group consumer : Bytes)
  | groupAck (group : Bytes) (ids : List StreamID)
  | groupClaim (group consumer : Bytes) (minIdleMS : Int64) (ids : List StreamID)
      (o : ClaimOptions)
  | groupAutoClaim (group consumer : Bytes) (minIdleMS : Int64) (start : StreamID) (count : Int)
      (justID : Bool)

def KeyCommand.run (call : Call) : KeyCommand → CellM Unit
  | .add spec fields o => discard (streamAdd call spec fields o)
  | .addWithPolicy spec fields o policy => discard (streamAddWithPolicy call spec fields o policy)
  | .delete ids => discard (streamDelete call ids)
  | .trimMaxLen maxLen limit => discard (streamTrimMaxLen call maxLen limit)
  | .trimMinID minID limit => discard (streamTrimMinID call minID limit)
  | .trimMaxLenWithPolicy maxLen limit policy =>
    discard (streamTrimMaxLenWithPolicy call maxLen limit policy)
  | .trimMinIDWithPolicy minID limit policy =>
    discard (streamTrimMinIDWithPolicy call minID limit policy)
  | .deleteEx ids policy => discard (streamDeleteEx call ids policy)
  | .ackDelete group ids policy => discard (streamAckDelete call group ids policy)
  | .groupCreate group spec mkstream entriesRead =>
    streamGroupCreate call group spec mkstream entriesRead
  | .groupDestroy group => discard (streamGroupDestroy call group)
  | .groupSetID group spec entriesRead => streamGroupSetID call group spec entriesRead
  | .groupCreateConsumer group consumer => discard (streamGroupCreateConsumer call group consumer)
  | .groupDeleteConsumer group consumer => discard (streamGroupDeleteConsumer call group consumer)
  | .groupAck group ids => discard (streamGroupAck call group ids)
  | .groupClaim group consumer minIdleMS ids o =>
    discard (streamGroupClaim call group consumer minIdleMS ids o)
  | .groupAutoClaim group consumer minIdleMS start count justID =>
    discard (streamGroupAutoClaim call group consumer minIdleMS start count justID)

inductive Command where
  | one (key : Bytes) (cmd : KeyCommand)
  /-- XREADGROUP. -/
  | groupRead (group consumer : Bytes) (keys : List Bytes) (cursors : List ReadCursor)
      (count : Int) (noAck : Bool)

def Command.keys : Command → List Bytes
  | .one key _ => [key]
  | .groupRead _ _ keys _ _ _ => keys

/-- The loop of `StreamGroupRead`; what it did before an error stays. -/
def groupReadLoop (call : Call) (group consumer : Bytes) (count : Int) (noAck : Bool) :
    List (Bytes × ReadCursor) → StoreM Unit
  | [] => pure ()
  | (key, cursor) :: rest => do
      discard (onKey key (streamGroupReadKey call group consumer cursor count noAck))
      groupReadLoop call group consumer count noAck rest

def Command.execute (call : Call) : Command → StoreM Unit
  | .one key cmd => onKey key (cmd.run call)
  | .groupRead group consumer keys cursors count noAck =>
    if keys.length ≠ cursors.length then Action.fail .mismatched
    else if count ≤ 0 then Action.fail .count
    else groupReadLoop call group consumer count noAck (keys.zip cursors)

end Stream
end SnugKV
