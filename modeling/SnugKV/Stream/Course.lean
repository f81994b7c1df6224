import SnugKV.Stream.GroupInvariant

/-!
# Course — what the stream commands do, step by step

A command loads its key, may append, may store other groups, and trims the log last.  `Works` says
so of a program once, with what each step does to the log and to the groups; what holds of all
commands is then proved by induction on it.

* `Edits` — what a command may do to the groups of a stream;
* `Works` — the steps of a command behind its load, `Runs` — a whole command;
* `streamAdd_runs`, …, `streamGroupAutoClaim_runs` — one lemma for each command.
-/

namespace SnugKV
namespace Stream

open Lib List

/-- An error that is not about the metadata of groups. -/
def Plain (e : StreamError) : Prop := e ≠ .notPackable ∧ e ≠ .corrupt

instance (e : StreamError) : Decidable (Plain e) := inferInstanceAs (Decidable (_ ∧ _))

/-- The groups evolve; if the command is careful they stay orderly, and none is set back unless the
command is free to do so. -/
structure Edits (care : Prop) (free : Bool) (gs gs' : List Group) : Prop where
  evolve : (gs.map Group.name).Nodup → GroupsValid gs' → GroupsEvolve gs gs'
  orderly : care → GroupsOrderly gs → GroupsOrderly gs'
  advance : care → GroupsOrderly gs → free = true ∨ GroupsAdvance gs gs'

/-- How far a command has come: the key does not exist, its stream was loaded, an entry was
appended, the groups were stored. -/
inductive Stage where
  | absent
  | found
  | appended
  | stored

def Stage.early : Stage → Bool
  | .absent | .found => true
  | _ => false

/-- A command may fail with `e` at the stage. -/
def Fails (stage : Stage) (e : StreamError) : Prop := stage.early = true ∧ Plain e

instance (stage : Stage) (e : StreamError) : Decidable (Fails stage e) :=
  inferInstanceAs (Decidable (_ ∧ _))

/-- `undo` leaves a well-formed log, and in a transaction one that shows `base`. -/
def PutsBack (l₀ : Option Log) (base : Log) (log : Body) (undo : Cell → Cell) : Prop :=
  ∀ stub expiresAt item, ∃ log', undo ⟨some ⟨.stream stub log, expiresAt⟩, item⟩ =
      ⟨some ⟨.stream stub log', expiresAt⟩, item⟩ ∧
    (l₀ = none → ∃ l', log'.Keeps none l' [] ∧ l'.Sound) ∧ (l₀ ≠ none → log'.Shows base)

/-- The steps of a command that found the log `base` and the groups `gs`. -/
inductive Works (care : Prop) (free : Bool) (call : Call) (l₀ : Option Log) (gs : List Group)
    (base : Log) : Stage → Body → Log → List StreamEntry → {α : Type} → CellM α → Prop
  | pure {stage : Stage} {log : Body} {l : Log} {added : List StreamEntry} {α : Type} (a : α) :
      Works care free call l₀ gs base stage log l added (pure a : CellM α)
  | fail {stage : Stage} {log : Body} {l : Log} {added : List StreamEntry} {α : Type}
      {e : StreamError} (he : Fails stage e) :
      Works care free call l₀ gs base stage log l added (Action.fail e : CellM α)
  | thenPure {stage : Stage} {log : Body} {l : Log} {added : List StreamEntry} {α β : Type}
      {m : CellM α} (h : Works care free call l₀ gs base stage log l added m) (b : β) :
      Works care free call l₀ gs base stage log l added (m >>= fun _ => Pure.pure b)
  | grant {stage : Stage} {log : Body} {l : Log} {added : List StreamEntry} {α : Type} (st : State)
      (size : Nat) {m : CellM α} (h : Works care free call l₀ gs base stage log l added m)
      (hearly : stage.early = true) :
      Works care free call l₀ gs base stage log l added (admitEntry call st size >>= fun _ => m)
  | create {st : State} {l : Log} (hkeeps : st.log.Keeps none l []) (hsound : l.Sound)
      (hadded : st.entriesAdded = l.entriesAdded) (hlast : st.maxDeletedID ≤ st.lastID)
      (hfew : l.entries.length ≤ 1) (hcounted : l.entries.length ≤ l.entriesAdded)
      (horderly : GroupsOrderly st.groups) :
      Works care free call l₀ gs base .absent {} .empty [] (createStream call st)
  | append {log log₁ log₂ : Body} {l l₂ : Log} {added : List StreamEntry} {α : Type}
      {m : CellM α} {e : StreamEntry} (hfields : e.fields ≠ []) (hlt : l.lastID < e.id)
      (hkeeps : log₁.Keeps l₀ (l.append e) (added ++ [e]))
      (hkeeps₂ : log₂.Keeps l₀ l₂ (added ++ [e]))
      (ht : l₂.Trimmed (l.append e))
      (h : Works care free call l₀ gs base .appended log₂ l₂ (added ++ [e]) m) :
      Works care free call l₀ gs base .found log l added (setLog log₂ >>= fun _ => m)
  | publish {stage : Stage} {log : Body} {l : Log} {added : List StreamEntry} {α : Type}
      {m : CellM α} {st : State} {undo : Cell → Cell}
      (hstage : stage = .found ∨ stage = .appended) (hlog : st.log = log)
      (hadded : st.entriesAdded = l.entriesAdded) (hlast : st.maxDeletedID ≤ st.lastID)
      (hedits : Edits care free gs st.groups) (hundo : PutsBack l₀ base log undo)
      (h : Works care free call l₀ gs base .stored log l added m) :
      Works care free call l₀ gs base stage log l added
        (Action.onError (publishStreamState call st) undo >>= fun _ => m)
  | shrink {stage : Stage} {log log' : Body} {l : Log} {added : List StreamEntry}
      (hstage : stage ≠ .absent) (h : log'.Shrinks l₀ l added) :
      Works care free call l₀ gs base stage log l added (setLog log')

/-- A command: `care` is what it must take care of on the stream it finds. -/
inductive Runs (care : Log → List Group → Prop) (free : Bool) (call : Call) :
    {α : Type} → CellM α → Prop
  | fail {α : Type} {e : StreamError} (he : Plain e) :
      Runs care free call (Action.fail e : CellM α)
  | loadLog {α : Type} {k : Option (Bytes × Body) → CellM α}
      (hnone : Works True free call none [] .empty .absent {} .empty [] (k none))
      (hsome : ∀ l₀ stub log l p added, log.Keeps l₀ l added → l.Sound → Stored stub p →
        Works (care l p.normalize.groups) free call l₀ p.normalize.groups l .found log l added
          (k (some (stub, log)))) :
      Runs care free call (loadLog call.now >>= k)

theorem admitEntry_meets {call : Call} {P : Cell → Prop} (st : State) (size : Nat) :
    Action.Meets P (admitEntry call st size) (fun _ => P) fun e c' => Plain e ∧ P c' := by
  intro x hx
  unfold admitEntry
  by_cases hlarge : streamTooLarge call (st.log.dataBytes + size + streamStubAllowance st.groups)
      (streamStubAllowance st.groups) = true
  · rw [if_pos hlarge]
    exact ⟨by decide, hx⟩
  · rw [if_neg hlarge]
    by_cases hgrant : (!call.admitGrowth x (streamAddGrowth size)) = true
    · rw [if_pos hgrant]
      exact ⟨by decide, hx⟩
    · rw [if_neg hgrant]
      exact hx

/-! ## Rules -/

variable {st : State}

section Rules

variable {α β : Type} {care : Prop} {free : Bool} {call : Call} {l₀ : Option Log} {gs : List Group}
  {base : Log} {stage : Stage} {log : Body} {l : Log} {added : List StreamEntry}

variable {m m' : CellM α}

theorem Works.ite {c : Prop} [Decidable c]
    (ht : c → Works care free call l₀ gs base stage log l added m)
    (he : ¬ c → Works care free call l₀ gs base stage log l added m') :
    Works care free call l₀ gs base stage log l added (if c then m else m') := by
  split_ifs with hc
  · exact ht hc
  · exact he hc

theorem Works.bind_ofOption {e : StreamError} (he : Fails stage e) {o : Option β} {k : β → CellM α}
    (h : ∀ b, o = some b → Works care free call l₀ gs base stage log l added (k b)) :
    Works care free call l₀ gs base stage log l added (Action.ofOption e o >>= k) := by
  cases o with
  | none => exact .fail he
  | some b => exact h b rfl

theorem Works.bind_ofExcept {r : Except StreamError β} (hr : ∀ e, r = .error e → Fails stage e)
    {k : β → CellM α}
    (h : ∀ b, r = .ok b → Works care free call l₀ gs base stage log l added (k b)) :
    Works care free call l₀ gs base stage log l added (Action.ofExcept r >>= k) := by
  cases r with
  | error e => exact .fail (hr e rfl)
  | ok b => exact h b rfl

/-- Storing groups, with nothing to take back if that fails. -/
theorem Works.store (hkeeps : log.Keeps l₀ l added) (hsound : l.Sound) (hlog : st.log = log)
    (hadded : st.entriesAdded = l.entriesAdded) (hlast : st.maxDeletedID ≤ st.lastID)
    (hedits : Edits care free gs st.groups)
    (h : Works care free call l₀ gs l .stored log l added m) :
    Works care free call l₀ gs l .found log l added
      (publishStreamState call st >>= fun _ => m) := by
  have hundo : PutsBack l₀ l log id := by
    intro stub expiresAt item
    refine ⟨log, rfl, ?_, fun _ => hkeeps.shows⟩
    rintro rfl
    exact ⟨l, hkeeps, hsound⟩
  have hworks := Works.publish (.inl rfl) hlog hadded hlast hedits hundo h
  rwa [Action.onError_id] at hworks

theorem Works.store_last (hkeeps : log.Keeps l₀ l added) (hsound : l.Sound) {p : PackedStream}
    {gs' : List Group} (hedits : Edits care free p.normalize.groups gs') :
    Works care free call l₀ p.normalize.groups l .found log l added
      (publishStreamState call { stateOf log l p with groups := gs' }) := by
  have hworks : Works care free call l₀ p.normalize.groups l .found log l added
      (publishStreamState call { stateOf log l p with groups := gs' } >>= fun _ => Pure.pure ()) :=
    .store hkeeps hsound rfl rfl hsound.deleted hedits (.pure ())
  rwa [bind_pure_unit] at hworks

variable {careful : Log → List Group → Prop}

theorem Runs.ite {c : Prop} [Decidable c]
    (ht : c → Runs careful free call m) (he : ¬ c → Runs careful free call m') :
    Runs careful free call (if c then m else m') := by
  split_ifs with hc
  · exact ht hc
  · exact he hc

theorem Runs.discard (h : Runs careful free call m) :
    Runs careful free call (Functor.discard m) := by
  change Runs careful free call (m >>= fun _ => pure ())
  cases h with
  | fail he => exact .fail he
  | loadLog hnone hsome =>
    rw [bind_assoc]
    exact .loadLog (hnone.thenPure ()) fun l₀ stub log l p added hkeeps hsound hstored =>
      (hsome l₀ stub log l p added hkeeps hsound hstored).thenPure ()

theorem Runs.load {k : Option State → CellM α}
    (hnone : Works True free call none [] .empty .absent {} .empty [] (k none))
    (hsome : ∀ l₀ log l p added, log.Keeps l₀ l added → l.Sound →
      Works (careful l (PackedStream.normalize p).groups) free call l₀ p.normalize.groups l
        .found log
        l added (k (some (stateOf log l p)))) :
    Runs careful free call (loadStream call.now >>= k) := by
  rw [loadStream, bind_assoc]
  refine .loadLog ?_ fun l₀ stub log l p added hkeeps hsound hstored => ?_
  · rwa [pure_bind]
  · rw [bind_assoc, decoded_bind hkeeps.shows hstored]
    exact hsome l₀ log l p added hkeeps hsound

theorem Runs.loadGroup {name : Bytes} {k : State × Nat × Group → CellM α}
    (hsome : ∀ l₀ log l p added gi g, log.Keeps l₀ l added → l.Sound →
      (PackedStream.normalize p).groups[gi]? = some g → g.name = name →
        Works (careful l p.normalize.groups) free call l₀ p.normalize.groups l .found log l added
          (k (stateOf log l p, gi, g))) :
    Runs careful free call (loadGroup call.now name >>= k) := by
  rw [Stream.loadGroup, bind_assoc]
  refine .load (.fail (by decide)) fun l₀ log l p added hkeeps hsound => ?_
  simp only
  split
  · exact .fail (by decide)
  · next gi hindex =>
      rw [bind_assoc]
      refine .bind_ofOption (by decide) fun g hg => ?_
      rw [pure_bind]
      obtain ⟨hlt, hname, -⟩ := List.findIdx?_eq_some_iff_getElem.1 hindex
      obtain ⟨_, rfl⟩ := List.getElem?_eq_some_iff.1 hg
      exact hsome l₀ log l p added gi _ hkeeps hsound hg (by simpa using hname)

end Rules

/-! ## Commands on entries -/

section Commands

variable {care : Prop} {careful : Log → List Group → Prop} {free : Bool} {call : Call}
  {l₀ : Option Log} {gs : List Group} {base : Log} {stage : Stage} {log : Body} {l : Log}
  {p : PackedStream} {added : List StreamEntry}

theorem Thinned.edits {gs gs' : List Group} (h : Thinned gs gs') : Edits care free gs gs' :=
  ⟨fun hnodup _ => h.shape.evolve hnodup, fun _ ho => h.orderly ho, fun _ ho =>
    .inr (h.advance ho.names)⟩

theorem plain_of_resolve {spec : AddID} {nowMS : UInt64} {last : StreamID} (e : StreamError)
    (h : resolveStreamAddID spec nowMS last = .error e) : Plain e := by
  unfold resolveStreamAddID nextAutomaticStreamID nextPartialStreamID at h
  split at h
  · simp only at h
    split_ifs at h <;> cases h <;> decide
  · split_ifs at h <;> cases h <;> decide
  · split_ifs at h <;> cases h <;> decide

/-- Whether the key exists, and what XADD starts from. -/
inductive Begins : Bool → Stage → Option Log → Body → Log → PackedStream → List StreamEntry → Prop
  | stream {l₀ : Option Log} {log : Body} {l : Log} {p : PackedStream} {added : List StreamEntry} :
      Begins true .found l₀ log l p added
  | nothing : Begins false .absent none {} .empty {} []

variable {existing : Bool} {fields : Fields}

theorem Begins.early (h : Begins existing stage l₀ log l p added) : stage.early = true := by
  cases h <;> rfl

/-- The stream of one entry at the most that XADD creates. -/
theorem Works.create_first {l' : Log} {e : StreamEntry}
    (hsound : (Log.empty.append e).Sound) (hkeeps : st.log.Keeps none l' [])
    (ht : l'.Trimmed (Log.empty.append e)) (hadded : st.entriesAdded = l'.entriesAdded)
    (hlast : st.maxDeletedID ≤ st.lastID) (horderly : GroupsOrderly st.groups) :
    Works care free call none gs base .absent {} .empty [] (createStream call st) := by
  have hlen : l'.entries.length ≤ 1 := ht.entries.length_le
  refine .create hkeeps (hsound.trimmed ht) hadded hlast hlen ?_ horderly
  rw [ht.entriesAdded]
  exact hlen

theorem groupsOrderly_nil : GroupsOrderly [] := ⟨nodup_nil, nofun⟩

theorem addEntry_works (hb : Begins existing stage l₀ log l p added)
    (hkeeps : log.Keeps l₀ l added) (hsound : l.Sound) (spec : AddID)
    (hne : fields.list ≠ []) (o : AddOptions) :
    Works care free call l₀ p.normalize.groups l stage log l added
      (addEntry call existing (stateOf log l p) spec fields o) := by
  have hearly := hb.early
  refine .bind_ofExcept (fun e he => ⟨hearly, plain_of_resolve e he⟩) fun id hid => ?_
  have hlt : l.lastID < id := lt_of_resolve hid
  refine .ite (fun _ => .fail ⟨hearly, by decide⟩) fun _ => ?_
  refine .grant _ _ (.bind_ofOption ⟨hearly, by decide⟩ fun st hst => ?_) hearly
  obtain ⟨log₁, rfl, hkeeps₁⟩ := keeps_stateAppend hkeeps hsound hne hlt hst
  have hsound₁ := hsound.append (e := ⟨id, fields.list⟩) hne hlt
  refine .bind_ofOption ⟨hearly, by decide⟩ fun log₂ hlog₂ => ?_
  obtain ⟨l₂, hkeeps₂, ht⟩ := shrinks_trimByOptions hkeeps₁ hsound₁ hlog₂
  cases hb with
  | stream =>
    exact .append (e := ⟨id, fields.list⟩) hne hlt hkeeps₁ hkeeps₂ ht (.pure _)
  | nothing =>
    refine .ite nofun fun _ => .thenPure ?_ _
    exact .create_first hsound₁ hkeeps₂ ht ht.entriesAdded.symm hsound₁.deleted groupsOrderly_nil

theorem streamAdd_runs (spec : AddID) (fields : Fields) (o : AddOptions) :
    Runs careful free call (streamAdd call spec fields o) := by
  refine .ite (fun _ => .fail (by decide)) fun hne => ?_
  refine .ite (fun _ => .fail (by decide)) fun _ => ?_
  refine .load ?_ fun l₀ log l p added hkeeps hsound =>
    addEntry_works .stream hkeeps hsound spec hne o
  exact .ite (fun _ => .pure _) fun _ => addEntry_works .nothing keeps_empty Log.empty_sound spec
    hne o

theorem streamDelete_runs (ids : List StreamID) :
    Runs careful free call (streamDelete call ids) := by
  refine .loadLog (.pure _) fun l₀ stub log l p added hkeeps hsound _ => ?_
  refine .bind_ofOption (by decide) fun existing hexisting => ?_
  refine .ite (fun _ => .pure _) fun hne => ?_
  refine .bind_ofOption (by decide) fun ⟨log', k⟩ hr => .thenPure (.shrink (by simp) ?_) _
  exact shrinks_deleteExisting hkeeps hsound hexisting hne hr

theorem streamTrimMaxLen_runs (maxLen limit : Int) :
    Runs careful free call (streamTrimMaxLen call maxLen limit) := by
  refine .ite (fun _ => .fail (by decide)) fun _ => ?_
  refine .loadLog (.pure _) fun l₀ stub log l p added hkeeps hsound _ => ?_
  refine .ite (fun _ => .pure _) fun _ => ?_
  refine .bind_ofOption (by decide) fun ⟨log', removed⟩ hr => .thenPure (.shrink (by simp) ?_) _
  exact shrinks_trimFront hkeeps hsound hr

theorem streamTrimMinID_runs (minID : StreamID) (limit : Int) :
    Runs careful free call (streamTrimMinID call minID limit) := by
  refine .ite (fun _ => .fail (by decide)) fun _ => ?_
  refine .loadLog (.pure _) fun l₀ stub log l p added hkeeps hsound _ => ?_
  refine .bind_ofOption (by decide) fun remove _ => ?_
  refine .ite (fun _ => .pure _) fun _ => ?_
  refine .bind_ofOption (by decide) fun ⟨log', removed⟩ hr => .thenPure (.shrink (by simp) ?_) _
  exact shrinks_trimFront hkeeps hsound hr

/-! The commands with a policy -/

/-- The trim behind the planning, whether the groups were stored or not. -/
theorem applyPlans_works {α : Type} (hstage : stage ≠ .absent) (hkeeps : log.Keeps l₀ l added)
    (hsound : l.Sound) (plans : List TrimPlan) (f : Nat → α) :
    Works care free call l₀ gs base stage log l added (do
      let (log, removed) ← Action.ofOption .panic (applyTrimPlans log plans)
      setLog log
      pure (f removed)) := by
  obtain ⟨⟨log', removed⟩, hr⟩ := applyTrimPlans_some hkeeps plans
  rw [hr]
  exact .thenPure (.shrink hstage (shrinks_applyTrimPlans hkeeps hsound hr)) _

/-- Undoing an append gives the old log back, or outside a transaction panics and leaves the new
one. -/
theorem putsBack_append (hkeeps : log.Keeps l₀ l added) (hsound : l.Sound) {id : StreamID}
    (hne : fields.list ≠ []) (hlt : l.lastID < id)
    (hst : (stateOf log l p).append call existing id fields.list = some st) :
    PutsBack l₀ l st.log (rollbackLog log.mark) := by
  intro stub expiresAt item
  obtain ⟨b, hb, rfl⟩ := Option.map_eq_some_iff.1 hst
  obtain ⟨log₁, hlog₁, hkeeps₁⟩ := keeps_stateAppend hkeeps hsound hne hlt hst
  have hlog : b.syncLog id l.maxDeletedID ((l.entriesAdded + 1) % 2 ^ 64) = log₁ :=
    congrArg State.log hlog₁
  refine ⟨_, rfl, ?_, fun hin => ?_⟩ <;> simp only [stateOf]
  · rintro rfl
    rcases hback : (b.syncLog id l.maxDeletedID ((l.entriesAdded + 1) % 2 ^ 64)).rollback log.mark
      with - | b₀
    · exact ⟨_, hlog ▸ hkeeps₁, hsound.append hne hlt⟩
    · refine ⟨l, ⟨?_, rollback_append hkeeps.2 hb rfl hback⟩, hsound⟩
      obtain ⟨chunks, -, rfl⟩ := Option.map_eq_some_iff.1 hback
      rw [hlog]
      exact hkeeps₁.1
  · -- the journal keeps the log from spilling
    have hj : log.j.isSome = true := by
      obtain ⟨l₀, rfl⟩ := Option.ne_none_iff_exists'.1 hin
      obtain ⟨j, hj⟩ := hkeeps
      rw [hj.attached]
      rfl
    obtain ⟨b₀, hback, hshows⟩ := rollback_shows
      (b.syncLog id l.maxDeletedID ((l.entriesAdded + 1) % 2 ^ 64)) (rollback_mark log)
      (hkeeps.shows.congr rfl rfl rfl ⟨rfl, rfl, rfl⟩)
      fun chunks h => rollbackChunks_append hb hj (mark_coherent log) h
    rw [hback]
    exact hshows

theorem addEntryWithPolicy_works (hb : Begins existing stage l₀ log l p added)
    (hkeeps : log.Keeps l₀ l added) (hsound : l.Sound) (spec : AddID)
    (hne : fields.list ≠ []) (o : AddOptions) (policy : RefPolicy) :
    Works care free call l₀ p.normalize.groups l stage log l added
      (addEntryWithPolicy call existing (stateOf log l p) spec fields o policy) := by
  have hearly := hb.early
  refine .bind_ofExcept (fun e he => ⟨hearly, plain_of_resolve e he⟩) fun id hid => ?_
  have hlt : l.lastID < id := lt_of_resolve hid
  refine .grant _ _ (.bind_ofOption ⟨hearly, by decide⟩ fun st hst => ?_) hearly
  have hback := putsBack_append hkeeps hsound hne hlt hst
  obtain ⟨log₁, rfl, hkeeps₁⟩ := keeps_stateAppend hkeeps hsound hne hlt hst
  have hsound₁ := hsound.append (e := ⟨id, fields.list⟩) hne hlt
  refine .bind_ofOption ⟨hearly, by decide⟩ fun ⟨plans, st₂, changed⟩ hplan => ?_
  obtain ⟨hthin, hst₂⟩ := thins_planAdd hplan
  have hlog : st₂.log = log₁ := by rw [hst₂]; rfl
  have hadded : st₂.entriesAdded = (l.append ⟨id, fields.list⟩).entriesAdded := by rw [hst₂]; rfl
  have hlast : st₂.maxDeletedID ≤ st₂.lastID := by
    rw [hst₂]
    exact hsound₁.deleted
  cases hb with
  | stream =>
    simp only [hlog]
    refine .append (e := ⟨id, fields.list⟩) hne hlt hkeeps₁ hkeeps₁
      ⟨Sublist.refl _, rfl, rfl, hsound₁.deleted⟩ ?_
    refine .ite (fun _ => ?_) fun _ => applyPlans_works (by simp) hkeeps₁ hsound₁ plans
      fun _ => some id
    exact .publish (.inr rfl) hlog hadded hlast hthin.edits hback
      (applyPlans_works (by simp) hkeeps₁ hsound₁ plans fun _ => some id)
  | nothing =>
    simp only [hlog]
    refine .bind_ofOption (by decide) fun ⟨log₂, k⟩ hr => ?_
    obtain ⟨l₂, hkeeps₂, ht⟩ := shrinks_applyTrimPlans hkeeps₁ hsound₁ hr
    refine .thenPure ?_ _
    exact .create_first hsound₁ hkeeps₂ ht (hadded.trans ht.entriesAdded.symm) hlast
      (hthin.orderly groupsOrderly_nil)

theorem streamAddWithPolicy_runs (spec : AddID) (fields : Fields) (o : AddOptions)
    (policy : RefPolicy) :
    Runs careful free call (streamAddWithPolicy call spec fields o policy) := by
  refine .ite (fun _ => .fail (by decide)) fun hne => ?_
  refine .ite (fun _ => .fail (by decide)) fun _ => ?_
  refine .load ?_ fun l₀ log l p added hkeeps hsound =>
    addEntryWithPolicy_works .stream hkeeps hsound spec hne o policy
  exact .ite (fun _ => .pure _) fun _ =>
    addEntryWithPolicy_works .nothing keeps_empty Log.empty_sound spec hne o policy

theorem streamTrimWithPolicy_runs {plan : State → Option (TrimPlan × State × Bool)}
    (hplan : ∀ st pl st' changed, plan st = some (pl, st', changed) → st.Thins st') :
    Runs careful free call (streamTrimWithPolicy call plan) := by
  refine .load (.pure _) fun l₀ log l p added hkeeps hsound => ?_
  refine .bind_ofOption (by decide) fun ⟨pl, st', changed⟩ hpl => ?_
  obtain ⟨hthin, hst⟩ := hplan _ _ _ _ hpl
  have hlog : st'.log = log := by rw [hst]; rfl
  refine .ite (fun _ => .pure _) fun _ => ?_
  simp only [hlog]
  refine .ite (fun _ => ?_) fun _ => applyPlans_works (by simp) hkeeps hsound [pl] id
  refine .store hkeeps hsound hlog ?_ ?_ hthin.edits
    (applyPlans_works (by simp) hkeeps hsound [pl] id)
  · rw [hst]
    rfl
  · rw [hst]
    exact hsound.deleted

theorem streamTrimMaxLenWithPolicy_runs (maxLen limit : Int) (policy : RefPolicy) :
    Runs careful free call (streamTrimMaxLenWithPolicy call maxLen limit policy) :=
  .ite (fun _ => .fail (by decide)) fun _ =>
    streamTrimWithPolicy_runs fun _ _ _ _ h => thins_planTrimMaxLen h

theorem streamTrimMinIDWithPolicy_runs (minID : StreamID) (limit : Int) (policy : RefPolicy) :
    Runs careful free call (streamTrimMinIDWithPolicy call minID limit policy) :=
  .ite (fun _ => .fail (by decide)) fun _ =>
    streamTrimWithPolicy_runs fun _ _ _ _ h => thins_planTrimMinID h

theorem commitStreamChange_works (hkeeps : log.Keeps l₀ l added) (hsound : l.Sound) {g : Gather}
    (hg : Gathers log l gs g) :
    Works care free call l₀ gs l .found log l added (commitStreamChange call g) := by
  refine .ite (fun _ => .pure _) fun _ => ?_
  simp only [hg.log]
  -- the deletion comes last, whether the groups were stored or not
  have hdelete : ∀ stage, stage ≠ .absent → Works care free call l₀ gs l stage log l added (do
      let (log, _) ← Action.ofOption .panic (log.delete g.toDelete)
      setLog (log.syncLog g.st.lastID g.st.maxDeletedID g.st.entriesAdded)) := by
    intro stage hstage
    obtain ⟨log', hr, -⟩ := keeps_delete_only hkeeps g.toDelete
    rw [hr, hg.lastID, hg.entriesAdded]
    exact .shrink hstage (shrinks_deleteTo hkeeps hr hg.le hg.bound hg.moved)
  refine .ite (fun _ => ?_) fun _ => hdelete _ (by simp)
  refine .store hkeeps hsound hg.log hg.entriesAdded ?_ hg.thin.edits (hdelete _ (by simp))
  rw [hg.lastID]
  exact hg.bound

theorem streamDeleteEx_runs (ids : List StreamID) (policy : RefPolicy) :
    Runs careful free call (streamDeleteEx call ids policy) := by
  refine .load (.pure _) fun l₀ log l p added hkeeps hsound => ?_
  refine .bind_ofOption (by decide) fun g hg => .thenPure ?_ _
  exact commitStreamChange_works hkeeps hsound
    (gathers_deleteExLoop hkeeps.shows hsound (gathers_start hsound) hg)

theorem streamAckDelete_runs (group : Bytes) (ids : List StreamID) (policy : RefPolicy) :
    Runs careful free call (streamAckDelete call group ids policy) := by
  refine .load (.pure _) fun l₀ log l p added hkeeps hsound => ?_
  refine .bind_ofOption (by decide) fun gi _ => ?_
  refine .bind_ofOption (by decide) fun g hg => .thenPure ?_ _
  exact commitStreamChange_works hkeeps hsound
    (gathers_ackDeleteLoop hkeeps.shows hsound (gathers_start hsound) hg)

end Commands

/-! ## Commands on groups -/

section GroupCommands

variable {care : Prop} {careful : Log → List Group → Prop} {free : Bool} {call : Call}
  {l₀ : Option Log} {log : Body} {l : Log} {p : PackedStream} {added : List StreamEntry}
  {g g' : Group}

/-- Storing one group: its consumers evolve, it stays orderly and does not go back. -/
theorem publishGroup_works (hkeeps : log.Keeps l₀ l added) (hsound : l.Sound) {gi : Nat}
    (hgi : p.normalize.groups[gi]? = some g) (hname : g'.name = g.name)
    (hcons : (g'.consumers.map Consumer.name).Nodup →
      Evolves Consumer.name g.consumers g'.consumers)
    (horderly : care → g.Orderly → g'.Orderly)
    (hmoves : care → free = true ∨ g.lastDeliveredID ≤ g'.lastDeliveredID) :
    Works care free call l₀ p.normalize.groups l .found log l added
      (publishGroup call (stateOf log l p) gi g') := by
  have hmem := mem_of_getElem? hgi
  refine .store_last hkeeps hsound ⟨fun hnodup hvalid => ?_, fun hc ho => ?_, fun hc ho => ?_⟩
  · obtain ⟨hlt, -⟩ := List.getElem?_eq_some_iff.1 hgi
    exact groupsEvolve_set hnodup hgi hname
      (hcons (hvalid.groups g' (List.mem_set hlt _)).consumers)
  · exact ho.set hgi hname (horderly hc (ho.groups g hmem))
  · exact (hmoves hc).imp_right fun hle => related_set ho.names (fun _ => le_rfl) hgi hname hle

theorem publishGroup_tends (hkeeps : log.Keeps l₀ l added) (hsound : l.Sound) {gi : Nat}
    (hgi : p.normalize.groups[gi]? = some g) (h : g.Tends g') :
    Works care free call l₀ p.normalize.groups l .found log l added
      (publishGroup call (stateOf log l p) gi g') :=
  publishGroup_works hkeeps hsound hgi h.grown.1 (fun hnodup => evolves_of_grown hnodup h.grown.2)
    (fun _ => h.orderly) fun _ => .inr (le_of_eq h.last.symm)

theorem streamGroupCreate_runs (group : Bytes) (spec : GroupID) (mkstream : Bool)
    (entriesRead : Int64) :
    Runs careful free call (streamGroupCreate call group spec mkstream entriesRead) := by
  have hnew : ∀ id, (⟨group, id, entriesRead, [], []⟩ : Group).Orderly := fun id =>
    ⟨by simp, by simp, by simp, by simp, by simp⟩
  refine .ite (fun _ => .fail (by decide)) fun _ => ?_
  refine .load ?_ fun l₀ log l p added hkeeps hsound => ?_
  · refine .ite (fun _ => .fail (by decide)) fun _ => ?_
    refine .ite (fun _ => .fail (by decide)) fun _ => ?_
    have hlog : ({} : State).log.Keeps none .empty [] := keeps_empty
    refine .create hlog Log.empty_sound rfl (le_refl _) (by decide) (by decide) ?_
    exact ⟨by simp, fun g hg => by rw [mem_singleton.1 hg]; exact hnew _⟩
  · refine .ite nofun fun _ => ?_
    refine .ite (fun _ => .fail (by decide)) fun hbusy => ?_
    have hfresh : group ∉ p.normalize.groups.map Group.name := by
      simpa [streamGroupIndex, stateOf] using hbusy
    exact .store_last hkeeps hsound ⟨fun hnodup _ => groupsEvolve_concat hnodup hfresh,
      fun _ ho => ho.concat (hnew _) hfresh,
      fun _ ho => .inr (related_concat ho.names (fun _ => le_rfl) hfresh)⟩

theorem streamGroupDestroy_runs (group : Bytes) :
    Runs careful free call (streamGroupDestroy call group) := by
  refine .load (.pure _) fun l₀ log l p added hkeeps hsound => ?_
  simp only
  split
  · exact .pure _
  · next gi _ =>
      have hsub : (p.normalize.groups.eraseIdx gi).Sublist p.normalize.groups := eraseIdx_sublist ..
      exact .thenPure (.store_last hkeeps hsound ⟨fun hnodup _ => groupsEvolve_eraseIdx hnodup gi,
        fun _ ho => ho.sublist hsub,
        fun _ ho => .inr (related_of_subset ho.names (fun _ => le_rfl) hsub.subset)⟩) _

theorem streamGroupSetID_runs (name : Bytes) (spec : GroupID) (entriesRead : Option Int64) :
    Runs careful true call (streamGroupSetID call name spec entriesRead) := by
  refine .ite (fun _ => .fail (by decide)) fun _ => ?_
  refine .loadGroup fun l₀ log l p added gi g hkeeps hsound hgi _ => ?_
  refine publishGroup_works hkeeps hsound hgi ?_ (fun _ => evolves_of_keys_eq ?_) (fun _ hg => ?_)
    fun _ => .inl rfl
  · rfl
  · rfl
  · exact ⟨hg.consumers, hg.times, hg.ids, hg.delivered, hg.owners⟩

theorem streamGroupCreateConsumer_runs (name consumer : Bytes) :
    Runs careful free call (streamGroupCreateConsumer call name consumer) := by
  refine .loadGroup fun l₀ log l p added gi g hkeeps hsound hgi _ => ?_
  refine .ite (fun _ => .pure _) fun hnone => .thenPure (publishGroup_tends hkeeps hsound hgi ?_) _
  have hfresh : consumer ∉ g.consumers.map Consumer.name :=
    streamConsumerIndex_eq_none.1 (by simpa using hnone)
  have hnow := streamNowMillis_nonneg call.later
  refine ⟨⟨rfl, by simp⟩, rfl, fun hg =>
    ⟨?_, fun x hx => ?_, hg.ids, hg.delivered, fun q hq => ?_⟩⟩
  · rw [map_append, map_singleton]
    refine nodup_append.2 ⟨hg.consumers, by simp, fun x hx y hy heq => hfresh ?_⟩
    have hy' : y = consumer := mem_singleton.1 hy
    rw [← hy', ← heq]
    exact hx
  · rcases mem_append.1 hx with hx | hx
    · exact hg.times x hx
    · rw [mem_singleton.1 hx]
      exact ⟨hnow, Int64.le_refl _⟩
  · rw [map_append]
    exact mem_append_left _ (hg.owners q hq)

theorem streamGroupDeleteConsumer_runs (name consumer : Bytes) :
    Runs careful free call (streamGroupDeleteConsumer call name consumer) := by
  refine .loadGroup fun l₀ log l p added gi g hkeeps hsound hgi _ => ?_
  simp only
  split
  · exact .pure _
  · next ci hindex =>
      refine .thenPure (publishGroup_works hkeeps hsound hgi ?_ (fun _ => evolves_of_sublist ?_)
        (fun _ hg => hg.deleteConsumer hindex) fun _ => .inr ?_) _
      · rfl
      · exact (eraseIdx_sublist ..).map _
      · exact le_refl _

theorem streamGroupAck_runs (name : Bytes) (ids : List StreamID) :
    Runs careful free call (streamGroupAck call name ids) := by
  refine .loadGroup fun l₀ log l p added gi g hkeeps hsound hgi _ => ?_
  refine .ite (fun _ => .pure _) fun _ => .thenPure (publishGroup_tends hkeeps hsound hgi ?_) _
  exact ⟨⟨rfl, prefix_rfl⟩, rfl, fun hg => hg.sublist filter_sublist⟩

/-! XREADGROUP -/

theorem visit_induct {σ : Type} {fn : σ → StreamEntry → σ × Bool} {P : σ → Prop}
    (hstep : ∀ s e, P s → P (fn s e).1) {s : σ} (hs : P s) (es : List StreamEntry) :
    P (visit fn s es).1 := by
  induction es generalizing s with
  | nil => exact hs
  | cons e es ih =>
    unfold visit
    split_ifs
    · exact ih (hstep s e hs)
    · exact hstep s e hs

variable {nowMS : Int64} {es entries : List StreamEntry} {consumer : Bytes} {count : Int}
  {noAck : Bool}

theorem readNew_grown (h : st.log.Is es)
    (hrun : readNew st consumer nowMS count noAck g = some (g', entries)) : g.Grown g' := by
  unfold readNew at hrun
  simp only [forEachFrom_of_is h] at hrun
  have hstart : g.Grown (if g.entriesRead < 0 ∧
      0 ≤ inferStreamGroupEntriesRead st g.lastDeliveredID then
      { g with entriesRead := inferStreamGroupEntriesRead st g.lastDeliveredID } else g) := by
    split_ifs
    · exact ⟨rfl, prefix_rfl⟩
    · exact .refl g
  change g.Grown (g', entries).1
  rw [← Option.some.inj hrun]
  exact visit_induct (P := fun r : Group × List StreamEntry => g.Grown r.1)
    (fun r e hr => hr.trans ⟨rfl, prefix_rfl⟩) hstart _

/-- New entries are not pending already, unless they are delivered without acknowledgement. -/
def ReadsFresh (name : Bytes) (cursor : ReadCursor) (count : Int) (noAck : Bool) (l : Log)
    (gs : List Group) : Prop :=
  cursor = .new → noAck = false → ∀ g ∈ gs, g.name = name →
    ∀ e ∈ firstAfter l.entries g.lastDeliveredID count, e.id ∉ g.pending.map Pending.id

theorem readNew_orderly (hes : Ascending es)
    (his : st.log.Is es) (hnow : 0 ≤ nowMS)
    (hcount : 0 < count)
    (hrun : readNew st consumer nowMS count noAck g = some (g', entries)) (hg : g.Orderly)
    (howner : consumer ∈ g.consumers.map Consumer.name)
    (hfresh : noAck = false →
      ∀ e ∈ firstAfter es g.lastDeliveredID count, e.id ∉ g.pending.map Pending.id) :
    g'.Orderly := by
  obtain ⟨hentries, hconsumers, -, hpending⟩ := readNew_spec his hcount hrun
  cases noAck with
  | true =>
    refine ⟨hconsumers ▸ hg.consumers, hconsumers ▸ hg.times, ?_, ?_, ?_⟩
    · rw [hpending]
      exact hg.ids
    · rw [hpending]
      exact hg.delivered
    · rw [hpending, hconsumers]
      exact hg.owners
  | false =>
    refine hg.deliver hconsumers hpending ?_ (fun e he => ?_) hnow howner
    · rw [hentries]
      exact Pairwise.sublist ((take_sublist ..).trans filter_sublist) hes
    · rw [hentries] at he
      exact hfresh rfl e he

theorem readNew_advance (his : st.log.Is es) (hcount : 0 < count)
    (hrun : readNew st consumer nowMS count noAck g = some (g', entries)) :
    g.lastDeliveredID ≤ g'.lastDeliveredID := by
  obtain ⟨hentries, -, hlast, -⟩ := readNew_spec his hcount hrun
  rw [hlast]
  rcases hlast? : entries.getLast? with - | e
  · exact le_refl _
  · have hmem := mem_of_getLast? hlast?
    rw [hentries] at hmem
    exact le_of_lt (by simpa using (mem_filter.1 (mem_of_mem_take hmem)).2)

theorem streamGroupReadKey_runs (name consumer : Bytes) (cursor : ReadCursor)
    (hcount : 0 < count) (noAck : Bool) :
    Runs (ReadsFresh name cursor count noAck) free call
      (streamGroupReadKey call name consumer cursor count noAck) := by
  have hnow := streamNowMillis_nonneg call.now
  refine .loadGroup fun l₀ log l p added gi g hkeeps hsound hgi hname => ?_
  have hseen : g.Grown { g with
      consumers := ensureStreamConsumer g.consumers consumer (streamNowMillis call.now) false } :=
    ⟨rfl, ensureStreamConsumer_grown ..⟩
  simp only
  -- what was read is stored, with the consumer active if there was anything
  have hfinish : ∀ (g' : Group) (entries : List StreamEntry), g.Grown g' →
      (ReadsFresh name cursor count noAck l p.normalize.groups → g.Orderly → g'.Orderly) →
      g.lastDeliveredID ≤ g'.lastDeliveredID →
      Works (ReadsFresh name cursor count noAck l p.normalize.groups) free call l₀
        p.normalize.groups l .found log l added (do
          publishGroup call (stateOf log l p) gi (if entries = [] then g' else { g' with
              consumers :=
                ensureStreamConsumer g'.consumers consumer (streamNowMillis call.now) true })
          pure entries) := by
    intro g' entries hgrown horderly hle
    refine .thenPure ?_ _
    split_ifs
    · exact publishGroup_works hkeeps hsound hgi hgrown.1
        (fun hnodup => evolves_of_grown hnodup hgrown.2) horderly fun _ => .inr hle
    · have hgrown' : g.Grown { g' with
          consumers :=
            ensureStreamConsumer g'.consumers consumer (streamNowMillis call.now) true } :=
        hgrown.trans ⟨rfl, ensureStreamConsumer_grown ..⟩
      exact publishGroup_works hkeeps hsound hgi hgrown'.1
        (fun hnodup => evolves_of_grown hnodup hgrown'.2)
        (fun hc hg => (horderly hc hg).withConsumers consumer true hnow) fun _ => .inr hle
  cases cursor with
  | new =>
    refine .bind_ofOption (by decide) fun ⟨g', entries⟩ hr => ?_
    have his : (stateOf log l p).log.Is l.entries := hkeeps.shows.is
    have hle := readNew_advance his hcount hr
    refine hfinish g' entries (hseen.trans (readNew_grown his hr)) (fun hc hg => ?_) hle
    exact readNew_orderly hsound.ascending his hnow hcount hr (hg.withConsumers consumer false hnow)
      (mem_ensureStreamConsumer hg consumer false hnow)
      fun hack => hc rfl hack g (mem_of_getElem? hgi) hname
  | after id =>
    refine .bind_ofOption (by decide) fun ⟨pending, entries⟩ hr => ?_
    refine hfinish _ entries hseen (fun _ hg => ?_) (le_refl _)
    have hg₁ := hg.withConsumers consumer false hnow
    obtain ⟨hsame, hdelivered⟩ := readPendingOf_spec hnow hg₁.delivered hr
    exact hg₁.retime hsame hdelivered

/-! XCLAIM and XAUTOCLAIM -/

theorem plain_of_claimDeliveredAt {o : ClaimOptions} (e : StreamError)
    (h : claimDeliveredAt nowMS o = .error e) : Plain e := by
  unfold claimDeliveredAt at h
  split at h
  · cases h
    decide
  · split_ifs at h
    cases h
    decide
  · split_ifs at h
    cases h
    decide
  · cases h

theorem Group.Tends.sorted (g : Group) : g.Tends { g with pending := sortPending g.pending } :=
  ⟨⟨rfl, prefix_rfl⟩, rfl, fun h =>
    ⟨h.consumers, h.times, h.normalize.ids, h.normalize.delivered, h.normalize.owners⟩⟩

/-- LASTID does not name an id below the one the group has reached. -/
def ClaimsForward (name : Bytes) (o : ClaimOptions) (_ : Log) (gs : List Group) : Prop :=
  ∀ g ∈ gs, g.name = name → ∀ id ∈ o.lastID, g.lastDeliveredID ≤ id

theorem streamGroupClaim_runs (name consumer : Bytes) (minIdleMS : Int64) (ids : List StreamID)
    (o : ClaimOptions) :
    Runs (ClaimsForward name o) free call
      (streamGroupClaim call name consumer minIdleMS ids o) := by
  have hnow := streamNowMillis_nonneg call.later
  refine .ite (fun _ => .fail (by decide)) fun _ => ?_
  refine .loadGroup fun l₀ log l p added gi g hkeeps hsound hgi hname => ?_
  refine .bind_ofExcept (fun e he => ⟨rfl, plain_of_claimDeliveredAt e he⟩)
    fun deliveredAt hdelivered => ?_
  refine .bind_ofOption (by decide) fun claim hclaim => ?_
  have htends := ((seeConsumer_tends hnow g consumer).trans
    (claimLoop_tends hnow (claimDeliveredAt_nonneg hnow hdelivered) hclaim)).trans (.sorted _)
  cases hid : o.lastID with
  | none =>
    exact .ite (fun _ => .thenPure (publishGroup_tends hkeeps hsound hgi htends) _) fun _ => .pure _
  | some id =>
    refine .ite (fun _ => .thenPure ?_ _) fun _ => .pure _
    refine publishGroup_works hkeeps hsound hgi htends.grown.1
      (fun hnodup => evolves_of_grown hnodup htends.grown.2) (fun _ hg => ?_) fun hc =>
        .inr (hc g (mem_of_getElem? hgi) hname id hid)
    have hg' := htends.orderly hg
    exact ⟨hg'.consumers, hg'.times, hg'.ids, hg'.delivered, hg'.owners⟩

theorem streamGroupAutoClaim_runs (name consumer : Bytes) (minIdleMS : Int64) (start : StreamID)
    (count : Int) (justID : Bool) :
    Runs careful free call
      (streamGroupAutoClaim call name consumer minIdleMS start count justID) := by
  have hnow := streamNowMillis_nonneg call.later
  refine .ite (fun _ => .fail (by decide)) fun _ => ?_
  refine .loadGroup fun l₀ log l p added gi g hkeeps hsound hgi _ => ?_
  refine .bind_ofOption (by decide) fun ⟨claim, i, deleted⟩ hclaim => ?_
  refine .ite (fun _ => .thenPure (publishGroup_tends hkeeps hsound hgi ?_) _) fun _ => .pure _
  exact ((Group.Tends.sorted g).trans (seeConsumer_tends hnow _ consumer)).trans
    (autoClaimLoop_tends hnow hclaim)

end GroupCommands

end Stream
end SnugKV
