import SnugKV.Stream.Transaction

/-!
# Rollback — a transaction can be taken back

* `Cell.view` — what a key holds, whatever its representation;
* `Cell.Sound`, `Store.Sound` — the stored parts are well formed;
* `execute_held` — a command under a transaction keeps the invariant of every watched key;
* `rollback_restores` — `Rollback` gives every key back what it held.
-/

namespace SnugKV
namespace Stream

open Lib List

/-! ## What a key holds -/

inductive View where
  | missing
  | stream (log : Log) (groups : List Group) (expiresAt : Int64)
  | other (data : Bytes) (expiresAt : Int64)
  /-- A part does not decode. -/
  | damaged
  deriving DecidableEq, Repr

def Cell.view (c : Cell) : View :=
  match c.slot with
  | none => .missing
  | some ⟨.other data, expiresAt⟩ => .other data expiresAt
  | some ⟨.stream stub log, expiresAt⟩ =>
    match log.all, decodePackedStream stub with
    | some entries, some p =>
      .stream ⟨entries, log.lastID, log.maxDeletedID, log.entriesAdded⟩ p.groups expiresAt
    | _, _ => .damaged

variable {c : Cell} {now : Int64} {keys : List Bytes} {s : Store} {call : Call}
  {start : Option Start} {s' : Store}

theorem view_of_stream {stub : Bytes} {log : Body} {expiresAt : Int64} {l : Log} {p : PackedStream}
    (hslot : c.slot = some ⟨.stream stub log, expiresAt⟩) (hshows : log.Shows l)
    (hstored : Stored stub p) : c.view = .stream l p.normalize.groups expiresAt := by
  rw [Cell.view, hslot]
  simp only [all_of_is hshows.is, hstored.decode, hshows.lastID, hshows.maxDeletedID,
    hshows.entriesAdded]

/-! ## Well-formed stores -/

/-- Outside a transaction. -/
structure Cell.Sound (c : Cell) : Prop where
  idle : c.item = none
  parts : ∀ stub log expiresAt, c.slot = some ⟨.stream stub log, expiresAt⟩ →
    log.j = none ∧ ∃ l p, log.Shows l ∧ l.Sound ∧ Stored stub p

structure Store.Sound (s : Store) : Prop where
  idle : s.tx = none
  cells : ∀ key, (s.cell key).Sound

/-! ## Beginning -/

/-- What a watched key held at the beginning, as `start`. -/
structure Began (c : Cell) (start : Option Start) : Prop where
  missing : start = none → c.slot = none
  stream : ∀ s, start = some s → s.log.Sound ∧ ∃ log p,
    c.slot = some ⟨.stream s.stub log, s.expiresAt⟩ ∧ log.Shows s.log ∧ Stored s.stub p ∧
      s.groups = p.normalize.groups

theorem begin_held {c' : Cell} (h : c.Sound) (hbegin : c.begin now = some c') (call : Call) :
    ∃ start, Began c start ∧ HeldWith Quiet Eq call start c' := by
  unfold Cell.begin at hbegin
  split at hbegin
  · next hslot =>
      cases hbegin
      exact ⟨none, ⟨fun _ => hslot, nofun⟩, .inl ⟨rfl, hslot, rfl⟩⟩
  · next slot hslot =>
      split_ifs at hbegin
      split at hbegin
      · cases hbegin
      · next stub log hvalue =>
          cases hbegin
          obtain ⟨value, expiresAt⟩ := slot
          cases hvalue
          obtain ⟨-, l, p, hshows, hsound, hstored⟩ := h.parts stub log expiresAt hslot
          refine ⟨some ⟨stub, l, p.normalize.groups, expiresAt⟩, ⟨nofun, ?_⟩,
            .inr ⟨stub, { log with j := some {} }, expiresAt, l, p, [], ?_, rfl, ?_⟩⟩
          · rintro s ⟨⟩
            exact ⟨hsound, log, p, hslot, hshows, hstored, rfl⟩
          · exact
              { slot := rfl
                keeps := ⟨{}, tracks_begin hshows hsound.ascending hsound.bounded⟩
                sound := hsound
                stored := hstored
                few := by simp
                made := nofun
                noted := by
                  rintro s ⟨⟩
                  refine ⟨rfl, ?_, { existed := true }, rfl, ?_⟩
                  · exact (Nat.mod_eq_of_lt hsound.added).symm
                  · exact
                      { existed := rfl
                        kept := rfl
                        relates := rfl
                        pre := .inl rfl
                        unpublished := fun _ => rfl
                        published := nofun } }
          · rintro item ⟨⟩
            rfl

/-- The keys done are the ones given, each once, and their cells are begun. -/
theorem beginKeys_spec {done done' : List Bytes} {cells cells' : Bytes → Cell} (hnodup : done.Nodup)
    (h : beginKeys now keys done cells = (cells', done', true)) :
    done'.Nodup ∧ (∀ k, k ∈ done' ↔ k ∈ done ∨ k ∈ keys) ∧
      (∀ k, k ∈ done ∨ k ∉ keys → cells' k = cells k) ∧
      ∀ k ∈ keys, k ∉ done → (cells k).begin now = some (cells' k) := by
  induction keys generalizing done cells with
  | nil =>
    cases h
    exact ⟨hnodup, by simp, fun _ _ => rfl, by simp⟩
  | cons key keys ih =>
    unfold beginKeys at h
    by_cases hdone : key ∈ done
    · rw [if_pos hdone] at h
      obtain ⟨hnd, hmem, hsame, hbegun⟩ := ih hnodup h
      refine ⟨hnd, fun k => ?_, fun k hk => hsame k ?_, fun k hk hnot => hbegun k ?_ hnot⟩
      · rw [hmem, mem_cons]
        exact ⟨fun h => h.imp_right .inr, fun h => h.elim .inl fun h =>
          h.elim (fun heq => .inl (heq ▸ hdone)) .inr⟩
      · exact hk.imp_right fun hnot hin => hnot (mem_cons_of_mem _ hin)
      · exact (mem_cons.1 hk).resolve_left fun heq => hnot (heq ▸ hdone)
    · rw [if_neg hdone] at h
      cases hbegin : (cells key).begin now with
      | none => simp [hbegin] at h
      | some c =>
        simp only [hbegin] at h
        have hnodup' : (done ++ [key]).Nodup := nodup_append.2 ⟨hnodup, by simp, by
            intro x hx y hy heq
            exact hdone (mem_singleton.1 hy ▸ heq ▸ hx)⟩
        obtain ⟨hnd, hmem, hsame, hbegun⟩ := ih hnodup' h
        refine ⟨hnd, fun k => ?_, fun k hk => ?_, fun k hk hnot => ?_⟩
        · rw [hmem, mem_append, mem_singleton, mem_cons, or_assoc]
        · have hne : k ≠ key := by
            rintro rfl
            exact hk.elim hdone fun hnot => hnot (mem_cons_self ..)
          rw [hsame k (hk.imp (mem_append_left _)
            fun hnot hin => hnot (mem_cons_of_mem _ hin)), Function.update_of_ne hne]
        · by_cases heq : k = key
          · subst heq
            rw [hsame k (.inl (by simp)), Function.update_self]
            exact hbegin
          · have hin := (mem_cons.1 hk).resolve_left heq
            have := hbegun k hin (by simp [hnot, heq])
            rwa [Function.update_of_ne heq] at this

theorem beginStreamTx_spec {env : Env} (h : beginStreamTx env now keys s = (s', true)) :
    ∃ done, s'.tx = some done ∧ done.Nodup ∧ (∀ k, k ∈ done ↔ k ∈ keys) ∧
      (∀ k ∉ keys, s'.cell k = s.cell k) ∧
      ∀ k ∈ keys, (s.cell k).begin now = some (s'.cell k) := by
  unfold beginStreamTx at h
  split_ifs at h
  · cases h
  · split at h
    · next cells done hkeys =>
        cases h
        obtain ⟨hnodup, hmem, hsame, hbegun⟩ := beginKeys_spec nodup_nil hkeys
        exact ⟨done, rfl, hnodup, by simpa using hmem, fun k hk => hsame k (.inr hk),
          fun k hk => hbegun k hk (by simp)⟩
    · cases h

/-! ## Running -/

/-- What a command has to take care of on the stream it finds. -/
def KeyCommand.Careful : KeyCommand → Log → List Group → Prop
  | .groupClaim group _ _ _ o => ClaimsForward group o
  | _ => fun _ _ => True

/-- XGROUP SETID is the command that may set a group back. -/
def KeyCommand.setsID : KeyCommand → Bool
  | .groupSetID .. => true
  | _ => false

theorem run_runs (call : Call) (cmd : KeyCommand) :
    Runs cmd.Careful cmd.setsID call (cmd.run call) := by
  cases cmd with
  | add spec fields o => exact (streamAdd_runs spec fields o).discard
  | addWithPolicy spec fields o policy =>
    exact (streamAddWithPolicy_runs spec fields o policy).discard
  | delete ids => exact (streamDelete_runs ids).discard
  | trimMaxLen maxLen limit => exact (streamTrimMaxLen_runs maxLen limit).discard
  | trimMinID minID limit => exact (streamTrimMinID_runs minID limit).discard
  | trimMaxLenWithPolicy maxLen limit policy =>
    exact (streamTrimMaxLenWithPolicy_runs maxLen limit policy).discard
  | trimMinIDWithPolicy minID limit policy =>
    exact (streamTrimMinIDWithPolicy_runs minID limit policy).discard
  | deleteEx ids policy => exact (streamDeleteEx_runs ids policy).discard
  | ackDelete group ids policy => exact (streamAckDelete_runs group ids policy).discard
  | groupCreate group spec mkstream entriesRead =>
    exact streamGroupCreate_runs group spec mkstream entriesRead
  | groupDestroy group => exact (streamGroupDestroy_runs group).discard
  | groupSetID group spec entriesRead => exact streamGroupSetID_runs group spec entriesRead
  | groupCreateConsumer group consumer =>
    exact (streamGroupCreateConsumer_runs group consumer).discard
  | groupDeleteConsumer group consumer =>
    exact (streamGroupDeleteConsumer_runs group consumer).discard
  | groupAck group ids => exact (streamGroupAck_runs group ids).discard
  | groupClaim group consumer minIdleMS ids o =>
    exact (streamGroupClaim_runs group consumer minIdleMS ids o).discard
  | groupAutoClaim group consumer minIdleMS start count justID =>
    exact (streamGroupAutoClaim_runs group consumer minIdleMS start count justID).discard

theorem Held.grown {P : Cell → List StreamEntry → Prop} (h : HeldWith P Eq call start c) :
    Held GroupsGrown call start c := by
  rcases h with h | ⟨stub, log, expiresAt, l, p, added, h, -⟩
  · exact .inl h
  · exact h.grown.held

theorem Held.evolve (h : Held GroupsGrown call start c) : Held GroupsEvolve call start c := by
  rcases h with h | ⟨stub, log, expiresAt, l, p, added, h, -⟩
  · exact .inl h
  · exact h.evolve_of_grown.held

theorem groupReadLoop_held {group consumer : Bytes} {count : Int} {noAck : Bool}
    {start : Bytes → Option Start}
    (hlive : ∀ key ∈ keys, ∀ st, start key = some st → Live st.expiresAt call.now)
    {reads : List (Bytes × ReadCursor)} (hreads : ∀ r ∈ reads, r.1 ∈ keys)
    (hheld : ∀ key ∈ keys, Held GroupsGrown call (start key) (s.cell key))
    (hrun : groupReadLoop call group consumer count noAck reads s = (.ok (), s')) :
    OnlyAt keys (fun key c => Held GroupsGrown call (start key) c) s s' := by
  induction reads generalizing s with
  | nil =>
    cases hrun
    exact ⟨hheld, fun _ _ => rfl, rfl⟩
  | cons r reads ih =>
    obtain ⟨key, cursor⟩ := r
    have hkey : key ∈ keys := hreads (key, cursor) (by simp)
    obtain ⟨_, s₁, hfirst, hrest⟩ := Action.bind_eq_ok.1 hrun
    obtain ⟨entries, s₂, hread, hs₂⟩ := Action.bind_eq_ok.1 hfirst
    cases hs₂
    obtain ⟨c', hc', rfl⟩ := onKey_eq.1 hread
    -- the key read stays held, the others are as before
    have hheld' : ∀ k ∈ keys, Held GroupsGrown call (start k) ((s.set key c').cell k) := by
      intro k hk
      by_cases heq : k = key
      · subst heq
        simp only [Store.set, Function.update_self]
        exact (streamGroupReadKey_held (hlive k hk) group consumer cursor count noAck).ok
          (hheld k hk) hc'
      · simp only [Store.set, Function.update_of_ne heq]
        exact hheld k hk
    obtain ⟨hin, hout, htx⟩ := ih (fun r hr => hreads r (mem_cons_of_mem _ hr)) hheld' hrest
    refine ⟨hin, fun k hk => (hout k hk).trans ?_, htx⟩
    have hne : k ≠ key := fun heq => hk (heq ▸ hkey)
    simp only [Store.set, Function.update_of_ne hne]

/-- A successful command keeps the invariant of its keys. -/
theorem execute_held {cmd : Command} {start : Bytes → Option Start}
    (hlive : ∀ key ∈ cmd.keys, ∀ st, start key = some st → Live st.expiresAt call.now)
    (hheld : ∀ key ∈ cmd.keys, HeldWith Quiet Eq call (start key) (s.cell key))
    (hrun : cmd.execute call s = (.ok (), s')) :
    OnlyAt cmd.keys (fun key c => Held GroupsEvolve call (start key) c) s s' := by
  cases cmd with
  | one key cmd =>
    obtain ⟨c', hc', rfl⟩ := onKey_eq.1 hrun
    refine ⟨fun k hk => ?_, fun k hk => ?_, rfl⟩
    · obtain rfl := mem_singleton.1 hk
      simp only [Store.set, Function.update_self]
      exact ((run_runs call cmd).held (hlive k hk)).ok (hheld k hk) hc'
    · have hne : k ≠ key := fun heq => hk (heq ▸ mem_singleton_self key)
      simp only [Store.set, Function.update_of_ne hne]
  | groupRead group consumer keys cursors count noAck =>
    simp only [Command.execute] at hrun
    split_ifs at hrun
    · cases hrun
    · cases hrun
    · obtain ⟨hin, hout⟩ := groupReadLoop_held hlive
        (fun r hr => (of_mem_zip hr).1) (fun k hk => Held.grown (hheld k hk)) hrun
      exact ⟨fun k hk => (hin k hk).evolve, hout⟩

/-- What a transaction began with, for each of its keys. -/
theorem begin_starts {env : Env} (hs : s.Sound)
    (h : beginStreamTx env now keys s = (s', true)) (call : Call) :
    ∃ start : Bytes → Option Start, ∀ key ∈ keys, Began (s.cell key) (start key) ∧
      HeldWith Quiet Eq call (start key) (s'.cell key) := by
  obtain ⟨-, -, -, -, -, hbegun⟩ := beginStreamTx_spec h
  have hex : ∀ key, ∃ start, key ∈ keys → Began (s.cell key) start ∧
      HeldWith Quiet Eq call start (s'.cell key) := by
    intro key
    by_cases hkey : key ∈ keys
    · obtain ⟨start, hstart⟩ := begin_held (hs.cells key) (hbegun key hkey) call
      exact ⟨start, fun _ => hstart⟩
    · exact ⟨none, fun hin => absurd hin hkey⟩
  choose start hstart using hex
  exact ⟨start, hstart⟩

/-- `End` leaves a well-formed cell. -/
theorem HeldWith.ended {P : Cell → List StreamEntry → Prop} {R : List Group → List Group → Prop}
    (h : HeldWith P R call start c) (env : Env) : (c.ended env).Sound := by
  refine ⟨rfl, fun stub log expiresAt hslot => ?_⟩
  rcases h with ⟨-, hblank⟩ | ⟨stub', log', at', l, p, added, hw, -⟩
  · simp [Cell.ended, hblank.1] at hslot
  · have hshows := hw.keeps.shows
    simp only [Cell.ended, hw.slot] at hslot
    split_ifs at hslot with hj
    · cases hslot
      have hbare : Body.Shows { log' with j := none } l := hshows.congr rfl rfl rfl ⟨rfl, rfl, rfl⟩
      obtain ⟨hnone, hspill⟩ := spillCold_shows env hbare rfl
      exact ⟨hnone, l, p, hspill, hw.sound, hw.stored⟩
    · cases hslot
      exact ⟨by simpa using hj, l, p, hshows, hw.sound, hw.stored⟩

section

-- a transaction on the keys of a command, which succeeds before any of their deadlines
variable {s s₁ s₂ : Store} (hs : s.Sound) {env : Env} {now : Int64}
  {keys : List Bytes} (hbegin : beginStreamTx env now keys s = (s₁, true)) {call : Call}
  {cmd : Command} (hkeys : ∀ key ∈ cmd.keys, key ∈ keys)
  (hlive : ∀ key ∈ cmd.keys, ∀ slot, (s.cell key).slot = some slot →
    slot.expired call.now = false)
  (hrun : cmd.execute call s₁ = (.ok (), s₂))

include hs hbegin hkeys hlive hrun

/-- What holds of the keys of a transaction behind a successful command, if no deadline passed. -/
theorem execute_watched :
    ∃ (done : List Bytes) (start : Bytes → Option Start), s₂.tx = some done ∧ done.Nodup ∧
      (∀ key, key ∈ done ↔ key ∈ keys) ∧ (∀ key ∉ cmd.keys, s₂.cell key = s₁.cell key) ∧
      (∀ key ∉ keys, s₂.cell key = s.cell key) ∧
      ∀ key ∈ keys, Began (s.cell key) (start key) ∧
        Held GroupsEvolve call (start key) (s₂.cell key) := by
  obtain ⟨done, htx, hnodup, hmem, hsame, -⟩ := beginStreamTx_spec hbegin
  obtain ⟨start, hstart⟩ := begin_starts hs hbegin call
  have hlive' : ∀ key ∈ cmd.keys, ∀ st, start key = some st → Live st.expiresAt call.now := by
    intro key hkey st hst
    obtain ⟨-, log, p, hslot, -⟩ := (hstart key (hkeys key hkey)).1.stream st hst
    have := hlive key hkey _ hslot
    simp only [Slot.expired, Bool.and_eq_false_iff, decide_eq_false_iff_not, ne_eq, not_not] at this
    exact this.imp_right Int64.not_le.1
  obtain ⟨hin, hout, htx'⟩ := execute_held hlive'
    (fun key hkey => (hstart key (hkeys key hkey)).2) hrun
  refine ⟨done, start, htx'.trans htx, hnodup, hmem, hout, fun key hkey => ?_, fun key hkey => ?_⟩
  · rw [hout key fun h => hkey (hkeys key h), hsame key hkey]
  · -- a key that is watched only is held as it was when the transaction began
    obtain ⟨hbegan, hheld⟩ := hstart key hkey
    by_cases hcmd : key ∈ cmd.keys
    · exact ⟨hbegan, hin key hcmd⟩
    · rw [hout key hcmd]
      exact ⟨hbegan, (Held.grown hheld).evolve⟩

/-- A successful command between `BeginStreamTx` and `End` keeps the store well formed. -/
theorem execute_sound (env' : Env) : (endTx env' s₂).Sound := by
  obtain ⟨done, start, htx, -, hmem, -, hsame, hheld⟩ :=
    execute_watched hs hbegin hkeys hlive hrun
  refine ⟨rfl, fun key => ?_⟩
  simp only [endTx, htx, Option.getD_some, hmem]
  split_ifs with hkey
  · exact (hheld key hkey).2.ended env'
  · rw [hsame key hkey]
    exact hs.cells key

end

/-! ## Taking back -/

theorem rollback_of_held {c₀ : Cell} {R : List Group → List Group → Prop} (h : Held R call start c)
    (hbegan : Began c₀ start) : ∃ c', c.rollback = .ok c' ∧ c'.view = c₀.view := by
  have hmissing : start = none → c₀.view = .missing := by
    intro hstart
    rw [Cell.view, hbegan.missing hstart]
  rcases h with ⟨hstart, hblank⟩ | ⟨stub, log, expiresAt, l, p, added, hw, -⟩
  · refine ⟨c, ?_, ?_⟩
    · simp [Cell.rollback, hblank.1, hblank.2]
    · rw [hmissing hstart, Cell.view, hblank.1]
  · cases hstart : start with
    | none =>
      -- a key the command made is removed
      obtain ⟨item, hitem, hmade⟩ := hw.made hstart
      refine ⟨c.removed, ?_, ?_⟩
      · simp [Cell.rollback, hitem, hmade.kept, hmade.existed, hw.slot]
      · rw [hmissing hstart]
        rfl
    | some s =>
      subst hstart
      obtain ⟨hat, -, item, hitem, hnoted⟩ := hw.noted s rfl
      obtain ⟨j, htracks⟩ := hw.keeps
      obtain ⟨hsound, log₀, p₀, hslot₀, hshows₀, hstored₀, hgroups₀⟩ := hbegan.stream s rfl
      -- the log shows what it showed then
      obtain ⟨log', hlog', hshows'⟩ : ∃ log', (if j.touched then
          (log.undo j).map fun b => { b with j := some j } else some log) = some log' ∧
          log'.Shows s.log := by
        by_cases htouched : j.touched = true
        · obtain ⟨b, hundo, hshows⟩ := htracks.back
          refine ⟨{ b with j := some j }, ?_, hshows.congr rfl rfl rfl ⟨rfl, rfl, rfl⟩⟩
          rw [if_pos htouched, hundo, Option.map_some]
        · refine ⟨log, by rw [if_neg htouched], ?_⟩
          have := htracks.untouched (by simpa using htouched)
          rw [← this]
          exact htracks.shows
      -- and the stored value is the one noted, or never changed
      have hpre : item.preStub.getD (stub, expiresAt) = (s.stub, s.expiresAt) := by
        rcases hnoted.pre with hpre | hpre
        · have hstub : stub = s.stub := by
            refine hnoted.unpublished ?_
            rcases hgroups : item.groups with - | packed
            · rfl
            · have := (hnoted.published packed hgroups).2.1
              rw [hpre] at this
              cases this
          rw [hpre, Option.getD_none, hstub, hat]
        · rw [hpre, Option.getD_some]
      refine ⟨{ c with slot := some ⟨.stream s.stub log', s.expiresAt⟩ }, ?_, ?_⟩
      · simp only [Cell.rollback, hitem, hnoted.kept, hnoted.existed, hw.slot, htracks.attached,
          Bool.false_eq_true, if_false, Bool.not_true, hlog', hpre]
      · rw [view_of_stream rfl hshows' hstored₀, view_of_stream hslot₀ hshows₀ hstored₀]

theorem rollbackKeys_eq (keys : List Bytes) :
    rollbackKeys keys = eachKey (fun _ => rollbackCell) keys := by
  induction keys with
  | nil => rfl
  | cons key keys ih => rw [rollbackKeys, eachKey, ih]

/-- `Rollback` gives every key back what it held when the transaction began, unless a deadline
passed under the command. -/
theorem rollback_restores {s s₁ s₂ : Store} (hs : s.Sound) {env : Env} {now : Int64}
    {keys : List Bytes} (hbegin : beginStreamTx env now keys s = (s₁, true)) {call : Call}
    {cmd : Command} (hkeys : ∀ key ∈ cmd.keys, key ∈ keys)
    (hlive : ∀ key ∈ cmd.keys, ∀ slot, (s.cell key).slot = some slot →
      slot.expired call.now = false)
    (hrun : cmd.execute call s₁ = (.ok (), s₂)) :
    ∃ s₃, rollback s₂ = (.ok (), s₃) ∧ ∀ key, (s₃.cell key).view = (s.cell key).view := by
  obtain ⟨done, start, htx, hnodup, hmem, -, hsame, hheld⟩ :=
    execute_watched hs hbegin hkeys hlive hrun
  -- every watched key can be taken back
  have hback : ∀ key ∈ done.reverse, ∃ c', rollbackCell (s₂.cell key) = (.ok (), c') ∧
      c'.view = (s.cell key).view := by
    intro key hkey
    obtain ⟨hbegan, hheld⟩ := hheld key ((hmem key).1 (mem_reverse.1 hkey))
    obtain ⟨c', hc', hview⟩ := rollback_of_held hheld hbegan
    exact ⟨c', by rw [rollbackCell, hc'], hview⟩
  obtain ⟨s₃, hrollback, hin₃, hout₃, -⟩ := eachKey_onlyAt (nodup_reverse.2 hnodup) hback
  refine ⟨s₃, ?_, fun key => ?_⟩
  · rw [rollback, htx, rollbackKeys_eq]
    exact hrollback
  · by_cases hkey : key ∈ done.reverse
    · exact hin₃ key hkey
    · have hnot : key ∉ keys := fun h => hkey (mem_reverse.2 ((hmem key).2 h))
      rw [hout₃ key hkey, hsame key hnot]

/-! ## Examples of runs -/

/-- A stream without entries and groups, with a deadline, under the key `k`. -/
def emptyStreamAt (expiresAt : Int64) : Store where
  cell key := if key = [107] then ⟨some ⟨.stream (packedBytes {}) {}, expiresAt⟩, none⟩ else {}

theorem emptyStreamAt_sound (expiresAt : Int64) : (emptyStreamAt expiresAt).Sound := by
  refine ⟨rfl, fun key => ?_⟩
  by_cases hkey : key = [107]
  · simp only [emptyStreamAt, hkey, if_true]
    refine ⟨rfl, ?_⟩
    rintro stub log at' ⟨⟩
    refine ⟨rfl, Log.empty, {}, keeps_empty.2, Log.empty_sound, ?_⟩
    exact ⟨rfl, rfl, ⟨by decide, le_refl _, by simp, Pairwise.nil, by simp⟩, by decide,
      by decide, by decide⟩
  · simp only [emptyStreamAt, hkey, if_false]
    exact ⟨rfl, by simp⟩

/-- The memory limit never refuses and nothing spills. -/
def freeCall (now : Int64) : Call where
  env := { grow := fun _ n => n, le_grow := fun _ _ => le_refl _ }
  now := now
  later := now
  admitGrowth _ _ := true
  admitPublish _ _ := true

def addOne : Command :=
  .one [107] (.add (.exact ⟨1, 1⟩) ⟨[⟨[102], [118]⟩], by simp [StreamField.Fits]⟩ {})

/-- An entry is appended to a stream and taken back. -/
theorem rollback_restores_addOne :
    ∃ s₁ s₂ s₃ : Store, beginStreamTx (freeCall 5).env 5 [[107]] (emptyStreamAt 0) = (s₁, true) ∧
      addOne.execute (freeCall 20) s₁ = (.ok (), s₂) ∧
      (s₂.cell [107]).view ≠ ((emptyStreamAt 0).cell [107]).view ∧
      rollback s₂ = (.ok (), s₃) ∧
      ∀ key, (s₃.cell key).view = ((emptyStreamAt 0).cell key).view := by
  let s₁ := (beginStreamTx (freeCall 5).env 5 [[107]] (emptyStreamAt 0)).1
  let s₂ := (addOne.execute (freeCall 20) s₁).2
  have hbegin : beginStreamTx (freeCall 5).env 5 [[107]] (emptyStreamAt 0) = (s₁, true) :=
    Prod.ext rfl (by decide)
  have hrun : addOne.execute (freeCall 20) s₁ = (.ok (), s₂) := Prod.ext (by decide +kernel) rfl
  have hlive : ∀ key ∈ addOne.keys, ∀ slot, ((emptyStreamAt 0).cell key).slot = some slot →
      slot.expired (freeCall 20).now = false := by
    intro key hkey slot hslot
    rw [mem_singleton.1 hkey] at hslot
    cases hslot
    decide
  obtain ⟨s₃, hback, hview⟩ := rollback_restores (emptyStreamAt_sound 0) hbegin
    (fun key (hkey : key ∈ addOne.keys) => hkey) hlive hrun
  exact ⟨s₁, s₂, s₃, hbegin, hrun, by decide +kernel, hback, hview⟩

/-- The deadline passes between the beginning of the transaction and the command. -/
theorem rollback_refuses_expired :
    ∃ s s₁ s₂ : Store, s.Sound ∧ beginStreamTx (freeCall 5).env 5 [[107]] s = (s₁, true) ∧
      addOne.execute (freeCall 20) s₁ = (.ok (), s₂) ∧
      (rollback s₂).1 = .error .cannotUndo := by
  refine ⟨emptyStreamAt 10, (beginStreamTx (freeCall 5).env 5 [[107]] (emptyStreamAt 10)).1,
    (addOne.execute (freeCall 20)
      (beginStreamTx (freeCall 5).env 5 [[107]] (emptyStreamAt 10)).1).2,
    emptyStreamAt_sound 10, ?_, ?_, ?_⟩
  · refine Prod.ext rfl ?_
    decide
  · refine Prod.ext ?_ rfl
    decide +kernel
  · decide +kernel

end Stream
end SnugKV
