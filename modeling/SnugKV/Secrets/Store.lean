import SnugKV.Lib.Binary
import Mathlib.Data.List.AList
import Mathlib.Data.Finset.Card

/-!
# Secrets — environments of secrets, their versions and their histories

The values, the version numbers and the histories of an environment stand under keys of their own.
A secret that is deleted leaves its history; an environment that is deleted takes along the
histories of the secrets it has at that time.

* `run_congr` — a command reads and changes the data of its own environment alone;
* `Rising` — version numbers only grow;
* `deleteEnv_forgets_iff` — a deletion leaves nothing behind exactly if every secret with a history
  is still there.
-/

namespace SnugKV
namespace Secrets

open Lib List

inductive SecretError where
  /-- `a secret value can be at most 65536 bytes` -/
  | tooLong
  /-- `too many secrets in this environment` -/
  | tooMany
  /-- `increment or decrement would overflow` -/
  | overflow
  /-- `not found` -/
  | notFound
  /-- `that version is a deletion` -/
  | deletion
  /-- `version … is not in the history (the last 20 are kept)` -/
  | notKept
  /-- `stored secret cannot be decrypted (wrong secrets key?)` -/
  | sealed
  deriving DecidableEq, Repr

structure Record where
  value : Bytes
  version : Nat
  ms : Int
  actor : Bytes
  deleted : Bool
  deriving DecidableEq, Repr

structure Sealer where
  sealText (nonce plain bind : Bytes) : Bytes
  openText (stored bind : Bytes) : Option Bytes

/-- What one call brings along. -/
structure Call where
  nonce : Bytes
  ms : Int
  actor : Bytes

def histKeep : Nat := 20
def maxEnvs : Nat := 200
def maxSecrets : Nat := 1000
def maxValueLen : Nat := 64 * 2 ^ 10
def maxVersion : Nat := 2 ^ 63 - 1

def bind (env name : Bytes) : Bytes := env ++ 0 :: name

/-! ## One environment -/

/-- `keyEnv`, `keyVer` and `keyHist` of an environment; a secret without a number has 0. -/
@[ext]
structure EnvData where
  secrets : AList fun _ : Bytes => Record := ∅
  versions : Bytes → Nat := fun _ => 0
  history : Bytes → List Record := fun _ => []

inductive Command where
  | createEnv
  | deleteEnv
  | setSecret (c : Call) (name plain : Bytes)
  | deleteSecret (c : Call) (name : Bytes)
  | rollback (c : Call) (name : Bytes) (version : Int)

namespace EnvData

variable (k : Sealer) (c : Call) (env name plain : Bytes) (d : EnvData)

def pushHistory (r : Record) : EnvData :=
  { d with history := Function.update d.history name ((r :: d.history name).take histKeep) }

/-- `HINCRBY`, and the record with the new number. -/
def record (r : Nat → Record) (secrets : Record → AList fun _ : Bytes => Record) :
    Except SecretError (Nat × EnvData) :=
  if d.versions name = maxVersion then .error .overflow
  else
    let ver := d.versions name + 1
    let d := { d with
      secrets := secrets (r ver), versions := Function.update d.versions name ver }
    .ok (ver, d.pushHistory name (r ver))

def write : Except SecretError (Nat × EnvData) :=
  d.record name (⟨k.sealText c.nonce plain (bind env name), ·, c.ms, c.actor, false⟩)
    fun r => d.secrets.insert name r

def setSecret : Except SecretError (Nat × EnvData) :=
  if maxValueLen < plain.length then .error .tooLong
  else
    match d.secrets.lookup name with
    | some prev =>
      if k.openText prev.value (bind env name) = some plain then .ok (0, d)
      else write k c env name plain d
    | none =>
      if maxSecrets ≤ d.secrets.entries.length then .error .tooMany
      else write k c env name plain d

def deleteSecret : Except SecretError (Nat × EnvData) :=
  if name ∉ d.secrets then .error .notFound
  else d.record name (⟨[], ·, c.ms, c.actor, true⟩) fun _ => d.secrets.erase name

def rollback (version : Int) : Except SecretError (Nat × EnvData) :=
  match (d.history name).find? fun r => r.version = version with
  | none => .error .notKept
  | some r =>
    if r.deleted then .error .deletion
    else
      match k.openText r.value (bind env name) with
      | none => .error .sealed
      | some plain => write k c env name plain d

/-- The keys of the environment go, and the history of every secret in it. -/
def deleteEnv : EnvData :=
  { history := fun name => if name ∈ d.secrets then [] else d.history name }

def perform : Command → Except SecretError (Nat × EnvData)
  | .createEnv => .ok (0, d)
  | .deleteEnv => .ok (0, d.deleteEnv)
  | .setSecret c name plain => d.setSecret k c env name plain
  | .deleteSecret c name => d.deleteSecret c name
  | .rollback c name version => d.rollback k c env name version

/-- A command that fails changes nothing. -/
def after (cmd : Command) : EnvData := ((d.perform k env cmd).toOption.getD (0, d)).2

end EnvData

/-! ## All environments -/

structure Store where
  envs : Finset Bytes := ∅
  data : Bytes → EnvData := fun _ => {}

def Store.perform (k : Sealer) (s : Store) (cmd : Bytes × Command) : Store where
  envs :=
    match cmd.2 with
    | .createEnv => if s.envs.card < maxEnvs then insert cmd.1 s.envs else s.envs
    | .deleteEnv => s.envs.erase cmd.1
    | _ => s.envs
  data := Function.update s.data cmd.1 ((s.data cmd.1).after k cmd.1 cmd.2)

def Store.run (k : Sealer) (s : Store) (cmds : List (Bytes × Command)) : Store :=
  cmds.foldl (perform k) s

variable {k : Sealer} {env : Bytes} {d d' : EnvData} {s t : Store}

theorem perform_data (s : Store) (cmd : Bytes × Command) : (s.perform k cmd).data env =
    if env = cmd.1 then (s.data env).after k env cmd.2 else s.data env := by
  simp only [Store.perform, Function.update_apply]
  split
  · next h => rw [h]
  · rfl

/-- What the run makes of an environment does not depend on the others. -/
theorem run_congr (h : s.data env = t.data env) (cmds : List (Bytes × Command)) :
    (s.run k cmds).data env = (t.run k cmds).data env := by
  induction cmds generalizing s t with
  | nil => exact h
  | cons cmd cmds ih => exact ih (by rw [perform_data, perform_data, h])

/-- A property of an environment that every new record keeps. -/
def KeptByRecords (P : EnvData → Prop) : Prop :=
  ∀ {d : EnvData}, P d → ∀ {name : Bytes} {r : Nat → Record}
    {secrets : Record → AList fun _ : Bytes => Record}, (∀ n, (r n).version = n) →
    (∀ n, secrets (r n) =
      if (r n).deleted then d.secrets.erase name else d.secrets.insert name (r n)) →
    P ((d.record name r secrets).toOption.getD (0, d)).2

variable {P : EnvData → Prop}

theorem KeptByRecords.after (hP : KeptByRecords P) (h : P d) {cmd : Command}
    (hcmd : cmd ≠ .deleteEnv) : P (d.after k env cmd) := by
  have hwrite : ∀ c name plain, P ((d.write k c env name plain).toOption.getD (0, d)).2 :=
    fun c name plain => hP h (fun _ => rfl) fun _ => rfl
  unfold EnvData.after
  cases cmd with
  | createEnv => exact h
  | deleteEnv => exact absurd rfl hcmd
  | setSecret c name plain =>
    simp only [EnvData.perform, EnvData.setSecret]
    (repeat' split) <;> first | exact h | exact hwrite c name plain
  | deleteSecret c name =>
    simp only [EnvData.perform, EnvData.deleteSecret]
    split
    · exact h
    · exact hP h (fun _ => rfl) fun _ => rfl
  | rollback c name version =>
    simp only [EnvData.perform, EnvData.rollback]
    (repeat' split) <;> first | exact h | exact hwrite c name _

theorem KeptByRecords.run (hP : KeptByRecords P) (h : P (s.data env))
    {cmds : List (Bytes × Command)} (hcmds : (env, .deleteEnv) ∉ cmds) :
    P ((s.run k cmds).data env) := by
  induction cmds generalizing s with
  | nil => exact h
  | cons cmd cmds ih =>
    obtain ⟨hcmd, hcmds⟩ := not_or.1 (mem_cons.not.1 hcmds)
    refine ih ?_ hcmds
    rw [perform_data]
    split
    · next henv => exact hP.after h fun hdel => hcmd (by rw [henv, ← hdel])
    · exact h

/-- The numbers in a history, under the one that comes next. -/
def Rising (d : EnvData) : Prop :=
  ∀ name, ((d.versions name + 1) :: (d.history name).map Record.version).Pairwise (· > ·)

theorem rising_record : KeptByRecords Rising := by
  intro d h name r secrets hr _
  unfold EnvData.record
  split_ifs
  · exact h
  intro x
  by_cases hx : x = name
  · subst hx
    have hall : ((d.versions x + 1 + 1) :: (d.versions x + 1) ::
        (d.history x).map Record.version).Pairwise (· > ·) := by
      refine pairwise_cons.2 ⟨fun v hv => ?_, h x⟩
      rcases mem_cons.1 hv with rfl | hv
      · exact Nat.lt_succ_self _
      · exact ((pairwise_cons.1 (h x)).1 v hv).trans (Nat.lt_succ_self _)
    have hsub := (take_sublist histKeep (r (d.versions x + 1) :: d.history x)).map Record.version
    rw [map_cons, hr] at hsub
    simpa [Except.toOption, EnvData.pushHistory] using hall.sublist (hsub.cons_cons _)
  · simpa [Except.toOption, EnvData.pushHistory, Function.update_of_ne hx] using h x

/-- Deleting an environment leaves nothing of it, and from then on it is like one that was never
there and its version numbers grow, exactly if each secret with a history is still there. -/
theorem deleteEnv_forgets_iff (k : Sealer) (s : Store) (env : Bytes) :
    let s' := s.perform k (env, .deleteEnv)
    (s'.data env = {} ∧ ∀ later,
      (s'.run k later).data env = (({} : Store).run k later).data env ∧
        ((env, .deleteEnv) ∉ later → Rising ((s'.run k later).data env))) ↔
      ∀ name, (s.data env).history name ≠ [] → name ∈ (s.data env).secrets := by
  intro s'
  have hs' : s'.data env = (s.data env).deleteEnv := by
    rw [perform_data, if_pos rfl]
    rfl
  constructor
  · rintro ⟨hnone, -⟩ name
    have hname := congrFun (congrArg EnvData.history (hs'.symm.trans hnone)) name
    by_contra hout
    obtain ⟨hne, hout⟩ := Classical.not_imp.1 hout
    exact hne ((if_neg hout).symm.trans hname)
  · intro hthere
    have hnone : s'.data env = {} := by
      rw [hs']
      refine EnvData.ext rfl rfl (funext fun name => ?_)
      by_cases hname : name ∈ (s.data env).secrets
      · exact if_pos hname
      · exact (if_neg hname).trans (not_not.1 fun hne => hname (hthere name hne))
    refine ⟨hnone, fun later => ⟨run_congr hnone later, fun hlater => rising_record.run ?_ hlater⟩⟩
    rw [hnone]
    exact fun name => pairwise_singleton _ _

/-- A secret is deleted, then its environment; in the new environment of that name its first version
can be made the current one. -/
theorem rollback_after_deleteEnv :
    let k : Sealer := ⟨fun _ plain _ => plain, fun stored _ => some stored⟩
    let c : Call := ⟨[], 0, []⟩
    let e := ascii "shop/prod"
    let s := ({} : Store).run k [(e, .createEnv), (e, .setSecret c (ascii "KEY") (ascii "old")),
      (e, .deleteSecret c (ascii "KEY")), (e, .deleteEnv), (e, .createEnv),
      (e, .rollback c (ascii "KEY") 1)]
    ((s.data e).secrets.lookup (ascii "KEY")).map Record.value = some (ascii "old") := by
  decide +kernel

/-! ## The current record -/

/-- A secret is its newest record, unless that is a deletion; the newest record has the last number
given out, and no more than `histKeep` records are kept. -/
def Current (d : EnvData) : Prop :=
  ∀ name, d.secrets.lookup name = (d.history name).head?.filter (fun r => !r.deleted) ∧
    d.versions name = (d.history name).head?.elim 0 Record.version ∧
    (d.history name).length ≤ histKeep

theorem current_record : KeptByRecords Current := by
  intro d h name r secrets hr hsecrets
  unfold EnvData.record
  split_ifs
  · exact h
  intro x
  have hnew := hsecrets (d.versions name + 1)
  by_cases hx : x = name
  · -- the new record is at the head, and the cut at `histKeep` does not reach it
    subst hx
    cases hdel : (r (d.versions x + 1)).deleted <;>
      simp [Except.toOption, EnvData.pushHistory, hnew, hdel, hr, histKeep, Option.filter]
  · cases hdel : (r (d.versions name + 1)).deleted <;>
      simpa [Except.toOption, EnvData.pushHistory, hnew, hdel, Function.update_of_ne hx, hx]
        using h x

/-- After any commands on any environments, as long as this one is not deleted: the numbers of a
secret's records fall from its version counter, so that none was given out twice, and reading the
secret gives the newest record, or nothing after a deletion. -/
theorem current_of_run (k : Sealer) {env : Bytes} {cmds : List (Bytes × Command)}
    (hcmds : (env, .deleteEnv) ∉ cmds) :
    Rising ((({} : Store).run k cmds).data env) ∧ Current ((({} : Store).run k cmds).data env) :=
  ⟨rising_record.run (fun _ => pairwise_singleton _ _) hcmds,
    current_record.run (fun _ => ⟨rfl, rfl, Nat.zero_le _⟩) hcmds⟩

theorem current_of_run_deleted :
    let k : Sealer := ⟨fun _ plain _ => plain, fun stored _ => some stored⟩
    let c : Call := ⟨[], 0, []⟩
    ((({} : Store).run k [([1], .setSecret c [2] [3]), ([4], .deleteEnv),
      ([1], .deleteSecret c [2])]).data [1]).versions [2] = 2 := by
  intro k c
  rw [((current_of_run k (by simp)).2 [2]).2.1]
  rfl

end Secrets
end SnugKV
