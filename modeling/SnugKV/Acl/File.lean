import SnugKV.Acl.Authorize
import SnugKV.Acl.Sound

/-!
# File — the ACL file, and what comes back from it

`ACL SAVE` prints every user as one line of rules and `ACL LOAD` splits the lines at white space and
applies the rules to new users (`server/acl_persistence.go`).

* `applyRules_rootTexts`      — the printed rules of a user rebuild it, but for its selectors;
* `unknownCategory_rootTexts` — and the check of categories before them lets them through.
-/

namespace SnugKV
namespace Acl

open Lib List RuleSet

/-! ## Writing -/

def channelTexts (r : RuleSet) : List Bytes :=
  if r.allChannels then [ascii "&*"] else ascii "resetchannels" :: r.channelPatterns.map (0x26 :: ·)

def selectorTexts (r : RuleSet) : List Bytes :=
  r.keyPatterns.map (0x7E :: ·) ++ channelTexts r ++ r.commandRules

/-- `aclSelectorListFragment`. -/
def aclSelectorListFragment (r : RuleSet) : Bytes :=
  0x28 :: (List.intercalate [0x20] (selectorTexts r) ++ [0x29])

/-- The rules of the user itself, in the order of the file. -/
def rootTexts (u : ACLUser) : List Bytes :=
  [if u.enabled then ascii "on" else ascii "off"] ++ (if u.noPass then [ascii "nopass"] else []) ++
    [if u.sanitizePayload then ascii "sanitize-payload" else ascii "skip-sanitize-payload"] ++
    u.passwordHashes.map (0x23 :: ·) ++ u.keyPatterns.map (0x7E :: ·) ++
    channelTexts u.toRuleSet ++ u.commandRules

def aclUserFileLine (u : ACLUser) : Bytes :=
  spaced (ascii "user") (u.name :: rootTexts u ++ u.selectors.map aclSelectorListFragment)

/-- `SaveFile`: one line for each user, sorted by name. -/
def saveFile (acl : ACL) : Bytes :=
  (acl.insertionSort fun u v => u.name ≤ v.name).flatMap fun u => aclUserFileLine u ++ [0x0A]

/-! ## Reading -/

inductive LoadError where
  /-- A line longer than the buffer of the reader. -/
  | tooLong
  /-- A line with the wrong shape, or a rule that `SetUser` refuses. -/
  | line (number : Nat) (reason : Option AclError)
  deriving DecidableEq, Repr

def maxLine : Nat := 2 ^ 20

/-- One line; blank lines and comments change nothing. -/
def loadLine (env : Env) (acl : ACL) (number : Nat) (text : Bytes) : Except LoadError ACL :=
  let raw := trimSpace text
  if raw = [] ∨ raw.take 2 = ascii "# " then .ok acl
  else
    match fields raw with
    | keyword :: name :: rules =>
      if ¬ equalFold keyword (ascii "user") then .error (.line number none)
      else
        match setUser env acl name rules with
        | (some e, _) => .error (.line number (some e))
        | (none, acl) => .ok acl
    | _ => .error (.line number none)

def loadLines (env : Env) : ACL → Nat → List (Option Bytes) → Except LoadError ACL
  | acl, _, [] => .ok acl
  | _, _, none :: _ => .error .tooLong
  | acl, n, some text :: rest =>
    match loadLine env acl (n + 1) text with
    | .error e => .error e
    | .ok acl => loadLines env acl (n + 1) rest

def loadACLFile (env : Env) (data : Bytes) : Except LoadError ACL :=
  loadLines env [] 0 (scanLines maxLine data)

/-! ## What one rule text of the file does -/

variable {a : UInt8}

theorem lowerByte_ascii (h : lowerByte a < 0x80) : a < 0x80 := by
  rw [lowerByte] at h
  split_ifs at h with hupper
  · simp only [Bool.and_eq_true, decide_eq_true_eq] at hupper
    exact UInt8.lt_of_le_of_lt hupper.2 (by decide)
  · exact h

variable {s : Bytes} {env : Env}

variable {text hash p : Bytes}

/-- A text that folds to an ASCII one is mapped to it, where the two letters with a twin outside
ASCII do not occur. -/
theorem lower_of_equalFold (env : Env)
    (htext : ∀ c ∈ text, c < 0x80 ∧ lowerByte c = c ∧ c ≠ 0x73 ∧ c ≠ 0x6B)
    (h : equalFold s text = true) : env.lower s = text := by
  induction text generalizing s with
  | nil =>
    cases s with
    | nil => exact env.lower_nil
    | cons a s => cases h
  | cons c text ih =>
    obtain ⟨⟨hascii, hlower, hs, hk⟩, hrest⟩ := forall_mem_cons.1 htext
    cases s with
    | nil => cases h
    | cons a s =>
      unfold equalFold at h
      rw [hlower] at h
      split_ifs at h with heq
      · have ha : a < 0x80 := lowerByte_ascii (heq ▸ hascii)
        rw [env.lower_cons a s ha, heq, ih hrest h]
      · -- the twins fold to `s` and `k` only
        have hs' : (c == 0x73) = false := by simpa using hs
        have hk' : (c == 0x6B) = false := by simpa using hk
        split at h
        · simp [hs'] at h
        · split at h
          · simp [hk'] at h
          · cases h

theorem equalFold_all (hlower : env.lower s = s) (hne : s ≠ ascii "@all") :
    equalFold s (ascii "@all") = false := by
  by_contra hfold
  have heq := lower_of_equalFold env (by decide +kernel) (Bool.eq_true_of_not_eq_false hfold)
  exact hne (hlower.symm.trans heq)

theorem not_stray (ha : a ≠ 0x29) (h : 0x29 ∉ s) :
    ¬ ((a :: s).head? ≠ some 0x28 ∧ 0x29 ∈ a :: s) := by
  rintro ⟨-, hmem⟩
  rcases mem_cons.1 hmem with heq | hmem
  · exact ha heq.symm
  · exact h hmem

theorem take_two {b : UInt8} : (a :: s).take 2 = [b, 0x40] ↔ a = b ∧ s.take 1 = [0x40] := by
  simp

theorem applyRule_signed (env : Env) (u : ACLUser) (allow : Bool) (h : 0x29 ∉ s)
    (hall : equalFold s (ascii "@all") = false) : applyRule env u (sign allow :: s) =
      if (env.lower s).take 1 = [0x40] then
        u.tryRules (.unknown (sign allow :: s))
          (u.addCategory env allow (env.lower ((env.lower s).drop 1)))
      else u.tryRules .modifier (u.addCommand allow (env.lower s)) := by
  have hlower := lower_sign env allow s
  have hneg : ¬ (false = true ∨ equalFold s (ascii "@all") = true) := by simp [hall]
  have hdrop : (env.lower s).drop 1 = (env.lower (sign allow :: s)).drop 2 := by
    rw [hlower]; rfl
  have htake : ∀ b, (env.lower (sign allow :: s)).take 2 = [b, 0x40] ↔
      sign allow = b ∧ (env.lower s).take 1 = [0x40] := fun b => by rw [hlower, take_two]
  rw [applyRule, if_neg (not_stray (by cases allow <;> decide) h), hdrop]
  cases allow with
  | true =>
    change (if false = true ∨ equalFold s (ascii "@all") = true then _
      else if (env.lower (sign true :: s)).take 2 = [0x2B, 0x40] then _
      else if (env.lower (sign true :: s)).take 2 = [0x2D, 0x40] then _ else _) = _
    rw [if_neg hneg]
    by_cases hc : (env.lower s).take 1 = [0x40]
    · rw [if_pos ((htake 0x2B).2 ⟨rfl, hc⟩), if_pos hc]
    · rw [if_neg fun h => hc ((htake _).1 h).2, if_neg fun h => hc ((htake _).1 h).2, if_neg hc]
      rfl
  | false =>
    change (if false = true ∨ equalFold s (ascii "@all") = true then _
      else if (env.lower (sign false :: s)).take 2 = [0x2B, 0x40] then _
      else if (env.lower (sign false :: s)).take 2 = [0x2D, 0x40] then _ else _) = _
    rw [if_neg hneg, if_neg fun h => absurd ((htake _).1 h).1 (by decide)]
    by_cases hc : (env.lower s).take 1 = [0x40]
    · rw [if_pos ((htake 0x2D).2 ⟨rfl, hc⟩), if_pos hc]
    · rw [if_neg fun h => hc ((htake _).1 h).2, if_neg hc]
      rfl

theorem mem_of_valid (h : validACLPasswordHash hash = true) {c : UInt8} (hc : c ∈ hash) :
    ((0x30 ≤ c && c ≤ 0x39) || (0x61 ≤ c && c ≤ 0x66)) = true :=
  all_eq_true.1 (Bool.and_eq_true_iff.1 h).2 c hc

theorem applyRule_hash (env : Env) (u : ACLUser) (hvalid : validACLPasswordHash hash = true) :
    applyRule env u (0x23 :: hash) = .ok (u.addPasswordHash hash) := by
  have hparen : 0x29 ∉ hash := fun hmem => absurd (mem_of_valid hvalid hmem) (by decide)
  rw [applyRule, if_neg (not_stray (by decide) hparen)]
  exact if_neg (not_not.2 hvalid)

theorem applyRule_key (env : Env) (u : ACLUser) (hne : p ≠ []) (h : 0x29 ∉ p) :
    applyRule env u (0x7E :: p) = .ok (u.withRules (u.addKeyPattern p)) := by
  rw [applyRule, if_neg (not_stray (by decide) h)]
  exact if_neg hne

theorem applyRule_channel (env : Env) (u : ACLUser) (h : 0x29 ∉ p) :
    applyRule env u (0x26 :: p) = .ok (u.withRules (u.addChannelPattern true p)) := by
  rw [applyRule, if_neg (not_stray (by decide) h)]
  rfl

theorem applyRule_category (env : Env) (u : ACLUser) (allow : Bool) {category : Bytes}
    {commands : List Bytes} (hknown : env.categories category = some commands)
    (hlower : env.lower category = category) (hparen : 0x29 ∉ category) :
    applyRule env u (sign allow :: 0x40 :: category) =
      u.tryRules (.unknown (sign allow :: 0x40 :: category))
        (u.addCategory env allow category) := by
  have hat : env.lower (0x40 :: category) = 0x40 :: category := by
    rw [env.lower_cons _ _ (by decide), hlower]
    rfl
  have hne : 0x40 :: category ≠ ascii "@all" := by
    intro heq
    have hcat : category = ascii "all" := (cons.inj heq).2
    rw [hcat, env.categories_all] at hknown
    cases hknown
  rw [applyRule_signed env u allow (by simp [hparen]) (equalFold_all hat hne), hat,
    if_pos (show (0x40 :: category).take 1 = [0x40] from rfl), drop_succ_cons, drop_zero, hlower]

theorem applyRule_command (env : Env) (u : ACLUser) (allow : Bool) {command : Bytes}
    (hlower : env.lower command = command) (hat : command.head? ≠ some 0x40)
    (hparen : 0x29 ∉ command) :
    applyRule env u (sign allow :: command) =
      u.tryRules .modifier (u.addCommand allow command) := by
  have hne : command ≠ ascii "@all" := by
    rintro rfl
    exact hat rfl
  have htake : ¬ command.take 1 = [0x40] := by
    intro htake
    cases command with
    | nil => cases htake
    | cons c command => exact hat (by simpa using htake)
  rw [applyRule_signed env u allow hparen (equalFold_all hlower hne), hlower, if_neg htake]

/-! ## What the rule texts rebuild -/

variable {rules : List Bytes} {u v : ACLUser}

theorem applyRules_append (h : applyRules env u rules = (v, none)) (rest : List Bytes) :
    applyRules env u (rules ++ rest) = applyRules env v rest := by
  induction rules generalizing u with
  | nil =>
    cases h
    rfl
  | cons rule rules ih =>
    rw [cons_append]
    rw [applyRules] at h ⊢
    split at h
    · cases h
    · exact ih h

theorem applyRules_singleton {rule : Bytes} (h : applyRule env u rule = .ok v) :
    applyRules env u [rule] = (v, none) := by
  rw [applyRules, h]
  rfl

variable {all : Bool} {allowed : List (Bytes × Bool)}

theorem applyRules_commands
    (h : CommandRules env all rules allowed) (v : ACLUser) : applyRules env v rules =
      (v.withRules
        { v.toRuleSet with allCommands := all, commandRules := rules, commandAllow := allowed },
        none) := by
  induction h with
  | start =>
    cases all with
    | false => exact applyRules_singleton rfl
    | true => exact applyRules_singleton rfl
  | category h allow hknown hlower hparen ih =>
    rw [applyRules_append ih]
    refine applyRules_singleton ?_
    rw [applyRule_category env _ allow hknown hlower hparen, addCategory, hknown]
    rfl
  | command h allow hne hlower hat hparen ih =>
    rw [applyRules_append ih]
    refine applyRules_singleton ?_
    rw [applyRule_command env _ allow hlower hat hparen, addCommand, if_neg hne]
    rfl

theorem applyRules_keys {patterns : List Bytes} (h : KeyRules all patterns) (env : Env)
    (hpatterns : v.keyPatterns = []) (hall : v.allKeys = false) :
    applyRules env v (patterns.map (0x7E :: ·)) =
      (v.withRules { v.toRuleSet with allKeys := all, keyPatterns := patterns }, none) := by
  induction h with
  | none =>
    rw [map_nil, applyRules, ← hpatterns, ← hall]
    rfl
  | all => exact applyRules_singleton (applyRule_key env v (by decide) (by decide))
  | add h hne hstar hparen ih =>
    rw [map_append, applyRules_append ih]
    refine applyRules_singleton ?_
    rw [applyRule_key env _ hne hparen, addKeyPattern, if_neg hstar, decide_eq_false hstar]
    rfl

theorem applyRules_channels {r : RuleSet} (h : ChannelRules r.allChannels r.channelPatterns)
    (env : Env)
    (v : ACLUser) :
    applyRules env v (channelTexts r) =
      (v.withRules
        { v.toRuleSet with allChannels := r.allChannels, channelPatterns := r.channelPatterns },
        none) := by
  rw [channelTexts]
  generalize r.allChannels = all at h ⊢
  generalize r.channelPatterns = patterns at h ⊢
  induction h with
  | none => exact applyRules_singleton rfl
  | all => exact applyRules_singleton rfl
  | @add patterns _ pattern hstar hnew hparen ih =>
    have hsplit : ascii "resetchannels" :: (patterns ++ [pattern]).map (0x26 :: ·) =
        (ascii "resetchannels" :: patterns.map (0x26 :: ·)) ++ [0x26 :: pattern] := by simp
    rw [if_neg Bool.false_ne_true] at ih ⊢
    rw [hsplit, applyRules_append ih]
    refine applyRules_singleton ?_
    rw [applyRule_channel env _ hparen, addChannelPattern, if_neg hstar, if_neg]
    · rfl
    · simp [ACLUser.withRules, hnew]

theorem applyRules_hashes (env : Env) {hashes : List Bytes} (hnodup : hashes.Nodup)
    (hvalid : ∀ hash ∈ hashes, validACLPasswordHash hash = true) (hold : v.passwordHashes = [])
    (hpass : v.noPass = true → hashes = []) :
    applyRules env v (hashes.map (0x23 :: ·)) = ({ v with passwordHashes := hashes }, none) := by
  induction hashes using reverseRecOn with
  | nil => rw [map_nil, applyRules, ← hold]
  | append_singleton hashes hash ih =>
    have hno : v.noPass = false := by
      by_contra hno
      simpa using hpass (by simpa using hno)
    have hnew : hash ∉ hashes := by
      intro hmem
      exact (nodup_append.1 hnodup).2.2 hash hmem hash (mem_singleton_self _) rfl
    rw [map_append, applyRules_append (ih (nodup_append.1 hnodup).1
      (fun h hmem => hvalid h (mem_append_left _ hmem)) (by simp [hno]))]
    refine applyRules_singleton ?_
    rw [applyRule_hash env _ (hvalid hash (by simp)), ACLUser.addPasswordHash, if_neg hnew, ← hno]

theorem applyRules_rootTexts (h : Sound env u) :
    applyRules env (newACLUser u.name) (rootTexts u) = ({ u with selectors := [] }, none) := by
  have hon : applyRules env (newACLUser u.name) [if u.enabled then ascii "on" else ascii "off"] =
      ({ newACLUser u.name with enabled := u.enabled }, none) := by
    cases u.enabled with
    | false => rfl
    | true => rfl
  have hno : ∀ v : ACLUser, v.noPass = false → v.passwordHashes = [] →
      applyRules env v (if u.noPass then [ascii "nopass"] else []) =
        ({ v with noPass := u.noPass }, none) := by
    intro v hv hhashes
    cases u.noPass with
    | false => rw [if_neg Bool.false_ne_true, applyRules, ← hv]
    | true => rw [if_pos rfl, applyRules_singleton rfl, ← hhashes]
  have hsanitize : ∀ v : ACLUser,
      applyRules env v
          [if u.sanitizePayload then ascii "sanitize-payload" else ascii "skip-sanitize-payload"] =
        ({ v with sanitizePayload := u.sanitizePayload }, none) := by
    intro v
    cases u.sanitizePayload with
    | false => rfl
    | true => rfl
  simp only [rootTexts, append_assoc]
  refine (applyRules_append hon _).trans ?_
  refine (applyRules_append (hno _ rfl rfl) _).trans ?_
  refine (applyRules_append (hsanitize _) _).trans ?_
  refine (applyRules_append (applyRules_hashes env h.distinct h.valid ?_ ?_) _).trans ?_
  · rfl
  · exact h.passwords
  refine (applyRules_append (applyRules_keys h.rules.keys env ?_ ?_) _).trans ?_
  · rfl
  · rfl
  refine (applyRules_append (applyRules_channels h.rules.channels env _) _).trans ?_
  exact applyRules_commands h.rules.commands _

/-! ## The category check before the rules -/

theorem lower_ascii (env : Env) (h : ∀ c ∈ text, c < 0x80 ∧ lowerByte c = c) :
    env.lower text = text := by
  induction text with
  | nil => exact env.lower_nil
  | cons c text ih =>
    obtain ⟨hc, htext⟩ := forall_mem_cons.1 h
    rw [env.lower_cons c text hc.1, hc.2, ih htext]

theorem unknownCategory_of_head (env : Env) (ha : a < 0x80) (hplus : lowerByte a ≠ 0x2B)
    (hminus : lowerByte a ≠ 0x2D) (s : Bytes) : unknownCategory env (a :: s) = false := by
  have hno : ∀ b : UInt8, lowerByte a ≠ b → ¬ (env.lower (a :: s)).take 2 = [b, 0x40] := by
    intro b hb htake
    rw [env.lower_cons a s ha] at htake
    exact hb (cons.inj htake).1
  have hcat : decide ((env.lower (a :: s)).take 2 = ascii "+@" ∨
      (env.lower (a :: s)).take 2 = ascii "-@") = false :=
    decide_eq_false (not_or.2 ⟨hno 0x2B hplus, hno 0x2D hminus⟩)
  rw [unknownCategory, hcat]
  rfl

theorem unknownCategory_commands (h : CommandRules env all rules allowed) :
    ∀ rule ∈ rules, unknownCategory env rule = false := by
  induction h with
  | start =>
    intro rule hrule
    have hall : ∀ text : Bytes, (∀ c ∈ text, c < 0x80 ∧ lowerByte c = c) →
        text.drop 2 = ascii "all" → unknownCategory env text = false := by
      intro text htext hdrop
      simp [unknownCategory, lower_ascii env htext, hdrop]
    rw [mem_singleton.1 hrule]
    cases all with
    | false => exact hall _ (by decide +kernel) rfl
    | true => exact hall _ (by decide +kernel) rfl
  | @category _ _ h allow category commands hknown hlower hparen ih =>
    intro rule hrule
    rcases mem_append.1 hrule with hrule | hrule
    · exact ih rule hrule
    · have hat : env.lower (0x40 :: category) = 0x40 :: category := by
        rw [env.lower_cons _ _ (by decide), hlower]
        rfl
      rw [mem_singleton.1 hrule, unknownCategory, lower_sign, hat]
      simp [hknown]
  | @command _ _ h allow command hne hlower hat hparen ih =>
    intro rule hrule
    rcases mem_append.1 hrule with hrule | hrule
    · exact ih rule hrule
    · have hno : ∀ b : UInt8, ¬ (sign allow :: command).take 2 = [b, 0x40] := by
        intro b htake
        refine hat ?_
        cases command with
        | nil => exact absurd rfl hne
        | cons c command => simpa using (take_two.1 htake).2
      have hcat : decide ((sign allow :: command).take 2 = ascii "+@" ∨
          (sign allow :: command).take 2 = ascii "-@") = false :=
        decide_eq_false (not_or.2 ⟨hno 0x2B, hno 0x2D⟩)
      rw [mem_singleton.1 hrule, unknownCategory, lower_sign, hlower, hcat]
      rfl

theorem unknownCategory_rootTexts (h : Sound env u) :
    (rootTexts u).find? (unknownCategory env) = none := by
  have htext : ∀ c : UInt8, c < 0x80 → lowerByte c ≠ 0x2B → lowerByte c ≠ 0x2D → ∀ s : Bytes,
      ¬ unknownCategory env (c :: s) = true := fun c hc hplus hminus s =>
    Bool.eq_false_iff.1 (unknownCategory_of_head env hc hplus hminus s)
  rw [find?_eq_none]
  intro rule hrule
  simp only [rootTexts, append_assoc, mem_append, mem_map, mem_singleton] at hrule
  rcases hrule with rfl | hrule | rfl | ⟨hash, -, rfl⟩ | ⟨p, -, rfl⟩ | hrule | hrule
  · split
    · exact htext 0x6F (by decide) (by decide) (by decide) _
    · exact htext 0x6F (by decide) (by decide) (by decide) _
  · split at hrule
    · rw [mem_singleton.1 hrule]
      exact htext 0x6E (by decide) (by decide) (by decide) _
    · cases hrule
  · split
    · exact htext 0x73 (by decide) (by decide) (by decide) _
    · exact htext 0x73 (by decide) (by decide) (by decide) _
  · exact htext 0x23 (by decide) (by decide) (by decide) _
  · exact htext 0x7E (by decide) (by decide) (by decide) _
  · rw [channelTexts] at hrule
    split at hrule
    · rw [mem_singleton.1 hrule]
      exact htext 0x26 (by decide) (by decide) (by decide) _
    · rcases mem_cons.1 hrule with rfl | hrule
      · exact htext 0x72 (by decide) (by decide) (by decide) _
      · obtain ⟨p, -, rfl⟩ := mem_map.1 hrule
        exact htext 0x26 (by decide) (by decide) (by decide) _
  · exact Bool.eq_false_iff.1 (unknownCategory_commands h.rules.commands rule hrule)

end Acl
end SnugKV
