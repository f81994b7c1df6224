import SnugKV.Acl.Rules

/-!
# Sound — what the commands keep of every user

The three parts of a user's rules are described by how they arise: which rule texts, applied in
order, lead to them (`CommandRules`, `KeyRules`, `ChannelRules`).  Every rule keeps these
descriptions (`Applied.sound`), so every history of `SETUSER` and `DELUSER` does, accepted or not.
-/

namespace SnugKV
namespace Acl

open Lib List ACLUser RuleSet

/-! ## How the parts of a rule set arise -/

/-- The command part: whether all commands start allowed, the rule texts, and the single commands
they set. -/
inductive CommandRules (env : Env) : Bool → List Bytes → List (Bytes × Bool) → Prop
  | start (allow : Bool) :
      CommandRules env allow [if allow then ascii "+@all" else ascii "-@all"] []
  | category {all : Bool} {rules : List Bytes} {allowed : List (Bytes × Bool)}
      (h : CommandRules env all rules allowed) (allow : Bool) {category : Bytes}
      {commands : List Bytes} (hknown : env.categories category = some commands)
      (hlower : env.lower category = category) (hparen : 0x29 ∉ category) :
      CommandRules env all (rules ++ [RuleSet.sign allow :: 0x40 :: category])
        ((commands.map fun c => (c, allow)).reverse ++ allowed)
  | command {all : Bool} {rules : List Bytes} {allowed : List (Bytes × Bool)}
      (h : CommandRules env all rules allowed) (allow : Bool) {command : Bytes}
      (hne : command ≠ []) (hlower : env.lower command = command)
      (hat : command.head? ≠ some 0x40) (hparen : 0x29 ∉ command) :
      CommandRules env all (rules ++ [RuleSet.sign allow :: command]) ((command, allow) :: allowed)

/-- The key part: `allkeys` holds until a pattern other than `*` is added. -/
inductive KeyRules : Bool → List Bytes → Prop
  | none : KeyRules false []
  | all : KeyRules true [star]
  | add {all : Bool} {patterns : List Bytes} (h : KeyRules all patterns) {pattern : Bytes}
      (hne : pattern ≠ []) (hstar : pattern ≠ star) (hparen : 0x29 ∉ pattern) :
      KeyRules false (patterns ++ [pattern])

/-- The channel part of a user: patterns are added once, and only while not all are allowed. -/
inductive ChannelRules : Bool → List Bytes → Prop
  | none : ChannelRules false []
  | all : ChannelRules true [star]
  | add {patterns : List Bytes} (h : ChannelRules false patterns) {pattern : Bytes}
      (hstar : pattern ≠ star) (hnew : pattern ∉ patterns) (hparen : 0x29 ∉ pattern) :
      ChannelRules false (patterns ++ [pattern])

structure RulesSound (env : Env) (r : RuleSet) : Prop where
  commands : CommandRules env r.allCommands r.commandRules r.commandAllow
  keys : KeyRules r.allKeys r.keyPatterns
  channels : ChannelRules r.allChannels r.channelPatterns

/-- What is needed of a selector: it has a command rule, and no parenthesis in its patterns. -/
structure SelectorSound (r : RuleSet) : Prop where
  commands : r.commandRules ≠ []
  keys : ∀ p ∈ r.keyPatterns, 0x29 ∉ p

structure Sound (env : Env) (u : ACLUser) : Prop where
  named : u.name ≠ []
  passwords : u.noPass = true → u.passwordHashes = []
  distinct : u.passwordHashes.Nodup
  valid : ∀ hash ∈ u.passwordHashes, validACLPasswordHash hash = true
  rules : RulesSound env u.toRuleSet
  selectors : ∀ r ∈ u.selectors, SelectorSound r

theorem RulesSound.new (env : Env) : RulesSound env newACLSelector where
  commands := CommandRules.start false
  keys := KeyRules.none
  channels := ChannelRules.none

variable {name p rule : Bytes} {u : ACLUser} {r : RuleSet} {v : ACLUser}

theorem Sound.new (env : Env) (h : name ≠ []) : Sound env (newACLUser name) where
  named := h
  passwords := fun _ => rfl
  distinct := nodup_nil
  valid := by simp [newACLUser]
  rules := RulesSound.new env
  selectors := by simp [newACLUser]

theorem Sound.default (env : Env) : Sound env defaultUser where
  named := by decide
  passwords := fun _ => rfl
  distinct := nodup_nil
  valid := by simp [defaultUser]
  rules := ⟨CommandRules.start true, KeyRules.all, ChannelRules.all⟩
  selectors := by simp [defaultUser]

/-! ## One rule -/

namespace RulesSound

variable {env : Env} {r r' : RuleSet}

section

variable (h : RulesSound env r) {allow : Bool}

include h

theorem setAllCommands (allow : Bool) :
    RulesSound env (r.setAllCommands allow) :=
  ⟨CommandRules.start allow, h.keys, h.channels⟩

theorem setAllKeys (allow : Bool) : RulesSound env (r.setAllKeys allow) := by
  refine ⟨h.commands, ?_, h.channels⟩
  cases allow with
  | false => exact KeyRules.none
  | true => exact KeyRules.all

theorem setAllChannels (allow : Bool) : RulesSound env (r.setAllChannels allow) := by
  refine ⟨h.commands, h.keys, ?_⟩
  cases allow with
  | false => exact ChannelRules.none
  | true => exact ChannelRules.all

theorem addKeyPattern (hne : p ≠ []) (hparen : 0x29 ∉ p) : RulesSound env (r.addKeyPattern p) := by
  refine ⟨h.commands, ?_, h.channels⟩
  by_cases hstar : p = star
  · subst hstar
    exact KeyRules.all
  · simpa [RuleSet.addKeyPattern, hstar] using h.keys.add hne hstar hparen

theorem addChannelPattern (hparen : 0x29 ∉ p) : RulesSound env (r.addChannelPattern true p) := by
  rw [RuleSet.addChannelPattern]
  split_ifs with hstar hkept
  · exact h.setAllChannels true
  · exact h
  · simp only [Bool.true_and, Bool.or_eq_true, decide_eq_true_eq, not_or, Bool.not_eq_true] at hkept
    have hold : ChannelRules false r.channelPatterns := hkept.1 ▸ h.channels
    refine ⟨h.commands, h.keys, ?_⟩
    simpa [hkept.1] using hold.add hstar hkept.2 hparen

theorem addCategory {category : Bytes}
    (hlower : env.lower category = category) (hparen : 0x29 ∉ category)
    (hadd : r.addCategory env allow category = some r') : RulesSound env r' := by
  obtain ⟨commands, hknown, rfl⟩ := Option.map_eq_some_iff.1 hadd
  exact ⟨h.commands.category allow hknown hlower hparen, h.keys, h.channels⟩

theorem addCommand {command : Bytes}
    (hlower : env.lower command = command) (hat : command.head? ≠ some 0x40)
    (hparen : 0x29 ∉ command) (hadd : r.addCommand allow command = some r') :
    RulesSound env r' := by
  rw [RuleSet.addCommand] at hadd
  split_ifs at hadd with hne
  cases hadd
  exact ⟨h.commands.command allow hne hlower hat hparen, h.keys, h.channels⟩

end

end RulesSound

theorem of_ite_eq {α : Type} {p q : Prop} [Decidable p] {a b c : α} (ha : p → a = c → q)
    (hb : ¬ p → b = c → q) (h : (if p then a else b) = c) : q := by
  rcases ite_eq_iff.1 h with ⟨hp, h⟩ | ⟨hp, h⟩
  · exact ha hp h
  · exact hb hp h

/-! ## Selectors -/

theorem addKeyPattern_paren (h : ∀ q ∈ r.keyPatterns, 0x29 ∉ q)
    (hp : 0x29 ∉ p) : ∀ q ∈ (r.addKeyPattern p).keyPatterns, 0x29 ∉ q := by
  intro q hq
  simp only [addKeyPattern] at hq
  split_ifs at hq with hstar
  · rw [mem_singleton.1 hq]; decide
  · rcases mem_append.1 hq with hq | hq
    · exact h q hq
    · rw [mem_singleton.1 hq]; exact hp

theorem applyACLSelectorRule_sound {r' : RuleSet} (hparen : 0x29 ∉ rule)
    (h : SelectorSound r) (hok : applyACLSelectorRule env r rule = some r') : SelectorSound r' := by
  have htail : 0x29 ∉ rule.tail := fun hmem => hparen (mem_of_mem_tail hmem)
  have hkeys : ∀ allow, ∀ p ∈ (r.setAllKeys allow).keyPatterns, 0x29 ∉ p := by
    intro allow p hp
    cases allow with
    | false => cases hp
    | true => rw [mem_singleton.1 hp]; decide
  have hcategory : ∀ allow c, r.addCategory env allow c = some r' → SelectorSound r' := by
    intro allow c hadd
    obtain ⟨commands, -, rfl⟩ := Option.map_eq_some_iff.1 hadd
    exact ⟨by simp, h.keys⟩
  have hcommand : ∀ allow c, r.addCommand allow c = some r' → SelectorSound r' := by
    intro allow c hadd
    rw [addCommand] at hadd
    split_ifs at hadd
    cases hadd
    exact ⟨by simp, h.keys⟩
  unfold applyACLSelectorRule at hok
  revert hok
  -- the texts in the order of the source
  refine of_ite_eq (fun | _, rfl => ⟨h.commands, hkeys true⟩) fun _ => ?_
  refine of_ite_eq (fun | _, rfl => ⟨h.commands, hkeys false⟩) fun _ => ?_
  refine of_ite_eq (fun | _, rfl => ⟨h.commands, addKeyPattern_paren h.keys htail⟩) fun _ => ?_
  refine of_ite_eq (fun | _, rfl => ⟨h.commands, h.keys⟩) fun _ => ?_
  refine of_ite_eq (fun | _, rfl => ⟨h.commands, h.keys⟩) fun _ => ?_
  refine of_ite_eq (fun | _, rfl => ?_) fun _ => ?_
  · rw [addChannelPattern]
    split_ifs
    · exact ⟨h.commands, h.keys⟩
    · exact h
    · exact ⟨h.commands, h.keys⟩
  refine of_ite_eq (fun | _, rfl => ⟨cons_ne_nil _ _, h.keys⟩) fun _ => ?_
  refine of_ite_eq (fun | _, rfl => ⟨cons_ne_nil _ _, h.keys⟩) fun _ => ?_
  refine of_ite_eq (fun _ => hcategory _ _) fun _ => of_ite_eq (fun _ => hcategory _ _) fun _ => ?_
  exact of_ite_eq (fun _ => hcommand _ _) fun _ => of_ite_eq (fun _ => hcommand _ _) fun _ => nofun

theorem applySelectorRules_sound {rules : List Bytes} (hparen : ∀ rule ∈ rules, 0x29 ∉ rule)
    {r' : RuleSet} (h : SelectorSound r) (hok : applySelectorRules env r rules = some r') :
    SelectorSound r' := by
  induction rules generalizing r with
  | nil =>
    cases hok
    exact h
  | cons rule rules ih =>
    obtain ⟨hrule, hrules⟩ := forall_mem_cons.1 hparen
    obtain ⟨next, hnext, hrest⟩ := Option.bind_eq_some_iff.1 hok
    exact ih hrules (applyACLSelectorRule_sound hrule h hnext) hrest

theorem parseACLSelector_sound {raw : Bytes}
    (hok : parseACLSelector env raw = .ok r) : SelectorSound r := by
  rw [parseACLSelector] at hok
  dsimp only at hok
  split_ifs at hok with _ _ hinside
  split at hok
  · cases hok
  · rename_i selector hselector
    cases hok
    have hparen : ∀ rule ∈ fields raw.tail.dropLast, 0x29 ∉ rule := fun rule hrule hmem =>
      hinside (.inr (mem_of_mem_wordsFrom hrule hmem))
    exact applySelectorRules_sound hparen ⟨cons_ne_nil _ _, fun p hp => by cases hp⟩ hselector

/-! ## Users -/

theorem ACLUser.tryRules_ok {e : AclError} {r : Option RuleSet} :
    u.tryRules e r = .ok v ↔ ∃ r', r = some r' ∧ v = u.withRules r' := by
  cases r with
  | none => simp [tryRules]
  | some r => simp [tryRules, eq_comm]

theorem lower_sign (env : Env) (allow : Bool) (s : Bytes) :
    env.lower (sign allow :: s) = sign allow :: env.lower s := by
  cases allow with
  | false => exact env.lower_cons 0x2D s (by decide)
  | true => exact env.lower_cons 0x2B s (by decide)

namespace Sound

variable {env : Env} {u : ACLUser}

section

variable (h : Sound env u) {hash : Bytes}

include h

theorem withRules {r : RuleSet} (hr : RulesSound env r) :
    Sound env (u.withRules r) :=
  { h with rules := hr }

theorem addPasswordHash (hvalid : validACLPasswordHash hash = true) :
    Sound env (u.addPasswordHash hash) := by
  refine { h with
    passwords := fun hno => (Bool.false_ne_true hno).elim
    distinct := ?_
    valid := ?_ }
  · simp only [ACLUser.addPasswordHash]
    split_ifs with hmem
    · exact h.distinct
    · exact nodup_append.2 ⟨h.distinct, nodup_singleton _, by
        intro a ha b hb heq
        rw [mem_singleton.1 hb] at heq
        exact hmem (heq ▸ ha)⟩
  · intro hash' hmem
    simp only [ACLUser.addPasswordHash] at hmem
    split_ifs at hmem
    · exact h.valid _ hmem
    · rcases mem_append.1 hmem with hmem | hmem
      · exact h.valid _ hmem
      · rw [mem_singleton.1 hmem]; exact hvalid

theorem removePasswordHash {v : ACLUser}
    (hok : u.removeACLPasswordHash rule hash = .ok v) : Sound env v := by
  rw [removeACLPasswordHash] at hok
  split_ifs at hok
  cases hok
  exact { h with
      passwords := fun hno => by rw [h.passwords hno]; rfl
      distinct := h.distinct.erase _
      valid := fun a ha => h.valid a (mem_of_mem_erase ha) }

theorem addSelector {r : RuleSet} (hr : SelectorSound r) :
    Sound env { u with selectors := u.selectors ++ [r] } := by
  refine { h with selectors := fun r' hmem => ?_ }
  rcases mem_append.1 hmem with hmem | hmem
  · exact h.selectors r' hmem
  · rw [mem_singleton.1 hmem]; exact hr

end

end Sound

variable {env : Env} {acl : ACL}

/-- What an accepted rule makes of a user. -/
inductive Applied (env : Env) (u : ACLUser) : ACLUser → Prop
  | selector {r : RuleSet} (hr : SelectorSound r) :
      Applied env u { u with selectors := u.selectors ++ [r] }
  | reset : Applied env u (newACLUser u.name)
  | flags (enabled sanitize : Bool) :
      Applied env u { u with enabled := enabled, sanitizePayload := sanitize }
  | clear (noPass : Bool) : Applied env u { u with noPass := noPass, passwordHashes := [] }
  | remove {rule hash : Bytes} {v : ACLUser} (hok : u.removeACLPasswordHash rule hash = .ok v) :
      Applied env u v
  | add {hash : Bytes} (hvalid : validACLPasswordHash hash = true) :
      Applied env u (u.addPasswordHash hash)
  | rules {r : RuleSet} (hr : RulesSound env u.toRuleSet → RulesSound env r) :
      Applied env u (u.withRules r)

theorem applyRule_applied (hok : applyRule env u rule = .ok v) : Applied env u v := by
  unfold applyRule at hok
  rcases ite_eq_iff.1 hok with ⟨-, hok⟩ | ⟨hparen, hok⟩
  · cases hok
  rcases ite_eq_iff.1 hok with ⟨-, hok⟩ | ⟨hopen, hok⟩
  · split at hok
    · cases hok
    · rename_i selector hselector
      cases hok
      exact .selector (parseACLSelector_sound hselector)
  -- from here on the rule has no closing parenthesis
  have hparen : 0x29 ∉ rule := fun hmem => hparen ⟨hopen, hmem⟩
  have htail : 0x29 ∉ rule.tail := fun hmem => hparen (mem_of_mem_tail hmem)
  have hcategory : ∀ allow e,
      u.tryRules e (u.addCategory env allow (env.lower ((env.lower rule).drop 2))) = .ok v →
      Applied env u v := by
    intro allow e hok
    obtain ⟨r, hr, rfl⟩ := tryRules_ok.1 hok
    refine .rules fun h => h.addCategory (env.lower_lower _) ?_ hr
    exact env.lower_paren _ fun hmem => env.lower_paren _ hparen (mem_of_mem_drop hmem)
  -- a command does not start with `@`, or its text would have been a category
  have hcommand : ∀ allow e, rule.head? = some (sign allow) →
      (env.lower rule).take 2 ≠ [sign allow, 0x40] →
      u.tryRules e (u.addCommand allow (env.lower rule.tail)) = .ok v → Applied env u v := by
    intro allow e hhead htake hok
    obtain ⟨r, hr, rfl⟩ := tryRules_ok.1 hok
    refine .rules fun h => h.addCommand (env.lower_lower _) ?_ (env.lower_paren _ htail) hr
    intro hat
    obtain ⟨s, rfl⟩ : ∃ s, rule = sign allow :: s := head?_eq_some_iff.1 hhead
    obtain ⟨s', hs'⟩ := head?_eq_some_iff.1 hat
    rw [tail_cons] at hs'
    rw [lower_sign, hs'] at htake
    exact htake rfl
  revert hok
  refine of_ite_eq (fun | _, rfl => .reset) fun _ => ?_
  refine of_ite_eq (fun | _, rfl => .flags true _) fun _ => ?_
  refine of_ite_eq (fun | _, rfl => .flags false _) fun _ => ?_
  refine of_ite_eq (fun | _, rfl => .clear true) fun _ => ?_
  refine of_ite_eq (fun | _, rfl => .clear false) fun _ => ?_
  refine of_ite_eq (fun | _, rfl => .flags _ true) fun _ => ?_
  refine of_ite_eq (fun | _, rfl => .flags _ false) fun _ => ?_
  refine of_ite_eq (fun | _, rfl => .rules fun h => h.setAllChannels false) fun _ => ?_
  refine of_ite_eq (fun | _, rfl => .rules fun h => h.setAllChannels true) fun _ => ?_
  refine of_ite_eq (fun | _, rfl => .rules fun h => h.addChannelPattern htail) fun _ => ?_
  -- passwords
  refine of_ite_eq (fun _ => .remove) fun _ => ?_
  refine of_ite_eq (fun _ => of_ite_eq nofun fun _ => .remove) fun _ => ?_
  refine of_ite_eq (fun _ => of_ite_eq nofun fun
    | hvalid, rfl => .add (not_not.1 hvalid)) fun _ => ?_
  refine of_ite_eq (fun | _, rfl => .add (env.passwordHash_valid _)) fun _ => ?_
  -- keys
  refine of_ite_eq (fun | _, rfl => .rules fun h => h.setAllKeys true) fun _ => ?_
  refine of_ite_eq (fun | _, rfl => .rules fun h => h.setAllKeys false) fun _ => ?_
  refine of_ite_eq (fun _ => of_ite_eq nofun fun
    | hne, rfl => .rules fun h => h.addKeyPattern hne htail) fun _ => ?_
  -- commands
  refine of_ite_eq (fun | _, rfl => .rules fun h => h.setAllCommands true) fun _ => ?_
  refine of_ite_eq (fun | _, rfl => .rules fun h => h.setAllCommands false) fun _ => ?_
  refine of_ite_eq (fun _ => hcategory _ _) fun hplus => ?_
  refine of_ite_eq (fun _ => hcategory _ _) fun hminus => ?_
  refine of_ite_eq (fun hhead => hcommand true _ hhead hplus) fun _ => ?_
  exact of_ite_eq (fun hhead => hcommand false _ hhead hminus) fun _ => nofun

theorem Applied.name_eq (h : Applied env u v) : v.name = u.name := by
  cases h with
  | remove hok =>
    rw [removeACLPasswordHash] at hok
    split_ifs at hok
    cases hok
    rfl
  | _ => rfl

theorem Applied.sound (h : Applied env u v) (hu : Sound env u) : Sound env v := by
  cases h with
  | selector hr => exact hu.addSelector hr
  | reset => exact Sound.new env hu.named
  | flags enabled sanitize => exact { hu with }
  | clear noPass =>
    exact { hu with passwords := fun _ => rfl, distinct := nodup_nil, valid := nofun }
  | remove hok => exact hu.removePasswordHash hok
  | add hvalid => exact hu.addPasswordHash hvalid
  | rules hr => exact hu.withRules (hr hu.rules)

theorem applyRules_sound (h : Sound env u) (rules : List Bytes) :
    Sound env (applyRules env u rules).1 := by
  induction rules generalizing u with
  | nil => exact h
  | cons rule rules ih =>
    rw [applyRules]
    split
    · exact h
    next v hv => exact ih ((applyRule_applied hv).sound h)

/-! ## All users -/

structure AclSound (env : Env) (acl : ACL) : Prop where
  users : ∀ u ∈ acl, Sound env u
  names : (acl.map ACLUser.name).Nodup

theorem AclSound.new (env : Env) : AclSound env newACL where
  users := by simpa [newACL] using Sound.default env
  names := nodup_singleton _

theorem ACL.user?_some (h : acl.user? name = some u) :
    u ∈ acl ∧ u.name = name :=
  ⟨mem_of_find?_eq_some h, by simpa using find?_some h⟩

theorem ACL.user?_none : acl.user? name = none ↔ name ∉ acl.map ACLUser.name := by
  simp [ACL.user?]

theorem AclSound.put (h : AclSound env acl) (hu : Sound env u) : AclSound env (acl.put u) := by
  rw [ACL.put]
  split_ifs with hknown
  · constructor
    · intro v hv
      obtain ⟨w, hw, rfl⟩ := mem_map.1 hv
      split_ifs
      · exact hu
      · exact h.users w hw
    · -- the names stay as they are
      have hnames : (acl.map fun v => if v.name = u.name then u else v).map ACLUser.name =
          acl.map ACLUser.name := by
        rw [map_map]
        refine map_congr_left fun v _ => ?_
        simp only [Function.comp_apply]
        split_ifs with heq
        · exact heq.symm
        · rfl
      rw [hnames]
      exact h.names
  · have hnew : u.name ∉ acl.map ACLUser.name := by simpa [ACL.user?_none] using hknown
    constructor
    · exact forall_mem_append.2 ⟨h.users, forall_mem_singleton.2 hu⟩
    · rw [map_append, map_singleton]
      exact nodup_append.2 ⟨h.names, nodup_singleton _, by
        intro a ha b hb heq
        rw [mem_singleton.1 hb] at heq
        exact hnew (heq ▸ ha)⟩

theorem AclSound.setUser (h : AclSound env acl) (name : Bytes) (rules : List Bytes) :
    AclSound env (setUser env acl name rules).2 := by
  rw [Acl.setUser]
  split_ifs with hname
  · exact h
  · split
    · exact h
    · refine h.put (applyRules_sound ?_ rules)
      cases hold : acl.user? name with
      | none => exact Sound.new env hname
      | some u => exact h.users u (ACL.user?_some hold).1

theorem AclSound.deleteUsers (h : AclSound env acl) (names : List Bytes) :
    AclSound env (deleteUsers acl names) where
  users := fun u hu => h.users u (mem_filter.1 hu).1
  names := h.names.sublist (filter_sublist.map _)

/-! ## Histories -/

inductive AclCommand where
  | setUser (name : Bytes) (rules : List Bytes)
  | delUser (names : List Bytes)
  deriving DecidableEq, Repr

/-- What a command leaves, whether it is accepted or not. -/
def AclCommand.apply (env : Env) (acl : ACL) : AclCommand → ACL
  | .setUser name rules => (Acl.setUser env acl name rules).2
  | .delUser names => deleteUsers acl names

def history (env : Env) (commands : List AclCommand) : ACL :=
  commands.foldl (AclCommand.apply env) newACL

theorem history_sound (env : Env) (commands : List AclCommand) :
    AclSound env (history env commands) := by
  unfold history
  induction commands using reverseRecOn with
  | nil => exact AclSound.new env
  | append_singleton commands command ih =>
    rw [foldl_append, foldl_cons, foldl_nil]
    cases command with
    | setUser name rules => exact ih.setUser name rules
    | delUser names => exact ih.deleteUsers names

end Acl
end SnugKV
