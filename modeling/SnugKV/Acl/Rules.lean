import SnugKV.Lib.Fields
import SnugKV.Lib.Hex
import SnugKV.Lib.Rank
import SnugKV.Lib.Utf8

/-!
# Rules — ACL users and the rules that change them

The users of `server/acl.go` and the selectors of `server/acl_selectors.go`.  A user has rules of
its own and any number of selectors, each with the same three parts: commands, keys and channels.
`SETUSER` applies rule texts one after the other; a text that is refused leaves what the ones before
it have done.

What comes from outside is in `Env`: the case mapping of Unicode, the table of command categories
and the password hash.
-/

namespace SnugKV
namespace Acl

open Lib

def lowerByte (b : UInt8) : UInt8 :=
  if 0x41 ≤ b && b ≤ 0x5A then b + 0x20 else b

def validACLPasswordHash (hash : Bytes) : Bool :=
  hash.length == 64 && hash.all fun ch => (0x30 ≤ ch && ch ≤ 0x39) || (0x61 ≤ ch && ch ≤ 0x66)

/-- Unicode, the command categories and SHA-256, with what the rules need to know of them. -/
structure Env where
  /-- `strings.ToLower`. -/
  lower : Bytes → Bytes
  lower_nil : lower [] = []
  /-- An ASCII byte is mapped by itself. -/
  lower_cons : ∀ a s, a < 0x80 → lower (a :: s) = lowerByte a :: lower s
  lower_lower : ∀ s, lower (lower s) = lower s
  /-- No other letter is mapped to a closing parenthesis. -/
  lower_paren : ∀ s, 0x29 ∉ s → 0x29 ∉ lower s
  /-- `aclCommandsForCategory`. -/
  categories : Bytes → Option (List Bytes)
  /-- `all` is not a category of the table. -/
  categories_all : categories (ascii "all") = none
  /-- The SHA-256 of a password, in hexadecimal. -/
  passwordHash : Bytes → Bytes
  passwordHash_valid : ∀ password, validACLPasswordHash (passwordHash password) = true

inductive AclError where
  /-- `ERR invalid username`. -/
  | username
  /-- `Unknown command or category name in ACL`. -/
  | unknown (rule : Bytes)
  /-- `Unmatched parenthesis in acl selector`. -/
  | unmatched (rule : Bytes)
  /-- `Syntax error`. -/
  | malformed (rule : Bytes)
  /-- `The password you are trying to remove from the user does not exist`. -/
  | noPassword (rule : Bytes)
  /-- `The password hash must be exactly 64 characters …`. -/
  | badHash (rule : Bytes)
  /-- `ERR Error in ACL SETUSER modifier`. -/
  | modifier
  deriving DecidableEq, Repr

/-! ## Users -/

/-- Commands, keys and channels: the fields of a selector, and of a user's own rules.  The map of
single commands is a list of its assignments, the last one first. -/
structure RuleSet where
  allCommands : Bool
  commandRules : List Bytes
  commandAllow : List (Bytes × Bool)
  allKeys : Bool
  keyPatterns : List Bytes
  allChannels : Bool
  channelPatterns : List Bytes
  deriving DecidableEq, Repr

structure ACLUser extends RuleSet where
  name : Bytes
  enabled : Bool
  noPass : Bool
  passwordHashes : List Bytes
  sanitizePayload : Bool
  selectors : List RuleSet
  deriving DecidableEq, Repr

def newACLSelector : RuleSet where
  allCommands := false
  commandRules := [ascii "-@all"]
  commandAllow := []
  allKeys := false
  keyPatterns := []
  allChannels := false
  channelPatterns := []

/-- `newACLUser`, and what `reset` leaves. -/
def newACLUser (name : Bytes) : ACLUser where
  toRuleSet := newACLSelector
  name := name
  enabled := false
  noPass := false
  passwordHashes := []
  sanitizePayload := true
  selectors := []

def star : Bytes := ascii "*"

def defaultUser : ACLUser where
  allCommands := true
  commandRules := [ascii "+@all"]
  commandAllow := []
  allKeys := true
  keyPatterns := [star]
  allChannels := true
  channelPatterns := [star]
  name := ascii "default"
  enabled := true
  noPass := true
  passwordHashes := []
  sanitizePayload := true
  selectors := []

/-! ## Rules for commands, keys and channels -/

namespace RuleSet

/-- `allcommands` and `nocommands`. -/
def setAllCommands (r : RuleSet) (allow : Bool) : RuleSet :=
  { r with
    allCommands := allow
    commandAllow := []
    commandRules := [if allow then ascii "+@all" else ascii "-@all"] }

def sign (allow : Bool) : UInt8 :=
  if allow then 0x2B else 0x2D

/-- `+@category` and `-@category`. -/
def addCategory (env : Env) (r : RuleSet) (allow : Bool) (category : Bytes) : Option RuleSet :=
  (env.categories category).map fun commands =>
    { r with
      commandAllow := (commands.map fun c => (c, allow)).reverse ++ r.commandAllow
      commandRules := r.commandRules ++ [sign allow :: 0x40 :: category] }

/-- `+command` and `-command`. -/
def addCommand (r : RuleSet) (allow : Bool) (command : Bytes) : Option RuleSet :=
  if command = [] then none
  else some
    { r with
      commandAllow := (command, allow) :: r.commandAllow
      commandRules := r.commandRules ++ [sign allow :: command] }

def setAllKeys (r : RuleSet) (allow : Bool) : RuleSet :=
  { r with allKeys := allow, keyPatterns := if allow then [star] else [] }

/-- `~pattern`; any pattern but `*` takes `allkeys` back. -/
def addKeyPattern (r : RuleSet) (pattern : Bytes) : RuleSet :=
  { r with
    allKeys := pattern = star
    keyPatterns := if pattern = star then [star] else r.keyPatterns ++ [pattern] }

def setAllChannels (r : RuleSet) (allow : Bool) : RuleSet :=
  { r with allChannels := allow, channelPatterns := if allow then [star] else [] }

/-- `&pattern`; a user keeps a pattern once, a selector as often as it is given. -/
def addChannelPattern (r : RuleSet) (once : Bool) (pattern : Bytes) : RuleSet :=
  if pattern = star then r.setAllChannels true
  else if r.allChannels || (once && pattern ∈ r.channelPatterns) then r
  else { r with channelPatterns := r.channelPatterns ++ [pattern] }

end RuleSet

/-! ## Selectors -/

def applyACLSelectorRule (env : Env) (r : RuleSet) (rule : Bytes) : Option RuleSet :=
  let lower := env.lower rule
  if lower = ascii "allkeys" then some (r.setAllKeys true)
  else if lower = ascii "resetkeys" then some (r.setAllKeys false)
  else if rule.head? = some 0x7E then some (r.addKeyPattern rule.tail)
  else if lower = ascii "allchannels" then some (r.setAllChannels true)
  else if lower = ascii "resetchannels" then some (r.setAllChannels false)
  else if rule.head? = some 0x26 then some (r.addChannelPattern false rule.tail)
  else if lower = ascii "allcommands" ∨ lower = ascii "+@all" then some (r.setAllCommands true)
  else if lower = ascii "nocommands" ∨ lower = ascii "-@all" then some (r.setAllCommands false)
  else if lower.take 2 = ascii "+@" then r.addCategory env true (lower.drop 2)
  else if lower.take 2 = ascii "-@" then r.addCategory env false (lower.drop 2)
  else if rule.head? = some 0x2B then r.addCommand true (env.lower rule.tail)
  else if rule.head? = some 0x2D then r.addCommand false (env.lower rule.tail)
  else none

def applySelectorRules (env : Env) : RuleSet → List Bytes → Option RuleSet
  | r, [] => some r
  | r, rule :: rules => do
      let r ← applyACLSelectorRule env r rule
      applySelectorRules env r rules

def parseACLSelector (env : Env) (raw : Bytes) : Except AclError RuleSet :=
  if raw.head? ≠ some 0x28 then .error (.malformed raw)
  else if raw.getLast? ≠ some 0x29 then .error (.unmatched raw)
  else
    let inside := raw.tail.dropLast
    if 0x28 ∈ inside ∨ 0x29 ∈ inside then .error (.malformed raw)
    else
      match applySelectorRules env newACLSelector (fields inside) with
      | none => .error (.malformed raw)
      | some selector => .ok selector

/-! ## Rules for users -/

/-- `strings.EqualFold` with an ASCII text.  Two letters outside ASCII fold to one inside: the long
s and the Kelvin sign. -/
def equalFold : Bytes → Bytes → Bool
  | [], [] => true
  | a :: s, c :: cs =>
    if lowerByte a = lowerByte c then equalFold s cs
    else
      match a == 0xC5, s with
      | true, b :: s => b == 0xBF && lowerByte c == 0x73 && equalFold s cs
      | _, _ =>
        match a == 0xE2, s with
        | true, b :: b' :: s =>
          b == 0x84 && b' == 0xAA && lowerByte c == 0x6B && equalFold s cs
        | _, _ => false
  | _, _ => false

namespace ACLUser

def addPasswordHash (u : ACLUser) (hash : Bytes) : ACLUser :=
  { u with
    noPass := false
    passwordHashes :=
      if hash ∈ u.passwordHashes then u.passwordHashes else u.passwordHashes ++ [hash] }

def removeACLPasswordHash (u : ACLUser) (rule hash : Bytes) : Except AclError ACLUser :=
  if hash ∈ u.passwordHashes then .ok { u with passwordHashes := u.passwordHashes.erase hash }
  else .error (.noPassword rule)

/-- A change of the user's own commands, keys or channels. -/
def withRules (u : ACLUser) (r : RuleSet) : ACLUser :=
  { u with toRuleSet := r }

def tryRules (u : ACLUser) (e : AclError) : Option RuleSet → Except AclError ACLUser
  | none => .error e
  | some r => .ok (u.withRules r)

end ACLUser

/-- One rule of `SetUser`. -/
def applyRule (env : Env) (u : ACLUser) (rule : Bytes) : Except AclError ACLUser :=
  let is (text : String) : Bool := equalFold rule (ascii text)
  if rule.head? ≠ some 0x28 ∧ 0x29 ∈ rule then .error (.unknown rule)
  else if rule.head? = some 0x28 then
    match parseACLSelector env rule with
    | .error e => .error e
    | .ok selector => .ok { u with selectors := u.selectors ++ [selector] }
  else if is "reset" then .ok (newACLUser u.name)
  else if is "on" then .ok { u with enabled := true }
  else if is "off" then .ok { u with enabled := false }
  else if is "nopass" then .ok { u with noPass := true, passwordHashes := [] }
  else if is "resetpass" then .ok { u with noPass := false, passwordHashes := [] }
  else if is "sanitize-payload" then .ok { u with sanitizePayload := true }
  else if is "skip-sanitize-payload" then .ok { u with sanitizePayload := false }
  else if is "resetchannels" then .ok (u.withRules (u.setAllChannels false))
  else if is "allchannels" then .ok (u.withRules (u.setAllChannels true))
  else if rule.head? = some 0x26 then .ok (u.withRules (u.addChannelPattern true rule.tail))
  else if rule.head? = some 0x3C then u.removeACLPasswordHash rule (env.passwordHash rule.tail)
  else if rule.head? = some 0x21 then
    if ¬ validACLPasswordHash rule.tail then .error (.badHash rule)
    else u.removeACLPasswordHash rule rule.tail
  else if rule.head? = some 0x23 then
    if ¬ validACLPasswordHash rule.tail then .error (.badHash rule)
    else .ok (u.addPasswordHash rule.tail)
  else if rule.head? = some 0x3E then .ok (u.addPasswordHash (env.passwordHash rule.tail))
  else if is "allkeys" then .ok (u.withRules (u.setAllKeys true))
  else if is "resetkeys" then .ok (u.withRules (u.setAllKeys false))
  else if rule.head? = some 0x7E then
    if rule.tail = [] then .error .modifier else .ok (u.withRules (u.addKeyPattern rule.tail))
  else if is "allcommands" ∨ is "+@all" then .ok (u.withRules (u.setAllCommands true))
  else if is "nocommands" ∨ is "-@all" then .ok (u.withRules (u.setAllCommands false))
  else if (env.lower rule).take 2 = ascii "+@" then
    u.tryRules (.unknown rule) (u.addCategory env true (env.lower ((env.lower rule).drop 2)))
  else if (env.lower rule).take 2 = ascii "-@" then
    u.tryRules (.unknown rule) (u.addCategory env false (env.lower ((env.lower rule).drop 2)))
  else if rule.head? = some 0x2B then
    u.tryRules .modifier (u.addCommand true (env.lower rule.tail))
  else if rule.head? = some 0x2D then
    u.tryRules .modifier (u.addCommand false (env.lower rule.tail))
  else .error (.malformed rule)

/-- The rules in turn, up to the first that is refused. -/
def applyRules (env : Env) : ACLUser → List Bytes → ACLUser × Option AclError
  | u, [] => (u, none)
  | u, rule :: rules =>
    match applyRule env u rule with
    | .error e => (u, some e)
    | .ok u => applyRules env u rules

/-! ## All users -/

/-- The map of users, by name. -/
abbrev ACL := List ACLUser

namespace ACL

def user? (acl : ACL) (name : Bytes) : Option ACLUser :=
  acl.find? fun u => u.name == name

def put (acl : ACL) (u : ACLUser) : ACL :=
  if (acl.user? u.name).isSome then acl.map fun v => if v.name = u.name then u else v
  else acl ++ [u]

end ACL

/-- A category rule whose category is not in the table; such a call changes nothing. -/
def unknownCategory (env : Env) (rule : Bytes) : Bool :=
  let lower := env.lower rule
  (lower.take 2 = ascii "+@" ∨ lower.take 2 = ascii "-@") && lower.drop 2 ≠ ascii "all" &&
    (env.categories (lower.drop 2)).isNone

def setUser (env : Env) (acl : ACL) (name : Bytes) (rules : List Bytes) : Option AclError × ACL :=
  if name = [] then (some .username, acl)
  else
    match rules.find? (unknownCategory env) with
    | some rule => (some (.unknown rule), acl)
    | none =>
      let (u, err) := applyRules env ((acl.user? name).getD (newACLUser name)) rules
      (err, acl.put u)

/-- `DeleteUsers`; the default user stays. -/
def deleteUsers (acl : ACL) (names : List Bytes) : ACL :=
  acl.filter fun u => u.name = ascii "default" ∨ u.name ∉ names

def newACL : ACL := [defaultUser]

/-! ## Passwords -/

/-- `hex.DecodeString`. -/
def decodeHex (s : Bytes) : Option Bytes :=
  if s.length % 2 = 0 ∧ s.all (fun c => Hex.classOf c ≠ .none) then some (Hex.packPairs s) else none

def constantTimeHexEqual (a b : Bytes) : Bool :=
  match decodeHex a, decodeHex b with
  | some a, some b => a == b
  | _, _ => false

def authenticate (env : Env) (acl : ACL) (username password : Bytes) : Bool :=
  match acl.user? username with
  | none => false
  | some u =>
    u.enabled && (u.noPass ||
      u.passwordHashes.any fun candidate =>
        constantTimeHexEqual candidate (env.passwordHash password))

end Acl
end SnugKV
