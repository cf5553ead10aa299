import Anubis.Common.Values

/-!
# Masking secrets and putting them back

`internal/api/secret_redaction.go`, as far as it is about values: what a reader
of a configuration gets to see, and how an update that carries the mask is
merged with what is stored.
-/

namespace Anubis.Api

open Text Entries

/-- `redactedSecretValue`. -/
def redactedSecretValue : String := "[REDACTED]"

/-- `secretFieldNames`. -/
def secretFieldNames : List String :=
  ["password", "pass", "secret", "token", "auth_token", "bot_token", "api_key", "integration_key",
    "webhook_url"]

/-- `secretContainerNames`. -/
def secretContainerNames : List String := ["headers", "metadata", "auth", "config"]

/-- `isSecretField`. -/
def isSecretField (name : String) : Bool := secretFieldNames.contains (lower name)

/-- `isSecretContainer`. -/
def isSecretContainer (name : String) : Bool := secretContainerNames.contains (lower name)

/-! ## Masking -/

/-- `redactSecretValue`. -/
def redactSecretValue (value : String) :
    String := if blank value then value else redactedSecretValue

/-- `redactStringMap`. -/
def redactStringMap (src : List (String × String)) : List (String × Value) × Bool :=
  (src.map fun e => (e.1, .string (redactSecretValue e.2)), src.any fun e => !blank e.2)

/-- A string, masked or not. -/
def redactString (s : String) (forceSecret : Bool) : Value × Bool :=
  if forceSecret then (.string (redactSecretValue s), !blank s) else (.string s, false)

mutual

/-- `redactAnyValue`: the value a reader gets, and whether it hides anything. The
text of a number or a boolean is never blank. -/
def redactAnyValue (value : Value) (forceSecret : Bool) : Value × Bool :=
  match value with
  | .null => (.null, false)
  | .string s => redactString s forceSecret
  | .stringMap m =>
    if forceSecret then (.map (redactStringMap m).1, (redactStringMap m).2)
    else
      let children := m.map fun e =>
        (e.1, redactString e.2 (isSecretField e.1 || isSecretContainer e.1))
      (.map (children.map fun e => (e.1, e.2.1)), children.any fun e => e.2.2)
  | .map m => (.map (redactEntries m forceSecret).1, (redactEntries m forceSecret).2)
  | .strings l =>
    if forceSecret then (.list (l.map fun s => .string (redactSecretValue s)),
      l.any fun s => !blank s)
    else (.strings l, false)
  | .list l => (.list (redactItems l forceSecret).1, (redactItems l forceSecret).2)
  | .number n => if forceSecret then (.string redactedSecretValue, true) else (.number n, false)
  | .boolean b => if forceSecret then (.string redactedSecretValue, true) else (.boolean b, false)

/-- The children of a map. -/
def redactEntries (m : List (String × Value)) (forceSecret : Bool) : List (String × Value) × Bool :=
  match m with
  | [] => ([], false)
  | (key, child) :: rest =>
    let redacted := redactAnyValue child (forceSecret || isSecretField key || isSecretContainer key)
    let others := redactEntries rest forceSecret
    ((key, redacted.1) :: others.1, redacted.2 || others.2)

/-- The items of a list. -/
def redactItems (l : List Value) (forceSecret : Bool) : List Value × Bool :=
  match l with
  | [] => ([], false)
  | item :: rest =>
    let redacted := redactAnyValue item forceSecret
    let others := redactItems rest forceSecret
    (redacted.1 :: others.1, redacted.2 || others.2)

end

/-- `redactChannelConfig`. -/
def redactChannelConfig (config : List (String × Value)) : List (String × Value) × Bool :=
    redactEntries config true

/-! ## Merging -/

/-- `isRedactedSecretString`. -/
def isRedactedSecretString (value : String) : Bool :=
  blank value || trimSpace value = redactedSecretValue || trimSpace value = "***"

/-- `preserveSecretString`. -/
def preserveSecretString (existing incoming : String) : String :=
  if isRedactedSecretString incoming then existing else incoming

/-- `mergeSecretStringMap`. A map that is not there is empty. -/
def mergeSecretStringMap (existing incoming : List (String × String)) : List (String × String) :=
  incoming.foldl
    (fun merged e => set merged e.1 (preserveSecretString ((existing.lookup e.1).getD "") e.2))
    existing

/-- The stored value as a map. -/
def asMap : Option Value → List (String × Value)
  | some (.map m) => m
  | _ => []

/-- The stored value as a map of strings. -/
def asStringMap : Option Value → List (String × String)
  | some (.stringMap m) => m
  | _ => []

mutual

/-- What `mergeSecretAnyMap` stores for a key, given what is stored for it. -/
def mergeValue (current : Option Value) (value : Value) : Value :=
  match value with
  | .string typed =>
    match current with
    | some (.string currentString) => .string (preserveSecretString currentString typed)
    | _ => .string typed
  | .map typed => .map (mergeEntries (asMap current) typed (asMap current))
  | .stringMap typed => .stringMap (mergeSecretStringMap (asStringMap current) typed)
  | value => value

/-- The loop of `mergeSecretAnyMap`. -/
def mergeEntries (existing : List (String × Value)) (incoming merged : List (String × Value)) :
    List (String × Value) :=
  match incoming with
  | [] => merged
  | (key, value) :: rest =>
    mergeEntries existing rest (set merged key (mergeValue (existing.lookup key) value))

end

/-- `mergeSecretAnyMap`. -/
def mergeSecretAnyMap (existing incoming : List (String × Value)) : List (String × Value) :=
  mergeEntries existing incoming existing

/-!
## Alert channels

An update of an alert channel as `mergeChannelSecrets` of
`internal/api/secret_redaction.go` completes it.
-/

/-- `core.AlertChannelType`. -/
inductive AlertChannelType
  | email
  | slack
  | discord
  | telegram
  | pagerDuty
  | opsGenie
  | ntfy
  | webHook
  | sms
  | mcp
  | other (name : String)
deriving DecidableEq

/-- `core.AlertChannel`, as far as an update or a dispatcher looks at it. -/
structure AlertChannel where
  type : AlertChannelType
  config : List (String × Value)
  distinct : (keys config).Nodup

/-- A value as a string. -/
def asString : Option Value → Option String
  | some (.string s) => some s
  | _ => none

/-- A field of a configuration, as a string. -/
def stringField (config : List (String × Value)) (key : String) : Option String :=
    asString (config.lookup key)

/-! ## The update -/

/-- `channelDestinationChanged`. -/
def channelDestinationChanged (existing incoming : List (String × Value)) : Bool :=
  ["url", "webhook_url"].any fun key =>
    match stringField existing key, stringField incoming key with
    | some old, some new => old ≠ new && !isRedactedSecretString new
    | _, _ => false

/-- A mask. -/
def isMask : Value → Bool
  | .string s => isRedactedSecretString s
  | _ => false

/-- `hasRedactedConfigValues`: a mask at the top or one level below. -/
def hasRedactedConfigValues (config : List (String × Value)) : Bool :=
  config.any fun e =>
    isMask e.2 ||
      match e.2 with
      | .map m => m.any fun child => isMask child.2
      | _ => false

/-- `mergeChannelSecrets`: the configuration that the update ends up with. -/
def mergeChannelSecrets (existing incoming : AlertChannel) :
    Except String (List (String × Value)) :=
  if existing.type ≠ incoming.type then .ok incoming.config
  else if channelDestinationChanged existing.config incoming.config then
    if hasRedactedConfigValues incoming.config then
      .error "channel destination changed: secrets must be re-entered for the new destination"
    else .ok incoming.config
  else .ok (mergeSecretAnyMap existing.config incoming.config)

/-!
## What masking and merging do to one key

Masking keeps the keys of a map and masks each value. Merging sets each key of
the update to the merged value and leaves the others.
-/

variable {existing incoming merged m : List (String × Value)} {forceSecret : Bool} {k : String}

/-! ## Masking -/

theorem keys_redactEntries : keys (redactEntries m forceSecret).1 = keys m := by
  induction m with
  | nil => rfl
  | cons e rest ih =>
    obtain ⟨key, child⟩ := e
    rw [redactEntries, keys_cons, keys_cons, ih]

theorem lookup_redactEntries :
    (redactEntries m true).1.lookup k = (m.lookup k).map fun v => (redactAnyValue v true).1 := by
  induction m with
  | nil => rfl
  | cons e rest ih =>
    obtain ⟨key, child⟩ := e
    rw [redactEntries, lookup_cons, lookup_cons, ih]
    split <;> rfl

/-- A blank text and the mask stand for what is stored. -/
theorem isRedactedSecretString_redactSecretValue (s : String) :
    isRedactedSecretString (redactSecretValue s) = true := by
  unfold redactSecretValue
  split
  · next h => simp [isRedactedSecretString, h]
  · decide

/-! ## Merging -/

/-- **Merging, key by key.** -/
theorem lookup_mergeEntries (hin : (keys incoming).Nodup) :
    (mergeEntries existing incoming merged).lookup k =
      match incoming.lookup k with
      | some v => some (mergeValue (existing.lookup k) v)
      | none => merged.lookup k := by
  induction incoming generalizing merged with
  | nil => rfl
  | cons e rest ih =>
    obtain ⟨key, value⟩ := e
    rw [keys_cons, List.nodup_cons] at hin
    rw [mergeEntries, ih hin.2, lookup_cons, lookup_set]
    by_cases hkey : k = key
    · subst hkey
      rw [lookup_eq_none hin.1, if_pos rfl, if_pos rfl]
    · rw [if_neg hkey, if_neg hkey]

theorem lookup_mergeSecretAnyMap (hin : (keys incoming).Nodup) :
    (mergeSecretAnyMap existing incoming).lookup k =
      match incoming.lookup k with
      | some v => some (mergeValue (existing.lookup k) v)
      | none => existing.lookup k :=
  lookup_mergeEntries hin

/-- An update with no new keys brings none. -/
theorem keys_mergeEntries (hin : ∀ key ∈ keys incoming, key ∈ keys merged) :
    keys (mergeEntries existing incoming merged) = keys merged := by
  induction incoming generalizing merged with
  | nil => rfl
  | cons e rest ih =>
    obtain ⟨key, value⟩ := e
    rw [mergeEntries]
    have hset := keys_set (v := mergeValue (existing.lookup key) value) (hin key (.head _))
    rw [ih, hset]
    rw [hset]
    exact fun k hk => hin k (.tail _ hk)

end Anubis.Api
