import Anubis.Api.Model.Channels

/-!
# Sending a channel back unchanged

A reader of an alert channel gets its configuration with every value masked. If
it is sent back as it is, the stored strings come back, also inside maps. What
is not a string does not: a number or a boolean is masked by a string that
nothing stored stands for, and the items of a list are taken as they come.
`restorable` says of which configurations nothing is lost.
-/

namespace Anubis.Api

open Text Entries List

mutual

/-- Each key comes once, in every map of a value. -/
def distinct : Value → Prop
  | .list l => distinctItems l
  | .map m => (Entries.keys m).Nodup ∧ distinctEntries m
  | .stringMap m => (Entries.keys m).Nodup
  | _ => True

/-- Each key comes once, in every map of every item. -/
def distinctItems : List Value → Prop
  | [] => True
  | item :: rest => distinct item ∧ distinctItems rest

/-- Each key comes once, in every map of every child. -/
def distinctEntries : List (String × Value) → Prop
  | [] => True
  | (_, child) :: rest => distinct child ∧ distinctEntries rest

end

mutual

/-- Masking leaves the value as it is. -/
def unmasked : Value → Bool
  | .null => true
  | .string s => blank s || s = redactedSecretValue
  | .list l => unmaskedItems l
  | .map m => unmaskedEntries m
  | _ => false

/-- Masking leaves the items as they are. -/
def unmaskedItems : List Value → Bool
  | [] => true
  | item :: rest => unmasked item && unmaskedItems rest

/-- Masking leaves the children as they are. -/
def unmaskedEntries : List (String × Value) → Bool
  | [] => true
  | (_, child) :: rest => unmasked child && unmaskedEntries rest

end

mutual

/-- **The value comes back from its masked copy**: it is a string, nothing, a list
that masking leaves as it is, or a map of such values. -/
def restorable : Value → Bool
  | .null => true
  | .string _ => true
  | .list l => unmaskedItems l
  | .map m => restorableEntries m
  | _ => false

/-- Every child comes back. -/
def restorableEntries : List (String × Value) → Bool
  | [] => true
  | (_, child) :: rest => restorable child && restorableEntries rest

end

/-! ## What masking changes -/

theorem redactSecretValue_eq_iff (s : String) :
    redactSecretValue s = s ↔ (blank s || s = redactedSecretValue) = true := by
  unfold redactSecretValue
  split
  · next h => simp [h]
  · next h => simp [h, eq_comm]

mutual

theorem redact_eq_iff (v : Value) : (redactAnyValue v true).1 = v ↔ unmasked v = true := by
  match v with
  | .null | .number _ | .boolean _ | .strings _ | .stringMap _ => simp [redactAnyValue, unmasked]
  | .string s =>
    simp only [redactAnyValue, redactString, if_true, unmasked, Value.string.injEq]
    exact redactSecretValue_eq_iff s
  | .list l =>
    simp only [redactAnyValue, unmasked, Value.list.injEq]
    exact redactItems_eq_iff l
  | .map m =>
    simp only [redactAnyValue, unmasked, Value.map.injEq]
    exact redactEntries_eq_iff m

theorem redactItems_eq_iff (l : List Value) : (redactItems l true).1 = l ↔
    unmaskedItems l = true := by
  match l with
  | [] => simp [redactItems, unmaskedItems]
  | item :: rest =>
    simp only [redactItems, unmaskedItems, cons.injEq, Bool.and_eq_true]
    exact and_congr (redact_eq_iff item) (redactItems_eq_iff rest)

theorem redactEntries_eq_iff (m : List (String × Value)) :
    (redactEntries m true).1 = m ↔ unmaskedEntries m = true := by
  match m with
  | [] => simp [redactEntries, unmaskedEntries]
  | (key, child) :: rest =>
    simp only [redactEntries, unmaskedEntries, Bool.true_or, cons.injEq, Prod.mk.injEq, true_and,
      Bool.and_eq_true]
    exact and_congr (redact_eq_iff child) (redactEntries_eq_iff rest)

end

/-! ## What merging restores -/

/-- A map is restored if each of its values is. -/
theorem mergeEntries_redact_iff {m : List (String × Value)} (hm : (Entries.keys m).Nodup) :
    mergeEntries m (redactEntries m true).1 m = m ↔
      ∀ e ∈ m, mergeValue (some e.2) (redactAnyValue e.2 true).1 = e.2 := by
  have hkeys : Entries.keys (mergeEntries m (redactEntries m true).1 m) = Entries.keys m :=
    keys_mergeEntries fun key hkey => by rwa [keys_redactEntries] at hkey
  have hlook : ∀ e ∈ m, (mergeEntries m (redactEntries m true).1 m).lookup e.1 =
      some (mergeValue (some e.2) (redactAnyValue e.2 true).1) := by
    intro e he
    have hstored := lookup_of_mem hm he
    rw [lookup_mergeEntries (by rwa [keys_redactEntries]), lookup_redactEntries, hstored]
    rfl
  constructor
  · intro heq e he
    have := hlook e he
    rw [heq, lookup_of_mem hm he] at this
    exact (Option.some.inj this).symm
  · intro hall
    refine ext_lookup hkeys (hkeys ▸ hm) fun k hk => ?_
    rw [hkeys] at hk
    obtain ⟨e, he, rfl⟩ := mem_map.mp hk
    rw [hlook e he, hall e he, lookup_of_mem hm he]

mutual

/-- **What a value looks like after it was masked and merged.** -/
theorem mergeValue_redact_iff (v : Value) (hv : distinct v) :
    mergeValue (some v) (redactAnyValue v true).1 = v ↔ restorable v = true := by
  match v with
  | .null | .number _ | .boolean _ | .strings _ | .stringMap _ =>
    simp [redactAnyValue, mergeValue, restorable]
  | .string s =>
    simp [redactAnyValue, redactString, mergeValue, restorable, preserveSecretString,
      isRedactedSecretString_redactSecretValue]
  | .list l =>
    simp only [redactAnyValue, mergeValue, restorable, Value.list.injEq]
    exact redactItems_eq_iff l
  | .map m =>
    simp only [redactAnyValue, mergeValue, restorable, asMap, Value.map.injEq]
    simp only [distinct] at hv
    rw [mergeEntries_redact_iff hv.1]
    exact children_redact_iff m hv.2

theorem children_redact_iff (m : List (String × Value)) (hm : distinctEntries m) :
    (∀ e ∈ m, mergeValue (some e.2) (redactAnyValue e.2 true).1 = e.2) ↔
    restorableEntries m = true := by
  match m with
  | [] => simp [restorableEntries]
  | (key, child) :: rest =>
    simp only [distinctEntries] at hm
    rw [forall_mem_cons, restorableEntries, Bool.and_eq_true]
    exact and_congr (mergeValue_redact_iff child hm.1) (children_redact_iff rest hm.2)

end

/-- A masked copy names no other destination. -/
theorem channelDestinationChanged_redact (config : List (String × Value)) :
    channelDestinationChanged config (redactEntries config true).1 = false := by
  unfold channelDestinationChanged
  rw [any_eq_false]
  intro key _
  unfold stringField
  rw [lookup_redactEntries]
  match config.lookup key with
  | none | some .null | some (.number _) | some (.boolean _) | some (.strings _) | some (.list _)
  | some (.stringMap _) | some (.map _) => simp [asString]
  | some (.string s) =>
    simp [asString, redactAnyValue, redactString, isRedactedSecretString_redactSecretValue]

/-- A channel whose configuration has each key once, in every map of it. -/
structure StoredChannel extends AlertChannel where
  deep : distinctEntries config

/-- The update that sends back what a reader of the channel gets. -/
def StoredChannel.sentBack (ch : StoredChannel) : AlertChannel where
  type := ch.type
  config := (redactChannelConfig ch.config).1
  distinct := by
    rw [redactChannelConfig, keys_redactEntries]
    exact ch.distinct

/-- **Reading a channel and sending it back stores what was stored** exactly if
every value of its configuration is restorable. -/
theorem channel_round_trip (ch : StoredChannel) :
    mergeChannelSecrets ch.toAlertChannel ch.sentBack = .ok ch.config ↔
    restorableEntries ch.config = true := by
  have hkeep : channelDestinationChanged ch.config ch.sentBack.config = false :=
    channelDestinationChanged_redact ch.config
  unfold mergeChannelSecrets
  rw [if_neg (by simp [StoredChannel.sentBack]), if_neg (by simp [hkeep]), Except.ok.injEq]
  exact (mergeEntries_redact_iff ch.distinct).trans (children_redact_iff ch.config ch.deep)

/-- An email channel, with the port it has by default. -/
def mailChannel : StoredChannel where
  type := .email
  config := [("smtp_host", .string "mail.example"), ("smtp_port", .number 587),
    ("password", .string "hunter2"), ("to", .list [.string "ops@example.com"])]
  distinct := by decide
  deep := by simp [distinctEntries, distinctItems, distinct]

/-- **The port and the recipients of an email channel are lost**: sent back
unchanged, its configuration has the mask for the port and for the recipient. -/
theorem mailChannel_masked : ∃ config,
    mergeChannelSecrets mailChannel.toAlertChannel mailChannel.sentBack = .ok config ∧
      config.lookup "smtp_port" = some (.string "[REDACTED]") ∧
      config.lookup "to" = some (.list [.string "[REDACTED]"]) ∧ config ≠ mailChannel.config := by
  refine ⟨_, rfl, rfl, rfl, fun h => ?_⟩
  have hport := congrArg (fun config => config.lookup "smtp_port") h
  cases hport

end Anubis.Api
