import Anubis.Api.Model.Dispatchers

/-!
# Stored secrets and their destination

An update of a channel that carries the mask keeps the stored secret. Where the secret
is then sent is decided by other fields, and which ones differs from type to type.
`mergeChannelSecrets` looks at two: the URL of Slack, Discord and web hook channels.
The SMTP host and port, the ntfy server, the OpsGenie region and the SMS provider are
not looked at. The secret goes where it went exactly if the request leaves each field
that chooses the endpoint: it does not have the field, has a mask for it, or has a
value that reads the same.
-/

namespace Anubis.Api

open Text Entries List

variable {existing incoming : AlertChannel} {config : List (String × Value)} {path : List String}

/-- The value under a path of keys. -/
def valueAt (config : List (String × Value)) : List String → Option Value
  | [] => none
  | [key] => config.lookup key
  | key :: path =>
    match config.lookup key with
    | some (.map m) => valueAt m path
    | _ => none

/-- **The update keeps the stored secret of a path**: the request has a mask where the
secret is stored, and the secret stays. -/
def KeepsSecret (existing incoming config : List (String × Value)) (path : List String) : Prop :=
  ∃ secret mask, valueAt existing path = some (.string secret) ∧
    isRedactedSecretString secret = false ∧
    valueAt incoming path = some (.string mask) ∧ isRedactedSecretString mask = true ∧
    valueAt config path = some (.string secret)

/-- **The request leaves a field alone**: it does not have the field, has a mask for a
stored string, or has a value of which the same is read. -/
def Leaves {α : Type} (read : Option Value → α) (existing incoming : List (String × Value))
    (key : String) : Prop :=
  ∀ v, incoming.lookup key = some v →
    isMask v = true ∧ (stringField existing key).isSome = true ∨
    read (some v) = read (existing.lookup key)

/-- What holds of every field that chooses the endpoint, with what is read of it. -/
def Chosen (type : AlertChannelType) (P : (α : Type) → (Option Value → α) → String → Prop) : Prop :=
  match type with
  | .slack | .discord => P String textOf "webhook_url"
  | .webHook => P String textOf "url"
  | .email => P String textOf "smtp_host" ∧ P ℤ smtpPort "smtp_port"
  | .opsGenie => P Bool isEu "region"
  | .ntfy => P String ntfyServer "server"
  | .sms => P Bool isVonage "provider"
  | .pagerDuty | .telegram | .mcp | .other _ => True

/-- **The request leaves the destination alone.** -/
def LeavesDestination (existing incoming : AlertChannel) : Prop :=
  Chosen existing.type fun _ read key => Leaves read existing.config incoming.config key

/-! ## What is read after merging -/

/-- What is read of a field does not depend on what is in a map. -/
def Flat {α : Type} (read : Option Value → α) : Prop :=
  (∀ m m', read (some (.map m)) = read (some (.map m'))) ∧
    ∀ m m', read (some (.stringMap m)) = read (some (.stringMap m'))

/-- **The same is read of a merged field exactly if the request leaves it.** -/
theorem read_merged {α : Type} {read : Option Value → α} (hread : Flat read)
    (existing : List (String × Value)) {incoming : List (String × Value)}
    (hin : (Entries.keys incoming).Nodup) (key : String) :
    read ((mergeSecretAnyMap existing incoming).lookup key) = read (existing.lookup key) ↔
      Leaves read existing incoming key := by
  rw [lookup_mergeSecretAnyMap hin, Leaves]
  cases hlookup : incoming.lookup key with
  | none => simp
  | some v =>
    simp only [Option.some.injEq, forall_eq']
    -- what is not a mask for a string is stored as it is, as far as it is read
    have hstored : ¬(isMask v = true ∧ (stringField existing key).isSome = true) →
        read (some (mergeValue (existing.lookup key) v)) = read (some v) := by
      intro hno
      cases v with
      | map m => exact hread.1 _ _
      | stringMap m => exact hread.2 _ _
      | string s =>
        cases hold : existing.lookup key with
        | some old =>
          cases old with
          | string old =>
            have hmask : isRedactedSecretString s = false := by
              simpa [isMask, stringField, hold, asString] using hno
            simp [mergeValue, preserveSecretString, hmask]
          | _ => rfl
        | none => rfl
      | _ => rfl
    by_cases hmask : isMask v = true ∧ (stringField existing key).isSome = true
    · refine iff_of_true ?_ (.inl hmask)
      obtain ⟨hmask, hstring⟩ := hmask
      unfold isMask at hmask
      split at hmask
      · unfold stringField asString at hstring
        split at hstring
        · next heq => simp [heq, mergeValue, preserveSecretString, hmask]
        · cases hstring
      · cases hmask
    · rw [hstored hmask, or_iff_right hmask]

theorem flat_textOf : Flat textOf := ⟨fun _ _ => rfl, fun _ _ => rfl⟩

/-- **The endpoint is the same exactly if the same is read of the fields that choose
it.** -/
theorem endpoint_eq_iff (type : AlertChannelType) {f g : Fields} {ep : Endpoint}
    (h : endpoint type g = some ep) :
    endpoint type f = some ep ↔ Chosen type fun _ read key => read (g key) = read (f key) := by
  cases type with
  | slack | discord | webHook =>
    simp only [endpoint, Chosen] at h ⊢
    split at h
    · cases h
    · next hset =>
      cases h
      constructor
      · intro heq
        split at heq
        · cases heq
        · exact (Endpoint.url.inj (Option.some.inj heq)).symm
      · intro heq
        rw [← heq, if_neg hset]
  | email =>
    simp only [endpoint, Chosen] at h ⊢
    split at h
    · cases h
    · next hset =>
      cases h
      constructor
      · intro heq
        split at heq
        · cases heq
        · obtain ⟨hhost, hport⟩ := Endpoint.smtp.inj (Option.some.inj heq)
          exact ⟨hhost.symm, hport.symm⟩
      · rintro ⟨hhost, hport⟩
        rw [← hhost, ← hport, if_neg hset]
  | opsGenie =>
    cases h
    simp only [endpoint, Chosen]
    cases isEu (f "region") <;> cases isEu (g "region") <;> decide
  | ntfy =>
    cases h
    simp only [endpoint, Chosen, Option.some.injEq, Endpoint.url.injEq]
    exact eq_comm
  | sms =>
    cases h
    simp only [endpoint, Chosen]
    cases isVonage (f "provider") <;> cases isVonage (g "provider") <;> decide
  | pagerDuty | telegram => exact iff_of_true h trivial
  | mcp | other => cases h

/-- What the dispatcher sends stays the same as long as the endpoint does. -/
theorem carries_congr (type : AlertChannelType) {f g : Fields} (path : List String)
    (h : Chosen type fun _ read key => read (g key) = read (f key)) :
    carries type g path = carries type f path := by
  cases type with
  | sms =>
    have hprovider : isVonage (g "provider") = isVonage (f "provider") := h
    simp only [carries, hprovider]
  | _ => rfl

/-! ## What the update keeps -/

/-- An update that is not merged keeps no stored secret. -/
theorem not_keepsSecret_self (existing incoming : List (String × Value)) :
    ¬KeepsSecret existing incoming incoming path := by
  rintro ⟨secret, mask, -, hsecret, hmask, hredacted, hkept⟩
  rw [hmask] at hkept
  obtain rfl : mask = secret := by simpa using hkept
  rw [hsecret] at hredacted
  cases hredacted

/-- An update that keeps a secret was merged. -/
theorem merged_of_keepsSecret (h : mergeChannelSecrets existing incoming = .ok config)
    (hkeeps : KeepsSecret existing.config incoming.config config path) :
    existing.type = incoming.type ∧ config = mergeSecretAnyMap existing.config incoming.config := by
  unfold mergeChannelSecrets at h
  split at h
  · cases h
    exact absurd hkeeps (not_keepsSecret_self _ _)
  next htype =>
  split at h
  · split at h
    · cases h
    · cases h
      exact absurd hkeeps (not_keepsSecret_self _ _)
  · exact ⟨not_not.mp htype, (Except.ok.inj h).symm⟩

/-- **A stored secret goes where it went** exactly if the request leaves the fields
alone that choose the endpoint: for every stored channel, every update of it, and every
secret that the update keeps and the channel then sends. -/
theorem secret_follows_destination {ep : Endpoint}
    (h : mergeChannelSecrets existing incoming = .ok config)
    (hkeeps : KeepsSecret existing.config incoming.config config path)
    (hsent : sentTo incoming.type (fieldsOf config) path = some ep) :
    destination existing.type (fieldsOf existing.config) path = some ep ↔
    LeavesDestination existing incoming := by
  obtain ⟨htype, rfl⟩ := merged_of_keepsSecret h hkeeps
  rw [← htype] at hsent
  obtain ⟨hcarries, hep⟩ : carries existing.type
    (fieldsOf (mergeSecretAnyMap existing.config incoming.config)) path =
      true ∧ endpoint existing.type (fieldsOf (mergeSecretAnyMap existing.config incoming.config)) =
      some ep := by
    unfold sentTo destination at hsent
    split at hsent
    · split at hsent
      · next hcarries => exact ⟨hcarries, hsent⟩
      · cases hsent
    · cases hsent
  -- what is read of the merged fields, in terms of the request
  have hleaves : (Chosen existing.type fun _ read key =>
      read (fieldsOf (mergeSecretAnyMap existing.config incoming.config) key) =
        read (fieldsOf existing.config key)) ↔ LeavesDestination existing incoming := by
    have hread := fun {α : Type} (read : Option Value → α) (hread : Flat read) =>
      read_merged hread existing.config incoming.distinct
    unfold LeavesDestination Chosen fieldsOf
    split
    · exact hread _ flat_textOf _
    · exact hread _ flat_textOf _
    · exact hread _ flat_textOf _
    · exact and_congr (hread _ flat_textOf _) (hread _ ⟨fun _ _ => rfl, fun _ _ => rfl⟩ _)
    · exact hread _ ⟨fun _ _ => rfl, fun _ _ => rfl⟩ _
    · exact hread _ ⟨fun _ _ => rfl, fun _ _ => rfl⟩ _
    · exact hread _ ⟨fun _ _ => rfl, fun _ _ => rfl⟩ _
    all_goals rfl
  rw [← hleaves, ← endpoint_eq_iff _ hep]
  unfold destination
  constructor
  · intro hdestination
    split at hdestination
    · exact hdestination
    · cases hdestination
  · intro hsame
    rw [if_pos, hsame]
    rw [← carries_congr _ path ((endpoint_eq_iff _ hep).mp hsame), hcarries]

/-- An email channel with a password. -/
def mailWithPassword : AlertChannel where
  type := .email
  config := [("smtp_host", .string "mail.example"), ("username", .string "bot"),
    ("password", .string "hunter2"),
    ("to", .list [.string "ops@example.com"])]
  distinct := by decide

/-- An update of its host, with the mask for the password. -/
def mailUpdate (host : String) : AlertChannel where
  type := .email
  config := [("smtp_host", .string host), ("username", .string "bot"),
    ("password", .string "[REDACTED]"),
    ("to", .list [.string "ops@example.com"])]
  distinct := by simp [Entries.keys]

theorem keepsSecret_mailUpdate {config : List (String × Value)} {host : String}
    (h : config.lookup "password" = some (.string "hunter2")) :
    KeepsSecret mailWithPassword.config (mailUpdate host).config config ["password"] := by
  refine ⟨"hunter2", "[REDACTED]", rfl, ?_, rfl, ?_, h⟩ <;> decide

/-- With the mask for the host, the password goes to the stored host; with another
host it does not. -/
theorem secret_follows_destination_masked :
    (∃ config, mergeChannelSecrets mailWithPassword (mailUpdate "[REDACTED]") = .ok config ∧
      sentTo .email (fieldsOf config) ["password"] = some (.smtp "mail.example" 587) ∧
      destination .email (fieldsOf mailWithPassword.config) ["password"] =
      some (.smtp "mail.example" 587)) ∧
    ¬LeavesDestination mailWithPassword (mailUpdate "evil.example") := by
  have hsent : sentTo .email (fieldsOf mailWithPassword.config) ["password"] =
    some (.smtp "mail.example" 587) := by
    decide +kernel
  have hmerged : mergeChannelSecrets mailWithPassword (mailUpdate "[REDACTED]") =
    .ok mailWithPassword.config := rfl
  refine ⟨⟨mailWithPassword.config, hmerged, hsent,
    (secret_follows_destination hmerged (keepsSecret_mailUpdate rfl) hsent).mpr ⟨?_, ?_⟩⟩,
    fun hleaves => ?_⟩
  · rintro v hv
    cases hv
    exact .inl (by decide)
  · rintro v hv
    cases hv
  · have hsame : destination .email (fieldsOf mailWithPassword.config) ["password"] =
        some (.smtp "evil.example" 587) :=
      (secret_follows_destination rfl (keepsSecret_mailUpdate rfl) (by decide +kernel)).mpr hleaves
    exact absurd hsame (by decide +kernel)

/-- **The password goes to another host**: an update names another SMTP host and
carries the mask, and the stored password is kept for that host. -/
theorem password_goes_elsewhere : ∃ config,
    mergeChannelSecrets mailWithPassword (mailUpdate "evil.example") = .ok config ∧
      KeepsSecret mailWithPassword.config (mailUpdate "evil.example").config config ["password"] ∧
      destination .email (fieldsOf mailWithPassword.config) ["password"] =
      some (.smtp "mail.example" 587) ∧
      sentTo .email (fieldsOf config) ["password"] = some (.smtp "evil.example" 587) :=
  ⟨_, rfl, keepsSecret_mailUpdate rfl, by decide +kernel, by decide +kernel⟩

end Anubis.Api
