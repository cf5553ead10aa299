import Anubis.Api.SoulRoundTrip

/-!
# What a reader can tell of the secrets

Two souls that differ only in their secrets, and in none of them by its presence,
look the same to a reader: what is masked is masked whatever it is. The target is
the exception. One that `url.Parse` refuses is shown as it is unless it has an `@`,
with its secret parameters; and a parameter that is the mask already is told from
others.
-/

namespace Anubis.Api

open Text List Option

variable {urls : URLs}

/-! ## Targets -/

/-- The parameter, or one with the same name and another value, if the name is that
of a secret and both values are there. -/
def SamePair (urls : URLs) (p q : List Char) : Prop :=
  p = q ∨ ∃ key val val', p = key ++ '=' :: val ∧ q = key ++ '=' :: val' ∧ '=' ∉ key ∧
    secretName urls key ∧ val ≠ [] ∧ val' ≠ []

/-- **Targets that differ only in credentials and secret parameters.** Of a text that
is no URL, any part may be a credential. -/
inductive SameTarget (urls : URLs) : String → String → Prop
  | parsed {a b : String} {u v : ParsedURL} (ha : urls.parse a = some u)
      (hb : urls.parse b = some v)
      (hothers : v = { u with user := v.user, rawQuery := v.rawQuery })
      (hquery : Forall₂ (SamePair urls) (u.rawQuery.toList.splitOn '&')
        (v.rawQuery.toList.splitOn '&')) : SameTarget urls a b
  | malformed {a b : String} (ha : urls.parse a = none) (hb : urls.parse b = none) :
      SameTarget urls a b

theorem SamePair.sanitizePair_eq {p q : List Char} (h : SamePair urls p q) :
    sanitizePair urls p = sanitizePair urls q := by
  rcases h with rfl | ⟨key, val, val', rfl, rfl, hkey, hsecret, hval, hval'⟩
  · rfl
  · rw [sanitizePair_parameter hkey, sanitizePair_parameter hkey, if_pos ⟨hsecret, hval⟩,
      if_pos ⟨hsecret, hval'⟩]

/-- The masked query is one of the masked parameters. -/
theorem sanitizeQueryString_congr {q q' : String}
    (h : Forall₂ (SamePair urls) (q.toList.splitOn '&') (q'.toList.splitOn '&')) :
    sanitizeQueryString urls q = sanitizeQueryString urls q' := by
  have hmap : ∀ {l l'}, Forall₂ (SamePair urls) l l' →
      l.map (sanitizePair urls) = l'.map (sanitizePair urls) := by
    intro l l' h
    induction h with
    | nil => rfl
    | cons hpair _ ih => rw [map_cons, map_cons, hpair.sanitizePair_eq, ih]
  have hform : ∀ q : String, sanitizeQueryString urls q = .ofList (intercalate ['&']
      (if ((q.toList.splitOn '&').map (sanitizePair urls)).getLast? = some [] then
        ((q.toList.splitOn '&').map (sanitizePair urls)).dropLast
      else (q.toList.splitOn '&').map (sanitizePair urls))) := by
    intro q
    simp only [sanitizeQueryString, apply_ite (map (sanitizePair urls)), map_dropLast,
      getLast?_map, map_eq_some_iff, sanitizePair_eq_nil, exists_eq_right]
  rw [hform, hform, hmap h]

/-- Such targets are shown the same if they are the same, or if both are masked. -/
theorem SameTarget.redactTarget_eq_iff {a b : String} (h : SameTarget urls a b) :
    redactTarget urls a = redactTarget urls b ↔
      a = b ∨ HidesTarget urls a ∧ HidesTarget urls b := by
  constructor
  · intro heq
    by_cases ha : HidesTarget urls a
    · by_cases hb : HidesTarget urls b
      · exact .inr ⟨ha, hb⟩
      · rw [redactTarget_of_hides ha, redactTarget_of_not_hides hb] at heq
        exact absurd (Prod.mk.inj heq).2 nofun
    · by_cases hb : HidesTarget urls b
      · rw [redactTarget_of_not_hides ha, redactTarget_of_hides hb] at heq
        exact absurd (Prod.mk.inj heq).2 nofun
      · rw [redactTarget_of_not_hides ha, redactTarget_of_not_hides hb] at heq
        exact .inl (Prod.mk.inj heq).1
  · rintro (rfl | ⟨ha, hb⟩)
    · rfl
    · rw [redactTarget_of_hides ha, redactTarget_of_hides hb]
      cases h with
      | parsed hparse hparse' hothers hquery =>
        rw [hparse, hparse', elim_some, elim_some, hothers, sanitizeQueryString_congr hquery]
      | malformed hparse hparse' => rw [hparse, hparse']

/-! ## Secrets replaced -/

/-- Every secret is given another text by its place. A blank text is no secret, and
stays. -/
structure Replaces (f : String → String → String) : Prop where
  blank_iff (place s : String) : blank (f place s) = blank s
  kept (place s : String) (hs : blank s = true) : f place s = s

/-- The values of a map replaced. -/
def replaceValues (f : String → String → String) (place : String) (m : StringMap) : StringMap :=
  m.map fun e => (e.1, f (place ++ e.1) e.2)

section Replace

variable (f : String → String → String)

def HTTPConfig.replace (cfg : HTTPConfig) : HTTPConfig :=
  { cfg with
    responseHeaders := replaceValues f "http.response_headers." cfg.responseHeaders
    headers := replaceValues f "http.headers." cfg.headers
    body := f "http.body" cfg.body }

def TCPConfig.replace (cfg : TCPConfig) : TCPConfig :=
  { cfg with send := f "tcp.send" cfg.send }

def UDPConfig.replace (cfg : UDPConfig) : UDPConfig :=
  { cfg with sendHex := f "udp.send_hex" cfg.sendHex }

def AuthCreds.replace (place : String) (auth : AuthCreds) : AuthCreds :=
  { auth with password := f place auth.password }

def SMTPConfig.replace (cfg : SMTPConfig) : SMTPConfig :=
  { cfg with auth := cfg.auth.map (AuthCreds.replace f "smtp.password") }

def IMAPConfig.replace (cfg : IMAPConfig) : IMAPConfig :=
  { cfg with auth := cfg.auth.map (AuthCreds.replace f "imap.password") }

def GRPCConfig.replace (cfg : GRPCConfig) : GRPCConfig :=
  { cfg with metadata := replaceValues f "grpc.metadata." cfg.metadata }

def WebSocketConfig.replace (cfg : WebSocketConfig) : WebSocketConfig :=
  { cfg with
    headers := replaceValues f "websocket.headers." cfg.headers
    send := f "websocket.send" cfg.send }

def HeartbeatConfig.replace (cfg : HeartbeatConfig) : HeartbeatConfig :=
  { cfg with token := f "heartbeat.token" cfg.token }

/-- **The secrets of a soul replaced.** -/
def Soul.replace (soul : Soul) : Soul :=
  { soul with
    http := soul.http.map (HTTPConfig.replace f)
    tcp := soul.tcp.map (TCPConfig.replace f)
    udp := soul.udp.map (UDPConfig.replace f)
    smtp := soul.smtp.map (SMTPConfig.replace f)
    imap := soul.imap.map (IMAPConfig.replace f)
    grpc := soul.grpc.map (GRPCConfig.replace f)
    webSocket := soul.webSocket.map (WebSocketConfig.replace f)
    heartbeat := soul.heartbeat.map (HeartbeatConfig.replace f) }

end Replace

/-- A block is masked the same if its settings are. -/
theorem map_redact {α : Type} {replace : α → α} {redact : α → α × Bool}
    (h : ∀ cfg, redact (replace cfg) = redact cfg) (block : Option α) :
    ((block.map replace).map fun cfg => (redact cfg).1) = block.map (fun cfg => (redact cfg).1) ∧
      ((block.map replace).any fun cfg => (redact cfg).2) =
        block.any fun cfg => (redact cfg).2 := by
  cases block with
  | none => exact ⟨rfl, rfl⟩
  | some cfg => simp [h]

namespace Replaces

variable {f : String → String → String} (hf : Replaces f)
include hf

theorem value (place s : String) : redactSecretValue (f place s) = redactSecretValue s := by
  unfold redactSecretValue
  rw [hf.blank_iff]
  split
  · next hs => exact hf.kept place s hs
  · rfl

theorem values (place : String) (m : StringMap) :
    maskValues (replaceValues f place m) = maskValues m ∧
      hidesValues (replaceValues f place m) = hidesValues m := by
  constructor
  · simp [maskValues, replaceValues, hf.value]
  · simp [hidesValues, replaceValues, hf.blank_iff, Function.comp_def]

theorem http (cfg : HTTPConfig) : redactHTTPConfig (cfg.replace f) = redactHTTPConfig cfg := by
  simp only [redactHTTPConfig, HTTPConfig.replace, hf.values, hf.value, hf.blank_iff]

theorem tcp (cfg : TCPConfig) : redactTCPConfig (cfg.replace f) = redactTCPConfig cfg := by
  simp only [redactTCPConfig, TCPConfig.replace, hf.value, hf.blank_iff]

theorem udp (cfg : UDPConfig) : redactUDPConfig (cfg.replace f) = redactUDPConfig cfg := by
  simp only [redactUDPConfig, UDPConfig.replace, hf.value, hf.blank_iff]

theorem auth (place : String) (auth : Option AuthCreds) :
    (auth.map (AuthCreds.replace f place)).map redactAuth = auth.map redactAuth ∧
      ((auth.map (AuthCreds.replace f place)).any fun auth => !blank auth.password) =
        auth.any fun auth => !blank auth.password := by
  cases auth with
  | none => exact ⟨rfl, rfl⟩
  | some auth => simp [AuthCreds.replace, redactAuth, hf.value, hf.blank_iff]

theorem smtp (cfg : SMTPConfig) : redactSMTPConfig (cfg.replace f) = redactSMTPConfig cfg := by
  simp only [redactSMTPConfig, SMTPConfig.replace, hf.auth]

theorem imap (cfg : IMAPConfig) : redactIMAPConfig (cfg.replace f) = redactIMAPConfig cfg := by
  simp only [redactIMAPConfig, IMAPConfig.replace, hf.auth]

theorem grpc (cfg : GRPCConfig) : redactGRPCConfig (cfg.replace f) = redactGRPCConfig cfg := by
  simp only [redactGRPCConfig, GRPCConfig.replace, hf.values]

theorem webSocket (cfg : WebSocketConfig) :
    redactWebSocketConfig (cfg.replace f) = redactWebSocketConfig cfg := by
  simp only [redactWebSocketConfig, WebSocketConfig.replace, hf.values, hf.value, hf.blank_iff]

theorem heartbeat (cfg : HeartbeatConfig) :
    redactHeartbeatConfig (cfg.replace f) = redactHeartbeatConfig cfg := by
  simp only [redactHeartbeatConfig, HeartbeatConfig.replace, hf.value, hf.blank_iff]

/-- Nothing but the target of the masked soul depends on the secrets. -/
theorem redacted (soul : Soul) :
    redactedSoulDTOFromCore urls (soul.replace f) = redactedSoulDTOFromCore urls soul := by
  simp only [redactedSoulDTOFromCore, Soul.replace, map_redact hf.http, map_redact hf.tcp,
    map_redact hf.udp, map_redact hf.smtp, map_redact hf.imap, map_redact hf.grpc,
    map_redact hf.webSocket, map_redact hf.heartbeat]

end Replaces

/-- **Souls that differ only in secrets** and agree on which are present. -/
def Soul.DiffersInSecrets (urls : URLs) (a b : Soul) : Prop :=
  SameTarget urls a.target b.target ∧
    ∃ f, Replaces f ∧ b = { a.replace f with target := b.target }

/-! ## What is shown -/

theorem target_mem_hasSecrets {soul : Soul} :
    "target" ∈ (redactedSoulDTOFromCore urls soul).hasSecrets ↔
      (redactTarget urls soul.target).2 = true := by
  simp [redactedSoulDTOFromCore, mem_filter]

end Anubis.Api
