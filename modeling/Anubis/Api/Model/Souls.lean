import Anubis.Api.Model.Channels
import Mathlib.Data.Int.Notation

/-!
# Souls as readers see them, and updates of them

`redactedSoulDTOFromCore` and `mergeSoulSecrets` of
`internal/api/secret_redaction.go`, with the masking of each protocol block.

A masked block is a map in the source; it stands here for the block that is read
from its JSON form, in which a key that is left out has the zero value. JSON
gives durations, numbers and texts back as they were. The handler of an update
sets the time of the update, which is left out.
-/

namespace Anubis.Api

open Text

/-- `map[string]string`. -/
abbrev StringMap := List (String × String)

/-! ## Souls -/

/-- `core.CheckType`. -/
inductive CheckType
  | http
  | tcp
  | udp
  | dns
  | smtp
  | imap
  | icmp
  | grpc
  | webSocket
  | tls
  | heartbeat
  | other (name : String)
deriving DecidableEq

/-- `core.HTTPConfig` without its cookie jar, which is not stored. -/
structure HTTPConfig where
  method : String
  headers : StringMap
  body : String
  validStatus : List ℤ
  bodyContains : String
  bodyRegex : String
  jsonPath : StringMap
  jsonSchema : String
  jsonSchemaStrict : Bool
  responseHeaders : StringMap
  feather : ℤ
  followRedirects : Bool
  maxRedirects : ℤ
  insecureSkipVerify : Bool

/-- `core.TCPConfig`. -/
structure TCPConfig where
  bannerMatch : String
  send : String
  expectRegex : String

/-- `core.UDPConfig`. -/
structure UDPConfig where
  sendHex : String
  expectContains : String

/-- `core.DNSConfig`. -/
structure DNSConfig where
  recordType : String
  expected : List String
  nameservers : List String
  dnssecValidate : Bool
  propagationCheck : Bool
  propagationThreshold : ℤ

/-- `core.AuthCreds`. -/
structure AuthCreds where
  username : String
  password : String

/-- `core.SMTPConfig`. -/
structure SMTPConfig where
  ehloDomain : String
  startTLS : Bool
  insecureSkipVerify : Bool
  auth : Option AuthCreds
  bannerContains : String

/-- `core.IMAPConfig`. -/
structure IMAPConfig where
  tls : Bool
  auth : Option AuthCreds
  checkMailbox : String
  insecureSkipVerify : Bool

/-- `core.ICMPConfig`. -/
structure ICMPConfig where
  count : ℤ
  interval : ℤ
  maxLossPercent : ℚ
  feather : ℤ
  ipv6 : Bool
  privileged : Bool

/-- `core.GRPCConfig`. -/
structure GRPCConfig where
  service : String
  tls : Bool
  tlsCA : String
  insecureSkipVerify : Bool
  metadata : StringMap
  feather : ℤ

/-- `core.WebSocketConfig`. -/
structure WebSocketConfig where
  headers : StringMap
  subprotocols : List String
  send : String
  expectContains : String
  pingCheck : Bool
  feather : ℤ
  insecureSkipVerify : Bool

/-- `core.TLSConfig`. -/
structure TLSConfig where
  expiryWarnDays : ℤ
  expiryCriticalDays : ℤ
  minProtocol : String
  forbiddenCiphers : List String
  expectedIssuer : String
  expectedSAN : List String
  checkOCSP : Bool
  minKeyBits : ℤ

/-- `core.HeartbeatConfig`. -/
structure HeartbeatConfig where
  grace : ℤ
  token : String

/-- `core.FlapDetectionConfig`. -/
structure FlapDetectionConfig where
  enabled : Bool
  threshold : ℤ
  window : ℤ

/-- `core.Soul`. -/
@[ext]
structure Soul where
  id : String
  workspaceID : String
  name : String
  type : CheckType
  target : String
  weight : ℤ
  timeout : ℤ
  enabled : Bool
  tags : List String
  regions : List String
  region : String
  http : Option HTTPConfig
  tcp : Option TCPConfig
  udp : Option UDPConfig
  dns : Option DNSConfig
  smtp : Option SMTPConfig
  imap : Option IMAPConfig
  icmp : Option ICMPConfig
  grpc : Option GRPCConfig
  webSocket : Option WebSocketConfig
  tls : Option TLSConfig
  heartbeat : Option HeartbeatConfig
  retries : ℤ
  retryInterval : ℤ
  flapDetection : Option FlapDetectionConfig
  createdAt : ℤ

/-! ## The target -/

/-- `sensitiveQueryParams`. -/
def sensitiveQueryParams : List String :=
  ["token", "api_key", "apikey", "secret", "password", "passwd", "key", "auth", "code", "state",
    "nonce", "id_token", "access_token", "refresh_token", "client_secret", "error_description"]

/-- `url.URL`. What only says how a part is written (`RawPath`, `ForceQuery` and the
like) stands with the path. -/
structure ParsedURL where
  scheme : String
  user : Option String
  host : String
  path : String
  rawQuery : String
  fragment : String
deriving DecidableEq

/-- What the masking takes from `net/url`, and what it may rely on. -/
structure URLs where
  /-- `url.Parse`. -/
  parse : String → Option ParsedURL
  /-- `URL.String`. -/
  string : ParsedURL → String
  /-- `url.QueryUnescape`. -/
  queryUnescape : String → Option String
  /-- The query ends where the fragment begins. -/
  rawQuery_noFragment {target : String} {u : ParsedURL} (hu : parse target = some u) :
    '#' ∉ u.rawQuery.toList
  /-- A URL without its user, or with another query, is another text. -/
  string_ne {target : String} {u : ParsedURL} {query : String} (hu : parse target = some u)
    (hquery : '#' ∉ query.toList) (hother : u.user.isSome ∨ query ≠ u.rawQuery) :
    string { u with user := none, rawQuery := query } ≠ target

/-- The name of a parameter is, decoded, that of a secret. -/
def secretName (urls : URLs) (key : List Char) : Bool :=
  (urls.queryUnescape (.ofList key)).any fun decoded =>
    sensitiveQueryParams.contains (lower decoded)

/-- One parameter of `sanitizeQueryString`. -/
def sanitizePair (urls : URLs) (pair : List Char) : List Char :=
  match pair.span (· ≠ '=') with
  | (_, []) => pair
  | (key, eq :: val) =>
    key ++ eq :: if secretName urls key ∧ val ≠ [] then ['*', '*', '*'] else val

/-- `sanitizeQueryString`: the loop ends with the query, so nothing is written for
an ampersand at its end. -/
def sanitizeQueryString (urls : URLs) (rawQuery : String) : String :=
  let pairs := rawQuery.toList.splitOn '&'
  let pairs := if pairs.getLast? = some [] then pairs.dropLast else pairs
  .ofList (List.intercalate ['&'] (pairs.map (sanitizePair urls)))

/-- `redactTarget`. -/
def redactTarget (urls : URLs) (target : String) : String × Bool :=
  match urls.parse target with
  | none =>
    if target.toList.contains '@' then (redactedSecretValue, true) else (target, false)
  | some u =>
    let sanitized := sanitizeQueryString urls u.rawQuery
    if u.user.isSome || sanitized ≠ u.rawQuery then
      (urls.string { u with user := none, rawQuery := sanitized }, true)
    else (target, false)

/-! ## Masking the blocks -/

/-- The values of a map of strings, masked. -/
def maskValues (m : StringMap) : StringMap := m.map fun e => (e.1, redactSecretValue e.2)

/-- There is something to mask. -/
def hidesValues (m : StringMap) : Bool := m.any fun e => !blank e.2

/-- `redactHTTPConfig`. -/
def redactHTTPConfig (cfg : HTTPConfig) : HTTPConfig × Bool :=
  ({ cfg with
      responseHeaders := maskValues cfg.responseHeaders
      headers := maskValues cfg.headers
      body := redactSecretValue cfg.body },
    hidesValues cfg.responseHeaders || hidesValues cfg.headers || !blank cfg.body)

/-- `redactTCPConfig`. -/
def redactTCPConfig (cfg : TCPConfig) : TCPConfig × Bool :=
  ({ cfg with send := redactSecretValue cfg.send }, !blank cfg.send)

/-- `redactUDPConfig`. -/
def redactUDPConfig (cfg : UDPConfig) : UDPConfig × Bool :=
  ({ cfg with sendHex := redactSecretValue cfg.sendHex }, !blank cfg.sendHex)

/-- The credentials of a mail server, masked. -/
def redactAuth (auth : AuthCreds) : AuthCreds :=
    { auth with password := redactSecretValue auth.password }

/-- `redactSMTPConfig`. -/
def redactSMTPConfig (cfg : SMTPConfig) : SMTPConfig × Bool :=
  ({ cfg with auth := cfg.auth.map redactAuth }, cfg.auth.any fun auth => !blank auth.password)

/-- `redactIMAPConfig`. -/
def redactIMAPConfig (cfg : IMAPConfig) : IMAPConfig × Bool :=
  ({ cfg with auth := cfg.auth.map redactAuth }, cfg.auth.any fun auth => !blank auth.password)

/-- `redactGRPCConfig`. -/
def redactGRPCConfig (cfg : GRPCConfig) : GRPCConfig × Bool :=
  ({ cfg with metadata := maskValues cfg.metadata }, hidesValues cfg.metadata)

/-- `redactWebSocketConfig`. -/
def redactWebSocketConfig (cfg : WebSocketConfig) : WebSocketConfig × Bool :=
  ({ cfg with headers := maskValues cfg.headers, send := redactSecretValue cfg.send },
    hidesValues cfg.headers || !blank cfg.send)

/-- `redactHeartbeatConfig`: a blank token is left out. -/
def redactHeartbeatConfig (cfg : HeartbeatConfig) : HeartbeatConfig × Bool :=
  ({ cfg with token := if blank cfg.token then "" else redactSecretValue cfg.token },
    !blank cfg.token)

/-- `redactedSoulDTO`: the masked soul, and the blocks that hide something. -/
structure RedactedSoulDTO where
  soul : Soul
  hasSecrets : List String

/-- `redactedSoulDTOFromCore`. -/
def redactedSoulDTOFromCore (urls : URLs) (soul : Soul) : RedactedSoulDTO where
  soul :=
    { soul with
      target := (redactTarget urls soul.target).1
      http := soul.http.map fun cfg => (redactHTTPConfig cfg).1
      tcp := soul.tcp.map fun cfg => (redactTCPConfig cfg).1
      udp := soul.udp.map fun cfg => (redactUDPConfig cfg).1
      smtp := soul.smtp.map fun cfg => (redactSMTPConfig cfg).1
      imap := soul.imap.map fun cfg => (redactIMAPConfig cfg).1
      grpc := soul.grpc.map fun cfg => (redactGRPCConfig cfg).1
      webSocket := soul.webSocket.map fun cfg => (redactWebSocketConfig cfg).1
      heartbeat := soul.heartbeat.map fun cfg => (redactHeartbeatConfig cfg).1 }
  hasSecrets :=
    ([("target", (redactTarget urls soul.target).2),
      ("http", soul.http.any fun cfg => (redactHTTPConfig cfg).2),
      ("tcp", soul.tcp.any fun cfg => (redactTCPConfig cfg).2),
      ("udp", soul.udp.any fun cfg => (redactUDPConfig cfg).2),
      ("smtp", soul.smtp.any fun cfg => (redactSMTPConfig cfg).2),
      ("imap", soul.imap.any fun cfg => (redactIMAPConfig cfg).2),
      ("grpc", soul.grpc.any fun cfg => (redactGRPCConfig cfg).2),
      ("websocket", soul.webSocket.any fun cfg => (redactWebSocketConfig cfg).2),
      ("heartbeat", soul.heartbeat.any fun cfg => (redactHeartbeatConfig cfg).2)].filter
      Prod.snd).map Prod.fst

/-! ## Updates -/

/-- A block of the update, completed if one is stored. -/
def mergeBlock {α : Type} (merge : α → α → α) (existing incoming : Option α) : Option α :=
  match existing, incoming with
  | some old, some new => some (merge old new)
  | _, _ => incoming

/-- The headers and the body of an HTTP check, if the method is the same. Methods
are ASCII text. -/
def mergeHTTP (existing incoming : HTTPConfig) : HTTPConfig :=
  if lower existing.method = lower incoming.method then
    { incoming with
      headers := mergeSecretStringMap existing.headers incoming.headers
      body := preserveSecretString existing.body incoming.body }
  else incoming

/-- The password of a mail server, if the user is the same. -/
def mergeAuth (existing incoming : AuthCreds) : AuthCreds :=
  if incoming.username = existing.username then
    { incoming with password := preserveSecretString existing.password incoming.password }
  else incoming

/-- The first part of `mergeSoulSecrets`: the ping token. -/
def mergeHeartbeat (existing incoming : Soul) : Option HeartbeatConfig :=
  match existing.heartbeat with
  | some old =>
    if existing.type = .heartbeat ∧ incoming.type = .heartbeat then
      some { (incoming.heartbeat.getD ⟨old.grace, ""⟩) with token := old.token }
    else incoming.heartbeat.map fun new => { new with token := "" }
  | none => incoming.heartbeat.map fun new => { new with token := "" }

/-- `mergeSoulSecrets`. -/
def mergeSoulSecrets (existing incoming : Soul) : Soul :=
  let incoming := { incoming with heartbeat := mergeHeartbeat existing incoming }
  if existing.type ≠ incoming.type ∨ existing.target ≠ incoming.target then incoming
  else
    { incoming with
      http := mergeBlock mergeHTTP existing.http incoming.http
      tcp := mergeBlock (fun old new => { new with send := preserveSecretString old.send new.send })
        existing.tcp incoming.tcp
      udp := mergeBlock (fun old new =>
        { new with sendHex := preserveSecretString old.sendHex new.sendHex })
        existing.udp incoming.udp
      smtp := mergeBlock (fun old new =>
        { new with auth := mergeBlock mergeAuth old.auth new.auth })
        existing.smtp incoming.smtp
      imap := mergeBlock (fun old new =>
        { new with auth := mergeBlock mergeAuth old.auth new.auth })
        existing.imap incoming.imap
      grpc := mergeBlock (fun old new =>
        { new with metadata := mergeSecretStringMap old.metadata new.metadata })
        existing.grpc incoming.grpc
      webSocket := mergeBlock
        (fun old new =>
          { new with
            headers := mergeSecretStringMap old.headers new.headers
            send := preserveSecretString old.send new.send })
        existing.webSocket incoming.webSocket }

/-- The soul that an update is completed to before its defaults are applied. The
identity and the creation time are those that are stored. -/
def updateSoul (existing : Soul) (body : Soul) : Soul :=
  mergeSoulSecrets existing
    { body with
      id := existing.id, workspaceID := existing.workspaceID, createdAt := existing.createdAt }

end Anubis.Api
