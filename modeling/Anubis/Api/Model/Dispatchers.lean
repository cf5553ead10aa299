import Anubis.Api.Model.Channels
import Mathlib.Data.Int.Notation
import Mathlib.Algebra.Group.Int.Defs

/-!
# Where alerts are sent

The dispatchers of `internal/alert/dispatchers.go`, as far as it is about where they
connect to, what of the configuration they send there, and when they refuse to send.
The check of a web hook's address and what the network does are left out, so that more
is sent here than by the program.
-/

namespace Anubis.Api

open Text

/-- Where a dispatcher connects to. -/
inductive Endpoint
  | url (u : String)
  | host (name : String)
  | smtp (host : String) (port : ℤ)
deriving DecidableEq

/-- `strconv.Atoi`. -/
def atoi (s : String) : Option ℤ :=
  let digits (l : List Char) : Option ℤ :=
    if l ≠ [] ∧ l.all fun c => '0' ≤ c && c ≤ '9' then
      some (l.foldl (fun n c => 10 * n + ((c.toNat : ℤ) - ('0'.toNat : ℤ))) 0)
    else none
  let value :=
    match s.toList with
    | '-' :: rest => (digits rest).map fun n => -n
    | '+' :: rest => digits rest
    | l => digits l
  value.filter fun n => -2 ^ 63 ≤ n && n < 2 ^ 63

/-- The fields of a configuration. -/
abbrev Fields := String → Option Value

/-- The fields of a map. -/
def fieldsOf (config : List (String × Value)) : Fields := fun key => config.lookup key

/-! ## What is read of a field -/

/-- The text of a field, or nothing. -/
def textOf (value : Option Value) : String := (asString value).getD ""

/-- The port of `EmailDispatcher`: 587 unless there is another. A number that is
not whole loses its fraction. -/
def smtpPort : Option Value → ℤ
  | some (.number n) => n.num.tdiv n.den
  | some (.string s) => (atoi s).getD 587
  | _ => 587

/-- The region of `OpsGenieDispatcher` is that of the other host. -/
def isEu (value : Option Value) : Bool := textOf value = "eu"

/-- The server of `NtfyDispatcher`. -/
def ntfyServer (value : Option Value) :
    String := if textOf value = "" then "https://ntfy.sh" else textOf value

/-- The provider of `SMSDispatcher` is not the one it has by default. -/
def isVonage (value : Option Value) : Bool := textOf value = "vonage"

/-- The items of a `[]any` that are texts. -/
def texts : Option Value → List String
  | some (.list l) => l.filterMap fun item => asString (some item)
  | _ => []

/-! ## The dispatchers -/

/-- **Where the dispatcher of a channel connects to.** Without a URL or a host it does
not; a type without a dispatcher does not either. -/
def endpoint (type : AlertChannelType) (fields : Fields) : Option Endpoint :=
  let url (key : String) :=
    if textOf (fields key) = "" then none else some (.url (textOf (fields key)))
  match type with
  | .slack | .discord => url "webhook_url"
  | .webHook => url "url"
  | .email =>
    if textOf (fields "smtp_host") = "" then none
    else some (.smtp (textOf (fields "smtp_host")) (smtpPort (fields "smtp_port")))
  | .pagerDuty => some (.url "https://events.pagerduty.com/v2/enqueue")
  | .opsGenie =>
    some (.host (if isEu (fields "region") then "api.eu.opsgenie.com" else "api.opsgenie.com"))
  | .ntfy => some (.url (ntfyServer (fields "server")))
  | .telegram => some (.host "api.telegram.org")
  | .sms =>
    some (.host (if isVonage (fields "provider") then "rest.nexmo.com" else "api.twilio.com"))
  | .mcp | .other _ => none

/-- The values, by their paths, that the dispatcher puts into its requests. -/
def carries (type : AlertChannelType) (fields : Fields) (path : List String) : Bool :=
  match type with
  | .slack => path ∈ [["webhook_url"], ["username"], ["icon_emoji"]]
  | .discord => path ∈ [["webhook_url"], ["username"], ["avatar_url"]]
  | .webHook =>
    path ∈ [["url"], ["method"], ["template"], ["secret"]] || path.length = 2 && path.head? =
      some "headers"
  | .email => path ∈ [["username"], ["password"], ["from"]]
  | .pagerDuty => path = ["integration_key"]
  | .opsGenie => path = ["api_key"]
  | .ntfy => path ∈ [["token"], ["topic"], ["click_url"], ["icon_url"]]
  | .telegram => path ∈ [["bot_token"], ["chat_id"]]
  | .sms =>
    path ∈ [["from"], ["template"]] ||
      if isVonage (fields "provider") then path ∈ [["api_key"], ["api_secret"]]
      else path ∈ [["account_sid"], ["auth_token"]]
  | .mcp | .other _ => false

/-- The dispatcher does not refuse, and comes to the value: a password is for a user
name. -/
def ready (type : AlertChannelType) (fields : Fields) (path : List String) : Bool :=
  let text (key : String) := textOf (fields key)
  match type with
  | .slack | .discord | .webHook => true
  | .email =>
    let sender := if text "from" = "" then "anubis@" ++ text "smtp_host" else text "from"
    let recipients := ((texts (fields "to")).map trimSpace).filter fun address => address ≠ ""
    recipients ≠ [] && ((sender :: recipients).all fun address => address.toList.all fun c =>
      c ∉ ['\r', '\n']) &&
      (path ≠ ["password"] || text "username" ≠ "")
  | .pagerDuty => text "integration_key" ≠ ""
  | .opsGenie => text "api_key" ≠ ""
  | .ntfy => text "topic" ≠ ""
  | .telegram => text "bot_token" ≠ "" && text "chat_id" ≠ ""
  | .sms =>
    if isVonage (fields "provider") then
      text "api_key" ≠ "" && text "api_secret" ≠ "" && text "from" ≠ "" && texts (fields "to") ≠ []
    else
      text "account_sid" ≠ "" && text "auth_token" ≠ "" && text "from" ≠ "" &&
        match fields "to" with
        | some (.list l) => !l.isEmpty
        | _ => false
  | .mcp | .other _ => false

/-- Where the value under a path would go, if the dispatcher sent it. -/
def destination (type : AlertChannelType) (fields : Fields) (path : List String) :
    Option Endpoint :=
  if carries type fields path then endpoint type fields else none

/-- **Where the value under a path is sent**, if it is. -/
def sentTo (type : AlertChannelType) (fields : Fields) (path : List String) : Option Endpoint :=
  if ready type fields path then destination type fields path else none

end Anubis.Api
