import Anubis.Common.Addresses
import Anubis.Common.Checked

/-!
# The guard against server-side request forgery

`internal/probe/ssrf.go`: `parseIP`, `isBlockedIP`, `embeddedIPv4` and the dial
function that `WrapDialerContext` makes. A dial function looks at the address it
is asked for, resolves it if it is a name, and calls the dialer with an address
it has checked.

What the code takes from Go's `net` package is the structure `Net`: any notation
of addresses that is read back as it is written, and any way to split a host from
a port. The answer of the resolver is an argument of each call.
-/

namespace Anubis.Probe

open Addresses Checked List Option

/-! ## The networks -/

/-- `hardBlockedNetworks`. -/
def hardBlockedNetworks : List IPNet :=
  [cidr4 0 0 0 0 8,
    cidr4 169 254 0 0 16,
    cidr4 100 100 100 200 32,
    cidr4 224 0 0 0 4,
    cidr4 240 0 0 0 4,
    cidr4 255 255 255 255 32,
    cidr6 [] [] 128,
    cidr6 [0xfe80] [] 10,
    cidr6 [0xff00] [] 8,
    cidr6 [0xfd00, 0xec2] [0x254] 128,
    cidr6 [0x64, 0xff9b, 1] [] 48,
    cidr6 [0x2001] [] 32]

/-- `privateNetworks`. -/
def privateNetworks : List IPNet :=
  [cidr4 10 0 0 0 8,
    cidr4 172 16 0 0 12,
    cidr4 192 168 0 0 16,
    cidr4 127 0 0 0 8,
    cidr4 100 64 0 0 10,
    cidr4 192 0 0 0 24,
    cidr4 192 0 2 0 24,
    cidr4 198 18 0 0 15,
    cidr4 198 51 100 0 24,
    cidr4 203 0 113 0 24,
    cidr6 [0xfc00] [] 7,
    cidr6 [] [1] 128,
    cidr6 [0x2001, 0xdb8] [] 32]

/-- `nat64Network`. -/
def nat64Network : IPNet := cidr6 [0x64, 0xff9b] [] 96

/-- `sixToFourNetwork`. -/
def sixToFourNetwork : IPNet := cidr6 [0x2002] [] 16

/-- `ipv4CompatNet`. -/
def ipv4CompatNet : IPNet := cidr6 [] [] 96

/-- `net.IPv6unspecified`. -/
def ipv6unspecified : IP := replicate 16 0

/-- `net.IPv6loopback`. -/
def ipv6loopback : IP := replicate 15 0 ++ [1]

/-! ## The verdict on an address -/

/-- `SSRFValidator`, as far as an address is judged. -/
structure SSRFValidator where
  allowPrivate : Bool
  allowedNetworks : List IPNet

/-- `isHardBlockedIP`. -/
def isHardBlockedIP (ip : IP) : Bool := hardBlockedNetworks.any fun network => network.contains ip

/-- `embeddedIPv4`. -/
def embeddedIPv4 (ip : IP) : Option IP :=
  if ip.length ≠ 16 then none
  else if nat64Network.contains ip then some (ip.drop 12)
  else if sixToFourNetwork.contains ip then some ((ip.drop 2).take 4)
  else if ipv4CompatNet.contains ip then
    if ip = ipv6unspecified ∨ ip = ipv6loopback then none else some (ip.drop 12)
  else none

theorem length_of_embeddedIPv4 {ip ip4 : IP} (h : embeddedIPv4 ip = some ip4) : ip.length = 16 ∧
    ip4.length = 4 := by
  unfold embeddedIPv4 at h
  split at h
  · cases h
  next hlen =>
  rw [ne_eq, not_not] at hlen
  refine ⟨hlen, ?_⟩
  split at h
  · rw [← some.inj h, length_drop, hlen]
  split at h
  · rw [← some.inj h, length_take, length_drop, hlen]
    rfl
  split at h
  · split at h
    · cases h
    · rw [← some.inj h, length_drop, hlen]
  · cases h

/-- The embedded address is shorter. -/
theorem length_lt_of_embeddedIPv4 {ip ip4 : IP} (h : embeddedIPv4 ((to4 ip).getD ip) = some ip4) :
    ip4.length < ip.length := by
  obtain ⟨hlong, hshort⟩ := length_of_embeddedIPv4 h
  cases h4 : to4 ip with
  | some =>
    rw [h4, getD_some, length_of_to4 h4] at hlong
    cases hlong
  | none =>
    rw [h4, getD_none] at hlong
    omega

namespace SSRFValidator

/-- `isBlockedIP`. -/
def isBlockedIP (v : SSRFValidator) (ip : IP) : Bool :=
  if ip = [] then true
  else
    let normal := (to4 ip).getD ip
    match _h : embeddedIPv4 normal with
    | some embedded =>
      if isHardBlockedIP normal || isHardBlockedIP embedded then true
      else if v.allowedNetworks.any fun network => network.contains normal then false
      else v.isBlockedIP embedded
    | none =>
      if isHardBlockedIP normal then true
      else if v.allowedNetworks.any fun network => network.contains normal then false
      else if privateNetworks.any fun network => network.contains normal then !v.allowPrivate
      else false
termination_by ip.length
decreasing_by exact length_lt_of_embeddedIPv4 _h

end SSRFValidator

/-- `privateHint`. -/
def privateHint (ip : IP) : String :=
  let ip := (to4 ip).getD ip
  let embedded := embeddedIPv4 ip
  if isHardBlockedIP ip || embedded.any isHardBlockedIP then ""
  else if privateNetworks.any fun network => network.contains (embedded.getD ip) then
    " (private address; set security.allow_private_targets: true or list it in " ++
      "security.allowed_networks to monitor internal services)"
  else ""

/-! ## Addresses as text -/

/-- The value of a digit for `strconv.ParseUint`. -/
def digitValue (c : Char) : Option ℕ :=
  if '0' ≤ c ∧ c ≤ '9' then some (c.toNat - '0'.toNat)
  else if 'a' ≤ c ∧ c ≤ 'z' then some (c.toNat - 'a'.toNat + 10)
  else if 'A' ≤ c ∧ c ≤ 'Z' then some (c.toNat - 'A'.toNat + 10)
  else none

/-- `strconv.ParseUint(s, base, 32)` for a base other than 0. -/
def parseUint (s : List Char) (base : ℕ) : Option ℕ :=
  if s = [] then none
  else
    s.foldlM
      (fun n c => do
        let d ← digitValue c
        if base ≤ d ∨ 2 ^ 32 ≤ n * base + d then none else some (n * base + d))
      0

/-- The four bytes of a number. -/
def ipv4OfNat (n : ℕ) : IP :=
  ipv4 (.ofNat (n / 2 ^ 24)) (.ofNat (n / 2 ^ 16)) (.ofNat (n / 2 ^ 8)) (.ofNat n)

/-- What the guard takes from Go's `net` package. -/
structure Net extends Texts String where
  /-- `net.SplitHostPort`. -/
  splitHostPort : String → Except String (String × String)

/-- `net.JoinHostPort`. -/
def joinHostPort (host port : String) : String :=
  if ':' ∈ host.toList then "[" ++ host ++ "]:" ++ port else host ++ ":" ++ port

/-- `parseIP`: the standard notation, a decimal, a hexadecimal and an octal
number. -/
def parseIP (net : Net) (host : String) : Option IP :=
  match net.parseIP host with
  | some ip => some ip
  | none =>
    match parseUint host.toList 10 with
    | some n => some (ipv4OfNat n)
    | none =>
      let hex :=
        if 3 ≤ host.utf8ByteSize ∧
          (host.toList.take 2 = ['0', 'x'] ∨ host.toList.take 2 = ['0', 'X']) then
          parseUint (host.toList.drop 2) 16
        else none
      match hex with
      | some n => some (ipv4OfNat n)
      | none =>
        match parseUint host.toList 8 with
        | some n => if host.toList.contains '.' then none else some (ipv4OfNat n)
        | none => none

/-! ## Dialing -/

/-- The dialer is called. -/
structure DialCall where
  network : String
  addr : String
deriving DecidableEq

/-- The loop over the resolved addresses: the first one, if all of them may be
dialed. -/
def SSRFValidator.pin (v : SSRFValidator) (net : Net) (host : String) :
    List String → Option IP → Except String (Option IP)
  | [], pinned => .ok pinned
  | resolved :: rest, pinned =>
    match parseIP net resolved with
    | none =>
      .error ("SSRF: hostname " ++ host.quote ++ " resolved to unparseable address " ++
        resolved.quote)
    | some ip =>
      if v.isBlockedIP ip then
        .error ("SSRF: hostname " ++ host.quote ++ " resolves to blocked IP " ++ resolved.quote ++
          privateHint ip)
      else v.pin net host rest (pinned.orElse fun _ => some ip)

/-- The text of an address, with the port that came with the request, if any. -/
def dialAddr (net : Net) (split : Option (String × String)) (ip : IP) : String :=
  match split with
  | some (_, port) => joinHostPort (net.ipString ip) port
  | none => net.ipString ip

/-- The function that `WrapDialerContext` returns, up to its call of the dialer.
`lookup` is the resolver at the time of the call. -/
def SSRFValidator.wrapDialerContext (v : SSRFValidator) (net : Net)
    (lookup : String → Except String (List String)) (network addr : String) :
    Except String DialCall := do
  let split := (net.splitHostPort addr).toOption
  let host := (split.map Prod.fst).getD addr
  match parseIP net host with
  | some ip =>
    refuseIf (v.isBlockedIP ip) ("SSRF: target IP " ++ (net.ipString ip).quote ++ " is blocked" ++
      privateHint ip)
    .ok ⟨network, dialAddr net split ip⟩
  | none =>
    match lookup host with
    | .error err => .error ("SSRF: cannot resolve hostname " ++ host.quote ++ ": " ++ err)
    | .ok addrs =>
      match ← v.pin net host addrs none with
      | none => .error ("SSRF: hostname " ++ host.quote ++ " resolved to no addresses")
      | some pinned => .ok ⟨network, dialAddr net split pinned⟩

/-- A call of the dial function: what it is asked for, and the resolver then. -/
structure Request where
  network : String
  addr : String
  lookup : String → Except String (List String)

/-- The calls of the dialer in a run of requests. -/
def SSRFValidator.dials (v : SSRFValidator) (net : Net) (requests : List Request) : List DialCall :=
  requests.filterMap fun r => (v.wrapDialerContext net r.lookup r.network r.addr).toOption

end Anubis.Probe
