import Anubis.Common.Addresses

/-!
# The client's address

`internal/api/client_ip.go`: the matcher of trusted proxies, and the walk through
`X-Forwarded-For` from right to left. Header lines are any bytes. How addresses
are read and written is assumed, as Go's `net` package documents it.

A request goes from its client through proxies that are trusted, each of which
appends the address it got the request from. What the client wrote into the header
is to the left of that.
-/

namespace Anubis.Api

open Addresses List

/-- The bytes of a string. -/
abbrev Octets := List UInt8

/-- A space or a tab. -/
abbrev isBlank (b : UInt8) : Prop := b = 32 ∨ b = 9

/-- What is taken from Go's `net` and `strings` packages. -/
structure NetText extends Texts Octets where
  parseCIDR : Octets → Option IPNet
  /-- The host of `net.SplitHostPort`. -/
  splitHostPort : Octets → Option Octets
  trimSpace : Octets → Octets
  parseIP_nil : parseIP [] = none
  /-- There is no comma in an address. -/
  comma_of_parseIP : ∀ s ip, parseIP s = some ip → 44 ∉ s
  /-- Nor blanks at its ends. -/
  trimSpace_of_parseIP : ∀ pad s ip, (∀ b ∈ pad, isBlank b) → parseIP s = some ip →
    trimSpace (pad ++ s) = s

/-- What `resolveClientIP` reads of a request. -/
structure Request where
  remoteAddr : Octets
  /-- The lines of `X-Forwarded-For`. -/
  forwardedFor : List Octets

namespace NetText

variable (N : NetText)

/-- `newTrustedProxyMatcher`. -/
def newTrustedProxyMatcher (entries : List Octets) : List IPNet :=
  entries.filterMap fun entry =>
    let entry := N.trimSpace entry
    if entry = [] then none
    else
      match N.parseCIDR entry with
      | some n => some n
      | none => (N.parseIP entry).map fun ip =>
        match to4 ip with
        | some v4 => ⟨v4, cidrMask 4 32⟩
        | none => ⟨ip, cidrMask 16 128⟩

/-- The host in `RemoteAddr`. -/
def remoteHost (r : Request) : Octets := (N.splitHostPort r.remoteAddr).getD r.remoteAddr

/-- `remotePeerIP`. -/
def remotePeerIP (r : Request) : Octets :=
  match N.parseIP (N.remoteHost r) with
  | some ip => N.ipString ip
  | none => N.remoteHost r

end NetText

/-- `trusts`. -/
def trusts (trusted : List IPNet) : Option IP → Bool
  | none => false
  | some ip => trusted.any (·.contains ip)

namespace NetText

variable (N : NetText) (trusted : List IPNet)

/-- The loops of `resolveClientIP`, from the right. -/
def walk (client : Octets) : List Octets → Octets
  | [] => client
  | hop :: hops =>
    if N.trimSpace hop = [] then walk client hops
    else
      match N.parseIP (N.trimSpace hop) with
      | none => client
      | some ip => if trusts trusted (some ip) then walk (N.ipString ip) hops else N.ipString ip

/-- The hops on all lines, from the right. -/
def hops (lines : List Octets) : List Octets := lines.reverse.flatMap fun line =>
    (line.splitOn 44).reverse

/-- `resolveClientIP`. -/
def resolveClientIP (r : Request) : Octets :=
  if !trusts trusted (N.parseIP (N.remotePeerIP r)) then N.remotePeerIP r
  else N.walk trusted (N.remotePeerIP r) (hops r.forwardedFor)

end NetText

variable {N : NetText} {trusted : List IPNet} {sent lines lines' : List Octets} {client ip : IP}
    {x : Octets}

/-- `x` is appended to the last line, or on a new one. -/
inductive Appends (x : Octets) : List Octets → List Octets → Prop
  | newLine {lines : List Octets} : Appends x lines (lines ++ [x])
  | lastLine {lines : List Octets} {line : Octets} :
      Appends x (lines ++ [line]) (lines ++ [line ++ 44 :: x])

/-- The lines, and the address of the peer, with which a request of `client` arrives
somewhere. The client is not trusted, and has sent `sent`. -/
inductive Via (N : NetText) (trusted : List IPNet) (client : IP) (sent : List Octets) :
    List Octets → IP → Prop
  | direct (hclient : trusts trusted (some client) = false) : Via N trusted client sent sent client
  | proxy {lines lines' : List Octets} {ip proxy : IP} {pad text : Octets}
      (h : Via N trusted client sent lines ip)
      (htrusted : trusts trusted (some proxy) = true) (htext : N.parseIP text = some ip)
      (hpad : ∀ b ∈ pad, isBlank b) (happend : Appends (pad ++ text) lines lines') :
      Via N trusted client sent lines' proxy

/-- A request of `client` at the server. -/
def Request.Of (r : Request) (N : NetText) (trusted : List IPNet) (client : IP)
    (sent : List Octets) : Prop :=
  ∃ ip, N.parseIP (N.remoteHost r) = some ip ∧ Via N trusted client sent r.forwardedFor ip

/-- Either way the walk starts at what was appended. -/
theorem Appends.hops (h : Appends x lines lines') (hx : 44 ∉ x) :
    NetText.hops lines' = x :: NetText.hops lines := by
  have hone : x.splitOn 44 = [x] := splitOn_eq_singleton hx
  cases h with
  | newLine => simp [NetText.hops, hone]
  | lastLine => simp [NetText.hops, splitOn_append_cons_self, hone]

/-- Of an address with blanks in front, the walk takes the address. -/
theorem NetText.walk_cons {pad text peer : Octets} {rest : List Octets}
    (htext : N.parseIP text = some ip) (hpad : ∀ b ∈ pad, isBlank b) :
    N.walk trusted peer ((pad ++ text) :: rest) =
      if trusts trusted (some ip) then N.walk trusted (N.ipString ip) rest else N.ipString ip := by
  have hne : text ≠ [] := by
    rintro rfl
    simp [N.parseIP_nil] at htext
  rw [walk, N.trimSpace_of_parseIP _ _ _ hpad htext, if_neg hne, htext]

/-- **The walk ends at the client**, from wherever the request has come to. -/
theorem Via.walk (h : Via N trusted client sent lines ip) :
    (if trusts trusted (some ip) then N.walk trusted (N.ipString ip) (NetText.hops lines) else
      N.ipString ip) =
      N.ipString client := by
  induction h with
  | direct hclient => rw [if_neg (by simp [hclient])]
  | @proxy _ _ _ _ pad text _ htrusted htext hpad happend ih =>
    have hcomma : 44 ∉ pad ++ text := by
      rw [mem_append, not_or]
      refine ⟨fun h => ?_, N.comma_of_parseIP _ _ htext⟩
      rcases hpad _ h with h | h <;> cases h
    rw [if_pos htrusted, happend.hops hcomma, NetText.walk_cons htext hpad, ih]

/-- **The resolved address is the client's**: that of the first peer, seen from the
server, that is not trusted. The lines the client sent do not matter. -/
theorem client_resolved {entries : List Octets} {r : Request}
    (h : r.Of N (N.newTrustedProxyMatcher entries) client sent) :
    N.resolveClientIP (N.newTrustedProxyMatcher entries) r = N.ipString client ∧
    ∀ sent' (r' : Request), r'.Of N (N.newTrustedProxyMatcher entries) client sent' →
      N.resolveClientIP (N.newTrustedProxyMatcher entries) r' =
        N.resolveClientIP (N.newTrustedProxyMatcher entries) r := by
  have hall : ∀ sent (r : Request), r.Of N (N.newTrustedProxyMatcher entries) client sent →
      N.resolveClientIP (N.newTrustedProxyMatcher entries) r = N.ipString client := by
    rintro sent r ⟨ip, hpeer, hvia⟩
    have hremote : N.remotePeerIP r = N.ipString ip := by rw [NetText.remotePeerIP, hpeer]
    rw [NetText.resolveClientIP, hremote,
      N.parseIP_ipString _ (N.parseIP_length _ _ hpeer), ← hvia.walk]
    cases trusts _ (some ip) <;> rfl
  exact ⟨hall _ _ h, fun sent' r' h' => (hall _ _ h').trans (hall _ _ h).symm⟩

/-- The bytes of ASCII text. -/
def octets (s : String) : Octets := s.toList.map fun c => .ofNat c.toNat

/-- Addresses in hexadecimal. -/
def hexOctets : Texts Octets :=
  hexTexts (fun n => .ofNat (hexDigit n)) (fun b => hexValue b.toNat) (by decide)

theorem hexOctets_digits {s : Octets} (h : hexOctets.parseIP s = some ip) :
    ∀ b ∈ s, (hexValue b.toNat).isSome :=
  isSome_of_unhex (Option.filter_eq_some_iff.mp h).1

/-- A world with such addresses. -/
def hexNet : NetText where
  toTexts := hexOctets
  parseCIDR _ := none
  splitHostPort _ := none
  trimSpace s := s.dropWhile fun b => isBlank b
  parseIP_nil := by decide
  comma_of_parseIP s ip h hcomma := absurd (hexOctets_digits h 44 hcomma) (by decide)
  trimSpace_of_parseIP pad s ip hpad h := by
    rw [dropWhile_append_of_pos (by simpa using hpad)]
    cases s with
    | nil => rfl
    | cons b rest =>
      refine dropWhile_cons_of_neg ?_
      have hdigit := hexOctets_digits h b mem_cons_self
      rw [decide_eq_true_eq]
      rintro (rfl | rfl) <;> exact absurd hdigit (by decide)

/-- The texts of the proxy and of the client. -/
def proxyText : Octets := hexNet.ipString (ipv4 10 0 0 1)

def clientText : Octets := hexNet.ipString (ipv4 8 8 8 8)

/-- The client has written the proxy's address, and itself comes through the proxy. -/
def forged : Request :=
  ⟨proxyText, [octets "1.2.3.4,, " ++ proxyText ++ octets ", " ++ clientText]⟩

theorem client_resolved_forged :
    hexNet.resolveClientIP (hexNet.newTrustedProxyMatcher [octets " " ++ proxyText]) forged =
      clientText := by
  have happend : Appends (octets " " ++ clientText) [octets "1.2.3.4,, " ++ proxyText]
      forged.forwardedFor :=
    @Appends.lastLine _ [] _
  have hof : forged.Of hexNet (hexNet.newTrustedProxyMatcher [octets " " ++ proxyText])
      (ipv4 8 8 8 8) _ :=
    ⟨ipv4 10 0 0 1, by decide +kernel,
      .proxy (.direct (by decide +kernel)) (by decide +kernel) (by decide +kernel)
        (by decide +kernel) happend⟩
  exact (client_resolved hof).1

end Anubis.Api
