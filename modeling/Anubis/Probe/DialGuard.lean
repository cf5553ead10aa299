import Anubis.Probe.Model.Guard

/-!
# The guard is sound

Whatever is asked for and whatever the resolver answers, the dialer is called
only with the text of an address that the guard does not block. An IPv4 address
is judged alike in every form that an IPv6 address can carry it in.
-/

namespace Anubis.Probe

open Addresses Checked List Option

variable {v : SSRFValidator} {net : Net}
variable {a b c d : UInt8} {ip : IP} {host : String}

/-! ## What is dialed -/

theorem length_ipv4OfNat (n : ℕ) : (ipv4OfNat n).length = 16 := rfl

theorem parseIP_length (h : parseIP net host = some ip) : ip.length = 16 := by
  unfold parseIP at h
  split at h
  · next hip =>
    cases h
    exact net.parseIP_length _ _ hip
  split at h
  · rw [← some.inj h, length_ipv4OfNat]
  dsimp only at h
  split at h
  · rw [← some.inj h, length_ipv4OfNat]
  split at h
  · split at h
    · cases h
    · rw [← some.inj h, length_ipv4OfNat]
  · cases h

/-- An address that may be dialed. -/
def SSRFValidator.Allows (v : SSRFValidator) (ip : IP) : Prop := ip.length = 16 ∧
    v.isBlockedIP ip = false

/-- The loop pins an address that may be dialed: every address it goes past has
been checked. -/
theorem allows_of_pin {addrs : List String} {pinned : Option IP}
    (hpinned : ∀ p ∈ pinned, v.Allows p) (h : v.pin net host addrs pinned = .ok (some ip)) :
    v.Allows ip := by
  induction addrs generalizing pinned with
  | nil => exact hpinned ip (Except.ok.inj h)
  | cons resolved rest ih =>
    unfold SSRFValidator.pin at h
    split at h
    · cases h
    next parsed hparsed =>
    split at h
    · cases h
    next hfree =>
    refine ih ?_ h
    cases pinned with
    | some => exact hpinned
    | none =>
      rintro _ ⟨⟩
      exact ⟨parseIP_length hparsed, by simpa using hfree⟩

/-- **The address of a call is the text of one that may be dialed**, with or
without a port, and is read as that address. -/
def SSRFValidator.Literal (v : SSRFValidator) (net : Net) (call : DialCall) : Prop :=
  ∃ ip, v.Allows ip ∧ net.parseIP (net.ipString ip) = some ip ∧
    (call.addr = net.ipString ip ∨ ∃ port, call.addr = joinHostPort (net.ipString ip) port)

theorem literal_of_wrap {lookup : String → Except String (List String)} {network addr : String}
    {call : DialCall}
    (h : v.wrapDialerContext net lookup network addr = .ok call) : v.Literal net call := by
  unfold SSRFValidator.wrapDialerContext at h
  dsimp only at h
  generalize (net.splitHostPort addr).toOption = split at h
  obtain ⟨ip, hallowed, rfl⟩ : ∃ ip, v.Allows ip ∧ call = ⟨network, dialAddr net split ip⟩ := by
    split at h
    · next ip hip =>
      simp only [bind_eq_ok, refuseIf_eq_ok, Except.ok.injEq] at h
      obtain ⟨-, hfree, rfl⟩ := h
      exact ⟨ip, ⟨parseIP_length hip, by simpa using hfree⟩, rfl⟩
    · split at h
      · cases h
      rw [bind_eq_ok] at h
      obtain ⟨pinned, hpin, h⟩ := h
      split at h
      · cases h
      · next ip =>
        cases h
        exact ⟨ip, allows_of_pin (by rintro _ ⟨⟩) hpin, rfl⟩
  refine ⟨ip, hallowed, net.parseIP_ipString ip hallowed.1, ?_⟩
  cases split with
  | none => exact .inl rfl
  | some hostPort => exact .inr ⟨hostPort.2, rfl⟩

/-! ## One address in many forms -/

/-- **The forms of an IPv4 address.** -/
inductive Carries (a b c d : UInt8) : IP → Prop
  | dotted : Carries a b c d [a, b, c, d]
  | mapped : Carries a b c d (ipv4 a b c d)
  | nat64 : Carries a b c d ([0, 0x64, 0xff, 0x9b, 0, 0, 0, 0, 0, 0, 0, 0] ++ [a, b, c, d])
  | sixToFour {rest : IP} (hrest : rest.length = 10) :
      Carries a b c d ([0x20, 0x02, a, b, c, d] ++ rest)
  | compatible (hown : [a, b, c, d] ≠ [0, 0, 0, 0] ∧ [a, b, c, d] ≠ [0, 0, 0, 1]) :
      Carries a b c d (replicate 12 0 ++ [a, b, c, d])

/-- What a form that is judged by its embedded address has to be like. -/
structure Judged (ip ip4 : IP) : Prop where
  length : ip.length = 16
  unmapped : to4 ip = none
  embedded : embeddedIPv4 ip = some ip4
  hard : isHardBlockedIP ip = false

theorem embeddedIPv4_v4 (a b c d : UInt8) : embeddedIPv4 [a, b, c, d] = none := rfl

/-- The verdict on an address that embeds none. -/
theorem isBlockedIP_of_plain (hne : ip ≠ []) (h : embeddedIPv4 ((to4 ip).getD ip) = none) :
    v.isBlockedIP ip =
      if isHardBlockedIP ((to4 ip).getD ip) then true
      else if v.allowedNetworks.any fun network => network.contains ((to4 ip).getD ip) then false
      else if privateNetworks.any fun network =>
        network.contains ((to4 ip).getD ip) then !v.allowPrivate
      else false := by
  rw [SSRFValidator.isBlockedIP, if_neg hne]
  dsimp only
  split
  · next heq =>
    rw [h] at heq
    cases heq
  · rfl

theorem isBlockedIP_v4 (a b c d : UInt8) :
    v.isBlockedIP [a, b, c, d] =
      if isHardBlockedIP [a, b, c, d] then true
      else if v.allowedNetworks.any fun network => network.contains [a, b, c, d] then false
      else if privateNetworks.any fun network => network.contains [a, b, c, d] then !v.allowPrivate
      else false :=
  isBlockedIP_of_plain (by simp) (embeddedIPv4_v4 a b c d)

/-- The verdict on an address that embeds one. -/
theorem isBlockedIP_of_embedded {ip ip4 : IP} (hne : ip ≠ [])
    (h : embeddedIPv4 ((to4 ip).getD ip) = some ip4) :
    v.isBlockedIP ip =
      if isHardBlockedIP ((to4 ip).getD ip) || isHardBlockedIP ip4 then true
      else if v.allowedNetworks.any fun network => network.contains ((to4 ip).getD ip) then false
      else v.isBlockedIP ip4 := by
  rw [SSRFValidator.isBlockedIP, if_neg hne]
  dsimp only
  split
  · next heq =>
    rw [h] at heq
    rw [some.inj heq]
  · next heq =>
    rw [h] at heq
    cases heq

/-- Such a form is blocked if its embedded address is. -/
theorem Judged.isBlockedIP_eq (hv4 : ∀ n ∈ v.allowedNetworks, n.IsV4)
    (h : Judged ip [a, b, c, d]) : v.isBlockedIP ip = v.isBlockedIP [a, b, c, d] := by
  have hne : ip ≠ [] := fun h' => by simpa [h'] using h.length
  have hallowed : (v.allowedNetworks.any fun network => network.contains ip) = false := by
    rw [List.any_eq_false]
    intro n hn
    simpa using (hv4 n hn).contains_eq_false h.unmapped h.length
  rw [isBlockedIP_of_embedded hne (by rw [h.unmapped]; exact h.embedded)]
  simp only [h.unmapped, getD_none, h.hard, hallowed, Bool.false_or, Bool.false_eq_true, if_false]
  split
  · next hhard =>
    rw [isBlockedIP_v4]
    exact (if_pos hhard).symm
  · rfl

theorem judged_nat64 (a b c d : UInt8) :
    Judged ([0, 0x64, 0xff, 0x9b, 0, 0, 0, 0, 0, 0, 0, 0] ++ [a, b, c, d]) [a, b, c, d] where
  length := rfl
  unmapped := rfl
  embedded := if_pos (agree_zeros [0, 0, 0, 0] [a, b, c, d] 4)
  hard := rfl

theorem judged_sixToFour (a b c d : UInt8) {rest : IP} (hrest : rest.length = 10) :
    Judged ([0x20, 0x02, a, b, c, d] ++ rest) [a, b, c, d] := by
  match rest, hrest with
  | [r0, r1, r2, r3, r4, r5, r6, r7, r8, r9], _ =>
    exact ⟨rfl, rfl, if_pos (agree_zeros (replicate 14 0) [a, b, c, d, r0, r1, r2, r3, r4, r5, r6,
      r7, r8, r9] 14),
      rfl⟩

theorem judged_compatible (hown : [a, b, c, d] ≠ [0, 0, 0, 0] ∧ [a, b, c, d] ≠ [0, 0, 0, 1]) :
    Judged (replicate 12 0 ++ [a, b, c, d]) [a, b, c, d] where
  length := rfl
  unmapped := rfl
  embedded := by
    have hnot : ¬ (replicate 12 0 ++ [a, b, c, d] = ipv6unspecified ∨
        replicate 12 0 ++ [a, b, c, d] = ipv6loopback) := by
      rintro (h | h)
      · exact hown.1 (congrArg (drop 12) h)
      · exact hown.2 (congrArg (drop 12) h)
    exact (if_pos (agree_zeros [0, 0, 0, 0] [a, b, c, d] 4)).trans (if_neg hnot)
  hard := by
    rw [isHardBlockedIP, List.any_eq_false]
    intro network hnetwork
    rw [Bool.not_eq_true]
    simp only [hardBlockedNetworks, mem_cons, not_mem_nil, or_false] at hnetwork
    rcases hnetwork with rfl | rfl | rfl | rfl | rfl | rfl | rfl | rfl | rfl | rfl | rfl | rfl
    case inr.inr.inr.inr.inr.inr.inl =>
      -- the unspecified address itself
      rw [← Bool.not_eq_true]
      exact fun h => hown.1 (@eq_of_agree_full [0, 0, 0, 0] [a, b, c, d] rfl h).symm
    all_goals rfl

/-- **Every form is judged like the address it carries.** -/
theorem Carries.isBlockedIP_eq (hv4 : ∀ n ∈ v.allowedNetworks, n.IsV4)
    (h : Carries a b c d ip) : v.isBlockedIP ip = v.isBlockedIP [a, b, c, d] := by
  cases h with
  | dotted => rfl
  | mapped =>
    rw [isBlockedIP_of_plain (by simp [ipv4, v4InV6])
      (by rw [to4_ipv4]; exact embeddedIPv4_v4 a b c d),
      isBlockedIP_v4, to4_ipv4, getD_some]
  | nat64 => exact (judged_nat64 a b c d).isBlockedIP_eq hv4
  | sixToFour hrest => exact (judged_sixToFour a b c d hrest).isBlockedIP_eq hv4
  | compatible hown => exact (judged_compatible hown).isBlockedIP_eq hv4

/-- **The guard is sound.** In every run of requests, with any answers of the
resolver, the dialer is called only with the text of an address that is not
blocked. If only IPv4 networks are allowed, every form of an IPv4 address is
blocked if the address is. -/
theorem guard_sound (v : SSRFValidator) (net : Net) :
    (∀ requests, ∀ call ∈ v.dials net requests, v.Literal net call) ∧
      ((∀ n ∈ v.allowedNetworks, n.IsV4) → ∀ a b c d ip, Carries a b c d ip →
        v.isBlockedIP ip = v.isBlockedIP [a, b, c, d]) := by
  refine ⟨fun requests call hcall => ?_, fun hv4 a b c d ip h => h.isBlockedIP_eq hv4⟩
  obtain ⟨request, -, hdialed⟩ := mem_filterMap.mp hcall
  exact literal_of_wrap (toOption_eq_some.mp hdialed)

/-- A resolver's world with addresses in hexadecimal and one name. -/
def oneName : Net where
  parseIP s := (hexTexts (fun n => .ofNat (hexDigit n)) (fun c : Char => hexValue c.toNat)
    (by decide)).parseIP s.toList
  ipString ip := String.ofList (hex (fun n => .ofNat (hexDigit n)) ip)
  splitHostPort s :=
    if s = "dns.example:53" then .ok ("dns.example", "53") else .error "missing port in address"
  parseIP_length s ip h := Texts.parseIP_length _ _ ip h
  parseIP_ipString ip h := by
    rw [String.toList_ofList]
    exact Texts.parseIP_ipString _ ip h

/-- The text of `8.8.8.8` there. -/
def resolvedText : String := "00000000000000000000ffff08080808"

/-- The name is resolved, and its address is dialed. -/
theorem oneName_dials :
    (⟨false, []⟩ : SSRFValidator).dials oneName
      [⟨"tcp", "dns.example:53", fun _ => .ok [resolvedText]⟩] =
      [⟨"tcp", resolvedText ++ ":53"⟩] := by
  have hfree : (⟨false, []⟩ : SSRFValidator).isBlockedIP (ipv4 8 8 8 8) = false := by
    rw [isBlockedIP_of_plain (by decide) (by rw [to4_ipv4]; exact embeddedIPv4_v4 8 8 8 8)]
    decide
  have hname : parseIP oneName "dns.example" = none := by decide
  have hresolved : parseIP oneName resolvedText = some (ipv4 8 8 8 8) := by decide
  have hsplit : (oneName.splitHostPort "dns.example:53").toOption = some ("dns.example", "53") :=
    rfl
  have hpin : (⟨false, []⟩ : SSRFValidator).pin oneName "dns.example" [resolvedText] none =
      .ok (some (ipv4 8 8 8 8)) := by
    simp only [SSRFValidator.pin, hresolved, hfree]
    rfl
  have hwrap : (⟨false, []⟩ : SSRFValidator).wrapDialerContext oneName
      (fun _ => .ok [resolvedText]) "tcp" "dns.example:53" =
        .ok ⟨"tcp", resolvedText ++ ":53"⟩ := by
    simp only [SSRFValidator.wrapDialerContext, hsplit, map_some, getD_some, hname, hpin]
    decide
  simp only [SSRFValidator.dials, filterMap_cons, hwrap]
  rfl

/-- **The theorem at work**: a call of the dialer, with an address that may be
dialed, and a private address that is blocked in the form NAT64 gives it. -/
theorem guard_sound_dialed :
    (∃ requests, ∃ call ∈ (⟨false, []⟩ : SSRFValidator).dials oneName requests,
      call.addr = resolvedText ++ ":53" ∧ (⟨false, []⟩ : SSRFValidator).Literal oneName call) ∧
    (⟨false, []⟩ : SSRFValidator).isBlockedIP
      ([0, 0x64, 0xff, 0x9b, 0, 0, 0, 0, 0, 0, 0, 0] ++ [10, 0, 0, 1]) = true := by
  have hmem : (⟨"tcp", resolvedText ++ ":53"⟩ : DialCall) ∈
      (⟨false, []⟩ : SSRFValidator).dials oneName
        [⟨"tcp", "dns.example:53", fun _ => .ok [resolvedText]⟩] := by
    rw [oneName_dials]
    exact mem_singleton_self _
  obtain ⟨hliteral, hforms⟩ := guard_sound ⟨false, []⟩ oneName
  refine ⟨⟨_, _, hmem, rfl, hliteral _ _ hmem⟩, ?_⟩
  rw [hforms (forall_mem_nil _) 10 0 0 1 _ .nat64, isBlockedIP_v4]
  decide

end Anubis.Probe
