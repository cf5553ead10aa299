import Mathlib.Data.List.Basic
import Mathlib.Data.Nat.Notation
import Mathlib.Algebra.Group.Nat.Defs

/-!
# Network addresses

IP addresses as the bytes of Go's `net.IP`, four or sixteen of them, and
networks with a mask. An IPv4 address is the same as the IPv6 address that maps
it: both lie in the same networks.
-/

namespace Addresses

open List Option

/-- `net.IP`; no bytes stand for `nil`. -/
abbrev IP := List UInt8

/-- The prefix of the IPv6 addresses that map an IPv4 address. -/
def v4InV6 : IP := [0, 0, 0, 0, 0, 0, 0, 0, 0, 0, 0xff, 0xff]

/-- `net.IPv4`. -/
def ipv4 (a b c d : UInt8) : IP := v4InV6 ++ [a, b, c, d]

/-- `IP.To4`. -/
def to4 (ip : IP) : Option IP :=
  if ip.length = 4 then some ip
  else if ip.length = 16 ∧ ip.take 12 = v4InV6 then some (ip.drop 12)
  else none

/-- `net.IPNet`. -/
structure IPNet where
  ip : IP
  mask : List UInt8

/-- `networkNumberAndMask`; a network that is not well formed has no bytes. -/
def IPNet.numberAndMask (n : IPNet) : IP × List UInt8 :=
  match to4 n.ip with
  | some ip =>
    if n.mask.length = 4 then (ip, n.mask)
    else if n.mask.length = 16 then (ip, n.mask.drop 12)
    else ([], [])
  | none => if n.ip.length = 16 ∧ n.mask.length = 16 then (n.ip, n.mask) else ([], [])

/-- Two addresses agree where the mask is set. -/
def agree : IP → IP → List UInt8 → Bool
  | x :: xs, y :: ys, m :: ms => x &&& m == y &&& m && agree xs ys ms
  | _, _, _ => true

/-- `IPNet.Contains`. -/
def IPNet.contains (n : IPNet) (ip : IP) : Bool :=
  let ip := (to4 ip).getD ip
  ip.length == n.numberAndMask.1.length && agree n.numberAndMask.1 ip n.numberAndMask.2

/-- The network is one of IPv4 addresses. -/
def IPNet.IsV4 (n : IPNet) : Prop := (to4 n.ip).isSome = true

/-- One byte of `net.CIDRMask`, with so many bits set. -/
def maskByte (bits : ℕ) : UInt8 := UInt8.ofNat (256 - 2 ^ (8 - min bits 8))

/-- `net.CIDRMask` for so many bytes. -/
def cidrMask : ℕ → ℕ → List UInt8
  | 0, _ => []
  | bytes + 1, ones => maskByte ones :: cidrMask bytes (ones - 8)

/-- `a.b.c.d/ones`. -/
def cidr4 (a b c d : UInt8) (ones : ℕ) : IPNet := ⟨[a, b, c, d], cidrMask 4 ones⟩

/-- An IPv6 network, by the words in front of `::` and the words after it. -/
def cidr6 (front back : List UInt16) (ones : ℕ) : IPNet :=
  let bytes (words : List UInt16) : IP := words.flatMap fun w : UInt16 =>
    [(w >>> 8).toUInt8, w.toUInt8]
  ⟨bytes front ++ replicate (16 - 2 * front.length - 2 * back.length) 0 ++ bytes back,
    cidrMask 16 ones⟩

@[simp]
theorem to4_ipv4 (a b c d : UInt8) : to4 (ipv4 a b c d) = some [a, b, c, d] := by
  simp [to4, ipv4, v4InV6]

/-- Where the mask is empty, any two addresses agree. -/
theorem agree_zeros (xs ys : IP) (n : ℕ) : agree xs ys (replicate n 0) = true := by
  induction n generalizing xs ys with
  | zero => cases xs <;> cases ys <;> rfl
  | succ n ih =>
    cases xs with
    | nil => rfl
    | cons =>
      cases ys with
      | nil => rfl
      | cons => simp [replicate_succ, agree, ih]

/-- Where the mask is full, two addresses agree only if they are the same. -/
theorem eq_of_agree_full {xs ys : IP} (hlen : xs.length = ys.length)
    (h : agree xs ys (replicate xs.length 255) = true) : xs = ys := by
  induction xs generalizing ys with
  | nil => exact (length_eq_zero_iff.mp hlen.symm).symm
  | cons x xs ih =>
    cases ys with
    | nil => cases hlen
    | cons =>
      simp only [length_cons, replicate_succ, agree, Bool.and_eq_true, beq_iff_eq] at h
      have hself : ∀ z : UInt8, z &&& 255 = z := fun z => show z &&& -1 = z from UInt8.and_neg_one
      rw [hself, hself] at h
      rw [h.1, ih (Nat.succ.inj hlen) h.2]

theorem length_of_to4 {ip ip4 : IP} (h : to4 ip = some ip4) : ip4.length = 4 := by
  unfold to4 at h
  split at h
  · next hlen => rw [← some.inj h, hlen]
  · split at h
    · next hlen => rw [← some.inj h, length_drop, hlen.1]
    · cases h

/-- A network of IPv4 addresses has nothing but IPv4 addresses. -/
theorem IPNet.IsV4.contains_eq_false {n : IPNet} (h : n.IsV4) {ip : IP} (hip : to4 ip = none)
    (hlen : ip.length = 16) : n.contains ip = false := by
  obtain ⟨number, hnumber⟩ := isSome_iff_exists.mp h
  have hfour := length_of_to4 hnumber
  unfold IPNet.contains IPNet.numberAndMask
  simp only [hip, hnumber, getD_none]
  split
  · simp [hlen, hfour]
  · split <;> simp [hlen, hfour]

/-! ## Addresses as texts -/

/-- How addresses are read and written. -/
structure Texts (T : Type) where
  /-- `net.ParseIP`. -/
  parseIP : T → Option IP
  /-- `IP.String`. -/
  ipString : IP → T
  /-- A parsed address has sixteen bytes. -/
  parseIP_length : ∀ s ip, parseIP s = some ip → ip.length = 16
  /-- Such an address is read back as it is written. -/
  parseIP_ipString : ∀ ip, ip.length = 16 → parseIP (ipString ip) = some ip

section Hexadecimal

variable {α : Type} {digit : ℕ → α} {value : α → Option ℕ}

/-- Two digits for each byte. -/
def hex (digit : ℕ → α) (ip : IP) : List α :=
  ip.flatMap fun b => [digit (b.toNat / 16), digit (b.toNat % 16)]

/-- The bytes of a text of digits. -/
def unhex (value : α → Option ℕ) : List α → Option IP
  | a :: b :: rest => do return .ofNat (16 * (← value a) + (← value b)) :: (← unhex value rest)
  | [_] => none
  | [] => some []

theorem unhex_hex (h : ∀ n < 16, value (digit n) = some n) (ip : IP) :
    unhex value (hex digit ip) = some ip := by
  induction ip with
  | nil => rfl
  | cons b ip ih =>
    have hlt := b.toNat_lt
    have hb : UInt8.ofNat (16 * (b.toNat / 16) + b.toNat % 16) = b := by
      rw [Nat.div_add_mod, UInt8.ofNat_toNat]
    rw [hex] at ih
    rw [hex, flatMap_cons, cons_append, cons_append, nil_append, unhex, h _ (by omega),
      h _ (by omega), ih]
    exact congrArg (fun c => some (c :: ip)) hb

/-- There is nothing but digits in an address. -/
theorem isSome_of_unhex {s : List α} {ip : IP} (h : unhex value s = some ip) :
    ∀ a ∈ s, (value a).isSome := by
  fun_induction unhex value s generalizing ip with
  | case1 a b rest ih =>
    simp only [bind_eq_bind, bind_eq_some_iff] at h
    obtain ⟨x, hx, y, hy, tail, htail, -⟩ := h
    simpa [hx, hy] using ih htail
  | case2 => cases h
  | case3 => exact forall_mem_nil _

/-- Addresses written in hexadecimal. -/
def hexTexts (digit : ℕ → α) (value : α → Option ℕ) (h : ∀ n < 16, value (digit n) = some n) :
    Texts (List α) where
  parseIP s := (unhex value s).filter fun ip => ip.length = 16
  ipString := hex digit
  parseIP_length s ip hip := of_decide_eq_true (Option.filter_eq_some_iff.mp hip).2
  parseIP_ipString ip hlen := by
    rw [unhex_hex h]
    simp [hlen]

end Hexadecimal

/-- The number of a hexadecimal digit in ASCII. -/
def hexDigit (n : ℕ) : ℕ := if n < 10 then 48 + n else 87 + n

/-- The digit of a number in ASCII. -/
def hexValue (c : ℕ) : Option ℕ :=
  if 48 ≤ c ∧ c < 58 then some (c - 48) else if 97 ≤ c ∧ c < 103 then some (c - 87) else none

end Addresses
