import Anubis.Storage.Model.Wal

/-!
# Frames in a file

What `readWALEntryAt` and `findNextWALEntry` see of a file that consists of
frames. A whole frame is read back. Of a frame that is cut off nothing is
read, and nothing in it is taken for the start of another: a zero byte occurs
in a length prefix only, and four bytes after it there is no opening brace
unless it is the first one.
-/

namespace Anubis.Storage

open List Base64

variable {J : Json} {e : WalEntry} {A B file : Bytes} {k : ℕ}
variable {b : Byte} {i : ℕ}

/-! ## The text of an entry -/

/-- A byte of a number. -/
def isNumeric (b : Byte) : Prop := b.val = 45 ∨ 48 ≤ b.val ∧ b.val ≤ 57

/-- The digits of a number as bytes. -/
def digits (n : ℕ) : Bytes := (Nat.toDigits 10 n).map fun c => Fin.ofNat 256 c.toNat

theorem digits_range {n : ℕ} (hb : b ∈ digits n) : 48 ≤ b.val ∧ b.val ≤ 57 := by
  obtain ⟨c, hc, rfl⟩ := mem_map.mp hb
  have hd := Char.isDigit_iff_toNat.mp (Nat.isDigit_of_mem_toDigits (by omega) (by omega) hc)
  have h0 : '0'.toNat = 48 := rfl
  have h9 : '9'.toNat = 57 := rfl
  rw [Fin.val_ofNat]
  omega

theorem decimal_numeric {n : ℤ} (hb : b ∈ decimal n) : isNumeric b := by
  have hdigits : ∀ b ∈ digits n.natAbs, isNumeric b := fun b hb => .inr (digits_range hb)
  unfold decimal at hb
  dsimp only at hb
  split at hb
  · rcases mem_append.mp hb with hb | hb
    · obtain rfl : b = 45 := by simpa [ascii] using hb
      exact .inl rfl
    · exact hdigits b hb
  · exact hdigits b hb

theorem decimal_printable {n : ℤ} (hb : b ∈ decimal n) : 32 ≤ b.val := by
  rcases decimal_numeric hb with h | h <;> omega

/-- The field `value`. -/
def valueField : Option Bytes → Bytes
  | none => []
  | some v => ascii ",\"value\":\"" ++ Base64.encode v ++ ascii "\""

/-- The checksum and the end of an entry. -/
def ending (crc : BitVec 32) : Bytes :=
  (if crc = 0 then [] else ascii ",\"crc32\":" ++ decimal crc.toNat) ++ ascii "\x7d"

theorem marshal_append (J : JsonText) (e : WalEntry) (r : Bytes) :
    e.marshal J ++ r = ascii "\x7b\"op\":" ++
    (e.op.text J ++ (ascii ",\"key\":" ++ (J.quote e.key ++ (valueField e.value ++
      (ascii ",\"time\":" ++ (decimal e.time.toInt ++ (ending e.crc32 ++ r))))))) := by
  unfold WalEntry.marshal ending valueField
  cases e.value <;> simp only [append_assoc]

theorem marshal_head (J : JsonText) (e : WalEntry) :
    ∃ rest, e.marshal J = 123 :: 34 :: 111 :: 112 :: rest := ⟨_, rfl⟩

/-- Text without control characters. -/
def Printable (text : Bytes) : Prop := ∀ b ∈ text, 32 ≤ b.val

theorem printable_of_all {text : Bytes} (h : text.all (fun b => decide (32 ≤ b.val)) = true) :
    Printable text := fun b hb => of_decide_eq_true (all_eq_true.mp h b hb)

theorem Printable.append {xs ys : Bytes} (hx : Printable xs) (hy : Printable ys) :
    Printable (xs ++ ys) :=
  fun b hb => (mem_append.mp hb).elim (hx b) (hy b)

theorem WalOp.text_printable (J : JsonText) (op : WalOp) : Printable (op.text J) := by
  cases op with
  | put | delete | batch => exact printable_of_all rfl
  | other name => exact J.quote_printable name

/-- The text of an entry is printable. -/
theorem marshal_printable (J : JsonText) (e : WalEntry) : Printable (e.marshal J) := by
  have hvalue : Printable (match e.value with
      | none => []
      | some v => ascii ",\"value\":\"" ++ Base64.encode v ++ ascii "\"") := by
    cases e.value with
    | none => exact nofun
    | some v =>
      have hv : Printable (encode v) := fun b hb => le_trans (by decide) (encode_range hb)
      exact ((printable_of_all rfl).append hv).append (printable_of_all rfl)
  have hcrc : Printable (if e.crc32 = 0 then [] else ascii ",\"crc32\":" ++
    decimal e.crc32.toNat) := by
    split
    · exact nofun
    · exact (printable_of_all rfl).append fun b hb => decimal_printable hb
  have hfront : Printable (ascii "\x7b\"op\":" ++ e.op.text J ++ ascii ",\"key\":" ++
    J.quote e.key) :=
    (((printable_of_all rfl).append (e.op.text_printable J)).append (printable_of_all rfl)).append
      (J.quote_printable _)
  have htime : Printable (decimal e.time.toInt) := fun b hb => decimal_printable hb
  exact ((((hfront.append hvalue).append (printable_of_all rfl)).append htime).append hcrc).append
    (printable_of_all rfl)

/-! ## Reading -/

theorem byteAt_append_right (A B : Bytes) (i : ℕ) :
    byteAt (A ++ B) (A.length + i) = byteAt B i := by
  unfold byteAt
  rw [getElem?_append_right (Nat.le_add_right _ _), Nat.add_sub_cancel_left]

theorem byteAt_take (hi : i < k) : byteAt (A.take k) i = byteAt A i := by
  unfold byteAt
  rw [getElem?_take, if_pos hi]

theorem byteAt_eq (hi : i < A.length) : byteAt A i = A[i].val := by
  unfold byteAt
  rw [getElem?_eq_getElem hi]
  rfl

/-- Four bytes say the length they were made from. -/
theorem lengthAt_lengthPrefix {n : ℕ} (hn : n < 2 ^ 32) : lengthAt (lengthPrefix n ++ B) 0 = n := by
  have h0 : byteAt (lengthPrefix n ++ B) 0 = n / 2 ^ 24 % 256 := rfl
  have h1 : byteAt (lengthPrefix n ++ B) (0 + 1) = n / 2 ^ 16 % 256 := rfl
  have h2 : byteAt (lengthPrefix n ++ B) (0 + 2) = n / 2 ^ 8 % 256 := rfl
  have h3 : byteAt (lengthPrefix n ++ B) (0 + 3) = n % 256 := rfl
  unfold lengthAt
  rw [h0, h1, h2, h3]
  omega

theorem lengthAt_append (A B : Bytes) : lengthAt (A ++ B) A.length = lengthAt B 0 := by
  unfold lengthAt
  rw [byteAt_append_right, byteAt_append_right, byteAt_append_right]
  have := byteAt_append_right A B 0
  rw [Nat.add_zero] at this
  rw [this]

/-- An entry as the log holds it: it can be encoded, carries its checksum, and
is not too large. -/
structure Logged (J : Json) (e : WalEntry) : Prop where
  encodable : e.Encodable J.toJsonText
  crc : e.crc32 = walChecksum J e
  fits : (e.marshal J.toJsonText).length ≤ maxWALEntryBytes

theorem length_frame (J : Json) (e : WalEntry) :
    (frame J e).length = 4 + (e.marshal J.toJsonText).length := by
  unfold frame
  rw [length_append]
  rfl

theorem marshal_length_pos (J : JsonText) (e : WalEntry) : 4 ≤ (e.marshal J).length := by
  obtain ⟨rest, hrest⟩ := marshal_head J e
  rw [hrest]
  simp only [length_cons]
  omega

theorem frame_append (J : Json) (e : WalEntry) (B : Bytes) : frame J e ++ B =
    lengthPrefix (e.marshal J.toJsonText).length ++ (e.marshal J.toJsonText ++ B) :=
  append_assoc ..

namespace Logged

variable (h : Logged J e)

include h

/-- A frame says how long it is. -/
theorem lengthAt (A B : Bytes) :
    lengthAt (A ++ (frame J e ++ B)) A.length = (e.marshal J.toJsonText).length := by
  have hfits := h.fits
  rw [lengthAt_append, frame_append, lengthAt_lengthPrefix]
  unfold maxWALEntryBytes at hfits
  omega

/-- **A whole frame is read back.** -/
theorem read (A B : Bytes) :
    readWALEntryAt J (A ++ (frame J e ++ B)) A.length = .ok (e, (frame J e).length) := by
  have hlen : (A ++ (frame J e ++ B)).length = A.length + 4 + (e.marshal J.toJsonText).length +
    B.length := by
    simp only [length_append, length_frame]
    omega
  have hpos := marshal_length_pos J.toJsonText e
  have hbody : ((A ++ (frame J e ++ B)).drop (A.length + 4)).take (e.marshal J.toJsonText).length =
      e.marshal J.toJsonText := by
    rw [drop_append, frame_append]
    have h4 : (lengthPrefix (e.marshal J.toJsonText).length).length = 4 := rfl
    rw [drop_of_length_le (by omega), nil_append, Nat.add_sub_cancel_left, ← h4, drop_left,
      take_left]
  have hfits := h.fits
  unfold readWALEntryAt
  rw [h.lengthAt A B, length_frame]
  dsimp only
  rw [hbody, hlen, J.unmarshal_marshal e h.encodable, if_neg (by omega), if_neg (by omega),
    if_neg (by omega)]

/-- **A frame that is cut off is not read.** -/
theorem read_torn (A : Bytes) (hk : k < (frame J e).length) :
    ∃ reason, readWALEntryAt J (A ++ (frame J e).take k) A.length = .error reason := by
  have hlen : (A ++ (frame J e).take k).length = A.length + k := by
    rw [length_append, length_take]
    omega
  unfold readWALEntryAt
  rw [hlen]
  by_cases h4 : A.length + k < A.length + 4
  · exact ⟨_, if_pos h4⟩
  · rw [if_neg h4]
    have hlength : Storage.lengthAt (A ++ (frame J e).take k) A.length =
      (e.marshal J.toJsonText).length := by
      have hwhole := h.lengthAt A []
      rw [lengthAt_append] at hwhole ⊢
      unfold Storage.lengthAt at hwhole ⊢
      rw [byteAt_take (by omega), byteAt_take (by omega), byteAt_take (by omega),
        byteAt_take (by omega)]
      simpa using hwhole
    rw [length_frame] at hk
    rw [hlength, if_neg (by have := h.fits; have := marshal_length_pos J.toJsonText e; omega),
      if_pos (by omega)]
    exact ⟨_, rfl⟩

/-- A frame begins with a zero byte. -/
theorem frame_head : ∃ rest, frame J e = 0 :: rest := by
  have hfits := h.fits
  have hzero : Fin.ofNat 256 ((e.marshal J.toJsonText).length / 2 ^ 24) = 0 := by
    apply Fin.ext
    unfold maxWALEntryBytes at hfits
    rw [Fin.val_ofNat, Fin.val_zero]
    omega
  exact ⟨_, congrArg (· :: _) hzero⟩

end Logged

theorem byteAt_frame (hi : i < (e.marshal J.toJsonText).length) :
    byteAt (frame J e) (4 + i) = ((e.marshal J.toJsonText)[i]).val := by
  rw [← byteAt_eq hi]
  exact byteAt_append_right (lengthPrefix (e.marshal J.toJsonText).length) _ i

/-- **Nothing in a frame that is cut off looks like the start of one.** -/
theorem Logged.findNext_torn (A : Bytes) (hk : k ≤ (frame J e).length) :
    findNextWALEntry J (A ++ (frame J e).take k) (A.length + 1) = none := by
  have hlen : (A ++ (frame J e).take k).length = A.length + k := by
    rw [length_append, length_take]
    omega
  unfold findNextWALEntry
  rw [find?_eq_none]
  intro off hoff hstarts
  rw [mem_range'_1, hlen] at hoff
  unfold startsEntry at hstarts
  rw [decide_eq_true_iff, hlen] at hstarts
  obtain ⟨hroom, hzero, -, -, -, hbrace, -⟩ := hstarts
  obtain ⟨j, rfl⟩ : ∃ j, off = A.length + j := ⟨off - A.length, by omega⟩
  rw [byteAt_append_right, byteAt_take (by omega)] at hzero
  rw [Nat.add_assoc, byteAt_append_right, byteAt_take (by omega)] at hbrace
  have hkframe := length_frame J e
  obtain ⟨rest, hrest⟩ := marshal_head J.toJsonText e
  by_cases hj : j < 4
  · -- in the length prefix: four bytes further on is the name of the first field
    have hfour : byteAt (frame J e) (j + 4) = byteAt (e.marshal J.toJsonText) j := by
      rw [Nat.add_comm]
      exact byteAt_append_right (lengthPrefix (e.marshal J.toJsonText).length) _ j
    rw [hfour, hrest] at hbrace
    have : j = 1 ∨ j = 2 ∨ j = 3 := by omega
    rcases this with rfl | rfl | rfl
    · exact absurd hbrace (show (34 : ℕ) ≠ 123 by decide)
    · exact absurd hbrace (show (111 : ℕ) ≠ 123 by decide)
    · exact absurd hbrace (show (112 : ℕ) ≠ 123 by decide)
  · -- in the text: no byte is zero
    obtain ⟨i, rfl⟩ : ∃ i, j = 4 + i := ⟨j - 4, by omega⟩
    have hi : i < (e.marshal J.toJsonText).length := by omega
    rw [byteAt_frame hi] at hzero
    have := marshal_printable J.toJsonText e _ (getElem_mem hi)
    omega

/-- **A whole frame with a checksum is found.** -/
theorem Logged.startsEntry (h : Logged J e) (hcrc : e.crc32 ≠ 0) (A B : Bytes) :
    startsEntry J (A ++ (frame J e ++ B)) A.length = true := by
  have hpos := marshal_length_pos J.toJsonText e
  have hfits := h.fits
  have hlen : (A ++ (frame J e ++ B)).length = A.length + 4 + (e.marshal J.toJsonText).length +
    B.length := by
    simp only [length_append, length_frame]
    omega
  have hzero : byteAt (A ++ (frame J e ++ B)) A.length = 0 := by
    have := byteAt_append_right A (frame J e ++ B) 0
    rw [Nat.add_zero] at this
    have hfirst : byteAt (frame J e ++ B) 0 = (e.marshal J.toJsonText).length / 2 ^ 24 % 256 := rfl
    rw [this, hfirst]
    unfold maxWALEntryBytes at hfits
    omega
  have hbrace : byteAt (A ++ (frame J e ++ B)) (A.length + 4) = 123 := by
    obtain ⟨rest, hrest⟩ := marshal_head J.toJsonText e
    rw [byteAt_append_right, frame_append, hrest]
    rfl
  unfold Storage.startsEntry
  rw [decide_eq_true_iff, h.lengthAt A B, h.read A B, hlen]
  refine ⟨by omega, hzero, by omega, hfits, by omega, hbrace, ?_⟩
  exact decide_eq_true ⟨hcrc, h.crc.symm⟩

theorem findNext_isSome {start off : ℕ} (hstart : start ≤ off)
    (hoff : startsEntry J file off = true) : ∃ next, findNextWALEntry J file start = some next := by
  have hlt : off + 4 < file.length := by
    unfold startsEntry at hoff
    exact (of_decide_eq_true hoff).1
  refine Option.isSome_iff_exists.mp ?_
  unfold findNextWALEntry
  rw [find?_isSome]
  exact ⟨off, mem_range'_1.mpr ⟨hstart, by omega⟩, hoff⟩

/-! ## A byte that is changed -/

/-- Another byte in a length prefix makes another length. -/
theorem lengthAt_set {n i : ℕ} (hi : i < 4) (hb : (lengthPrefix n)[i]? ≠ some b) (B : Bytes)
    (hn : n < 2 ^ 32) : lengthAt ((lengthPrefix n).set i b ++ B) 0 ≠ n := by
  intro hlen
  have hval : ∀ m : ℕ, Fin.ofNat 256 m ≠ b → m % 256 ≠ b.val := by
    intro m hne heq
    exact hne (Fin.ext heq)
  have hcases : i = 0 ∨ i = 1 ∨ i = 2 ∨ i = 3 := by omega
  rcases hcases with rfl | rfl | rfl | rfl
  · have h := hval (n / 2 ^ 24) fun heq => hb (congrArg some heq)
    have hl : lengthAt ((lengthPrefix n).set 0 b ++ B) 0 =
        b.val * 2 ^ 24 + n / 2 ^ 16 % 256 * 2 ^ 16 + n / 2 ^ 8 % 256 * 2 ^ 8 + n % 256 := rfl
    omega
  · have h := hval (n / 2 ^ 16) fun heq => hb (congrArg some heq)
    have hl : lengthAt ((lengthPrefix n).set 1 b ++ B) 0 =
        n / 2 ^ 24 % 256 * 2 ^ 24 + b.val * 2 ^ 16 + n / 2 ^ 8 % 256 * 2 ^ 8 + n % 256 := rfl
    omega
  · have h := hval (n / 2 ^ 8) fun heq => hb (congrArg some heq)
    have hl : lengthAt ((lengthPrefix n).set 2 b ++ B) 0 =
        n / 2 ^ 24 % 256 * 2 ^ 24 + n / 2 ^ 16 % 256 * 2 ^ 16 + b.val * 2 ^ 8 + n % 256 := rfl
    omega
  · have h := hval n fun heq => hb (congrArg some heq)
    have hl : lengthAt ((lengthPrefix n).set 3 b ++ B) 0 =
        n / 2 ^ 24 % 256 * 2 ^ 24 + n / 2 ^ 16 % 256 * 2 ^ 16 + n / 2 ^ 8 % 256 * 2 ^ 8 + b.val :=
          rfl
    omega

/-- A wrong length is noticed: the text is cut off, or the next frame's zero
byte is in it. -/
theorem Logged.read_length (h : Logged J e) {p : Bytes} (hp : p.length = 4)
    (hne : Storage.lengthAt (p ++ (e.marshal J.toJsonText ++ (0 :: B))) 0 ≠
      (e.marshal J.toJsonText).length) :
    ∃ reason, readWALEntryAt J (A ++ (p ++ (e.marshal J.toJsonText ++ (0 :: B)))) A.length =
      .error reason := by
  have hdrop : (A ++ (p ++ (e.marshal J.toJsonText ++ (0 :: B)))).drop (A.length + 4) =
      e.marshal J.toJsonText ++ (0 :: B) := by
    rw [drop_append, drop_of_length_le (by omega), nil_append, Nat.add_sub_cancel_left, ← hp,
      drop_left]
  have hnone : J.unmarshal ((e.marshal J.toJsonText ++ (0 :: B)).take
      (Storage.lengthAt (p ++ (e.marshal J.toJsonText ++ (0 :: B))) 0)) = none := by
    rcases Nat.lt_or_ge (Storage.lengthAt (p ++ (e.marshal J.toJsonText ++ (0 :: B))) 0)
      (e.marshal J.toJsonText).length with hlt | hge
    · rw [take_append_of_le_length hlt.le]
      exact J.unmarshal_cut e h.encodable _ hlt
    · refine J.unmarshal_zero _ ?_
      obtain ⟨d, hd⟩ := Nat.exists_eq_add_of_lt (lt_of_le_of_ne hge hne.symm)
      rw [hd, Nat.add_assoc, take_length_add_append]
      simp
  unfold readWALEntryAt
  rw [lengthAt_append, hdrop]
  dsimp only
  rw [hnone]
  split
  · exact ⟨_, rfl⟩
  · split
    · exact ⟨_, rfl⟩
    · split <;> exact ⟨_, rfl⟩

/-- CRC-32 tells that byte `i` of a frame has become `b`: if the text can be
decoded at all, it has a checksum that does not match. -/
def Detects (J : Json) (e : WalEntry) (i : ℕ) (b : Byte) : Prop :=
  4 ≤ i → ∀ e', J.unmarshal ((e.marshal J.toJsonText).set (i - 4) b) = some e' →
    e'.crc32 ≠ 0 ∧ walChecksum J e' ≠ e'.crc32

/-- **A changed byte is noticed**, by the length or, if the checksum tells, by
the text. -/
theorem Logged.read_set (h : Logged J e) (hb : (frame J e)[i]? ≠ some b)
    (hcrc : Detects J e i b) (A B : Bytes) :
    (∃ reason, readWALEntryAt J (A ++ ((frame J e).set i b ++ (0 :: B))) A.length = .error reason) ∨
    ∃ e', readWALEntryAt J (A ++ ((frame J e).set i b ++ (0 :: B))) A.length =
      .ok (e', (frame J e).length) ∧
      e'.crc32 ≠ 0 ∧ walChecksum J e' ≠ e'.crc32 := by
  have hp4 : (lengthPrefix (e.marshal J.toJsonText).length).length = 4 := rfl
  have hfits := h.fits
  have hn : (e.marshal J.toJsonText).length < 2 ^ 32 := by
    unfold maxWALEntryBytes at hfits
    omega
  rcases Nat.lt_or_ge i 4 with hi4 | hi4
  · left
    have hset : (frame J e).set i b ++ (0 :: B) =
        (lengthPrefix (e.marshal J.toJsonText).length).set i b ++
        (e.marshal J.toJsonText ++ (0 :: B)) := by
      unfold frame
      dsimp only
      rw [set_append_left _ _ hi4, append_assoc]
    have hb' : (lengthPrefix (e.marshal J.toJsonText).length)[i]? ≠ some b := by
      unfold frame at hb
      dsimp only at hb
      rwa [getElem?_append_left hi4] at hb
    rw [hset]
    exact h.read_length (by simp [hp4]) (lengthAt_set hi4 hb' _ hn)
  · have hset : (frame J e).set i b ++ (0 :: B) = lengthPrefix (e.marshal J.toJsonText).length ++
        ((e.marshal J.toJsonText).set (i - 4) b ++ (0 :: B)) := by
      unfold frame
      dsimp only
      rw [set_append_right _ _ (by omega), hp4, append_assoc]
    have hdrop : (A ++ ((frame J e).set i b ++ (0 :: B))).drop (A.length + 4) =
        (e.marshal J.toJsonText).set (i - 4) b ++ (0 :: B) := by
      rw [hset, drop_append, drop_of_length_le (by omega), nil_append, Nat.add_sub_cancel_left,
        ← hp4, drop_left]
    have htake : ((e.marshal J.toJsonText).set (i - 4) b ++ (0 :: B)).take
      (e.marshal J.toJsonText).length =
        (e.marshal J.toJsonText).set (i - 4) b := by
      rw [take_append_of_le_length (by simp), take_of_length_le (by simp)]
    have hlength : Storage.lengthAt (A ++ ((frame J e).set i b ++ (0 :: B))) A.length =
        (e.marshal J.toJsonText).length := by
      rw [lengthAt_append, hset, lengthAt_lengthPrefix hn]
    have hlen : (A ++ ((frame J e).set i b ++ (0 :: B))).length =
        A.length + 4 + (e.marshal J.toJsonText).length + 1 + B.length := by
      simp only [length_append, length_set, length_frame, length_cons]
      omega
    have hpos := marshal_length_pos J.toJsonText e
    unfold readWALEntryAt
    rw [hlength, hdrop, hlen]
    dsimp only
    rw [htake, if_neg (by omega), if_neg (by omega), if_neg (by omega), length_frame]
    cases hu : J.unmarshal ((e.marshal J.toJsonText).set (i - 4) b) with
    | none => exact .inl ⟨_, rfl⟩
    | some e' => exact .inr ⟨e', rfl, hcrc hi4 e' hu⟩

/-!
## The sizes of frames

How long the text of an entry is. A `PUT` has its value in base64, a `BATCH` a
map whose values are in base64, in base64 once more.
-/

/-! ## Numbers -/

theorem length_digits_le_iff {n k : ℕ} (hk : 0 < k) : (digits n).length ≤ k ↔ n < 10 ^ k := by
  unfold digits
  rw [length_map]
  exact Nat.length_toDigits_le_iff (by omega) hk

theorem length_digits_pos (n : ℕ) : 0 < (digits n).length := by
  unfold digits
  rw [length_map]
  exact Nat.length_toDigits_pos

theorem decimal_natCast (n : ℕ) : decimal n = digits n := rfl

theorem length_decimal_natCast {n k : ℕ} (hk : 0 < k) (hn : n < 10 ^ k) :
    0 < (decimal n).length ∧ (decimal n).length ≤ k := by
  rw [decimal_natCast]
  exact ⟨length_digits_pos n, (length_digits_le_iff hk).mpr hn⟩

/-- A time has nineteen digits and a sign at most. -/
theorem length_time (now : Int64) : 0 < (decimal now.toInt).length ∧
    (decimal now.toInt).length ≤ 20 := by
  have hlow := Int64.le_toInt now
  have hhigh := Int64.toInt_lt now
  have h19 : (digits now.toInt.natAbs).length ≤ 19 :=
    (length_digits_le_iff (by omega)).mpr (by omega)
  have hpos := length_digits_pos now.toInt.natAbs
  have hdef : decimal now.toInt = if now.toInt < 0 then 45 :: digits now.toInt.natAbs else digits
    now.toInt.natAbs :=
    rfl
  rw [hdef]
  split
  · rw [length_cons]
    omega
  · omega

/-- A checksum has ten digits at most, and nine if it is below a thousand
million. -/
theorem length_ending (crc : BitVec 32) : (ending crc).length ≤ 20 ∧
    (crc.toNat < 10 ^ 9 → (ending crc).length ≤ 19) ∧
    (10 ^ 9 ≤ crc.toNat → 20 ≤ (ending crc).length) := by
  have hcrc : (ascii ",\"crc32\":").length = 9 := rfl
  have hbrace : (ascii "\x7d").length = 1 := rfl
  have hlt := crc.isLt
  have h10 := (length_digits_le_iff (n := crc.toNat) (k := 10) (by omega)).mpr (by omega)
  have h9 := length_digits_le_iff (n := crc.toNat) (k := 9) (by omega)
  unfold ending
  by_cases h0 : crc = 0
  · subst h0
    rw [if_pos rfl, nil_append, hbrace]
    exact ⟨by omega, fun _ => by omega, fun h => absurd h (by decide)⟩
  · have hdec : decimal crc.toNat = digits crc.toNat := rfl
    rw [if_neg h0, length_append, length_append, hcrc, hbrace, hdec]
    refine ⟨by omega, fun h => ?_, fun h => ?_⟩
    · have := h9.mpr h
      omega
    · have := mt h9.mp (not_lt.mpr h)
      omega

theorem length_ending_pos (crc : BitVec 32) : 0 < (ending crc).length := by
  unfold ending
  rw [length_append]
  exact Nat.add_pos_right _ (by decide)

/-! ## Entries -/

theorem length_valueField (value : Bytes) :
    (valueField (some value)).length = 11 + (encode value).length := by
  have h₁ : (ascii ",\"value\":\"").length = 10 := rfl
  have h₂ : (ascii "\"").length = 1 := rfl
  rw [valueField, length_append, length_append, h₁, h₂]
  omega

/-- **The length of an entry**, field by field. -/
theorem length_marshal (J : JsonText) (e : WalEntry) : (e.marshal J).length =
    21 + (e.op.text J).length + (J.quote e.key).length + (valueField e.value).length +
      (decimal e.time.toInt).length + (ending e.crc32).length := by
  have htext := marshal_append J e []
  rw [append_nil] at htext
  have hop : (ascii "\x7b\"op\":").length = 6 := rfl
  have hkey : (ascii ",\"key\":").length = 7 := rfl
  have htime : (ascii ",\"time\":").length = 8 := rfl
  rw [htext]
  simp only [length_append, length_nil, hop, hkey, htime]
  omega

/-- The length of a `PUT` entry. -/
theorem length_put (J : JsonText) (now : Int64) (key : Key) (value : Bytes) (crc : BitVec 32) :
    ({ putEntry now (key, some value) with crc32 := crc }.marshal J).length =
      37 + (J.quote key).length + (encode value).length + (decimal now.toInt).length +
      (ending crc).length := by
  have hput : (WalOp.text J .put).length = 5 := rfl
  rw [length_marshal]
  simp only [putEntry, length_valueField, hput]
  omega

/-- The length of a `BATCH` entry. -/
theorem length_batch (J : JsonText) (payload : Bytes) (now : Int64) (crc : BitVec 32) :
    (WalEntry.marshal J ⟨.batch, [], some payload, now, crc⟩).length =
      41 + (encode payload).length + (decimal now.toInt).length + (ending crc).length := by
  have hbatch : (WalOp.text J .batch).length = 7 := rfl
  have hkey : (J.quote []).length = 2 := by
    rw [J.quote_letters [] nofun]
    rfl
  rw [length_marshal]
  simp only [length_valueField, hbatch, hkey]
  omega

/-! ## Maps -/

section

variable (T : JsonText)

theorem length_bytesText (v : Option Bytes) : (bytesText v).length =
    match v with
    | none => 4
    | some v => 2 + (encode v).length := by
  cases v with
  | none => rfl
  | some =>
    have h₁ : (ascii "\"").length = 1 := rfl
    rw [bytesText, length_append, length_append, h₁]
    dsimp only
    omega

theorem length_pairText (x : Key × Option Bytes) :
    (pairText T x).length = (T.quote x.1).length + 1 + (bytesText x.2).length := by
  rw [pairText, length_append, length_append]
  rfl

/-- Each pair has a comma at most. -/
theorem length_pairsText_le (m : List (Key × Option Bytes)) :
    (pairsText T m).length ≤ (m.map fun x => (pairText T x).length + 1).sum := by
  induction m using pairsText.induct with
  | case1 => rfl
  | case2 => simp [pairsText]
  | case3 x y rest ih =>
    have hcomma : (ascii ",").length = 1 := rfl
    rw [pairsText, length_append, length_append, hcomma, map_cons, sum_cons]
    omega

theorem length_mapText (m : List (Key × Option Bytes)) :
    (mapText T m).length = 2 + (pairsText T m).length := by
  have hopen : (ascii "\x7b").length = 1 := rfl
  have hclose : (ascii "\x7d").length = 1 := rfl
  rw [mapText, length_append, length_append, hopen, hclose]
  omega

end

end Anubis.Storage
