import Anubis.Storage.Helpers.Frames

/-!
# An encoding with the laws of the log

Strings as `encoding/json` writes them in ASCII: printable characters stand for
themselves, and any other byte is written as `\u00` with two hexadecimal digits.
The texts of entries and of maps are then unambiguous: read from the front, each says
where it ends and what it was made from. So the laws the log relies on can be
satisfied.
-/

namespace Anubis.Storage

open List Base64

/-! ## Texts that say where they end -/

variable {xs ys r r' s t : Bytes} {c d a b : Byte}

/-- The first byte of another kind ends a text. -/
theorem append_inj_of_delimited {p : Byte → Prop} (hxs : ∀ b ∈ xs, p b)
    (hys : ∀ b ∈ ys, p b) (hc : ¬ p c) (hd : ¬ p d) (h : xs ++ c :: r = ys ++ d :: r') :
    xs = ys ∧ c :: r = d :: r' := by
  induction xs generalizing ys with
  | nil =>
    cases ys with
    | nil => exact ⟨rfl, h⟩
    | cons =>
      obtain ⟨rfl, -⟩ := cons.inj h
      exact absurd (hys c (by simp)) hc
  | cons x xs ih =>
    cases ys with
    | nil =>
      obtain ⟨rfl, -⟩ := cons.inj h
      exact absurd (hxs x (by simp)) hd
    | cons =>
      obtain ⟨rfl, htail⟩ := cons.inj h
      obtain ⟨rfl, hrest⟩ := ih (fun b hb => hxs b (by simp [hb])) (fun b hb =>
        hys b (by simp [hb])) htail
      exact ⟨rfl, hrest⟩

theorem digits_inj {m n : ℕ} (h : digits m = digits n) : m = n := by
  -- bytes and digits are the same
  have hback : ∀ n, (digits n).map (fun b => Char.ofNat b.val) = Nat.toDigits 10 n := by
    intro n
    unfold digits
    rw [map_map, map_eq_iff]
    intro i
    cases hi : (Nat.toDigits 10 n)[i]? with
    | none => rfl
    | some c =>
      have hd := Char.isDigit_iff_toNat.mp
        (Nat.isDigit_of_mem_toDigits (b := 10) (by omega) (by omega) (mem_of_getElem? hi))
      have h9 : '9'.toNat = 57 := rfl
      have hval : (Fin.ofNat 256 c.toNat).val = c.toNat := by
        rw [Fin.val_ofNat]
        omega
      simp only [Option.map_some, Function.comp_apply, hval, Char.ofNat_toNat]
  have hchars : Nat.toDigits 10 m = Nat.toDigits 10 n := by rw [← hback m, ← hback n, h]
  rw [← @Nat.ofDigitChars_ten_toDigits m, ← @Nat.ofDigitChars_ten_toDigits n, hchars]

theorem decimal_inj {m n : ℤ} (h : decimal m = decimal n) : m = n := by
  have hminus : ∀ k x, digits k ≠ 45 :: x := by
    intro k x heq
    have := digits_range (n := k) (b := 45) (by simp [heq])
    exact absurd this.1 (by decide)
  have hdef : ∀ n : ℤ, decimal n = if n < 0 then 45 :: digits n.natAbs else digits n.natAbs :=
    fun _ => rfl
  rw [hdef, hdef] at h
  split at h
  · split at h
    · have := digits_inj (cons.inj h).2
      omega
    · exact absurd h.symm (hminus _ _)
  · split at h
    · exact absurd h (hminus _ _)
    · have := digits_inj h
      omega

/-- A number says where it ends. -/
theorem decimal_append_inj {m n : ℤ} (hc : ¬ isNumeric c) (hd : ¬ isNumeric d)
    (h : decimal m ++ c :: r = decimal n ++ d :: r') : m = n ∧ c :: r = d :: r' := by
  obtain ⟨hdec, hrest⟩ := append_inj_of_delimited (fun b hb => decimal_numeric hb) (fun b hb =>
    decimal_numeric hb)
    hc hd h
  exact ⟨decimal_inj hdec, hrest⟩

/-! ## Strings -/

/-- A hexadecimal digit. -/
def hexDigit (n : ℕ) : Byte := if n < 10 then Fin.ofNat 256 (48 + n) else Fin.ofNat 256 (87 + n)

theorem hexDigit_range {n : ℕ} (hn : n < 16) : 48 ≤ (hexDigit n).val ∧ (hexDigit n).val ≤ 102 := by
  unfold hexDigit
  split <;> rw [Fin.val_ofNat] <;> omega

theorem hexDigit_inj {m n : ℕ} (hm : m < 16) (hn : n < 16) (h : hexDigit m = hexDigit n) :
    m = n := by
  have hall : ∀ m n : Fin 16, hexDigit m = hexDigit n → m = n := by decide +kernel
  exact congrArg Fin.val (hall ⟨m, hm⟩ ⟨n, hn⟩ h)

/-- The escape of a byte. -/
def escape (b : Byte) : Bytes :=
  if isPlain b then [b] else [92, 117, 48, 48, hexDigit (b / 16), hexDigit (b % 16)]

theorem escape_range (h : b ∈ escape a) : 32 ≤ b.val ∧ b ≠ 34 := by
  unfold escape at h
  split at h
  · rename_i hplain
    cases mem_singleton.mp h
    exact ⟨hplain.1, hplain.2.2.1⟩
  · have hdigit : ∀ n, n < 16 → b = hexDigit n → 32 ≤ b.val ∧ b ≠ 34 := by
      rintro n hn rfl
      have := hexDigit_range hn
      exact ⟨by omega, fun h34 => absurd (h34 ▸ this.1) (by decide)⟩
    simp only [mem_cons, not_mem_nil, or_false] at h
    rcases h with rfl | rfl | rfl | rfl | h | h
    · decide
    · decide
    · decide
    · decide
    · exact hdigit _ (by omega) h
    · exact hdigit _ (by omega) h

theorem escape_ne_nil (a : Byte) : escape a ≠ [] := by
  unfold escape
  split <;> exact cons_ne_nil _ _

theorem escape_append_inj (h : escape a ++ xs = escape b ++ ys) :
    a = b ∧ xs = ys := by
  unfold escape at h
  split at h
  · split at h
    · exact cons.inj h
    · rename_i hplain _
      obtain ⟨rfl, -⟩ := cons.inj h
      exact absurd hplain (by decide)
  · split at h
    · rename_i hplain
      obtain ⟨rfl, -⟩ := cons.inj h
      exact absurd hplain (by decide)
    · simp only [cons_append, nil_append, cons.injEq, true_and] at h
      have hhigh := hexDigit_inj (by omega) (by omega) h.1
      have hlow := hexDigit_inj (by omega) (by omega) h.2.1
      exact ⟨Fin.ext (by omega), h.2.2⟩

/-- Escapes say where they end. -/
theorem flatMap_escape_inj (h : s.flatMap escape = t.flatMap escape) : s = t := by
  induction s generalizing t with
  | nil =>
    cases t with
    | nil => rfl
    | cons b => exact absurd (append_eq_nil_iff.mp h.symm).1 (escape_ne_nil b)
  | cons a s ih =>
    cases t with
    | nil => exact absurd (append_eq_nil_iff.mp h).1 (escape_ne_nil a)
    | cons =>
      rw [flatMap_cons, flatMap_cons] at h
      obtain ⟨rfl, hrest⟩ := escape_append_inj h
      rw [ih hrest]

/-- Bytes that need no escape. -/
theorem flatMap_escape (hs : ∀ b ∈ s, isPlain b) : s.flatMap escape = s := by
  induction s with
  | nil => rfl
  | cons a s ih =>
    rw [flatMap_cons, escape, if_pos (hs a (by simp)), ih fun b hb => hs b (by simp [hb])]
    rfl

theorem isPlain_of_isLetter (h : isLetter b) : isPlain b := by
  have hne : ∀ c : Byte, c.val < 97 → b ≠ c := by
    rintro c hc rfl
    exact absurd h.1 (by omega)
  exact ⟨le_trans (by decide) h.1, le_trans h.2 (by decide), hne _ (by decide), hne _ (by decide),
    hne _ (by decide), hne _ (by decide), hne _ (by decide)⟩

/-- Strings in quotation marks, with escapes for what is not plain. -/
def quotedText : JsonText where
  validUTF8 _ := True
  quote s := 34 :: (s.flatMap escape ++ [34])
  validUTF8_letters _ _ := trivial
  quote_letters s hs := by
    rw [flatMap_escape fun b hb => isPlain_of_isLetter (hs b hb)]
    rfl
  quote_printable s b hb := by
    rcases mem_cons.mp hb with rfl | hb
    · decide
    rcases mem_append.mp hb with hb | hb
    · obtain ⟨a, -, ha⟩ := mem_flatMap.mp hb
      exact (escape_range ha).1
    · cases mem_singleton.mp hb
      decide

/-- Quoted strings say where they end, and what was quoted. -/
def JsonText.Unambiguous (T : JsonText) : Prop :=
  ∀ s t r r', T.quote s ++ r = T.quote t ++ r' → s = t ∧ r = r'

/-- No escape has a quotation mark, so the second one ends a string. -/
theorem quotedText_unambiguous : quotedText.Unambiguous := by
  intro s t r r' h
  have hbytes : ∀ s : Bytes, ∀ b ∈ s.flatMap escape, b ≠ 34 := by
    intro s b hb
    obtain ⟨a, -, ha⟩ := mem_flatMap.mp hb
    exact (escape_range ha).2
  simp only [quotedText, cons_append, append_assoc, nil_append] at h
  obtain ⟨hs, hr⟩ := append_inj_of_delimited (hbytes s) (hbytes t) (fun h => h rfl) (fun h => h rfl)
    (cons.inj h).2
  exact ⟨flatMap_escape_inj hs, (cons.inj hr).2⟩

/-! ## Entries -/

variable {T : JsonText} {e : WalEntry}

theorem text_append_inj {op op' : WalOp} (hop : ∀ name, op ≠ .other name)
    (hop' : ∀ name, op' ≠ .other name) (h : op.text T ++ r = op'.text T ++ r') :
    op = op' ∧ r = r' := by
  -- the first letters differ
  have hletter : (op.text T ++ r)[1]? = (op'.text T ++ r')[1]? := by rw [h]
  cases op with
  | other name => exact absurd rfl (hop name)
  | put =>
    cases op' with
    | other name => exact absurd rfl (hop' name)
    | put => exact ⟨rfl, append_cancel_left h⟩
    | delete => exact absurd hletter (show some (80 : Byte) ≠ some 68 by decide)
    | batch => exact absurd hletter (show some (80 : Byte) ≠ some 66 by decide)
  | delete =>
    cases op' with
    | other name => exact absurd rfl (hop' name)
    | put => exact absurd hletter (show some (68 : Byte) ≠ some 80 by decide)
    | delete => exact ⟨rfl, append_cancel_left h⟩
    | batch => exact absurd hletter (show some (68 : Byte) ≠ some 66 by decide)
  | batch =>
    cases op' with
    | other name => exact absurd rfl (hop' name)
    | put => exact absurd hletter (show some (66 : Byte) ≠ some 80 by decide)
    | delete => exact absurd hletter (show some (66 : Byte) ≠ some 68 by decide)
    | batch => exact ⟨rfl, append_cancel_left h⟩

/-- The field `value`, and the name of the field after it. -/
theorem value_append_inj {v v' : Option Bytes}
    (h : valueField v ++ (ascii ",\"time\":" ++ r) = valueField v' ++ (ascii ",\"time\":" ++ r')) :
    v = v' ∧ r = r' := by
  have hbytes : ∀ s, ∀ b ∈ encode s, b ≠ 34 := by
    rintro s b hb rfl
    exact absurd (encode_range hb) (by decide)
  -- the third byte is the first letter of the field's name
  have hletter := congrArg (fun text : Bytes => text[2]?) h
  cases v with
  | none =>
    cases v' with
    | none => exact ⟨rfl, append_cancel_left h⟩
    | some => exact absurd hletter (show some (116 : Byte) ≠ some 118 by decide)
  | some v =>
    cases v' with
    | none => exact absurd hletter (show some (118 : Byte) ≠ some 116 by decide)
    | some v' =>
      simp only [valueField, append_assoc] at h
      obtain ⟨hv, hr⟩ := append_inj_of_delimited (hbytes v) (hbytes v') (fun h => h rfl)
        (fun h => h rfl) (append_cancel_left h)
      have hr : ascii "\"" ++ (ascii ",\"time\":" ++ r) = ascii "\"" ++
        (ascii ",\"time\":" ++ r') := hr
      exact ⟨congrArg some (encode_inj hv), append_cancel_left (append_cancel_left hr)⟩

theorem ending_head (crc : BitVec 32) : ∃ c rest, ending crc = c :: rest ∧ ¬ isNumeric c := by
  unfold ending
  split
  · exact ⟨125, _, rfl, by unfold isNumeric; decide⟩
  · exact ⟨44, _, rfl, by unfold isNumeric; decide⟩

theorem ending_append_inj {crc crc' : BitVec 32} (h : ending crc ++ r = ending crc' ++ r') :
    crc = crc' ∧ r = r' := by
  have hbrace : ¬ isNumeric 125 := by
    unfold isNumeric
    decide
  have hfirst := congrArg (fun text : Bytes => text[0]?) h
  unfold ending at h hfirst
  by_cases h0 : crc = 0
  · by_cases h0' : crc' = 0
    · rw [if_pos h0, if_pos h0'] at h
      exact ⟨h0.trans h0'.symm, append_cancel_left h⟩
    · rw [if_pos h0, if_neg h0'] at hfirst
      exact absurd hfirst (show some (125 : Byte) ≠ some 44 by decide)
  · by_cases h0' : crc' = 0
    · rw [if_neg h0, if_pos h0'] at hfirst
      exact absurd hfirst (show some (44 : Byte) ≠ some 125 by decide)
    · rw [if_neg h0, if_neg h0'] at h
      simp only [append_assoc] at h
      obtain ⟨hdec, hr⟩ := decimal_append_inj hbrace hbrace (append_cancel_left h)
      exact ⟨BitVec.eq_of_toNat_eq (by omega), (cons.inj hr).2⟩

/-- **The text of an entry says where it ends** and what the entry is. -/
theorem marshal_append_inj (hT : T.Unambiguous) {e' : WalEntry} (he : e.Encodable T)
    (he' : e'.Encodable T) (h : e.marshal T ++ r = e'.marshal T ++ r') : e = e' ∧ r = r' := by
  rw [marshal_append, marshal_append] at h
  obtain ⟨hop, h⟩ := text_append_inj he.op he'.op (append_cancel_left h)
  obtain ⟨hkey, h⟩ := hT _ _ _ _ (append_cancel_left h)
  obtain ⟨hvalue, h⟩ := value_append_inj h
  obtain ⟨c, rest, hend, hc⟩ := ending_head e.crc32
  obtain ⟨d, rest', hend', hd⟩ := ending_head e'.crc32
  have htime : e.time.toInt = e'.time.toInt ∧ ending e.crc32 ++ r = ending e'.crc32 ++ r' := by
    rw [hend, hend'] at h ⊢
    exact decimal_append_inj hc hd h
  obtain ⟨hcrc, hr⟩ := ending_append_inj htime.2
  refine ⟨?_, hr⟩
  cases e
  cases e'
  obtain rfl := Int64.toInt.inj htime.1
  simp_all

open Classical in
/-- A text decodes to the entry it was made from. -/
noncomputable def unmarshalText (T : JsonText) (data : Bytes) : Option WalEntry :=
  if h : ∃ e : WalEntry, e.Encodable T ∧ e.marshal T = data then some h.choose else none

theorem unmarshalText_marshal (hT : T.Unambiguous) (he : e.Encodable T) :
    unmarshalText T (e.marshal T) = some e := by
  have hex : ∃ e' : WalEntry, e'.Encodable T ∧ e'.marshal T = e.marshal T := ⟨e, he, rfl⟩
  unfold unmarshalText
  rw [dif_pos hex]
  have heq : hex.choose.marshal T ++ [] = e.marshal T ++ [] := by rw [hex.choose_spec.2]
  rw [(marshal_append_inj hT hex.choose_spec.1 he heq).1]

theorem unmarshalText_cut (hT : T.Unambiguous) (he : e.Encodable T) {n : ℕ}
    (hn : n < (e.marshal T).length) : unmarshalText T ((e.marshal T).take n) = none := by
  refine dif_neg ?_
  rintro ⟨e', he', htake⟩
  have heq : e'.marshal T ++ (e.marshal T).drop n = e.marshal T ++ [] := by
    rw [htake, take_append_drop, append_nil]
  have hdrop := (marshal_append_inj hT he' he heq).2
  have := congrArg length hdrop
  rw [length_drop, length_nil] at this
  omega

theorem unmarshalText_zero {data : Bytes} (hzero : 0 ∈ data) : unmarshalText T data = none := by
  refine dif_neg ?_
  rintro ⟨e, -, rfl⟩
  exact absurd (marshal_printable T e 0 hzero) (by decide)

/-! ## Maps -/

variable {m m' : List (Key × Option Bytes)}

theorem bytesText_append_inj {v v' : Option Bytes} {r r' : Bytes}
    (h : bytesText v ++ r = bytesText v' ++ r') : v = v' ∧ r = r' := by
  have hfirst := congrArg (fun text : Bytes => text[0]?) h
  have hbytes : ∀ s : Bytes, ∀ b ∈ encode s, b ≠ 34 := by
    rintro s b hb rfl
    exact absurd (encode_range hb) (by decide)
  cases v with
  | none =>
    cases v' with
    | none => exact ⟨rfl, append_cancel_left h⟩
    | some => exact absurd hfirst (show some (110 : Byte) ≠ some 34 by decide)
  | some v =>
    cases v' with
    | none => exact absurd hfirst (show some (34 : Byte) ≠ some 110 by decide)
    | some v' =>
      simp only [bytesText, append_assoc] at h
      obtain ⟨hv, hr⟩ := append_inj_of_delimited (hbytes v) (hbytes v') (fun h => h rfl)
        (fun h => h rfl) (append_cancel_left h)
      exact ⟨congrArg some (encode_inj hv), (cons.inj hr).2⟩

theorem pairText_append_inj (hT : T.Unambiguous) {x y : Key × Option Bytes} {r r' : Bytes}
    (h : pairText T x ++ r = pairText T y ++ r') : x = y ∧ r = r' := by
  simp only [pairText, append_assoc] at h
  obtain ⟨hkey, h⟩ := hT _ _ _ _ h
  obtain ⟨hvalue, hr⟩ := bytesText_append_inj (append_cancel_left h)
  exact ⟨Prod.ext hkey hvalue, hr⟩

/-- Texts that are equal begin with the same pair. -/
theorem pairsText_head (hT : T.Unambiguous) {x : Key × Option Bytes}
    (h : pairsText T (x :: m) = pairsText T m') : ∃ m'', m' = x :: m'' ∧
      (m = [] ↔ m'' = []) ∧ pairsText T m = pairsText T m'' := by
  have hcons : ∀ (x : Key × Option Bytes) m, pairsText T (x :: m) =
      pairText T x ++ (if m = [] then [] else ascii "," ++ pairsText T m) := by
    intro x m
    cases m with
    | nil | cons => simp [pairsText]
  have hnil : pairText T x ≠ [] := by
    unfold pairText
    exact append_ne_nil_of_left_ne_nil (append_ne_nil_of_right_ne_nil _ (cons_ne_nil _ _)) _
  cases m' with
  | nil =>
    rw [hcons] at h
    exact absurd (append_eq_nil_iff.mp h).1 hnil
  | cons y m'' =>
    rw [hcons, hcons] at h
    obtain ⟨rfl, hrest⟩ := pairText_append_inj hT h
    refine ⟨m'', rfl, ?_⟩
    by_cases hm : m = []
    · by_cases hm'' : m'' = []
      · exact ⟨by simp [hm, hm''], by rw [hm, hm'']⟩
      · rw [if_pos hm, if_neg hm''] at hrest
        cases hrest
    · by_cases hm'' : m'' = []
      · rw [if_neg hm, if_pos hm''] at hrest
        cases hrest
      · rw [if_neg hm, if_neg hm''] at hrest
        exact ⟨by simp [hm, hm''], append_cancel_left hrest⟩

theorem pairsText_inj (hT : T.Unambiguous) (h : pairsText T m = pairsText T m') :
    m = m' := by
  induction m generalizing m' with
  | nil =>
    cases m' with
    | nil => rfl
    | cons =>
      obtain ⟨_, hnil, -⟩ := pairsText_head hT h.symm
      cases hnil
  | cons x m ih =>
    obtain ⟨m'', rfl, -, hrest⟩ := pairsText_head hT h
    rw [ih hrest]

theorem mapText_inj (hT : T.Unambiguous) (h : mapText T m = mapText T m') :
    m = m' := by
  simp only [mapText] at h
  exact pairsText_inj hT (append_cancel_left (append_cancel_right h))

open Classical in
/-- The encoding with quoted strings. -/
noncomputable def quotedJson : MapJson where
  toJsonText := quotedText
  unmarshal := unmarshalText quotedText
  unmarshal_marshal _ he := unmarshalText_marshal quotedText_unambiguous he
  unmarshal_cut _ he _ hn := unmarshalText_cut quotedText_unambiguous he hn
  unmarshal_zero _ hzero := unmarshalText_zero hzero
  marshalMap m := mapText quotedText m
  unmarshalMap data := if h : ∃ m, mapText quotedText m = data then some (some h.choose) else none
  unmarshalMap_marshalMap m _ _ := by
    have hex : ∃ m', mapText quotedText m' = mapText quotedText m := ⟨m, rfl⟩
    rw [dif_pos hex, mapText_inj quotedText_unambiguous hex.choose_spec]
  validUTF8_plain _ _ := trivial
  quote_plain s hs := by
    simp only [quotedText]
    rw [flatMap_escape hs]
    rfl
  marshalMap_eq _ := rfl

/-- The same encoding, by the laws of the log alone. -/
noncomputable abbrev plainJson : Json := quotedJson.toJson

end Anubis.Storage
