import Anubis.Common.Literals
import Mathlib.Data.Nat.Notation
import Mathlib.Data.List.Basic

/-!
# Encryption at rest

`encryptor` of `encryption.go`. The key derivation and the authenticated
cipher of the libraries are parameters, with the one law that a message opens
under the key and nonce it was sealed with. The random numbers that are drawn
are an argument.
-/

namespace Anubis.Storage

open List

/-- A byte. -/
abbrev Byte := Fin 256

/-- The bytes of a Go string or slice. -/
abbrev Bytes := List Byte

/-- Named, so that a membership test is the same term in every module. -/
instance lawfulBEq_bytes : LawfulBEq Bytes := inferInstance

/-- `encryptionSaltLen`. -/
def encryptionSaltLen : ℕ := 32

/-- HKDF-SHA256 with the master key, and AES-256-GCM. -/
structure Encryptor where
  deriveKey : Bytes → Option Bytes
  gcmSeal : Bytes → Bytes → Bytes → Bytes
  gcmOpen : Bytes → Bytes → Bytes → Option Bytes
  gcmOpen_gcmSeal : ∀ key nonce plaintext, gcmOpen key nonce (gcmSeal key nonce plaintext) =
    some plaintext
  length_gcmSeal : ∀ key nonce plaintext, (gcmSeal key nonce plaintext).length =
    plaintext.length + 16

/-- The salt and the nonce read from the random number generator. -/
structure Draw where
  salt : Bytes
  nonce : Bytes
  salt_length : salt.length = encryptionSaltLen
  nonce_length : nonce.length = 12

namespace Encryptor

/-- `encrypt`: salt, nonce and the sealed text. Without random numbers it
fails. -/
def encrypt (e : Encryptor) (random : Option Draw) (plaintext : Bytes) : Option Bytes := do
  let draw ← random
  let derivedKey ← e.deriveKey draw.salt
  return draw.salt ++ (draw.nonce ++ e.gcmSeal derivedKey draw.nonce plaintext)

/-- `decrypt`. -/
def decrypt (e : Encryptor) (data : Bytes) : Option Bytes :=
  if data.length < encryptionSaltLen + 12 + 16 then none
  else do
    let nonceAndCiphertext := data.drop encryptionSaltLen
    let derivedKey ← e.deriveKey (data.take encryptionSaltLen)
    if nonceAndCiphertext.length < 12 then none
    else e.gcmOpen derivedKey (nonceAndCiphertext.take 12) (nonceAndCiphertext.drop 12)

/-- **What was encrypted is decrypted.** -/
theorem decrypt_encrypt {e : Encryptor} {random : Option Draw} {plaintext data : Bytes}
    (h : e.encrypt random plaintext = some data) : e.decrypt data = some plaintext := by
  cases random with
  | none => cases h
  | some draw =>
    cases hkey : e.deriveKey draw.salt with
    | none => simp [encrypt, hkey] at h
    | some key =>
      have hdata : draw.salt ++ (draw.nonce ++ e.gcmSeal key draw.nonce plaintext) = data := by
        simpa [encrypt, hkey] using h
      have htake : data.take encryptionSaltLen = draw.salt := by
        rw [← hdata, ← draw.salt_length, take_left]
      have hdrop : data.drop encryptionSaltLen = draw.nonce ++
        e.gcmSeal key draw.nonce plaintext := by
        rw [← hdata, ← draw.salt_length, drop_left]
      have hlen : ¬ data.length < encryptionSaltLen + 12 + 16 := by
        rw [← hdata]
        simp only [length_append, draw.salt_length, draw.nonce_length, e.length_gcmSeal]
        omega
      have hrest : ¬ (draw.nonce ++ e.gcmSeal key draw.nonce plaintext).length < 12 := by
        rw [length_append, draw.nonce_length]
        omega
      have hnonce : (draw.nonce ++ e.gcmSeal key draw.nonce plaintext).take 12 = draw.nonce := by
        rw [← draw.nonce_length, take_left]
      have htext : (draw.nonce ++ e.gcmSeal key draw.nonce plaintext).drop 12 =
        e.gcmSeal key draw.nonce plaintext := by
        rw [← draw.nonce_length, drop_left]
      unfold decrypt
      rw [if_neg hlen, htake, hdrop, hkey]
      simp only [Option.bind_eq_bind, Option.bind_some]
      rw [if_neg hrest, hnonce, htext, e.gcmOpen_gcmSeal]

end Encryptor

end Anubis.Storage
