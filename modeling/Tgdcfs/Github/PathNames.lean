import Tgdcfs.Github.Load
import Tgdcfs.Lib.Base64

/-!
# Encrypted path names

A name is encrypted with AES-SIV and written in Base64 behind a prefix.  A
segment that has the prefix need not come from there: a plain name may begin
with it, it may have been made with another key, and Python reads Base64 that
it would not write.
-/

namespace Tgdcfs

open Lib

/-- AES-SIV under one key, with UTF-8 around it.  It takes no nonce.  What
authenticates was encrypted under the key, so it is a text. -/
structure PathNameKey where
  encrypt : Name → List UInt8
  decrypt : List UInt8 → Option Name
  decrypt_encrypt : ∀ name, decrypt (encrypt name) = some name

namespace PathNameKey

def encryptPathName (key : PathNameKey) (plaintext : Name) : List Char :=
  PATH_NAME_PREFIX ++
    Base64.stripPadding (Base64.encode (key.encrypt plaintext))

/-- `none` for a `PathNameEncryptionError`. -/
def decryptPathName (key : PathNameKey) (encrypted : List Char) :
    Option Name :=
  if !isEncryptedPathName encrypted then none
  else
    let body := Base64.pad (encrypted.drop PATH_NAME_PREFIX.length)
    -- `encode("ascii")` fails for all other characters.
    if body.all (·.toNat < 128) then
      (Base64.decodeLenient body).bind key.decrypt
    else none

def cipher (key : PathNameKey) : NameCipher :=
  ⟨key.encryptPathName, key.decryptPathName⟩

variable (key : PathNameKey) (name : Name)

theorem encryptPathName_eq :
    key.encryptPathName name =
      PATH_NAME_PREFIX ++ Base64.symbols (key.encrypt name) := by
  rw [encryptPathName, Base64.encode,
    Base64.stripPadding_pad (Base64.padding_not_mem_symbols _)]

theorem isEncryptedPathName_encryptPathName :
    isEncryptedPathName (key.encryptPathName name) = true := by
  rw [isEncryptedPathName, List.isPrefixOf_iff_prefix]
  exact List.prefix_append ..

theorem encryptPathName_ne_nil : key.encryptPathName name ≠ [] :=
  List.append_ne_nil_of_left_ne_nil (by decide) _

theorem ascii_encode (bytes : List UInt8) :
    (Base64.encode bytes).all (·.toNat < 128) = true := by
  have bound : ∀ value < 64, (Base64.symbol value).toNat < 128 := by decide
  simp only [List.all_eq_true, decide_eq_true_eq]
  intro character member
  rcases List.mem_append.mp member with symbols | padding
  · obtain ⟨value, small, rfl⟩ := Base64.mem_symbols symbols
    exact bound value small
  · rw [List.eq_of_mem_replicate padding]
    decide

theorem slash_not_mem_encryptPathName : '/' ∉ key.encryptPathName name := by
  have apart : ∀ value < 64, '/' ≠ Base64.symbol value := by decide
  rw [encryptPathName_eq]
  intro member
  rcases List.mem_append.mp member with before | symbols
  · revert before
    decide
  · obtain ⟨value, small, same⟩ := Base64.mem_symbols symbols
    exact apart value small same

theorem decryptPathName_encryptPathName :
    key.decryptPathName (key.encryptPathName name) = some name := by
  have encoded : Base64.pad ((key.encryptPathName name).drop
      PATH_NAME_PREFIX.length) = Base64.encode (key.encrypt name) := by
    rw [encryptPathName_eq, List.drop_left, Base64.encode]
  simp only [decryptPathName, isEncryptedPathName_encryptPathName, encoded,
    ascii_encode, Base64.decodeLenient_encode]
  simpa using key.decrypt_encrypt name

theorem decodeName_encryptPathName :
    decodeName (some key.cipher) (key.encryptPathName name) =
      (name, true) := by
  simp only [decodeName, isEncryptedPathName_encryptPathName, cipher,
    decryptPathName_encryptPathName]
  rfl

end PathNameKey

/-- The configured key, or none. -/
abbrev nameCipher (nameKey : Option PathNameKey) : Option NameCipher :=
  nameKey.map PathNameKey.cipher

theorem nameCipher_some (key : PathNameKey) :
    nameCipher (some key) = some key.cipher := rfl

end Tgdcfs
