import PdfSyntax.Cipher.StringCipher
import PdfSyntax.Proofs.Cipher.Aes

/-!
# Enciphered strings are deciphered

Adding the same stream twice changes nothing, a chain of blocks is undone by the chain of the inverses,
and padding is taken away again. So what is enciphered with the key of an object is deciphered with
it: with RC4 always, and with AES if the key of the file is so long that the key of the object has the
length of an AES key.
-/

set_option autoImplicit false

namespace PdfSyntax

namespace Rc4

/-- The same stream is added twice. -/
theorem cipher_cipher (key text : Bytes) : cipher key (cipher key text) = text := by
  have hlength : (stream text.length (schedule key.toArray)).length = text.length :=
    length_stream _ _
  rw [cipher, length_cipher, cipher]
  generalize stream text.length (schedule key.toArray) = added at hlength
  induction text generalizing added with
  | nil => rfl
  | cons b text ih =>
    cases added with
    | nil => cases hlength
    | cons a added =>
      simp only [List.zipWith_cons_cons, UInt8.xor_assoc, UInt8.xor_self, UInt8.xor_zero,
        ih added (Nat.succ.inj hlength)]

end Rc4

namespace StringCipher
variable {algorithm : Algorithm} {key : Bytes} {ref : Ref} {plain secret : Bytes}

/-- Whether a string is one that another may be enciphered as, for an object. With AES any block may
begin the chain. -/
def Encrypts (algorithm : Algorithm) (key : Bytes) (ref : Ref) (plain secret : Bytes) : Prop :=
  ∃ objectKey, StringCipher.objectKey algorithm key ref = .ok objectKey ∧
    match algorithm with
    | .rc4 => secret = Rc4.cipher objectKey plain
    | .aes => ∃ start, secret = encryptAes objectKey start plain

theorem exists_objectKey (algorithm : Algorithm) (key : Bytes) (h : ref.IsSmall) :
    ∃ objectKey, StringCipher.objectKey algorithm key ref = .ok objectKey :=
  ⟨_, if_pos ⟨h.id_nonneg, h.id_lt, h.gen_nonneg, h.gen_lt⟩⟩

/-- The cipher takes a text of whole blocks, of which the first one begins the chain. -/
theorem decipherText_eq {objectKey data : Bytes} {start : Aes.Block} {text : List Aes.Block}
    (hkey : Aes.isKeyLength objectKey.length = true) (hlong : 16 ≤ data.length)
    (hwhole : data.length % 16 = 0) (hblocks : Aes.blocks data = start :: text) :
    Aes.decipherText objectKey (data.take 16) (data.drop 16) =
      .ok (Aes.bytes (Aes.decipherChain (Aes.schedule objectKey) start text)) := by
  have hstart : (data.take 16).length = 16 := List.length_take_of_le hlong
  have htext : (data.drop 16).length % 16 = 0 := by
    rw [List.length_drop]
    omega
  rw [Aes.decipherText, if_neg (by rw [hkey]; decide), if_neg (absurd htext),
    if_neg (absurd hstart), List.take_append_drop, hblocks]

/-- Where a string is whole and the key fits, only the padding can be at fault. -/
theorem decryptAes_eq {objectKey data : Bytes} {start : Aes.Block} {text : List Aes.Block}
    (hkey : Aes.isKeyLength objectKey.length = true) (hlong : 32 ≤ data.length)
    (hwhole : data.length % 16 = 0) (hblocks : Aes.blocks data = start :: text) :
    decryptAes objectKey data = (Padding.unpad
      (Aes.bytes (Aes.decipherChain (Aes.schedule objectKey) start text))).mapError .padding := by
  rw [decryptAes, if_neg (by omega), if_neg (by rw [hkey]; decide),
    decipherText_eq hkey (by omega) hwhole hblocks]

/-- Whether it is the text or the key that is at fault, and not the way the cipher is used. -/
def Fault.isInString : Fault → Bool
  | .refRange _ | .refused _ => false
  | _ => true

theorem isInString_of_decryptAes {objectKey data : Bytes} {fault : Fault}
    (h : decryptAes objectKey data = .error fault) : fault.isInString = true := by
  by_cases hragged : data.length < 32 ∨ data.length % 16 ≠ 0
  · rw [decryptAes, if_pos hragged] at h
    cases h
    rfl
  · cases hkey : Aes.isKeyLength objectKey.length with
    | false =>
      rw [decryptAes, if_neg hragged, if_pos (by rw [hkey]; rfl)] at h
      cases h
      rfl
    | true =>
      have hlong : 32 ≤ data.length := by omega
      have hwhole : data.length % 16 = 0 := by omega
      obtain ⟨start, text, hblocks⟩ := Aes.exists_block (by omega) hwhole
      rw [decryptAes_eq hkey hlong hwhole hblocks] at h
      cases hunpad : Padding.unpad (Aes.bytes (Aes.decipherChain (Aes.schedule objectKey) start text)) with
      | ok plain =>
        rw [hunpad] at h
        cases h
      | error fault =>
        rw [hunpad] at h
        cases h
        rfl

/-- With the number of an object in a file it is only the text or the key that can be at fault. -/
theorem isInString_of_decrypt {fault : Fault} (href : ref.IsSmall)
    (h : decrypt algorithm key ref secret = .error fault) : fault.isInString = true := by
  obtain ⟨objectKey, hkey⟩ := exists_objectKey algorithm key href
  rw [decrypt, hkey] at h
  cases algorithm with
  | rc4 =>
    have hrc4 : decryptRc4 objectKey secret = .error fault := h
    unfold decryptRc4 at hrc4
    split at hrc4
    · cases hrc4
    · cases hrc4
      rfl
  | aes => exact isInString_of_decryptAes h

theorem length_of_objectKey {objectKey : Bytes}
    (h : StringCipher.objectKey algorithm key ref = .ok objectKey) :
    objectKey.length = min (key.length + 5) 16 := by
  unfold StringCipher.objectKey at h
  split at h
  · cases h
    simp only [List.length_take, Md5.length_digest]
    omega
  · cases h

theorem length_pad_mod (text : Bytes) : (Padding.pad text).length % 16 = 0 := by
  have hmod : text.length % 16 < 16 := Nat.mod_lt _ (by decide)
  simp only [Padding.pad, Padding.filler, Padding.blockSize, List.length_append,
    List.length_replicate]
  omega

theorem length_pad_pos (text : Bytes) : 16 ≤ (Padding.pad text).length := by
  have hmod := length_pad_mod text
  have hpos : text.length % 16 < 16 := Nat.mod_lt _ (by decide)
  simp only [Padding.pad, Padding.filler, Padding.blockSize, List.length_append,
    List.length_replicate] at hmod ⊢
  omega

theorem decryptAes_encryptAes {objectKey : Bytes} (hkey : objectKey.length = 16) (start : Aes.Block)
    (text : Bytes) : decryptAes objectKey (encryptAes objectKey start text) = .ok text := by
  have hmod := length_pad_mod text
  have hpos := length_pad_pos text
  have hblocks := congrArg List.length (Aes.bytes_blocks hmod)
  rw [Aes.length_bytes] at hblocks
  have hlength : (encryptAes objectKey start text).length = 16 + (Padding.pad text).length := by
    rw [encryptAes, Aes.length_bytes, List.length_cons, Aes.length_encipherChain]
    omega
  have haes : Aes.isKeyLength objectKey.length = true := by rw [hkey]; decide
  rw [encryptAes] at hlength ⊢
  rw [decryptAes_eq haes (by omega) (by omega) (Aes.blocks_bytes _), Aes.decipherChain_encipherChain,
    Aes.bytes_blocks hmod, Padding.unpad_pad]
  rfl

theorem decryptRc4_cipher {objectKey : Bytes} (hkey : 1 ≤ objectKey.length ∧ objectKey.length ≤ 256)
    (text : Bytes) : decryptRc4 objectKey (Rc4.cipher objectKey text) = .ok text := by
  have hlength : Rc4.isKeyLength objectKey.length = true := decide_eq_true hkey
  rw [decryptRc4, if_pos hlength, Rc4.cipher_cipher]

theorem decrypt_of_encrypts (hkey : algorithm = .aes → 11 ≤ key.length)
    (h : Encrypts algorithm key ref plain secret) : decrypt algorithm key ref secret = .ok plain := by
  obtain ⟨objectKey, hobjectKey, hsecret⟩ := h
  have hlength := length_of_objectKey hobjectKey
  unfold decrypt
  rw [hobjectKey]
  cases algorithm with
  | rc4 =>
    obtain rfl : secret = Rc4.cipher objectKey plain := hsecret
    exact decryptRc4_cipher (by omega) plain
  | aes =>
    obtain ⟨start, rfl⟩ := hsecret
    have hlong := hkey rfl
    exact decryptAes_encryptAes (by omega) start plain

end StringCipher
end PdfSyntax
