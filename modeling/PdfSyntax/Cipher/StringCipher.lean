import PdfSyntax.Obj
import PdfSyntax.Cipher.Aes
import PdfSyntax.Cipher.Md5
import PdfSyntax.Cipher.Padding
import PdfSyntax.Cipher.Rc4

/-!
# Enciphered strings

The strings of an enciphered file are deciphered one by one, each with a key that is derived from the
key of the file and the number of the object that holds the string. With AES the text starts with the
block that begins the chain, and it ends in padding.
-/

set_option autoImplicit false

namespace PdfSyntax

inductive Algorithm where
  | rc4
  | aes
deriving DecidableEq, Repr

namespace StringCipher

inductive Fault where
  /-- The object number has more than four bytes, or the generation more than two. -/
  | refRange (ref : Ref)
  | ragged (length : Nat)
  | aesKeyLength (length : Nat)
  | padding (fault : Padding.Fault)
  /-- The cipher was given what it does not take. -/
  | refused (refusal : Aes.Refusal)
  | rc4KeyLength (length : Nat)
deriving DecidableEq

def Fault.message : Fault → String
  | .refRange ref => "no key for object " ++ toString ref.id ++ " " ++ toString ref.gen
  | .ragged length =>
    "encrypted string of length " ++ toString length ++
      " is not a whole number of AES blocks after the IV"
  | .aesKeyLength length =>
    "AES key of " ++ toString length ++ " bytes is not a valid AES key length"
  | .padding fault => "bad padding on AES encrypted string: " ++ fault.message
  | .refused refusal => refusal.message
  | .rc4KeyLength length =>
    "bad RC4 key: Incorrect ARC4 key length (" ++ toString length ++ " bytes)"

/-- The object number and the generation in the bytes that a key is derived from. Only the three low
bytes of the number count. -/
def refBytes (ref : Ref) : Bytes :=
  Md5.littleEndian 3 ref.id.toNat ++ Md5.littleEndian 2 ref.gen.toNat

def salt : Algorithm → Bytes
  | .rc4 => []
  | .aes => [0x73, 0x41, 0x6c, 0x54]

/-- The key for the strings of one object: five bytes longer than that of the file, but sixteen bytes
at most. -/
def objectKey (algorithm : Algorithm) (key : Bytes) (ref : Ref) : Except Fault Bytes :=
  if 0 ≤ ref.id ∧ ref.id < Ref.idLimit ∧ 0 ≤ ref.gen ∧ ref.gen < Ref.genLimit then
    .ok ((Md5.digest (key ++ refBytes ref ++ salt algorithm)).take (min (key.length + 5) 16))
  else .error (.refRange ref)

/-- Deciphers a text after its first block, and takes its padding away. -/
def decryptAes (key data : Bytes) : Except Fault Bytes :=
  if data.length < 32 ∨ data.length % 16 ≠ 0 then .error (.ragged data.length)
  else if !Aes.isKeyLength key.length then .error (.aesKeyLength key.length)
  else
    match Aes.decipherText key (data.take 16) (data.drop 16) with
    | .error refusal => .error (.refused refusal)
    | .ok padded => (Padding.unpad padded).mapError .padding

def encryptAes (key : Bytes) (start : Aes.Block) (text : Bytes) : Bytes :=
  Aes.bytes (start :: Aes.encipherChain (Aes.schedule key) start (Aes.blocks (Padding.pad text)))

def decryptRc4 (key data : Bytes) : Except Fault Bytes :=
  if Rc4.isKeyLength key.length then .ok (Rc4.cipher key data) else .error (.rc4KeyLength key.length)

def decrypt (algorithm : Algorithm) (key : Bytes) (ref : Ref) (data : Bytes) : Except Fault Bytes := do
  let key ← objectKey algorithm key ref
  match algorithm with
  | .rc4 => decryptRc4 key data
  | .aes => decryptAes key data

end StringCipher
end PdfSyntax
