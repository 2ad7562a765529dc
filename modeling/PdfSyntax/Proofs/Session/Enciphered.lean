import PdfSyntax.File
import PdfSyntax.Proofs.Cipher.StringCipher
import PdfSyntax.Proofs.Obj.Enciphered
import PdfSyntax.Proofs.Reader.Strings
import PdfSyntax.Proofs.Session.Descent

/-!
# Enciphered objects are read back in plain text

An object whose strings are enciphered, each for the innermost definition around it, can be written. A
reader without the key takes from the text the enciphered object, and just its strings; so a reader with
the key is asked to decipher these, each with the number for which it was enciphered, and comes to the
object itself.
-/

set_option autoImplicit false

namespace PdfSyntax

namespace StringCipher
variable {algorithm : Algorithm} {key : Bytes}

/-- What the decipherment of the file format makes of a string, if anything. -/
def plainText (algorithm : Algorithm) (key : Bytes) (ref : Ref) (data : Bytes) : Bytes :=
  ((decrypt algorithm key ref data).toOption).getD []

theorem plainText_of_encrypts (hkey : algorithm = .aes → 11 ≤ key.length) {ref : Ref}
    {plain secret : Bytes} (h : Encrypts algorithm key ref plain secret) :
    plainText algorithm key ref secret = plain := by
  rw [plainText, decrypt_of_encrypts hkey h]
  rfl

/-- Whatever the text and the object, there is a way to encipher it. -/
theorem exists_encrypts (algorithm : Algorithm) (key : Bytes) {ref : Ref} (h : ref.IsSmall)
    (start : Aes.Block) (plain : Bytes) : ∃ secret, Encrypts algorithm key ref plain secret := by
  obtain ⟨objectKey, hkey⟩ := exists_objectKey algorithm key h
  cases algorithm with
  | rc4 => exact ⟨_, objectKey, hkey, rfl⟩
  | aes => exact ⟨_, objectKey, hkey, start, rfl⟩

end StringCipher

namespace Session
open StringCipher (Encrypts plainText)

/-- Any tree of objects without streams whose strings are enciphered, each for the innermost definition
around it, is written as a text from which a reader with the key reads the tree itself, in blocks of any
size, and tells nothing. -/
theorem object_of_enciphered (algorithm : Algorithm) (key : Bytes) (obj secret : Obj)
    (hkey : algorithm = .aes → 11 ≤ key.length) (hwritable : obj.Writable)
    (hsecret : Obj.Enciphers (Encrypts algorithm key) Ref.null obj secret) :
    ∃ text, secret.format = .ok text ∧
      ∀ (source : Source) (offset : Int) (blockSize : Nat) (streams quiet : Bool),
        source.IsSteady → 0 < blockSize → source.rest = text →
        ∃ read after,
          Reader.object (.new (Buffer.atOffset source offset blockSize)
            ⟨true, true, streams, some key, algorithm⟩ Request.decrypt quiet) = .ok read after ∧
          obj.Same read ∧ after.records = [] := by
  have hwritten := hsecret.writable hwritable
  obtain ⟨text, first, more, shown, hformat, hsame, hrenders, hvoices⟩ :=
    hwritten.isRenderedAs Reader.grows_voices
  refine ⟨text, hformat, ?_⟩
  intro source offset blockSize streams quiet hsteady hsize hrest
  let w : Keying :=
    ⟨⟨true, true, streams, none, algorithm⟩, Request.decrypt, key, plainText algorithm key⟩
  let start : Reader Direct :=
    .new ((Medium.ofSource source offset).cursorAt offset) w.settings Request.decrypt quiet
  have hanswers : w.Answers (shown.strings Ref.null) := by
    intro string hmem hid
    obtain ⟨plain, hplain⟩ := hsecret.seals (hsame.strings hwritten hmem) hid
    have hdecrypt := StringCipher.decrypt_of_encrypts hkey hplain
    have hcipher : w.cipher string.context string.data = plain :=
      StringCipher.plainText_of_encrypts hkey hplain
    rw [hcipher]
    exact congrArg (Except.mapError Failure.cipher) hdecrypt
  have hspells : Lexer.Spells False source.rest (first :: (more ++ [])) := by
    have hnil : Lexer.Terminated [] := fun _ h => (nomatch h)
    have hspells := hrenders.spells hnil .empty
    rw [List.append_nil] at hspells
    rw [hrest]
    exact hspells
  have hstands : Reader.Stands w start Ref.null (first :: (more ++ [])) start := by
    refine ⟨⟨⟨rfl, rfl, rfl⟩, fun token h => absurd h List.not_mem_nil⟩, ?_⟩
    refine ahead_fresh source offset w.settings Request.decrypt quiet hspells fun _ => ?_
    rw [List.append_nil]
    exact hrenders.ne_stream
  obtain ⟨after, hread, hafter⟩ :=
    Reader.object_of_voices ⟨⟨rfl, rfl⟩, rfl⟩ hrenders hvoices clear_nil hstands hanswers []
  have halike := alike_fresh source offset blockSize ⟨true, true, streams, some key, algorithm⟩
    Request.decrypt quiet hsteady hsize
  have hkeep := (Reader.alike_likeness (Buffer.simulation _)).object_keep (Buffer.simulation _) _ _ halike
  have hstart : w.keyed [] start = .new ((Medium.ofSource source offset).cursorAt offset)
    ⟨true, true, streams, some key, algorithm⟩ Request.decrypt quiet := rfl
  rw [← hstart, hread] at hkeep
  have hrecords : after.records = [] := hafter.2.records_eq not_false rfl
  have hsameRead : obj.Same (shown.decipher w.cipher Ref.null) := by
    have hplain := hsame.decipher hwritten w.cipher Ref.null
    rwa [hsecret.decipher_eq fun _ _ _ => StringCipher.plainText_of_encrypts hkey] at hplain
  generalize Reader.object (.new (Buffer.atOffset source offset blockSize) _ Request.decrypt quiet) =
    buffered at hkeep ⊢
  cases hkeep with
  | ok halike =>
    obtain ⟨d, -, hd⟩ := halike
    have hbuffered := congrArg Reader.records hd
    exact ⟨_, _, rfl, hsameRead, hbuffered.symm.trans hrecords⟩

/-- A string outside of any definition, one in a definition and an empty one in a definition in it, with
AES and the shortest key that does, in blocks of three bytes. -/
theorem object_of_enciphered_of_definitions :
    let key : Bytes := [1, 2, 3, 4, 5, 6, 7, 8, 9, 10, 11]
    let obj : Obj := .array [.str [0x28], .defn ⟨5, 0⟩ (.array [.str [0x61], .defn ⟨6, 1⟩ (.str [])])]
    (Algorithm.aes = .aes → 11 ≤ key.length) ∧ obj.Writable ∧
    ∃ secret, Obj.Enciphers (Encrypts .aes key) Ref.null obj secret ∧
      ∃ text, secret.format = .ok text ∧
        ∃ read after, Reader.object (File.reader text 3 ⟨true, true, true, some key, .aes⟩) =
            .ok read after ∧ obj.Same read ∧ after.records = [] := by
  intro key obj
  have hfive : Ref.IsSmall ⟨5, 0⟩ := ⟨by decide, by decide, by decide, by decide⟩
  have hsix : Ref.IsSmall ⟨6, 1⟩ := ⟨by decide, by decide, by decide, by decide⟩
  let first : Aes.Block := ⟨⟨1, 2, 3, 4⟩, ⟨5, 6, 7, 8⟩, ⟨9, 10, 11, 12⟩, ⟨13, 14, 15, 16⟩⟩
  let second : Aes.Block := ⟨⟨0, 0, 0, 0⟩, ⟨0, 0, 0, 0⟩, ⟨0, 0, 0, 0⟩, ⟨0, 0, 0, 0⟩⟩
  have hwritable : obj.Writable := by
    refine .array fun item hitem => ?_
    simp only [List.mem_cons, List.not_mem_nil, or_false] at hitem
    rcases hitem with rfl | rfl
    · exact .str _
    · refine .defn hfive (.array fun item hitem => ?_)
      simp only [List.mem_cons, List.not_mem_nil, or_false] at hitem
      rcases hitem with rfl | rfl
      · exact .str _
      · exact .defn hsix (.str _)
  obtain ⟨outer, houter⟩ := StringCipher.exists_encrypts .aes key hfive first [0x61]
  obtain ⟨inner, hinner⟩ := StringCipher.exists_encrypts .aes key hsix second []
  have hsecret : Obj.Enciphers (Encrypts .aes key) Ref.null obj
      (.array [.str [0x28], .defn ⟨5, 0⟩ (.array [.str outer, .defn ⟨6, 1⟩ (.str inner)])]) := by
    refine .array rfl fun pair hpair => ?_
    simp only [List.zip_cons_cons, List.zip_nil_left, List.mem_cons, List.not_mem_nil, or_false] at hpair
    rcases hpair with rfl | rfl
    · exact .outside _ rfl
    · refine .defn (.array rfl fun pair hpair => ?_)
      simp only [List.zip_cons_cons, List.zip_nil_left, List.mem_cons, List.not_mem_nil,
        or_false] at hpair
      rcases hpair with rfl | rfl
      · exact .str (by decide) houter
      · exact .defn (.str (by decide) hinner)
  obtain ⟨text, htext, hread⟩ :=
    object_of_enciphered .aes key obj _ (fun _ => by decide) hwritable hsecret
  exact ⟨fun _ => by decide, hwritable, _, hsecret, text, htext,
    hread (.ofData text) 0 3 true false (Source.isSteady_ofData _) (by omega) rfl⟩

end Session
end PdfSyntax
