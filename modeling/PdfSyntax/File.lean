import PdfSyntax.Input.Buffer
import PdfSyntax.Obj.Format
import PdfSyntax.Reader.Object

/-!
# Reading data

What a fresh reader that tolerates the end makes of data.
-/

set_option autoImplicit false

namespace PdfSyntax

/-- Looks for references and streams, deciphers nothing, and does not tolerate the end. -/
def Settings.strict : Settings :=
  ⟨false, true, true, none, .rc4⟩

def Settings.lenient : Settings :=
  ⟨true, true, true, none, .rc4⟩

namespace File

def reader (data : Bytes) (blockSize : Nat) (settings : Settings) : Reader Buffer :=
  .new (.atOffset (.ofData data) 0 blockSize) settings Request.decrypt false

def firstObject (data : Bytes) (blockSize : Nat) : Except Failure Obj :=
  match Reader.object (reader data blockSize .lenient) with
  | .ok object _ => .ok object
  | .error e _ => .error e

def objects (data : Bytes) (blockSize : Nat) : Except Failure (List Obj) :=
  match Reader.objects (reader data blockSize .lenient) with
  | .ok objects _ => .ok objects
  | .error e _ => .error e

/-- Reads objects up to the end of the input, at most so many, and writes each before the next is read. -/
def writtenWithin : Nat → Reading Buffer (List Bytes)
  | 0 => throw .exhausted
  | bound + 1 => do
    let object ← Reader.object
    if object.isEnd then return []
    else return (← MonadExcept.ofExcept object.format) :: (← writtenWithin bound)

def written (data : Bytes) (blockSize : Nat) : Except Failure (List Bytes) :=
  let reader := reader data blockSize .lenient
  match writtenWithin (reader.weight + 1) reader with
  | .ok forms _ => .ok forms
  | .error e _ => .error e

end File
end PdfSyntax
