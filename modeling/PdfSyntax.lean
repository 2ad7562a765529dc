import PdfSyntax.File
import PdfSyntax.Input.Direct
import PdfSyntax.Obj.Field
import PdfSyntax.Proofs.Activity
import PdfSyntax.Session
import PdfSyntax.Proofs.Reader.Agreement
import PdfSyntax.Proofs.Session.Agreement
import PdfSyntax.Proofs.Input.Blocks
import PdfSyntax.Proofs.Session.Blocks
import PdfSyntax.Proofs.Input.Passing
import PdfSyntax.Proofs.Reader.Token
import PdfSyntax.Proofs.Lexer.Spells
import PdfSyntax.Proofs.Reader.Grammar
import PdfSyntax.Proofs.Reader.Pushback
import PdfSyntax.Proofs.Reader.Descent
import PdfSyntax.Proofs.Session.Descent
import PdfSyntax.Proofs.Reader.Lookahead
import PdfSyntax.Proofs.Reader.Payload
import PdfSyntax.Proofs.Input.Forward
import PdfSyntax.Proofs.Session.Payload
import PdfSyntax.Proofs.Decimal.Notation
import PdfSyntax.Proofs.Decimal.ReadBack
import PdfSyntax.Proofs.Lexer.Written
import PdfSyntax.Proofs.Obj.Rendering
import PdfSyntax.Proofs.Session.RoundTrip
import PdfSyntax.Proofs.Reader.Likeness
import PdfSyntax.Proofs.Obj.Decipher
import PdfSyntax.Proofs.Reader.Pending
import PdfSyntax.Proofs.Reader.Decipher
import PdfSyntax.Proofs.Session.Decipher
import PdfSyntax.Proofs.Cipher.Aes
import PdfSyntax.Proofs.Cipher.StringCipher
import PdfSyntax.Proofs.Reader.Strings
import PdfSyntax.Proofs.Obj.Enciphered
import PdfSyntax.Proofs.Session.Enciphered
import PdfSyntax.Proofs.Input.Supply
import PdfSyntax.Proofs.Reader.Progress
import PdfSyntax.Proofs.Reader.Termination
import PdfSyntax.Proofs.Session.Invariant
import PdfSyntax.Proofs.Session.Progress
import PdfSyntax.Proofs.Session.History
import PdfSyntax.Proofs.Input.Frame
import PdfSyntax.Proofs.Input.Coherence
import PdfSyntax.Proofs.Session.Coherence
import PdfSyntax.Proofs.Reader.Waning
import PdfSyntax.Proofs.Session.Context
import PdfSyntax.Proofs.Session.Faults
import PdfSyntax.Proofs.Input.Continuation
import PdfSyntax.Proofs.Reader.Continuation
import PdfSyntax.Proofs.Session.Continuation
import PdfSyntax.Proofs.Obj.Form
import PdfSyntax.Proofs.Reader.Form
import PdfSyntax.Proofs.Session.Form
import PdfSyntax.Proofs.Input.Ahead
import PdfSyntax.Proofs.Session.Ahead
import PdfSyntax.Proofs.Lexer.Literal
import PdfSyntax.Proofs.Session.Literal
import PdfSyntax.Proofs.Lexer.Spans
import PdfSyntax.Proofs.Session.Spans
import PdfSyntax.Proofs.Reader.Peek
import PdfSyntax.Proofs.Reader.Lag
import PdfSyntax.Proofs.Reader.Trailing
import PdfSyntax.Proofs.Session.Peek
import PdfSyntax.Proofs.Obj.Parts
import PdfSyntax.Proofs.Session.Quiet
import PdfSyntax.Proofs.Session.Real
import PdfSyntax.Proofs.Session.Reformat
import PdfSyntax.Proofs.Lexer.Hex
import PdfSyntax.Proofs.Session.Hex
import PdfSyntax.Proofs.Lexer.Name
import PdfSyntax.Proofs.Session.Name
import PdfSyntax.Proofs.Session.Encoding
import PdfSyntax.Proofs.Lexer.Spacing
import PdfSyntax.Proofs.Reader.Spacing
import PdfSyntax.Proofs.Session.Spacing
import PdfSyntax.Proofs.Obj.Name
import PdfSyntax.Proofs.Input.Landing
import PdfSyntax.Proofs.Session.Landing
import PdfSyntax.Proofs.Reader.Account
import PdfSyntax.Proofs.Session.Account
import PdfSyntax.Proofs.Reader.Foresight
import PdfSyntax.Proofs.Session.Foresight
import PdfSyntax.Proofs.Session.Drift
import PdfSyntax.Proofs.Cipher.Acceptance
import PdfSyntax.Proofs.Obj.Canonical
import PdfSyntax.Proofs.Obj.Dict
import PdfSyntax.Proofs.Lexer.Lexemes
import PdfSyntax.Proofs.Reader.Watching
import PdfSyntax.Proofs.Reader.Unread
import PdfSyntax.Proofs.Reader.Awaiting
import PdfSyntax.Proofs.Reader.Balance
import PdfSyntax.Proofs.Session.Remainder
import PdfSyntax.Proofs.Session.Unread
