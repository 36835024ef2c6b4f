import Rijndael.Store.Event
import Rijndael.Text.Blank
import Rijndael.Text.Hex
import Rijndael.Key.Basic
import Rijndael.Block

/-!
# Failures of the program

A command that cannot go on ends with a `Failure`, which is reported on two
levels: what was being done, and the error that came up. A failure that the
command finds itself has no further cause.

Keys and blocks on the command line are read here as well: blank characters
around them are dropped, the rest is hexadecimal, and the length must fit.
-/

namespace Rijndael.Program

/-- Why a command failed. -/
inductive Failure where
  | keyText (error : Text.HexError)
  | keyLength (length : Nat)
  | blockText (error : Text.HexError)
  | blockLength (length : Nat)
  | create (error : StoreError)
  /-- The context of a lease was gone before its release. -/
  | release (error : StoreError)
  | destroy (error : StoreError)
  | transform (error : StoreError)
  /-- Test vectors were not met. -/
  | wrongAnswers (count : Nat)
  /-- Encryption did not change the block of a sample. -/
  | unchanged (sample : Nat)
  /-- Decryption did not restore the block of a sample. -/
  | notRestored (sample : Nat) (size : KeySize)
  /-- Contexts were left over after all samples. -/
  | leaked (count : Nat)
  /-- Decryption did not restore the block of the demonstration. -/
  | demoNotRestored
  deriving DecidableEq, Repr

namespace Failure

/-- What was being done, or what was found to be wrong. -/
def headline : Failure → String
  | keyText _ => "decode key hex"
  | keyLength length => s!"AES key must be 16, 24, or 32 bytes, got {length}"
  | blockText _ => "decode block hex"
  | blockLength length => s!"block must be 16 bytes (32 hex characters), got {length}"
  | create _ => "create context"
  | release _ => "release context"
  | destroy _ => "destroy context"
  | transform error => error.message
  | wrongAnswers count => s!"{count} known-answer vector(s) failed"
  | unchanged sample => s!"sample {sample}: encryption left the block unchanged"
  | notRestored sample size => s!"sample {sample}: decrypt(encrypt(b)) != b for {size.name}"
  | leaked count => s!"{count} context(s) leaked"
  | demoNotRestored => "demo roundtrip failed"

/-- The error that came up, unless the headline says it all. -/
def cause? : Failure → Option String
  | keyText error | blockText error => some error.message
  | keyLength length => some (LengthError.key length).message
  | blockLength length => some (LengthError.block length).message
  | create error | release error | destroy error => some error.message
  | transform _ | wrongAnswers _ | unchanged _ | notRestored .. | leaked _
  | demoNotRestored => none

def report (failure : Failure) : String :=
  match failure.cause? with
  | some cause => s!"Error: {failure.headline}\n\nCaused by:\n    {cause}\n"
  | none => s!"Error: {failure.headline}\n"

end Failure

/-! ## Keys and blocks on the command line -/

/-- The key that a text states. -/
def parseKey (text : String) : Except Failure CipherKey := do
  let bytes ← (Text.Hex.decode (Text.trim text.toList)).mapError .keyText
  (CipherKey.ofBytes bytes).mapError fun _ => .keyLength bytes.length

/-- The block that a text states. -/
def parseBlock (text : String) : Except Failure Block := do
  let bytes ← (Text.Hex.decode (Text.trim text.toList)).mapError .blockText
  (Block.ofBytes bytes).mapError fun _ => .blockLength bytes.length

end Rijndael.Program
