import Rijndael.Program.Run

/-!
# The program `rijndael`

Encrypts and decrypts single blocks on the command line. The environment
variable `RUST_LOG` holds the filter of the log entries that are shown.
-/

open Rijndael

/-- Runs the program on the arguments of the process. -/
def main (arguments : List String) : IO UInt32 := do
  let setting ← IO.getEnv "RUST_LOG"
  let random ← IO.getRandomBytes 32
  let report := Program.run arguments setting (ChaCha20.keyOfBytes random.toList)
  for entry in report.log do
    IO.eprintln s!"[{entry.line}]"
  IO.print report.output
  IO.eprint report.errors
  return report.exitCode.toUInt32
