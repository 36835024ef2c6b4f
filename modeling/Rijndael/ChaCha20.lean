/-!
# The ChaCha20 keystream

ChaCha20 stretches a key of thirty-two bytes into a stream of bytes. The
stream comes in blocks of sixty-four bytes. Each block is made from a state of
sixteen words: four constants, the eight words of the key, the number of the
block in two words, and two words of nonce, which are zero here. The state
goes through twenty rounds and is added to itself as it was before.

Words are read from bytes and written to bytes with the lowest byte first.
-/

namespace Rijndael.ChaCha20

/-- The state: sixteen words. -/
abbrev State := Vector UInt32 16

def rotateLeft (w : UInt32) (n : Nat) : UInt32 := ⟨w.toBitVec.rotateLeft n⟩

/-- Mixes four words of the state. -/
def quarterRound (s : State) (a b c d : Fin 16) : State :=
  let step (s : State) (x y z : Fin 16) (n : Nat) : State :=
    let s := s.set x (s[x] + s[y])
    s.set z (rotateLeft (s[z] ^^^ s[x]) n)
  step (step (step (step s a b d 16) c d b 12) a b d 8) c d b 7

/-- Two rounds: the four columns of the state, then its four diagonals. -/
def doubleRound (s : State) : State :=
  [(0, 4, 8, 12), (1, 5, 9, 13), (2, 6, 10, 14), (3, 7, 11, 15),
   (0, 5, 10, 15), (1, 6, 11, 12), (2, 7, 8, 13), (3, 4, 9, 14)].foldl
    (fun s (a, b, c, d) => quarterRound s a b c d) s

/-- The word of four bytes of a key. -/
def keyWord (key : Vector UInt8 32) (i : Fin 8) : UInt32 :=
  key[4 * i.val].toUInt32 ||| key[4 * i.val + 1].toUInt32 <<< 8
    ||| key[4 * i.val + 2].toUInt32 <<< 16 ||| key[4 * i.val + 3].toUInt32 <<< 24

/-- The state that the block of a given number starts from. -/
def initialState (key : Vector UInt8 32) (number : UInt64) : State :=
  let k := keyWord key
  #v[0x61707865, 0x3320646e, 0x79622d32, 0x6b206574,
     k 0, k 1, k 2, k 3, k 4, k 5, k 6, k 7,
     number.toUInt32, (number >>> 32).toUInt32, 0, 0]

def wordBytes (w : UInt32) : List UInt8 :=
  [w.toUInt8, (w >>> 8).toUInt8, (w >>> 16).toUInt8, (w >>> 24).toUInt8]

/-- The block of a given number in the stream. -/
def block (key : Vector UInt8 32) (number : UInt64) : List UInt8 :=
  let start := initialState key number
  let final := (List.range 10).foldl (fun s _ => doubleRound s) start
  (start.zipWith (· + ·) final).toList.flatMap wordBytes

/-- The bytes of the stream from a position on. -/
def bytes (key : Vector UInt8 32) (position count : Nat) : List UInt8 :=
  let first := position / 64
  let blocks := (position + count + 63) / 64 - first
  let stream := (List.range' first blocks).flatMap fun n => block key (UInt64.ofNat n)
  (stream.drop (position % 64)).take count

/-- The key that starts with the eight bytes of a number, the lowest first, and
goes on with zeros. -/
def keyOfSeed (seed : UInt64) : Vector UInt8 32 :=
  Vector.ofFn fun i => if i.val < 8 then (seed >>> (UInt64.ofNat (8 * i.val))).toUInt8 else 0

/-- The key of the first thirty-two of the given bytes; bytes that are missing
count as zero. -/
def keyOfBytes (bytes : List UInt8) : Vector UInt8 32 := Vector.ofFn fun i => bytes.getD i 0

end Rijndael.ChaCha20
