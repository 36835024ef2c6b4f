import Rijndael.ChaCha20
import Rijndael.Program.Arguments
import Rijndael.Program.Console

/-!
# The commands of the program

Each command is an `Action`. Keys and blocks that are not given by the caller
are taken from a ChaCha20 keystream, one after the other without gaps.
-/

namespace Rijndael.Program

open Rijndael.Program.Action

/-! ## Transforming one block -/

/-- Transforms a block under a key, both given as texts, and prints the
result. -/
def transform (d : Direction) (keyText blockText : String) : Action Unit := do
  let key ← ofExcept (parseKey keyText)
  let block ← ofExcept (parseBlock blockText)
  let lease ← ask .create fun s => s.leaseContext (.ofKey key)
  let result ← guarding lease (ask .transform fun s => s.apply d lease.handle block)
  ask .release fun s => s.release lease
  print (Text.Hex.encode result.toBytes)

/-! ## Test vectors -/

/-- A published test vector, in hexadecimal. -/
structure KnownAnswer where
  key : String
  block : String
  /-- The encrypted block. -/
  answer : String

/-- The test vectors: for each key size zeros throughout, and the counting key
with the block `00 11 … ff`. -/
def vectors : List KnownAnswer := [
  ⟨"00000000000000000000000000000000",
   "00000000000000000000000000000000", "66e94bd4ef8a2c3b884cfa59ca342b2e"⟩,
  ⟨"000000000000000000000000000000000000000000000000",
   "00000000000000000000000000000000", "aae06992acbf52a3e8f4a96ec9300bd7"⟩,
  ⟨"0000000000000000000000000000000000000000000000000000000000000000",
   "00000000000000000000000000000000", "dc95c078a2408989ad48a21492842087"⟩,
  ⟨"000102030405060708090a0b0c0d0e0f",
   "00112233445566778899aabbccddeeff", "69c4e0d86a7b0430d8cdb78070b4c55a"⟩,
  ⟨"000102030405060708090a0b0c0d0e0f1011121314151617",
   "00112233445566778899aabbccddeeff", "dda97ca4864cdfe06eaf70a0ec0d7191"⟩,
  ⟨"000102030405060708090a0b0c0d0e0f101112131415161718191a1b1c1d1e1f",
   "00112233445566778899aabbccddeeff", "8ea2b7ca516745bfeafc49904b496089"⟩]

/-- Runs one test vector, prints how it went and returns whether it was met. -/
def tryVector (vector : KnownAnswer) : Action Bool := do
  let key ← ofExcept (parseKey vector.key)
  let block ← ofExcept (parseBlock vector.block)
  let expected ← ofExcept (parseBlock vector.answer)
  withLease (.ofKey key) fun handle => do
    let encrypted ← ask .transform fun s => s.apply .encrypt handle block
    let decrypted ← ask .transform fun s => s.apply .decrypt handle encrypted
    let met := encrypted = expected && decrypted = block
    let verdict := if met then "PASS" else "FAIL"
    let text := Text.Hex.encode encrypted.toBytes
    print s!"{verdict} {key.size.name} key={vector.key} ct={text}"
    return met

/-- Runs test vectors and returns how many were not met. -/
def countWrong : List KnownAnswer → Action Nat
  | [] => return 0
  | vector :: rest => do
    let met ← tryVector vector
    let wrong ← countWrong rest
    return if met then wrong else wrong + 1

/-- Runs all test vectors and fails if one was not met. -/
def knownAnswers : Action Unit := do
  let wrong ← countWrong vectors
  if 0 < wrong then
    throw (.wrongAnswers wrong)

/-! ## Checking samples -/

/-- Encrypts and decrypts one sample, whose key and block follow each other in
the keystream. Sample `n` starts where those before it end. -/
def checkSample (generator : Vector UInt8 32) (size : KeySize) (sample : Nat) : Action Unit := do
  let drawn := size.keyBytes + 16
  let bytes := ChaCha20.bytes generator (sample * drawn) drawn
  let key := CipherKey.ofPrefix size bytes
  let block := Block.ofPrefix (bytes.drop size.keyBytes)
  withLease (.ofKey key) fun handle => do
    let encrypted ← ask .transform fun s => s.apply .encrypt handle block
    if encrypted = block then
      throw (.unchanged sample)
    let decrypted ← ask .transform fun s => s.apply .decrypt handle encrypted
    if decrypted ≠ block then
      throw (.notRestored sample size)
    log (.sampleOk sample)

/-- Checks `count` samples from `sample` on. -/
def checkSamples (generator : Vector UInt8 32) (size : KeySize) :
    (sample count : Nat) → Action Unit
  | _, 0 => return
  | sample, count + 1 => do
    checkSample generator size sample
    checkSamples generator size (sample + 1) count

/-- Checks samples and that no context is left over at the end. -/
def check (generator : Vector UInt8 32) (samples : Nat) (size : KeySize) : Action Unit := do
  checkSamples generator size 0 samples
  let store := (← get).store
  unless store.isEmpty do
    throw (.leaked store.size)
  print s!"{samples} {size.name} samples round-tripped"

/-! ## Demonstration -/

/-- Creates a context, encrypts and decrypts a block with it, destroys it and
prints what was done. -/
def demo (generator : Vector UInt8 32) : Action Unit := do
  let bytes := ChaCha20.bytes generator 0 32
  let key := CipherKey.ofPrefix .aes128 bytes
  let block := Block.ofPrefix (bytes.drop 16)
  let handle ← ask .create fun s => s.insert (.ofKey key)
  log (.demoContext handle)
  let encrypted ← ask .transform fun s => s.apply .encrypt handle block
  let decrypted ← ask .transform fun s => s.apply .decrypt handle encrypted
  ask .destroy fun s => s.destroy handle
  print s!"demo key: {Text.Hex.encode key.toBytes}"
  print s!"handle: {handle.text}"
  print s!"plaintext: {Text.Hex.encode block.toBytes}"
  print s!"ciphertext: {Text.Hex.encode encrypted.toBytes}"
  print s!"decrypted: {Text.Hex.encode decrypted.toBytes}"
  if decrypted ≠ block then
    throw .demoNotRestored

/-! ## All commands -/

/-- The key of the keystream: made from the seed if there is one, and otherwise
from random bytes. -/
def generatorKey (seed : Option UInt64) (random : Vector UInt8 32) : Vector UInt8 32 :=
  match seed with
  | some seed => ChaCha20.keyOfSeed seed
  | none => random

/-- What a command does. -/
def Command.action (random : Vector UInt8 32) : Command → Action Unit
  | .transform d keyText blockText => Program.transform d keyText blockText
  | .knownAnswers => Program.knownAnswers
  | .check samples seed size => Program.check (generatorKey seed random) samples size
  | .demo seed => Program.demo (generatorKey seed random)

end Rijndael.Program
