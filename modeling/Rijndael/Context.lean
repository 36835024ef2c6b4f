import Rijndael.Key.Expansion
import Rijndael.Cipher

/-!
# Contexts

A `Context` is a key made ready for use: the expanded schedule together with
the size of the key it came from.
-/

namespace Rijndael

/-- An expanded key and its size. -/
structure Context where
  size : KeySize
  schedule : KeySchedule
  deriving DecidableEq

namespace Context

def ofKey (key : CipherKey) : Context := ⟨key.size, key.expand⟩

/-- The context of the key with exactly the given bytes. -/
def ofBytes (bytes : List UInt8) : Except LengthError Context :=
  (CipherKey.ofBytes bytes).map ofKey

def rounds (c : Context) : Nat := c.schedule.rounds

def apply (c : Context) (d : Direction) (b : Block) : Block := c.schedule.apply d b

def encrypt (c : Context) (b : Block) : Block := c.schedule.encrypt b

def decrypt (c : Context) (b : Block) : Block := c.schedule.decrypt b

/-- The transformation of a byte string into the bytes that `output` is to
hold. The input must be a block, and the output, which keeps its length, must
have room for just one; the input is looked at first. -/
def applyBytes (c : Context) (d : Direction) (input output : List UInt8) :
    Except LengthError (List UInt8) := do
  let block ← Block.ofBytes input
  if output.length = 16 then
    return (c.apply d block).toBytes
  else
    throw (.block output.length)

/-- A description of the context that keeps the schedule secret. -/
def redacted (c : Context) : String := s!"Aes \x7b size: {c.size.tag} \x7d"

/-- The context of a key encrypts with the expansion of the key. -/
@[simp] theorem apply_encrypt_ofKey (key : CipherKey) (b : Block) :
    (ofKey key).apply .encrypt b = key.expand.encrypt b := rfl

/-- The context of a key decrypts with the expansion of the key. -/
@[simp] theorem apply_decrypt_ofKey (key : CipherKey) (b : Block) :
    (ofKey key).apply .decrypt b = key.expand.decrypt b := rfl

theorem exists_ofBytes_eq_ok {bytes : List UInt8} (h : bytes.length ∈ [16, 24, 32]) :
    ∃ c, ofBytes bytes = .ok c := by
  obtain ⟨size, hsize⟩ := KeySize.exists_ofLength_eq_ok h
  exact ⟨ofKey (.ofPrefix size bytes), by
    simp only [ofBytes, CipherKey.ofBytes, hsize, Except.map]⟩

theorem ofBytes_eq_error {bytes : List UInt8} (h : bytes.length ∉ [16, 24, 32]) :
    ofBytes bytes = .error (.key bytes.length) := by
  simp only [ofBytes, CipherKey.ofBytes, KeySize.ofLength_eq_error h, Except.map]

end Context

end Rijndael
