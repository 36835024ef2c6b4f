import Rijndael.Store.Basic
import Rijndael.Foreign.Memory
import Rijndael.Foreign.Status

/-!
# Calls from outside

The interface for callers that know only numbers and memory. They name a
context by its packed handle, pass keys and blocks by pointers, which may be
null, and are answered with a `Status`.

Pointers are looked at first, then the handle, then the store is asked. What a
caller wants to have written is written only when the status is `ok`. The
input of a transformation is read as a whole before the output is written, so
that the two may overlap.
-/

namespace Rijndael.Foreign

/-- A pointer to the bytes of a key together with the length that the caller
states. -/
inductive KeyPointer where
  | null (length : Nat)
  | bytes (content : List UInt8)
  deriving DecidableEq

/-- The bytes that a pointer stands for. Only a key of length zero may be
passed as null. -/
def KeyPointer.bytes? : KeyPointer → Option (List UInt8)
  | .null 0 => some []
  | .null (_ + 1) => none
  | .bytes content => some content

/-- The answer to a call. -/
structure Called (α : Type) where
  status : Status
  store : Store
  /-- What the caller's memory holds after the call. -/
  memory : α
  events : List Event

def count (s : Store) : Nat := s.size

def nullPointer {α : Type} (s : Store) (memory : α) : Called α :=
  ⟨.nullPointer, s, memory, []⟩

/-- The answer to a call with a number that stands for no handle. -/
def malformed {α : Type} (s : Store) (raw : UInt64) (memory : α) : Called α :=
  ⟨.invalidContext, s, memory, [.malformed raw]⟩

/-- The answer to a call that the store has replied to; `write` puts a result
into the caller's memory. -/
def answered {α β : Type} (reply : Reply β) (memory : α) (write : β → α) : Called α where
  status := .ofResult reply.result
  store := reply.store
  memory := match reply.result with
    | .ok value => write value
    | .error _ => memory
  events := reply.events.map .store

/-- Creates a context and writes its packed handle to the place that `out`
points at. The place is given with what it holds; `none` is the null
pointer. -/
def create (s : Store) (key : KeyPointer) (out : Option UInt64) : Called (Option UInt64) :=
  match out, key.bytes? with
  | some _, some bytes => answered (s.create bytes) out fun handle => some handle.toRaw
  | _, _ => nullPointer s out

/-- Transforms the block in the window `input` and writes the result to the
window `output`; `none` is the null pointer. -/
def transform {size : Nat} (s : Store) (d : Direction) (raw : UInt64) (memory : Memory size)
    (input output : Option (Window size)) : Called (Memory size) :=
  match input, output with
  | some input, some output =>
    match Handle.ofRaw? raw with
    | some handle =>
      answered (s.apply d handle (memory.read input)) memory (memory.write output)
    | none => malformed s raw memory
  | _, _ => nullPointer s memory

def destroy (s : Store) (raw : UInt64) : Called Unit :=
  match Handle.ofRaw? raw with
  | some handle => answered (s.destroy handle) () id
  | none => malformed s raw ()

/-! ## Calls that reach the store -/

theorem create_eq_answered (s : Store) {key : KeyPointer} {bytes : List UInt8}
    (hbytes : key.bytes? = some bytes) (old : UInt64) :
    create s key (some old) =
      answered (s.create bytes) (some old) fun handle => some handle.toRaw := by
  simp only [create, hbytes]

theorem transform_eq_answered {size : Nat} (s : Store) (d : Direction) {raw : UInt64}
    {handle : Handle} (hraw : Handle.ofRaw? raw = some handle) (memory : Memory size)
    (input output : Window size) :
    transform s d raw memory (some input) (some output) =
      answered (s.apply d handle (memory.read input)) memory (memory.write output) := by
  simp only [transform, hraw]

theorem destroy_eq_answered (s : Store) {raw : UInt64} {handle : Handle}
    (hraw : Handle.ofRaw? raw = some handle) :
    destroy s raw = answered (s.destroy handle) () id := by
  simp only [destroy, hraw]

theorem answered_memory_of_ok {α β : Type} {reply : Reply β} {value : β}
    (hok : reply.result = .ok value) (memory : α) (write : β → α) :
    (answered reply memory write).memory = write value := by
  simp only [answered, hok]

end Rijndael.Foreign
