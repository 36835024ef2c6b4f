import Rijndael.Context
import Rijndael.Store.Event

/-!
# Stores of contexts

A `Store` holds contexts in a table of slots and answers to handles. A slot
that has been emptied goes on a list of free slots, and the slot that was
freed last is taken first when a context is created. Emptying a slot moves it
to its next generation, so that the handle of the old context no longer fits.
A slot that has used the greatest generation is retired: it stays empty for
good.

An operation on a store answers with a `Reply`: the outcome, the store after
it and the entries it adds to the log. An operation that fails leaves the
store as it was.

## Main definitions

* `Store.create`, `Store.destroy`, `Store.apply`, `Store.contains`, the
  operations;
* `Store.get?`, the context behind a handle, in terms of which the others are
  understood.
-/

namespace Rijndael

/-- A place for one context. -/
structure Slot where
  /-- The generation of the context in the slot, or of the next one if the slot
  is empty. -/
  generation : Generation
  context : Option Context
  deriving DecidableEq

/-- A table of contexts. -/
structure Store where
  /-- The number of contexts that may be live at once, if that is limited. -/
  limit : Option Nat
  slots : Array Slot
  /-- The indices of the slots to be used again, the next one first. -/
  free : List UInt32
  /-- The number of contexts in the table. -/
  live : Nat
  deriving DecidableEq

/-- The answer to an operation on a store. -/
structure Reply (α : Type) where
  result : Except StoreError α
  store : Store
  /-- The entries that the operation adds to the log, in order. -/
  events : List StoreEvent

/-- The reply with its result passed through a function. -/
def Reply.map {α β : Type} (f : α → β) (r : Reply α) : Reply β :=
  ⟨r.result.map f, r.store, r.events⟩

namespace Store

/-- The store without contexts that may hold `limit` of them. -/
def empty (limit : Option Nat) : Store := ⟨limit, #[], [], 0⟩

/-- The context behind a handle: that in its slot, if the generation is still
the one in the handle. -/
def get? (s : Store) (h : Handle) : Option Context :=
  s.slots[h.index.toNat]?.bind fun slot =>
    if slot.generation = h.generation then slot.context else none

def contains (s : Store) (h : Handle) : Bool := (s.get? h).isSome

def size (s : Store) : Nat := s.live

def isEmpty (s : Store) : Bool := s.size == 0

/-- The answer that refuses a handle. The refusal is logged. -/
def reject {α : Type} (s : Store) (h : Handle) : Reply α :=
  ⟨.error (.invalidContext h), s, [.rejected h]⟩

/-- The greatest number of slots, `2 ^ 32`, so that each has an index of
thirty-two bits. -/
def maxSlots : Nat := 4294967296

/-- The table with a new context in it. -/
structure Placement where
  handle : Handle
  slots : Array Slot
  free : List UInt32

/-- Places a context in a slot of its own at the end of the table. There is
none when every index is in use. -/
def placeFresh? (s : Store) (c : Context) : Option Placement :=
  if s.slots.size < maxSlots then
    some
      { handle := ⟨UInt32.ofNat s.slots.size, .first⟩
        slots := s.slots.push ⟨.first, some c⟩
        free := s.free }
  else
    none

/-- Places a context in the slot that was freed last, under the generation that
the slot has reached, or in a slot of its own if none is free. A free index
that names no slot does not occur, since `Store.WellFormed` excludes it and every
operation keeps that; without a slot to look up, the context gets one of its
own. -/
def place? (s : Store) (c : Context) : Option Placement :=
  match s.free with
  | [] => s.placeFresh? c
  | index :: rest =>
    match s.slots[index.toNat]? with
    | some slot =>
      some
        { handle := ⟨index, slot.generation⟩
          slots := s.slots.setIfInBounds index.toNat ⟨slot.generation, some c⟩
          free := rest }
    | none => s.placeFresh? c

/-- The limit of the store, if as many contexts are live as it allows. -/
def reachedLimit? (s : Store) : Option Nat :=
  s.limit.filter fun limit => limit ≤ s.live

/-- Puts a new context into the store and answers with its handle, unless the
limit of the store is reached. -/
def insert (s : Store) (c : Context) : Reply Handle :=
  match s.reachedLimit? with
  | some limit => ⟨.error (.full limit), s, [.refused limit]⟩
  | none =>
    match s.place? c with
    | some ⟨handle, slots, free⟩ =>
      let live := s.live + 1
      ⟨.ok handle, { s with slots, free, live }, [.created c.size handle live]⟩
    | none => ⟨.error (.full (maxSlots - 1)), s, []⟩

/-- Expands a key into a new context and answers with its handle. A key of
wrong length is refused even when the store is full. -/
def create (s : Store) (key : List UInt8) : Reply Handle :=
  match Context.ofBytes key with
  | .ok c => s.insert c
  | .error error => ⟨.error (.length error), s, []⟩

/-- Transforms a block with the context behind a handle. -/
def apply (s : Store) (d : Direction) (h : Handle) (b : Block) : Reply Block :=
  match s.get? h with
  | some c => ⟨.ok (c.apply d b), s, []⟩
  | none => s.reject h

/-- Destroys the context behind a handle, which names nothing from then on.
The slot moves to its next generation and becomes free, or is retired if it
has had the last. -/
def destroy (s : Store) (h : Handle) : Reply Unit :=
  match s.get? h with
  | none => s.reject h
  | some _ =>
    let live := s.live - 1
    let destroyed := StoreEvent.destroyed h live
    match h.generation.next? with
    | some generation =>
      let slots := s.slots.setIfInBounds h.index.toNat ⟨generation, none⟩
      ⟨.ok (), { s with slots, free := h.index :: s.free, live }, [destroyed]⟩
    | none =>
      let slots := s.slots.setIfInBounds h.index.toNat ⟨h.generation, none⟩
      ⟨.ok (), { s with slots, live }, [.retiring h.index, destroyed]⟩

/-- The store with the generation of one slot replaced and nothing else
changed, if there is a slot of that index. A slot can be brought to the end of
its generations in this way. -/
def setGeneration (s : Store) (index : Nat) (generation : Generation) : Store :=
  { s with slots := s.slots.modify index fun slot => { slot with generation } }

end Store

end Rijndael
