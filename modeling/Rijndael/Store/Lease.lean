import Rijndael.Store.Basic

/-!
# Leases

A `Lease` ties a context to a scope: the context is destroyed when the scope
ends. The holder may release the lease before that, and hears then whether the
context was still there. A lease that was released is no longer armed, and the
end of its scope does nothing.

Someone else may destroy the context while the lease is held. The lease is
then dead, its slot may belong to another context by the time the scope ends,
and that context is left alone because the generation differs.
-/

namespace Rijndael

/-- A context that is destroyed at the end of a scope. -/
structure Lease where
  handle : Handle
  /-- Whether the end of the scope destroys the context. -/
  armed : Bool
  deriving DecidableEq, Repr

/-- The lease of a context that was just created. -/
def Lease.ofHandle (h : Handle) : Lease := ⟨h, true⟩

namespace Store

/-- Expands a key into a context that lives for the length of a scope. -/
def lease (s : Store) (key : List UInt8) : Reply Lease := (s.create key).map .ofHandle

/-- Puts a context into the store for the length of a scope. -/
def leaseContext (s : Store) (c : Context) : Reply Lease := (s.insert c).map .ofHandle

/-- Ends the scope of a lease. If the context of an armed lease has been
destroyed before, that is logged and nothing else happens. -/
def endScope (s : Store) (l : Lease) : Reply Unit :=
  if l.armed then
    let reply := s.destroy l.handle
    match reply.result with
    | .ok () => reply
    | .error _ => ⟨.ok (), reply.store, reply.events ++ [.alreadyGone l.handle]⟩
  else
    ⟨.ok (), s, []⟩

/-- Releases a lease: destroys its context and answers with the outcome. The
scope ends with the lease disarmed, so that nothing is destroyed twice. -/
def release (s : Store) (l : Lease) : Reply Unit :=
  let reply := s.destroy l.handle
  let ended := reply.store.endScope { l with armed := false }
  ⟨reply.result, ended.store, reply.events ++ ended.events⟩

end Store

end Rijndael
