import Rijndael.Proofs.DestroyedHandles

/-!
# The limit of a store

A store compares its limit with the number of live contexts, which it counts
beside the table. Free slots and slots that were given up pile up in the table
and are of no account. So a store with room in its table refuses a key of right
length just when as many contexts are live as its limit allows, and this number
is at every point what was created less what was destroyed.

## Main results

* `Changed.within` — no change takes the store above its limit.
* `Within.admits` — which keys a store within its limit takes.
* `Session.run_admits` — so it is after every run of requests.
-/

namespace Rijndael

namespace Store

/-- No more contexts are live than the limit allows. -/
def Within (s : Store) : Prop := ∀ limit, s.limit = some limit → s.live ≤ limit

/-- The answers of a store that may hold so many contexts. A key of right length
is refused if all of them are live, and for no other reason. The length of a key
is looked at first. -/
structure Admits (s : Store) (limit : Option ℕ) : Prop where
  create_full : ∀ key bound, key.length ∈ [16, 24, 32] → limit = some bound →
    ((s.create key).result = .error (.full bound) ↔ s.size = bound)
  create_ok : ∀ key, key.length ∈ [16, 24, 32] → limit ≠ some s.size →
    ∃ h, (s.create key).result = .ok h
  create_length : ∀ key, key.length ∉ [16, 24, 32] →
    (s.create key).result = .error (.length (.key key.length))

theorem within_empty (limit : Option ℕ) : (empty limit).Within := fun _ _ => Nat.zero_le _

/-- A context that was put in found the store below its limit. -/
private theorem Inserted.live_lt {s : Store} {c : Context} {r : Reply Handle} {h : Handle}
    (hr : Inserted s c r) (hok : r.result = .ok h) {limit : ℕ} (hlimit : s.limit = some limit) :
    s.live < limit := by
  cases hr with
  | full | exhausted => cases hok
  | reused _ _ _ hlt | appended hlt => exact hlt limit hlimit

/-- A store at its limit refuses the context and names the limit. -/
theorem Inserted.result_eq_full {s : Store} {c : Context} {r : Reply Handle}
    (hr : Inserted s c r) {limit : ℕ} (hlimit : s.limit = some limit) (hle : limit ≤ s.live) :
    r.result = .error (.full limit) := by
  cases hr with
  | full limit' hlimit' =>
      rw [hlimit'] at hlimit
      cases hlimit
      rfl
  | reused _ _ _ hlt | appended hlt | exhausted hlt =>
      exact absurd (hlt limit hlimit) (Nat.not_lt.mpr hle)

theorem Changed.within {s t : Store} {change : Change} (hs : s.WellFormed)
    (hc : Changed s change t) (hwithin : s.Within) : t.Within := by
  intro limit hlimit
  have hold : s.limit = some limit := hc.limit_eq ▸ hlimit
  cases hc with
  | nothing => exact hwithin limit hold
  | created hr hok => exact (hr.live_eq hok).le.trans (hr.live_lt hok hold)
  | destroyed hr hok =>
      have hlive := hr.live_eq hs hok
      have hle := hwithin limit hold
      omega

theorem exists_create_eq_insert (s : Store) {key : List UInt8} (hkey : key.length ∈ [16, 24, 32]) :
    ∃ c, s.create key = s.insert c := by
  obtain ⟨c, hc⟩ := Context.exists_ofBytes_eq_ok hkey
  exact ⟨c, by rw [create, hc]⟩

theorem Within.admits {s : Store} (hwithin : s.Within) (hs : s.WellFormed)
    (hroom : s.slots.size < maxSlots) : s.Admits s.limit where
  create_full key bound hkey hlimit := by
    obtain ⟨c, hcreate⟩ := s.exists_create_eq_insert hkey
    have hr := insert_inserted hs c
    rw [hcreate]
    constructor
    · intro hfull
      -- Below the limit there would be a handle instead.
      refine (hwithin bound hlimit).antisymm (Nat.le_of_not_lt fun hlt => ?_)
      have hbelow : ∀ limit, s.limit = some limit → s.live < limit := by
        intro limit hlimit'
        rw [hlimit] at hlimit'
        cases hlimit'
        exact hlt
      obtain ⟨h, hok⟩ := hr.exists_eq_ok hbelow hroom
      rw [hfull] at hok
      cases hok
    · intro hsize
      exact hr.result_eq_full hlimit hsize.ge
  create_ok key hkey hne := by
    obtain ⟨c, hcreate⟩ := s.exists_create_eq_insert hkey
    rw [hcreate]
    refine (insert_inserted hs c).exists_eq_ok (fun limit hlimit => ?_) hroom
    refine lt_of_le_of_ne (hwithin limit hlimit) fun heq => hne ?_
    rw [hlimit, size, heq]
  create_length key hkey := by rw [create, Context.ofBytes_eq_error hkey]

end Store

namespace Session

open Store

/-- At every point of a course of requests, the live contexts are in number those
that were created less those that were destroyed, with and without leases, and
no more than the limit allows. As long as the table has room, a key of right
length is refused just when the limit is reached. -/
theorem run_admits (limit : Option ℕ) (requests : List Request) :
    let start := ofStore (.empty limit)
    let run := start.run requests
    run.1.store.size + (start.destroyed requests).length = (issued run.2).length ∧
      (∀ bound, limit = some bound → run.1.store.size ≤ bound) ∧
      (run.1.store.slots.size < maxSlots → run.1.store.Admits limit) := by
  intro start run
  have hstart : start.store.WellFormed := wellFormed_empty limit
  have hs : run.1.store.WellFormed := wellFormed_run hstart requests
  have hwithin : run.1.store.Within :=
    preserved_run (fun hs hchanged => hchanged.within hs) hstart (within_empty limit) requests
  have hlimit : run.1.store.limit = limit :=
    preserved_run (P := fun t => t.limit = limit) (fun _ hchanged => hchanged.limit_eq.trans)
      hstart rfl requests
  have hsize := size_run_add_length_destroyed (matches_empty limit) requests
  refine ⟨hsize.trans (Nat.zero_add _), fun bound hbound => ?_, fun hroom => ?_⟩
  · exact hwithin bound (hlimit.trans hbound)
  · exact hlimit ▸ hwithin.admits hs hroom

/-- A store for one context is full while a lease is held and takes a key again
when the lease has ended. -/
theorem run_admits_one :
    let start := ofStore (.empty (some 1))
    let held := start.run [.lease (.replicate 16 0)]
    let ended := start.run [.lease (.replicate 16 0), .create (.replicate 24 0), .endScope 0]
    held.1.store.slots.size < maxSlots ∧ held.1.store.Admits (some 1) ∧
      held.1.store.size = 1 ∧
      ended.1.store.slots.size < maxSlots ∧ ended.1.store.Admits (some 1) ∧
      ended.1.store.size = 0 :=
  have hheld : ((ofStore (.empty (some 1))).run
      [.lease (.replicate 16 0)]).1.store.slots.size < maxSlots := by decide
  have hended : ((ofStore (.empty (some 1))).run [.lease (.replicate 16 0),
      .create (.replicate 24 0), .endScope 0]).1.store.slots.size < maxSlots := by decide
  ⟨hheld, (run_admits (some 1) _).2.2 hheld, by decide,
    hended, (run_admits (some 1) _).2.2 hended, by decide⟩

end Session

end Rijndael
