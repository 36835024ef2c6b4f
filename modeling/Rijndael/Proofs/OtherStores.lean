import Rijndael.Proofs.HandleHistory

/-!
# Handles in the hands of another store

A handle is an index and a generation and does not say which store gave it out.
Another store looks it up in its own table, and all tables fill up in the same
order. So a handle is refused elsewhere just when the other store has no live
context of its own under the same two numbers. If it has one, that context is
used, and can be destroyed, in place of the one that was meant.

## Main results

* `Changed.of_slots_eq_empty`, `Session.exists_issued_run_eq_cons` — every store
  gives out the same handle first.
* `Session.run_refuses_iff` — when a handle of one store is refused by another.
* `Session.destroyed_by_other_store` — a store loses its only context through the
  handle of another store.
-/

namespace Rijndael

namespace Store

/-- A store without slots stays as it is until it gives out the first
generation of the first slot. -/
theorem Changed.of_slots_eq_empty {s t : Store} {change : Change} (hslots : s.slots = #[])
    (hc : Changed s change t) :
    t = s ∧ change.issued? = none ∨ change.issued? = some ⟨0, .first⟩ := by
  cases hc with
  | nothing => exact .inl ⟨rfl, rfl⟩
  | created hr hok =>
      cases hr with
      | full | exhausted => cases hok
      | reused index rest generation _ _ hslot => simp [hslots] at hslot
      | appended =>
          cases hok
          exact .inr (by simp [Change.issued?, hslots])
  | destroyed hr hok =>
      cases hr with
      | rejected => cases hok
      | freed c _ hslot | retired c hslot => simp [hslots] at hslot

end Store

namespace Session

open Store

theorem exists_issued_run_eq_cons {s : Session} (hs : s.store.WellFormed)
    (hslots : s.store.slots = #[]) (requests : List Request)
    (hissued : issued (s.run requests).2 ≠ []) :
    ∃ rest, issued (s.run requests).2 = ⟨0, .first⟩ :: rest := by
  induction requests generalizing s with
  | nil => exact absurd rfl hissued
  | cons request rest ih =>
      obtain ⟨change, hchanged, hfirst⟩ := perform_changed hs request
      rw [issued_run_cons, hfirst] at hissued ⊢
      rcases hchanged.of_slots_eq_empty hslots with ⟨hstore, hnone⟩ | hsome
      · rw [hnone] at hissued ⊢
        exact ih (hchanged.wellFormed hs) (hstore ▸ hslots) hissued
      · rw [hsome]
        exact ⟨_, rfl⟩

private theorem first_mem_issued_run (limit : Option ℕ) (requests : List Request)
    (hissued : issued ((ofStore (.empty limit)).run requests).2 ≠ []) :
    ⟨0, .first⟩ ∈ issued ((ofStore (.empty limit)).run requests).2 := by
  have hs : (ofStore (.empty limit)).store.WellFormed := wellFormed_empty limit
  obtain ⟨rest, hcons⟩ := exists_issued_run_eq_cons hs rfl requests hissued
  rw [hcons]
  exact List.mem_cons_self

/-- A handle of one store is refused by another store just when that holds no
key under it. A key of its own under the same handle is used instead, and can be
destroyed. Any two stores that have given out handles have one in common. -/
theorem run_refuses_iff (limit limit' : Option ℕ) (requests requests' : List Request) :
    let own := (ofStore (.empty limit)).run requests
    let other := (ofStore (.empty limit')).run requests'
    let keys := (Ledger.empty.replay (requests'.zip other.2)).keys
    (∀ h ∈ issued own.2, (other.1.store.Refuses h ↔ h ∉ keys) ∧
        ∀ key, keys.lookup h = some key →
          (∃ c, Context.ofBytes key = .ok c ∧
            ∀ d b, (other.1.store.apply d h b).result = .ok (c.apply d b)) ∧
          (other.1.store.destroy h).result = .ok ()) ∧
      (issued own.2 ≠ [] → issued other.2 ≠ [] →
        ∃ h, h ∈ issued own.2 ∧ h ∈ issued other.2) := by
  intro own other keys
  have hholds : other.1.store.Holds keys := ((matches_empty limit').run requests').holds
  refine ⟨fun h _ => ⟨?_, fun key hkey => ?_⟩, fun hown hother => ?_⟩
  · rw [refuses_iff, ← hholds.isSome_get? h, Option.not_isSome_iff_eq_none]
  · have hmem : h ∈ keys := Finmap.mem_iff.mpr ⟨key, hkey⟩
    refine ⟨hholds.answersAs.apply_of_lookup h key hkey, ?_⟩
    rw [hholds.answersAs.destroy_eq, if_pos hmem]
  · exact ⟨_, first_mem_issued_run limit requests hown,
      first_mem_issued_run limit' requests' hother⟩

/-- The second handle of a store is refused by a store that has given out only
one. -/
theorem run_refuses_iff_second_handle :
    let own := (ofStore (.empty none)).run [.create (.replicate 16 0), .create (.replicate 16 0)]
    let other := (ofStore (.empty none)).run [.create (.replicate 16 1)]
    ⟨1, .first⟩ ∈ issued own.2 ∧ other.1.store.Refuses ⟨1, .first⟩ := by
  have hissued : ⟨1, .first⟩ ∈ issued ((ofStore (.empty none)).run
      [.create (.replicate 16 0), .create (.replicate 16 0)]).2 := by decide
  exact ⟨hissued, ((run_refuses_iff none none _ _).1 _ hissued).1.mpr (by decide)⟩

/-- Two stores with a context each: the handle of the one destroys the context
of the other. -/
theorem destroyed_by_other_store :
    let own := (ofStore (.empty none)).run [.create (.replicate 16 0)]
    let other := (ofStore (.empty none)).run [.create (.replicate 16 1)]
    ⟨0, .first⟩ ∈ issued own.2 ∧
      ¬ other.1.store.Refuses ⟨0, .first⟩ ∧
      other.1.store.contains ⟨0, .first⟩ = true ∧
      (other.1.store.destroy ⟨0, .first⟩).result = .ok () ∧
      (other.1.store.destroy ⟨0, .first⟩).store.isEmpty = true := by
  refine ⟨by decide, ?_, by decide, by decide, by decide⟩
  intro hrefuses
  exact absurd hrefuses.contains_eq (by decide)

end Session

end Rijndael
