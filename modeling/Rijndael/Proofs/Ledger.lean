import Rijndael.Store.Session
import Rijndael.Proofs.SlotTable

/-!
# A store is a finite map

Seen from outside, a store is a finite map from handles to keys. A `Ledger`
keeps that map from the requests and their answers alone: a key is entered when
a context is created and struck out when it is destroyed, be that by its handle
or through a lease. The slots, their generations and the free list do not occur
in it.

`Session.Matches` ties a session to a ledger. One request preserves it, hence so
does every run, and a store that matches answers every question from the map.

## Main results

* `Store.Holds.answersAs` — what a store that holds the keys of a map answers.
* `Matches.perform` — one request, whatever it is and however it ends.
* `Matches.run` — every run of requests.
* `run_answersAs_ledger` — a store that was empty at first answers after every
  run as the map of the run.
-/

namespace Rijndael

/-- The keys behind the live handles. -/
abbrev KeyMap := Finmap fun _ : Handle => List UInt8

/-- What is known of a session from the answers it gave. -/
structure Ledger where
  keys : KeyMap
  /-- The handles of the leases in the order in which they were taken. -/
  leased : List Handle

namespace Ledger

/-- The ledger of a session with an empty store. -/
def empty : Ledger := ⟨∅, []⟩

/-- The ledger after a request and its answer. -/
def record (l : Ledger) : Request → Except StoreError Answer → Ledger
  | .create key, .ok (.handle h) => { l with keys := l.keys.insert h key }
  | .destroy h, .ok .done => { l with keys := l.keys.erase h }
  | .lease key, .ok (.leased _ h) => ⟨l.keys.insert h key, l.leased ++ [h]⟩
  | .release n, .ok .done | .endScope n, .ok .done =>
    { l with keys := l.leased[n]?.elim l.keys l.keys.erase }
  | _, _ => l

/-- The ledger after requests and their outcomes. -/
def replay (l : Ledger) (entries : List (Request × Outcome)) : Ledger :=
  entries.foldl (fun l entry => l.record entry.1 entry.2.answer) l

end Ledger

/-! ## The number of keys -/

namespace KeyMap

theorem eq_empty_iff_card {keys : KeyMap} : keys = ∅ ↔ keys.keys.card = 0 := by
  constructor
  · rintro rfl
    rfl
  · intro hcard
    apply Finmap.ext_lookup
    intro h
    rw [Finmap.lookup_empty, Finmap.lookup_eq_none, ← Finmap.mem_keys,
      Finset.card_eq_zero.mp hcard]
    exact Finset.notMem_empty h

theorem card_insert {keys : KeyMap} {h : Handle} (hfresh : h ∉ keys) (key : List UInt8) :
    (keys.insert h key).keys.card = keys.keys.card + 1 := by
  have hkeys : (keys.insert h key).keys = insert h keys.keys := by
    ext k
    rw [Finmap.mem_keys, Finmap.mem_insert, Finset.mem_insert, Finmap.mem_keys]
  rw [hkeys, Finset.card_insert_of_notMem (mt Finmap.mem_keys.mp hfresh)]

theorem card_erase {keys : KeyMap} {h : Handle} (hmem : h ∈ keys) :
    (keys.erase h).keys.card + 1 = keys.keys.card := by
  rw [Finmap.keys_erase, Finset.card_erase_add_one (Finmap.mem_keys.mpr hmem)]

theorem erase_of_notMem {keys : KeyMap} {h : Handle} (hnotMem : h ∉ keys) :
    keys.erase h = keys := by
  apply Finmap.ext_lookup
  intro k
  by_cases hk : k = h
  · rw [hk, Finmap.lookup_erase, Finmap.lookup_eq_none.mpr hnotMem]
  · rw [Finmap.lookup_erase_ne hk]

end KeyMap

/-! ## Stores and maps -/

namespace Store

/-- The store answers every question as the map does: with the context of the
key under a handle, or by refusing the handle if there is no key. A handle that
it gives out is not one of those in use. -/
structure AnswersAs (s : Store) (keys : KeyMap) : Prop where
  create_fresh : ∀ key h, (s.create key).result = .ok h → h ∉ keys
  apply_of_lookup : ∀ h key, keys.lookup h = some key →
    ∃ c, Context.ofBytes key = .ok c ∧ ∀ d b, (s.apply d h b).result = .ok (c.apply d b)
  apply_of_notMem : ∀ h, h ∉ keys →
    ∀ d b, (s.apply d h b).result = .error (.invalidContext h)
  destroy_eq : ∀ h, (s.destroy h).result =
    if h ∈ keys then .ok () else .error (.invalidContext h)
  contains_eq : ∀ h, s.contains h = decide (h ∈ keys)
  size_eq : s.size = keys.keys.card
  isEmpty_eq : s.isEmpty = decide (keys = ∅)

/-- The store holds the contexts of the keys in the map, each behind its
handle, and no others. -/
structure Holds (s : Store) (keys : KeyMap) : Prop where
  wellFormed : s.WellFormed
  get?_of_lookup : ∀ h key, keys.lookup h = some key →
    ∃ c, Context.ofBytes key = .ok c ∧ s.get? h = some c
  get?_of_notMem : ∀ h, h ∉ keys → s.get? h = none
  live_eq : s.live = keys.keys.card

theorem holds_empty (limit : Option ℕ) : (empty limit).Holds ∅ where
  wellFormed := wellFormed_empty limit
  get?_of_lookup h key hkey := by simp at hkey
  get?_of_notMem h _ := by simp [get?, empty]
  live_eq := rfl

theorem Holds.isSome_get? {s : Store} {keys : KeyMap} (hs : s.Holds keys) (h : Handle) :
    (s.get? h).isSome ↔ h ∈ keys := by
  constructor
  · intro hsome
    by_contra hnotMem
    simp [hs.get?_of_notMem h hnotMem] at hsome
  · intro hmem
    obtain ⟨key, hkey⟩ := Finmap.mem_iff.mp hmem
    obtain ⟨c, -, hget⟩ := hs.get?_of_lookup h key hkey
    simp [hget]

theorem Holds.notMem_of_inserted {s : Store} {keys : KeyMap} {c : Context} {r : Reply Handle}
    {h : Handle} (hs : s.Holds keys) (hr : Inserted s c r) (hok : r.result = .ok h) :
    h ∉ keys := by
  rw [← hs.isSome_get? h, hr.get?_eq_none hok rfl]
  simp

/-- A store that holds the keys answers as they do. -/
theorem Holds.answersAs {s : Store} {keys : KeyMap} (hs : s.Holds keys) : s.AnswersAs keys where
  create_fresh key h hok := by
    unfold create at hok
    rcases hc : Context.ofBytes key with e | c
    · rw [hc] at hok
      cases hok
    · rw [hc] at hok
      exact hs.notMem_of_inserted (insert_inserted hs.wellFormed c) hok
  apply_of_lookup h key hkey := by
    obtain ⟨c, hc, hget⟩ := hs.get?_of_lookup h key hkey
    exact ⟨c, hc, fun d b => by simp [apply, hget]⟩
  apply_of_notMem h hnotMem d b := by simp [apply, hs.get?_of_notMem h hnotMem, reject]
  destroy_eq h := by
    rw [(destroy_destroyed s h).result_eq]
    simp only [hs.isSome_get? h]
  contains_eq h := by
    rw [contains, Bool.eq_iff_iff, hs.isSome_get? h, decide_eq_true_iff]
  size_eq := hs.live_eq
  isEmpty_eq := by
    rw [Bool.eq_iff_iff, decide_eq_true_iff, KeyMap.eq_empty_iff_card, isEmpty, size, hs.live_eq,
      beq_iff_eq]

/-- A context that comes in is registered under its handle. -/
theorem Holds.inserted {s : Store} {keys : KeyMap} {key : List UInt8} {c : Context}
    {r : Reply Handle} {h : Handle} (hs : s.Holds keys) (hc : Context.ofBytes key = .ok c)
    (hr : Inserted s c r) (hok : r.result = .ok h) : r.store.Holds (keys.insert h key) := by
  have hget := hr.get?_eq hok
  have hfresh := hs.notMem_of_inserted hr hok
  refine
    { wellFormed := hr.wellFormed hs.wellFormed
      get?_of_lookup := ?_
      get?_of_notMem := ?_
      live_eq := ?_ }
  · intro k key' hkey
    by_cases hk : k = h
    · subst hk
      rw [Finmap.lookup_insert] at hkey
      cases hkey
      exact ⟨c, hc, by rw [hget, if_pos rfl]⟩
    · rw [Finmap.lookup_insert_of_ne keys hk] at hkey
      rw [hget, if_neg hk]
      exact hs.get?_of_lookup k key' hkey
  · intro k hnotMem
    obtain ⟨hne, hnotMem⟩ := not_or.mp (mt Finmap.mem_insert.mpr hnotMem)
    rw [hget, if_neg hne]
    exact hs.get?_of_notMem k hnotMem
  · rw [hr.live_eq hok, hs.live_eq, KeyMap.card_insert hfresh]

/-- A handle that is destroyed is registered no more, if it ever was. -/
theorem Holds.destroyed {s : Store} {keys : KeyMap} {r : Reply Unit} {h : Handle}
    (hs : s.Holds keys) (hr : Destroyed s h r) : r.store.Holds (keys.erase h) := by
  have hget := hr.get?_eq
  refine
    { wellFormed := hr.wellFormed hs.wellFormed
      get?_of_lookup := ?_
      get?_of_notMem := ?_
      live_eq := ?_ }
  · intro k key hkey
    have hne : k ≠ h := by
      rintro rfl
      simp at hkey
    rw [Finmap.lookup_erase_ne hne] at hkey
    rw [hget, if_neg hne]
    exact hs.get?_of_lookup k key hkey
  · intro k hnotMem
    rw [hget]
    by_cases hk : k = h
    · rw [if_pos hk]
    · rw [if_neg hk]
      exact hs.get?_of_notMem k fun hmem => hnotMem (Finmap.mem_erase.mpr ⟨hk, hmem⟩)
  · have hresult := hr.result_eq
    by_cases hmem : h ∈ keys
    · rw [if_pos ((hs.isSome_get? h).mpr hmem)] at hresult
      have hlive := hr.live_eq hs.wellFormed hresult
      have hcard := KeyMap.card_erase hmem
      have hold := hs.live_eq
      omega
    · rw [if_neg (mt (hs.isSome_get? h).mp hmem)] at hresult
      rw [hr.store_eq_of_error hresult, KeyMap.erase_of_notMem hmem, hs.live_eq]

/-- After a request for a context, the key is in the map if a handle was the
answer, and else nothing has changed. -/
theorem Holds.create {s : Store} {keys : KeyMap} (hs : s.Holds keys) (key : List UInt8) :
    (∃ h, (s.create key).result = .ok h ∧ (s.create key).store.Holds (keys.insert h key)) ∨
      ∃ e, (s.create key).result = .error e ∧ (s.create key).store = s := by
  unfold Store.create
  rcases hc : Context.ofBytes key with e | c
  · exact .inr ⟨.length e, rfl, rfl⟩
  · have hr := insert_inserted hs.wellFormed c
    rcases hresult : (s.insert c).result with e | h
    · exact .inr ⟨e, rfl, hr.store_eq_of_error hresult⟩
    · exact .inl ⟨h, rfl, hs.inserted hc hr hresult⟩

theorem Holds.destroy {s : Store} {keys : KeyMap} (hs : s.Holds keys) (h : Handle) :
    (s.destroy h).store.Holds (keys.erase h) :=
  hs.destroyed (destroy_destroyed s h)

/-- A refused handle was not in the map, so that striking it out changes
nothing. -/
theorem Holds.erase_of_error {s : Store} {keys : KeyMap} {h : Handle} {e : StoreError}
    (hs : s.Holds keys) (herror : (s.destroy h).result = .error e) : keys.erase h = keys := by
  apply KeyMap.erase_of_notMem
  intro hmem
  rw [hs.answersAs.destroy_eq, if_pos hmem] at herror
  cases herror

theorem store_apply (s : Store) (d : Direction) (h : Handle) (b : Block) :
    (s.apply d h b).store = s := by
  unfold apply
  split
  · rfl
  · rfl

theorem store_release (s : Store) (l : Lease) :
    (s.release l).store = (s.destroy l.handle).store := by
  simp [release, endScope]

/-- The end of a scope destroys the context, and reports no error. -/
theorem endScope_of_armed (s : Store) {l : Lease} (harmed : l.armed = true) :
    (s.endScope l).result = .ok () ∧ (s.endScope l).store = (s.destroy l.handle).store := by
  unfold endScope
  rw [if_pos harmed]
  rcases hresult : (s.destroy l.handle).result with e | ⟨⟩
  · simp [hresult]
  · simp [hresult]

end Store

/-! ## Sessions and ledgers -/

namespace Session

/-- The store of the session holds the keys in the ledger, and the leases that
are held are of the handles in the ledger. -/
structure Matches (s : Session) (l : Ledger) : Prop where
  holds : s.store.Holds l.keys
  size_eq : s.leases.size = l.leased.length
  held : ∀ n lease, s.lease? n = some lease →
    lease.armed = true ∧ l.leased[n]? = some lease.handle

theorem matches_empty (limit : Option ℕ) : (ofStore (.empty limit)).Matches .empty where
  holds := Store.holds_empty limit
  size_eq := rfl
  held n lease hlease := by simp [ofStore, lease?] at hlease

/-- A reply that leaves the leases alone. -/
theorem Matches.withStore {s : Session} {l : Ledger} (hs : s.Matches l) {store : Store}
    {keys : KeyMap} (hstore : store.Holds keys) :
    { s with store }.Matches { l with keys } where
  holds := hstore
  size_eq := hs.size_eq
  held := hs.held

/-- A lease that is taken. -/
theorem Matches.push {s : Session} {l : Ledger} (hs : s.Matches l) (h : Handle) :
    { s with leases := s.leases.push (some (.ofHandle h)) }.Matches
      { l with leased := l.leased ++ [h] } where
  holds := hs.holds
  size_eq := by simp [hs.size_eq]
  held n lease hlease := by
    simp only [lease?, Array.getElem?_push] at hlease
    by_cases hn : n = s.leases.size
    · rw [if_pos hn] at hlease
      cases hlease
      refine ⟨rfl, ?_⟩
      rw [hn, hs.size_eq]
      simp [Lease.ofHandle]
    · rw [if_neg hn] at hlease
      obtain ⟨harmed, hleased⟩ := hs.held n lease hlease
      obtain ⟨hlt, -⟩ := List.getElem?_eq_some_iff.mp hleased
      exact ⟨harmed, by rw [List.getElem?_append_left hlt, hleased]⟩

/-- A lease that is given up. -/
theorem Matches.release {s : Session} {l : Ledger} (hs : s.Matches l) (n : ℕ) :
    { s with leases := s.leases.setIfInBounds n none }.Matches l where
  holds := hs.holds
  size_eq := by simp [hs.size_eq]
  held k lease hlease := by
    apply hs.held k lease
    simp only [lease?, Array.getElem?_setIfInBounds] at hlease ⊢
    by_cases hk : n = k
    · rw [if_pos hk] at hlease
      split at hlease <;> cases hlease
    · rwa [if_neg hk] at hlease

theorem Matches.perform_destroy {s : Session} {l : Ledger} (hs : s.Matches l) (h : Handle) :
    (s.perform (.destroy h)).1.Matches
      (l.record (.destroy h) (s.perform (.destroy h)).2.answer) := by
  simp only [perform, settle]
  rcases hresult : (s.store.destroy h).result with e | ⟨⟩
  · have herase := hs.holds.erase_of_error hresult
    have hholds := hs.holds.destroy h
    rw [herase] at hholds
    exact hs.withStore hholds
  · exact hs.withStore (hs.holds.destroy h)

theorem Matches.perform_create {s : Session} {l : Ledger} (hs : s.Matches l)
    (key : List UInt8) :
    (s.perform (.create key)).1.Matches
      (l.record (.create key) (s.perform (.create key)).2.answer) := by
  simp only [perform, settle]
  rcases hs.holds.create key with ⟨h, hok, hholds⟩ | ⟨e, herror, hstore⟩
  · rw [hok]
    exact hs.withStore hholds
  · rw [herror, hstore]
    exact hs

theorem Matches.perform_lease {s : Session} {l : Ledger} (hs : s.Matches l)
    (key : List UInt8) :
    (s.perform (.lease key)).1.Matches
      (l.record (.lease key) (s.perform (.lease key)).2.answer) := by
  simp only [perform, Store.lease, Reply.map]
  rcases hs.holds.create key with ⟨h, hok, hholds⟩ | ⟨e, herror, hstore⟩
  · rw [hok]
    exact (hs.withStore hholds).push h
  · rw [herror, hstore]
    exact hs

/-- The end of a lease strikes its key out, whatever it is answered: if nothing is
destroyed, there was no key. -/
theorem Matches.record_release {s : Session} {l : Ledger} (hs : s.Matches l) {n : ℕ}
    {lease : Lease} (hlease : s.lease? n = some lease) :
    l.record (.release n) (s.perform (.release n)).2.answer =
      { l with keys := l.keys.erase lease.handle } := by
  obtain ⟨-, hleased⟩ := hs.held n lease hlease
  have hrelease : (s.store.release lease).result = (s.store.destroy lease.handle).result := rfl
  simp only [Session.perform, withLease, hlease, settleEnded, settle, hrelease]
  rcases hresult : (s.store.destroy lease.handle).result with e | ⟨⟩
  · rw [hs.holds.erase_of_error hresult]
    rfl
  · simp only [Except.map, Ledger.record, hleased, Option.elim_some]

/-- The end of a scope has an answer that tells nothing: the ledger takes the handle
off in any case. -/
theorem Matches.record_endScope {s : Session} {l : Ledger} (hs : s.Matches l) {n : ℕ}
    {lease : Lease} (hlease : s.lease? n = some lease) :
    l.record (.endScope n) (s.perform (.endScope n)).2.answer =
      { l with keys := l.keys.erase lease.handle } := by
  obtain ⟨harmed, hleased⟩ := hs.held n lease hlease
  have hresult := (s.store.endScope_of_armed harmed).1
  simp only [Session.perform, withLease, hlease, settleEnded, settle, hresult, Except.map,
    Ledger.record, hleased, Option.elim_some]

theorem Matches.perform_release {s : Session} {l : Ledger} (hs : s.Matches l) (n : ℕ) :
    (s.perform (.release n)).1.Matches
      (l.record (.release n) (s.perform (.release n)).2.answer) := by
  rcases hlease : s.lease? n with _ | lease
  · simp only [Session.perform, withLease, hlease]
    exact hs
  · rw [hs.record_release hlease]
    simp only [Session.perform, withLease, hlease, settleEnded, settle, Store.store_release]
    exact (hs.withStore (hs.holds.destroy lease.handle)).release n

theorem Matches.perform_endScope {s : Session} {l : Ledger} (hs : s.Matches l) (n : ℕ) :
    (s.perform (.endScope n)).1.Matches
      (l.record (.endScope n) (s.perform (.endScope n)).2.answer) := by
  rcases hlease : s.lease? n with _ | lease
  · simp only [Session.perform, withLease, hlease]
    exact hs
  · obtain ⟨harmed, -⟩ := hs.held n lease hlease
    have hstore := (s.store.endScope_of_armed harmed).2
    rw [hs.record_endScope hlease]
    simp only [Session.perform, withLease, hlease, settleEnded, settle, hstore]
    exact (hs.withStore (hs.holds.destroy lease.handle)).release n

/-- One request keeps the session and the ledger together. -/
theorem Matches.perform {s : Session} {l : Ledger} (hs : s.Matches l) (request : Request) :
    (s.perform request).1.Matches (l.record request (s.perform request).2.answer) := by
  cases request with
  | create key => exact hs.perform_create key
  | destroy h => exact hs.perform_destroy h
  | lease key => exact hs.perform_lease key
  | release n => exact hs.perform_release n
  | endScope n => exact hs.perform_endScope n
  | contains | size | isEmpty => exact hs
  | apply d h b =>
      simp only [Session.perform, settle, Store.store_apply]
      exact hs
  | applyLease d n b =>
      simp only [Session.perform, withLease]
      rcases s.lease? n with _ | lease
      · exact hs
      · simp only [settle, Store.store_apply]
        exact hs

/-- So does a run of requests, by induction on the requests. -/
theorem Matches.run {s : Session} {l : Ledger} (hs : s.Matches l) (requests : List Request) :
    (s.run requests).1.Matches (l.replay (requests.zip (s.run requests).2)) := by
  induction requests generalizing s l with
  | nil => exact hs
  | cons request rest ih => exact ih (hs.perform request)

/-- A store that was empty at first is a finite map from handles to keys:
whatever was asked of it and whichever handles were named, it answers as the
map of the keys that were created and not destroyed. Every point of a course of
requests is the end of a run, so this holds all along. -/
theorem run_answersAs_ledger (limit : Option ℕ) (requests : List Request) :
    let run := (ofStore (.empty limit)).run requests
    run.1.store.AnswersAs (Ledger.empty.replay (requests.zip run.2)).keys :=
  ((matches_empty limit).run requests).holds.answersAs

end Session

end Rijndael
