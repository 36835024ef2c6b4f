import Rijndael.Proofs.HandleHistory

/-!
# Keys that were created without a lease

Of the keys in the ledger of a session some were created with a lease. Such a
key is struck out when the lease ends, if not before. So the keys fall into two
parts at every point: one was created without a lease and can be told from the
plain requests alone, and the other belongs to the leases that are held. The
parts do not mix, because a handle that is new is not that of a lease.

## Main results

* `Parted.perform_plain`, `Parted.perform_other` — one request.
* `Parted.run` — every run of requests.
* `Parted.eq` — when no lease is held, the first part is all.
-/

namespace Rijndael

/-- The request creates a context without a lease or destroys one by its
handle. -/
def Request.isPlain : Request → Bool
  | .create _ | .destroy _ => true
  | _ => false

/-- To give a lease back is to destroy its handle. -/
theorem Store.release_eq_destroy (s : Store) (l : Lease) : s.release l = s.destroy l.handle := by
  simp [release, endScope]

namespace Session

open Store

theorem perform_release {s : Session} {n : ℕ} {l : Lease} (hlease : s.lease? n = some l) :
    s.perform (.release n) = s.settleEnded n (s.store.destroy l.handle) := by
  simp only [perform, withLease, hlease, release_eq_destroy]

/-- Of the leases just the one that ends is closed. -/
theorem lease?_settleEnded (s : Session) (m n : ℕ) (reply : Reply Unit) :
    (s.settleEnded m reply).1.lease? n = if m = n then none else s.lease? n := by
  simp only [settleEnded, settle, lease?, Array.getElem?_setIfInBounds]
  by_cases hm : m = n
  · rw [if_pos hm, if_pos hm]
    split <;> rfl
  · rw [if_neg hm, if_neg hm]

/-- A lease of the handle is held. -/
def Leased (s : Session) (h : Handle) : Prop :=
  ∃ n lease, s.lease? n = some lease ∧ lease.handle = h

/-- Of all keys in the session, those that are in the second map were created
without a lease, and the others with a lease that is held. -/
structure Parted (s : Session) (all plain : KeyMap) : Prop where
  lookup_eq : ∀ h ∈ plain, all.lookup h = plain.lookup h
  mem_or_leased : ∀ h ∈ all, h ∈ plain ∨ s.Leased h
  notMem : ∀ h, s.Leased h → h ∉ plain
  hasIssued : ∀ h, s.Leased h → s.store.HasIssued h

variable {s t : Session} {all plain : KeyMap}

theorem parted_empty (limit : Option ℕ) : (ofStore (.empty limit)).Parted ∅ ∅ := by
  have hnone : ∀ h, ¬ (ofStore (.empty limit)).Leased h := by
    rintro h ⟨n, lease, hlease, -⟩
    simp [ofStore, lease?] at hlease
  exact
    { lookup_eq := fun _ _ => rfl
      mem_or_leased := fun h hmem => absurd hmem Finmap.notMem_empty
      notMem := fun h hleased => absurd hleased (hnone h)
      hasIssued := fun h hleased => absurd hleased (hnone h) }

/-- Two maps that are parted by no lease are one. -/
theorem Parted.eq (hs : s.Parted all plain) (hnone : ∀ n, s.lease? n = none) : plain = all := by
  apply Finmap.ext_lookup
  intro h
  by_cases hmem : h ∈ plain
  · exact (hs.lookup_eq h hmem).symm
  · have hall : h ∉ all := by
      intro hall
      rcases hs.mem_or_leased h hall with hplain | ⟨n, lease, hlease, -⟩
      · exact hmem hplain
      · rw [hnone n] at hlease
        cases hlease
    rw [Finmap.lookup_eq_none.mpr hmem, Finmap.lookup_eq_none.mpr hall]

theorem Parted.of_leases_eq (hs : s.Parted all plain) (hleases : t.leases = s.leases)
    (hissued : ∀ h, s.store.HasIssued h → t.store.HasIssued h) : t.Parted all plain := by
  have hleased : ∀ h, t.Leased h ↔ s.Leased h := fun h => by simp only [Leased, lease?, hleases]
  exact
    { lookup_eq := hs.lookup_eq
      mem_or_leased := fun h hmem => (hs.mem_or_leased h hmem).imp_right (hleased h).mpr
      notMem := fun h hl => hs.notMem h ((hleased h).mp hl)
      hasIssued := fun h hl => hissued h (hs.hasIssued h ((hleased h).mp hl)) }

/-! ## One entry -/

/-- A key that is created without a lease, under a handle that is new. -/
theorem Parted.insert (hs : s.Parted all plain) {h : Handle} (hfresh : ¬ s.store.HasIssued h)
    (key : List UInt8) : s.Parted (all.insert h key) (plain.insert h key) where
  lookup_eq k hmem := by
    by_cases hk : k = h
    · rw [hk, Finmap.lookup_insert, Finmap.lookup_insert]
    · rw [Finmap.lookup_insert_of_ne _ hk, Finmap.lookup_insert_of_ne _ hk]
      exact hs.lookup_eq k ((Finmap.mem_insert.mp hmem).resolve_left hk)
  mem_or_leased k hmem := by
    rcases Finmap.mem_insert.mp hmem with rfl | hmem
    · exact .inl (Finmap.mem_insert.mpr (.inl rfl))
    · exact (hs.mem_or_leased k hmem).imp_left fun hplain => Finmap.mem_insert.mpr (.inr hplain)
  notMem k hleased hmem := by
    rcases Finmap.mem_insert.mp hmem with rfl | hmem
    · exact hfresh (hs.hasIssued k hleased)
    · exact hs.notMem k hleased hmem
  hasIssued := hs.hasIssued

/-- A key that is struck out of both maps. -/
theorem Parted.erase (hs : s.Parted all plain) (h : Handle) :
    s.Parted (all.erase h) (plain.erase h) where
  lookup_eq k hmem := by
    obtain ⟨hk, hmem⟩ := Finmap.mem_erase.mp hmem
    rw [Finmap.lookup_erase_ne hk, Finmap.lookup_erase_ne hk, hs.lookup_eq k hmem]
  mem_or_leased k hmem := by
    obtain ⟨hk, hmem⟩ := Finmap.mem_erase.mp hmem
    exact (hs.mem_or_leased k hmem).imp_left fun hplain => Finmap.mem_erase.mpr ⟨hk, hplain⟩
  notMem k hleased hmem := hs.notMem k hleased (Finmap.mem_erase.mp hmem).2
  hasIssued := hs.hasIssued

/-- A lease that is taken, under a handle that is new. -/
theorem Parted.lease (hs : s.Parted all plain) {h : Handle} (hnotMem : h ∉ plain)
    (hleased : ∀ k, t.Leased k ↔ s.Leased k ∨ k = h)
    (hissued : ∀ k, s.store.HasIssued k ∨ k = h → t.store.HasIssued k) (key : List UInt8) :
    t.Parted (all.insert h key) plain where
  lookup_eq k hmem := by
    have hk : k ≠ h := fun heq => hnotMem (heq ▸ hmem)
    rw [Finmap.lookup_insert_of_ne _ hk, hs.lookup_eq k hmem]
  mem_or_leased k hmem := by
    rcases Finmap.mem_insert.mp hmem with hk | hmem
    · exact .inr ((hleased k).mpr (.inr hk))
    · exact (hs.mem_or_leased k hmem).imp_right fun hl => (hleased k).mpr (.inl hl)
  notMem k hl := by
    rcases (hleased k).mp hl with hl | rfl
    · exact hs.notMem k hl
    · exact hnotMem
  hasIssued k hl := hissued k (((hleased k).mp hl).imp_left (hs.hasIssued k))

/-- A lease that ends. Its key is struck out, and it was not among the plain
ones. -/
theorem Parted.close (hs : s.Parted all plain) {h : Handle} (hheld : s.Leased h)
    (hleased : ∀ k, t.Leased k → s.Leased k) (hother : ∀ k, s.Leased k → k = h ∨ t.Leased k)
    (hissued : ∀ k, s.store.HasIssued k → t.store.HasIssued k) :
    t.Parted (all.erase h) plain where
  lookup_eq k hmem := by
    have hk : k ≠ h := fun heq => hs.notMem h hheld (heq ▸ hmem)
    rw [Finmap.lookup_erase_ne hk, hs.lookup_eq k hmem]
  mem_or_leased k hmem := by
    obtain ⟨hk, hmem⟩ := Finmap.mem_erase.mp hmem
    exact (hs.mem_or_leased k hmem).imp_right fun hl => (hother k hl).resolve_left hk
  notMem k hl := hs.notMem k (hleased k hl)
  hasIssued k hl := hissued k (hs.hasIssued k (hleased k hl))

/-! ## One request -/

/-- A new lease adds its handle to those under lease. -/
private theorem leased_push (s : Session) (store : Store) (h k : Handle) :
    Leased ⟨store, s.leases.push (some (.ofHandle h))⟩ k ↔ s.Leased k ∨ k = h := by
  simp only [Leased, lease?, Array.getElem?_push]
  constructor
  · rintro ⟨n, lease, hlease, rfl⟩
    by_cases hn : n = s.leases.size
    · rw [if_pos hn] at hlease
      cases hlease
      exact .inr rfl
    · rw [if_neg hn] at hlease
      exact .inl ⟨n, lease, hlease, rfl⟩
  · rintro (⟨n, lease, hlease, rfl⟩ | rfl)
    · have hn : n ≠ s.leases.size := by
        rintro rfl
        simp at hlease
      exact ⟨n, lease, by rw [if_neg hn, hlease], rfl⟩
    · exact ⟨s.leases.size, .ofHandle k, by rw [if_pos rfl]; rfl, rfl⟩

private theorem leased_of_leased_settleEnded {n : ℕ} {reply : Reply Unit} {k : Handle}
    (hleased : (s.settleEnded n reply).1.Leased k) : s.Leased k := by
  obtain ⟨m, lease, hlease, rfl⟩ := hleased
  rw [lease?_settleEnded] at hlease
  by_cases hm : n = m
  · rw [if_pos hm] at hlease
    cases hlease
  · rw [if_neg hm] at hlease
    exact ⟨m, lease, hlease, rfl⟩

private theorem leased_settleEnded {n : ℕ} {lease : Lease} (hlease : s.lease? n = some lease)
    (reply : Reply Unit) {k : Handle} (hleased : s.Leased k) :
    k = lease.handle ∨ (s.settleEnded n reply).1.Leased k := by
  obtain ⟨m, other, hother, rfl⟩ := hleased
  by_cases hm : n = m
  · rw [← hm, hlease] at hother
    cases hother
    exact .inl rfl
  · exact .inr ⟨m, other, by rw [lease?_settleEnded, if_neg hm, hother], rfl⟩

/-- A request about plain handles changes both ledgers alike. -/
theorem Parted.perform_plain {l p : Ledger} (hs : s.Matches l) (hp : s.Parted l.keys p.keys)
    {request : Request} (hplain : request.isPlain) :
    (s.perform request).1.Parted (l.record request (s.perform request).2.answer).keys
      (p.record request (s.perform request).2.answer).keys := by
  have hissued : ∀ h, s.store.HasIssued h → (s.perform request).1.store.HasIssued h := fun _ =>
    hasIssued_perform hs.holds.wellFormed request
  cases request with
  | create key =>
      refine Parted.of_leases_eq (s := s) ?_ rfl hissued
      simp only [perform, settle]
      rcases hresult : (s.store.create key).result with e | h
      · exact hp
      · exact hp.insert (not_hasIssued_of_create hs.holds.wellFormed hresult) key
  | destroy h =>
      refine Parted.of_leases_eq (s := s) ?_ rfl hissued
      simp only [perform, settle]
      rcases (s.store.destroy h).result with e | ⟨⟩
      · exact hp
      · exact hp.erase h
  | apply | contains | size | isEmpty | lease | applyLease | release | endScope => cases hplain

/-- A lease is taken beside the plain handles. -/
theorem Parted.perform_lease {l : Ledger} (hs : s.Matches l) (hp : s.Parted l.keys plain)
    (key : List UInt8) :
    (s.perform (.lease key)).1.Parted
      (l.record (.lease key) (s.perform (.lease key)).2.answer).keys plain := by
  have hfresh : ∀ h ∈ plain, s.store.HasIssued h := by
    intro h hmem
    obtain ⟨key, hkey⟩ := Finmap.mem_iff.mp hmem
    obtain ⟨c, -, hget⟩ := hs.holds.get?_of_lookup h key ((hp.lookup_eq h hmem).trans hkey)
    exact hs.holds.wellFormed.hasIssued_of_get? hget
  have hissued := fun h => hasIssued_create_iff hs.holds.wellFormed key h
  simp only [perform, Store.lease, Reply.map]
  rcases hresult : (s.store.create key).result with e | h
  · exact hp.of_leases_eq rfl fun k hk => (hissued k).mpr (.inl hk)
  · have hnew := not_hasIssued_of_create hs.holds.wellFormed hresult
    refine hp.lease (fun hmem => hnew (hfresh h hmem)) (s.leased_push _ h) (fun k hk => ?_) key
    refine (hissued k).mpr (hk.imp_right ?_)
    rintro rfl
    exact hresult

theorem Parted.perform_other {l : Ledger} (hs : s.Matches l) (hp : s.Parted l.keys plain)
    {request : Request} (hother : ¬ request.isPlain) :
    (s.perform request).1.Parted (l.record request (s.perform request).2.answer).keys plain := by
  have hissued : ∀ h, s.store.HasIssued h → (s.perform request).1.store.HasIssued h := fun _ =>
    hasIssued_perform hs.holds.wellFormed request
  cases request with
  | create | destroy => exact absurd rfl hother
  | contains | size | isEmpty => exact hp
  | apply d h b =>
      refine Parted.of_leases_eq (s := s) ?_ rfl hissued
      exact hp
  | lease key => exact hp.perform_lease hs key
  | applyLease d n b =>
      simp only [perform, withLease] at hissued ⊢
      rcases hlease : s.lease? n with _ | lease
      · exact hp
      · simp only [hlease] at hissued
        exact hp.of_leases_eq rfl hissued
  | release n =>
      rcases hlease : s.lease? n with _ | lease
      · simp only [perform, withLease, hlease]
        exact hp
      · rw [hs.record_release hlease]
        simp only [perform_release hlease] at hissued ⊢
        exact hp.close ⟨n, lease, hlease, rfl⟩ (fun _ => leased_of_leased_settleEnded)
          (fun _ => leased_settleEnded hlease _) hissued
  | endScope n =>
      rcases hlease : s.lease? n with _ | lease
      · simp only [perform, withLease, hlease]
        exact hp
      · rw [hs.record_endScope hlease]
        simp only [perform, withLease, hlease] at hissued ⊢
        exact hp.close ⟨n, lease, hlease, rfl⟩ (fun _ => leased_of_leased_settleEnded)
          (fun _ => leased_settleEnded hlease _) hissued

/-- By induction on the requests. The second map is told by the requests alone that
have nothing to do with leases. -/
theorem Parted.run {l p : Ledger} (hs : s.Matches l) (hp : s.Parted l.keys p.keys)
    (requests : List Request) :
    let entries := requests.zip (s.run requests).2
    (s.run requests).1.Parted (l.replay entries).keys
      (p.replay (entries.filter fun entry => entry.1.isPlain)).keys := by
  induction requests generalizing s l p with
  | nil => exact hp
  | cons request rest ih =>
      simp only [Session.run, List.zip_cons_cons, List.filter_cons]
      by_cases hplain : request.isPlain = true
      · rw [if_pos hplain]
        exact ih (hs.perform request) (hp.perform_plain hs hplain)
      · rw [if_neg hplain]
        exact ih (hs.perform request) (hp.perform_other hs hplain)

end Session

end Rijndael
