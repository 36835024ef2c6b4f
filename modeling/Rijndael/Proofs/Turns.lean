import Rijndael.Store.Cycle
import Rijndael.Proofs.Capacity

/-!
# Turns on a store

In a turn a context is put in and taken out again before anything else happens. The
slot that was freed is used again in the next turn, until it has had its last
generation and a slot of its own is made for the next. So the handles of the turns
come in the order of `Handle.turn`, which counts the generations of one slot after
those of the other.

`Store.Turned` is what is true of a store between two turns.

## Main results

* `Handle.turn_injective` — each turn has a handle of its own.
* `Turned.turn` — a turn goes well as long as there are handles left.
* `turned_afterTurns` — the store after any number of turns.
* `nth_turn` — the handle of the `n`-th turn on a store that was empty at first.
-/

namespace Rijndael

/-- The number of contexts that a slot can hold, one after the other. -/
def Slot.lifetime : ℕ := 4294967295

/-- The number of turns before the one in which the handle is given out. -/
def Handle.turn (h : Handle) : ℕ :=
  h.index.toNat * Slot.lifetime + (h.generation.number.toNat - 1)

namespace Generation

private theorem toNat_pos (g : Generation) : 0 < g.number.toNat :=
  Nat.pos_of_ne_zero fun hzero => g.number_ne_zero (UInt32.toNat_inj.mp hzero)

private theorem toNat_le (g : Generation) : g.number.toNat ≤ Slot.lifetime :=
  Nat.le_of_lt_succ g.number.toNat_lt

end Generation

/-- The two parts of a handle are the quotient and the remainder of its turn. -/
private theorem Handle.turn_parts (h : Handle) :
    h.index.toNat = h.turn / Slot.lifetime ∧
      h.generation.number.toNat = h.turn % Slot.lifetime + 1 := by
  have hpos := h.generation.toNat_pos
  have hle := h.generation.toNat_le
  rw [turn, Slot.lifetime] at *
  omega

namespace Store

/-- The store after `n` turns. If a slot is free it is the last one, and its next
handle is that of the next turn. If none is free, all slots have had their last
generation. -/
structure Turned (s : Store) (n : ℕ) : Prop where
  wellFormed : s.WellFormed
  live_eq : s.live = 0
  next : (s.free = [] ∧ s.slots.size * Slot.lifetime = n) ∨
    ∃ h : Handle, s.free = [h.index] ∧ s.slots[h.index.toNat]? = some ⟨h.generation, none⟩ ∧
      s.slots.size = h.index.toNat + 1 ∧ h.turn = n

theorem turned_empty (limit : Option ℕ) : (empty limit).Turned 0 where
  wellFormed := wellFormed_empty limit
  live_eq := rfl
  next := .inl ⟨rfl, Nat.zero_mul _⟩

/-- The store in the middle of a turn: the only live context is that of the handle,
and its slot is the last one. -/
structure Turning (s : Store) (h : Handle) : Prop where
  wellFormed : s.WellFormed
  live_eq : s.live = 1
  free_eq : s.free = []
  size_eq : s.slots.size = h.index.toNat + 1

variable {s : Store} {n : ℕ} {c : Context} {h : Handle}

/-- There is a handle for the turn. -/
theorem Turned.inserted (hs : s.Turned n) (hlimit : s.limit ≠ some 0)
    (hn : n < maxSlots * Slot.lifetime) {r : Reply Handle} (hr : Inserted s c r) :
    ∃ h, r.result = .ok h ∧ h.turn = n ∧ r.store.Turning h := by
  have hwellFormed := hr.wellFormed hs.wellFormed
  have hlive := hs.live_eq
  cases hr with
  | full limit hfull hle =>
      rw [hlive, Nat.le_zero] at hle
      rw [hle] at hfull
      exact absurd hfull hlimit
  | exhausted _ hfree hsize =>
      rcases hs.next with ⟨-, hturns⟩ | ⟨h, hindex, -⟩
      · rw [Slot.lifetime] at hn hturns
        omega
      · rw [hfree] at hindex
        cases hindex
  | appended _ hfree hsize =>
      have hindex : (UInt32.ofNat s.slots.size).toNat = s.slots.size :=
        UInt32.toNat_ofNat_of_lt' hsize
      refine ⟨_, rfl, ?_, hwellFormed, ?_, hfree, ?_⟩
      · rcases hs.next with ⟨-, hturns⟩ | ⟨h, hindex, -⟩
        · have hfirst : Generation.first.number.toNat = 1 := rfl
          rw [Handle.turn, hindex, hfirst, Nat.sub_self, Nat.add_zero, hturns]
        · rw [hfree] at hindex
          cases hindex
      · simp only [hlive]
      · simp only [Array.size_push, hindex]
  | reused index rest generation _ hfree hslot =>
      rcases hs.next with ⟨hnil, -⟩ | ⟨h, hindex, hslot', hsize, hturn⟩
      · rw [hnil] at hfree
        cases hfree
      · rw [hfree] at hindex
        cases hindex
        rw [hslot] at hslot'
        cases hslot'
        refine ⟨h, rfl, hturn, hwellFormed, ?_, rfl, ?_⟩
        · simp only [hlive]
        · simp only [Array.size_setIfInBounds, hsize]

/-- The turn ends, and the next handle is that of the next turn. -/
theorem Turning.destroyed (hs : s.Turning h) (hget : s.get? h = some c) {r : Reply Unit}
    (hr : Destroyed s h r) : r.result = .ok () ∧ r.store.Turned (h.turn + 1) := by
  have hwellFormed := hr.wellFormed hs.wellFormed
  have hlive := hs.live_eq
  have hsize := hs.size_eq
  have hpos := h.generation.toNat_pos
  cases hr with
  | rejected hnone =>
      rw [hnone] at hget
      cases hget
  | freed c generation hslot hnext =>
      refine ⟨rfl, hwellFormed, ?_, .inr ⟨⟨h.index, generation⟩, ?_, ?_, ?_, ?_⟩⟩
      · simp only [hlive]
      · simp only [hs.free_eq]
      · exact (getElem?_setSlot hslot _ _).trans (if_pos rfl)
      · simp only [Array.size_setIfInBounds, hsize]
      · have hsucc := Generation.toNat_of_next? hnext
        simp only [Handle.turn, hsucc]
        omega
  | retired c hslot hlast =>
      refine ⟨rfl, hwellFormed, ?_, .inl ⟨hs.free_eq, ?_⟩⟩
      · simp only [hlive]
      · have hnumber : h.generation.number.toNat = Slot.lifetime := by
          rw [hlast]
          rfl
        simp only [Array.size_setIfInBounds, hsize, Handle.turn, hnumber, Slot.lifetime]
        omega

/-- One turn, as long as there are handles left. -/
theorem Turned.turn (hs : s.Turned n) (hlimit : s.limit ≠ some 0)
    (hn : n < maxSlots * Slot.lifetime) (c : Context) :
    ∃ h, (s.insert c).result = .ok h ∧ h.turn = n ∧ (s.insert c).store.get? h = some c ∧
      ((s.insert c).store.destroy h).result = .ok () ∧
      ((s.insert c).store.destroy h).store.Turned (n + 1) ∧
      ((s.insert c).store.destroy h).store.limit = s.limit := by
  have hr := insert_inserted hs.wellFormed c
  obtain ⟨h, hok, hturn, hturning⟩ := hs.inserted hlimit hn hr
  have hget : (s.insert c).store.get? h = some c := by rw [hr.get?_eq hok, if_pos rfl]
  have hdestruction := destroy_destroyed (s.insert c).store h
  obtain ⟨hdestroyed, hnext⟩ := hturning.destroyed hget hdestruction
  have hsame := (Changed.destroyed hdestruction hdestroyed).limit_eq
  exact ⟨h, hok, hturn, hget, hdestroyed, hturn ▸ hnext,
    hsame.trans (Changed.created hr hok).limit_eq⟩

/-! ## All turns -/

/-- A turn with a key goes well: the key is taken under the handle, and the handle is
destroyed at once, which leaves the store `t`. -/
structure TakesTurn (s : Store) (key : List UInt8) (h : Handle) (t : Store) : Prop where
  created : (s.create key).result = .ok h
  destroyed : ((s.create key).store.destroy h).result = .ok ()
  store_eq : ((s.create key).store.destroy h).store = t

/-- The store after the turns `1` to `n`, each with a key of its own. -/
def afterTurns (s : Store) (keys : ℕ → List UInt8) : ℕ → Store
  | 0 => s
  | n + 1 => ((s.afterTurns keys n).cycle (keys (n + 1)) 1 none).store

theorem TakesTurn.cycle_eq {t : Store} {key : List UInt8} (ht : s.TakesTurn key h t) :
    s.cycle key 1 none = ⟨.ok (some h), t, []⟩ := by
  simp only [cycle, ht.created, ht.destroyed, ht.store_eq]

/-- One turn with a key, as long as there are handles left. -/
theorem Turned.takesTurn (hs : s.Turned n) (hlimit : s.limit ≠ some 0)
    (hn : n < maxSlots * Slot.lifetime) {key : List UInt8} (hkey : key.length ∈ [16, 24, 32]) :
    ∃ h t, s.TakesTurn key h t ∧ h.turn = n ∧ t.Turned (n + 1) ∧ t.limit = s.limit := by
  obtain ⟨c, hcreate⟩ := s.exists_create_eq_insert hkey
  obtain ⟨h, hok, hturn, -, hdestroyed, hnext, hsame⟩ := hs.turn hlimit hn c
  rw [← hcreate] at hok hdestroyed hnext hsame
  exact ⟨h, _, ⟨hok, hdestroyed, rfl⟩, hturn, hnext, hsame⟩

variable {limit : Option ℕ} {keys : ℕ → List UInt8}

/-- After `n` turns on an empty store its next handle is that of turn `n`, counted from
zero, by induction on the turns. -/
theorem turned_afterTurns (hlimit : limit ≠ some 0)
    (hkeys : ∀ i, (keys i).length ∈ [16, 24, 32]) (hn : n ≤ maxSlots * Slot.lifetime) :
    ((empty limit).afterTurns keys n).Turned n ∧
      ((empty limit).afterTurns keys n).limit = limit := by
  induction n with
  | zero => exact ⟨turned_empty limit, rfl⟩
  | succ n ih =>
      obtain ⟨hturned, hsame⟩ := ih (by omega)
      obtain ⟨h, t, hturn, -, hnext, hkept⟩ :=
        hturned.takesTurn (hsame.symm ▸ hlimit) (by omega) (hkeys (n + 1))
      rw [afterTurns, hturn.cycle_eq]
      exact ⟨hnext, hkept.trans hsame⟩

/-- Between two turns no handle names a context. -/
theorem Turned.contains_eq_false (hs : s.Turned n) (k : Handle) : s.contains k = false := by
  rcases hget : s.get? k with _ | c
  · simp only [contains, hget, Option.isSome_none]
  · have hlive := one_le_occupied (get?_eq_some.mp hget) rfl
    rw [← hs.wellFormed.live_eq, hs.live_eq] at hlive
    omega

/-- The turns on a store that was empty at first and may hold a context, each with a
key of right length. The `n`-th of them is answered with the handle whose index and
generation are the quotient and the remainder of `n - 1` by the number of generations,
except that generations are counted from one. The destruction of the handle succeeds
and leaves an empty store. So it goes until every slot has had all its generations. -/
theorem nth_turn (hlimit : ∀ bound, limit = some bound → 1 ≤ bound)
    (hkeys : ∀ i, (keys i).length ∈ [16, 24, 32]) (hpos : 1 ≤ n)
    (hle : n ≤ 2 ^ 32 * (2 ^ 32 - 1)) :
    let before := (empty limit).afterTurns keys (n - 1)
    let after := (empty limit).afterTurns keys n
    ∃ h, before.TakesTurn (keys n) h after ∧
      h.index.toNat = (n - 1) / (2 ^ 32 - 1) ∧
      h.generation.number.toNat = (n - 1) % (2 ^ 32 - 1) + 1 ∧
      after.isEmpty = true ∧ ∀ k, after.contains k = false := by
  intro before after
  have hlimit : limit ≠ some 0 := fun hzero => absurd (hlimit 0 hzero) (by decide)
  have htotal : maxSlots * Slot.lifetime = 2 ^ 32 * (2 ^ 32 - 1) := by decide
  obtain ⟨hbefore, hsame⟩ := turned_afterTurns (n := n - 1) hlimit hkeys (by omega)
  obtain ⟨hafter, -⟩ := turned_afterTurns (n := n) hlimit hkeys (by omega)
  obtain ⟨h, t, hturn, hnumber, -⟩ :=
    hbefore.takesTurn (hsame.symm ▸ hlimit) (by omega) (hkeys n)
  obtain ⟨hindex, hgeneration⟩ := h.turn_parts
  rw [hnumber] at hindex hgeneration
  -- For `n` from one on, `after` is the store that this very turn leads to.
  have hstore : t = after := by
    obtain ⟨m, rfl⟩ := Nat.exists_eq_add_of_le' hpos
    show t = (before.cycle (keys (m + 1)) 1 none).store
    rw [hturn.cycle_eq]
  exact ⟨h, hstore ▸ hturn, hindex, hgeneration, beq_iff_eq.mpr hafter.live_eq,
    hafter.contains_eq_false⟩

/-- The turn after the first slot has had all its generations, on a store for one
context: it is the first of the second slot. -/
theorem nth_turn_second_slot :
    let keys : ℕ → List UInt8 := fun _ => .replicate 16 0
    let start := empty (some 1)
    (∀ bound, some 1 = some bound → 1 ≤ bound) ∧
      (∀ i, (keys i).length ∈ [16, 24, 32]) ∧
      1 ≤ 4294967296 ∧ 4294967296 ≤ 2 ^ 32 * (2 ^ 32 - 1) ∧
      (start.afterTurns keys (4294967296 - 1)).TakesTurn (.replicate 16 0) ⟨1, .first⟩
        (start.afterTurns keys 4294967296) := by
  intro keys start
  have hlimit : ∀ bound, some 1 = some bound → 1 ≤ bound := by
    rintro bound ⟨⟩
    exact Nat.le_refl 1
  have hkeys : ∀ i, (keys i).length ∈ [16, 24, 32] := fun _ => by decide
  have hpos : 1 ≤ 4294967296 := by decide
  have hle : 4294967296 ≤ 2 ^ 32 * (2 ^ 32 - 1) := by decide
  obtain ⟨h, hturn, hindex, hgeneration, -⟩ := nth_turn hlimit hkeys hpos hle
  have hquotient : (4294967296 - 1) / (2 ^ 32 - 1) = 1 := by decide
  have hremainder : (4294967296 - 1) % (2 ^ 32 - 1) + 1 = 1 := by decide
  obtain rfl : h = ⟨1, .first⟩ := by
    rw [Handle.mk.injEq, Generation.ext_iff]
    exact ⟨UInt32.toNat_inj.mp (hindex.trans hquotient),
      UInt32.toNat_inj.mp (hgeneration.trans hremainder)⟩
  exact ⟨hlimit, hkeys, hpos, hle, hturn⟩

end Store

end Rijndael
