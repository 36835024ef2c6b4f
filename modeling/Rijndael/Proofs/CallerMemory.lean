import Rijndael.Proofs.Register
import Rijndael.Proofs.RoundTrip

/-!
# What a call does to the memory of its caller

A transformation reads sixteen bytes and writes sixteen bytes, and the two
windows may overlap in any way. The block is read as a whole before a byte is
written. So the output window holds the transform of what the input window held
before the call, and every byte outside the output window is as it was, be it in
the input window or not. A call that does not succeed writes nothing and leaves
the store alone.

Whatever the windows, the way back from the output window to the input window
restores the block: it reads just what the way there has written.

## Main results

* `Memory.holds_read`, `Memory.replaced_write` — what is read, and what a write
  leaves behind.
* `transform_of_get?` — a transformation with a live handle.
* `transform_back` — there and back again.
* `calls_frame` — what any call leaves alone.
-/

namespace Rijndael.Foreign

namespace Memory

variable {size : ℕ}

/-- The window holds the bytes of the block. -/
def Holds (m : Memory size) (w : Window size) (b : Block) : Prop :=
  ∀ i < 16, m[w.start + i]? = b.toBytes[i]?

/-- The second memory is the first with a block in the window. -/
structure Replaced (before after : Memory size) (w : Window size) (b : Block) : Prop where
  holds : after.Holds w b
  frame : ∀ i, ¬ w.covers i → after[i]? = before[i]?

private theorem toBytes_read (m : Memory size) (w : Window size) :
    (m.read w).toBytes = (m.toList.drop w.start).take 16 := by
  apply Block.toBytes_ofPrefix
  have hfits := w.fits
  simp only [List.length_take, List.length_drop, Vector.length_toList]
  omega

/-- What is read from a window is what the window holds. -/
theorem holds_read (m : Memory size) (w : Window size) : m.Holds w (m.read w) := by
  intro i hi
  rw [toBytes_read, List.getElem?_take_of_lt hi, List.getElem?_drop, Vector.getElem?_toList]

theorem Holds.read_eq {m : Memory size} {w : Window size} {b : Block} (hm : m.Holds w b) :
    m.read w = b := by
  have hbytes : (m.read w).toBytes = b.toBytes := by
    apply List.ext_getElem?
    intro i
    by_cases hi : i < 16
    · rw [← m.holds_read w i hi, hm i hi]
    · rw [List.getElem?_eq_none (by simpa using hi), List.getElem?_eq_none (by simpa using hi)]
  rw [← Block.ofPrefix_toBytes (m.read w), hbytes, Block.ofPrefix_toBytes]

private theorem getElem?_write (m : Memory size) (w : Window size) (b : Block) (i : ℕ) :
    (m.write w b)[i]? = if w.covers i then b.toBytes[i - w.start]? else m[i]? := by
  have hfits := w.fits
  by_cases hi : i < size
  · rw [Vector.getElem?_eq_getElem hi, Vector.getElem?_eq_getElem hi, write,
      Vector.getElem_mapFinIdx]
    split
    · rename_i hcovers
      have hlt : i - w.start < b.toBytes.length := by
        simp only [Window.covers, Bool.and_eq_true, decide_eq_true_eq] at hcovers
        rw [Block.length_toBytes]
        omega
      rw [List.getElem?_eq_getElem hlt, List.getD_eq_getElem _ _ hlt]
    · rfl
  · have hcovers : ¬ w.covers i := by
      simp only [Window.covers, Bool.and_eq_true, decide_eq_true_eq]
      omega
    rw [if_neg hcovers, Vector.getElem?_eq_none (Nat.le_of_not_lt hi),
      Vector.getElem?_eq_none (Nat.le_of_not_lt hi)]

theorem replaced_write (m : Memory size) (w : Window size) (b : Block) :
    Replaced m (m.write w b) w b where
  holds i hi := by
    have hcovers : w.covers (w.start + i) = true := by simp [Window.covers, hi]
    rw [getElem?_write, if_pos hcovers, Nat.add_sub_cancel_left]
  frame i hi := by rw [getElem?_write, if_neg hi]

@[simp] theorem read_write (m : Memory size) (w : Window size) (b : Block) :
    (m.write w b).read w = b :=
  (m.replaced_write w b).holds.read_eq

end Memory

/-! ## Transformations -/

variable {size : ℕ}

/-- With a live handle and two pointers a transformation reads the one window and
writes the other. -/
theorem transform_of_get? {s : Store} {h : Handle} {c : Context} (hget : s.get? h = some c)
    (d : Direction) (memory : Memory size) (input output : Window size) :
    transform s d h.toRaw memory (some input) (some output) =
      ⟨.ok, s, memory.write output (c.apply d (memory.read input)), []⟩ := by
  rw [transform_eq_answered s d (Handle.ofRaw?_toRaw h)]
  simp only [Store.apply, hget, answered, Status.ofResult, List.map_nil]

/-- Nothing else is answered with success. -/
private theorem of_status_transform_eq_ok {s : Store} {d : Direction} {raw : UInt64}
    {memory : Memory size} {input output : Option (Window size)}
    (hok : (transform s d raw memory input output).status = .ok) :
    ∃ i o h c, input = some i ∧ output = some o ∧ raw = h.toRaw ∧ s.get? h = some c := by
  rcases input with _ | i
  · cases hok
  · rcases output with _ | o
    · cases hok
    · rcases hraw : Handle.ofRaw? raw with _ | h
      · simp [transform, hraw, malformed] at hok
      · rcases hget : s.get? h with _ | c
        · simp [transform, hraw, answered, Store.apply, hget, Store.reject, Status.ofResult,
            Status.ofError] at hok
        · exact ⟨i, o, h, c, rfl, rfl, (Handle.ofRaw?_eq_some.mp hraw).symm, hget⟩

private theorem answered_memory_of_ne {α β : Type} {reply : Reply β} {memory : α} {write : β → α}
    (hne : (answered reply memory write).status ≠ .ok) :
    (answered reply memory write).memory = memory := by
  rcases hresult : reply.result with e | value
  · simp only [answered, hresult]
  · exact absurd (Status.ofResult_eq_ok.mpr ⟨value, hresult⟩) hne

private theorem memory_transform_of_ne {s : Store} {d : Direction} {raw : UInt64}
    {memory : Memory size} {input output : Option (Window size)}
    (hne : (transform s d raw memory input output).status ≠ .ok) :
    (transform s d raw memory input output).memory = memory := by
  rcases input with _ | i
  · rfl
  · rcases output with _ | o
    · rfl
    · rcases hraw : Handle.ofRaw? raw with _ | h
      · simp only [transform, hraw, malformed]
      · rw [transform_eq_answered s d hraw] at hne ⊢
        exact answered_memory_of_ne hne

private theorem memory_create_of_ne {s : Store} {key : KeyPointer} {out : Option UInt64}
    (hne : (create s key out).status ≠ .ok) : (create s key out).memory = out := by
  rcases out with _ | old
  · rfl
  · rcases hbytes : key.bytes? with _ | bytes
    · simp only [create, hbytes, nullPointer]
    · rw [create_eq_answered s hbytes] at hne ⊢
      exact answered_memory_of_ne hne

private theorem store_perform_of_status?_ne {s : Store} {call : Call}
    (hne : (perform s call).2.status? ≠ some .ok) : (perform s call).1 = s := by
  cases call with
  | count => rfl
  | transform d raw memory input output => exact store_transform s d raw memory input output
  | create key out => exact store_create_of_ne fun hok => hne (congrArg some hok)
  | destroy raw => exact store_destroy_of_ne fun hok => hne (congrArg some hok)

/-- There and back again: the second transformation reads what the first has
written, and writes where the first has read. -/
theorem transform_back {s : Store} {h : Handle} {c : Context} (hget : s.get? h = some c)
    (d : Direction) (memory : Memory size) (input output : Window size) :
    let there := transform s d h.toRaw memory (some input) (some output)
    let back := transform there.store d.opposite h.toRaw there.memory (some output) (some input)
    back.status = .ok ∧ back.memory = there.memory.write input (memory.read input) := by
  simp only [transform_of_get? hget, Memory.read_write, Context.apply,
    KeySchedule.apply_opposite_apply, true_and]

/-- In any state of the store, a transformation that succeeds puts the transform of
what the input window held into the output window and changes no other byte, however
the windows overlap, and one that does not succeed changes no byte at all. A packed
handle is written only when a context was created, and no call but one that succeeds
changes the store. With a live handle, the opposite transformation from the output
window to the input window gives the input window its bytes again. -/
theorem calls_frame (s : Store) :
    (∀ {size : ℕ} (d : Direction) (raw : UInt64) (memory : Memory size)
      (input output : Option (Window size)),
      let called := transform s d raw memory input output
      if called.status = .ok then
        ∃ i o h c b, input = some i ∧ output = some o ∧ raw = h.toRaw ∧ s.get? h = some c ∧
          memory.Holds i b ∧ memory.Replaced called.memory o (c.apply d b)
      else called.memory = memory) ∧
      (∀ key out, (create s key out).status ≠ .ok → (create s key out).memory = out) ∧
      (∀ call, (perform s call).2.status? ≠ some .ok → (perform s call).1 = s) ∧
      ∀ {size : ℕ} (d : Direction) (h : Handle) (memory : Memory size)
        (input output : Window size), s.contains h →
        let there := transform s d h.toRaw memory (some input) (some output)
        let back :=
          transform there.store d.opposite h.toRaw there.memory (some output) (some input)
        there.status = .ok ∧ back.status = .ok ∧
          ∀ b, memory.Holds input b → back.memory.Holds input b := by
  refine ⟨fun d raw memory input output => ?_, fun key out => memory_create_of_ne,
    fun call => store_perform_of_status?_ne, fun d h memory input output hlive => ?_⟩
  · intro called
    split_ifs with hok
    · obtain ⟨i, o, h, c, rfl, rfl, rfl, hget⟩ := of_status_transform_eq_ok hok
      refine ⟨i, o, h, c, memory.read i, rfl, rfl, rfl, hget, memory.holds_read i, ?_⟩
      simp only [called, transform_of_get? hget]
      exact memory.replaced_write o _
    · exact memory_transform_of_ne hok
  · obtain ⟨c, hget⟩ := Option.isSome_iff_exists.mp hlive
    intro there back
    obtain ⟨hback, hmemory⟩ := transform_back hget d memory input output
    refine ⟨by simp only [there, transform_of_get? hget], hback, fun b hb => ?_⟩
    have hmemory : back.memory = there.memory.write input (memory.read input) := hmemory
    rw [hmemory, hb.read_eq]
    exact (there.memory.replaced_write input b).holds

/-- Thirteen bytes of the output window are in the input window too. The bytes before
and after it stay, and the way back restores the block. -/
theorem calls_frame_overlapping_windows :
    let s := ((Store.empty none).create (.replicate 16 0)).store
    let h : Handle := ⟨0, .first⟩
    let memory : Memory 20 := .ofFn fun i => UInt8.ofNat i
    let block : Block := .ofPrefix [0, 1, 2, 3, 4, 5, 6, 7, 8, 9, 10, 11, 12, 13, 14, 15]
    let input : Window 20 := ⟨0, by decide⟩
    let output : Window 20 := ⟨3, by decide⟩
    let there := transform s .encrypt h.toRaw memory (some input) (some output)
    let back := transform there.store .decrypt h.toRaw there.memory (some output) (some input)
    s.contains h = true ∧ memory.Holds input block ∧
      there.status = .ok ∧ there.memory[2]? = some 2 ∧ there.memory[19]? = some 19 ∧
      back.status = .ok ∧ back.memory.Holds input block := by
  intro s h memory block input output there back
  have hlive : s.contains h = true := by decide
  have hblock : memory.Holds input block := by unfold Memory.Holds; decide
  obtain ⟨htransform, -, -, hback⟩ := calls_frame s
  obtain ⟨hthere, hstatus, hrestored⟩ := hback .encrypt h memory input output hlive
  have hcalled := htransform .encrypt h.toRaw memory (some input) (some output)
  rw [if_pos hthere] at hcalled
  obtain ⟨i, o, k, c, b, -, houtput, -, -, -, hreplaced⟩ := hcalled
  cases houtput
  refine ⟨hlive, hblock, hthere, ?_, ?_, hstatus, hrestored block hblock⟩
  · exact (hreplaced.frame 2 (by decide)).trans (by decide)
  · exact (hreplaced.frame 19 (by decide)).trans (by decide)

end Rijndael.Foreign
