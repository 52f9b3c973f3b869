import NodeCube.Proofs.Snapshot.Takes
import NodeCube.Snapshot.Item

/-!
# Rows of items

Each item is taken off the front of the input by the reader of its type (`Item.takes_read`), and so
are items that were written one after another (`Item.takes_row`): whatever stands behind them, the
values come back in order and the reader stops at the first byte that is not theirs.
-/

namespace NodeCube.Snapshot

namespace Reader.Takes

variable {α β : Type}

theorem pure (x : α) : Takes (Pure.pure x) [] x := fun _ _ => rfl

theorem map {r : Reader α} {bytes : Bytes} {x : α} (h : r.Takes bytes x) (g : α → β) :
    Takes (g <$> r) bytes (g x) := by
  rw [← bind_pure_comp, ← List.append_nil bytes]
  exact h.bind (pure (g x))

end Reader.Takes

namespace Item

/-- The item has a length that its 32 bits can tell; only texts and blobs have a length. -/
def Fits : Item → Prop
  | .text s | .blob s => s.length < UInt32.size
  | .byte _ | .number16 _ | .word _ | .number32 _ => True

instance : (i : Item) → Decidable i.Fits
  | .text s | .blob s => inferInstanceAs (Decidable (s.length < UInt32.size))
  | .byte _ | .number16 _ | .word _ | .number32 _ => inferInstanceAs (Decidable True)

theorem takes_read {i : Item} (h : i.Fits) : i.type.read.Takes i.encode i := by
  cases i with
  | byte n => exact (Reader.takes_byte n).map Item.byte
  | number16 n => exact (Reader.takes_number16 n).map Item.number16
  | word w => exact (Reader.takes_word w).map Item.word
  | number32 n => exact (Reader.takes_number32 n).map Item.number32
  | text s => exact (Reader.takes_block h).map Item.text
  | blob s => exact (Reader.takes_block h).map Item.blob

/-- Items in a row, read by the row of their types. -/
theorem takes_row {items : List Item} (h : ∀ i ∈ items, i.Fits) :
    Reader.Takes ((items.map type).mapM ItemType.read) (items.flatMap encode) items := by
  induction items with
  | nil => exact .pure []
  | cons i items ih =>
    have hi : i.Fits := h i List.mem_cons_self
    have hitems : ∀ j ∈ items, j.Fits := fun j hj => h j (List.mem_cons_of_mem i hj)
    rw [List.map_cons, List.mapM_cons, List.flatMap_cons]
    refine (takes_read hi).bind ?_
    rw [bind_pure_comp]
    exact (ih hitems).map (i :: ·)

/-- Items that were written in a row come back unchanged and in order, and the reader then stands at
the start of what follows them: it is at the end of the input just if nothing does. -/
theorem row_reads_back (items : List Item) (t : Bytes) (k : Nat) (h : ∀ i ∈ items, i.Fits) :
    ∃ c : Cursor,
      (items.map type).mapM ItemType.read ⟨items.flatMap encode ++ t, k⟩ = .ok items c ∧
      c.rest = t ∧ c.position = k + (items.flatMap encode).length ∧ (c.atEnd = true ↔ t = []) :=
  ⟨_, takes_row h t k, rfl, rfl, List.isEmpty_iff⟩

/-- Items of all types: numbers that need every byte and the sign, an empty text, and a blob that
looks like the items before it. -/
def medley : List Item :=
  [.number32 0x80ff0001, .word (-2), .text [], .byte 255, .number16 0xfffe,
    .blob [0x80, 0xff, 0, 1, 0xff, 0xfe], .text (ascii "NOP")]

theorem row_reads_back_medley :
    (∀ i ∈ medley, i.Fits) ∧
    ∃ c : Cursor,
      (medley.map type).mapM ItemType.read ⟨medley.flatMap encode ++ [0], 7⟩ = .ok medley c ∧
      c.rest = [0] ∧ c.position = 7 + 30 ∧ c.atEnd = false := by
  have hfits : ∀ i ∈ medley, i.Fits := by decide
  obtain ⟨c, hread, hrest, hpos, hend⟩ := row_reads_back medley [0] 7 hfits
  refine ⟨hfits, c, hread, hrest, hpos, ?_⟩
  rw [Cursor.atEnd, hrest]
  rfl

end Item

end NodeCube.Snapshot
