import NodeCube.Assembler
import NodeCube.Proofs.Text.Lines

/-!
# The form of a source

What a source can be changed in without changing what is made of it. The assembler sees a source
only through its lines in capital letters (`Assembler.assembleInto_congr`), so neither the case of
letters, nor how lines end, nor empty lines at the end make a difference.
-/

namespace NodeCube.Assembler

theorem assembleInto_congr {source source' : Bytes} (h : sourceLines source = sourceLines source') :
    assembleInto source = assembleInto source' := by
  funext out
  unfold assembleInto
  rw [h]

theorem sourceLines_upper (source : Bytes) :
    sourceLines (Text.upper source) = sourceLines source := by
  unfold sourceLines
  rw [Text.lines_upper, List.map_map]
  exact List.map_congr_left fun line _ => Text.upper_upper line

/-- A source has the same outcome in capital letters, with line feeds at its end and, if it has no
carriage return, with one in front of each line feed. The outcome is the program that is left, with
its lines, and the diagnostic of a refused source. -/
theorem assembleInto_reformatted (source : Bytes) :
    assembleInto (Text.upper source) = assembleInto source ∧
      (∀ n, assembleInto (source ++ List.replicate n 10) = assembleInto source) ∧
      (13 ∉ source → assembleInto (Text.withReturns source) = assembleInto source) := by
  refine ⟨assembleInto_congr (sourceLines_upper source), fun n => ?_, fun h => ?_⟩
  · apply assembleInto_congr
    rw [sourceLines, Text.lines_append_feeds]
    rfl
  · apply assembleInto_congr
    rw [sourceLines, Text.lines_withReturns h]
    rfl

/-- A source with an empty line, and a label that is defined twice. -/
theorem assembleInto_reformatted_refused :
    assembleInto (ascii "a: jmp a\r\n\r\na:") = assembleInto (ascii "a: jmp a\n\na:") ∧
      assembleInto (ascii "a: jmp a\n\na:") {} =
        .error ⟨.duplicateLabel, 2, 0⟩ (.ofCode [ascii "A: JMP A", [], ascii "A:"]) := by
  obtain ⟨-, -, hreturns⟩ := assembleInto_reformatted (ascii "a: jmp a\n\na:")
  exact ⟨hreturns (by decide), by rfl⟩

end NodeCube.Assembler
