import NodeCube.Diagnostic
import NodeCube.Program
import NodeCube.SourceLine
import NodeCube.Word.Literal

/-!
# The assembler

`assemble` reads a source line by line and stops at the first complaint. Within a line it looks at
the length, the label, stray commas, the mnemonic, the number of operands and the operands, in this
order. Jumps are checked after the last line, so that they can go forward.
-/

namespace NodeCube

namespace Assembler

def maxLines : Nat := 20

def maxColumns : Nat := 18

/-- A complaint about a column of the line at hand. -/
structure Issue where
  complaint : Complaint
  column : Nat
  deriving DecidableEq, Repr

/-- An operand of an operation that takes a word or a target. -/
inductive Operand where
  | value (w : Word)
  | target (t : Target)
  deriving DecidableEq, Repr

/-- Reads a target; `BAK` is out of reach for operands. -/
def target (t : Token) : Except Issue Target :=
  match Target.ofName? t.text with
  | none | some .bak => .error ⟨.invalidTarget, t.column⟩
  | some x => .ok x

/-- Reads a word, if the token looks like one, or a target. -/
def operand (t : Token) : Except Issue Operand :=
  if Word.looksLiteral t.text then
    match Word.ofLiteral? t.text with
    | none => .error ⟨.invalidValue, t.column⟩
    | some w => .ok (.value w)
  else
    match target t with
    | .error e => .error e
    | .ok x => .ok (.target x)

/-- An operation with an operand in the mode that fits it. -/
def withOperand (op : Mode → Operation) : Operand → Instruction
  | .value w => { op := op .immediate, value := w }
  | .target t => { op := op .target, source := t }

/-- The single operand after `word`. -/
def one (word : Token) : List Token → Except Issue Token
  | [] => .error ⟨.missingParameter, word.stop⟩
  | [p] => .ok p
  | _ :: q :: _ => .error ⟨.excessParameter, q.column⟩

/-- The two operands after `word`. -/
def two (word : Token) : List Token → Except Issue (Token × Token)
  | [] => .error ⟨.missingParameter, word.stop⟩
  | [p] => .error ⟨.missingParameter, p.stop⟩
  | [p, q] => .ok (p, q)
  | _ :: _ :: r :: _ => .error ⟨.excessParameter, r.column⟩

/-- The instruction of a mnemonic `m`, written `word`, with its operands. -/
def instruction (m : Mnemonic) (word : Token) (params : List Token) : Except Issue Instruction :=
  match m with
  | .simple op =>
    match params with
    | [] => .ok { op := .simple op }
    | p :: _ => .error ⟨.excessParameter, p.column⟩
  | .arith op => do
    let p ← one word params
    let x ← operand p
    return withOperand (.arith op) x
  | .jumpBy => do
    let p ← one word params
    let x ← operand p
    return withOperand .jumpBy x
  | .move => do
    let (s, d) ← two word params
    let destination ← target d
    let x ← operand s
    return { withOperand .move x with destination }
  | .jump cond => do
    let p ← one word params
    return { op := .jump cond, label := p.text }

/-- A jump to a label, kept until all labels are known. -/
structure Pending where
  label : Token
  line : Nat
  deriving DecidableEq, Repr

/-- What is assembled so far. -/
structure Draft where
  instructions : List Instruction := []
  labels : Labels := []
  lines : List Nat := []
  jumps : List Pending := []
  deriving DecidableEq, Repr

namespace Draft

/-- What a program has, to go on with. -/
def ofProgram (p : Program) : Draft :=
  { instructions := p.instructions, labels := p.labels, lines := p.lines }

/-- Enters the label of a line, which stands for the next instruction. -/
def addLabel (d : Draft) : Option Token → Except Issue Draft
  | none => .ok d
  | some l =>
    if l.text.isEmpty || l.text.any Text.isBlank then .error ⟨.invalidLabel, l.column⟩
    else if (d.labels.find? l.text).isSome then .error ⟨.duplicateLabel, l.column⟩
    else .ok { d with labels := d.labels.insert l.text d.instructions.length }

/-- Adds the instruction that stands on a line. -/
def emit (d : Draft) (line : Nat) (i : Instruction) (params : List Token) : Draft :=
  { d with
    instructions := d.instructions ++ [i]
    lines := d.lines ++ [line]
    jumps := if i.op.isJump then d.jumps ++ params.map (⟨·, line⟩) else d.jumps }

/-- Adds the instruction of a line, if it has one. -/
def addWords (d : Draft) (line : Nat) : List Token → Except Issue Draft
  | [] => .ok d
  | word :: params =>
    match Mnemonic.ofName? word.text with
    | none => .error ⟨.unknownInstruction word.text, 0⟩
    | some m => do
      let i ← instruction m word params
      return d.emit line i params

/-- Adds a line that is not too long. -/
def addParsed (d : Draft) (line : Nat) (s : SourceLine) : Except Issue Draft := do
  let d ← d.addLabel s.label
  match s.stray with
  | some column => .error ⟨.unexpectedToken, column⟩
  | none => d.addWords line s.words

/-- Adds a line. -/
def addLine (d : Draft) (line : Nat) (text : Bytes) : Except Diagnostic Draft :=
  if maxColumns < text.length then .error ⟨.lineTooLong, line, maxColumns⟩
  else match d.addParsed line (SourceLine.parse text) with
    | .error e => .error ⟨e.complaint, line, e.column⟩
    | .ok d => .ok d

/-- Adds lines, the first of which has the number `line`. -/
def addLines (d : Draft) (line : Nat) : List Bytes → Except Diagnostic Draft
  | [] => .ok d
  | text :: rest =>
    match d.addLine line text with
    | .error e => .error e
    | .ok d => d.addLines (line + 1) rest

/-- The first jump, in source order, to a label that no line defines. -/
def undefined? (d : Draft) : Option Pending :=
  d.jumps.find? fun r => (d.labels.find? r.label.text).isNone

end Draft

/-- The lines of a source, in capital letters. -/
def sourceLines (source : Bytes) : List Bytes := (Text.lines source).map Text.upper

/-- Assembles lines that are already in capital letters, on top of what is there. -/
def assembleLines (start : Draft) (code : List Bytes) : Except Diagnostic Program :=
  if maxLines < code.length then .error ⟨.tooManyLines, maxLines, 0⟩
  else match start.addLines 0 code with
    | .error e => .error e
    | .ok d =>
      match d.undefined? with
      | some r => .error ⟨.undefinedLabel r.label.text, r.line, r.label.column⟩
      | none => .ok { instructions := d.instructions, labels := d.labels, lines := d.lines, code }

/-- Assembles a source. -/
def assemble (source : Bytes) : Except Diagnostic Program := assembleLines {} (sourceLines source)

/-- Assembles a source into a program, which is emptied first. If the source is refused, the program
is emptied again and gets the lines. -/
def assembleInto (source : Bytes) : EStateM Diagnostic Program Unit := fun out =>
  let out := out.clear
  match assembleLines (.ofProgram out) (sourceLines source) with
  | .ok program => .ok () program
  | .error e => .error e { out.clear with code := sourceLines source }

/-- The program of a source and, if it is refused, why: then the program has only the lines. -/
def compile (source : Bytes) : Program × Option Diagnostic :=
  match assembleInto source {} with
  | .ok _ program => (program, none)
  | .error e program => (program, some e)

/-- What the program held before does not matter. -/
theorem assembleInto_eq (source : Bytes) (out : Program) : assembleInto source out =
    match assemble source with
    | .ok program => .ok () program
    | .error e => .error e (.ofCode (sourceLines source)) := rfl

theorem compile_eq (source : Bytes) : compile source =
    match assemble source with
    | .ok program => (program, none)
    | .error e => (.ofCode (sourceLines source), some e) := by
  unfold compile
  rw [assembleInto_eq]
  cases assemble source <;> rfl

end Assembler

end NodeCube
