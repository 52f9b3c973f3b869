import NodeCube.Text

/-!
# Source lines

A source line is an optional label before a colon, words between commas and white space, and a
comment after a number sign. Columns count the bytes of the raw line from zero.

`tokens` are the maximal runs of bytes that separate nothing, and `strayCommas` finds the commas
that follow no word since the comma before them. The parts of a line are handed on as `Fields`,
whose columns have 32 bits.
-/

namespace NodeCube

/-- A word of a line and where it starts. -/
structure Token where
  text : Bytes
  column : Nat
  deriving DecidableEq, Repr

/-- The column just past a token. -/
def Token.stop (t : Token) : Nat := t.column + t.text.length

/-- The parts of a line. -/
structure SourceLine where
  /-- The label, present with every colon even if its text is empty. -/
  label : Option Token := none
  words : List Token := []
  comment : Bytes := []
  /-- The commas out of place. -/
  strays : List Nat := []
  deriving DecidableEq, Repr

/-- A word of a line as it is handed on. -/
structure Field where
  text : Bytes := []
  column : Int32 := 0
  deriving DecidableEq, Repr

/-- The parts of a line as they are handed on. The first word is the command; without words, its
text is empty. Without a label or a comma out of place, the column is -1. -/
structure Fields where
  label : Bytes := []
  labelColumn : Int32 := -1
  command : Field := {}
  parameters : List Field := []
  comment : Bytes := []
  malformedColumn : Int32 := -1
  deriving DecidableEq, Repr

def Fields.hasLabel (p : Fields) : Bool := 0 ≤ p.labelColumn

def Fields.hasCommand (p : Fields) : Bool := !p.command.text.isEmpty

def Token.field (t : Token) : Field := ⟨t.text, Int32.ofNat t.column⟩

namespace SourceLine

/-- The first comma out of place. -/
def stray (s : SourceLine) : Option Nat := s.strays.head?

/-- The line in fields. A comma out of place is told by its column, until one is not negative. -/
def fields (s : SourceLine) : Fields where
  label := (s.label.map Token.text).getD []
  labelColumn := (s.label.map fun t => Int32.ofNat t.column).getD (-1)
  command := (s.words.head?.map Token.field).getD {}
  parameters := s.words.tail.map Token.field
  comment := s.comment
  malformedColumn := s.strays.foldl (fun m c => if m < 0 then Int32.ofNat c else m) (-1)

/-- Commas and white space separate words. -/
def isSeparator (b : UInt8) : Bool := b == ','.toUInt8 || Text.isBlank b

/-- Puts a byte that stands at `column` before the tokens that follow it: a token that starts at
the next column is the same word. -/
def glue (b : UInt8) (column : Nat) : List Token → List Token
  | [] => [⟨[b], column⟩]
  | t :: rest =>
    if t.column = column + 1 then ⟨b :: t.text, column⟩ :: rest else ⟨[b], column⟩ :: t :: rest

/-- The words of a text whose first byte stands at `column`. -/
def tokens (column : Nat) : Bytes → List Token
  | [] => []
  | b :: rest =>
    if isSeparator b then tokens (column + 1) rest else glue b column (tokens (column + 1) rest)

/-- The commas with no word since the comma before them; `fed` says whether there was a word
already. -/
def strayCommas (column : Nat) (fed : Bool) : Bytes → List Nat
  | [] => []
  | b :: rest =>
    if b = ','.toUInt8 then
      if fed then strayCommas (column + 1) false rest
      else column :: strayCommas (column + 1) false rest
    else strayCommas (column + 1) (fed || !Text.isBlank b) rest

/-- The words of a line from a column on. -/
def ofWords (line : Bytes) (start : Nat) : SourceLine :=
  { words := tokens start (line.drop start), strays := strayCommas start false (line.drop start) }

/-- The label that stands before a colon. -/
def labelOf (before : Bytes) : Token :=
  ⟨Text.trim before, before.length - (Text.trimLeft before).length⟩

/-- A line without a comment. -/
def ofCode (code : Bytes) : SourceLine :=
  match Text.cut ':'.toUInt8 code with
  | none => ofWords code 0
  | some (before, _) => { ofWords code (before.length + 1) with label := some (labelOf before) }

/-- A whole line. -/
def parse (line : Bytes) : SourceLine :=
  match Text.cut '#'.toUInt8 line with
  | none => ofCode line
  | some (code, after) => { ofCode code with comment := Text.trim after }

end SourceLine

end NodeCube
