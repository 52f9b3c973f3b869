import NodeCube.Casing
import NodeCube.Runner.Options

/-!
# Printouts

The texts that a run prints: help, registers, pipes and diagnostics.
-/

namespace NodeCube.Runner

/-- A line of text. -/
def line (s : Bytes) : Bytes := s ++ [10]

def programName : Bytes := ascii "h100run"

def helpText : Bytes :=
  line (ascii "hexa100 casing runner (h100run)") ++
  line [] ++
  line (ascii "Usage:") ++
  line (ascii "  " ++ programName ++ ascii " [options] <face>=<file> ...") ++
  line [] ++
  line (ascii "Faces:") ++
  line (ascii "  y_neg y_pos z_neg z_pos x_neg x_pos") ++
  line [] ++
  line (ascii "Options:") ++
  line (ascii "  -t, --ticks <n>       Number of ticks to run (default: 100)") ++
  line (ascii "  -v, --verbose         Dump registers and pipes after every tick") ++
  line (ascii "  -c, --check           Only compile the programs") ++
  line (ascii "  -s, --save <file>     Write a casing snapshot after running") ++
  line (ascii "  -l, --load <file>     Restore a casing snapshot before running") ++
  line (ascii "  -h, --help            Show this help") ++
  line [] ++
  line (ascii "Programs are limited to " ++ Text.natural Assembler.maxLines ++ ascii " lines of " ++
    Text.natural Assembler.maxColumns ++ ascii " characters.") ++
  line (ascii "A snapshot restores the programs it was saved with on the faces given here.") ++
  line [] ++
  line (ascii "Examples:") ++
  line (ascii "  " ++ programName ++ ascii " z_neg=producer.tis x_neg=consumer.tis -t 20 -v")

/-- The place and cause of a diagnostic, then the line with a mark under the column. Lines are
counted in 32 bits, and none is shown if the number of the line is not below the count. -/
def diagnosticText (f : Face) (d : Diagnostic) (code : List Bytes) : Bytes :=
  line (ascii "ERROR: " ++ f.name ++ ascii ": " ++ Text.natural (d.line + 1) ++ ascii ":" ++
    Text.natural (d.column + 1) ++ ascii ": " ++ d.complaint.message) ++
  if 0 ≤ Int32.ofNat d.line ∧ Int32.ofNat d.line < Int32.ofNat code.length then
    line (ascii ">> " ++ code.getD d.line []) ++
      line (ascii ">> " ++ List.replicate d.column 32 ++ ascii "^")
  else []

/-- The diagnostic of a node, if it has one. -/
def nodeDiagnosticText (f : Face) (n : Node) : Bytes :=
  match n.diagnostic with
  | none => []
  | some d => diagnosticText f d n.machine.program.code

/-- The registers of the machine on a face. -/
def registersText (f : Face) (m : Machine) : Bytes :=
  line (Text.alignLeft 6 f.name ++
    ascii " PC = " ++ Text.alignRight 2 (Text.integer m.registers.pc) ++
    ascii " ACC = " ++ Text.alignRight 6 m.registers.acc.text ++
    ascii " BAK = " ++ Text.alignRight 6 m.registers.bak.text ++
    ascii " LAST = " ++ Text.alignLeft 5 ((m.registers.last.map Port.name).getD (ascii "N/A")) ++
    ascii " " ++ m.status.name)

/-- The registers of all nodes. -/
def nodesText (c : Casing) : Bytes :=
  Face.all.flatMap fun f =>
    match c.slots.get f with
    | some (.node n) => registersText f n.machine
    | _ => []

/-- The registers of all nodes after a tick. -/
def casingText (c : Casing) (tick : Nat) : Bytes :=
  line (ascii "tick " ++ Text.natural tick) ++ nodesText c

/-- The phase of every pipe, by the socket that reads from it. -/
def pipesText (c : Casing) : Bytes :=
  Face.all.flatMap fun f =>
    line (ascii "  " ++ Text.alignLeft 6 f.name ++
      Port.all.flatMap fun p =>
        ascii " " ++ Text.alignLeft 5 p.name ++
        ascii " " ++ Text.alignLeft 12 (c.pipes.pipe ⟨f, p⟩).phase.name)

end NodeCube.Runner
