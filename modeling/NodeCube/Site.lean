import NodeCube.Fault
import NodeCube.Pipe
import NodeCube.Registers
import NodeCube.Target

/-!
# Sites

All that one step of a node can see and change: its registers and the eight pipes at its ports. An
`Action` runs on a site and may fault; what it changed before the fault stays changed. The words
that pass on the way are noted, so that a history of a node can be told.
-/

namespace NodeCube

/-- The pipes at the ports of a node: those it reads from and those it writes to. -/
structure Ports where
  incoming : PerPort Pipe
  outgoing : PerPort Pipe
  deriving DecidableEq, Repr

namespace Ports

/-- Withdraws the requests of this side. -/
def cancelRequests (ps : Ports) : Ports :=
  ⟨ps.incoming.map Pipe.cancelRead, ps.outgoing.map Pipe.cancelWrite⟩

/-- Publishes what is pending. -/
def step (ps : Ports) : Ports := ⟨ps.incoming.map Pipe.step, ps.outgoing.map Pipe.step⟩

end Ports

/-- A word that passes at a site. -/
inductive Passage where
  /-- It was read from a target. -/
  | read (t : Target) (v : Word)
  /-- It was taken from the pipe at a port. -/
  | took (p : Port) (v : Word)
  /-- The pipe at a port accepted it. -/
  | filed (p : Port) (v : Word)
  deriving DecidableEq, Repr

structure Site where
  registers : Registers
  ports : Ports
  /-- The words that passed so far, the first one first. -/
  passed : List Passage := []
  deriving DecidableEq, Repr

namespace Site

/-- The pipe that port `p` reads from. -/
def incoming (s : Site) (p : Port) : Pipe := s.ports.incoming.get p

/-- The pipe that port `p` writes to. -/
def outgoing (s : Site) (p : Port) : Pipe := s.ports.outgoing.get p

def setIncoming (s : Site) (p : Port) (pipe : Pipe) : Site :=
  { s with ports := { s.ports with incoming := s.ports.incoming.set p pipe } }

def setOutgoing (s : Site) (p : Port) (pipe : Pipe) : Site :=
  { s with ports := { s.ports with outgoing := s.ports.outgoing.set p pipe } }

def setRegisters (s : Site) (r : Registers) : Site := { s with registers := r }

/-- Notes a word that passes. -/
def note (s : Site) (w : Passage) : Site := { s with passed := s.passed ++ [w] }

@[simp] theorem registers_setIncoming (s : Site) (p : Port) (pipe : Pipe) :
    (s.setIncoming p pipe).registers = s.registers := rfl

@[simp] theorem registers_setOutgoing (s : Site) (p : Port) (pipe : Pipe) :
    (s.setOutgoing p pipe).registers = s.registers := rfl

@[simp] theorem registers_setRegisters (s : Site) (r : Registers) :
    (s.setRegisters r).registers = r := rfl

@[simp] theorem ports_setRegisters (s : Site) (r : Registers) :
    (s.setRegisters r).ports = s.ports := rfl

@[simp] theorem incoming_setRegisters (s : Site) (r : Registers) (p : Port) :
    (s.setRegisters r).incoming p = s.incoming p := rfl

@[simp] theorem outgoing_setRegisters (s : Site) (r : Registers) (p : Port) :
    (s.setRegisters r).outgoing p = s.outgoing p := rfl

@[simp] theorem outgoing_setIncoming (s : Site) (p q : Port) (pipe : Pipe) :
    (s.setIncoming p pipe).outgoing q = s.outgoing q := rfl

@[simp] theorem incoming_setOutgoing (s : Site) (p q : Port) (pipe : Pipe) :
    (s.setOutgoing p pipe).incoming q = s.incoming q := rfl

@[simp] theorem incoming_setIncoming_self (s : Site) (p : Port) (pipe : Pipe) :
    (s.setIncoming p pipe).incoming p = pipe := by simp [incoming, setIncoming]

@[simp] theorem outgoing_setOutgoing_self (s : Site) (p : Port) (pipe : Pipe) :
    (s.setOutgoing p pipe).outgoing p = pipe := by simp [outgoing, setOutgoing]

@[simp] theorem registers_note (s : Site) (w : Passage) : (s.note w).registers = s.registers := rfl

@[simp] theorem ports_note (s : Site) (w : Passage) : (s.note w).ports = s.ports := rfl

@[simp] theorem incoming_note (s : Site) (w : Passage) (p : Port) :
    (s.note w).incoming p = s.incoming p := rfl

@[simp] theorem outgoing_note (s : Site) (w : Passage) (p : Port) :
    (s.note w).outgoing p = s.outgoing p := rfl

@[simp] theorem passed_note (s : Site) (w : Passage) : (s.note w).passed = s.passed ++ [w] := rfl

@[simp] theorem passed_setRegisters (s : Site) (r : Registers) :
    (s.setRegisters r).passed = s.passed := rfl

@[simp] theorem passed_setIncoming (s : Site) (p : Port) (pipe : Pipe) :
    (s.setIncoming p pipe).passed = s.passed := rfl

@[simp] theorem passed_setOutgoing (s : Site) (p : Port) (pipe : Pipe) :
    (s.setOutgoing p pipe).passed = s.passed := rfl

theorem incoming_setIncoming_of_ne (s : Site) {p q : Port} (pipe : Pipe) (h : q ≠ p) :
    (s.setIncoming p pipe).incoming q = s.incoming q := by
  simp [incoming, setIncoming, PerPort.get_set_of_ne _ _ h]

theorem outgoing_setOutgoing_of_ne (s : Site) {p q : Port} (pipe : Pipe) (h : q ≠ p) :
    (s.setOutgoing p pipe).outgoing q = s.outgoing q := by
  simp [outgoing, setOutgoing, PerPort.get_set_of_ne _ _ h]

end Site

/-- Something that happens at a site. -/
abbrev Action (α : Type) := EStateM Fault Site α

namespace Action

/-- Looks at the site. -/
def look {α : Type} (g : Site → α) : Action α := fun s => .ok (g s) s

/-- Looks at the registers. -/
def registers : Action Registers := look Site.registers

/-- Changes the registers. -/
def update (g : Registers → Registers) : Action Unit := fun s =>
  .ok () (s.setRegisters (g s.registers))

/-- Notes a word that passes. -/
def note (w : Passage) : Action Unit := fun s => .ok () (s.note w)

end Action

end NodeCube
