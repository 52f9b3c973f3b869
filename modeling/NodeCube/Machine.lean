import NodeCube.Execution
import NodeCube.Outcome

/-!
# Machines

A machine is a program with registers. It sits at the ports of some face.
-/

namespace NodeCube

structure Machine where
  program : Program := {}
  registers : Registers := {}
  deriving DecidableEq, Repr

/-- What a machine shows of itself. -/
inductive Status where
  | noProgram
  | ready
  | stalled
  deriving DecidableEq, Repr

def Status.name : Status → Bytes
  | .noProgram => ascii "NO PROGRAM"
  | .ready => ascii "READY"
  | .stalled => ascii "STALLED"

namespace Machine

/-- Takes a program, with fresh registers. -/
def load (program : Program) : Machine := { program }

def status (m : Machine) : Status :=
  if m.program.instructions.isEmpty then .noProgram
  else if m.registers.stalled then .stalled
  else .ready

/-- Lets something happen to a machine that sits at some ports. -/
def act {α : Type} (a : Action α) : EStateM Fault (Machine × Ports) α := fun (m, ports) =>
  Outcome.within (fun s => ({ m with registers := s.registers }, s.ports))
    (a { registers := m.registers, ports })

/-- One step of a machine. -/
def step : EStateM Fault (Machine × Ports) Unit := fun (m, ports) => act m.program.step (m, ports)

/-- Withdraws all requests and forgets about them. -/
def cancelRequests (m : Machine) (ports : Ports) : Machine × Ports :=
  ({ m with registers := m.registers.clearRequests }, ports.cancelRequests)

end Machine

end NodeCube
