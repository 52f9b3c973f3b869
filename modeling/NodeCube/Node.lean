import NodeCube.Assembler
import NodeCube.Machine
import NodeCube.Registers.Snapshot

/-!
# Nodes

A node is a machine together with the source of its program. It steps only while it runs. A node
that is installed owns the requests on its ports and withdraws them when it gets a new source; a
detached one leaves the ports alone.
-/

namespace NodeCube

open Snapshot

structure Node where
  machine : Machine := {}
  source : Bytes := []
  /-- Why the source was refused. -/
  diagnostic : Option Diagnostic := none
  running : Bool := false
  deriving DecidableEq, Repr

namespace Node

/-- Gives the node a source. If it is refused, the program is empty but keeps the lines. -/
def assemble (source : Bytes) (n : Node) : Node :=
  let (program, diagnostic) := Assembler.compile source
  { n with machine := Machine.load program, source, diagnostic }

/-- A new node with a source. -/
def ofSource (source : Bytes) : Node := assemble source {}

/-- Gives the node at some ports a source, and withdraws its requests if it is installed. -/
def assembleAt (installed : Bool) (source : Bytes) : Node × Ports → Node × Ports
  | (n, ports) => (n.assemble source, if installed then ports.cancelRequests else ports)

/-- Does something with the machine. -/
def onMachine {ε α : Type} (a : EStateM ε (Machine × Ports) α) : EStateM ε (Node × Ports) α :=
  fun (n, ports) =>
    Outcome.within (fun (machine, ports) => ({ n with machine }, ports)) (a (n.machine, ports))

def step : EStateM Fault (Node × Ports) Unit := fun (n, ports) =>
  if n.running then onMachine Machine.step (n, ports) else .ok () (n, ports)

def enable (n : Node) : Node := { n with running := true }

/-- Stops the node and withdraws its requests. -/
def disable : Node × Ports → Node × Ports
  | (n, ports) =>
    let (machine, ports) := n.machine.cancelRequests ports
    ({ n with machine, running := false }, ports)

/-- The source as a block, then the registers. -/
def encode (n : Node) : Bytes := encodeBlock n.source ++ n.machine.registers.encode

/-- Assembles the source of a snapshot, then restores the registers. -/
def restore (installed : Bool) : Restore (Node × Ports) Unit := do
  let source ← Restore.read Reader.block
  Restore.update (assembleAt installed source)
  Restore.part (fun (n, _) => n.machine.registers)
    (fun registers (n, ports) => ({ n with machine := { n.machine with registers } }, ports))
    Registers.restore

end Node

end NodeCube
