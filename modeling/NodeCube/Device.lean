import NodeCube.Node

/-!
# Devices

What can sit on a face: a node, a meter that counts how often it is stepped, enabled and disabled,
or a ticker that counts only its steps.
-/

namespace NodeCube

open Snapshot

structure Meter where
  steps : Nat := 0
  enables : Nat := 0
  disables : Nat := 0
  deriving DecidableEq, Repr

inductive Device where
  | node (n : Node)
  | meter (m : Meter)
  | ticker (steps : Nat)
  deriving DecidableEq, Repr

namespace Device

/-- What kind of device it is. -/
inductive Kind where
  | node
  | meter
  | ticker
  deriving DecidableEq, Repr

def kind : Device → Kind
  | .node _ => .node
  | .meter _ => .meter
  | .ticker _ => .ticker

def node? : Device → Option Node
  | .node n => some n
  | _ => none

/-- The state of a node as that of a device. -/
def ofNode : Node × Ports → Device × Ports
  | (n, ports) => (.node n, ports)

def step : EStateM Fault (Device × Ports) Unit
  | (.node n, ports) => Outcome.within ofNode (Node.step (n, ports))
  | (.meter m, ports) => .ok () (.meter { m with steps := m.steps + 1 }, ports)
  | (.ticker steps, ports) => .ok () (.ticker (steps + 1), ports)

/-- The casing was enabled, or the device was put into an enabled one. -/
def enable : Device → Device
  | .node n => .node n.enable
  | .meter m => .meter { m with enables := m.enables + 1 }
  | .ticker steps => .ticker steps

/-- The casing was disabled, or the device is taken out of an enabled one. -/
def disable : Device × Ports → Device × Ports
  | (.node n, ports) => ofNode (Node.disable (n, ports))
  | (.meter m, ports) => (.meter { m with disables := m.disables + 1 }, ports)
  | (.ticker steps, ports) => (.ticker steps, ports)

/-- The device's part of a snapshot; only nodes have one. -/
def encode : Device → Bytes
  | .node n => n.encode
  | .meter _ | .ticker _ => []

def restore (installed : Bool) : Restore (Device × Ports) Unit
  | ((.node n, ports), c) =>
    Outcome.within (fun (s, c) => (ofNode s, c)) (Node.restore installed ((n, ports), c))
  | s => .ok () s

end Device

end NodeCube
