import NodeCube.Answer

/-!
# Workshops

A workshop has two benches. On each stands a casing, with room beside it for a spare module and a
bare machine per face, and the last snapshot that was saved. A device acts on the pipes at the
mount that it is made for, which for a spare may be those of the other casing.
-/

namespace NodeCube

structure Bench where
  casing : Casing
  /-- Modules that are not installed. -/
  spare : PerFace (Option Module) := PerFace.replicate none
  /-- Machines that sit at the ports of a face beside whatever is installed there. -/
  bare : PerFace (Option Machine) := PerFace.replicate none
  /-- The snapshot saved last. -/
  saved : Bytes := []
  deriving DecidableEq, Repr

structure Workshop where
  first : Bench := { casing := Casing.new .first }
  second : Bench := { casing := Casing.new .second }
  deriving DecidableEq, Repr

/-- Where on a bench a device or machine is. -/
inductive Spot where
  | slot
  | spare
  | bare
  deriving DecidableEq, Repr

/-- A device or machine of a bench. -/
structure Part where
  face : Face
  spot : Spot
  deriving DecidableEq, Repr

/-- Whether a part is installed in the casing. -/
def Part.installed (part : Part) : Bool := part.spot == .slot

namespace Workshop

def bench (w : Workshop) : Stand → Bench
  | .first => w.first
  | .second => w.second

def setBench (w : Workshop) (s : Stand) (b : Bench) : Workshop :=
  match s with
  | .first => { w with first := b }
  | .second => { w with second := b }

/-- The pipes at a mount. -/
def ports (w : Workshop) (m : Mount) : Ports := (w.bench m.stand).casing.pipes.ports m.face

def setPorts (w : Workshop) (m : Mount) (ports : Ports) : Workshop :=
  let b := w.bench m.stand
  w.setBench m.stand
    { b with casing := { b.casing with pipes := b.casing.pipes.withPorts m.face ports } }

/-! ## Parts of a bench -/

/-- The device of a part and the mount at which it sits. -/
def device? (w : Workshop) (s : Stand) (part : Part) : Option Module :=
  match part.spot with
  | .slot => (w.bench s).casing.module? part.face
  | .spare => (w.bench s).spare.get part.face
  | .bare => none

def setDevice (w : Workshop) (s : Stand) (part : Part) (m : Module) : Workshop :=
  let b := w.bench s
  match part.spot with
  | .slot =>
    w.setBench s
      { b with casing := { b.casing with slots := b.casing.slots.set part.face (some m.device) } }
  | .spare => w.setBench s { b with spare := b.spare.set part.face (some m) }
  | .bare => w

/-- Does something with the device of a part, at the ports of its mount. -/
def onDevice (s : Stand) (part : Part) (a : Performance (Device × Ports)) : Performance Workshop :=
  fun w =>
    match w.device? s part with
    | none => .error .noDevice w
    | some m =>
      Outcome.within (fun (d, ports) => (w.setDevice s part ⟨m.mount, d⟩).setPorts m.mount ports)
        (a (m.device, w.ports m.mount))

/-- Does something with the node of a part. -/
def onNode (s : Stand) (part : Part) (a : Performance (Node × Ports)) : Performance Workshop :=
  onDevice s part fun
    | (.node n, ports) => Outcome.within Device.ofNode (a (n, ports))
    | s => .error .noDevice s

/-- Puts a bare machine on a face. -/
def setBare (w : Workshop) (s : Stand) (f : Face) (m : Machine) : Workshop :=
  w.setBench s { w.bench s with bare := (w.bench s).bare.set f (some m) }

/-- Does something with the bare machine on a face. -/
def onBare (s : Stand) (f : Face) (a : Performance (Machine × Ports)) : Performance Workshop :=
  fun w =>
    match (w.bench s).bare.get f with
    | none => .error .noDevice w
    | some m =>
      Outcome.within (fun (m, ports) => (w.setBare s f m).setPorts ⟨s, f⟩ ports)
        (a (m, w.ports ⟨s, f⟩))

/-- Does something with the machine of a part, whether it is bare or a node's. -/
def onMachine (s : Stand) (part : Part) (a : Performance (Machine × Ports)) :
    Performance Workshop :=
  match part.spot with
  | .bare => onBare s part.face a
  | .slot | .spare => onNode s part (Node.onMachine a)

end Workshop

end NodeCube
