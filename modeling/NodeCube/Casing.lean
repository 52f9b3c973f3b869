import NodeCube.Device
import NodeCube.Pipes

/-!
# Casings

A casing holds a device on each face, or none, and the pipes between them. In a tick it steps its
devices one after another and then all pipes. A module is a device made for one face of one casing
and goes nowhere else; while the casing is enabled its devices are told when they come and go.
-/

namespace NodeCube

/-- The two stands of a workshop. Each holds one casing, so the stand tells which casing is
meant. -/
inductive Stand where
  | first
  | second
  deriving DecidableEq, Repr

/-- The place that a module is made for. -/
structure Mount where
  stand : Stand
  face : Face
  deriving DecidableEq, Repr

/-- A device that is not installed, with the place it is made for. -/
structure Module where
  mount : Mount
  device : Device
  deriving DecidableEq, Repr

structure Casing where
  stand : Stand
  enabled : Bool := false
  slots : PerFace (Option Device) := PerFace.replicate none
  pipes : Pipes := Pipes.fresh
  deriving DecidableEq, Repr

/-- A module was put on a face that it is not made for. -/
structure Misfit where
  face : Face
  deriving DecidableEq, Repr

def Misfit.message (m : Misfit) : Bytes := ascii "module does not belong on face " ++ m.face.name

namespace Casing

/-- An empty casing. -/
def new (stand : Stand) : Casing := { stand }

/-- Puts a device and the pipes that touch its face in place. -/
def place (c : Casing) (f : Face) (d : Device) (ports : Ports) : Casing :=
  { c with slots := c.slots.set f (some d), pipes := c.pipes.withPorts f ports }

/-- Does something with the device on a face, if there is one. -/
def onDevice {ε : Type} (f : Face) (a : EStateM ε (Device × Ports) Unit) : EStateM ε Casing Unit :=
  fun c =>
    match c.slots.get f with
    | none => .ok () c
    | some d => Outcome.within (fun (d, ports) => c.place f d ports) (a (d, c.pipes.ports f))

/-! ## Ticks -/

/-- Steps the device on a face. -/
def stepFace (f : Face) : EStateM Fault Casing Unit := onDevice f Device.step

/-- Steps the devices on some faces in turn; a fault ends the round. -/
def stepFaces (faces : List Face) : EStateM Fault Casing Unit := faces.forM stepFace

def stepModules : EStateM Fault Casing Unit := stepFaces Face.all

/-- Publishes what is pending on the pipes. -/
def stepPipes (c : Casing) : Casing := { c with pipes := c.pipes.mapPipes Pipe.step }

/-- A tick in which the faces take their turns in the given order. -/
def tick (faces : List Face) : EStateM Fault Casing Unit := do
  stepFaces faces
  modify stepPipes

/-- A tick, if the casing is enabled. -/
def step : EStateM Fault Casing Unit := fun c =>
  if c.enabled then tick Face.all c else .ok () c

/-! ## Enabling and disabling -/

def enable (c : Casing) : Casing :=
  if c.enabled then c
  else { c with enabled := true, slots := c.slots.map (Option.map Device.enable) }

/-- Tells the device on a face that it stops. -/
def disableFace (c : Casing) (f : Face) : Casing :=
  match c.slots.get f with
  | none => c
  | some d =>
    let (d, ports) := Device.disable (d, c.pipes.ports f)
    c.place f d ports

/-- Stops all devices, then drops every request. -/
def disable (c : Casing) : Casing :=
  if c.enabled then
    let c := Face.all.foldl disableFace { c with enabled := false }
    { c with pipes := c.pipes.mapPipes fun p => p.cancelRead.cancelWrite.step }
  else c

/-! ## Modules -/

/-- The module on a face. -/
def module? (c : Casing) (f : Face) : Option Module :=
  (c.slots.get f).map fun d => ⟨⟨c.stand, f⟩, d⟩

/-- Whether a module is made for this face of this casing. -/
def fits (c : Casing) (f : Face) (m : Module) : Bool := m.mount == ⟨c.stand, f⟩

/-- Takes what is on a face out, drops the requests of this side on the pipes that touch it, and
puts a device or nothing there. -/
def exchange (c : Casing) (f : Face) (d : Option Device) : Casing × Option Module :=
  let c := if c.enabled then c.disableFace f else c
  let ports := (c.pipes.ports f).cancelRequests.step
  ({ c with
      slots := c.slots.set f (if c.enabled then d.map Device.enable else d)
      pipes := c.pipes.withPorts f ports },
    c.module? f)

/-- Puts a module or nothing on a face and hands back what was there. -/
def setModule (c : Casing) (f : Face) (m : Option Module) :
    Except Misfit (Casing × Option Module) :=
  if m.all (c.fits f) then .ok (c.exchange f (m.map Module.device)) else .error ⟨f⟩

end Casing

end NodeCube
