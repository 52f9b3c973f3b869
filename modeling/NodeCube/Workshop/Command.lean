import NodeCube.Casing.Snapshot
import NodeCube.Pipe.Call
import NodeCube.Workshop

/-!
# Commands

What can be done in a workshop, as data: a history is a list of commands, each for one bench.
-/

namespace NodeCube

open Snapshot

/-- A module to be made. -/
structure Order where
  mount : Mount
  kind : Device.Kind
  /-- The source of a node. -/
  source : Bytes := []
  deriving DecidableEq, Repr

/-- The end of a pipe that a face has. -/
inductive Side where
  | receiving
  | sending
  deriving DecidableEq, Repr

/-- The socket that reads from the pipe at one side of a socket. -/
def Side.reader (side : Side) (s : Socket) : Socket :=
  match side with
  | .receiving => s
  | .sending => s.opposite

/-- Operations on a target of a machine. -/
inductive TargetCall where
  | beginWrite (v : Word)
  | cancelWrite
  | isWriting
  | beginRead
  | cancelRead
  | isReading
  | canTransfer
  | read
  deriving DecidableEq, Repr

/-- Operations on a device. -/
inductive DeviceCall where
  | step
  | enable
  | disable
  | save
  | load (bytes : Bytes)
  deriving DecidableEq, Repr

/-- New contents for some registers. -/
structure RegisterChange where
  pc : Option Int := none
  acc : Option Word := none
  bak : Option Word := none
  last : Option (Option Port) := none
  writeInFlight : Option Bool := none
  anyWrite : Option (Option Word) := none
  stalled : Option Bool := none
  deriving DecidableEq, Repr

inductive Command where
  | enable
  | disable
  | step
  | stepModules
  | stepPipes
  | save
  | load (bytes : Bytes)
  /-- Loads the snapshot saved last on a bench. -/
  | loadSaved (source : Stand)
  | pipe (socket : Socket) (side : Side) (call : Pipe.Call)
  /-- Makes a module and installs it; what was there becomes the spare. -/
  | install (face : Face) (order : Order)
  /-- Makes a module and keeps it as the spare. -/
  | stock (face : Face) (order : Order)
  /-- Installs the spare, or nothing; what was there becomes the spare. -/
  | swap (face : Face)
  /-- Takes out what is installed; it becomes the spare. -/
  | remove (face : Face)
  | assemble (part : Part) (source : Bytes)
  | listing (part : Part)
  | device (part : Part) (call : DeviceCall)
  /-- Puts a new bare machine on a face. -/
  | newMachine (face : Face)
  /-- Gives a machine the program of a source, unless it is refused. -/
  | loadSource (part : Part) (source : Bytes)
  | loadProgram (part : Part) (program : Program)
  | stepMachine (part : Part)
  | cancelRequests (part : Part)
  | target (part : Part) (target : Target) (call : TargetCall)
  | setRegisters (part : Part) (change : RegisterChange)
  deriving DecidableEq, Repr

namespace RegisterChange

def apply (c : RegisterChange) (r : Registers) : Registers where
  pc := c.pc.getD r.pc
  acc := c.acc.getD r.acc
  bak := c.bak.getD r.bak
  last := c.last.getD r.last
  writeInFlight := c.writeInFlight.getD r.writeInFlight
  anyWrite := c.anyWrite.getD r.anyWrite
  stalled := c.stalled.getD r.stalled

end RegisterChange

namespace Order

/-- The device of an order. -/
def device (o : Order) : Device :=
  match o.kind with
  | .node => .node (Node.ofSource o.source)
  | .meter => .meter {}
  | .ticker => .ticker 0

def make (o : Order) : Module := ⟨o.mount, o.device⟩

/-- How the source of a node fared. -/
def verdict (o : Order) : Option (Option Diagnostic) := o.device.node?.map Node.diagnostic

end Order

namespace TargetCall

/-- Does the operation on a target of the machine at a site. -/
def act (t : Target) : TargetCall → Action Answer
  | .beginWrite v => do return .flag (← t.beginWrite v)
  | .cancelWrite => do t.cancelWrite; return .done
  | .isWriting => do return .flag (← t.isWriting)
  | .beginRead => do t.beginRead; return .done
  | .cancelRead => do t.cancelRead; return .done
  | .isReading => do return .flag (← t.isReading)
  | .canTransfer => do return .flag (← t.canTransfer)
  | .read => do return .word (← t.read)

end TargetCall

namespace Workshop

/-- Changes the casing of a bench. -/
def onCasing (s : Stand) (a : Performance Casing) : Performance Workshop := fun w =>
  Outcome.within (fun casing => w.setBench s { w.bench s with casing }) (a (w.bench s).casing)

def load (s : Stand) (bytes : Bytes) : Performance Workshop :=
  onCasing s fun c =>
    match Casing.load bytes c with
    | .ok _ c => .ok .done c
    | .error e c => .error (.snapshot e) c

/-- Saves a snapshot and keeps it. -/
def save (s : Stand) : Performance Workshop := fun w =>
  let b := w.bench s
  .ok (.bytes b.casing.save) (w.setBench s { b with saved := b.casing.save })

/-- Calls the pipe that a socket reads from. -/
def callPipe (s : Socket) (call : Pipe.Call) : Performance Casing := fun c =>
  Outcome.within (fun p => { c with pipes := c.pipes.setPipe s p })
    (Pipe.perform call (c.pipes.pipe s))

/-- Puts a module or nothing on a face; what was there becomes the spare. -/
def exchange (s : Stand) (f : Face) (m : Option Module) (answer : Option Device.Kind → Answer) :
    Performance Workshop := fun w =>
  let b := w.bench s
  match b.casing.setModule f m with
  | .error e => .error (.misfit e) w
  | .ok (casing, old) =>
    .ok (answer (old.map fun m => m.device.kind))
      (w.setBench s { b with casing, spare := b.spare.set f old })

/-- Puts a module or nothing in the place of the spare. -/
def setSpare (s : Stand) (f : Face) (m : Option Module) (w : Workshop) : Workshop :=
  w.setBench s { w.bench s with spare := (w.bench s).spare.set f m }

/-- Installs the spare. One that does not fit is lost. -/
def swap (s : Stand) (f : Face) : Performance Workshop := fun w =>
  exchange s f ((w.bench s).spare.get f) .removed (setSpare s f none w)

def callDevice (part : Part) (call : DeviceCall) : Performance (Device × Ports) := fun (d, ports) =>
  match call with
  | .step => Performance.ofFaulting (fun _ => .done) Device.step (d, ports)
  | .enable => .ok .done (d.enable, ports)
  | .disable => .ok .done (Device.disable (d, ports))
  | .save => .ok (.bytes d.encode) (d, ports)
  | .load bytes =>
    match Device.restore part.installed ((d, ports), Cursor.start bytes) with
    | .ok _ (s, c) => .ok (.flag c.atEnd) s
    | .error e (s, _) => .error (.snapshot e) s

/-- Gives a machine a program. -/
def loadProgram (s : Stand) (part : Part) (program : Program) : Performance Workshop :=
  onMachine s part fun (_, ports) => .ok .done (Machine.load program, ports)

/-- Does a command on a bench. -/
def perform (s : Stand) : Command → Performance Workshop
  | .enable => onCasing s fun c => .ok .done c.enable
  | .disable => onCasing s fun c => .ok .done c.disable
  | .step => onCasing s (Performance.ofFaulting (fun _ => .done) Casing.step)
  | .stepModules => onCasing s (Performance.ofFaulting (fun _ => .done) Casing.stepModules)
  | .stepPipes => onCasing s fun c => .ok .done c.stepPipes
  | .save => save s
  | .load bytes => load s bytes
  | .loadSaved source => fun w => load s (w.bench source).saved w
  | .pipe socket side call => onCasing s (callPipe (side.reader socket) call)
  | .install f order => exchange s f (some order.make) (.installed order.verdict)
  | .stock f order => fun w => .ok (.made order.verdict) (setSpare s f (some order.make) w)
  | .swap f => swap s f
  | .remove f => exchange s f none .removed
  | .assemble part source =>
    onNode s part fun t =>
      let t := Node.assembleAt part.installed source t
      .ok (.verdict t.1.diagnostic) t
  | .listing part =>
    onNode s part fun (n, ports) =>
      .ok (.listing n.source n.diagnostic n.machine.program.code) (n, ports)
  | .device part call => onDevice s part (callDevice part call)
  | .newMachine f => fun w => .ok .done (w.setBare s f {})
  | .loadSource part source =>
    match Assembler.assemble source with
    | .error e => fun w => .error (.diagnostic e) w
    | .ok program => loadProgram s part program
  | .loadProgram part program => loadProgram s part program
  | .stepMachine part => onMachine s part (Performance.ofFaulting (fun _ => .done) Machine.step)
  | .cancelRequests part => onMachine s part fun (m, ports) => .ok .done (m.cancelRequests ports)
  | .target part t call => onMachine s part (Performance.ofFaulting id (Machine.act (call.act t)))
  | .setRegisters part change =>
    onMachine s part fun (m, ports) =>
      .ok .done ({ m with registers := change.apply m.registers }, ports)

end Workshop

end NodeCube
