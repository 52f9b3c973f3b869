import NodeCube.Casing.Snapshot
import NodeCube.Runner.Printout

/-!
# Runs

A run assembles one program per face, restores a snapshot if asked to, lets the casing tick, prints
registers and pipes, and may end by writing a snapshot. `run` is a function of the arguments and
the files that can be read; the one file that it may write is part of its result. How writing it
goes is up to a `FileSystem`.
-/

namespace NodeCube.Runner

/-- What a run leaves: its exit code and what it printed. -/
structure Report where
  exit : Nat
  out : Bytes := []
  err : Bytes := []
  deriving DecidableEq, Repr

/-- What keeps a run from its end. -/
inductive Stop where
  /-- Some program was refused; the diagnostics are printed already. -/
  | refused
  | cannotOpenInput (path : Bytes)
  | cannotOpenSnapshot (path : Bytes)
  | snapshot (e : SnapshotError)
  | fault (f : Fault)
  deriving DecidableEq, Repr

namespace Stop

def exit : Stop → Nat
  | .fault _ => 3
  | _ => 1

def text : Stop → Bytes
  | .refused => []
  | .cannotOpenInput path => line (ascii "ERROR: Cannot open input: " ++ path)
  | .cannotOpenSnapshot path => line (ascii "ERROR: Cannot open snapshot: " ++ path)
  | .snapshot e => line (ascii "ERROR: " ++ e.message)
  | .fault f => line (ascii "FAULT: " ++ f.message)

end Stop

namespace Refusal

def report : Refusal → Report
  | .help => { exit := 0, out := helpText }
  | .noSources => { exit := 2, out := helpText }
  | .unknownArgument arg => { exit := 2, err := line (ascii "Unknown argument: " ++ arg) }
  | .faceGivenTwice f => { exit := 2, err := line (ascii "Face given twice: " ++ f.name) }
  | .invalidTicks text => { exit := 2, err := line (ascii "Invalid tick count: " ++ text) }

end Refusal

/-- The files that can be read, by name. -/
abbrev Files := Bytes → Option Bytes

/-! ## Setting up -/

/-- Installs the program of a face. -/
def install (c : Casing) (f : Face) (source : Bytes) : Casing :=
  (c.exchange f (some (.node (Node.ofSource source)))).1

/-- Installs the programs one after another. Gives the diagnostics, and the casing unless a file
cannot be read. -/
def installAll (files : Files) (c : Casing) : List Source → Bytes × Except Stop Casing
  | [] => ([], .ok c)
  | s :: rest =>
    match files s.path with
    | none => ([], .error (.cannotOpenInput s.path))
    | some source =>
      let (err, result) := installAll files (install c s.face source) rest
      (nodeDiagnosticText s.face (Node.ofSource source) ++ err, result)

/-- The node on a face. -/
def node? (c : Casing) (f : Face) : Option Node := (c.slots.get f).bind Device.node?

/-- The diagnostics of the nodes on some faces. -/
def diagnosticsText (c : Casing) (faces : List Face) : Bytes :=
  faces.flatMap fun f => ((node? c f).map (nodeDiagnosticText f)).getD []

/-- Whether a program on some faces was refused. -/
def anyRefused (c : Casing) (faces : List Face) : Bool :=
  faces.any fun f => ((node? c f).bind Node.diagnostic).isSome

/-- Restores a snapshot from a file. -/
def loadFrom (files : Files) (path : Bytes) (c : Casing) : Except Stop Casing :=
  match files path with
  | none => .error (.cannotOpenSnapshot path)
  | some bytes =>
    match Casing.load bytes c with
    | .error e _ => .error (.snapshot e)
    | .ok _ c => .ok c

/-! ## Ticking -/

/-- The casing after some ticks. -/
def advance (c : Casing) : Nat → Except Fault Casing
  | 0 => .ok c
  | n + 1 =>
    match Casing.step c with
    | .error e _ => .error e
    | .ok _ c => advance c n

/-- Lets the casing tick and prints it after each tick; `tick` ticks have passed before. -/
def trace (tick : Nat) (c : Casing) : Nat → Bytes × Except Fault Casing
  | 0 => ([], .ok c)
  | n + 1 =>
    match Casing.step c with
    | .error e _ => ([], .error e)
    | .ok _ c =>
      let (out, result) := trace (tick + 1) c n
      (casingText c (tick + 1) ++ pipesText c ++ out, result)

/-- Lets the casing tick and prints it, after each tick or at the end. -/
def tickAll (o : Options) (c : Casing) : Bytes × Except Fault Casing :=
  if o.verbose then trace 0 c o.ticks
  else
    match advance c o.ticks with
    | .error e => ([], .error e)
    | .ok c => (casingText c o.ticks, .ok c)

/-! ## The end of a run -/

/-- How writing a file went. -/
inductive Written where
  | complete
  | cannotOpen
  | failed
  deriving DecidableEq, Repr

/-- A run that is over, or that has a snapshot to write and has printed `out`. -/
inductive Ending where
  | closed (report : Report)
  | saving (path content out : Bytes)
  deriving DecidableEq, Repr

/-- The report of a run whose snapshot was written or not. -/
def savingReport (path out : Bytes) : Written → Report
  | .complete => { exit := 0, out := out ++ line (ascii "OK: wrote snapshot to " ++ path) }
  | .cannotOpen => { exit := 1, out, err := line (ascii "ERROR: Cannot open output: " ++ path) }
  | .failed => { exit := 1, out, err := line (ascii "ERROR: Write failed: " ++ path) }

/-- The end of a run that stops. -/
def stopped (stop : Stop) (out err : Bytes) : Ending :=
  .closed { exit := stop.exit, out, err := err ++ stop.text }

/-- Enables the casing, lets it tick and saves it if asked to. -/
def operate (o : Options) (c : Casing) : Ending :=
  match tickAll o c.enable with
  | (out, .error e) => stopped (.fault e) out []
  | (out, .ok c) =>
    if o.savePath.isEmpty then .closed { exit := 0, out } else .saving o.savePath c.save out

/-- Restores a snapshot if asked to, and goes on. -/
def resume (files : Files) (o : Options) (c : Casing) : Ending :=
  if o.loadPath.isEmpty then operate o c
  else
    match loadFrom files o.loadPath c with
    | .error stop => stopped stop [] []
    | .ok c =>
      let faces := o.sources.map Source.face
      if anyRefused c faces then stopped .refused [] (diagnosticsText c faces) else operate o c

/-- A run with given options. -/
def runWith (files : Files) (o : Options) : Ending :=
  match installAll files (Casing.new .first) o.sources with
  | (err, .error stop) => stopped stop [] err
  | (err, .ok c) =>
    if anyRefused c (o.sources.map Source.face) then stopped .refused [] err
    else if o.checkOnly then
      .closed { exit := 0,
                out := line (ascii "OK: " ++ Text.natural o.sources.length ++
                  ascii " program(s) compiled") }
    else resume files o c

/-- A run. -/
def run (files : Files) (args : List Bytes) : Ending :=
  match Options.ofArgs args with
  | .error refusal => .closed refusal.report
  | .ok o => runWith files o

/-- Where files are read and written. Its state is a `σ`; a write that fails may change it, too. -/
structure FileSystem (σ : Type) where
  file? : σ → Files
  write : (path content : Bytes) → σ → Written × σ

/-- A run on a file system, and the state in which it leaves that. -/
def FileSystem.run {σ : Type} (fs : FileSystem σ) (d : σ) (args : List Bytes) : Report × σ :=
  match Runner.run (fs.file? d) args with
  | .closed report => (report, d)
  | .saving path content out =>
    let (written, d) := fs.write path content d
    (savingReport path out written, d)

/-- The files that a run may want to read. -/
def inputs (args : List Bytes) : List Bytes :=
  match Options.ofArgs args with
  | .error _ => []
  | .ok o => o.sources.map Source.path ++ (if o.loadPath.isEmpty then [] else [o.loadPath])

end NodeCube.Runner
