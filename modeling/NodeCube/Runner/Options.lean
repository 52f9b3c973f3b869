import NodeCube.Face
import NodeCube.Text.Numeral

/-!
# Command line options

Arguments are read from left to right. An option that takes a value takes the next argument,
whatever it looks like; as the last argument it is unknown. Every other argument names a face and
the file with its program.
-/

namespace NodeCube.Runner

/-- The file with the program of a face. -/
structure Source where
  face : Face
  path : Bytes
  deriving DecidableEq, Repr

/-- What a run is asked to do. An empty path stands for none. -/
structure Options where
  sources : List Source := []
  ticks : Nat := 100
  verbose : Bool := false
  checkOnly : Bool := false
  savePath : Bytes := []
  loadPath : Bytes := []
  deriving DecidableEq, Repr

/-- Why the arguments ask for no run. -/
inductive Refusal where
  | help
  | unknownArgument (arg : Bytes)
  | faceGivenTwice (f : Face)
  | invalidTicks (text : Bytes)
  | noSources
  deriving DecidableEq, Repr

/-- Options that stand alone. -/
inductive Switch where
  | help
  | verbose
  | check
  deriving DecidableEq, Repr

/-- Options that take a value. -/
inductive Setting where
  | ticks
  | save
  | load
  deriving DecidableEq, Repr

def Switch.ofName? (arg : Bytes) : Option Switch :=
  if arg = ascii "-h" ∨ arg = ascii "--help" then some .help
  else if arg = ascii "-v" ∨ arg = ascii "--verbose" then some .verbose
  else if arg = ascii "-c" ∨ arg = ascii "--check" then some .check
  else none

def Setting.ofName? (arg : Bytes) : Option Setting :=
  if arg = ascii "-t" ∨ arg = ascii "--ticks" then some .ticks
  else if arg = ascii "-s" ∨ arg = ascii "--save" then some .save
  else if arg = ascii "-l" ∨ arg = ascii "--load" then some .load
  else none

/-- The largest number of ticks. -/
def maxTicks : Nat := 0x7fffffffffffffff

/-- Reads a number of ticks: white space, a sign and decimal digits. It is not negative and at most
`maxTicks`. -/
def ticks? (text : Bytes) : Option Nat :=
  let (negative, digits) := Text.splitSign (Text.trimLeft text)
  match Text.Radix.decimal.value? digits with
  | none => none
  | some n => if n ≤ maxTicks ∧ (negative → n = 0) then some n else none

namespace Options

def setSwitch (o : Options) : Switch → Except Refusal Options
  | .help => .error .help
  | .verbose => .ok { o with verbose := true }
  | .check => .ok { o with checkOnly := true }

def setValue (o : Options) (setting : Setting) (value : Bytes) : Except Refusal Options :=
  match setting with
  | .ticks =>
    match ticks? value with
    | none => .error (.invalidTicks value)
    | some n => .ok { o with ticks := n }
  | .save => .ok { o with savePath := value }
  | .load => .ok { o with loadPath := value }

/-- Adds the file with the program of a face. -/
def addSource (o : Options) (arg : Bytes) : Except Refusal Options :=
  match Text.cut '='.toUInt8 arg with
  | none => .error (.unknownArgument arg)
  | some (name, path) =>
    match Face.ofName? name with
    | none => .error (.unknownArgument arg)
    | some face =>
      if o.sources.any (·.face == face) then .error (.faceGivenTwice face)
      else .ok { o with sources := o.sources ++ [⟨face, path⟩] }

/-- Reads arguments on top of some options. -/
def read (o : Options) : List Bytes → Except Refusal Options
  | [] => .ok o
  | arg :: rest =>
    match Switch.ofName? arg with
    | some switch =>
      match o.setSwitch switch with
      | .error e => .error e
      | .ok o => o.read rest
    | none =>
      match Setting.ofName? arg, rest with
      | some setting, value :: rest =>
        match o.setValue setting value with
        | .error e => .error e
        | .ok o => o.read rest
      | _, rest =>
        match o.addSource arg with
        | .error e => .error e
        | .ok o => o.read rest

/-- The options that some arguments give; each argument ends at its first NUL byte. -/
def ofArgs (args : List Bytes) : Except Refusal Options :=
  match ({} : Options).read (args.map Text.untilNul) with
  | .error e => .error e
  | .ok o => if o.sources.isEmpty then .error .noSources else .ok o

end Options

end NodeCube.Runner
