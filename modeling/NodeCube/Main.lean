import NodeCube.Runner.Run

/-!
# The command line

Reads the files that a run wants, prints what it prints, and writes the snapshot that it leaves.
-/

namespace NodeCube.Runner

/-- The contents of a file, or none if it cannot be read. -/
def readFile? (path : Bytes) : IO (Option Bytes) := do
  match String.fromUTF8? ⟨path.toArray⟩ with
  | none => return none
  | some name =>
    try
      let content ← IO.FS.readBinFile name
      return some content.toList
    catch _ => return none

/-- Opens a file to be written. -/
def openFile? (path : Bytes) : IO (Option IO.FS.Handle) := do
  match String.fromUTF8? ⟨path.toArray⟩ with
  | none => return none
  | some name =>
    try
      let handle ← IO.FS.Handle.mk name .write
      return some handle
    catch _ => return none

/-- Writes a file, and says how that went. -/
def writeFile (path content : Bytes) : IO Written := do
  match ← openFile? path with
  | none => return .cannotOpen
  | some handle =>
    try
      handle.write ⟨content.toArray⟩
      return .complete
    catch _ => return .failed

/-- Writes the snapshot of a run, if there is one, and gives the report. -/
def settle : Ending → IO Report
  | .closed report => return report
  | .saving path content out => do
    let written ← writeFile path content
    return savingReport path out written

end NodeCube.Runner

open NodeCube in
/-- A run with the arguments of the command line. -/
def main (args : List String) : IO UInt32 := do
  let args : List Bytes := args.map fun arg => arg.toUTF8.toList
  let files ← (Runner.inputs args).mapM fun path => do
    let content ← Runner.readFile? path
    return (path, content)
  let report ← Runner.settle (Runner.run (fun path => (files.lookup path).join) args)
  (← IO.getStdout).write ⟨report.out.toArray⟩
  (← IO.getStderr).write ⟨report.err.toArray⟩
  return UInt32.ofNat report.exit
