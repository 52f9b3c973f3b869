import NodeCube.Pipe
import NodeCube.Snapshot.Restore

/-!
# Pipes in snapshots

Four bytes: the phase, the flags and the value.
-/

namespace NodeCube

open Snapshot

namespace Phase

def code : Phase → UInt8
  | .idle => 0
  | .writing => 1
  | .reading => 2
  | .transferring => 3

def ofCode? (n : UInt8) : Option Phase :=
  if n = 0 then some .idle
  else if n = 1 then some .writing
  else if n = 2 then some .reading
  else if n = 3 then some .transferring
  else none

@[simp] theorem ofCode?_code (p : Phase) : ofCode? p.code = some p := by cases p <;> rfl

end Phase

namespace Pipe

def encode (p : Pipe) : Bytes :=
  [p.phase.code, encodeFlags [p.writing, p.reading, p.taken]] ++ encodeWord p.value

def restore : Restore Pipe Unit := do
  let code ← Restore.read Reader.byte
  match Phase.ofCode? code with
  | none => throw (.pipePhase code)
  | some phase =>
    Restore.update ({ · with phase })
    let flags ← Restore.read Reader.byte
    Restore.update
      ({ · with writing := flag flags 0, reading := flag flags 1, taken := flag flags 2 })
    let value ← Restore.read Reader.word
    Restore.update ({ · with value })

@[simp] theorem length_encode (p : Pipe) : p.encode.length = 4 := rfl

end Pipe

end NodeCube
