import NodeCube.Registers
import NodeCube.Snapshot.Restore

/-!
# Registers in snapshots

Eleven bytes: program counter, accumulator, backup, the last port or 255, two flags, whether a word
is held for `ANY`, and that word or zero. The program counter is kept modulo 2^16.
-/

namespace NodeCube.Registers

open Snapshot

/-- The code for no port. -/
def noPort : UInt8 := 255

def encodeLast : Option Port → UInt8
  | none => noPort
  | some p => UInt8.ofNat p.index

/-- The last port that a code stands for, if the code is valid. -/
def decodeLast? (n : UInt8) : Option (Option Port) :=
  if n = noPort then some none else (Port.ofIndex? n.toNat).map some

@[simp] theorem decodeLast?_encodeLast (l : Option Port) : decodeLast? (encodeLast l) = some l := by
  rcases l with _ | p
  · rfl
  · cases p <;> rfl

def encode (r : Registers) : Bytes :=
  encode16 (UInt16.ofInt r.pc) ++ encodeWord r.acc ++ encodeWord r.bak ++
    [encodeLast r.last, encodeFlags [r.writeInFlight, r.stalled],
      if r.anyWrite.isSome then 1 else 0] ++
    encodeWord (r.anyWrite.getD 0)

def restore : Restore Registers Unit := do
  let pc ← Restore.read Reader.number16
  Restore.update ({ · with pc := pc.toNat })
  let acc ← Restore.read Reader.word
  Restore.update ({ · with acc })
  let bak ← Restore.read Reader.word
  Restore.update ({ · with bak })
  let code ← Restore.read Reader.byte
  match decodeLast? code with
  | none => throw (.lastPort code)
  | some last =>
    Restore.update ({ · with last })
    let flags ← Restore.read Reader.byte
    Restore.update ({ · with writeInFlight := flag flags 0, stalled := flag flags 1 })
    let held ← Restore.read Reader.byte
    let value ← Restore.read Reader.word
    Restore.update ({ · with anyWrite := if held = 0 then none else some value })

end NodeCube.Registers
