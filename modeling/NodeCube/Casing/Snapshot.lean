import NodeCube.Casing
import NodeCube.Pipe.Snapshot

/-!
# Snapshots of a casing

A version byte; for each face whether there is a device, and if so a block with its part; then the
24 pipes. A snapshot is restored into the devices that are there: parts for empty faces are read
over. Devices come before pipes, because restoring a node withdraws its requests.
-/

namespace NodeCube

open Snapshot

namespace Casing

def snapshotVersion : UInt8 := 1

/-- The sockets face by face. -/
def sockets : List Socket := Face.all.flatMap fun f => Port.all.map fun p => ⟨f, p⟩

def encodeSlot : Option Device → Bytes
  | none => [0]
  | some d => 1 :: encodeBlock d.encode

def save (c : Casing) : Bytes :=
  snapshotVersion :: (Face.all.flatMap (fun f => encodeSlot (c.slots.get f)) ++
    sockets.flatMap fun s => (c.pipes.pipe s).encode)

/-- Restores the device on a face from its part of a snapshot, all of which need not be used. -/
def restorePart (f : Face) (part : Bytes) : EStateM SnapshotError Casing Unit :=
  onDevice f (Restore.ofBytes (Device.restore true) part)

def restoreFace (f : Face) : Restore Casing Unit := do
  let present ← Restore.read Reader.byte
  if present = 0 then pure ()
  else
    let part ← Restore.read Reader.block
    Restore.act (restorePart f part)

def restorePipe (s : Socket) : Restore Casing Unit :=
  Restore.part (fun c => c.pipes.pipe s) (fun p c => { c with pipes := c.pipes.setPipe s p })
    Pipe.restore

def restoreVersion : Restore Casing Unit := do
  let version ← Restore.read Reader.byte
  if version = snapshotVersion then pure () else throw (.version version)

/-- Refuses bytes that are left over. -/
def restoreEnd : Restore Casing Unit := fun (c, cursor) =>
  if cursor.atEnd then .ok () (c, cursor) else .error .trailingBytes (c, cursor)

def restore : Restore Casing Unit := do
  restoreVersion
  Face.all.forM restoreFace
  sockets.forM restorePipe
  restoreEnd

/-- Restores a snapshot; if it is refused, what was restored on the way stays. -/
def load (bytes : Bytes) : EStateM SnapshotError Casing Unit := Restore.ofBytes restore bytes

end Casing

end NodeCube
