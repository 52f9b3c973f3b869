import NodeCube.Site

/-!
# Access to targets

How a node writes to and reads from each target. A write is begun, and unless it is complete at
once the node asks in later ticks whether it is still going on. A read is begun, and once a
transfer is possible the word is read.

`ACC` and `NIL` are complete at once. A port goes through its pipe. `ANY` listens on all ports and
takes the first with a word ready; to write, it holds the word until some neighbour is published
as reading and then writes there. `LAST` is the port that `ANY` chose last, and waits for ever if
there is none. `BAK` faults.
-/

namespace NodeCube

namespace Port

def beginWrite (p : Port) (v : Word) : Action Unit := fun s =>
  match (s.outgoing p).beginWrite? v with
  | some pipe => .ok () ((s.setOutgoing p pipe).note (.filed p v))
  | none => .error (.concurrentWrite p) s

def cancelWrite (p : Port) : Action Unit := fun s =>
  .ok () (s.setOutgoing p (s.outgoing p).cancelWrite)

def isWriting (p : Port) : Action Bool := Action.look fun s => (s.outgoing p).writing

def beginRead (p : Port) : Action Unit := fun s =>
  match (s.incoming p).beginRead? with
  | some pipe => .ok () (s.setIncoming p pipe)
  | none => .error (.concurrentRead p) s

def cancelRead (p : Port) : Action Unit := fun s =>
  .ok () (s.setIncoming p (s.incoming p).cancelRead)

def isReading (p : Port) : Action Bool := Action.look fun s => (s.incoming p).reading

def canTransfer (p : Port) : Action Bool := Action.look fun s => (s.incoming p).ready

def read (p : Port) : Action Word := fun s =>
  match (s.incoming p).take? with
  | some (v, pipe) => .ok v ((s.setIncoming p pipe).note (.took p v))
  | none => .error .pipeNotReady s

end Port

namespace AnyPort

/-- The first port whose neighbour is published as reading and that is free to write. -/
def listener? (s : Site) : Option Port :=
  Port.all.find? fun p => (s.outgoing p).phase == .reading && !(s.outgoing p).writing

/-- The first port with a word ready. -/
def readyPort? (s : Site) : Option Port := Port.all.find? fun p => (s.incoming p).ready

/-- Hands the word that is held to the first listener, if there is one. -/
def offer : Action Unit := do
  let r ← Action.registers
  let listener ← Action.look listener?
  match r.anyWrite, listener with
  | some v, some p =>
    Action.update ({ · with anyWrite := none, last := some p })
    p.beginWrite v
  | _, _ => pure ()

def beginWrite (v : Word) : Action Unit := do
  Action.update ({ · with anyWrite := some v })
  offer

def cancelWrite : Action Unit := do
  let r ← Action.registers
  match r.anyWrite, r.last with
  | some _, _ => Action.update ({ · with anyWrite := none })
  | none, some p => p.cancelWrite
  | none, none => pure ()

def isWriting : Action Bool := do
  offer
  let r ← Action.registers
  match r.anyWrite, r.last with
  | some _, _ => pure true
  | none, some p => p.isWriting
  | none, none => pure false

/-- Files a read request on every port that has none. -/
def beginRead : Action Unit :=
  Port.all.forM fun p => do
    let busy ← p.isReading
    if busy then pure () else p.beginRead

def cancelRead : Action Unit := Port.all.forM Port.cancelRead

def isReading : Action Bool := Action.look fun s => Port.all.any fun p => (s.incoming p).reading

/-- Settles on a port and stops listening on the others. -/
def settleOn (p : Port) : Action Unit := do
  Action.update ({ · with last := some p })
  (Port.all.filter (· != p)).forM Port.cancelRead

/-- Settles on the first port with a word ready, if there is one. -/
def canTransfer : Action Bool := do
  let ready ← Action.look readyPort?
  match ready with
  | none => return false
  | some p =>
    settleOn p
    return true

def read : Action Word := do
  let r ← Action.registers
  match r.last with
  | none => throw .anyNotReady
  | some p =>
    let ready ← p.canTransfer
    if ready then p.read else throw .anyNotReady

end AnyPort

namespace Target

/-- Does `act` at the port that `ANY` chose last, or gives `default` if there is none. -/
def atLast {α : Type} (default : Action α) (act : Port → Action α) : Action α := do
  let r ← Action.registers
  match r.last with
  | none => default
  | some p => act p

/-- Begins to write a word, and says whether that is already complete. -/
def beginWrite (v : Word) : Target → Action Bool
  | .acc => do Action.update ({ · with acc := v }); return true
  | .bak => throw .bakWrite
  | .nil => pure true
  | .port p => do p.beginWrite v; return false
  | .any => do AnyPort.beginWrite v; return false
  | .last => atLast (pure false) fun p => do p.beginWrite v; return false

def cancelWrite : Target → Action Unit
  | .acc | .nil => pure ()
  | .bak => throw .bakWrite
  | .port p => p.cancelWrite
  | .any => AnyPort.cancelWrite
  | .last => atLast (pure ()) Port.cancelWrite

/-- Whether a write still waits for its word to be taken. -/
def isWriting : Target → Action Bool
  | .acc | .nil => pure false
  | .bak => throw .bakWrite
  | .port p => p.isWriting
  | .any => AnyPort.isWriting
  | .last => atLast (pure true) Port.isWriting

def beginRead : Target → Action Unit
  | .acc | .nil => pure ()
  | .bak => throw .bakRead
  | .port p => p.beginRead
  | .any => AnyPort.beginRead
  | .last => atLast (pure ()) Port.beginRead

def cancelRead : Target → Action Unit
  | .acc | .nil => pure ()
  | .bak => throw .bakRead
  | .port p => p.cancelRead
  | .any => AnyPort.cancelRead
  | .last => atLast (pure ()) Port.cancelRead

/-- Whether a read was begun. -/
def isReading : Target → Action Bool
  | .acc | .nil => pure false
  | .bak => throw .bakRead
  | .port p => p.isReading
  | .any => AnyPort.isReading
  | .last => atLast (pure true) Port.isReading

/-- Whether a word can be read. -/
def canTransfer : Target → Action Bool
  | .acc | .nil => pure true
  | .bak => throw .bakRead
  | .port p => p.canTransfer
  | .any => AnyPort.canTransfer
  | .last => atLast (pure false) Port.canTransfer

/-- The word at a target. -/
def word : Target → Action Word
  | .acc => do let r ← Action.registers; return r.acc
  | .bak => throw .bakRead
  | .nil => pure 0
  | .port p => p.read
  | .any => AnyPort.read
  | .last => atLast (throw .lastUnresolved) Port.read

def read (t : Target) : Action Word := do
  let v ← t.word
  Action.note (.read t v)
  return v

end Target

end NodeCube
