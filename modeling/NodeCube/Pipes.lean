import NodeCube.Site
import NodeCube.Socket

/-!
# The pipes of a casing

There is a pipe for each socket, which the node on that face reads from; it is written to from the
opposite socket. `ports` picks the eight pipes that touch a face, and `withPorts` puts them back.
-/

namespace NodeCube

/-- The pipes, by the socket that reads from them. -/
abbrev Pipes := PerFace (PerPort Pipe)

namespace Pipes

/-- All pipes as they are at first. -/
def fresh : Pipes := PerFace.replicate (PerPort.replicate {})

/-- The pipe that a socket reads from. -/
def pipe (ps : Pipes) (s : Socket) : Pipe := (ps.get s.face).get s.port

/-- The pipes of a function. -/
def ofFn (g : Socket → Pipe) : Pipes := PerFace.ofFn fun f => PerPort.ofFn fun p => g ⟨f, p⟩

def setPipe (ps : Pipes) (s : Socket) (p : Pipe) : Pipes :=
  ps.set s.face ((ps.get s.face).set s.port p)

/-- Does the same to every pipe. -/
def mapPipes (g : Pipe → Pipe) (ps : Pipes) : Pipes := ofFn fun s => g (ps.pipe s)

/-- The pipes that touch a face. -/
def ports (ps : Pipes) (f : Face) : Ports where
  incoming := PerPort.ofFn fun p => ps.pipe ⟨f, p⟩
  outgoing := PerPort.ofFn fun p => ps.pipe (Socket.opposite ⟨f, p⟩)

/-- Puts the pipes that touch a face back. -/
def withPorts (ps : Pipes) (f : Face) (t : Ports) : Pipes :=
  ofFn fun s =>
    if s.face = f then t.incoming.get s.port
    else if s.opposite.face = f then t.outgoing.get s.opposite.port
    else ps.pipe s

theorem ext_pipe {a b : Pipes} (h : ∀ s, a.pipe s = b.pipe s) : a = b :=
  PerFace.ext_get fun f => PerPort.ext_get fun p => h ⟨f, p⟩

@[simp] theorem pipe_fresh (s : Socket) : fresh.pipe s = {} := by simp [fresh, pipe]

@[simp] theorem pipe_ofFn (g : Socket → Pipe) (s : Socket) : (ofFn g).pipe s = g s := by
  simp [ofFn, pipe]

@[simp] theorem pipe_mapPipes (g : Pipe → Pipe) (ps : Pipes) (s : Socket) :
    (ps.mapPipes g).pipe s = g (ps.pipe s) := by simp [mapPipes]

@[simp] theorem incoming_ports (ps : Pipes) (f : Face) (p : Port) :
    (ps.ports f).incoming.get p = ps.pipe ⟨f, p⟩ := by simp [ports]

@[simp] theorem outgoing_ports (ps : Pipes) (f : Face) (p : Port) :
    (ps.ports f).outgoing.get p = ps.pipe (Socket.opposite ⟨f, p⟩) := by simp [ports]

/-- The pipe that ends at a socket goes out at the opposite one. -/
theorem outgoing_ports_opposite (ps : Pipes) (s : Socket) :
    (ps.ports s.opposite.face).outgoing.get s.opposite.port = ps.pipe s := by
  rw [outgoing_ports]
  exact congrArg ps.pipe s.opposite_opposite

theorem pipe_withPorts (ps : Pipes) (f : Face) (t : Ports) (s : Socket) :
    (ps.withPorts f t).pipe s =
      if s.face = f then t.incoming.get s.port
      else if s.opposite.face = f then t.outgoing.get s.opposite.port
      else ps.pipe s := by simp [withPorts]

@[simp] theorem ports_withPorts (ps : Pipes) (f : Face) (t : Ports) :
    (ps.withPorts f t).ports f = t := by
  obtain ⟨i, o⟩ := t
  simp only [ports, Ports.mk.injEq]
  constructor
  · ext p
    simp [pipe_withPorts]
  · ext p
    have h : (Socket.opposite ⟨f, p⟩).face ≠ f := Socket.opposite_face_ne ⟨f, p⟩
    simp [pipe_withPorts, h]

@[simp] theorem withPorts_ports (ps : Pipes) (f : Face) : ps.withPorts f (ps.ports f) = ps := by
  refine ext_pipe fun s => ?_
  rw [pipe_withPorts]
  split
  · rename_i h; subst h; simp
  · split
    · rename_i h
      subst h
      rw [outgoing_ports]
      exact congrArg ps.pipe (Socket.opposite_opposite s)
    · rfl

end Pipes

end NodeCube
