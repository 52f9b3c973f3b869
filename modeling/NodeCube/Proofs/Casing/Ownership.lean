import NodeCube.Proofs.Assembler.Soundness
import NodeCube.Proofs.Casing.Operations
import NodeCube.Proofs.Casing.Round

/-!
# Who has filed a request

Two local invariants. `Device.Safe` says that the write requests on the pipes of a face with a node
are those that the node's registers know of; it is all that keeps a step from faulting.
`Device.Orderly` adds the read requests, and that there are none on faces without a node.
-/

namespace NodeCube

theorem Pipe.writing_step (p : Pipe) : p.step.writing = (p.writing && !p.taken) := by
  unfold step settle
  split <;> simp_all

theorem Pipe.reading_step (p : Pipe) : p.step.reading = (p.reading && !p.taken) := by
  unfold step settle
  split <;> simp_all

/-! ## A node at its ports -/

namespace Node

/-- The site of a node that has just its turn. -/
def site (n : Node) (ports : Ports) : Site := { registers := n.machine.registers, ports }

def withRegisters (n : Node) (r : Registers) : Node :=
  { n with machine := { n.machine with registers := r } }

@[simp] theorem registers_site (n : Node) (ports : Ports) :
    (n.site ports).registers = n.machine.registers := rfl

@[simp] theorem incoming_site (n : Node) (ports : Ports) (p : Port) :
    (n.site ports).incoming p = ports.incoming.get p := rfl

@[simp] theorem outgoing_site (n : Node) (ports : Ports) (p : Port) :
    (n.site ports).outgoing p = ports.outgoing.get p := rfl

@[simp] theorem passed_site (n : Node) (ports : Ports) : (n.site ports).passed = [] := rfl

end Node

/-- The step of a node that runs is one of its program. -/
theorem Device.step_node {n : Node} (hr : n.running = true) (ports : Ports) :
    Device.step (.node n, ports) = Outcome.within
      (fun s => (.node (n.withRegisters s.registers), s.ports))
      (n.machine.program.step (n.site ports)) := by
  have hn : Node.step (n, ports) = Node.onMachine Machine.step (n, ports) := if_pos hr
  simp only [Device.step, hn, Node.onMachine, Machine.step, Machine.act, Node.site]
  cases n.machine.program.step { registers := n.machine.registers, ports } <;> rfl

theorem Device.step_running {n : Node} {ports : Ports} {s : Site} (hr : n.running = true)
    (h : n.machine.program.step (n.site ports) = .ok () s) :
    Device.step (.node n, ports) = .ok () (.node (n.withRegisters s.registers), s.ports) := by
  rw [step_node hr, h, Outcome.within_ok]

theorem Device.step_resting {n : Node} {ports : Ports} (hr : n.running = false) :
    Device.step (.node n, ports) = .ok () (.node n, ports) := by
  simp [Device.step, Node.step, hr, Device.ofNode]

/-! ## Write requests -/

/-- The program of a node is that of its source. -/
def Node.Compiled (n : Node) : Prop := n.machine.program = (Assembler.compile n.source).1

theorem Node.Compiled.sound {n : Node} (h : n.Compiled) : n.machine.program.Sound := by
  rw [h]
  exact (Assembler.compile_sound n.source).1

/-- A node that owns the write requests at its ports. -/
structure Node.Safe (n : Node) (ports : Ports) : Prop where
  compiled : n.Compiled
  owns : n.machine.program.Owns (n.site ports)

/-- There is a safe node, or nothing. -/
def Device.Safe : Option Device → Ports → Prop
  | some (.node n), ports => n.Safe ports
  | none, _ => True
  | _, _ => False

theorem Device.Safe.eq_node {d : Device} {ports : Ports} (h : Device.Safe (some d) ports) :
    ∃ n, d = .node n := by
  cases d with
  | node n => exact ⟨n, rfl⟩
  | meter _ => exact h.elim
  | ticker _ => exact h.elim

namespace Program

variable {program : Program} {n : Node} {a b : Ports}

theorem Owns.of_le (h : program.Owns (n.site a))
    (hw : ∀ p, (b.outgoing.get p).writing = true → (a.outgoing.get p).writing = true) :
    program.Owns (n.site b) :=
  ⟨h.fits, fun p hb => h.writes p (hw p hb)⟩

theorem Attends.congr (h : program.Attends (n.site a))
    (hr : ∀ p, ((b.incoming.get p).reading = true ∧ (b.incoming.get p).taken = false) ↔
      ((a.incoming.get p).reading = true ∧ (a.incoming.get p).taken = false)) :
    program.Attends (n.site b) :=
  fun p => (hr p).trans (h p)

end Program

/-- The turn of a safe node that runs. -/
theorem Node.Safe.turn {n : Node} {a : Ports} (h : n.Safe a) (hu : a.Untaken) :
    ∃ s, n.machine.program.step (n.site a) = .ok () s ∧ n.machine.program.Turned (n.site a) s ∧
      (n.withRegisters s.registers).Safe s.ports := by
  obtain ⟨s, hs, ht⟩ := Program.step_turned (s := n.site a) h.compiled.sound (fun _ _ _ => hu)
    h.owns.fits h.owns.writes
  have ho := ht.owns h.owns
  exact ⟨s, hs, ht, h.compiled, ho.fits, ho.writes⟩

theorem Device.local_safe : Local Device.Safe where
  spared d a b hab h := by
    match d, h with
    | some (.node n), h =>
      exact ⟨h.compiled, h.owns.of_le fun p hb => (hab.writing p).symm.trans hb⟩
    | none, _ => trivial
  turn d a hu h := by
    match d, h with
    | .node n, h =>
      cases hr : n.running with
      | true =>
        obtain ⟨s, hs, ht, hsafe⟩ := Node.Safe.turn h hu
        exact ⟨_, _, step_running hr hs, ht.byOwner, hsafe⟩
      | false => exact ⟨_, _, step_resting hr, .refl _, h⟩
  publish d a h := by
    match d, h with
    | some (.node n), h =>
      refine ⟨h.compiled, h.owns.of_le fun p hb => ?_⟩
      rw [Ports.outgoing_step, Pipe.writing_step] at hb
      exact (Bool.and_eq_true_iff.mp hb).1
    | none, _ => trivial

/-! ## Read requests -/

/-- Registers that wait for nothing. -/
structure Registers.Clear (r : Registers) : Prop where
  writeInFlight : r.writeInFlight = false
  anyWrite : r.anyWrite = none
  stalled : r.stalled = false

/-- No request of this side is on the pipes. -/
structure Ports.Quiet (ps : Ports) : Prop where
  reading : ∀ p, (ps.incoming.get p).reading = false
  writing : ∀ p, (ps.outgoing.get p).writing = false

/-- A node that owns all requests at its ports and runs, or has none and rests. -/
structure Node.Orderly (enabled : Bool) (n : Node) (ports : Ports) : Prop where
  safe : n.Safe ports
  attends : n.machine.program.Attends (n.site ports)
  running : n.running = enabled
  clear : enabled = false → n.machine.registers.Clear

/-- In a casing that is enabled or not, a node is orderly and on other faces there are no
requests. -/
def Device.Orderly (enabled : Bool) : Option Device → Ports → Prop
  | some (.node n), ports => n.Orderly enabled ports
  | _, ports => ports.Quiet

/-- The node on a face. -/
def Casing.node? (c : Casing) (f : Face) : Option Node := (c.slots.get f).bind Device.node?

theorem Casing.node?_eq_some {c : Casing} {f : Face} {n : Node} :
    c.node? f = some n ↔ c.slots.get f = some (.node n) := by
  unfold node?
  match c.slots.get f with
  | none => simp
  | some (.node m) => simp [Device.node?]
  | some (.meter _) | some (.ticker _) => simp [Device.node?]

theorem Casing.Each.orderly_node {c : Casing} {e : Bool} {f : Face} {n : Node}
    (h : c.Each (Device.Orderly e)) (hn : c.slots.get f = some (.node n)) :
    n.Orderly e (c.pipes.ports f) := by
  have := h.holds f
  rwa [hn] at this

namespace Ports

theorem Quiet.spared {a b : Ports} (h : a.Quiet) (hab : Spared a b) : b.Quiet :=
  ⟨fun p => (hab.reading p).trans (h.reading p), fun p => (hab.writing p).trans (h.writing p)⟩

theorem Quiet.step {a : Ports} (h : a.Quiet) : a.step.Quiet where
  reading p := by rw [incoming_step, Pipe.reading_step, h.reading]; rfl
  writing p := by rw [outgoing_step, Pipe.writing_step, h.writing]; rfl

end Ports

theorem Device.local_orderly (enabled : Bool) : Local (Device.Orderly enabled) where
  spared d a b hab h := by
    match d, h with
    | some (.node n), h =>
      refine ⟨local_safe.spared (some (.node n)) a b hab h.safe, h.attends.congr fun p => ?_,
        h.running, h.clear⟩
      rw [hab.reading, hab.taken]
    | none, h => exact Ports.Quiet.spared h hab
    | some (.meter _), h => exact Ports.Quiet.spared h hab
    | some (.ticker _), h => exact Ports.Quiet.spared h hab
  turn d a hu h := by
    match d, h with
    | .node n, h =>
      cases hr : n.running with
      | true =>
        obtain ⟨s, hs, ht, hsafe⟩ := h.safe.turn hu
        refine ⟨_, _, step_running hr hs, ht.byOwner, hsafe, ?_, h.running, fun e => ?_⟩
        · exact fun p => ht.attends (s := n.site a) hu h.attends p
        · rw [← h.running, hr] at e
          cases e
      | false => exact ⟨_, _, step_resting hr, .refl _, h⟩
    | .meter m, h => exact ⟨_, _, rfl, .refl _, h⟩
    | .ticker k, h => exact ⟨_, _, rfl, .refl _, h⟩
  publish d a h := by
    match d, h with
    | some (.node n), h =>
      refine ⟨local_safe.publish (some (.node n)) a h.safe, h.attends.congr fun p => ?_,
        h.running, h.clear⟩
      rw [Ports.incoming_step, Pipe.reading_step, Pipe.taken_step]
      simp
    | none, h => exact Ports.Quiet.step h
    | some (.meter _), h => exact Ports.Quiet.step h
    | some (.ticker _), h => exact Ports.Quiet.step h

end NodeCube
