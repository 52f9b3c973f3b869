import NodeCube.Proofs.Casing.Round
import NodeCube.Workshop.Command

/-!
# The footprint of a step

A machine that takes a step changes nothing but its own side of the eight pipes at its mount,
whatever its program and registers are and whether the step faults (`Program.byOwner_step`). All it
asks is that no word was taken there yet: `ANY` withdraws its requests at the ports that it did not
choose, and a withdrawal where a word was taken would end the transfer for both sides. In a workshop
the step sees only the machine and those pipes (`Workshop.onMachine_eq`).
-/

namespace NodeCube

theorem Ports.ByOwner.trans {a b c : Ports} (h : ByOwner a b) (h' : ByOwner b c) : ByOwner a c :=
  ⟨fun p => (h.incoming p).trans (h'.incoming p), fun p => (h.outgoing p).trans (h'.outgoing p)⟩

theorem Action.byOwner_bind {α β : Type} {a : Action α} {k : α → Action β} {s : Site}
    (ha : s.ports.ByOwner (Outcome.state (a s)).ports)
    (hk : ∀ x (s' : Site), s'.ports.ByOwner (Outcome.state (k x s')).ports) :
    s.ports.ByOwner (Outcome.state ((a >>= k) s)).ports := by
  cases h : a s with
  | ok x s' =>
    rw [h] at ha
    rw [Outcome.bind_ok h]
    exact ha.trans (hk x s')
  | error e s' =>
    rw [h] at ha
    rw [Outcome.bind_error h]
    exact ha

theorem Site.ports_hold (s : Site) (t : Target) (v : Word) : (s.hold t v).ports = s.ports := by
  unfold hold
  split <;> rfl

theorem Site.Writes.byOwner {s : Site} {o : Outcome Fault Site Bool} (h : s.Writes o) :
    s.ports.ByOwner (Outcome.state o).ports := by
  cases h with
  | rests | faults => exact .refl _
  | holds t v => exact (s.ports_hold t v).symm ▸ .refl _
  | files t v b hw => exact ⟨fun _ => .refl _, fun q => file_writerMoved q hw⟩

/-! ## Instructions -/

namespace Execution

variable {s : Site}

theorem byOwner_deliver (t : Target) (v : Word) (s : Site) :
    s.ports.ByOwner (Outcome.state (deliver t v s)).ports := by
  by_cases ht : t = .acc
  · subst ht
    exact .refl _
  · refine Action.byOwner_bind (t.writes_beginWrite s ht v).byOwner fun done _ => ?_
    cases done <;> exact .refl _

theorem byOwner_awaitTaken (t : Target) (s : Site) :
    s.ports.ByOwner (Outcome.state (awaitTaken t s)).ports := by
  refine Action.byOwner_bind (t.writes_isWriting s).byOwner fun writing _ => ?_
  cases writing <;> exact .refl _

theorem byOwner_fetch (hu : s.Untaken) (t : Target) :
    s.ports.ByOwner (Outcome.state (fetch t s)).ports := by
  by_cases ht : t = .bak
  · subst ht
    exact .refl _
  · have hlisten : s.ports.ByOwner (s.attend t).ports :=
      ⟨Site.attend_readerMoved s t, fun _ => .refl _⟩
    rw [fetch_eq ht fun _ => hu]
    split
    · exact .refl _
    · split
      · exact hlisten
      · exact hlisten.trans ⟨Site.grab_readerMoved _ t _, fun _ => .refl _⟩

/-- Only the operand is read, so what comes after it may find words taken. -/
theorem byOwner_withOperand (hu : s.Untaken) (i : Instruction) (mode : Mode)
    {k : Word → Action Progress}
    (hk : ∀ v (s : Site), s.ports.ByOwner (Outcome.state (k v s)).ports) :
    s.ports.ByOwner (Outcome.state (withOperand i mode k s)).ports := by
  cases mode with
  | immediate => exact hk _ _
  | target =>
    refine Action.byOwner_bind (byOwner_fetch hu i.source) fun v s' => ?_
    cases v with
    | none => exact .refl _
    | some v => exact hk v s'

theorem byOwner_execute (hu : s.Untaken) (program : Program) (i : Instruction) :
    s.ports.ByOwner (Outcome.state (execute program i s)).ports := by
  cases hop : i.op with
  | missing | simple op =>
    simp only [execute, hop]
    exact .refl _
  | arith op mode =>
    simp only [execute, hop]
    exact byOwner_withOperand hu i mode fun _ _ => .refl _
  | move mode =>
    cases hw : s.registers.writeInFlight with
    | true =>
      rw [Program.execute_flight program hop hw]
      exact byOwner_awaitTaken _ s
    | false =>
      rw [Program.execute_move program hop hw]
      exact byOwner_withOperand hu i mode fun v s' => byOwner_deliver _ v s'
  | jump cond =>
    simp only [execute, hop]
    rw [show ∀ k : Registers → Action Progress, (Action.registers >>= k) s = k s.registers s from
      fun _ => Outcome.bind_ok (s := s) rfl]
    split
    · cases hl : program.labels.find? i.label with
      | none | some index =>
        simp only [jump, hl]
        exact .refl _
    · exact .refl _
  | jumpBy mode =>
    simp only [execute, hop]
    exact byOwner_withOperand hu i mode fun _ _ => .refl _

end Execution

/-- A step changes only the node's own side of its pipes. -/
theorem Program.byOwner_step (program : Program) {s : Site} (hu : s.Untaken) :
    s.ports.ByOwner (Outcome.state (program.step s)).ports := by
  cases hi : program.current? s.registers with
  | none =>
    rw [step_of_none hi]
    exact .refl _
  | some i =>
    rw [step_of_current? hi]
    generalize hs : s.setRegisters _ = s₀
    have hu₀ : s₀.Untaken := hs ▸ hu
    rw [show s.ports = s₀.ports from hs ▸ rfl]
    exact Action.byOwner_bind (Execution.byOwner_execute hu₀ program i) fun _ _ => .refl _

/-! ## Machines in a workshop -/

theorem Machine.state_step (m : Machine) (ports : Ports) :
    Outcome.state (step (m, ports)) =
      ({ m with registers := (Outcome.state (m.program.step ⟨m.registers, ports, []⟩)).registers },
        (Outcome.state (m.program.step ⟨m.registers, ports, []⟩)).ports) :=
  Outcome.state_within _ _

theorem Performance.state_ofFaulting {σ α : Type} (answer : α → Answer) (a : EStateM Fault σ α)
    (s : σ) : Outcome.state (ofFaulting answer a s) = Outcome.state (a s) := by
  unfold ofFaulting
  cases a s <;> rfl

namespace Workshop

variable {w : Workshop} {s t : Stand} {part : Part} {mount : Mount} {m : Machine}

theorem bench_setBench (w : Workshop) (s t : Stand) (b : Bench) :
    (w.setBench s b).bench t = if t = s then b else w.bench t := by
  cases s <;> cases t <;> rfl

/-- A pipe of one of the casings. -/
def pipe (w : Workshop) (t : Stand) (k : Socket) : Pipe := (w.bench t).casing.pipes.pipe k

/-- The machine of a part, whether it is bare or a node's, and the mount at which it sits. -/
def machine? (w : Workshop) (s : Stand) (part : Part) : Option (Mount × Machine) :=
  if part.spot = .bare then ((w.bench s).bare.get part.face).map fun m => (⟨s, part.face⟩, m)
  else (w.device? s part).bind fun x => x.device.node?.map fun n => (x.mount, n.machine)

theorem pipe_setPorts (w : Workshop) (mount : Mount) (ports : Ports) (t : Stand) (k : Socket) :
    (w.setPorts mount ports).pipe t k =
      if t = mount.stand then ((w.bench t).casing.pipes.withPorts mount.face ports).pipe k
      else w.pipe t k := by
  unfold pipe setPorts
  rw [bench_setBench]
  by_cases h : t = mount.stand
  · simp only [h, if_true]
  · simp only [h, if_false]

theorem ports_setPorts (w : Workshop) (mount : Mount) (ports : Ports) :
    (w.setPorts mount ports).ports mount = ports := by
  unfold Workshop.ports setPorts
  rw [bench_setBench, if_pos rfl]
  exact Pipes.ports_withPorts _ _ _

/-- The pipes do not tell which machine a part is. -/
theorem machine?_setPorts (w : Workshop) (mount : Mount) (ports : Ports) (s : Stand) (part : Part) :
    (w.setPorts mount ports).machine? s part = w.machine? s part := by
  obtain ⟨f, spot⟩ := part
  unfold machine? device? setPorts
  rw [bench_setBench]
  by_cases h : s = mount.stand
  · subst h
    cases spot <;> simp [Casing.module?]
  · simp [h]

theorem pipe_setBench {b : Bench} (h : b.casing.pipes = (w.bench s).casing.pipes) (t : Stand)
    (k : Socket) : (w.setBench s b).pipe t k = w.pipe t k := by
  unfold pipe
  rw [bench_setBench]
  split
  · rename_i e
    rw [h, e]
  · rfl

theorem pipe_setDevice (w : Workshop) (s : Stand) (part : Part) (x : Module) (t : Stand)
    (k : Socket) : (w.setDevice s part x).pipe t k = w.pipe t k := by
  unfold setDevice
  split
  · refine pipe_setBench ?_ t k
    rfl
  · refine pipe_setBench ?_ t k
    rfl
  · rfl

theorem device?_setDevice {x : Module} (h : w.device? s part = some x) (d : Device) :
    (w.setDevice s part ⟨x.mount, d⟩).device? s part = some ⟨x.mount, d⟩ := by
  cases hs : part.spot with
  | slot =>
    simp only [device?, hs] at h
    obtain ⟨e, -, rfl⟩ := Option.map_eq_some_iff.mp h
    simp [device?, setDevice, hs, bench_setBench, Casing.module?]
  | spare => simp [device?, setDevice, hs, bench_setBench]
  | bare => simp [device?, hs] at h

/-- What is done with the machine of a part sees that machine and the pipes at its mount, and
changes nothing else: `put` puts a machine in its place. -/
theorem onMachine_eq (h : w.machine? s part = some (mount, m)) :
    ∃ put : Machine → Workshop,
      (∀ m', (put m').machine? s part = some (mount, m')) ∧
      (∀ m' t k, (put m').pipe t k = w.pipe t k) ∧
      ∀ a, onMachine s part a w =
        Outcome.within (fun (x : Machine × Ports) => (put x.1).setPorts mount x.2)
          (a (m, w.ports mount)) := by
  unfold machine? at h
  split at h
  · rename_i hspot
    obtain ⟨m, hbare, ⟨⟩⟩ := Option.map_eq_some_iff.mp h
    refine ⟨w.setBare s part.face, fun m' => ?_, fun m' => pipe_setBench rfl, fun a => ?_⟩
    · simp [machine?, hspot, setBare, bench_setBench]
    · simp only [onMachine, hspot, onBare, hbare]
  · rename_i hspot
    obtain ⟨x, hx, h⟩ := Option.bind_eq_some_iff.mp h
    obtain ⟨n, hn, ⟨⟩⟩ := Option.map_eq_some_iff.mp h
    have hd : x.device = .node n := by
      cases hd : x.device with
      | node n' =>
        rw [hd] at hn
        cases hn
        rfl
      | meter | ticker =>
        rw [hd] at hn
        cases hn
    refine ⟨fun m' => w.setDevice s part ⟨x.mount, .node { n with machine := m' }⟩,
      fun m' => ?_, fun m' => pipe_setDevice _ _ _ _, fun a => ?_⟩
    · rw [machine?, if_neg hspot, device?_setDevice hx]
      rfl
    · have hnode : onMachine s part a = onNode s part (Node.onMachine a) := by
        cases hs : part.spot with
        | bare => exact absurd hs hspot
        | slot | spare => simp only [onMachine, hs]
      simp only [hnode, onNode, onDevice, hx, hd, Node.onMachine]
      cases a (n.machine, w.ports x.mount) <;> rfl

/-- What a step of the machine at a mount may have changed of the pipes: its own side of the eight
pipes that touch its face. -/
structure Footprint (mount : Mount) (w w' : Workshop) : Prop where
  apart : ∀ t (k : Socket),
    (t = mount.stand → k.face ≠ mount.face ∧ k.opposite.face ≠ mount.face) →
    w'.pipe t k = w.pipe t k
  receiving : ∀ p, Pipe.ReaderMoved (w.pipe mount.stand ⟨mount.face, p⟩)
    (w'.pipe mount.stand ⟨mount.face, p⟩)
  sending : ∀ p, Pipe.WriterMoved (w.pipe mount.stand (Socket.opposite ⟨mount.face, p⟩))
    (w'.pipe mount.stand (Socket.opposite ⟨mount.face, p⟩))

theorem footprint_setPorts {w' : Workshop} {ports : Ports} (hw : ∀ t k, w'.pipe t k = w.pipe t k)
    (h : (w.ports mount).ByOwner ports) : Footprint mount w (w'.setPorts mount ports) where
  apart t k hk := by
    rw [pipe_setPorts]
    split
    · rename_i e
      obtain ⟨hf, ho⟩ := hk e
      rw [Pipes.pipe_withPorts, if_neg hf, if_neg ho]
      exact hw t k
    · exact hw t k
  receiving p := by
    have hp := h.incoming p
    rw [Workshop.ports, Pipes.incoming_ports] at hp
    rw [pipe_setPorts, if_pos rfl, ← Pipes.incoming_ports, Pipes.ports_withPorts]
    exact hp
  sending p := by
    have hp := h.outgoing p
    rw [Workshop.ports, Pipes.outgoing_ports] at hp
    rw [pipe_setPorts, if_pos rfl, ← Pipes.outgoing_ports, Pipes.ports_withPorts]
    exact hp

/-- A step of a machine, whether it faults or not, leaves all pipes alone that do not touch its
face, and of those that do it changes at most its own side. What comes out of it, for the machine
and for these pipes, is the same wherever the same machine meets the same pipes. -/
theorem stepMachine_footprint (w : Workshop) (s : Stand) (part : Part) (mount : Mount) (m : Machine)
    (hm : w.machine? s part = some (mount, m)) (hu : (w.ports mount).Untaken) :
    Footprint mount w (Outcome.state (perform s (.stepMachine part) w)) ∧
    ∃ x r ports, ∀ (v : Workshop) (t : Stand) (q : Part) (n : Mount),
      v.machine? t q = some (n, m) → v.ports n = w.ports mount →
      Outcome.result (perform t (.stepMachine q) v) = x ∧
      (Outcome.state (perform t (.stepMachine q) v)).machine? t q =
        some (n, { m with registers := r }) ∧
      (Outcome.state (perform t (.stepMachine q) v)).ports n = ports := by
  refine ⟨?_, Outcome.result (Performance.ofFaulting (fun _ => .done) Machine.step
      (m, w.ports mount)),
    (Outcome.state (m.program.step ⟨m.registers, w.ports mount, []⟩)).registers,
    (Outcome.state (m.program.step ⟨m.registers, w.ports mount, []⟩)).ports,
    fun v t q n hv hports => ?_⟩
  · obtain ⟨put, -, hpipe, hrun⟩ := onMachine_eq hm
    rw [perform, hrun, Outcome.state_within, Performance.state_ofFaulting, Machine.state_step]
    exact footprint_setPorts (hpipe _) (m.program.byOwner_step (s := ⟨m.registers, _, []⟩) hu)
  · obtain ⟨put, hput, -, hrun⟩ := onMachine_eq hv
    rw [perform, hrun, hports, Outcome.result_within, Outcome.state_within,
      Performance.state_ofFaulting, Machine.state_step]
    refine ⟨rfl, ?_, ports_setPorts _ _ _⟩
    rw [machine?_setPorts, hput]

/-- A machine that passes words on from `ANY` to `ANY`. Its program counter is past the end, and it
holds a word from before. -/
def passing : Machine where
  program := { instructions := [{ op := .move .target, source := .any, destination := .any }] }
  registers := { pc := 7, anyWrite := some 3 }

/-- The machine sits beside an empty casing. A word is ready at its left port, it waits for one at
its right port, and somebody waits at its upper port. -/
def relaying : Workshop where
  first.casing.stand := .first
  first.casing.pipes :=
    ((Pipes.fresh.setPipe ⟨.zNeg, .left⟩ ⟨.transferring, true, true, false, 5⟩).setPipe
      ⟨.zNeg, .right⟩ ⟨.reading, false, true, false, 0⟩).setPipe
        (Socket.opposite ⟨.zNeg, .up⟩) ⟨.reading, false, true, false, 0⟩
  first.bare := (PerFace.replicate none).set .zNeg (some passing)

/-- The machine takes the word at its left port, waits no longer at its right port, and hands the
word over at its upper port. -/
theorem stepMachine_footprint_relaying :
    relaying.machine? .first ⟨.zNeg, .bare⟩ = some (⟨.first, .zNeg⟩, passing) ∧
    (relaying.ports ⟨.first, .zNeg⟩).Untaken ∧
    ∃ w', w' = Outcome.state (perform .first (.stepMachine ⟨.zNeg, .bare⟩) relaying) ∧
      Footprint ⟨.first, .zNeg⟩ relaying w' ∧
      w'.pipe .first ⟨.zNeg, .left⟩ = ⟨.transferring, true, true, true, 5⟩ ∧
      w'.pipe .first ⟨.zNeg, .right⟩ = ⟨.reading, false, false, false, 0⟩ ∧
      w'.pipe .first (Socket.opposite ⟨.zNeg, .up⟩) = ⟨.reading, true, true, false, 5⟩ := by
  have hm : relaying.machine? .first ⟨.zNeg, .bare⟩ = some (⟨.first, .zNeg⟩, passing) := rfl
  have hu : (relaying.ports ⟨.first, .zNeg⟩).Untaken := by
    intro p
    cases p <;> rfl
  exact ⟨hm, hu, _, rfl, (stepMachine_footprint relaying .first _ _ _ hm hu).1, by decide,
    by decide, by decide⟩

end Workshop

end NodeCube
