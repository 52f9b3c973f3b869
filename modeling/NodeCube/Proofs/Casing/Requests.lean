import NodeCube.Proofs.Casing.Rig

/-!
# Every request has an owner

In every state that a history leads to, a request on a pipe is one that the node on that face has
filed for the instruction at its program counter and still waits for, and a node that waits for a
word has filed its requests. Nothing in the casing keeps this link: it holds because every
operation restores it.
-/

namespace NodeCube

/-- The instruction at the program counter. -/
def Node.instruction? (n : Node) : Option Instruction :=
  if 0 ≤ n.machine.registers.pc then
    n.machine.program.instructions[n.machine.registers.pc.toNat]?
  else none

/-- Where the program counter fits, the instruction there is the one that the next step executes. -/
theorem Node.instruction?_eq {n : Node} (h : n.machine.program.PcFits n.machine.registers) :
    n.instruction? = n.machine.program.current? n.machine.registers := by
  obtain ⟨h0, h | h⟩ := h
  · simp only [instruction?, Program.current?, Execution.startPc, h0, h, and_self, if_true]
  · simp only [instruction?, Program.current?, Execution.startPc, h, Int.le_refl, if_true, ite_self]

namespace Target

variable {t : Target} {last : Option Port} {p : Port}

theorem resolves_iff : t.resolves last p = true ↔
    t = .port p ∨ (t = .any ∨ t = .last) ∧ last = some p := by
  cases t <;> simp [resolves]

theorem hears_iff : t.hears last p = true ↔
    t = .port p ∨ t = .any ∨ t = .last ∧ last = some p := by
  cases t <;> simp [hears]

end Target

namespace Node.Orderly

variable {n : Node} {e : Bool} {ports : Ports} {p : Port}

/-- A word that waits at a port was handed over by the `MOV` at the program counter. -/
theorem owner_of_writing (h : n.Orderly e ports) (hw : (ports.outgoing.get p).writing = true) :
    n.machine.registers.writeInFlight = true ∧ n.machine.registers.anyWrite = none ∧
      ∃ i mode, n.instruction? = some i ∧ i.op = .move mode ∧
        (i.destination = .port p ∨
          (i.destination = .any ∨ i.destination = .last) ∧ n.machine.registers.last = some p) := by
  have ho := h.safe.owns
  obtain ⟨hf, ha, i, hi, hr⟩ := ho.writes p hw
  obtain ⟨-, j, mode, hj, hm, -⟩ := ho.fits.flight hf
  cases hi.symm.trans hj
  exact ⟨hf, ha, i, mode, (instruction?_eq ho.fits.pc).trans hi, hm, Target.resolves_iff.mp hr⟩

/-- A request to read at a port is for the operand of the instruction at the program counter. -/
theorem owner_of_reading (h : n.Orderly e ports) (hu : ports.Untaken)
    (hr : (ports.incoming.get p).reading = true) :
    n.machine.registers.stalled = true ∧ n.machine.registers.writeInFlight = false ∧
      ∃ i, n.instruction? = some i ∧ i.op.readsSource = true ∧
        (i.source = .port p ∨ i.source = .any ∨
          i.source = .last ∧ n.machine.registers.last = some p) := by
  obtain ⟨hs, hf, i, hi, hread, hh⟩ := (h.attends p).mp ⟨hr, hu p⟩
  exact ⟨hs, hf, i, (instruction?_eq h.safe.owns.fits.pc).trans hi, hread, Target.hears_iff.mp hh⟩

/-- Only a `MOV` to `ANY` holds a word. -/
theorem any_of_held (h : n.Orderly e ports) (ha : n.machine.registers.anyWrite.isSome = true) :
    n.machine.registers.writeInFlight = true ∧
      ∃ i mode, n.instruction? = some i ∧ i.op = .move mode ∧ i.destination = .any := by
  have hfits := h.safe.owns.fits
  obtain ⟨hf, hany⟩ := hfits.held ha
  obtain ⟨-, i, mode, hi, hm, -⟩ := hfits.flight hf
  exact ⟨hf, i, mode, (instruction?_eq hfits.pc).trans hi, hm, hany i hi⟩

/-- A node that waits for a word has filed its requests. -/
theorem reading_of_waiting (h : n.Orderly e ports) (hs : n.machine.registers.stalled = true)
    (hf : n.machine.registers.writeInFlight = false) :
    ∃ i, n.instruction? = some i ∧ i.op.readsSource = true ∧
      ((∃ p, i.source = .port p ∧ (ports.incoming.get p).reading = true) ∨
        (i.source = .any ∧ ∀ p, (ports.incoming.get p).reading = true) ∨
        (i.source = .last ∧ ∀ p, n.machine.registers.last = some p →
          (ports.incoming.get p).reading = true)) := by
  obtain ⟨i, hi, hread, hr⟩ := h.safe.owns.fits.waits hs hf
  have hreads : ∀ p, i.source.hears n.machine.registers.last p = true →
      (ports.incoming.get p).reading = true :=
    fun p hp => ((h.attends p).mpr ⟨hs, hf, i, hi, hread, hp⟩).1
  refine ⟨i, (instruction?_eq h.safe.owns.fits.pc).trans hi, hread, ?_⟩
  cases hsrc : i.source with
  | acc | bak | nil => rw [hsrc] at hr; cases hr
  | port p => exact .inl ⟨p, rfl, hreads p (Target.hears_iff.mpr (.inl hsrc))⟩
  | any => exact .inr (.inl ⟨rfl, fun p => hreads p (Target.hears_iff.mpr (.inr (.inl hsrc)))⟩)
  | last =>
    exact .inr (.inr ⟨rfl, fun p hp => hreads p (Target.hears_iff.mpr (.inr (.inr ⟨hsrc, hp⟩)))⟩)

end Node.Orderly

/-- A face with a request of this side has a node. -/
theorem Device.exists_node_of_not_quiet {e : Bool} {d : Option Device} {ports : Ports} {p : Port}
    (h : Device.Orderly e d ports)
    (hr : (ports.incoming.get p).reading = true ∨ (ports.outgoing.get p).writing = true) :
    ∃ n, d = some (.node n) ∧ n.Orderly e ports := by
  match d, h with
  | some (.node n), h => exact ⟨n, rfl, h⟩
  | none, h | some (.meter _), h | some (.ticker _), h =>
    rcases hr with hr | hr
    · rw [Ports.Quiet.reading h p] at hr; cases hr
    · rw [Ports.Quiet.writing h p] at hr; cases hr

/-- Whatever was done to a casing, the requests on its pipes and the nodes that wait belong
together, and no word is left half taken. -/
theorem Rig.requests_owned (stand : Stand) (acts : List Act) :
    let r := (Rig.new stand).run acts
    let slot := r.casing.slots.get
    let receiving := fun f p => r.casing.pipes.pipe ⟨f, p⟩
    let sending := fun f p => r.casing.pipes.pipe (Socket.opposite ⟨f, p⟩)
    (∀ s, (r.casing.pipes.pipe s).taken = false) ∧
    (∀ f p, (sending f p).writing = true → ∃ n, slot f = some (.node n) ∧
      n.machine.registers.writeInFlight = true ∧ n.machine.registers.anyWrite = none ∧
      ∃ i mode, n.instruction? = some i ∧ i.op = .move mode ∧
        (i.destination = .port p ∨
          (i.destination = .any ∨ i.destination = .last) ∧ n.machine.registers.last = some p)) ∧
    (∀ f p, (receiving f p).reading = true → ∃ n, slot f = some (.node n) ∧
      n.machine.registers.stalled = true ∧ n.machine.registers.writeInFlight = false ∧
      ∃ i, n.instruction? = some i ∧ i.op.readsSource = true ∧
        (i.source = .port p ∨ i.source = .any ∨
          i.source = .last ∧ n.machine.registers.last = some p)) ∧
    (∀ f n, slot f = some (.node n) → n.machine.registers.anyWrite.isSome = true →
      n.machine.registers.writeInFlight = true ∧
      ∃ i mode, n.instruction? = some i ∧ i.op = .move mode ∧ i.destination = .any) ∧
    (∀ m n, m ∈ r.shelf → m.device = .node n → n.machine.registers.Clear) ∧
    (∀ f n, slot f = some (.node n) → n.machine.registers.stalled = true →
      n.machine.registers.writeInFlight = false →
      ∃ i, n.instruction? = some i ∧ i.op.readsSource = true ∧
        ((∃ p, i.source = .port p ∧ (receiving f p).reading = true) ∨
          (i.source = .any ∧ ∀ p, (receiving f p).reading = true) ∨
          (i.source = .last ∧ ∀ p, n.machine.registers.last = some p →
            (receiving f p).reading = true))) := by
  intro r slot receiving sending
  have h : r.Under Device.Orderly Device.Spare := orderly_run stand acts
  have hnode : ∀ f n, slot f = some (.node n) →
      n.Orderly r.casing.enabled (r.casing.pipes.ports f) :=
    fun f n hn => h.casing.orderly_node hn
  refine ⟨h.casing.untaken, fun f p hw => ?_, fun f p hr => ?_, fun f n hn ha => ?_,
    fun m n hm hn => ?_, fun f n hn hs hf => ?_⟩
  · have hw' : ((r.casing.pipes.ports f).outgoing.get p).writing = true := by
      rw [Pipes.outgoing_ports]
      exact hw
    obtain ⟨n, hn, ho⟩ := Device.exists_node_of_not_quiet (h.casing.holds f) (.inr hw')
    exact ⟨n, hn, ho.owner_of_writing hw'⟩
  · have hr' : ((r.casing.pipes.ports f).incoming.get p).reading = true := by
      rw [Pipes.incoming_ports]
      exact hr
    obtain ⟨n, hn, ho⟩ := Device.exists_node_of_not_quiet (h.casing.holds f) (.inl hr')
    exact ⟨n, hn, ho.owner_of_reading (h.casing.untaken_ports f) hr'⟩
  · exact (hnode f n hn).any_of_held ha
  · have := h.shelf m hm
    rw [hn] at this
    exact this.clear
  · simpa only [Pipes.incoming_ports] using (hnode f n hn).reading_of_waiting hs hf

end NodeCube
