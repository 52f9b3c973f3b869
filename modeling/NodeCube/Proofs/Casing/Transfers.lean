import NodeCube.Proofs.Casing.Conservation
import NodeCube.Proofs.Casing.Requests
import NodeCube.Proofs.Casing.Restore
import NodeCube.Proofs.Site.Waiting

/-!
# Transfers that are shown

Between two ticks a pipe that shows a transfer has a node at either end that waits for it: the
writer has handed its word over, and the reader has filed its request. In the next tick the reader
takes the word of the first pipe that shows a transfer (`Node.Orderly.turn_of_waiting`), and the
writer sees that in the tick after (`Casing.Steady.turn_of_hands`). With `ANY` there may be more
than one such pipe; the words of the others stay where they are.
-/

namespace NodeCube

/-- The first port whose pipe shows a transfer. -/
def Ports.shown? (ports : Ports) : Option Port :=
  Port.all.find? fun p => (ports.incoming.get p).phase == .transferring

namespace Node.Orderly

variable {n : Node} {e : Bool} {ports : Ports} {i : Instruction} {s : Site}

/-- The turn of a node that waits for a word to read, while the pipes show what is pending. -/
theorem turn_of_waiting (h : n.Orderly e ports) (hu : ports.Untaken)
    (hp : ∀ p, (ports.incoming.get p).Published) (hst : n.machine.registers.stalled = true)
    (hf : n.machine.registers.writeInFlight = false) (hi : n.instruction? = some i)
    (ht : n.machine.program.Turned (n.site ports) s) :
    ports.shown? = none ∧ s = n.site ports ∨ ∃ p, ports.shown? = some p ∧
      s = n.machine.program.carryOut i (ports.incoming.get p).value
        ((n.site ports).grab i.source p) := by
  rw [instruction?_eq h.safe.owns.fits.pc] at hi
  obtain ⟨j, hj, hs, hr⟩ := h.safe.owns.fits.waits hst hf
  cases hi.symm.trans hj
  have hshown : (n.site ports).chosen? i.source = ports.shown? := h.attends.chosen?_eq hu hi hp
  rw [← hshown]
  exact ht.eq_of_listening h.attends hst hf hi hs hr

end Node.Orderly

namespace Casing

variable {c : Casing} {f : Face} {n : Node} {i : Instruction}

theorem Published.incoming (h : c.Published) (f : Face) (p : Port) :
    ((c.pipes.ports f).incoming.get p).Published := by
  rw [Pipes.incoming_ports]
  exact h _

/-! ## One turn -/

/-- The pipes at which a node reads, after it took a word at port `p` and carried its instruction
out. -/
theorem incoming_taking {t : Target} {v : Word} (c : Casing) (f : Face) (n : Node) (p q : Port) :
    (n.machine.program.carryOut i v ((n.site (c.pipes.ports f)).grab t p)).ports.incoming.get q =
      if q = p then { c.pipes.pipe ⟨f, q⟩ with taken := true }
      else if t = .any then { c.pipes.pipe ⟨f, q⟩ with reading := false }
      else c.pipes.pipe ⟨f, q⟩ := by
  refine (Program.incoming_carryOut q).trans ?_
  rw [Site.incoming_grab, Node.incoming_site, Pipes.incoming_ports]

section Turn

variable (h : c.Each (Device.Orderly true)) (hp : c.Published)
  (hn : c.slots.get f = some (.node n)) (hst : n.machine.registers.stalled = true)
  (hf : n.machine.registers.writeInFlight = false) (hi : n.instruction? = some i)
include h hp hn hst hf hi

/-- A node to which nothing is shown waits on. -/
theorem stepFace_of_nothing_shown (hs : (c.pipes.ports f).shown? = none) :
    stepFace f c = .ok () c := by
  have ho := h.orderly_node hn
  obtain ⟨s, hstep, ht, -⟩ := ho.safe.turn (h.untaken_ports f)
  rcases ho.turn_of_waiting (h.untaken_ports f) (hp.incoming f) hst hf hi ht with
    ⟨-, rfl⟩ | ⟨p, hs', -⟩
  · rw [stepFace_of_some hn (Device.step_running ho.running hstep)]
    exact Outcome.ok_congr rfl (place_self hn)
  · cases hs.symm.trans hs'

/-- A node to which a transfer is shown takes the word and carries its instruction out. -/
theorem stepFace_of_shown {p : Port} (hs : (c.pipes.ports f).shown? = some p) :
    let s := n.machine.program.carryOut i (c.pipes.pipe ⟨f, p⟩).value
      ((n.site (c.pipes.ports f)).grab i.source p)
    stepFace f c = .ok () (c.place f (.node (n.withRegisters s.registers)) s.ports) ∧
      (c.pipes.ports f).ByOwner s.ports := by
  have ho := h.orderly_node hn
  obtain ⟨s, hstep, ht, -⟩ := ho.safe.turn (h.untaken_ports f)
  rcases ho.turn_of_waiting (h.untaken_ports f) (hp.incoming f) hst hf hi ht with
    ⟨hs', -⟩ | ⟨q, hs', rfl⟩
  · cases hs.symm.trans hs'
  · cases hs.symm.trans hs'
    rw [Pipes.incoming_ports] at hstep ht
    exact ⟨stepFace_of_some hn (Device.step_running ho.running hstep), ht.byOwner⟩

end Turn

/-- A pipe on which a word was taken is one at which the face that had its turn reads. -/
theorem taken_place {ports : Ports} {d : Device} {p : Port}
    (h : ∀ s, (c.pipes.pipe s).taken = false) (ho : (c.pipes.ports f).ByOwner ports)
    (hi : ∀ q, (ports.incoming.get q).taken = decide (q = p)) (s : Socket) :
    ((c.place f d ports).pipes.pipe s).taken = decide (s = ⟨f, p⟩) := by
  obtain ⟨g, q⟩ := s
  simp only [place, Pipes.pipe_withPorts]
  split
  · rename_i e
    subst e
    simp [hi]
  · rename_i e
    have hne : (⟨g, q⟩ : Socket) ≠ ⟨f, p⟩ := fun hs => e (congrArg Socket.face hs)
    rw [decide_eq_false hne]
    split
    · rw [(ho.outgoing _).taken, Pipes.outgoing_ports]
      exact h _
    · exact h _

/-! ## One tick -/

/-- What a tick makes of a pipe: the requests that its two ends leave on it, published. -/
theorem pipe_stepPipes_merged (c : Casing) (s : Socket) : c.merged.stepPipes.pipes.pipe s =
    Pipe.step
      { phase := (c.pipes.pipe s).phase
        writing := ((c.portsAfter s.opposite.face).outgoing.get s.opposite.port).writing
        reading := ((c.portsAfter s.face).incoming.get s.port).reading
        taken := ((c.portsAfter s.face).incoming.get s.port).taken
        value := ((c.portsAfter s.opposite.face).outgoing.get s.opposite.port).value } := by
  simp only [stepPipes, merged, Pipes.pipe_mapPipes, Pipes.pipe_ofFn]

namespace Steady

variable (h : c.Steady) {s : Socket}
include h

/-- A node that waits at the end of a pipe for its word to be taken. -/
theorem writer_of_writing (hw : (c.pipes.pipe s).writing = true) :
    ∃ n, c.slots.get s.opposite.face = some (.node n) ∧
      n.Orderly true (c.pipes.ports s.opposite.face) ∧
      n.machine.program.Hands n.machine.registers s.opposite.port := by
  have hout : ((c.pipes.ports s.opposite.face).outgoing.get s.opposite.port).writing = true := by
    rw [Pipes.outgoing_ports_opposite]
    exact hw
  obtain ⟨n, hn, ho⟩ :=
    Device.exists_node_of_not_quiet (h.orderly.holds s.opposite.face) (.inr hout)
  exact ⟨n, hn, ho, ho.safe.owns.writes _ hout⟩

/-- A node that waits at the end of a pipe for a word. -/
theorem reader_of_reading (hr : (c.pipes.pipe s).reading = true) :
    ∃ n, c.slots.get s.face = some (.node n) ∧ n.Orderly true (c.pipes.ports s.face) ∧
      n.machine.program.Listens n.machine.registers s.port := by
  have hin : ((c.pipes.ports s.face).incoming.get s.port).reading = true := by
    rw [Pipes.incoming_ports]
    exact hr
  obtain ⟨n, hn, ho⟩ := Device.exists_node_of_not_quiet (h.orderly.holds s.face) (.inl hin)
  exact ⟨n, hn, ho, (ho.attends s.port).mp ⟨hin, h.orderly.untaken_ports s.face s.port⟩⟩

/-- In a tick a node whose word waits at port `p` looks whether it is still there. -/
theorem turn_of_hands {p : Port} (hn : c.slots.get f = some (.node n))
    (hh : n.machine.program.Hands n.machine.registers p) :
    c.portsAfter f = c.pipes.ports f ∧ c.merged.stepPipes.slots.get f =
      some (.node (n.withRegisters
        (if (c.pipes.pipe (Socket.opposite ⟨f, p⟩)).writing then n.machine.registers
          else n.machine.program.delivered n.machine.registers))) := by
  have hfit := (h.orderly.orderly_node hn).safe.owns.fits
  obtain ⟨s, ht, -, hports, hslot⟩ := h.turn hn
  have hs := ht.eq_of_hands (s := n.site (c.pipes.ports f)) hfit hh
  rw [Node.outgoing_site, Pipes.outgoing_ports] at hs
  rw [hports, hslot, hs]
  split <;> exact ⟨rfl, rfl⟩

/-- In a tick a node to which a transfer is shown takes one word. -/
theorem turn_of_shown {p q : Port} (hn : c.slots.get f = some (.node n))
    (hl : n.machine.program.Listens n.machine.registers q) (hi : n.instruction? = some i)
    (hs : (c.pipes.ports f).shown? = some p) :
    (∀ q w, .took q w ∈ c.passages f ↔ q = p ∧ w = (c.pipes.pipe ⟨f, p⟩).value) ∧
      ∀ q, (c.portsAfter f).incoming.get q =
        if q = p then { c.pipes.pipe ⟨f, q⟩ with taken := true }
        else if i.source = .any then { c.pipes.pipe ⟨f, q⟩ with reading := false }
        else c.pipes.pipe ⟨f, q⟩ := by
  obtain ⟨s, ht, hpass, hports, -⟩ := h.turn hn
  rcases (h.orderly.orderly_node hn).turn_of_waiting (h.orderly.untaken_ports f)
    (h.published.incoming f) hl.1 hl.2.1 hi ht with ⟨hs', -⟩ | ⟨p', hs', rfl⟩
  · cases hs.symm.trans hs'
  · cases hs.symm.trans hs'
    refine ⟨fun q w => ?_, fun q => ?_⟩
    · rw [hpass, Program.took_mem_carryOut]
      simp
    · rw [hports]
      exact c.incoming_taking f n p q

/-- The node at the reading end of a transfer that is shown, and the port from which it takes a word
in the next tick. -/
theorem reader_of_shown (hs : (c.pipes.pipe s).phase = .transferring) :
    ∃ n i p, c.slots.get s.face = some (.node n) ∧ n.instruction? = some i ∧
      n.machine.program.Listens n.machine.registers s.port ∧
      (c.pipes.ports s.face).shown? = some p ∧ (i.source ≠ .any → p = s.port) := by
  obtain ⟨-, hr⟩ := Phase.ofRequests_eq_transferring.mp ((h.published s).symm.trans hs)
  obtain ⟨n, hn, ho, hl⟩ := h.reader_of_reading hr
  obtain ⟨hst, hf, i, hi, hread, hhears⟩ := hl
  cases hp : (c.pipes.ports s.face).shown? with
  | none =>
    have hno := List.find?_eq_none.mp hp s.port s.port.mem_all
    rw [Pipes.incoming_ports, show (⟨s.face, s.port⟩ : Socket) = s from rfl, hs] at hno
    exact absurd rfl hno
  | some p =>
    refine ⟨n, i, p, hn, (Node.instruction?_eq ho.safe.owns.fits.pc).trans hi,
      ⟨hst, hf, i, hi, hread, hhears⟩, rfl, fun ha => ?_⟩
    -- a node that does not read from `ANY` listens at one port only
    have hshow := List.find?_some hp
    rw [beq_iff_eq, h.published.incoming s.face p] at hshow
    have hp' := (ho.attends.hears (h.orderly.untaken_ports s.face) hi
      (Phase.ofRequests_eq_transferring.mp hshow).2).2
    exact Target.hears_unique ha hp' hhears

/-- A pipe whose word stays on it, or is taken, in the next tick. -/
theorem pipe_of_hands (hn : c.slots.get s.opposite.face = some (.node n))
    (hh : n.machine.program.Hands n.machine.registers s.opposite.port)
    (hw : (c.pipes.pipe s).writing = true) :
    if ((c.portsAfter s.face).incoming.get s.port).taken then
      c.merged.stepPipes.pipes.pipe s = { value := (c.pipes.pipe s).value }
    else (c.merged.stepPipes.pipes.pipe s).writing = true ∧
      (c.merged.stepPipes.pipes.pipe s).value = (c.pipes.pipe s).value := by
  have hports := (h.turn_of_hands hn hh).1
  rw [pipe_stepPipes_merged, hports, Pipes.outgoing_ports_opposite, hw]
  cases ht : ((c.portsAfter s.face).incoming.get s.port).taken with
  | true => simp [Pipe.step, Pipe.settle, Phase.ofRequests]
  | false => simp [Pipe.writing_step]

end Steady

end Casing

namespace Rig

variable {stand : Stand} {acts : List Act}

/-- An enabled casing whose nodes kept their programs while they were installed. -/
theorem steady_run (ha : ∀ a ∈ acts, a.keepsPrograms = true)
    (he : ((new stand).run acts).casing.enabled = true) :
    ((new stand).run acts).casing.Steady := by
  have h : ((new stand).run acts).Shown true := (shown_new stand true).run fun _ => ha
  have hk := h.under.casing
  rw [he] at hk
  exact ⟨he, hk, h.published (.inl rfl)⟩

/-- Two nodes offer words to a third one, which reads from `ANY` and answers to `LAST`. -/
def rivals : List Act :=
  [.make ⟨⟨.first, .zNeg⟩, .node, ascii "MOV 7, RIGHT"⟩,
    .make ⟨⟨.first, .zPos⟩, .node, ascii "MOV 9, LEFT"⟩,
    .make ⟨⟨.first, .xNeg⟩, .node, ascii "MOV ANY, LAST"⟩,
    .install .zNeg 0, .install .zPos 0, .install .xNeg 0, .enable, .step]

theorem shown_rivals :
    let c := ((new .first).run rivals).casing
    ([.left, .right, .up, .down].find? fun q =>
      (c.pipes.pipe ⟨.xNeg, q⟩).phase == .transferring) = some .left := by
  decide +kernel

/-- A node that waits for a word from `ANY` waits on if none of its pipes shows a transfer. Else it
takes the word of the first one that does, from left, right, up and down, remembers that port,
withdraws its other requests and carries its instruction out; the words on its other pipes stay. -/
theorem any_takes_first (stand : Stand) (acts : List Act)
    (ha : ∀ a ∈ acts, a.keepsPrograms = true) :
    let c := ((new stand).run acts).casing
    ∀ f n i, c.slots.get f = some (.node n) → n.running = true →
      n.machine.registers.stalled = true → n.machine.registers.writeInFlight = false →
      n.instruction? = some i → i.source = .any →
      let pipe := fun q => c.pipes.pipe ⟨f, q⟩
      let shown := [.left, .right, .up, .down].find? fun q => (pipe q).phase == .transferring
      (shown = none → Casing.stepFace f c = .ok () c) ∧
      ∀ p, shown = some p →
        let taking := (n.site (c.pipes.ports f)).grab .any p
        let done := n.machine.program.carryOut i (pipe p).value taking
        taking.registers = { n.machine.registers with last := some p } ∧
        taking.passed = [.took p (pipe p).value, .read .any (pipe p).value] ∧
        ∃ c', Casing.stepFace f c = .ok () c' ∧
          c'.slots.get f = some (.node (n.withRegisters done.registers)) ∧
          (∀ q, c'.pipes.pipe (Socket.opposite ⟨f, q⟩) = done.outgoing q) ∧
          (∀ q, c'.pipes.pipe ⟨f, q⟩ =
            if q = p then { pipe q with taken := true } else { pipe q with reading := false }) ∧
          ∀ s, (c'.pipes.pipe s).taken = decide (s = ⟨f, p⟩) := by
  intro c f n i hn hr hst hf hi hany pipe shown
  have he : c.enabled = true :=
    (((orderly_run stand acts).casing.orderly_node hn).running).symm.trans hr
  have h : c.Steady := steady_run ha he
  have hshown : (c.pipes.ports f).shown? = shown := by
    simp only [Ports.shown?, Port.all, Pipes.incoming_ports, shown, pipe]
  refine ⟨fun hs => ?_, fun p hs => ⟨by simp, by simp [pipe], ?_⟩⟩
  · exact Casing.stepFace_of_nothing_shown h.orderly h.published hn hst hf hi (hshown.trans hs)
  · obtain ⟨hstep, howner⟩ := Casing.stepFace_of_shown h.orderly h.published hn hst hf hi
      (hshown.trans hs)
    rw [hany] at hstep howner
    refine ⟨_, hstep, PerFace.get_set_self _ _ _, fun q => Casing.pipe_place_opposite _ _ _ _ _,
      fun q => ?_, Casing.taken_place h.orderly.untaken howner fun q => ?_⟩
    · rw [Casing.pipe_place_self, c.incoming_taking f n p q, if_pos rfl]
    · rw [c.incoming_taking f n p q, if_pos rfl]
      split
      · rename_i e
        simp [e]
      · rename_i e
        simpa [e] using h.orderly.untaken ⟨f, q⟩

/-- The word from the left is taken and goes back there; the one from the right stays. -/
theorem any_takes_first_rivals :
    let c := ((new .first).run rivals).casing
    ∃ c', Casing.stepFace .xNeg c = .ok () c' ∧
      (∀ s, (c'.pipes.pipe s).taken = decide (s = ⟨.xNeg, .left⟩)) ∧
      c'.pipes.pipe ⟨.xNeg, .right⟩ =
        { phase := .transferring, writing := true, reading := false, value := 9 } := by
  intro c
  have hwaits : (c.node? .xNeg).any (fun n => n.running &&
      n.machine.registers.stalled && !n.machine.registers.writeInFlight &&
      n.instruction?.any fun i => i.source == .any) = true := by
    decide +kernel
  obtain ⟨n, hn, hwaits⟩ := (Option.any_eq_true _ _).mp hwaits
  simp only [Bool.and_eq_true, Bool.not_eq_true', Option.any_eq_true, beq_iff_eq] at hwaits
  obtain ⟨⟨⟨hr, hst⟩, hf⟩, i, hi, hany⟩ := hwaits
  obtain ⟨-, -, c', hstep, -, -, hpipes, htaken⟩ := (any_takes_first .first rivals (by decide) .xNeg
    n i (Casing.node?_eq_some.mp hn) hr hst hf hi hany).2 .left shown_rivals
  refine ⟨c', hstep, htaken, (hpipes .right).trans ?_⟩
  decide +kernel

/-- A transfer that is shown completes. In the next tick the reader takes the word, unless it reads
from `ANY` and an earlier one of left, right, up and down shows a transfer, too. If it does, the pipe
is idle after that tick, and in the tick after it the writer is done with its `MOV`; if not, the word
is still there. -/
theorem transfer_completes (stand : Stand) (acts : List Act)
    (ha : ∀ a ∈ acts, a.keepsPrograms = true) :
    let c := ((new stand).run acts).casing
    c.enabled = true → ∀ s : Socket, (c.pipes.pipe s).phase = .transferring →
      (∀ k, Casing.step (c.after k) = .ok () (c.after (k + 1))) ∧
      ∃ w r i j mode p,
        c.slots.get s.opposite.face = some (.node w) ∧ w.instruction? = some i ∧
        i.op = .move mode ∧ w.machine.registers.writeInFlight = true ∧
        w.machine.registers.stalled = true ∧
        c.slots.get s.face = some (.node r) ∧ r.instruction? = some j ∧
        ([.left, .right, .up, .down].find? fun q =>
          (c.pipes.pipe ⟨s.face, q⟩).phase == .transferring) = some p ∧
        (j.source ≠ .any → p = s.port) ∧
        (∀ q v, .took q v ∈ c.passages s.face ↔ q = p ∧ v = (c.pipes.pipe ⟨s.face, p⟩).value) ∧
        (c.after 1).slots.get s.opposite.face = some (.node w) ∧
        (p = s.port →
          (c.after 1).pipes.pipe s = { value := (c.pipes.pipe s).value } ∧
          (c.after 2).slots.get s.opposite.face = some (.node (w.withRegisters
            { w.machine.registers with
              pc := Execution.wrapPc w.machine.program.instructions.length
                (w.machine.registers.pc + 1)
              writeInFlight := false
              stalled := false }))) ∧
        (p ≠ s.port → ((c.after 1).pipes.pipe s).writing = true ∧
          ((c.after 1).pipes.pipe s).value = (c.pipes.pipe s).value) := by
  intro c he s hs
  have h : c.Steady := steady_run ha he
  obtain ⟨hw, -⟩ := Phase.ofRequests_eq_transferring.mp ((h.published s).symm.trans hs)
  obtain ⟨w, hw₀, ho, hh⟩ := h.writer_of_writing hw
  obtain ⟨r, j, p, hr₀, hj, hl, hshown, hone⟩ := h.reader_of_shown hs
  obtain ⟨htook, hin⟩ := h.turn_of_shown hr₀ hl hj hshown
  obtain ⟨hst, i, mode, hi, hm, -⟩ := ho.safe.owns.fits.flight hh.1
  have hafter : c.after 1 = c.merged.stepPipes := h.after_succ 0
  -- the writer sees its word on the pipe and waits on
  have hw₁ : (c.after 1).slots.get s.opposite.face = some (.node w) := by
    rw [hafter, (h.turn_of_hands hw₀ hh).2]
    rw [show Socket.opposite ⟨s.opposite.face, s.opposite.port⟩ = s from s.opposite_opposite, hw,
      if_pos rfl]
    rfl
  have hpipe := h.pipe_of_hands hw₀ hh hw
  rw [hin s.port, ← hafter] at hpipe
  refine ⟨h.step_after, w, r, i, j, mode, p, hw₀,
    (Node.instruction?_eq ho.safe.owns.fits.pc).trans hi, hm, hh.1, hst, hr₀, hj, ?_, hone, htook,
    hw₁, fun hp => ?_, fun hp => ?_⟩
  · simpa only [Ports.shown?, Port.all, Pipes.incoming_ports] using hshown
  · rw [if_pos hp.symm, if_pos rfl] at hpipe
    refine ⟨hpipe, ?_⟩
    rw [h.after_succ 1, ((h.after 1).turn_of_hands hw₁ hh).2]
    rw [show Socket.opposite ⟨s.opposite.face, s.opposite.port⟩ = s from s.opposite_opposite, hpipe,
      if_neg Bool.false_ne_true]
    rfl
  · have hfree : (c.pipes.pipe ⟨s.face, s.port⟩).taken = false := h.orderly.untaken _
    have hstays : (if j.source = .any then
        { c.pipes.pipe ⟨s.face, s.port⟩ with reading := false }
        else c.pipes.pipe ⟨s.face, s.port⟩).taken = false := by
      split <;> exact hfree
    rwa [if_neg (Ne.symm hp), hstays, if_neg Bool.false_ne_true] at hpipe

/-- Of two transfers that are shown to one node, the first completes and the other stays. -/
theorem transfer_completes_rivals :
    let c := ((new .first).run rivals).casing
    (c.pipes.pipe ⟨.xNeg, .left⟩).phase = .transferring ∧
      (c.pipes.pipe ⟨.xNeg, .right⟩).phase = .transferring ∧
      (∃ w, (c.after 2).slots.get .zNeg = some (.node w) ∧
        w.machine.registers.writeInFlight = false) ∧
      ((c.after 1).pipes.pipe ⟨.xNeg, .right⟩).writing = true := by
  intro c
  have he : c.enabled = true := by decide +kernel
  have hleft : (c.pipes.pipe ⟨.xNeg, .left⟩).phase = .transferring := by decide +kernel
  have hright : (c.pipes.pipe ⟨.xNeg, .right⟩).phase = .transferring := by decide +kernel
  obtain ⟨-, w, -, -, -, -, p, -, -, -, -, -, -, -, hp, -, -, -, hread, -⟩ :=
    transfer_completes .first rivals (by decide) he ⟨.xNeg, .left⟩ hleft
  obtain ⟨-, -, -, -, -, -, q, -, -, -, -, -, -, -, hq, -, -, -, -, hkept⟩ :=
    transfer_completes .first rivals (by decide) he ⟨.xNeg, .right⟩ hright
  cases shown_rivals.symm.trans hp
  cases shown_rivals.symm.trans hq
  exact ⟨hleft, hright, ⟨_, (hread rfl).2, rfl⟩, (hkept (by decide)).1⟩

end Rig

end NodeCube
