import NodeCube.Proofs.Casing.Ownership
import NodeCube.Proofs.Site.Sight

/-!
# A tick as one step of all faces

Between ticks the pipes show what is pending on them (`Casing.Published`). Then a device that has
its turn cannot see what its neighbours did in the same tick, and it does what it would have done if
it had been the first. So a round leads to the casing in which every device made its own turn from
the same start, and each pipe has its reader's fields from one turn and its writer's fields from
another (`Casing.merged`), whatever the order of the turns (`Casing.stepFaces_eq_merged`).
-/

namespace NodeCube

namespace Pipe

/-- What is pending is published. -/
def Published (p : Pipe) : Prop := p.phase = Phase.ofRequests p.writing p.reading

theorem published_step (p : Pipe) : p.step.Published := rfl

theorem Published.writing {p : Pipe} (h : p.Published) (hp : p.phase = .transferring) :
    p.writing = true := by
  rw [h] at hp
  revert hp
  cases p.writing <;> cases p.reading <;> simp [Phase.ofRequests]

/-- A pipe with no request, when it shows that, is not changed by a step. -/
theorem Published.step_eq {p : Pipe} (h : p.Published) (ht : p.taken = false) : p.step = p := by
  unfold step
  rw [settle_of_not_taken ht, ← h]

/-- While the reader waits for its turn, the writer changes nothing that the reader can see. -/
theorem SameToReader.writerMoved {a b b' : Pipe} (h : SameToReader a b)
    (ha : a.phase = .transferring → a.writing = true) (hb : WriterMoved b b') :
    SameToReader a b' where
  phase := h.phase.trans hb.phase.symm
  reading := h.reading.trans hb.reading.symm
  taken := h.taken.trans hb.taken.symm
  published hp := by
    obtain ⟨hw, hv⟩ := h.published hp
    obtain ⟨hw', hv'⟩ := hb.kept (hw.symm.trans (ha hp))
    exact ⟨(ha hp).trans hw'.symm, hv.trans hv'.symm⟩

theorem SameToWriter.readerMoved {a b b' : Pipe} (h : SameToWriter a b) (hb : ReaderMoved b b') :
    SameToWriter a b' :=
  ⟨h.phase.trans hb.phase.symm, h.writing.trans hb.writing.symm, h.value.trans hb.value.symm⟩

end Pipe

namespace Ports

/-- The pipes look the same to the device here, as far as it sees of them. -/
structure Same (R W : Pipe → Pipe → Prop) (a b : Ports) : Prop where
  incoming : ∀ p, R (a.incoming.get p) (b.incoming.get p)
  outgoing : ∀ p, W (a.outgoing.get p) (b.outgoing.get p)

theorem Same.refl (a : Ports) : Same Pipe.SameToReader Pipe.SameToWriter a a :=
  ⟨fun _ => .refl _, fun _ => .refl _⟩

theorem Same.site {R W : Pipe → Pipe → Prop} {a b : Ports} (h : a.Same R W b) (n : Node) :
    Site.Same R W (n.site a) (n.site b) :=
  ⟨rfl, rfl, h.incoming, h.outgoing⟩

end Ports

/-! ## Turns -/

namespace Device

variable {a b : Ports}

/-- What a device becomes in its turn, and its pipes. -/
def turn (d : Device) (a : Ports) : Device × Ports := Outcome.state (step (d, a))

theorem turn_running {n : Node} (h : n.running = true) : turn (.node n) a =
    (.node (n.withRegisters (Outcome.state (n.machine.program.step (n.site a))).registers),
      (Outcome.state (n.machine.program.step (n.site a))).ports) := by
  rw [turn, step_node h, Outcome.state_within]

theorem turn_resting {n : Node} (h : n.running = false) : turn (.node n) a = (.node n, a) := by
  simp only [turn, step_resting h, Outcome.state]

/-- A device makes the same turn at any two pairs of ports that look the same. -/
theorem turn_same {R W : Pipe → Pipe → Prop} (hV : Pipe.View R W) (d : Device)
    (h : a.Same R W b) : Outcome.result (step (d, a)) = Outcome.result (step (d, b)) ∧
      (d.turn a).1 = (d.turn b).1 ∧ (d.turn a).2.Same R W (d.turn b).2 := by
  cases d with
  | node n =>
    cases hr : n.running with
    | true =>
      obtain ⟨hres, hs⟩ := n.machine.program.blind_step hV _ _ (h.site n)
      rw [turn_running hr, turn_running hr, step_node hr, step_node hr, Outcome.result_within,
        Outcome.result_within]
      exact ⟨hres, by rw [hs.registers], hs.incoming, hs.outgoing⟩
    | false =>
      rw [turn_resting hr, turn_resting hr, step_resting hr, step_resting hr]
      exact ⟨rfl, rfl, h⟩
  | meter m => exact ⟨rfl, rfl, h⟩
  | ticker k => exact ⟨rfl, rfl, h⟩

end Device

namespace Casing

/-- Between ticks the pipes show what is pending. -/
def Published (c : Casing) : Prop := ∀ s, (c.pipes.pipe s).Published

variable {c : Casing} {K : Option Device → Ports → Prop}

/-- What is on a face after the device there made its turn from this casing. -/
def slotAfter (c : Casing) (f : Face) : Option Device :=
  (c.slots.get f).map fun d => (d.turn (c.pipes.ports f)).1

/-- The pipes at a face after the device there made its turn from this casing. -/
def portsAfter (c : Casing) (f : Face) : Ports :=
  match c.slots.get f with
  | none => c.pipes.ports f
  | some d => (d.turn (c.pipes.ports f)).2

/-- The casing after every device made its turn from this one. -/
def merged (c : Casing) : Casing :=
  { c with
    slots := PerFace.ofFn c.slotAfter
    pipes := Pipes.ofFn fun s =>
      let read := (c.portsAfter s.face).incoming.get s.port
      let write := (c.portsAfter s.opposite.face).outgoing.get s.opposite.port
      { phase := (c.pipes.pipe s).phase
        writing := write.writing
        reading := read.reading
        taken := read.taken
        value := write.value } }

/-- A face that had its turn: its device, and its own side of the pipes. -/
structure Turned (c : Casing) (f : Face) (d : Option Device) (a : Ports) : Prop where
  slot : d = c.slotAfter f
  phase : ∀ p, (a.incoming.get p).phase = (c.pipes.pipe ⟨f, p⟩).phase
  reading : ∀ p, (a.incoming.get p).reading = ((c.portsAfter f).incoming.get p).reading
  taken : ∀ p, (a.incoming.get p).taken = ((c.portsAfter f).incoming.get p).taken
  writing : ∀ p, (a.outgoing.get p).writing = ((c.portsAfter f).outgoing.get p).writing
  value : ∀ p, (a.outgoing.get p).value = ((c.portsAfter f).outgoing.get p).value

theorem Turned.byOthers {f : Face} {d : Option Device} {a b : Ports} (h : c.Turned f d a)
    (hb : a.ByOthers b) : c.Turned f d b where
  slot := h.slot
  phase p := (hb.incoming p).phase.trans (h.phase p)
  reading p := (hb.incoming p).reading.trans (h.reading p)
  taken p := (hb.incoming p).taken.trans (h.taken p)
  writing p := (hb.outgoing p).writing.trans (h.writing p)
  value p := (hb.outgoing p).value.trans (h.value p)

/-- A face that waits for its turn: its device cannot tell that others had theirs. -/
structure Waits (K : Option Device → Ports → Prop) (c : Casing) (f : Face) (d : Option Device)
    (a : Ports) : Prop where
  slot : d = c.slots.get f
  same : (c.pipes.ports f).Same Pipe.SameToReader Pipe.SameToWriter a
  untaken : a.Untaken
  keeps : K d a

theorem Waits.byOthers (hK : Local K) (hp : c.Published) {f : Face} {d : Option Device}
    {a b : Ports} (h : c.Waits K f d a) (hb : a.ByOthers b) : c.Waits K f d b where
  slot := h.slot
  same :=
    { incoming := fun p => by
        refine (h.same.incoming p).writerMoved (fun e => ?_) (hb.incoming p)
        rw [Pipes.incoming_ports] at e ⊢
        exact (hp _).writing e
      outgoing := fun p => (h.same.outgoing p).readerMoved (hb.outgoing p) }
  untaken p := (hb.incoming p).taken.trans (h.untaken p)
  keeps := hK.spared d a b hb.spared h.keeps

theorem Waits.of_each (h : c.Each K) (f : Face) :
    c.Waits K f (c.slots.get f) (c.pipes.ports f) :=
  ⟨rfl, .refl _, h.untaken_ports f, h.holds f⟩

/-- The turn of a face without a device. -/
theorem Waits.rest {f : Face} {a : Ports} (h : c.Waits K f none a) : c.Turned f none a := by
  have hp : c.portsAfter f = c.pipes.ports f := by simp only [portsAfter, ← h.slot]
  refine ⟨?_, fun p => ?_, fun p => ?_, fun p => ?_, fun p => ?_, fun p => ?_⟩
  · simp only [slotAfter, ← h.slot, Option.map_none]
  · rw [← (h.same.incoming p).phase, Pipes.incoming_ports]
  · rw [hp, (h.same.incoming p).reading]
  · rw [hp, (h.same.incoming p).taken]
  · rw [hp, (h.same.outgoing p).writing]
  · rw [hp, (h.same.outgoing p).value]

/-- The turn of a device that waited for it. -/
theorem Waits.turn (hK : Local K) {f : Face} {d : Device} {a : Ports}
    (h : c.Waits K f (some d) a) : ∃ d' b, Device.step (d, a) = .ok () (d', b) ∧ a.ByOwner b ∧
      c.Turned f (some d') b := by
  obtain ⟨d', b, hd, ho, -⟩ := hK.turn d a h.untaken h.keeps
  have hafter : d.turn a = (d', b) := congrArg Outcome.state hd
  obtain ⟨-, hslot, hports⟩ := d.turn_same Pipe.view_same h.same
  rw [hafter] at hslot hports
  have hp : c.portsAfter f = (d.turn (c.pipes.ports f)).2 := by
    simp only [portsAfter, ← h.slot]
  refine ⟨d', b, hd, ho, ?_, fun p => ?_, fun p => ?_, fun p => ?_, fun p => ?_, fun p => ?_⟩
  · simp only [slotAfter, ← h.slot, Option.map_some, hslot]
  · rw [(ho.incoming p).phase, ← (h.same.incoming p).phase, Pipes.incoming_ports]
  · rw [hp, (hports.incoming p).reading]
  · rw [hp, (hports.incoming p).taken]
  · rw [hp, (hports.outgoing p).writing]
  · rw [hp, (hports.outgoing p).value]

/-- A round of turns from a casing whose pipes show what is pending. -/
theorem stepFaces_turned (hK : Local K) (h : c.Each K) (hp : c.Published) {faces : List Face}
    (hl : faces.Nodup) : ∃ c', stepFaces faces c = .ok () c' ∧ c'.stand = c.stand ∧
      c'.enabled = c.enabled ∧ (∀ f ∈ faces, c.Turned f (c'.slots.get f) (c'.pipes.ports f)) ∧
      ∀ f, f ∉ faces → c.Waits K f (c'.slots.get f) (c'.pipes.ports f) := by
  obtain ⟨c', hr⟩ := stepFaces_rounded (P := c.Waits K) (Q := c.Turned)
    { empty := fun f a hw => hw.rest
      turn := fun f d a hw => .inl (hw.turn hK)
      before := fun f d a b hb hw => hw.byOthers hK hp hb
      after := fun f d a b hb ht => ht.byOthers hb } hl fun f _ => .of_each h f
  refine ⟨c', hr.steps, hr.stand, hr.enabled, hr.had, fun f hf => ?_⟩
  obtain ⟨hslot, hports⟩ := hr.others f hf
  rw [hslot]
  exact (Waits.of_each h f).byOthers hK hp hports

/-- A casing all of whose faces had their turns. -/
theorem eq_merged {c' : Casing} (hs : c'.stand = c.stand) (he : c'.enabled = c.enabled)
    (h : ∀ f, c.Turned f (c'.slots.get f) (c'.pipes.ports f)) : c' = c.merged := by
  have hslots : c'.slots = c.merged.slots := by
    refine PerFace.ext_get fun f => ?_
    rw [(h f).slot]
    simp [merged]
  have hpipes : c'.pipes = c.merged.pipes := by
    refine Pipes.ext_pipe fun s => ?_
    have hr := h s.face
    have hw := h s.opposite.face
    have hin : (c'.pipes.ports s.face).incoming.get s.port = c'.pipes.pipe s := by
      rw [Pipes.incoming_ports]
    have hout :
        (c'.pipes.ports s.opposite.face).outgoing.get s.opposite.port = c'.pipes.pipe s := by
      rw [Pipes.outgoing_ports]
      exact congrArg _ s.opposite_opposite
    -- the fields of the reader come from its turn, those of the writer from the one at the
    -- other end
    have h₁ := hr.phase s.port
    have h₂ := hr.reading s.port
    have h₃ := hr.taken s.port
    have h₄ := hw.writing s.opposite.port
    have h₅ := hw.value s.opposite.port
    rw [hin] at h₁ h₂ h₃
    rw [hout] at h₄ h₅
    simp only [merged, Pipes.pipe_ofFn, ← h₂, ← h₃, ← h₄, ← h₅]
    rw [← h₁]
  obtain ⟨stand, enabled, slots, pipes⟩ := c'
  cases hs
  cases he
  cases hslots
  cases hpipes
  rfl

/-- The order of the turns does not matter. -/
theorem stepFaces_eq_merged (hK : Local K) (h : c.Each K) (hp : c.Published) {faces : List Face}
    (hl : faces.Perm Face.all) : stepFaces faces c = .ok () c.merged := by
  have hd : faces.Nodup := hl.nodup_iff.mpr (by decide)
  obtain ⟨c', hr, hs, he, ht, -⟩ := stepFaces_turned hK h hp hd
  rw [hr, eq_merged hs he fun f => ht f (hl.mem_iff.mpr (Face.mem_all f))]

theorem tick_eq_merged (hK : Local K) (h : c.Each K) (hp : c.Published) {faces : List Face}
    (hl : faces.Perm Face.all) : tick faces c = .ok () c.merged.stepPipes :=
  (Outcome.bind_ok (stepFaces_eq_merged hK h hp hl)).trans rfl

/-- What is local holds again after a tick. -/
theorem Each.merged (hK : Local K) (h : c.Each K) (hp : c.Published) :
    c.merged.stepPipes.Each K := by
  obtain ⟨c', hc, -, -, hk⟩ := h.tick hK (show Face.all.Nodup by decide)
  cases hc.symm.trans (tick_eq_merged hK h hp (.refl _))
  exact hk

end Casing

end NodeCube
