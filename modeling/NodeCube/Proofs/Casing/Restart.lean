import NodeCube.Proofs.Casing.Replica

/-!
# Stopping and starting over

When a casing is disabled, its nodes forget what they waited for and every request is dropped, by
two loops that know nothing of each other. What is left of a transfer that was under way is the
value of its pipe, and nobody sees the value of a pipe without a word (`Casing.Alike`,
`Casing.likewise_step`). So a casing that is enabled again goes on like a new one with new nodes
that have the same sources and start from the same registers (`Casing.renewed`,
`Rig.restarts_as_new`).
-/

namespace NodeCube

namespace Casing

/-! ## Casings that differ in nothing that is seen -/

/-- Two casings that differ at most in their stands and in the values of pipes without a word. -/
structure Alike (a b : Casing) : Prop where
  enabled : a.enabled = b.enabled
  slots : a.slots = b.slots
  pipes : ∀ s, (a.pipes.pipe s).Alike (b.pipes.pipe s)

/-- Something that ends in the same way in any two casings that are alike, and leaves them alike. -/
def Likewise (x : EStateM Fault Casing Unit) : Prop :=
  ∀ a b, a.Alike b → Outcome.result (x a) = Outcome.result (x b) ∧
    (Outcome.state (x a)).Alike (Outcome.state (x b))

variable {a b c : Casing}

theorem Alike.ports (h : a.Alike b) (f : Face) :
    (a.pipes.ports f).Same Pipe.Alike Pipe.Alike (b.pipes.ports f) where
  incoming p := by
    rw [Pipes.incoming_ports, Pipes.incoming_ports]
    exact h.pipes _
  outgoing p := by
    rw [Pipes.outgoing_ports, Pipes.outgoing_ports]
    exact h.pipes _

theorem Alike.place (h : a.Alike b) (f : Face) (d : Device) {t u : Ports}
    (ht : t.Same Pipe.Alike Pipe.Alike u) : (a.place f d t).Alike (b.place f d u) where
  enabled := h.enabled
  slots := congrArg (PerFace.set · f (some d)) h.slots
  pipes s := by
    show ((a.pipes.withPorts f t).pipe s).Alike ((b.pipes.withPorts f u).pipe s)
    rw [Pipes.pipe_withPorts, Pipes.pipe_withPorts]
    split
    · exact ht.incoming _
    · split
      · exact ht.outgoing _
      · exact h.pipes s

theorem Alike.stepPipes (h : a.Alike b) : a.stepPipes.Alike b.stepPipes where
  enabled := h.enabled
  slots := h.slots
  pipes s := by
    rw [Casing.stepPipes, Casing.stepPipes, Pipes.pipe_mapPipes, Pipes.pipe_mapPipes]
    exact (h.pipes s).step

namespace Likewise

theorem bind {x : EStateM Fault Casing Unit} {k : Unit → EStateM Fault Casing Unit}
    (hx : Likewise x) (hk : ∀ u, Likewise (k u)) : Likewise (x >>= k) := by
  intro a b h
  obtain ⟨hr, hs⟩ := hx a b h
  cases ha : x a with
  | ok u a' =>
    cases hb : x b with
    | ok v b' =>
      rw [ha, hb] at hs
      rw [Outcome.bind_ok ha, Outcome.bind_ok hb]
      exact hk u a' b' hs
    | error e b' => rw [ha, hb] at hr; cases hr
  | error e a' =>
    cases hb : x b with
    | ok v b' => rw [ha, hb] at hr; cases hr
    | error e' b' =>
      rw [ha, hb] at hr hs
      rw [Outcome.bind_error ha, Outcome.bind_error hb]
      exact ⟨hr, hs⟩

theorem forM {ι : Type} {x : ι → EStateM Fault Casing PUnit} (h : ∀ i, Likewise (x i))
    (l : List ι) : Likewise (l.forM x) := by
  induction l with
  | nil => exact fun _ _ h => ⟨rfl, h⟩
  | cons i l ih => exact (h i).bind fun _ => ih

end Likewise

theorem likewise_stepFace (f : Face) : Likewise (stepFace f) := by
  intro a b h
  cases hs : a.slots.get f with
  | none =>
    rw [stepFace_of_none hs, stepFace_of_none (h.slots ▸ hs)]
    exact ⟨rfl, h⟩
  | some d =>
    obtain ⟨hres, hslot, hports⟩ := d.turn_same Pipe.view_alike (h.ports f)
    rw [stepFace, onDevice_of_some hs, onDevice_of_some (h.slots ▸ hs), Outcome.result_within,
      Outcome.result_within, Outcome.state_within, Outcome.state_within]
    refine ⟨hres, ?_⟩
    show (a.place f (d.turn (a.pipes.ports f)).1 _).Alike (b.place f (d.turn (b.pipes.ports f)).1 _)
    rw [← hslot]
    exact h.place f _ hports

theorem likewise_tick (faces : List Face) : Likewise (tick faces) :=
  (Likewise.forM likewise_stepFace faces).bind fun _ _ _ h => ⟨rfl, h.stepPipes⟩

/-- A step does the same in any two casings that are alike. -/
theorem likewise_step : Likewise step := by
  intro a b h
  unfold step
  rw [← h.enabled]
  split
  · exact likewise_tick Face.all a b h
  · exact ⟨rfl, h⟩

theorem Alike.after (h : a.Alike b) (k : Nat) : (a.after k).Alike (b.after k) := by
  induction k with
  | zero => exact h
  | succ k ih => exact (likewise_step _ _ ih).2

/-- What does not fault in one does not fault in the other. -/
theorem Alike.step_after (h : a.Alike b) {k : Nat}
    (hs : step (a.after k) = .ok () (a.after (k + 1))) :
    step (b.after k) = .ok () (b.after (k + 1)) := by
  have hr := (likewise_step _ _ (h.after k)).1
  rw [hs] at hr
  cases hb : step (b.after k) with
  | ok u b' =>
    rw [Casing.after, hb]
    rfl
  | error e b' =>
    rw [hb] at hr
    cases hr

theorem Alike.enable (h : a.Alike b) : a.enable.Alike b.enable := by
  unfold Casing.enable
  rw [← h.enabled, ← h.slots]
  split
  · exact h
  · exact ⟨rfl, rfl, h.pipes⟩

end Casing

/-! ## A clean stop -/

theorem Registers.Clear.clearRequests_eq {r : Registers} (h : r.Clear) : r.clearRequests = r := by
  obtain ⟨pc, acc, bak, last, writeInFlight, anyWrite, stalled⟩ := r
  obtain ⟨rfl, rfl, rfl⟩ := h
  rfl

/-- A node that waits for nothing and does not run is not changed when it is told to stop. -/
theorem Node.Orderly.disabled_eq {n : Node} {ports : Ports} (h : n.Orderly false ports) :
    Device.disabled (.node n) = .node n := by
  simp only [Device.disabled, (h.clear rfl).clearRequests_eq, ← h.running]

namespace Casing

variable {c : Casing}

theorem Each.slots_disable (h : c.Each (Device.Orderly c.enabled)) {f : Face} {n : Node}
    (hn : c.slots.get f = some (.node n)) :
    c.disable.slots.get f = some (Device.disabled (.node n)) := by
  cases he : c.enabled with
  | true => rw [Casing.slots_disable he, hn, Option.map_some]
  | false =>
    rw [he] at h
    rw [(h.orderly_node hn).disabled_eq]
    simpa [Casing.disable, he] using hn

theorem slots_disable_of_none {f : Face} (hn : c.slots.get f = none) :
    c.disable.slots.get f = none := by
  cases he : c.enabled with
  | true => rw [Casing.slots_disable he, hn, Option.map_none]
  | false => simpa [Casing.disable, he] using hn

/-- Whether it was enabled or not, a casing has no request after `disable`. -/
theorem Each.pipe_disable (h : c.Each (Device.Orderly c.enabled))
    (hp : c.enabled = false → c.Published) (s : Socket) :
    (c.disable.pipes.pipe s).phase = .idle ∧ (c.disable.pipes.pipe s).writing = false ∧
      (c.disable.pipes.pipe s).reading = false ∧ (c.disable.pipes.pipe s).taken = false := by
  cases he : c.enabled with
  | true => exact Casing.pipe_disable he s
  | false =>
    have hd : c.disable = c := by simp [Casing.disable, he]
    rw [he] at h
    have hr := (Device.quiet_of_disabled (h.holds s.face) (h.untaken_ports _)).reading s.port
    have hw := (Device.quiet_of_disabled (h.holds s.opposite.face)
      (h.untaken_ports _)).writing s.opposite.port
    rw [Pipes.incoming_ports] at hr
    rw [Pipes.outgoing_ports_opposite] at hw
    rw [hd]
    refine ⟨?_, hw, hr, h.untaken s⟩
    rw [hp he s, hw, hr]
    rfl

end Casing

/-! ## Starting over -/

/-- A new node with the source of this one, that starts from its registers but waits for nothing. -/
def Node.renewed (n : Node) : Node :=
  (Node.ofSource n.source).withRegisters
    { pc := n.machine.registers.pc
      acc := n.machine.registers.acc
      bak := n.machine.registers.bak
      last := n.machine.registers.last }

theorem Node.renewed_eq {n : Node} (hc : n.Compiled) (he : n.Explained) :
    .node n.renewed = Device.disabled (.node n) := by
  have hp : (Assembler.compile n.source).1 = n.machine.program := hc.symm
  have hd : (Assembler.compile n.source).2 = n.diagnostic := he.symm
  simp only [renewed, ofSource, assemble, withRegisters, Machine.load, hp, hd, Device.disabled,
    Registers.clearRequests]

/-- A new node in place of one, or nothing. -/
def Device.renewed? : Option Device → Option Device
  | some (.node n) => some (.node n.renewed)
  | _ => none

namespace Casing

variable {b c : Casing}

/-- A new casing with new nodes in place of those of this one. -/
def renewed (stand : Stand) (c : Casing) : Casing :=
  Face.all.foldl (fun b f => (b.exchange f (Device.renewed? (c.slots.get f))).1) (new stand)

theorem pipes_exchange_of_fresh (h : b.pipes = Pipes.fresh) (f : Face) (d : Option Device) :
    (b.exchange f d).1.pipes = Pipes.fresh := by
  rw [exchange_eq]
  refine Pipes.ext_pipe fun s => ?_
  dsimp only
  rw [h, Pipes.pipe_withPorts]
  split
  · simp [Pipe.cancelRead, Pipe.step, Pipe.settle, Phase.ofRequests]
  · split
    · simp [Pipe.cancelWrite, Pipe.step, Pipe.settle, Phase.ofRequests]
    · rfl

theorem foldl_exchange (g : Face → Option Device) {faces : List Face} (hl : faces.Nodup)
    (he : b.enabled = false) (hp : b.pipes = Pipes.fresh) :
    (faces.foldl (fun b f => (b.exchange f (g f)).1) b).enabled = false ∧
    (faces.foldl (fun b f => (b.exchange f (g f)).1) b).pipes = Pipes.fresh ∧
    ∀ f, (faces.foldl (fun b f => (b.exchange f (g f)).1) b).slots.get f =
      if f ∈ faces then g f else b.slots.get f := by
  induction faces generalizing b with
  | nil => exact ⟨he, hp, fun f => by simp⟩
  | cons f faces ih =>
    obtain ⟨hf, hl⟩ := List.nodup_cons.mp hl
    have he₁ : (b.exchange f (g f)).1.enabled = false := by rw [exchange_eq]; exact he
    have hs₁ : (b.exchange f (g f)).1.slots = b.slots.set f (g f) := by
      rw [exchange_eq]
      simp only [map_receive, he, Bool.false_eq_true, if_false]
    obtain ⟨he', hp', hs'⟩ := ih hl he₁ (pipes_exchange_of_fresh hp f (g f))
    refine ⟨he', hp', fun x => ?_⟩
    rw [List.foldl_cons, hs', hs₁, PerFace.get_set]
    by_cases e : x = f
    · subst e
      simp [hf]
    · simp [e]

/-- A casing of nodes that was stopped and the new one are alike. -/
theorem alike_renewed (h : c.Each (Device.Orderly c.enabled))
    (hp : c.enabled = false → c.Published) (ht : c.Translated)
    (hn : ∀ f d, c.slots.get f = some d → d.kind = .node) (stand : Stand) :
    c.disable.Alike (c.renewed stand) := by
  obtain ⟨hen, hpipes, hslots⟩ := foldl_exchange (b := new stand)
    (fun f => Device.renewed? (c.slots.get f)) (show Face.all.Nodup by decide) rfl rfl
  refine ⟨(enabled_disable c).trans hen.symm, PerFace.ext_get fun f => ?_, fun s => ?_⟩
  · refine Eq.trans ?_ (hslots f).symm
    rw [if_pos (Face.mem_all f)]
    cases hs : c.slots.get f with
    | none => exact slots_disable_of_none hs
    | some d =>
      have hd := hn f d hs
      cases d with
      | node n =>
        obtain ⟨hc, he⟩ := ht f n hs
        rw [h.slots_disable hs, ← Node.renewed_eq hc he]
        rfl
      | meter | ticker => cases hd
  · obtain ⟨hphase, hw, hr, htaken⟩ := h.pipe_disable hp s
    have hs : (c.renewed stand).pipes.pipe s = {} := by
      rw [show (c.renewed stand).pipes = Pipes.fresh from hpipes, Pipes.pipe_fresh]
    rw [hs]
    refine ⟨hphase, hw, hr, htaken, fun e => ?_⟩
    rw [hw] at e
    cases e

end Casing

namespace Rig

/-- A casing of nodes that is disabled, whatever was done to it before, is at rest: no pipe has a
request, no node waits for anything, and but for that the nodes are as they were. When it is enabled
again, it goes on without a fault as a new casing does that has new nodes with the same sources,
program counters, accumulators, backups and last ports. -/
theorem restarts_as_new (stand : Stand) (acts : List Act)
    (hn : ∀ f d, ((new stand).run acts).casing.slots.get f = some d → d.kind = .node)
    (stand' : Stand) :
    let c := ((new stand).run acts).casing
    (∀ s, (c.disable.pipes.pipe s).phase = .idle ∧ (c.disable.pipes.pipe s).writing = false ∧
      (c.disable.pipes.pipe s).reading = false ∧ (c.disable.pipes.pipe s).taken = false) ∧
    (∀ f, c.slots.get f = none → c.disable.slots.get f = none) ∧
    (∀ f n, c.slots.get f = some (.node n) → ∃ m, c.disable.slots.get f = some (.node m) ∧
      m.machine.registers.writeInFlight = false ∧ m.machine.registers.stalled = false ∧
      m.machine.registers.anyWrite = none ∧
      m.machine.registers.pc = n.machine.registers.pc ∧
      m.machine.registers.acc = n.machine.registers.acc ∧
      m.machine.registers.bak = n.machine.registers.bak ∧
      m.machine.registers.last = n.machine.registers.last ∧
      m.machine.program = n.machine.program ∧ m.source = n.source) ∧
    ∀ k, Casing.step (c.disable.enable.after k) = .ok () (c.disable.enable.after (k + 1)) ∧
      Casing.step ((c.renewed stand').enable.after k) =
        .ok () ((c.renewed stand').enable.after (k + 1)) ∧
      (c.disable.enable.after k).Alike ((c.renewed stand').enable.after k) := by
  intro c
  have hshown : ((new stand).run acts).Shown false := (shown_new stand false).run (by simp)
  obtain ⟨hu, hp⟩ := hshown
  have hk : c.Each (Device.Orderly c.enabled) := hu.casing
  replace hp : c.enabled = false → c.Published := fun he => hp (.inr he)
  have halike := (Casing.alike_renewed hk hp (translated_run stand acts) hn stand').enable
  refine ⟨hk.pipe_disable hp, fun f hf => Casing.slots_disable_of_none hf, fun f n hf => ?_,
    fun k => ?_⟩
  · exact ⟨_, hk.slots_disable hf, rfl, rfl, rfl, rfl, rfl, rfl, rfl, rfl, rfl⟩
  · have hstep := (Device.orderly_regime.enable (Device.orderly_regime.disable hk)).step_after k
    exact ⟨hstep, halike.step_after hstep, halike.after k⟩

/-- A casing in which a word can be taken. -/
def offered : Rig :=
  (new .first).run
    [.make ⟨⟨.first, .zNeg⟩, .node, ascii "MOV 5, RIGHT"⟩,
      .make ⟨⟨.first, .xNeg⟩, .node, ascii "MOV LEFT, ACC"⟩,
      .install .zNeg 0, .install .xNeg 0, .enable, .step]

/-- The word is left in the pipe, and in the casing that starts over it makes no difference. -/
theorem restarts_as_new_offered :
    offered.casing.pipes.pipe ⟨.xNeg, .left⟩ =
      { phase := .transferring, writing := true, reading := true, value := 5 } ∧
    offered.casing.disable.pipes.pipe ⟨.xNeg, .left⟩ = { value := 5 } ∧
    (offered.casing.renewed .second).pipes.pipe ⟨.xNeg, .left⟩ = {} ∧
    ∀ k, (offered.casing.disable.enable.after k).Alike
      ((offered.casing.renewed .second).enable.after k) := by
  refine ⟨by decide +kernel, by decide +kernel, by decide +kernel, fun k => ?_⟩
  have hn : ∀ f d, offered.casing.slots.get f = some d → d.kind = .node :=
    Casing.kind_eq_node fun f => by cases f <;> decide +kernel
  exact ((restarts_as_new .first _ hn .second).2.2.2 k).2.2

end Rig

end NodeCube
