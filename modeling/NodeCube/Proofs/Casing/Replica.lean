import NodeCube.Proofs.Casing.Conservation
import NodeCube.Proofs.Casing.Faults

/-!
# Replicas

A casing that loads a snapshot of another one with nodes on the same faces becomes a replica of it
(`Casing.Twins.restored`): sources, diagnostics, programs, registers and pipes are the same, and
only the stand, and whether the casing is enabled, stay as they were. Programs and diagnostics are
not part of a snapshot; they are the same because every node of a history has those of its source
(`Node.Explained`, `Node.Compiled`). Nothing that happens in a step depends on the stand, so once
both are enabled the two go on alike (`Rig.snapshot_replicates`).
-/

namespace NodeCube

open Snapshot

/-! ## Diagnostics -/

/-- The diagnostic of a node is that of its source. -/
def Node.Explained (n : Node) : Prop := n.diagnostic = (Assembler.compile n.source).2

def Device.Explained : Device → Prop
  | .node n => n.Explained
  | _ => True

theorem Node.explained_assemble (n : Node) (source : Bytes) : (n.assemble source).Explained := by
  simp only [Explained, assemble]

/-- A turn changes only the registers of a node. -/
theorem Device.Explained.step {d d' : Device} {a b : Ports} (h : d.Explained)
    (hs : Device.step (d, a) = .ok () (d', b)) : d'.Explained := by
  match d, h with
  | .node n, h =>
    cases hr : n.running with
    | true =>
      rw [Device.step_node hr] at hs
      cases hp : n.machine.program.step (n.site a) with
      | ok u s =>
        rw [hp] at hs
        cases hs
        exact h
      | error e s =>
        rw [hp] at hs
        cases hs
    | false =>
      rw [Device.step_resting hr] at hs
      cases hs
      exact h
  | .meter m, _ | .ticker k, _ =>
    cases hs
    trivial

/-- Two regimes can be kept together. -/
theorem Regime.and {K K' : Bool → Option Device → Ports → Prop} {S S' : Device → Prop}
    (h : Regime K S) (h' : Regime K' S') :
    Regime (fun e d a => K e d a ∧ K' e d a) fun d => S d ∧ S' d where
  spared e d a b hab hd := ⟨h.spared e d a b hab hd.1, h'.spared e d a b hab hd.2⟩
  empty e ports hq := ⟨h.empty e ports hq, h'.empty e ports hq⟩
  receive e d ports hd hq := ⟨h.receive e d ports hd.1 hq, h'.receive e d ports hd.2 hq⟩
  retire e d ports hd := ⟨h.retire e d ports hd.1, h'.retire e d ports hd.2⟩
  start d ports hd := ⟨h.start d ports hd.1, h'.start d ports hd.2⟩
  shelve d source hd := ⟨h.shelve d source hd.1, h'.shelve d source hd.2⟩
  assemble e n source a b hd hq :=
    ⟨h.assemble e n source a b hd.1 hq, h'.assemble e n source a b hd.2 hq⟩

theorem Device.explained_regime :
    Regime (fun _ d _ => ∀ x, d = some x → x.Explained) Device.Explained where
  spared _ _ _ _ _ h := h
  empty _ _ _ _ h := by cases h
  receive e d ports hd _ := by
    rintro x ⟨rfl⟩
    match d, hd with
    | .node n, hd => cases e <;> exact hd
    | .meter m, _ | .ticker k, _ => cases e <;> trivial
  retire e d ports hd := by
    have hd := hd d rfl
    match d, hd with
    | .node n, hd => cases e <;> exact hd
    | .meter m, _ | .ticker k, _ => cases e <;> trivial
  start d ports hd := by
    intro x hx
    obtain ⟨y, rfl, rfl⟩ := Option.map_eq_some_iff.mp hx
    have hd := hd y rfl
    match y, hd with
    | .node n, hd => exact hd
    | .meter m, _ | .ticker k, _ => trivial
  shelve d source hd := by
    match d with
    | .node n => exact n.explained_assemble source
    | .meter m | .ticker k => trivial
  assemble e n source a b hd _ := by
    rintro x ⟨rfl⟩
    exact n.explained_assemble source

theorem Device.local_explained (e : Bool) :
    Local fun d a => Device.Orderly e d a ∧ ∀ x, d = some x → x.Explained where
  spared d a b hab h := ⟨(local_orderly e).spared d a b hab h.1, h.2⟩
  turn d a hu h := by
    obtain ⟨d', b, hs, hb, ho⟩ := (local_orderly e).turn d a hu h.1
    refine ⟨d', b, hs, hb, ho, ?_⟩
    rintro x ⟨rfl⟩
    exact (h.2 d rfl).step hs
  publish d a h := ⟨(local_orderly e).publish d a h.1, h.2⟩

/-- In every history the nodes have the diagnostics of their sources. -/
theorem Rig.explained_run (stand : Stand) (acts : List Act) {f : Face} {n : Node}
    (hn : ((new stand).run acts).casing.slots.get f = some (.node n)) : n.Explained := by
  have hr := Device.orderly_regime.and Device.explained_regime
  have hmade : ∀ order, .make order ∈ acts →
      Device.Spare order.device ∧ Device.Explained order.device := by
    intro order _
    refine ⟨order.spare_device, ?_⟩
    unfold Order.device
    split
    · exact Node.explained_assemble {} _
    · trivial
    · trivial
  have h := hr.run Device.local_explained (hr.new stand) hmade
  exact (h.casing.holds f).2 _ hn

/-! ## What a replica has -/

/-- A node that is restored is the saved one, but for whether it runs. -/
theorem Node.restored_eq {m : Node} (hc : m.Compiled) (he : m.Explained) (n : Node) :
    m.restored n = { m with running := n.running } := by
  have hp : (Assembler.compile m.source).1 = m.machine.program := hc.symm
  have hd : (Assembler.compile m.source).2 = m.diagnostic := he.symm
  simp only [restored, withRegisters, assemble, Machine.load, hp, hd]

theorem Node.length_encode (n : Node) : n.encode.length = n.source.length + 15 := by
  simp only [encode, encodeBlock, Registers.encode, encodeWord, encode32, encode16,
    List.length_append, List.length_cons, List.length_nil]
  omega

theorem Device.eq_node {d : Device} (h : d.kind = .node) : ∃ n, d = .node n := by
  cases d with
  | node n => exact ⟨n, rfl⟩
  | meter _ => cases h
  | ticker _ => cases h

theorem Casing.Compact.source_lt {c : Casing} (h : c.Compact) (f : Face) (n : Node)
    (hn : c.slots.get f = some (.node n)) : n.source.length + 15 < UInt32.size := by
  rw [← n.length_encode]
  exact h f n hn

namespace Casing

variable {a b c : Casing}

/-- Both casings have nodes, on the same faces, and no other devices. -/
structure Twins (a b : Casing) : Prop where
  kinds : ∀ f, (b.slots.get f).map Device.kind = (a.slots.get f).map Device.kind
  nodes : ∀ f d, a.slots.get f = some d → d.kind = .node

theorem kind_eq_node (h : ∀ f, (c.slots.get f).all (fun d => d.kind == .node) = true) (f : Face)
    (d : Device) (hd : c.slots.get f = some d) : d.kind = .node := by
  have hf := h f
  rw [hd] at hf
  exact eq_of_beq hf

/-- On each face there are nodes in both or in none. -/
theorem Twins.cases (h : a.Twins b) (f : Face) : a.slots.get f = none ∧ b.slots.get f = none ∨
    ∃ m n, a.slots.get f = some (.node m) ∧ b.slots.get f = some (.node n) := by
  have hk := h.kinds f
  cases ha : a.slots.get f with
  | none =>
    rw [ha, Option.map_none, Option.map_eq_none_iff] at hk
    exact .inl ⟨rfl, hk⟩
  | some d =>
    rw [ha, Option.map_some, h.nodes f d ha, Option.map_eq_some_iff] at hk
    obtain ⟨x, hb, hx⟩ := hk
    obtain ⟨m, rfl⟩ := Device.eq_node (h.nodes f d ha)
    obtain ⟨n, rfl⟩ := Device.eq_node hx
    exact .inr ⟨m, n, rfl, hb⟩

/-- All programs and diagnostics of the casing are those of the sources. -/
def Translated (c : Casing) : Prop :=
  ∀ f n, c.slots.get f = some (.node n) → n.Compiled ∧ n.Explained

/-- The devices of a replica. -/
theorem Twins.restored (h : a.Twins b) (ha : a.Translated) (f : Face) :
    a.slots.get f = none ∧ b.slots.get f = none ∧ (a.restored b).slots.get f = none ∨
      ∃ m n, a.slots.get f = some (.node m) ∧ b.slots.get f = some (.node n) ∧
        (a.restored b).slots.get f = some (.node { m with running := n.running }) := by
  simp only [Casing.restored, PerFace.get_ofFn]
  obtain ⟨hm, hn⟩ | ⟨m, n, hm, hn⟩ := h.cases f
  · exact .inl ⟨hm, hn, by rw [hm, hn]; rfl⟩
  · obtain ⟨hc, he⟩ := ha f m hm
    refine .inr ⟨m, n, hm, hn, ?_⟩
    rw [hm, hn, ← Node.restored_eq hc he]
    rfl

/-- A snapshot does not tell whether the nodes run. -/
theorem Twins.save_restored (h : a.Twins b) (ha : a.Translated) : (a.restored b).save = a.save := by
  have hslots : ∀ f, encodeSlot ((a.restored b).slots.get f) = encodeSlot (a.slots.get f) := by
    intro f
    obtain ⟨hm, -, hr⟩ | ⟨m, n, hm, -, hr⟩ := h.restored ha f
    · rw [hm, hr]
    · rw [hm, hr]
      rfl
  simp only [save, hslots]
  rfl

/-! ## Steps do not depend on the stand -/

/-- The same casing on another stand. -/
def moved (s : Stand) (c : Casing) : Casing := { c with stand := s }

theorem stepFace_moved (s : Stand) (f : Face) (c : Casing) :
    stepFace f (c.moved s) = Outcome.within (moved s) (stepFace f c) := by
  cases hs : c.slots.get f with
  | none => rw [stepFace_of_none hs, stepFace_of_none (c := c.moved s) hs, Outcome.within_ok]
  | some d =>
    cases hd : Device.step (d, c.pipes.ports f) with
    | ok u x =>
      rw [stepFace_of_some hs hd, stepFace_of_some (c := c.moved s) hs hd]
      rfl
    | error e x =>
      rw [stepFace_of_error hs hd, stepFace_of_error (c := c.moved s) hs hd]
      rfl

theorem stepFaces_moved (s : Stand) (faces : List Face) (c : Casing) :
    stepFaces faces (c.moved s) = Outcome.within (moved s) (stepFaces faces c) := by
  induction faces generalizing c with
  | nil => rfl
  | cons f faces ih =>
    have hf := stepFace_moved s f c
    cases hc : stepFace f c with
    | ok u c' =>
      rw [hc, Outcome.within_ok] at hf
      have hrest : stepFaces (f :: faces) c = stepFaces faces c' := Outcome.bind_ok hc
      rw [hrest, ← ih c']
      exact Outcome.bind_ok hf
    | error e c' =>
      rw [hc, Outcome.within_error] at hf
      have hend : stepFaces (f :: faces) c = .error e c' := Outcome.bind_error hc
      rw [hend]
      exact Outcome.bind_error hf

theorem step_moved (s : Stand) (c : Casing) :
    step (c.moved s) = Outcome.within (moved s) (step c) := by
  have hf := stepFaces_moved s Face.all c
  show (if c.enabled then tick Face.all (c.moved s) else _) = Outcome.within _ (step c)
  unfold step
  split
  · cases hc : stepFaces Face.all c with
    | ok u c' =>
      rw [hc, Outcome.within_ok] at hf
      simp only [tick, Outcome.bind_ok hf, Outcome.bind_ok hc]
      rfl
    | error e c' =>
      rw [hc, Outcome.within_error] at hf
      simp only [tick, Outcome.bind_error hf, Outcome.bind_error hc]
      rfl
  · rfl

theorem after_moved (s : Stand) (c : Casing) (k : Nat) :
    (c.moved s).after k = (c.after k).moved s := by
  induction k with
  | zero => rfl
  | succ k ih => simp only [after, ih, step_moved, Outcome.state_within]

/-! ## Going on -/

theorem Each.after (h : c.Each (Device.Orderly c.enabled)) (k : Nat) :
    (c.after k).Each (Device.Orderly (c.after k).enabled) := by
  induction k with
  | zero => exact h
  | succ k ih =>
    obtain ⟨c', hc, -, -, hk⟩ := ih.step Device.local_orderly
    rw [Casing.after, hc]
    exact hk

/-- A casing whose requests are in order goes on without a fault. -/
theorem Each.step_after (h : c.Each (Device.Orderly c.enabled)) (k : Nat) :
    Casing.step (c.after k) = .ok () (c.after (k + 1)) := by
  obtain ⟨c', hc, -⟩ := (h.after k).step Device.local_orderly
  rw [Casing.after, hc]
  rfl

/-- The nodes run just if the casing is enabled. -/
def InStep (c : Casing) : Prop :=
  ∀ f n, c.slots.get f = some (.node n) → n.running = c.enabled

theorem InStep.slots_enable (h : c.InStep) {f : Face} {n : Node}
    (hn : c.slots.get f = some (.node n)) :
    c.enable.slots.get f = some (.node { n with running := true }) := by
  have hr := h f n hn
  cases he : c.enabled with
  | true =>
    rw [← he, ← hr]
    simpa only [enable, he, if_true] using hn
  | false =>
    simp only [enable_eq he, PerFace.get_map, hn, Option.map_some]
    rfl

theorem slots_enable_of_none {f : Face} (hn : c.slots.get f = none) :
    c.enable.slots.get f = none := by
  unfold enable
  split
  · exact hn
  · rw [PerFace.get_map, hn]
    rfl

theorem pipes_enable (c : Casing) : c.enable.pipes = c.pipes := by
  unfold enable
  split <;> rfl

theorem stand_enable (c : Casing) : c.enable.stand = c.stand := by
  unfold enable
  split <;> rfl

/-- Once they are enabled, a casing and its replica differ in the stand only. -/
theorem Twins.enable_restored (h : a.Twins b) (ht : a.Translated) (ha : a.InStep)
    (hb : b.InStep) : (a.restored b).enable = a.enable.moved b.stand := by
  have hr : (a.restored b).InStep := by
    intro f n hn
    obtain ⟨-, -, hs⟩ | ⟨m, x, -, hx, hs⟩ := h.restored ht f
    · rw [hs] at hn
      cases hn
    · rw [hs] at hn
      cases hn
      exact hb f x hx
  have hslots : (a.restored b).enable.slots = a.enable.slots := by
    refine PerFace.ext_get fun f => ?_
    obtain ⟨hm, -, hs⟩ | ⟨m, n, hm, -, hs⟩ := h.restored ht f
    · rw [slots_enable_of_none hm, slots_enable_of_none hs]
    · rw [ha.slots_enable hm, hr.slots_enable hs]
  have hpipes : (a.restored b).enable.pipes = a.enable.pipes := by
    rw [pipes_enable, pipes_enable]
    rfl
  calc (a.restored b).enable
      = ⟨(a.restored b).enable.stand, (a.restored b).enable.enabled,
          (a.restored b).enable.slots, (a.restored b).enable.pipes⟩ := rfl
    _ = ⟨b.stand, a.enable.enabled, a.enable.slots, a.enable.pipes⟩ := by
        rw [hslots, hpipes, stand_enable, enabled_enable, enabled_enable]
        rfl

/-! ## Parts that are too long -/

/-- Where a snapshot has the part of the node on the first face. -/
theorem exists_save_eq {m : Node} (ha : a.slots.get .yNeg = some (.node m)) :
    ∃ rest, a.save =
      1 :: 1 :: (encode32 (UInt32.ofNat (m.source.length + 15)) ++ (m.encode ++ rest)) := by
  refine ⟨[Face.yPos, .zNeg, .zPos, .xNeg, .xPos].flatMap (fun f => encodeSlot (a.slots.get f)) ++
    sockets.flatMap fun s => (a.pipes.pipe s).encode, ?_⟩
  have hfaces : Face.all.flatMap (fun f => encodeSlot (a.slots.get f)) =
      1 :: (encodeBlock m.encode ++ [Face.yPos, .zNeg, .zPos, .xNeg, .xPos].flatMap
        fun f => encodeSlot (a.slots.get f)) := by
    show encodeSlot (a.slots.get .yNeg) ++ _ = _
    rw [ha]
    rfl
  rw [save, hfaces, encodeBlock, m.length_encode, List.cons_append, List.append_assoc,
    List.append_assoc]
  rfl

/-- The length of a part is kept modulo 2^32. If the part of the first node is so long that it seems
to be empty, no casing with a node on that face loads the snapshot. -/
theorem load_hollow {m n : Node} (ha : a.slots.get .yNeg = some (.node m))
    (hm : m.source.length + 15 = UInt32.size) (hb : b.slots.get .yNeg = some (.node n)) :
    Outcome.result (load a.save b) = .error (.truncated 0) := by
  obtain ⟨rest, hsave⟩ := exists_save_eq ha
  have hzero : encode32 (UInt32.ofNat UInt32.size) = [0, 0, 0, 0] := by decide
  rw [hm, hzero] at hsave
  generalize m.encode ++ rest = rest at hsave
  obtain ⟨c, hc⟩ : ∃ c, restorePart .yNeg [] b = .error (.truncated 0) c := by
    unfold restorePart onDevice
    simp only [hb]
    exact ⟨_, rfl⟩
  have hversion : restoreVersion (b, .start (1 :: 1 :: 0 :: 0 :: 0 :: 0 :: rest)) =
      .ok () (b, ⟨1 :: 0 :: 0 :: 0 :: 0 :: rest, 1⟩) := rfl
  have hface : restoreFace .yNeg (b, ⟨1 :: 0 :: 0 :: 0 :: 0 :: rest, 1⟩) =
      .error (.truncated 0) (c, ⟨rest, 6⟩) := by
    show Outcome.within (fun s => (s, (⟨rest, 6⟩ : Cursor))) (restorePart .yNeg [] b) = _
    rw [hc]
    rfl
  have hrestore : restore (b, .start a.save) = .error (.truncated 0) (c, ⟨rest, 6⟩) := by
    rw [hsave]
    exact (Outcome.bind_ok hversion).trans (Outcome.bind_error (Outcome.bind_error hface))
  rw [load, Restore.ofBytes, Outcome.result_within, hrestore]
  rfl

end Casing

namespace Rig

variable (stand : Stand) (acts : List Act)

theorem translated_run : ((new stand).run acts).casing.Translated := fun _ _ hn =>
  ⟨((orderly_run stand acts).casing.orderly_node hn).safe.compiled, explained_run stand acts hn⟩

theorem inStep_run : ((new stand).run acts).casing.InStep := fun _ _ hn =>
  ((orderly_run stand acts).casing.orderly_node hn).running

theorem portable_of_nodes
    (hn : ∀ f d, ((new stand).run acts).casing.slots.get f = some d → d.kind = .node)
    (hl : ∀ f n, ((new stand).run acts).casing.slots.get f = some (.node n) →
      n.source.length + 15 < UInt32.size) : ((new stand).run acts).casing.Portable := by
  intro f d hd
  obtain ⟨m, rfl⟩ := Device.eq_node (hn f d hd)
  have ho := (orderly_run stand acts).casing.orderly_node hd
  exact ⟨m, rfl, ho.safe.fit.portable (by rw [m.length_encode]; exact hl f m hd)⟩

theorem portable_run {b : Casing} (h : ((new stand).run acts).casing.Twins b)
    (hl : ∀ f n, ((new stand).run acts).casing.slots.get f = some (.node n) →
      n.source.length + 15 < UInt32.size) : ((new stand).run acts).casing.Portable :=
  portable_of_nodes stand acts h.nodes hl

theorem step_after_enable (k : Nat) :
    Casing.step (((new stand).run acts).casing.enable.after k) =
      .ok () (((new stand).run acts).casing.enable.after (k + 1)) :=
  (Device.orderly_regime.enable (orderly_run stand acts).casing).step_after k

/-- A casing of nodes, in whatever state, that loads a snapshot of another one with nodes on the
same faces becomes a replica of it: it has the same sources, diagnostics, programs and registers,
the same pipes and the same snapshot. Once both are enabled, they go on alike without a fault. -/
theorem snapshot_replicates (b : Casing)
    (h : ((new stand).run acts).casing.Twins b)
    (hl : ∀ f n, ((new stand).run acts).casing.slots.get f = some (.node n) →
      n.source.length + 15 < UInt32.size) :
    let a := ((new stand).run acts).casing
    ∃ b', Casing.load a.save b = .ok () b' ∧ b'.stand = b.stand ∧ b'.enabled = b.enabled ∧
      (∀ f, a.slots.get f = none → b'.slots.get f = none) ∧
      (∀ f m, a.slots.get f = some (.node m) → ∃ n, b'.slots.get f = some (.node n) ∧
        n.source = m.source ∧ n.diagnostic = m.diagnostic ∧
        n.machine.program = m.machine.program ∧ n.machine.registers = m.machine.registers) ∧
      b'.pipes = a.pipes ∧ b'.save = a.save ∧
      (b.InStep → ∀ k, Casing.step (a.enable.after k) = .ok () (a.enable.after (k + 1)) ∧
        Casing.step (b'.enable.after k) = .ok () (b'.enable.after (k + 1)) ∧
        b'.enable.after k = (a.enable.after k).moved b.stand) := by
  intro a
  have ht := translated_run stand acts
  refine ⟨a.restored b, Casing.load_save (portable_run stand acts h hl) b, rfl, rfl,
    fun f hf => ?_, fun f m hf => ?_, rfl, h.save_restored ht, fun hb k => ?_⟩
  · obtain ⟨-, -, hs⟩ | ⟨m, -, hm, -⟩ := h.restored ht f
    · exact hs
    · cases hf.symm.trans hm
  · obtain ⟨hn, -⟩ | ⟨m, n, hm, -, hs⟩ := h.restored ht f
    · cases hf.symm.trans hn
    · cases hf.symm.trans hm
      exact ⟨_, hs, rfl, rfl, rfl, rfl⟩
  · have he := h.enable_restored ht (inStep_run stand acts) hb
    have hstep := step_after_enable stand acts k
    refine ⟨hstep, ?_, ?_⟩
    · rw [he, Casing.after_moved, Casing.after_moved, Casing.step_moved, hstep]
      rfl
    · rw [he, Casing.after_moved]

/-- A casing in which another node has just handed a word over, at another port. -/
def astray : Rig := (writer .second .zNeg .up).run [.enable, .step]

theorem twins_midway : midway.casing.Twins astray.casing where
  kinds f := by cases f <;> decide +kernel
  nodes := Casing.kind_eq_node fun f => by cases f <;> decide +kernel

/-- The acts that lead to `midway` and `astray`. -/
def handOver (stand : Stand) (p : Port) : List Act :=
  [.make ⟨⟨stand, .zNeg⟩, .node, ascii "MOV 0, " ++ p.name⟩, .install .zNeg 0] ++ [.enable, .step]

theorem run_handOver (stand : Stand) (p : Port) : (new stand).run (handOver stand p) =
    (writer stand .zNeg p).run [.enable, .step] := List.foldl_append

/-- A word that is under way goes on in the replica, and one that was under way there is gone. -/
theorem snapshot_replicates_midway : midway.casing.Twins astray.casing ∧
    ∃ b, Casing.load midway.casing.save astray.casing = .ok () b ∧
      b.save = midway.casing.save ∧
      ∀ k, b.enable.after k = (midway.casing.enable.after k).moved astray.casing.stand := by
  have hl : ∀ f n, midway.casing.slots.get f = some (.node n) →
      n.source.length + 15 < UInt32.size := by
    intro f n hn
    rw [← n.length_encode]
    exact compact_midway f n hn
  have hb := inStep_run .second (handOver .second .up)
  have h := snapshot_replicates .first (handOver .first .right) astray.casing
  rw [run_handOver] at h hb
  obtain ⟨b, hload, -, -, -, -, -, hsave, hsteps⟩ := h twins_midway hl
  exact ⟨twins_midway, b, hload, hsave, fun k => (hsteps hb k).2.2⟩

/-- A node with the given source is put on the first face. -/
def alone (stand : Stand) (source : Bytes) : List Act :=
  [.make ⟨⟨stand, .yNeg⟩, .node, source⟩, .install .yNeg 0]

theorem slots_alone (stand : Stand) (source : Bytes) (f : Face) :
    ((new stand).run (alone stand source)).casing.slots.get f =
      if f = .yNeg then some (.node (Node.ofSource source)) else none := by
  cases stand <;> cases f <;> rfl

theorem twins_alone (stand stand' : Stand) (source source' : Bytes) :
    ((new stand).run (alone stand source)).casing.Twins
      ((new stand').run (alone stand' source')).casing where
  kinds f := by
    rw [slots_alone, slots_alone]
    split <;> rfl
  nodes f d hd := by
    rw [slots_alone] at hd
    split at hd
    · cases hd
      rfl
    · cases hd

/-- A part that seems to be empty is not loaded. -/
theorem load_alone {source : Bytes} (h : source.length + 15 = UInt32.size) :
    Outcome.result (Casing.load ((new .first).run (alone .first source)).casing.save
      ((new .second).run (alone .second [])).casing) = .error (.truncated 0) :=
  Casing.load_hollow (slots_alone .first source .yNeg) h (slots_alone .second [] .yNeg)

/-- A casing that is enabled, with a node that was stopped by itself. -/
def halted : Casing :=
  ((new .second).run (alone .second (ascii "ADD 1") ++ [.enable])).casing.disableFace .yNeg

/-- There is no replica of a node whose source has 2^32 - 15 bytes. And a node that was stopped by
itself in an enabled casing is not started again, so that its casing does not keep up with the
one that was saved. -/
theorem snapshot_not_replicated :
    (let source := List.replicate 4294967281 10
     let a := ((new .first).run (alone .first source)).casing
     let b := ((new .second).run (alone .second [])).casing
     source.length < 4294967296 ∧ a.Twins b ∧
       Outcome.result (Casing.load a.save b) = .error (.truncated 0)) ∧
    let a := ((new .first).run (alone .first (ascii "ADD 1") ++ [.enable])).casing
    a.enabled = true ∧ a.Twins halted ∧
      (∃ n, (a.after 1).slots.get .yNeg = some (.node n) ∧ n.machine.registers.acc = 1) ∧
      ∃ b, Casing.load a.save halted = .ok () b ∧ b.enabled = true ∧
        ∃ n, (b.after 1).slots.get .yNeg = some (.node n) ∧ n.machine.registers.acc = 0 := by
  refine ⟨?_, ?_⟩
  · have hlength : (List.replicate 4294967281 (10 : UInt8)).length = 4294967281 :=
      List.length_replicate
    refine ⟨?_, twins_alone .first .second _ [], load_alone ?_⟩
    · rw [hlength]
      decide
    · rw [hlength]
  · intro a
    have htwins : a.Twins halted :=
      { kinds := fun f => by cases f <;> decide +kernel
        nodes := Casing.kind_eq_node fun f => by cases f <;> decide +kernel }
    have hcompact : a.Compact := Casing.compact_of_all fun f => by cases f <;> decide +kernel
    have hload := Casing.load_save (portable_run .first _ htwins hcompact.source_lt) halted
    have hacc : ((a.after 1).node? .yNeg).any (·.machine.registers.acc == 1) = true := by
      decide +kernel
    have hacc' : (((a.restored halted).after 1).node? .yNeg).any
        (·.machine.registers.acc == 0) = true := by
      decide +kernel
    obtain ⟨n, hn, hone⟩ := (Option.any_eq_true _ _).mp hacc
    obtain ⟨n', hn', hzero⟩ := (Option.any_eq_true _ _).mp hacc'
    exact ⟨by decide +kernel, htwins, ⟨n, Casing.node?_eq_some.mp hn, beq_iff_eq.mp hone⟩,
      a.restored halted, hload, by decide +kernel,
      n', Casing.node?_eq_some.mp hn', beq_iff_eq.mp hzero⟩

end Rig

end NodeCube
