import NodeCube.Proofs.Casing.Conservation
import NodeCube.Proofs.Casing.Faults
import NodeCube.Proofs.Casing.Requests

/-!
# How long a word is under way

A pipe shows a transfer when it is stepped with both requests on it, so a word should be taken in a
later tick than the one in which it was handed over. A node that gets a new source withdraws its
words at once, but until they are stepped the pipes still show the transfers (`Casing.Stale`). If
such a node hands over another word in the next tick, before the reader has its turn, this word is
taken in the same tick. It is the only way in which that happens
(`Casing.Each.took_eq_filed`, `Rig.stale_run`).
-/

namespace NodeCube

/-! ## Turns that write or read -/

namespace Program.Turned

variable {program : Program} {s s' : Site} {i : Instruction} {p : Port}

/-- A `MOV` of a literal to a port hands it over in the first turn. -/
theorem filed_of_immediate (h : program.Turned s s') (hi : program.current? s.registers = some i)
    (hm : i.op = .move .immediate) (hp : i.destination = .port p)
    (hf : s.registers.writeInFlight = false) : .filed p i.value ∈ s'.passed := by
  have hlit : i.op.readsSource = false := by rw [hm]; rfl
  have hrem : i.destination.remote = true := by rw [hp]; rfl
  cases h with
  | rests h => cases hi.symm.trans h
  | listens hi' _ hs =>
    cases hi.symm.trans hi'
    cases hlit.symm.trans hs
  | completes hi' _ hm' =>
    cases hi.symm.trans hi'
    cases hrem.symm.trans (hm' _ hm)
  | keeps hi' _ _ _ _ ha =>
    cases hi.symm.trans hi'
    rw [hp] at ha
    cases ha
  | files hi' _ _ _ hd ha =>
    cases hi.symm.trans hi'
    rw [hp] at ha
    cases ha
    cases hd with
    | literal => simp
    | instant hs | taken hs => cases hlit.symm.trans hs
  | expects _ hf' | commits _ hf' | finishes _ hf' => cases hf.symm.trans hf'

/-- A node that waits for a word takes it when its pipe is the only one that is ready. -/
theorem took_of_listens (h : program.Turned s s') (ha : program.Attends s)
    (hl : program.Listens s.registers p) (hp : (s.incoming p).ready = true)
    (ho : ∀ q, (s.incoming q).ready = true → q = p) : .took p (s.incoming p).value ∈ s'.passed := by
  obtain ⟨hst, hf, i, hi, hs, hh⟩ := hl
  have hchosen : (s.attend i.source).chosen? i.source = some p := by
    have hready : ∀ q, i.source.hears s.registers.last q = true →
        ((s.attend i.source).incoming q).ready = (s.incoming q).ready := by
      intro q hq
      have hr := ((ha q).mpr ⟨hst, hf, i, hi, hs, hq⟩).1
      rw [Site.incoming_attend, hr, Bool.true_or, ← hr]
    refine (Port.find?_all_of_unique fun q hq => ?_).trans (if_pos ?_)
    · obtain ⟨hq, hr⟩ := Bool.and_eq_true_iff.mp hq
      exact ho q ((hready q hq).symm.trans hr)
    · exact Bool.and_eq_true_iff.mpr ⟨hh, (hready p hh).trans hp⟩
  have htook : ∀ {v s₁}, s.Draws i v s₁ → .took p (s.incoming p).value ∈ s₁.passed := by
    intro v s₁ hd
    cases hd with
    | literal hs' => cases hs.symm.trans hs'
    | instant _ hv => cases hh.symm.trans (Target.hears_of_instant? hv)
    | taken _ _ hp' =>
      cases hchosen.symm.trans hp'
      rw [Site.passed_grab, Site.incoming_attend]
      simp
  cases h with
  | rests h => cases hi.symm.trans h
  | listens hi' _ _ _ hc =>
    cases hi.symm.trans hi'
    cases hchosen.symm.trans hc
  | completes hi' _ _ hd =>
    cases hi.symm.trans hi'
    rw [Site.passed_setRegisters]
    exact htook hd
  | keeps hi' _ _ _ hd =>
    cases hi.symm.trans hi'
    rw [Site.passed_expect, Site.passed_hold]
    exact htook hd
  | files hi' _ _ _ hd =>
    cases hi.symm.trans hi'
    rw [Site.passed_expect, Site.passed_file]
    exact List.mem_append_left _ (htook hd)
  | expects _ hf' | commits _ hf' | finishes _ hf' => cases hf.symm.trans hf'

end Program.Turned

/-! ## When a face has its turn -/

namespace Face

/-- The faces before one that stands before this one come first. -/
theorem before_eq {f g : Face} (h : g ∈ f.before) : ∃ l, f.before = g.before ++ g :: l := by
  obtain ⟨l, l', hl⟩ := List.append_of_mem h
  have hall : all = l ++ g :: (l' ++ all.dropWhile (· != f)) := by
    rw [← List.cons_append, ← List.append_assoc, ← hl, before, List.takeWhile_append_dropWhile]
  refine ⟨l', hl.trans ?_⟩
  rw [before, (Casing.takeWhile_all hall).1]

end Face

namespace Casing

variable {c c' : Casing} {e : Bool} {f : Face} {n : Node} {l : List Face} {s : Socket}
  {Q : Face → Option Device → Ports → Prop} {K : Option Device → Ports → Prop}

namespace Rounded

/-- A pipe whose writer had no turn. -/
theorem readerMoved (hr : Rounded Q l c c') (hs : s.opposite.face ∉ l) :
    Pipe.ReaderMoved (c.pipes.pipe s) (c'.pipes.pipe s) := by
  have hm := (hr.others _ hs).2.outgoing s.opposite.port
  rwa [Pipes.outgoing_ports_opposite, Pipes.outgoing_ports_opposite] at hm

/-- A pipe whose reader had no turn. -/
theorem writerMoved (hr : Rounded Q l c c') (hs : s.face ∉ l) :
    Pipe.WriterMoved (c.pipes.pipe s) (c'.pipes.pipe s) := by
  have hm := (hr.others _ hs).2.incoming s.port
  rwa [Pipes.incoming_ports, Pipes.incoming_ports] at hm

/-- What is local still holds where a turn is still to come. -/
theorem awaits (hr : Rounded Q l c c') (hK : Local K) (hf : f ∉ l)
    (h : (c.pipes.ports f).Untaken ∧ K (c.slots.get f) (c.pipes.ports f)) :
    (c'.pipes.ports f).Untaken ∧ K (c'.slots.get f) (c'.pipes.ports f) := by
  obtain ⟨hslot, hports⟩ := hr.others f hf
  rw [hslot]
  exact ⟨fun p => (hports.spared.taken p).trans (h.1 p), hK.spared _ _ _ hports.spared h.2⟩

end Rounded

/-- The casing in the middle of a tick, when a face has its turn. -/
def atTurn (c : Casing) (f : Face) : Casing := Outcome.state (stepFaces f.before c)

theorem passages_eq (c : Casing) (f : Face) : c.passages f =
    match (c.atTurn f).slots.get f with
    | some (.node n) =>
      if n.running then
        (Outcome.state (n.machine.program.step (n.site ((c.atTurn f).pipes.ports f)))).passed
      else []
    | _ => [] := rfl

namespace Each

theorem rounded_atTurn (hK : Local K) (h : c.Each K) (f : Face) :
    Rounded (fun _ => K) f.before c (c.atTurn f) := by
  obtain ⟨c', hr⟩ := hK.rounded f.nodup_before fun g _ => ⟨h.untaken_ports g, h.holds g⟩
  have hc : c.atTurn f = c' := by rw [atTurn, hr.steps]; rfl
  rwa [hc]

/-- The turns between that of a face and that of a later one. -/
theorem rounded_between (hK : Local K) (h : c.Each K) {g : Face} (hg : g ∈ f.before)
    (hc : stepFace g (c.atTurn g) = .ok () c') :
    ∃ l, g ∉ l ∧ Rounded (fun _ => K) l c' (c.atTurn f) := by
  obtain ⟨l, hl⟩ := Face.before_eq hg
  have hnodup := f.nodup_before
  rw [hl] at hnodup
  obtain ⟨-, hnodup, hdisj⟩ := List.nodup_append.mp hnodup
  obtain ⟨hnot, hnodup⟩ := List.nodup_cons.mp hnodup
  have hr := h.rounded_atTurn hK g
  have hwait : ∀ i ∈ g :: l, ((c.atTurn g).pipes.ports i).Untaken ∧
      K ((c.atTurn g).slots.get i) ((c.atTurn g).pipes.ports i) := fun i hi =>
    hr.awaits hK (fun hi' => hdisj i hi' i hi rfl) ⟨h.untaken_ports i, h.holds i⟩
  -- the turn of `g` is a round of its own
  have hone : Rounded (fun _ => K) [g] (c.atTurn g) c' := by
    obtain ⟨c₁, hr₁⟩ := hK.rounded (show [g].Nodup by simp) fun i hi =>
      hwait i (List.mem_singleton.mp hi ▸ List.mem_cons_self)
    cases hr₁.steps.symm.trans ((Outcome.bind_ok hc).trans rfl)
    exact hr₁
  obtain ⟨c₂, hr₂⟩ := hK.rounded hnodup fun i hi => hone.awaits hK
    (fun e => hnot (List.mem_singleton.mp e ▸ hi)) (hwait i (List.mem_cons_of_mem _ hi))
  have hlater : stepFaces (g :: l) (c.atTurn g) = .ok () c₂ := (Outcome.bind_ok hc).trans hr₂.steps
  have hall : stepFaces f.before c = .ok () c₂ := by
    rw [hl, stepFaces_append]
    exact (Outcome.bind_ok hr.steps).trans hlater
  have hc₂ : c.atTurn f = c₂ := by rw [atTurn, hall]; rfl
  exact ⟨l, hnot, hc₂ ▸ hr₂⟩

variable (h : c.Each (Device.Orderly e))
include h

theorem slots_atTurn (f : Face) : (c.atTurn f).slots.get f = c.slots.get f :=
  ((h.rounded_atTurn (Device.local_orderly e) f).others f f.not_mem_before).1

/-- Words pass only at nodes of an enabled casing. -/
theorem node_of_mem_passages {x : Passage} (hx : x ∈ c.passages f) :
    e = true ∧ ∃ n, c.slots.get f = some (.node n) := by
  rw [passages_eq, h.slots_atTurn f] at hx
  match hn : c.slots.get f with
  | some (.node n) =>
    simp only [hn] at hx
    split at hx
    · rename_i hr
      exact ⟨(h.orderly_node hn).running.symm.trans hr, n, rfl⟩
    · cases hx
  | none | some (.meter _) | some (.ticker _) =>
    simp only [hn] at hx
    cases hx

end Each

/-- The turn of a node in a tick. -/
theorem Each.turn_atTurn (h : c.Each (Device.Orderly true))
    (hn : c.slots.get f = some (.node n)) :
    ∃ t, n.machine.program.Turned (n.site ((c.atTurn f).pipes.ports f)) t ∧
      c.passages f = t.passed ∧ stepFace f (c.atTurn f) =
        .ok () ((c.atTurn f).place f (.node (n.withRegisters t.registers)) t.ports) := by
  have ho := h.orderly_node hn
  have hr := h.rounded_atTurn (Device.local_orderly true) f
  have hslot := (h.slots_atTurn f).trans hn
  obtain ⟨hu, hk⟩ := hr.awaits (Device.local_orderly true) f.not_mem_before
    ⟨h.untaken_ports f, h.holds f⟩
  rw [hslot] at hk
  obtain ⟨t, ht, hturned, -⟩ := Node.Safe.turn hk.safe hu
  refine ⟨t, hturned, ?_, stepFace_of_some hslot (Device.step_running ho.running ht)⟩
  rw [passages_eq, hslot]
  simp only [ho.running, if_true, ht]
  rfl

/-! ## A word that is taken in the tick in which it was handed over -/

/-- The pipe shows a transfer, but the word was withdrawn. -/
def Stale (c : Casing) (s : Socket) : Prop :=
  (c.pipes.pipe s).phase = .transferring ∧ (c.pipes.pipe s).writing = false

namespace Each

variable (h : c.Each (Device.Orderly e)) {v w : Word}
include h

/-- What the writer's turn does to the pipe to which it hands a word over. -/
theorem stepFace_of_filed (hv : .filed s.opposite.port v ∈ c.passages s.opposite.face) :
    (c.pipes.pipe s).writing = false ∧
      ∃ c₁, stepFace s.opposite.face (c.atTurn s.opposite.face) = .ok () c₁ ∧
        (c₁.pipes.pipe s).writing = true ∧ (c₁.pipes.pipe s).value = v := by
  obtain ⟨rfl, n, hn⟩ := h.node_of_mem_passages hv
  obtain ⟨t, ht, hp, hc⟩ := h.turn_atTurn hn
  have hm := (h.rounded_atTurn (Device.local_orderly true) s.opposite.face).readerMoved
    s.opposite.face.not_mem_before
  have hfiled := ht.filed rfl s.opposite.port
  rw [Node.outgoing_site, Pipes.outgoing_ports_opposite] at hfiled
  have hmem : v ∈ t.filedAt s.opposite.port :=
    List.mem_filterMap.mpr ⟨_, hp ▸ hv, by simp [Passage.filedAt?]⟩
  generalize t.filedAt s.opposite.port = ws at hfiled hmem
  cases hfiled with
  | nothing => cases hmem
  | word ha hb hv' =>
    cases List.mem_singleton.mp hmem
    refine ⟨hm.writing.symm.trans ha, _, hc, ?_⟩
    simp only [place, Pipes.pipe_withPorts, if_neg s.opposite_face_ne.symm, if_true]
    exact ⟨hb, hv'⟩

/-- What the reader sees of the pipe from which it takes a word. -/
theorem pipe_of_took (hw : .took s.port w ∈ c.passages s.face) :
    ((c.atTurn s.face).pipes.pipe s).phase = .transferring ∧
      ((c.atTurn s.face).pipes.pipe s).writing = true ∧
      ((c.atTurn s.face).pipes.pipe s).value = w := by
  obtain ⟨rfl, n, hn⟩ := h.node_of_mem_passages hw
  obtain ⟨t, ht, hp, -⟩ := h.turn_atTurn hn
  have hdrawn := ht.drawn rfl s.port
  rw [Node.incoming_site, Pipes.incoming_ports] at hdrawn
  have hmem : w ∈ t.tookAt s.port :=
    List.mem_filterMap.mpr ⟨_, hp ▸ hw, by simp [Passage.tookAt?]⟩
  generalize t.tookAt s.port = ws at hdrawn hmem
  cases hdrawn with
  | nothing => cases hmem
  | word hphase ha =>
    cases List.mem_singleton.mp hmem
    exact ⟨hphase, ha, rfl⟩

/-- A word that was handed over waits in the pipe when the reader has its turn later. -/
theorem pipe_of_filed (hb : s.opposite.face ∈ s.face.before)
    (hv : .filed s.opposite.port v ∈ c.passages s.opposite.face) :
    ((c.atTurn s.face).pipes.pipe s).writing = true ∧
      ((c.atTurn s.face).pipes.pipe s).value = v := by
  obtain ⟨-, c₁, hc₁, hw, hval⟩ := h.stepFace_of_filed hv
  obtain ⟨l, hl, hr⟩ := h.rounded_between (Device.local_orderly e) hb hc₁
  have hm := hr.readerMoved hl
  rw [hm.writing, hm.value]
  exact ⟨hw, hval⟩

/-- A word that is taken while another one is handed over to the same pipe. -/
theorem took_eq_filed (hv : .filed s.opposite.port v ∈ c.passages s.opposite.face)
    (hw : .took s.port w ∈ c.passages s.face) :
    w = v ∧ s.opposite.face ∈ s.face.before ∧ c.Stale s := by
  obtain ⟨hfree, -⟩ := h.stepFace_of_filed hv
  obtain ⟨hphase, hthere, hval⟩ := h.pipe_of_took hw
  have hr := h.rounded_atTurn (Device.local_orderly e) s.face
  have hb : s.opposite.face ∈ s.face.before := by
    refine Decidable.byContradiction fun hb => ?_
    cases hthere.symm.trans ((hr.readerMoved hb).writing.trans hfree)
  refine ⟨hval.symm.trans (h.pipe_of_filed hb hv).2, hb, ?_, hfree⟩
  exact (hr.writerMoved s.face.not_mem_before).phase.symm.trans hphase

end Each

/-! ## What makes a pipe stale -/

theorem Published.not_stale (h : c.Published) (s : Socket) : ¬c.Stale s := fun ⟨hp, hw⟩ => by
  cases hw.symm.trans ((h s).writing hp)

theorem Stale.of_exchange {d : Option Device} (hs : (c.exchange f d).1.Stale s) : c.Stale s := by
  have hstep : ∀ p : Pipe, p.step.phase = .transferring → p.step.writing ≠ false :=
    fun p hp hw => by cases hw.symm.trans ((Pipe.published_step p).writing hp)
  rw [exchange_eq] at hs
  simp only [Stale, Pipes.pipe_withPorts] at hs
  split at hs
  · rw [Ports.incoming_step] at hs
    exact absurd hs.2 (hstep _ hs.1)
  · split at hs
    · rw [Ports.outgoing_step] at hs
      exact absurd hs.2 (hstep _ hs.1)
    · exact hs

/-- A node that gets a new source withdraws its requests. -/
theorem pipe_assembleAt (h : c.Each K) (hn : c.slots.get f = some (.node n)) (source : Bytes)
    (s : Socket) : (c.assembleAt f source).pipes.pipe s =
      if s.face = f then { c.pipes.pipe s with reading := false }
      else if s.opposite.face = f then { c.pipes.pipe s with writing := false }
      else c.pipes.pipe s := by
  simp only [assembleAt, hn, Node.assembleAt, if_true, place, Pipes.pipe_withPorts]
  split
  · rename_i e
    rw [Ports.incoming_cancelRequests, Pipes.incoming_ports, ← e]
    exact Pipe.cancelRead_of_not_taken (h.untaken s)
  · split
    · rename_i e
      rw [Ports.outgoing_cancelRequests, ← e, Pipes.outgoing_ports_opposite]
      exact Pipe.cancelWrite_of_not_taken (h.untaken s)
    · rfl

theorem Stale.of_assembleAt (h : c.Each K) {source : Bytes}
    (hs : (c.assembleAt f source).Stale s) :
    c.Stale s ∨ f = s.opposite.face ∧ (c.pipes.pipe s).phase = .transferring ∧
      (c.pipes.pipe s).writing = true := by
  by_cases hn : ∃ n, c.slots.get f = some (.node n)
  · obtain ⟨n, hn⟩ := hn
    simp only [Stale, pipe_assembleAt h hn] at hs
    split at hs
    · exact .inl hs
    · split at hs
      · rename_i e
        cases hw : (c.pipes.pipe s).writing with
        | false => exact .inl ⟨hs.1, hw⟩
        | true => exact .inr ⟨e.symm, hs.1, rfl⟩
      · exact .inl hs
  · have hsame : c.assembleAt f source = c := by
      unfold assembleAt
      split
      · rename_i hn'
        exact absurd ⟨_, hn'⟩ hn
      · rfl
    exact .inl (hsame ▸ hs)

/-- After a step no pipe is stale. -/
theorem not_stale_step (h : c.Each (Device.Orderly e)) (hp : c.enabled = false → c.Published)
    (s : Socket) : ¬(Outcome.state (step c)).Stale s := by
  unfold step
  split
  · obtain ⟨c₁, hr⟩ := (Device.local_orderly e).rounded (show Face.all.Nodup by decide)
      fun f _ => ⟨h.untaken_ports f, h.holds f⟩
    have htick : tick Face.all c = .ok () c₁.stepPipes := (Outcome.bind_ok hr.steps).trans rfl
    rw [htick]
    exact (published_stepPipes c₁).not_stale s
  · rename_i he
    exact (hp (Bool.eq_false_iff.mpr he)).not_stale s

/-! ## A new source at the wrong moment -/

/-- A source with which a node hands a word over at a port in its first turn. -/
def writingSource (p : Port) : Bytes := ascii "MOV 0, " ++ p.name

/-- A word that is handed over to a stale pipe is taken in the same tick, if the reader waits for it
and for no other transfer that is shown. -/
theorem Each.took_of_stale (h : c.Each (Device.Orderly true)) {v : Word}
    (hb : s.opposite.face ∈ s.face.before) (hr : (c.pipes.pipe s).reading = true)
    (hs : (c.pipes.pipe s).phase = .transferring)
    (ho : ∀ q, (c.pipes.pipe ⟨s.face, q⟩).phase = .transferring →
      (c.pipes.pipe ⟨s.face, q⟩).reading = true → q = s.port)
    (hv : .filed s.opposite.port v ∈ c.passages s.opposite.face) :
    .took s.port v ∈ c.passages s.face := by
  have hK := Device.local_orderly true
  have hr' : ((c.pipes.ports s.face).incoming.get s.port).reading = true := by
    rw [Pipes.incoming_ports]
    exact hr
  obtain ⟨n, hn, hord⟩ := Device.exists_node_of_not_quiet (h.holds s.face) (.inl hr')
  have hlisten := (hord.attends s.port).mp ⟨hr', h.untaken_ports s.face s.port⟩
  obtain ⟨t, ht, hp, -⟩ := h.turn_atTurn hn
  -- what the reader finds when it has its turn
  have hround := h.rounded_atTurn hK s.face
  have hpipe : ∀ q, Pipe.WriterMoved (c.pipes.pipe ⟨s.face, q⟩)
      ((c.atTurn s.face).pipes.pipe ⟨s.face, q⟩) :=
    fun q => hround.writerMoved s.face.not_mem_before
  obtain ⟨hu, hk⟩ := hround.awaits hK s.face.not_mem_before
    ⟨h.untaken_ports s.face, h.holds s.face⟩
  rw [(h.slots_atTurn s.face).trans hn] at hk
  obtain ⟨hw, hval⟩ := h.pipe_of_filed hb hv
  have htook := ht.took_of_listens hk.attends hlisten ?_ ?_
  · rw [Node.incoming_site, Pipes.incoming_ports, hval] at htook
    rwa [hp]
  · rw [Node.incoming_site, Pipes.incoming_ports]
    exact Pipe.ready_iff.mpr ⟨(hpipe s.port).phase.trans hs, hw, (hpipe s.port).reading.trans hr,
      (hpipe s.port).taken.trans (h.untaken s)⟩
  · intro q hq
    rw [Node.incoming_site, Pipes.incoming_ports] at hq
    obtain ⟨hphase, -, hread, -⟩ := Pipe.ready_iff.mp hq
    exact ho q ((hpipe q).phase.symm.trans hphase) ((hpipe q).reading.symm.trans hread)

/-- A node that gets `writingSource` hands a word over in the next tick. -/
theorem Each.filed_of_writingSource {p : Port}
    (h : (c.assembleAt f (writingSource p)).Each (Device.Orderly true))
    (hn : c.slots.get f = some (.node n)) :
    ∃ v, .filed p v ∈ (c.assembleAt f (writingSource p)).passages f := by
  have hslot : (c.assembleAt f (writingSource p)).slots.get f =
      some (.node (n.assemble (writingSource p))) := by
    rw [slots_assembleAt, if_pos rfl, hn]
    rfl
  obtain ⟨t, ht, hp, -⟩ := h.turn_atTurn hslot
  obtain ⟨_, i, rfl, hi, hm, hd, hf⟩ := Rig.node_writer p
  have hmachine : (n.assemble (writingSource p)).machine =
      (Node.ofSource (ascii "MOV 0, " ++ p.name)).machine := by
    simp only [Node.ofSource, Node.assemble, writingSource]
  rw [← hmachine] at hi hf
  generalize n.assemble (writingSource p) = m at ht hi hf
  refine ⟨i.value, ?_⟩
  rw [hp]
  exact ht.filed_of_immediate hi hm hd hf

/-- From every casing in which a word is ready to be taken: if its writer gets a new source first
and has its turn before the reader, then the next word that it hands over is taken at once. -/
theorem Each.same_tick_of_ready (h : c.Each (Device.Orderly c.enabled)) (he : c.enabled = true)
    (hr : (c.pipes.pipe s).ready = true) (hb : s.opposite.face ∈ s.face.before)
    (ho : ∀ q, (c.pipes.pipe ⟨s.face, q⟩).phase = .transferring →
      (c.pipes.pipe ⟨s.face, q⟩).reading = true → q = s.port) :
    let c' := c.assembleAt s.opposite.face (writingSource s.opposite.port)
    ∃ v, .filed s.opposite.port v ∈ c'.passages s.opposite.face ∧
      .took s.port v ∈ c'.passages s.face := by
  intro c'
  obtain ⟨hphase, hw, hread, -⟩ := Pipe.ready_iff.mp hr
  have hw' : ((c.pipes.ports s.opposite.face).outgoing.get s.opposite.port).writing = true := by
    rw [Pipes.outgoing_ports_opposite]
    exact hw
  obtain ⟨n, hn, -⟩ := Device.exists_node_of_not_quiet (h.holds s.opposite.face) (.inr hw')
  have h' := Device.orderly_regime.assembleAt h s.opposite.face (writingSource s.opposite.port)
  rw [enabled_assembleAt, he] at h'
  have hpipe : ∀ q, (c'.pipes.pipe ⟨s.face, q⟩).phase = (c.pipes.pipe ⟨s.face, q⟩).phase ∧
      (c'.pipes.pipe ⟨s.face, q⟩).reading = (c.pipes.pipe ⟨s.face, q⟩).reading := by
    intro q
    rw [pipe_assembleAt h hn, if_neg s.opposite_face_ne.symm]
    split <;> exact ⟨rfl, rfl⟩
  obtain ⟨v, hv⟩ := Each.filed_of_writingSource h' hn
  refine ⟨v, hv, Each.took_of_stale h' hb ((hpipe s.port).2.trans hread)
    ((hpipe s.port).1.trans hphase) (fun q hq hq' => ?_) hv⟩
  rw [(hpipe q).1] at hq
  rw [(hpipe q).2] at hq'
  exact ho q hq hq'

end Casing

namespace Rig

variable {r : Rig} {s : Socket}

/-- A pipe becomes stale when its writer gets a new source while the transfer is shown. -/
theorem stale_perform (h : r.Shown false) {a : Act} (hs : (r.perform a).casing.Stale s) :
    a ≠ .step ∧ (r.casing.Stale s ∨ ∃ source, a = .assembleAt s.opposite.face source ∧
      (r.casing.pipes.pipe s).phase = .transferring ∧
      (r.casing.pipes.pipe s).writing = true) := by
  have hexchange : ∀ {r : Rig} {f : Face} {m : Option Module},
      (r.exchange f m).casing.Stale s → r.casing.Stale s := by
    intro r f m hs
    obtain hc | ⟨d, hc⟩ := r.casing_exchange f m
    · rwa [hc] at hs
    · rw [hc] at hs
      exact hs.of_exchange
  cases a with
  | make | assemble => exact ⟨by simp, .inl hs⟩
  | install f i =>
    refine ⟨by simp, .inl ?_⟩
    simp only [Rig.perform] at hs
    split at hs
    · exact hs
    · exact hexchange (r := { r with shelf := r.shelf.eraseIdx i }) hs
  | remove f => exact ⟨by simp, .inl (hexchange hs)⟩
  | enable =>
    refine ⟨by simp, .inl ?_⟩
    simp only [Rig.perform, Casing.enable] at hs
    split at hs <;> exact hs
  | disable =>
    exact absurd hs ((Casing.published_disable fun he => h.published (.inr he)).not_stale s)
  | step => exact absurd hs (Casing.not_stale_step h.under.casing (fun he => h.published (.inr he)) s)
  | assembleAt f source =>
    refine ⟨by simp, ?_⟩
    obtain hs | ⟨e, hp, hw⟩ := hs.of_assembleAt h.under.casing
    · exact .inl hs
    · exact .inr ⟨source, by rw [e], hp, hw⟩

/-- In a history, a stale pipe goes back to a new source that its writer got since the last step,
while the transfer was shown. -/
theorem stale_run (h : r.Shown false) {acts : List Act} (hs : (r.run acts).casing.Stale s) :
    r.casing.Stale s ∧ .step ∉ acts ∨
      ∃ l source l', acts = l ++ .assembleAt s.opposite.face source :: l' ∧ .step ∉ l' ∧
        ((r.run l).casing.pipes.pipe s).phase = .transferring ∧
        ((r.run l).casing.pipes.pipe s).writing = true := by
  induction acts generalizing r with
  | nil => exact .inl ⟨hs, List.not_mem_nil⟩
  | cons a acts ih =>
    obtain ⟨ha, hacts⟩ | ⟨l, source, l', rfl, hl', hp, hw⟩ := ih (h.perform nofun) hs
    · obtain ⟨hne, hr | ⟨source, rfl, hp, hw⟩⟩ := stale_perform h ha
      · exact .inl ⟨hr, by simpa [hacts] using hne.symm⟩
      · exact .inr ⟨[], source, acts, rfl, hacts, hp, hw⟩
    · exact .inr ⟨a :: l, source, l', rfl, hl', hp, hw⟩

end Rig

/-- Whatever was done to a casing, a word is taken in the tick in which it was handed over only if
the writer got a new source since the last step, while the pipe showed that an older word of it
could be taken; and the writer has its turn before the reader. From every casing that shows this,
and to whose reader nothing else shows it, some new source does lead there. -/
theorem Rig.same_tick_transfer (stand : Stand) (acts : List Act) :
    let c := ((new stand).run acts).casing
    (∀ (s : Socket) (v w : Word), .filed s.opposite.port v ∈ c.passages s.opposite.face →
      .took s.port w ∈ c.passages s.face →
      w = v ∧ s.opposite.face ∈ s.face.before ∧
        ∃ l source l', acts = l ++ .assembleAt s.opposite.face source :: l' ∧ .step ∉ l' ∧
          let p := ((new stand).run l).casing.pipes.pipe s
          p.phase = .transferring ∧ p.writing = true) ∧
    ∀ s : Socket, c.enabled = true → (c.pipes.pipe s).ready = true →
      s.opposite.face ∈ s.face.before →
      (∀ q, (c.pipes.pipe ⟨s.face, q⟩).phase = .transferring →
        (c.pipes.pipe ⟨s.face, q⟩).reading = true → q = s.port) →
      ∃ source v,
        let c' := ((new stand).run (acts ++ [.assembleAt s.opposite.face source])).casing
        .filed s.opposite.port v ∈ c'.passages s.opposite.face ∧
          .took s.port v ∈ c'.passages s.face := by
  intro c
  have h : c.Each (Device.Orderly c.enabled) := (orderly_run stand acts).casing
  refine ⟨fun s v w hv hw => ?_, fun s he hr hb ho => ?_⟩
  · obtain ⟨hval, hb, hs⟩ := h.took_eq_filed hv hw
    have hnew := shown_new stand false
    refine ⟨hval, hb, (stale_run hnew hs).resolve_left fun ⟨hs, _⟩ => ?_⟩
    exact (hnew.published (.inr rfl)).not_stale s hs
  · obtain ⟨v, hv⟩ := h.same_tick_of_ready he hr hb ho
    refine ⟨Casing.writingSource s.opposite.port, v, ?_⟩
    simp only [run, List.foldl_append]
    exact hv

/-- A word is ready to be taken, and a new source for its writer makes another one pass at once. -/
theorem Rig.same_tick_transfer_ready :
    let acts : List Act :=
      [.make ⟨⟨.first, .zNeg⟩, .node, ascii "MOV 1, RIGHT"⟩,
        .make ⟨⟨.first, .xNeg⟩, .node, ascii "MOV ANY, ACC"⟩,
        .install .zNeg 0, .install .xNeg 0, .enable, .step]
    let c := ((Rig.new .first).run acts).casing
    (c.pipes.pipe ⟨.xNeg, .left⟩).ready = true ∧ ∃ source v,
      let c' := ((Rig.new .first).run (acts ++ [.assembleAt .zNeg source])).casing
      .filed .right v ∈ c'.passages .zNeg ∧ .took .left v ∈ c'.passages .xNeg := by
  intro acts c
  have hready : (c.pipes.pipe ⟨.xNeg, .left⟩).ready = true := by decide +kernel
  refine ⟨hready, (Rig.same_tick_transfer .first acts).2 ⟨.xNeg, .left⟩ (by decide +kernel) hready
    (by decide) fun q => ?_⟩
  cases q <;> decide +kernel

/-- A node gets a new program while its word is about to be taken. Its next word is handed over and
taken in one tick. -/
theorem Rig.taken_as_soon_as_filed :
    let acts : List Act :=
      [.make ⟨⟨.first, .zNeg⟩, .node, ascii "MOV 1, RIGHT"⟩,
        .make ⟨⟨.first, .xNeg⟩, .node, ascii "MOV LEFT, ACC"⟩,
        .install .zNeg 0, .install .xNeg 0, .enable, .step,
        .assembleAt .zNeg (ascii "MOV 5, RIGHT")]
    let c := ((Rig.new .first).run acts).casing
    Socket.opposite ⟨.xNeg, .left⟩ = ⟨.zNeg, .right⟩ ∧
      .filed .right 5 ∈ c.passages .zNeg ∧ .took .left 5 ∈ c.passages .xNeg := by
  decide +kernel

end NodeCube
