import NodeCube.Proofs.Casing.Published
import NodeCube.Proofs.Site.Passages

/-!
# No word is lost in a pipe

While an enabled casing is stepped, each pipe returns the words that it accepted, in their order,
and at most the last one is still under way (`Casing.Steady.accepted_eq`). What passes at a face in
a step is told by the site at which the node there has its turn (`Casing.passages`).
-/

namespace NodeCube

/-- The word that waits in a pipe to be taken. -/
def Pipe.pending (p : Pipe) : List Word := if p.writing then [p.value] else []

/-- What a tick does to a pipe that accepts and returns the given words. -/
inductive Pipe.Ticked (a b : Pipe) : (accepted returned : List Word) → Prop
  | nothing (hw : b.writing = a.writing) (hv : b.value = a.value) : Ticked a b [] []
  | accepts {v : Word} (ha : a.writing = false) (hb : b.writing = true) (hv : b.value = v) :
    Ticked a b [v] []
  | returns (ha : a.writing = true) (hb : b.writing = false) : Ticked a b [] [a.value]

namespace Pipe

variable {a b : Pipe} {accepted returned : List Word}

theorem Ticked.pending_append (h : Ticked a b accepted returned) :
    a.pending ++ accepted = returned ++ b.pending := by
  cases h with
  | nothing hw hv => simp [pending, hw, hv]
  | accepts ha hb hv => simp [pending, ha, hb, hv]
  | returns ha hb => simp [pending, ha, hb]

/-- A tick is a turn of the writer and one of the reader, and then a step of the pipe. -/
theorem Ticked.of_turns {write read : Pipe} (hf : Filed a write accepted)
    (ht : Took a read returned) (hw : b.writing = (write.writing && !read.taken))
    (hv : b.value = write.value) :
    Ticked a b accepted returned := by
  cases ht with
  | nothing ht =>
    rw [ht, Bool.not_false, Bool.and_true] at hw
    cases hf with
    | nothing hw' hv' => exact .nothing (hw.trans hw') (hv.trans hv')
    | word ha hb hv' => exact .accepts ha (hw.trans hb) (hv.trans hv')
  | word ha ht =>
    rw [ht, Bool.not_true, Bool.and_false] at hw
    cases hf with
    | nothing => exact .returns ha hw
    | word ha' => rw [ha] at ha'; cases ha'

end Pipe

namespace Casing

variable {c : Casing} {f : Face}

/-- What passes at a face in a tick. The face has its turn after those that stand before it. -/
def passages (c : Casing) (f : Face) : List Passage :=
  let c' := Outcome.state (stepFaces (Face.all.takeWhile (· != f)) c)
  match c'.slots.get f with
  | some (.node n) =>
    if n.running then (Outcome.state (n.machine.program.step (n.site (c'.pipes.ports f)))).passed
    else []
  | _ => []

/-- An enabled casing between two ticks. -/
structure Steady (c : Casing) : Prop where
  enabled : c.enabled = true
  orderly : c.Each (Device.Orderly true)
  published : c.Published

namespace Steady

theorem step_eq (h : c.Steady) : step c = .ok () c.merged.stepPipes := by
  rw [Casing.step_eq h.orderly h.published, if_pos h.enabled]

theorem next (h : c.Steady) : c.merged.stepPipes.Steady where
  enabled := h.enabled
  orderly := h.orderly.merged (Device.local_orderly true) h.published
  published := published_stepPipes _

/-- When a face has its turn, it looks there as it did at the start of the tick. -/
theorem waits (h : c.Steady) (f : Face) :
    let c' := Outcome.state (stepFaces (Face.all.takeWhile (· != f)) c)
    c'.slots.get f = c.slots.get f ∧
      (c.pipes.ports f).Same Pipe.SameToReader Pipe.SameToWriter (c'.pipes.ports f) := by
  obtain ⟨c', hc, -, -, -, hw⟩ := stepFaces_turned (Device.local_orderly true) h.orderly
    h.published f.nodup_before
  rw [show stepFaces (Face.all.takeWhile (· != f)) c = .ok () c' from hc]
  exact ⟨(hw f f.not_mem_before).slot, (hw f f.not_mem_before).same⟩

theorem passages_of_node (h : c.Steady) {n : Node} (hn : c.slots.get f = some (.node n))
    (hr : n.running = true) : c.passages f =
      (Outcome.state (n.machine.program.step (n.site (c.pipes.ports f)))).passed := by
  obtain ⟨hs, hp⟩ := h.waits f
  unfold passages
  simp only [hs, hn, hr, if_true]
  exact (n.machine.program.blind_step Pipe.view_same _ _ (hp.site n)).2.passed.symm

theorem passages_of_other (h : c.Steady) (hn : ∀ n, c.slots.get f ≠ some (.node n)) :
    c.passages f = [] := by
  unfold passages
  simp only [(h.waits f).1]

/-- The turn of a node in a tick. -/
theorem turn (h : c.Steady) {n : Node} (hn : c.slots.get f = some (.node n)) :
    ∃ s, n.machine.program.Turned (n.site (c.pipes.ports f)) s ∧ c.passages f = s.passed ∧
      c.portsAfter f = s.ports ∧
      c.merged.stepPipes.slots.get f = some (.node (n.withRegisters s.registers)) := by
  have ho := h.orderly.orderly_node hn
  obtain ⟨s, hs, ht, -⟩ := ho.safe.turn (h.orderly.untaken_ports f)
  have hturn := Device.turn_running (a := c.pipes.ports f) ho.running
  rw [hs] at hturn
  refine ⟨s, ht, ?_, ?_, ?_⟩
  · rw [h.passages_of_node hn ho.running, hs]
    rfl
  · simp only [portsAfter, hn, hturn]
    rfl
  · simp only [stepPipes, merged, PerFace.get_ofFn, slotAfter, hn, Option.map_some, hturn]
    rfl

/-- What passes at a face in a tick goes with what the turn there does to the pipes. -/
theorem passed (h : c.Steady) (f : Face) (p : Port) :
    Pipe.Took (c.pipes.pipe ⟨f, p⟩) ((c.portsAfter f).incoming.get p)
        ((c.passages f).filterMap (Passage.tookAt? p)) ∧
      Pipe.Filed (c.pipes.pipe (Socket.opposite ⟨f, p⟩)) ((c.portsAfter f).outgoing.get p)
        ((c.passages f).filterMap (Passage.filedAt? p)) := by
  have hu := h.orderly.untaken_ports f
  rw [← Pipes.incoming_ports, ← Pipes.outgoing_ports]
  by_cases hn : ∃ n, c.slots.get f = some (.node n)
  · obtain ⟨n, hn⟩ := hn
    obtain ⟨s, ht, hpass, hports, -⟩ := h.turn hn
    rw [hpass, hports]
    exact ⟨ht.took hu rfl p, ht.filed rfl p⟩
  · rw [h.passages_of_other fun n hs => hn ⟨n, hs⟩]
    have hports : c.portsAfter f = c.pipes.ports f := by
      unfold portsAfter
      match hd : c.slots.get f with
      | none => rfl
      | some (.node n) => exact absurd ⟨n, hd⟩ hn
      | some (.meter _) | some (.ticker _) => rfl
    rw [hports]
    exact ⟨.nothing (hu p), .nothing rfl rfl⟩

/-- What a tick does to the pipe that ends at a socket. -/
theorem ticked (h : c.Steady) (s : Socket) :
    Pipe.Ticked (c.pipes.pipe s) (c.merged.stepPipes.pipes.pipe s)
      ((c.passages s.opposite.face).filterMap (Passage.filedAt? s.opposite.port))
      ((c.passages s.face).filterMap (Passage.tookAt? s.port)) := by
  have hread := (h.passed s.face s.port).1
  have hwrite := (h.passed s.opposite.face s.opposite.port).2
  rw [show Socket.opposite ⟨s.opposite.face, s.opposite.port⟩ = s from s.opposite_opposite]
    at hwrite
  refine .of_turns hwrite hread ?_ ?_
  · rw [stepPipes, Pipes.pipe_mapPipes, Pipe.writing_step]
    simp only [merged, Pipes.pipe_ofFn]
  · rw [stepPipes, Pipes.pipe_mapPipes, Pipe.value_step]
    simp only [merged, Pipes.pipe_ofFn]

end Steady

/-! ## Many steps -/

/-- The casing after some steps. -/
def after (c : Casing) : Nat → Casing
  | 0 => c
  | k + 1 => Outcome.state (step (c.after k))

/-- What passes at a face from tick `a` on and before tick `b`. -/
def history (c : Casing) (f : Face) (a b : Nat) : List Passage :=
  (List.range' a (b - a)).flatMap fun k => (c.after k).passages f

/-- The words that the pipe that ends at a socket accepted in the first `k` ticks. -/
def accepted (c : Casing) (s : Socket) (k : Nat) : List Word :=
  (c.history s.opposite.face 0 k).filterMap (Passage.filedAt? s.opposite.port)

/-- The words that were taken from the pipe that ends at a socket in the first `k` ticks. -/
def returned (c : Casing) (s : Socket) (k : Nat) : List Word :=
  (c.history s.face 0 k).filterMap (Passage.tookAt? s.port)

theorem history_self (c : Casing) (f : Face) (a : Nat) : c.history f a a = [] := by
  simp [history]

theorem history_succ (c : Casing) (f : Face) {a b : Nat} (h : a ≤ b) :
    c.history f a (b + 1) = c.history f a b ++ (c.after b).passages f := by
  rw [history, Nat.succ_sub h, List.range'_concat, List.flatMap_append]
  simp [history, Nat.add_sub_of_le h]

theorem accepted_succ (c : Casing) (s : Socket) (k : Nat) : c.accepted s (k + 1) =
    c.accepted s k ++
      ((c.after k).passages s.opposite.face).filterMap (Passage.filedAt? s.opposite.port) := by
  rw [accepted, history_succ _ _ (Nat.zero_le k), List.filterMap_append, accepted]

theorem returned_succ (c : Casing) (s : Socket) (k : Nat) : c.returned s (k + 1) =
    c.returned s k ++ ((c.after k).passages s.face).filterMap (Passage.tookAt? s.port) := by
  rw [returned, history_succ _ _ (Nat.zero_le k), List.filterMap_append, returned]

namespace Steady

theorem after (h : c.Steady) (k : Nat) : (c.after k).Steady := by
  induction k with
  | zero => exact h
  | succ k ih =>
    rw [Casing.after, ih.step_eq]
    exact ih.next

theorem after_succ (h : c.Steady) (k : Nat) :
    c.after (k + 1) = (c.after k).merged.stepPipes := by
  rw [Casing.after, (h.after k).step_eq]
  rfl

theorem step_after (h : c.Steady) (k : Nat) : step (c.after k) = .ok () (c.after (k + 1)) := by
  rw [h.after_succ, (h.after k).step_eq]

theorem ticked_after (h : c.Steady) (s : Socket) (k : Nat) :
    Pipe.Ticked ((c.after k).pipes.pipe s) ((c.after (k + 1)).pipes.pipe s)
      (((c.after k).passages s.opposite.face).filterMap (Passage.filedAt? s.opposite.port))
      (((c.after k).passages s.face).filterMap (Passage.tookAt? s.port)) := by
  rw [h.after_succ]
  exact (h.after k).ticked s

/-- What a pipe accepted, it has returned or it still holds. -/
theorem accepted_eq (h : c.Steady) {s : Socket} (hs : (c.pipes.pipe s).writing = false) (k : Nat) :
    c.accepted s k = c.returned s k ++ ((c.after k).pipes.pipe s).pending := by
  induction k with
  | zero => simp [accepted, returned, history_self, Casing.after, Pipe.pending, hs]
  | succ k ih =>
    rw [accepted_succ, returned_succ, ih, List.append_assoc, List.append_assoc,
      (h.ticked_after s k).pending_append]

end Steady

end Casing

/-! ## A casing that was just enabled -/

namespace Casing

variable {c : Casing}

/-- An enabled casing in which nothing is under way. -/
structure Fresh (c : Casing) : Prop where
  steady : c.Steady
  empty : ∀ s, (c.pipes.pipe s).writing = false
  clear : ∀ f n, c.slots.get f = some (.node n) → n.machine.registers.Clear

theorem fresh_enable (h : c.Published) (he : c.enabled = false)
    (hk : c.Each (Device.Orderly false)) : c.enable.Fresh := by
  have hk' := Device.orderly_regime.enable (c := c) (by rwa [he])
  rw [enabled_enable] at hk'
  refine ⟨⟨enabled_enable c, hk', h.enable⟩, fun s => ?_, fun f n hn => ?_⟩
  · have hq := Device.quiet_of_disabled (hk.holds s.opposite.face) (hk.untaken_ports _)
    have := hq.writing s.opposite.port
    rw [Pipes.outgoing_ports] at this
    rw [enable_eq he, ← s.opposite_opposite]
    exact this
  · have hf := hk.holds f
    rw [enable_eq he] at hn
    simp only [PerFace.get_map, Option.map_eq_some_iff] at hn
    obtain ⟨d, hd, hn⟩ := hn
    rw [hd] at hf
    match d, hn, hf with
    | .node m, hn, hf =>
      cases hn
      exact hf.clear rfl

end Casing

/-- Whatever was done to a casing that is not enabled, nothing is under way when it is enabled. -/
theorem Rig.fresh_run (stand : Stand) (acts : List Act)
    (he : ((new stand).run acts).casing.enabled = false) :
    ((new stand).run acts).casing.enable.Fresh := by
  have h : ((new stand).run acts).Shown false := (shown_new stand false).run nofun
  obtain ⟨hu, hp⟩ := h
  have hk := hu.casing
  rw [he] at hk
  exact Casing.fresh_enable (hp (.inr he)) he hk

end NodeCube
