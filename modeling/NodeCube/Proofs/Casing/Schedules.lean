import NodeCube.Proofs.Casing.Conservation
import NodeCube.Proofs.Pipe.Fates
import NodeCube.Proofs.Site.Deeds

/-!
# Schedules

Nodes need not be stepped in ticks: a schedule is any sequence of turns of single faces and steps of
all pipes. If no program names `ANY`, schedules differ only in how far they get. What a node does is
told by what it read, and what it reads by what its neighbour wrote; so along any two schedules the
nodes do the same deeds in the same order, as far as both get (`Casing.Logged.follow`).

The proof goes along one schedule with the other one finished. A word that is taken next was handed
over before, so the logs of the nodes that wrote can be compared already.
-/

namespace NodeCube

/-! ## Lists of which one begins with the other -/

/-- One of the lists is the beginning of the other. -/
def Comparable {α : Type} (a b : List α) : Prop := a <+: b ∨ b <+: a

namespace Comparable

variable {α β : Type} {a b : List α}

theorem flatMap (h : Comparable a b) (g : α → List β) : Comparable (a.flatMap g) (b.flatMap g) := by
  obtain ⟨l, rfl⟩ | ⟨l, rfl⟩ := h
  · exact .inl ⟨l.flatMap g, List.flatMap_append.symm⟩
  · exact .inr ⟨l.flatMap g, List.flatMap_append.symm⟩

theorem filterMap (h : Comparable a b) (g : α → Option β) :
    Comparable (a.filterMap g) (b.filterMap g) :=
  h.imp (·.filterMap g) (·.filterMap g)

/-- What comes next in both is the same. -/
theorem head_eq {x y : α} {l : List α} (h : Comparable (a ++ [x]) (a ++ y :: l)) : x = y := by
  obtain h | h := h
  · exact (List.cons_prefix_cons.mp ((List.prefix_append_right_inj a).mp h)).1
  · exact (List.cons_prefix_cons.mp ((List.prefix_append_right_inj a).mp h)).1.symm

end Comparable

/-! ## Pipes between two steps -/

namespace Pipe

variable {a b : Pipe} {ws : List Word}

/-- Only a word that is there was taken. -/
def Honest (p : Pipe) : Prop := p.taken = true → p.writing = true

theorem Drawn.waiting (h : Drawn a b ws) (hm : ReaderMoved a b) : a.waiting = ws ++ b.waiting := by
  cases h with
  | nothing ht => simp [Pipe.waiting, hm.writing, hm.value, ht]
  | word _ hw hn ht => simp [Pipe.waiting, hw, hn, ht]

theorem Drawn.waiting_eq {x : Word} (h : Drawn a b [x]) : a.waiting = [x] := by
  cases h with
  | word _ hw hn => simp [Pipe.waiting, hw, hn]

theorem Drawn.honest (h : Drawn a b ws) (hm : ReaderMoved a b) (ha : a.Honest) : b.Honest := by
  intro hb
  rw [hm.writing]
  cases h with
  | nothing ht => exact ha (ht.symm.trans hb)
  | word _ hw => exact hw

theorem Filed.waiting (h : Filed a b ws) (hm : WriterMoved a b) (ha : a.Honest) :
    b.waiting = a.waiting ++ ws := by
  cases h with
  | nothing hw hv => simp [Pipe.waiting, hw, hv, hm.taken]
  | word hw hb hv =>
    have ht : a.taken = false := by
      cases ht : a.taken with
      | false => rfl
      | true => cases hw.symm.trans (ha ht)
    simp [Pipe.waiting, hw, hb, hv, hm.taken, ht]

theorem WriterMoved.honest (hm : WriterMoved a b) (ha : a.Honest) : b.Honest := by
  intro hb
  rw [hm.taken] at hb
  exact (hm.kept (ha hb)).1

theorem waiting_step (p : Pipe) : p.step.waiting = p.waiting := by
  cases ht : p.taken with
  | true => simp [waiting, writing_step, ht]
  | false => simp [waiting, writing_step, ht]

theorem honest_step (p : Pipe) : p.step.Honest := by
  intro h
  rw [taken_step] at h
  cases h

end Pipe

/-! ## Following a schedule -/

/-- What passes at a node in its turn. -/
def Node.passages (n : Node) (ports : Ports) : List Passage :=
  if n.running then (Outcome.state (n.machine.program.step (n.site ports))).passed else []

theorem Node.passages_of_step {n : Node} {ports : Ports} {s : Site} (hr : n.running = true)
    (hs : n.machine.program.step (n.site ports) = .ok () s) : n.passages ports = s.passed := by
  rw [passages, if_pos hr, hs]
  rfl

/-- The program counter, accumulator and backup after a turn in which a node completes an
instruction: it has one to execute, and is not left waiting. -/
def Node.completed (n : Node) (ports : Ports) : List (Int × Word × Word) :=
  let r := (Outcome.state (n.machine.program.step (n.site ports))).registers
  if n.running && (n.machine.program.current? n.machine.registers).isSome && !r.stalled then
    [(r.pc, r.acc, r.bak)]
  else []

/-- A turn of a node, with what it does in it: nothing, or one deed. -/
structure Node.Turn (n : Node) (ports : Ports) (s : Site) (deeds : List Deed) : Prop where
  step : n.machine.program.step (n.site ports) = .ok () s
  turned : n.machine.program.Turned (n.site ports) s
  passed : s.passed = deeds.flatMap Deed.passed
  completed : n.completed ports = deeds.filterMap Deed.completed?
  does : deeds = [] ∧ s.registers.core = n.machine.registers.core ∨
    ∃ d, deeds = [d] ∧ d.registers = s.registers.core ∧
      n.machine.program.Does n.machine.registers.core d

theorem Node.turn {n : Node} {ports : Ports} (hr : n.running = true)
    (hp : n.machine.program.Sound) (hn : n.machine.program.NamesNoAny)
    (ho : n.machine.program.Owns (n.site ports)) : ∃ s deeds, n.Turn ports s deeds := by
  obtain ⟨s, hs, ht⟩ := Program.step_turned hp
    (fun i hi ha => absurd ha (hn i (Program.mem_of_current? hi)).1) ho.fits ho.writes
  have hc : n.completed ports =
      if (n.machine.program.current? n.machine.registers).isSome && !s.registers.stalled then
        [(s.registers.pc, s.registers.acc, s.registers.bak)] else [] := by
    simp only [Node.completed, hs, hr, Bool.true_and]
    rfl
  obtain h | h := ht.does hn rfl
  · refine ⟨s, [], hs, ht, h.passed, hc.trans (if_neg fun hi => ?_), .inl ⟨rfl, h.core⟩⟩
    rw [Bool.and_eq_true] at hi
    rw [h.stalled hi.1] at hi
    cases hi.2
  · refine ⟨s, [⟨s.passed, s.registers.core⟩], hs, ht, by simp, hc.trans ?_,
      .inr ⟨_, rfl, rfl, h.does⟩⟩
    rw [show (n.machine.program.current? n.machine.registers).isSome = true from h.present,
      h.stalled]
    cases hf : s.registers.writeInFlight <;> simp [Deed.completed?, Registers.core, hf]

namespace Node.Turn

variable {n : Node} {ports : Ports} {s : Site} {deeds : List Deed}

theorem drawn (h : n.Turn ports s deeds) (p : Port) :
    Pipe.Drawn (ports.incoming.get p) (s.incoming p) (Deed.tookIn p deeds) := by
  rw [Deed.tookIn, ← h.passed]
  exact h.turned.drawn rfl p

theorem filed (h : n.Turn ports s deeds) (p : Port) :
    Pipe.Filed (ports.outgoing.get p) (s.outgoing p) (Deed.filedIn p deeds) := by
  rw [Deed.filedIn, ← h.passed]
  exact h.turned.filed rfl p

theorem tells (h : n.Turn ports s deeds) {r : Registers} {log : List Deed}
    (ht : n.machine.program.Tells r log n.machine.registers.core) :
    n.machine.program.Tells r (log ++ deeds) s.registers.core := by
  obtain ⟨rfl, hc⟩ | ⟨d, rfl, hc, hd⟩ := h.does
  · rw [List.append_nil, hc]
    exact ht
  · rw [← hc]
    exact ht.append hd

end Node.Turn

namespace Casing

/-- A device has a turn, or the pipes publish what is pending. -/
inductive Event where
  | turn (f : Face)
  | publish
  deriving DecidableEq, Repr

def occur : Event → EStateM Fault Casing Unit
  | .turn f => stepFace f
  | .publish => modify stepPipes

/-- Lets some events occur in turn. -/
def follow (schedule : List Event) : EStateM Fault Casing Unit := schedule.forM occur

/-- What the node on a face shows in an event, if it has a turn. -/
def during {α : Type} (c : Casing) (g : Node → Ports → List α) (f : Face) : Event → List α
  | .turn h => if h = f then (c.node? f).elim [] fun n => g n (c.pipes.ports f) else []
  | .publish => []

/-- What the node on a face shows while a schedule is followed. -/
def tally {α : Type} (g : Node → Ports → List α) (f : Face) : Casing → List Event → List α
  | _, [] => []
  | c, e :: rest => c.during g f e ++ tally g f (Outcome.state (occur e c)) rest

/-- The words that are taken from the pipe that ends at a socket while a schedule is followed. -/
def returnedBy (c : Casing) (schedule : List Event) (s : Socket) : List Word :=
  (tally Node.passages s.face c schedule).filterMap (Passage.tookAt? s.port)

/-- The program counter, accumulator and backup of the node on a face, after each instruction that
it completes while a schedule is followed. -/
def completions (c : Casing) (schedule : List Event) (f : Face) : List (Int × Word × Word) :=
  tally Node.completed f c schedule

/-! ## Logs along a schedule -/

/-- A casing whose nodes run, each a program that can be executed and never names `ANY`. -/
def Plain (c : Casing) : Prop :=
  ∀ f n, c.node? f = some n →
    n.running = true ∧ n.machine.program.Sound ∧ n.machine.program.NamesNoAny

/-- The nodes of `c₀` did the deeds of the logs, and that led to `c`. -/
structure Logged (c₀ : Casing) (log : Face → List Deed) (c : Casing) : Prop where
  node : ∀ f n, c₀.node? f = some n → ∃ r, c.node? f = some (n.withRegisters r) ∧
    n.machine.program.Tells n.machine.registers.core (log f) r.core ∧
    n.machine.program.Owns ((n.withRegisters r).site (c.pipes.ports f))
  other : ∀ f, c₀.node? f = none → c.node? f = none ∧ log f = []
  pipe : ∀ s : Socket, Deed.filedIn s.opposite.port (log s.opposite.face) =
    Deed.tookIn s.port (log s.face) ++ (c.pipes.pipe s).waiting
  honest : ∀ s, (c.pipes.pipe s).Honest

variable {c₀ c c' : Casing} {log log' : Face → List Deed}

theorem Fresh.logged (h : c.Fresh) : Logged c (fun _ => []) c where
  node f n hn := ⟨n.machine.registers, hn, rfl,
    (h.steady.orderly.orderly_node (node?_eq_some.mp hn)).safe.owns⟩
  other f hn := ⟨hn, rfl⟩
  pipe s := by simp [Deed.filedIn, Deed.tookIn, Pipe.waiting, h.empty s]
  honest s ht := by
    rw [h.steady.orderly.untaken s] at ht
    cases ht

/-- The word that waits in a pipe is the one that is taken next in any other log, if one is. -/
theorem Logged.word_eq (h : Logged c₀ log c) (h' : Logged c₀ log' c') {s : Socket} {x x' : Word}
    {rest : List Word} (hc : Comparable (log s.opposite.face) (log' s.opposite.face))
    (hw : (c.pipes.pipe s).waiting = [x])
    (ht : Deed.tookIn s.port (log' s.face) = Deed.tookIn s.port (log s.face) ++ x' :: rest) :
    x = x' := by
  -- both come next among the words that the neighbour handed over
  have hfiled : Comparable (Deed.filedIn s.opposite.port (log s.opposite.face))
      (Deed.filedIn s.opposite.port (log' s.opposite.face)) := (hc.flatMap _).filterMap _
  rw [h.pipe s, h'.pipe s, hw, ht, List.append_assoc] at hfiled
  exact hfiled.head_eq

/-- A node's next deed is the one that comes next in any other log of it, if there is one. -/
theorem Logged.agree (h : Logged c₀ log c) (h' : Logged c₀ log' c') (hp : c₀.Plain)
    (hc : ∀ g, Comparable (log g) (log' g)) {f : Face} {n : Node} {r : Registers} {d : Deed}
    (hn : c₀.node? f = some n)
    (ht : n.machine.program.Tells n.machine.registers.core (log f) r)
    (hd : n.machine.program.Does r d)
    (hw : ∀ p x, .took p x ∈ d.passed → (c.pipes.pipe ⟨f, p⟩).waiting = [x]) :
    Comparable (log f ++ [d]) (log' f) := by
  obtain ⟨l, hl⟩ | hl := hc f
  · cases l with
    | nil =>
      rw [List.append_nil] at hl
      rw [hl]
      exact .inr (List.prefix_append _ _)
    | cons d' l =>
      obtain ⟨r', -, htells, -⟩ := h'.node f n hn
      rw [← hl] at htells
      obtain ⟨r₁, h₁, hd'⟩ := htells.split
      cases ht.unique h₁
      have hsame : d = d' := hd.unique (hp f n hn).2.2 hd' fun p x x' hx hx' => by
        have hnext : Deed.tookIn p (log' f) =
            Deed.tookIn p (log f) ++ x' :: Deed.tookIn p l := by
          rw [← hl, Deed.tookIn_append]
          simp [Deed.tookIn, hd'.took_eq hx']
        exact h.word_eq h' (s := ⟨f, p⟩) (hc _) (hw p x hx) hnext
      rw [← hl, hsame]
      exact .inl ⟨l, List.append_assoc _ _ _⟩
  · exact .inr (hl.trans (List.prefix_append _ _))

/-! ## Turns -/

section Turn

variable {f : Face} {n : Node} {r : Registers} {s : Site} {deeds : List Deed}

/-- The deeds of a turn at one face. -/
def newsAt (f : Face) (deeds : List Deed) (g : Face) : List Deed := if g = f then deeds else []

/-- What a node's turn does to the pipe that ends at a socket. -/
theorem pipe_of_turn (h : (n.withRegisters r).Turn (c.pipes.ports f) s deeds) (t : Socket)
    (hh : (c.pipes.pipe t).Honest) : ((c.pipes.withPorts f s.ports).pipe t).Honest ∧
      (c.pipes.pipe t).waiting ++ Deed.filedIn t.opposite.port (newsAt f deeds t.opposite.face) =
        Deed.tookIn t.port (newsAt f deeds t.face) ++
          ((c.pipes.withPorts f s.ports).pipe t).waiting := by
  have hnil : ∀ p, Deed.filedIn p [] = [] ∧ Deed.tookIn p [] = [] := fun _ => ⟨rfl, rfl⟩
  rw [Pipes.pipe_withPorts]
  by_cases e : t.face = f
  · -- the node reads from the pipe
    have hne : t.opposite.face ≠ f := e ▸ t.opposite_face_ne
    have hd := h.drawn t.port
    have hm : Pipe.ReaderMoved ((c.pipes.ports f).incoming.get t.port) (s.incoming t.port) :=
      h.turned.byOwner.incoming t.port
    rw [Pipes.incoming_ports, ← e] at hd hm
    simp only [newsAt, if_pos e, if_neg hne, hnil, List.append_nil]
    exact ⟨hd.honest hm hh, hd.waiting hm⟩
  · rw [if_neg e]
    by_cases e' : t.opposite.face = f
    · -- the node writes to it
      have hf := h.filed t.opposite.port
      have hm : Pipe.WriterMoved ((c.pipes.ports f).outgoing.get t.opposite.port)
          (s.outgoing t.opposite.port) := h.turned.byOwner.outgoing t.opposite.port
      rw [← e', Pipes.outgoing_ports_opposite] at hf hm
      simp only [newsAt, if_pos e', if_neg e, hnil, List.nil_append]
      exact ⟨hm.honest hh, (hf.waiting hm hh).symm⟩
    · simp only [newsAt, if_neg e', if_neg e, hnil, List.append_nil, List.nil_append, and_true]
      exact hh

theorem node?_place (c : Casing) (f g : Face) (m : Node) (t : Ports) :
    (c.place f (.node m) t).node? g = if g = f then some m else c.node? g := by
  simp only [node?, place, PerFace.get_set]
  split <;> rfl

theorem Logged.turn (h : Logged c₀ log c) (hn : c₀.node? f = some n)
    (ht : n.machine.program.Tells n.machine.registers.core (log f) r.core)
    (ho : n.machine.program.Owns ((n.withRegisters r).site (c.pipes.ports f)))
    (hs : (n.withRegisters r).Turn (c.pipes.ports f) s deeds) :
    Logged c₀ (fun g => log g ++ newsAt f deeds g)
      (c.place f (.node (n.withRegisters s.registers)) s.ports) where
  node g m hm := by
    rw [node?_place]
    by_cases e : g = f
    · subst e
      cases hn.symm.trans hm
      have ho' := hs.turned.owns ho
      refine ⟨s.registers, if_pos rfl, ?_, ?_⟩
      · rw [newsAt, if_pos rfl]
        exact hs.tells ht
      · simp only [place, Pipes.ports_withPorts]
        exact ⟨ho'.fits, ho'.writes⟩
    · obtain ⟨r', hr', ht', ho'⟩ := h.node g m hm
      have hb := (place_of_ne (d := .node (n.withRegisters s.registers)) e hs.turned.byOwner).2
      refine ⟨r', (if_neg e).trans hr', ?_, ho'.of_le fun p hw => ?_⟩
      · rw [newsAt, if_neg e, List.append_nil]
        exact ht'
      · rwa [(hb.outgoing p).writing] at hw
  other g hg := by
    have e : g ≠ f := by
      rintro rfl
      cases hn.symm.trans hg
    rw [node?_place, if_neg e, newsAt, if_neg e, List.append_nil]
    exact h.other g hg
  pipe t := by
    rw [Deed.filedIn_append, Deed.tookIn_append, h.pipe t, List.append_assoc, List.append_assoc]
    exact congrArg _ (pipe_of_turn hs t (h.honest t)).2
  honest t := (pipe_of_turn hs t (h.honest t)).1

end Turn

/-! ## Events -/

/-- The logs of the nodes of `c₀` grow by the new deeds on the way to `c'`, and that shows in the
words that pass and the instructions that are completed. Logs with which they could be compared
before they can still be compared with. -/
structure Grows (c₀ : Casing) (log news : Face → List Deed) (c' : Casing)
    (passed : Face → List Passage) (completed : Face → List (Int × Word × Word)) : Prop where
  logged : Logged c₀ (fun g => log g ++ news g) c'
  passed : ∀ g, passed g = (news g).flatMap Deed.passed
  completed : ∀ g, completed g = (news g).filterMap Deed.completed?
  agree : ∀ log' b, Logged c₀ log' b → (∀ g, Comparable (log g) (log' g)) →
    ∀ g, Comparable (log g ++ news g) (log' g)

theorem Grows.nothing (h : Logged c₀ log c') :
    Grows c₀ log (fun _ => []) c' (fun _ => []) (fun _ => []) where
  logged := by
    simp only [List.append_nil]
    exact h
  passed _ := rfl
  completed _ := rfl
  agree log' b _ hc g := by
    rw [List.append_nil]
    exact hc g

/-- A device that is no node leaves the pipes alone. -/
theorem stepFace_of_node?_eq_none {f : Face} (h : c.node? f = none) :
    ∃ c', stepFace f c = .ok () c' ∧ c'.pipes = c.pipes ∧ ∀ g, c'.node? g = c.node? g := by
  have hplace : ∀ d d' : Device, c.slots.get f = some d → Device.node? d' = none →
      Device.step (d, c.pipes.ports f) = .ok () (d', c.pipes.ports f) →
      ∃ c', stepFace f c = .ok () c' ∧ c'.pipes = c.pipes ∧ ∀ g, c'.node? g = c.node? g := by
    intro d d' hd hd' hs
    refine ⟨_, stepFace_of_some hd hs, Pipes.withPorts_ports _ _, fun g => ?_⟩
    simp only [node?, place, PerFace.get_set]
    split
    · rename_i e
      rw [e, ← node?, h]
      exact hd'
    · rfl
  cases hd : c.slots.get f with
  | none => exact ⟨c, stepFace_of_none hd, rfl, fun _ => rfl⟩
  | some d =>
    cases d with
    | node n => cases h.symm.trans (node?_eq_some.mpr hd)
    | meter m => exact hplace _ (.meter { m with steps := m.steps + 1 }) hd rfl rfl
    | ticker k => exact hplace _ (.ticker (k + 1)) hd rfl rfl

theorem Logged.congr (h : Logged c₀ log c) (hp : c'.pipes = c.pipes)
    (hn : ∀ g, c'.node? g = c.node? g) : Logged c₀ log c' where
  node f n hf := by
    rw [hn, hp]
    exact h.node f n hf
  other f hf := by
    rw [hn]
    exact h.other f hf
  pipe s := by
    rw [hp]
    exact h.pipe s
  honest s := by
    rw [hp]
    exact h.honest s

theorem Logged.stepPipes (h : Logged c₀ log c) : Logged c₀ log c.stepPipes where
  node f n hf := by
    obtain ⟨r, hr, ht, ho⟩ := h.node f n hf
    refine ⟨r, hr, ht, ho.of_le fun p hw => ?_⟩
    rw [Pipes.outgoing_ports, Casing.stepPipes, Pipes.pipe_mapPipes, Pipe.writing_step,
      Bool.and_eq_true] at hw
    rw [Pipes.outgoing_ports]
    exact hw.1
  other := h.other
  pipe s := by
    rw [Casing.stepPipes, Pipes.pipe_mapPipes, Pipe.waiting_step]
    exact h.pipe s
  honest s := by
    rw [Casing.stepPipes, Pipes.pipe_mapPipes]
    exact Pipe.honest_step _

/-- A turn of a node's face. -/
theorem Logged.grows_turn (h : Logged c₀ log c) (hp : c₀.Plain) {f : Face} {n : Node}
    (hn : c₀.node? f = some n) : ∃ c' deeds, stepFace f c = .ok () c' ∧
      Grows c₀ log (newsAt f deeds) c' (fun g => c.during Node.passages g (.turn f))
        (fun g => c.during Node.completed g (.turn f)) := by
  obtain ⟨hrun, hsound, hany⟩ := hp f n hn
  obtain ⟨r, hr, ht, ho⟩ := h.node f n hn
  obtain ⟨s, deeds, hs⟩ := Node.turn (n := n.withRegisters r) hrun hsound hany ho
  have hpass : (n.withRegisters r).passages (c.pipes.ports f) = deeds.flatMap Deed.passed :=
    (Node.passages_of_step (n := n.withRegisters r) hrun hs.step).trans hs.passed
  refine ⟨_, deeds, stepFace_of_some (node?_eq_some.mp hr) (Device.step_running hrun hs.step), ?_⟩
  refine ⟨h.turn (n := n) hn ht ho hs, fun g => ?_, fun g => ?_, fun log' b hb hc g => ?_⟩
  · by_cases e : g = f
    · subst e
      simp only [during, newsAt, if_pos, hr, Option.elim_some, hpass]
    · simp only [during, newsAt, if_neg e, if_neg (Ne.symm e), List.flatMap_nil]
  · by_cases e : g = f
    · subst e
      simp only [during, newsAt, if_pos, hr, Option.elim_some, hs.completed]
    · simp only [during, newsAt, if_neg e, if_neg (Ne.symm e), List.filterMap_nil]
  · by_cases e : g = f
    · subst e
      rw [newsAt, if_pos rfl]
      obtain ⟨rfl, -⟩ | ⟨d, rfl, -, hd⟩ := hs.does
      · rw [List.append_nil]
        exact hc g
      · refine h.agree hb hp hc hn ht hd fun p x hx => ?_
        have hdrawn := hs.drawn p
        rw [Deed.tookIn, List.flatMap_singleton, hd.took_eq hx, Pipes.incoming_ports] at hdrawn
        exact hdrawn.waiting_eq
    · rw [newsAt, if_neg e, List.append_nil]
      exact hc g

/-- One event. -/
theorem Logged.occur (h : Logged c₀ log c) (hp : c₀.Plain) (e : Event) :
    ∃ c' news, occur e c = .ok () c' ∧ Grows c₀ log news c' (fun g => c.during Node.passages g e)
      (fun g => c.during Node.completed g e) := by
  cases e with
  | publish => exact ⟨_, _, rfl, .nothing h.stepPipes⟩
  | turn f =>
    cases hn : c₀.node? f with
    | some n =>
      obtain ⟨c', deeds, hc, hg⟩ := h.grows_turn hp hn
      exact ⟨c', _, hc, hg⟩
    | none =>
      have hf := (h.other f hn).1
      obtain ⟨c', hc, hpipes, hnodes⟩ := stepFace_of_node?_eq_none hf
      have hnone : ∀ {α : Type} (view : Node → Ports → List α) (g : Face),
          c.during view g (.turn f) = [] := by
        intro α view g
        simp only [during]
        split
        · rename_i e
          rw [← e, hf]
          rfl
        · rfl
      refine ⟨c', fun _ => [], hc, ?_⟩
      simp only [hnone]
      exact .nothing (h.congr hpipes hnodes)

/-! ## Schedules -/

/-- A whole schedule. -/
theorem Logged.follow (h : Logged c₀ log c) (hp : c₀.Plain) (schedule : List Event) :
    ∃ c' news, follow schedule c = .ok () c' ∧ Grows c₀ log news c'
      (fun g => tally Node.passages g c schedule) (fun g => tally Node.completed g c schedule) := by
  induction schedule generalizing c log with
  | nil => exact ⟨c, _, rfl, .nothing h⟩
  | cons e schedule ih =>
    obtain ⟨c₁, news₁, hc₁, hg₁⟩ := h.occur hp e
    obtain ⟨c₂, news₂, hc₂, hg₂⟩ := ih hg₁.logged
    refine ⟨c₂, fun g => news₁ g ++ news₂ g, (Outcome.bind_ok hc₁).trans hc₂, ?_⟩
    have hstate : Outcome.state (Casing.occur e c) = c₁ := by rw [hc₁]; rfl
    refine ⟨?_, fun g => ?_, fun g => ?_, fun log' b hb hc g => ?_⟩
    · simpa only [List.append_assoc] using hg₂.logged
    · rw [tally, hstate, List.flatMap_append, ← hg₁.passed, ← hg₂.passed]
    · rw [tally, hstate, List.filterMap_append, ← hg₁.completed, ← hg₂.completed]
    · rw [← List.append_assoc]
      exact hg₂.agree log' b hb (hg₁.agree log' b hb hc) g

theorem Fresh.plain (h : c.Fresh)
    (hn : ∀ f n, c.node? f = some n → n.machine.program.NamesNoAny) : c.Plain := by
  intro f n hf
  have ho := h.steady.orderly.orderly_node (node?_eq_some.mp hf)
  exact ⟨ho.running, ho.safe.compiled.sound, hn f n hf⟩

end Casing

/-- In a casing that was just enabled and in which no program names `ANY`, no schedule faults. Of
any two schedules, one gets at least as far as the other at each pipe and at each node; as far as
both get, the same words are taken and the same registers come of it. -/
theorem Rig.schedules_comparable (stand : Stand) (acts : List Act)
    (hoff : ((new stand).run acts).casing.enabled = false)
    (hany : ∀ f n, ((new stand).run acts).casing.enable.node? f = some n →
      n.machine.program.NamesNoAny)
    (schedule schedule' : List Casing.Event) :
    let c := ((new stand).run acts).casing.enable
    (∃ a, Casing.follow schedule c = .ok () a) ∧ (∃ b, Casing.follow schedule' c = .ok () b) ∧
      (∀ s, c.returnedBy schedule s <+: c.returnedBy schedule' s ∨
        c.returnedBy schedule' s <+: c.returnedBy schedule s) ∧
      ∀ f, c.completions schedule f <+: c.completions schedule' f ∨
        c.completions schedule' f <+: c.completions schedule f := by
  intro c
  have h : c.Fresh := fresh_run stand acts hoff
  have hp : c.Plain := h.plain hany
  obtain ⟨a, news, ha, hg⟩ := h.logged.follow hp schedule
  obtain ⟨b, news', hb, hg'⟩ := h.logged.follow hp schedule'
  -- with the second schedule finished, the first one starts from nothing
  have hc : ∀ g, Comparable (news g) (news' g) :=
    hg.agree _ b hg'.logged fun _ => .inl List.nil_prefix
  refine ⟨⟨a, ha⟩, ⟨b, hb⟩, fun s => ?_, fun f => ?_⟩
  · rw [Casing.returnedBy, Casing.returnedBy, hg.passed, hg'.passed]
    exact ((hc s.face).flatMap _).filterMap _
  · rw [Casing.completions, Casing.completions, hg.completed, hg'.completed]
    exact (hc f).filterMap _

/-- The reader is fast in one schedule and has its first turn late in the other. -/
theorem Rig.schedules_comparable_late :
    let acts : List Act :=
      [.make ⟨⟨.first, .zNeg⟩, .node, ascii "MOV 1, RIGHT\nMOV 2, RIGHT"⟩,
        .make ⟨⟨.first, .xNeg⟩, .node, ascii "ADD LEFT"⟩,
        .install .zNeg 0, .install .xNeg 0]
    let c := ((Rig.new .first).run acts).casing.enable
    let fast : List Casing.Event := [.turn .xNeg, .turn .zNeg, .publish, .turn .xNeg, .turn .xNeg,
      .publish, .turn .zNeg, .turn .zNeg, .turn .xNeg, .publish, .turn .xNeg]
    let late : List Casing.Event := [.turn .zNeg, .turn .zNeg, .publish, .turn .xNeg, .publish,
      .turn .xNeg, .publish, .turn .zNeg]
    c.returnedBy fast ⟨.xNeg, .left⟩ = [1, 2] ∧ c.returnedBy late ⟨.xNeg, .left⟩ = [1] ∧
      c.completions fast .xNeg = [(0, 1, 0), (0, 3, 0)] ∧
      (c.completions late .xNeg <+: c.completions fast .xNeg ∨
        c.completions fast .xNeg <+: c.completions late .xNeg) := by
  intro acts c fast late
  have hany : Face.all.all (fun f => (c.node? f).all fun n =>
      n.machine.program.NamesNoAny) = true := by decide +kernel
  refine ⟨by decide +kernel, by decide +kernel, by decide +kernel, ?_⟩
  refine (Rig.schedules_comparable .first acts (by decide +kernel) (fun f n hn => ?_) late fast).2.2.2
    .xNeg
  have hf := List.all_eq_true.mp hany f (Face.mem_all f)
  exact of_decide_eq_true ((Option.all_eq_true _ _).mp hf n hn)

end NodeCube
