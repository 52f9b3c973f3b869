import NodeCube.Proofs.Casing.Conservation
import NodeCube.Proofs.Casing.Requests

/-!
# A word is handed over once

A `MOV` to a pipe is executed anew in every tick until its word was taken, and its progress is in
the registers and the pipe only. `Casing.Stage` says how far it has come: it waits for its operand,
it holds the operand, or it has handed it over. From that, `Rig.delivered_once` says that when it is
done it has read its source once, handed over that word once, and the neighbour has taken it.
-/

namespace NodeCube

theorem Passage.filedAt?_eq (p : Port) (w : Passage) :
    filedAt? p w = w.filed?.bind fun x => if x.1 = p then some x.2 else none := by
  cases w <;> rfl

/-- The words that a pipe accepted, among those that all pipes did. -/
theorem Passage.filterMap_filedAt? (p : Port) (l : List Passage) : l.filterMap (filedAt? p) =
    (l.filterMap filed?).filterMap fun x => if x.1 = p then some x.2 else none := by
  rw [List.filterMap_filterMap]
  exact congrArg (List.filterMap · l) (funext (filedAt?_eq p))

/-- A node that need not wait has no word under way. -/
theorem Program.Fits.writeInFlight_of_not_stalled {program : Program} {r : Registers}
    (h : program.Fits r) (hs : r.stalled = false) : r.writeInFlight = false := by
  cases hf : r.writeInFlight with
  | false => rfl
  | true =>
    rw [(h.flight hf).1] at hs
    cases hs

/-- A node that has to wait stays at its instruction. -/
theorem Program.Turned.pc_of_stalled {program : Program} {s s' : Site} (h : program.Turned s s')
    (hs : s'.registers.stalled = true) : s'.registers.pc = s.registers.pc := by
  cases h with
  | rests | listens | expects => rfl
  | completes =>
    rw [Site.registers_setRegisters, done_eq] at hs
    cases hs
  | finishes => cases hs
  | keeps _ _ _ _ hd => exact (Site.pc_hold _ _ _).trans hd.pc
  | files _ _ _ _ hd => exact (Site.pc_file _ _ _ _).trans hd.pc
  | commits => rfl

namespace Casing

variable {c : Casing} {f : Face} {n : Node} {k : Nat}

theorem Steady.turn_after (h : c.Steady) (hn : (c.after k).slots.get f = some (.node n)) :
    ∃ s, n.machine.program.Turned (n.site ((c.after k).pipes.ports f)) s ∧
      (c.after k).passages f = s.passed ∧
      (c.after (k + 1)).slots.get f = some (.node (n.withRegisters s.registers)) := by
  obtain ⟨s, ht, hp, -, hs⟩ := (h.after k).turn hn
  rw [← h.after_succ] at hs
  exact ⟨s, ht, hp, hs⟩

theorem Steady.node_before (h : c.Steady) (hn : (c.after (k + 1)).slots.get f = some (.node n)) :
    ∃ n₀, (c.after k).slots.get f = some (.node n₀) := by
  rw [h.after_succ] at hn
  simp only [stepPipes, merged, PerFace.get_ofFn, slotAfter] at hn
  obtain ⟨d, hd, hn⟩ := Option.map_eq_some_iff.mp hn
  cases d with
  | node n₀ => exact ⟨n₀, hd⟩
  | meter | ticker => cases hn

/-! ## A word on its way -/

/-- A pipe accepted the word `v` in tick `m` and no other before tick `k`, where it is still there
or was taken in some tick between. -/
structure Carries (c : Casing) (s : Socket) (v : Word) (m k : Nat) : Prop where
  accepted : c.accepted s k = c.accepted s (m + 1)
  pending : ((c.after k).pipes.pipe s).pending = [v] ∨
    ((c.after k).pipes.pipe s).writing = false ∧ ∃ j, m < j ∧ j < k ∧
      .took s.port v ∈ (c.after j).passages s.face ∧ c.returned s (j + 1) = c.accepted s (m + 1)

theorem passage_of_filterMap {α : Type} {g : Passage → Option α} {x : α} {l : List Passage}
    (h : l.filterMap g = [x]) : ∃ w ∈ l, g w = some x :=
  List.mem_filterMap.mp (h ▸ List.mem_singleton_self x)

theorem took_mem {p : Port} {v : Word} {l : List Passage}
    (h : l.filterMap (Passage.tookAt? p) = [v]) : .took p v ∈ l := by
  obtain ⟨w, hw, hv⟩ := passage_of_filterMap h
  cases w with
  | took q x =>
    simp only [Passage.tookAt?, Option.ite_none_right_eq_some, Option.some.injEq] at hv
    rwa [← hv.1, ← hv.2]
  | read | filed => cases hv

theorem filed_mem {p : Port} {v : Word} {l : List Passage}
    (h : l.filterMap Passage.filed? = [(p, v)]) : .filed p v ∈ l := by
  obtain ⟨w, hw, hv⟩ := passage_of_filterMap h
  cases w with
  | filed q x =>
    cases hv
    exact hw
  | read | took => cases hv

namespace Carries

variable {s : Socket} {v : Word} {m : Nat}

/-- The pipe carries a word once it has accepted it. -/
theorem start (h : c.Steady)
    (hv : ((c.after m).passages s.opposite.face).filterMap (Passage.filedAt? s.opposite.port) =
      [v]) : c.Carries s v m (m + 1) := by
  refine ⟨rfl, .inl ?_⟩
  have ht := h.ticked_after s m
  rw [hv] at ht
  generalize ((c.after m).passages s.face).filterMap (Passage.tookAt? s.port) = l at ht
  cases ht with
  | accepts _ hb hv => simp [Pipe.pending, hb, hv]

/-- It carries the word on while it accepts no other one. -/
theorem step (h : c.Fresh) (hc : c.Carries s v m k) (hmk : m < k)
    (hv : ((c.after k).passages s.opposite.face).filterMap (Passage.filedAt? s.opposite.port) =
      []) : c.Carries s v m (k + 1) := by
  have hacc : c.accepted s (k + 1) = c.accepted s (m + 1) := by
    rw [accepted_succ, hv, List.append_nil, hc.accepted]
  refine ⟨hacc, ?_⟩
  have ht := h.steady.ticked_after s k
  rw [hv] at ht
  generalize hl : ((c.after k).passages s.face).filterMap (Passage.tookAt? s.port) = l at ht
  cases ht with
  | nothing hw hval =>
    rcases hc.pending with hp | ⟨hw', j, hmj, hjk, hj⟩
    · refine .inl (Eq.trans ?_ hp)
      simp only [Pipe.pending, hw, hval]
    · exact .inr ⟨hw.trans hw', j, hmj, Nat.lt_succ_of_lt hjk, hj⟩
  | returns ha hb =>
    rcases hc.pending with hp | ⟨hw, -⟩
    · simp only [Pipe.pending, ha, if_true, List.cons.injEq, and_true] at hp
      rw [hp] at hl
      refine .inr ⟨hb, k, hmk, Nat.lt_succ_self k, took_mem hl, ?_⟩
      rw [← hacc, h.steady.accepted_eq (h.empty s), Pipe.pending, hb]
      exact (List.append_nil _).symm
    · rw [ha] at hw
      cases hw

end Carries

/-! ## The stages of a `MOV` -/

/-- The node on a face began to execute `i` in tick `a`, and has waited in it ever since up to
tick `b`. -/
structure Executes (c : Casing) (f : Face) (i : Instruction) (a b : Nat) : Prop where
  le : a ≤ b
  begins : ∃ n, (c.after a).slots.get f = some (.node n) ∧ n.instruction? = some i ∧
    n.machine.registers.stalled = false
  waits : ∀ k, a < k → k ≤ b → ∃ n, (c.after k).slots.get f = some (.node n) ∧
    n.instruction? = some i ∧ n.machine.registers.stalled = true

/-- The reads of an instruction whose operand is `v`. -/
structure Drew (i : Instruction) (v : Word) (l : List Passage) : Prop where
  reads : l.filterMap Passage.read? = Site.operand i v
  value : i.op.readsSource = false → v = i.value

/-- How far a `MOV` to a pipe has come between ticks `a` and `k`, with the registers `r` now. -/
inductive Stage (c : Casing) (f : Face) (i : Instruction) (a k : Nat) (r : Registers) : Prop
  /-- It waits for its operand. -/
  | fetching (hf : r.writeInFlight = false)
    (hr : (c.history f a k).filterMap Passage.read? = [])
    (hw : (c.history f a k).filterMap Passage.filed? = [])
  /-- It has its operand, but `ANY` found nobody or `LAST` has no port. -/
  | holding {v : Word} (hf : r.writeInFlight = true)
    (hv : r.anyWrite = some v ∨ i.destination = .last ∧ r.last = none)
    (hd : Drew i v (c.history f a k)) (hw : (c.history f a k).filterMap Passage.filed? = [])
  /-- It has handed its operand over. -/
  | handed {v : Word} {p : Port} {m : Nat} (hf : r.writeInFlight = true) (hv : r.anyWrite = none)
    (hp : i.destination.resolves r.last p = true) (hd : Drew i v (c.history f a k))
    (hw : (c.history f a k).filterMap Passage.filed? = [(p, v)]) (ham : a ≤ m) (hmk : m < k)
    (hm : .filed p v ∈ (c.after m).passages f)
    (hc : c.Carries (Socket.opposite ⟨f, p⟩) v m k)

/-- What a tick adds to the words that passed since tick `a`. -/
theorem filterMap_history {α : Type} (g : Passage → Option α) {a : Nat} (hak : a ≤ k) :
    (c.history f a (k + 1)).filterMap g =
      (c.history f a k).filterMap g ++ ((c.after k).passages f).filterMap g := by
  rw [history_succ c f hak, List.filterMap_append]

namespace Stage

variable {a : Nat} {i : Instruction} {r r' : Registers} {v : Word} {p : Port}

/-- A tick in which nothing passes and the `MOV` waits for the same as before. -/
theorem rest (h : c.Fresh) (hak : a ≤ k) (hst : c.Stage f i a k r)
    (hp : (c.after k).passages f = []) (hf : r'.writeInFlight = r.writeInFlight)
    (hv : r'.anyWrite = r.anyWrite) (hl : r'.last = r.last) : c.Stage f i a (k + 1) r' := by
  have hh : c.history f a (k + 1) = c.history f a k := by
    rw [history_succ c f hak, hp, List.append_nil]
  cases hst with
  | fetching hf' hr hw => exact .fetching (hf.trans hf') (hh ▸ hr) (hh ▸ hw)
  | holding hf' hv' hd hw =>
    rw [← hv, ← hl] at hv'
    exact .holding (hf.trans hf') hv' (hh ▸ hd) (hh ▸ hw)
  | handed hf' hv' hp' hd hw ham hmk hm hc =>
    refine .handed (hf.trans hf') (hv.trans hv') (hl ▸ hp') (hh ▸ hd) (hh ▸ hw) ham
      (Nat.lt_succ_of_lt hmk) hm (hc.step h hmk ?_)
    rw [Socket.opposite_opposite, hp]
    rfl

/-- Before a `MOV` has its operand, no word passes. -/
theorem fetched (hst : c.Stage f i a k r) (hf : r.writeInFlight = false) :
    (c.history f a k).filterMap Passage.read? = [] ∧
      (c.history f a k).filterMap Passage.filed? = [] := by
  cases hst with
  | fetching _ hr hw => exact ⟨hr, hw⟩
  | holding hf' => rw [hf] at hf'; cases hf'
  | handed hf' => rw [hf] at hf'; cases hf'

/-- The word that `ANY` holds is the operand of the `MOV`. -/
theorem held (hst : c.Stage f i a k r) (hf : r.writeInFlight = true) (ht : i.destination = .any)
    (hv : r.anyWrite = some v) : Drew i v (c.history f a k) ∧
      (c.history f a k).filterMap Passage.filed? = [] := by
  cases hst with
  | fetching hf' => rw [hf] at hf'; cases hf'
  | holding _ hv' hd hw =>
    rcases hv' with hv' | ⟨ht', -⟩
    · cases hv.symm.trans hv'
      exact ⟨hd, hw⟩
    · cases ht.symm.trans ht'
  | handed _ hv' => cases hv.symm.trans hv'

/-- A tick in which the `MOV` gets its operand. -/
theorem drew {s₁ : Site} {ports : Ports} (hak : a ≤ k) (hst : c.Stage f i a k r)
    (hf : r.writeInFlight = false) (hd : (n.site ports).Draws i v s₁)
    (hp : ((c.after k).passages f).filterMap Passage.read? = s₁.passed.filterMap Passage.read?) :
    Drew i v (c.history f a (k + 1)) where
  reads := by
    rw [filterMap_history _ hak, (hst.fetched hf).1, hp, hd.reads_eq]
    rfl
  value := hd.value_of_literal

/-- A tick in which the `MOV` gets its operand and keeps it. -/
theorem keep {s₁ : Site} {ports : Ports} (hak : a ≤ k) (hst : c.Stage f i a k r)
    (hf : r.writeInFlight = false) (hr : i.destination.remote = true)
    (hd : (n.site ports).Draws i v s₁) (ha : s₁.addressee? i.destination = none)
    (hp : (c.after k).passages f = s₁.passed) :
    c.Stage f i a (k + 1) (s₁.hold i.destination v).expect.registers := by
  refine .holding rfl ?_ (hst.drew hak hf hd (by rw [hp])) ?_
  · simp only [Site.expect, Site.registers_setRegisters, Site.registers_hold]
    cases ht : i.destination with
    | acc | bak | nil => rw [ht] at hr; cases hr
    | port q => rw [ht] at ha; cases ha
    | any => exact .inl rfl
    | last =>
      rw [ht] at ha
      exact .inr ⟨rfl, ha⟩
  · rw [filterMap_history _ hak, (hst.fetched hf).2, hp, hd.filed_eq]
    rfl

/-- A tick in which the `MOV` hands its word over. -/
theorem hand (h : c.Fresh) (hak : a ≤ k) (hf : r.writeInFlight = true) (hv : r.anyWrite = none)
    (hp : i.destination.resolves r.last p = true) (hd : Drew i v (c.history f a (k + 1)))
    (hw : (c.history f a k).filterMap Passage.filed? = [])
    (hk : ((c.after k).passages f).filterMap Passage.filed? = [(p, v)]) :
    c.Stage f i a (k + 1) r := by
  refine .handed hf hv hp hd ?_ hak (Nat.lt_succ_self k) (filed_mem hk) (.start h.steady ?_)
  · rw [filterMap_history _ hak, hw, hk]
    rfl
  · rw [Socket.opposite_opposite, Passage.filterMap_filedAt?, hk]
    simp

/-- A tick in which the `MOV` has to wait. -/
theorem step {s : Site} {ports : Ports} (h : c.Fresh) (hak : a ≤ k)
    (hst : c.Stage f i a k n.machine.registers)
    (hfits : n.machine.program.Fits n.machine.registers)
    (hi : n.machine.program.current? n.machine.registers = some i)
    (ht : n.machine.program.Turned (n.site ports) s) (hp : (c.after k).passages f = s.passed)
    (hs : s.registers.stalled = true) : c.Stage f i a (k + 1) s.registers := by
  cases ht with
  | rests h => cases hi.symm.trans h
  | listens => exact hst.rest h hak hp rfl rfl rfl
  | expects _ hf => exact hst.rest h hak hp hf.symm rfl rfl
  | completes =>
    rw [Site.registers_setRegisters, Program.done_eq] at hs
    cases hs
  | finishes => cases hs
  | keeps hi' hf _ hr hd ha =>
    cases hi.symm.trans hi'
    exact hst.keep hak hf hr hd ha (by rw [hp, Site.passed_expect, Site.passed_hold])
  | @files _ _ v s₁ p hi' hf _ _ hd ha =>
    cases hi.symm.trans hi'
    have hpass : (c.after k).passages f = s₁.passed ++ [.filed p v] := hp
    obtain ⟨hnone, hres⟩ := Site.hands_file v (hfits.handed hf hd ha)
    refine .hand h hak rfl hnone hres (hst.drew hak hf hd ?_) (hst.fetched hf).2 ?_
    · rw [hpass, List.filterMap_append]
      exact List.append_nil _
    · rw [hpass, List.filterMap_append, hd.filed_eq]
      rfl
  | @commits _ _ v p hi' hf _ ht hv =>
    cases hi.symm.trans hi'
    have hpass : (c.after k).passages f = [.filed p v] := hp
    obtain ⟨hd, hw⟩ := hst.held hf ht hv
    refine .hand (p := p) h hak rfl rfl ?_ ⟨?_, hd.value⟩ hw ?_
    · rw [ht]
      exact beq_self_eq_true _
    · rw [filterMap_history _ hak, hd.reads, hpass]
      exact List.append_nil _
    · rw [hpass]
      rfl

/-- When the `MOV` goes on, it has handed its word over and the word was taken. -/
theorem done {s : Site} (hak : a ≤ k) (hst : c.Stage f i a k n.machine.registers)
    (hi : n.machine.program.current? n.machine.registers = some i)
    (hr : i.destination.remote = true) (hmove : ∃ mode, i.op = .move mode)
    (ht : n.machine.program.Turned (n.site ((c.after k).pipes.ports f)) s)
    (hp : (c.after k).passages f = s.passed) (hs : s.registers.stalled = false) :
    s.registers.pc = Execution.wrapPc n.machine.program.instructions.length
        (n.machine.registers.pc + 1) ∧
      ∃ v p m j, i.destination.resolves n.machine.registers.last p = true ∧
        Drew i v (c.history f a (k + 1)) ∧
        (c.history f a (k + 1)).filterMap Passage.filed? = [(p, v)] ∧
        a ≤ m ∧ m < j ∧ j < k ∧ .filed p v ∈ (c.after m).passages f ∧
        let other := Socket.opposite ⟨f, p⟩
        .took other.port v ∈ (c.after j).passages other.face ∧
          c.returned other (j + 1) = c.accepted other (m + 1) := by
  cases ht with
  | rests h => cases hi.symm.trans h
  | listens | keeps | files | expects | commits => cases hs
  | completes hi' _ hm =>
    cases hi.symm.trans hi'
    obtain ⟨mode, hmode⟩ := hmove
    rw [hm mode hmode] at hr
    cases hr
  | @finishes _ _ q hi' hf _ hv ht hw =>
    cases hi.symm.trans hi'
    refine ⟨rfl, ?_⟩
    have hh : c.history f a (k + 1) = c.history f a k := by
      rw [history_succ c f hak, hp]
      exact List.append_nil _
    cases hst with
    | fetching hf' => cases hf.symm.trans hf'
    | holding _ hv' =>
      rcases hv' with hv' | ⟨hd, hl⟩
      · cases hv.symm.trans hv'
      · rw [hd] at ht
        cases hl.symm.trans (beq_iff_eq.mp ht)
    | @handed v p m _ _ hp' hd hw' ham _ hm hc =>
      cases Target.resolves_unique ht hp'
      rw [Node.outgoing_site, Pipes.outgoing_ports] at hw
      rcases hc.pending with hpend | ⟨-, j, hmj, hjk, htook, hret⟩
      · simp [Pipe.pending, hw] at hpend
      · exact ⟨v, q, m, j, ht, hh ▸ hd, hh ▸ hw', ham, hmj, hjk, hm, htook, hret⟩

end Stage

/-- The instruction at the program counter of a node was begun in some tick and has come to some
stage. -/
theorem Fresh.stage (h : c.Fresh) {i : Instruction}
    (hn : (c.after k).slots.get f = some (.node n)) (hi : n.instruction? = some i) :
    ∃ a, c.Executes f i a k ∧ c.Stage f i a k n.machine.registers := by
  have hstart : ∀ k n, (c.after k).slots.get f = some (.node n) → n.instruction? = some i →
      n.machine.registers.stalled = false →
      ∃ a, c.Executes f i a k ∧ c.Stage f i a k n.machine.registers := by
    intro k n hn hi hs
    have hfits := ((h.steady.after k).orderly.orderly_node hn).safe.owns.fits
    refine ⟨k, ⟨Nat.le_refl k, ⟨n, hn, hi, hs⟩, fun j hj hj' => by omega⟩,
      .fetching (hfits.writeInFlight_of_not_stalled hs) ?_ ?_⟩
    · rw [history_self]; rfl
    · rw [history_self]; rfl
  -- a node that had to wait is still in the instruction of the tick before, so its stage carries
  -- over; one that had not begins its instruction now
  induction k generalizing n with
  | zero => exact hstart 0 n hn hi (h.clear f n hn).stalled
  | succ k ih =>
    obtain ⟨n₀, hn₀⟩ := h.steady.node_before hn
    obtain ⟨s, ht, hp, hn'⟩ := h.steady.turn_after hn₀
    cases hn.symm.trans hn'
    cases hs : s.registers.stalled with
    | false => exact hstart (k + 1) _ hn hi hs
    | true =>
      have hi₀ : n₀.instruction? = some i := by
        rw [← hi]
        simp only [Node.instruction?, Node.withRegisters, ht.pc_of_stalled hs]
        rfl
      obtain ⟨a, he, hst⟩ := ih hn₀ hi₀
      have hfits := ((h.steady.after k).orderly.orderly_node hn₀).safe.owns.fits
      rw [Node.instruction?_eq hfits.pc] at hi₀
      refine ⟨a, ⟨Nat.le_succ_of_le he.le, he.begins, fun j haj hjk => ?_⟩,
        hst.step h he.le hfits hi₀ ht hp hs⟩
      rcases Nat.le_succ_iff.mp hjk with hjk | rfl
      · exact he.waits j haj hjk
      · exact ⟨_, hn, hi, hs⟩

end Casing

/-- In a casing that is enabled after whatever was done to it, and stepped any number of times:
each pipe returns the words that it accepted, in their order, with at most one still to be taken.
And a `MOV` to a pipe that the node leaves in tick `b`, or is done with, has read its source once
since it began in tick `a`, or got its operand from the instruction, and has handed this word `v`
over once, in tick `m`; the node at the other end of the pipe took just this word in tick `j`. -/
theorem Rig.delivered_once (stand : Stand) (acts : List Act)
    (hoff : ((Rig.new stand).run acts).casing.enabled = false) :
    let c := ((Rig.new stand).run acts).casing.enable
    (∀ k, Casing.step (c.after k) = .ok () (c.after (k + 1))) ∧
    (∀ s k, c.accepted s k = c.returned s k ++ ((c.after k).pipes.pipe s).pending) ∧
    ∀ f b n n' i mode, (c.after b).slots.get f = some (.node n) → n.instruction? = some i →
      i.op = .move mode → i.destination.remote = true →
      (c.after (b + 1)).slots.get f = some (.node n') →
      n'.machine.registers.pc ≠ n.machine.registers.pc ∨ n'.machine.registers.stalled = false →
      n'.machine.registers.pc = Execution.wrapPc n.machine.program.instructions.length
        (n.machine.registers.pc + 1) ∧
      ∃ a v p m j, c.Executes f i a b ∧ a ≤ m ∧ m < j ∧ j < b ∧
        (i.destination = .port p ∨
          (i.destination = .any ∨ i.destination = .last) ∧ n.machine.registers.last = some p) ∧
        (c.history f a (b + 1)).filterMap Passage.read? =
          (if mode = .target then [(i.source, v)] else []) ∧
        (mode = .immediate → v = i.value) ∧
        (c.history f a (b + 1)).filterMap Passage.filed? = [(p, v)] ∧
        .filed p v ∈ (c.after m).passages f ∧
        let other := Socket.opposite ⟨f, p⟩
        .took other.port v ∈ (c.after j).passages other.face ∧
          c.returned other (j + 1) = c.accepted other (m + 1) := by
  intro c
  have h : c.Fresh := fresh_run stand acts hoff
  refine ⟨h.steady.step_after, fun s => h.steady.accepted_eq (h.empty s), ?_⟩
  intro f b n n' i mode hn hi hm hr hn' hleft
  obtain ⟨a, he, hst⟩ := h.stage hn hi
  obtain ⟨s, ht, hp, hnext⟩ := h.steady.turn_after hn
  cases hn'.symm.trans hnext
  have hs : s.registers.stalled = false := by
    rcases hleft with hpc | hs
    · exact Bool.eq_false_iff.mpr fun hs => hpc (ht.pc_of_stalled hs)
    · exact hs
  have hfits := ((h.steady.after b).orderly.orderly_node hn).safe.owns.fits
  rw [Node.instruction?_eq hfits.pc] at hi
  obtain ⟨hpc, v, p, m, j, hres, hd, hw, ham, hmj, hjb, hfiled, htook⟩ :=
    hst.done he.le hi hr ⟨mode, hm⟩ ht hp hs
  refine ⟨hpc, a, v, p, m, j, he, ham, hmj, hjb, Target.resolves_iff.mp hres, ?_, ?_, hw, hfiled,
    htook⟩
  · rw [hd.reads, Site.operand, hm]
    cases mode <;> rfl
  · rintro rfl
    exact hd.value (by rw [hm]; rfl)

/-- A node that gets a word from `ANY` and gives it back to `LAST`, the port that it came from. -/
theorem Rig.delivered_once_relay :
    let acts : List Act :=
      [.make ⟨⟨.first, .zNeg⟩, .node, ascii "MOV 5, RIGHT\nMOV RIGHT, ACC"⟩,
        .make ⟨⟨.first, .xNeg⟩, .node, ascii "MOV ANY, LAST"⟩,
        .install .zNeg 0, .install .xNeg 0]
    let c := ((Rig.new .first).run acts).casing.enable
    ∃ n n' i, (c.after 5).slots.get .xNeg = some (.node n) ∧ n.instruction? = some i ∧
      i.op = .move .target ∧ i.source = .any ∧ i.destination = .last ∧
      (c.after 6).slots.get .xNeg = some (.node n') ∧ n'.machine.registers.stalled = false ∧
      ∃ a v p m j, c.Executes .xNeg i a 5 ∧ a ≤ m ∧ m < j ∧ j < 5 ∧
        (c.history .xNeg a 6).filterMap Passage.read? = [(.any, v)] ∧
        (c.history .xNeg a 6).filterMap Passage.filed? = [(p, v)] := by
  intro acts c
  have hbefore : ((c.after 5).node? .xNeg).any (fun n => n.instruction?.any fun i =>
      i.op == .move .target && i.source == .any && i.destination == .last) = true := by
    decide +kernel
  have hafter : ((c.after 6).node? .xNeg).any (fun n => !n.machine.registers.stalled) = true := by
    decide +kernel
  obtain ⟨n, hn, hbefore⟩ := (Option.any_eq_true _ _).mp hbefore
  obtain ⟨i, hi, hbefore⟩ := (Option.any_eq_true _ _).mp hbefore
  obtain ⟨n', hn', hafter⟩ := (Option.any_eq_true _ _).mp hafter
  simp only [Bool.and_eq_true, beq_iff_eq, Bool.not_eq_true'] at hbefore hafter
  obtain ⟨⟨hop, hsrc⟩, hdest⟩ := hbefore
  rw [Casing.node?_eq_some] at hn hn'
  obtain ⟨-, a, v, p, m, j, he, ham, hmj, hjb, -, hr, -, hw, -⟩ :=
    (Rig.delivered_once .first acts (by decide +kernel)).2.2 .xNeg 5 n n' i .target hn hi hop
      (by rw [hdest]; rfl) hn' (.inr hafter)
  rw [if_pos rfl, hsrc] at hr
  exact ⟨n, n', i, hn, hi, hop, hsrc, hdest, hn', hafter, a, v, p, m, j, he, ham, hmj, hjb, hr, hw⟩

end NodeCube
