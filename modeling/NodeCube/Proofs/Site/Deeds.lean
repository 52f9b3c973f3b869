import NodeCube.Proofs.Site.Passages

/-!
# What a node does, whenever it does it

A turn of a node whose program never names `ANY` is of one of two kinds. In some it has to wait and
only notes that; in all others it does something (`Program.Turned.does`). What it does next, a
deed, is told by its registers but for the word that it may take from a pipe
(`Program.Does.unique`), so it does not matter in how many turns it had to wait before.
-/

namespace NodeCube

/-- The registers, but for whether the node waits. -/
def Registers.core (r : Registers) : Registers := { r with stalled := false }

/-- What a node did in a turn: the words that passed, and the registers after it. -/
structure Deed where
  passed : List Passage
  registers : Registers

/-- The program counter, accumulator and backup after a deed that completed an instruction; one
that only handed a word over did not. -/
def Deed.completed? (d : Deed) : Option (Int × Word × Word) :=
  if d.registers.writeInFlight then none
  else some (d.registers.pc, d.registers.acc, d.registers.bak)

namespace Deed

/-- The words that some deeds take from the pipe at a port. -/
def tookIn (p : Port) (log : List Deed) : List Word :=
  (log.flatMap passed).filterMap (Passage.tookAt? p)

/-- The words that some deeds hand to the pipe at a port. -/
def filedIn (p : Port) (log : List Deed) : List Word :=
  (log.flatMap passed).filterMap (Passage.filedAt? p)

@[simp] theorem tookIn_append (p : Port) (log log' : List Deed) :
    tookIn p (log ++ log') = tookIn p log ++ tookIn p log' := by simp [tookIn]

@[simp] theorem filedIn_append (p : Port) (log log' : List Deed) :
    filedIn p (log ++ log') = filedIn p log ++ filedIn p log' := by simp [filedIn]

end Deed

/-- How an instruction comes by its operand, seen from the registers, and what passes then. -/
inductive Instruction.Gets (i : Instruction) (r : Registers) : Word → List Passage → Prop
  | literal (h : i.op.readsSource = false) : Gets i r i.value []
  | instant {v : Word} (h : i.op.readsSource = true) (hv : i.source.instant? r = some v) :
    Gets i r v [.read i.source v]
  | taken {p : Port} {v : Word} (h : i.op.readsSource = true)
    (hp : i.source.hears r.last p = true) : Gets i r v [.took p v, .read i.source v]

/-- What passes when a word is handed to a target; `LAST` may have no port. -/
def Target.filings (last : Option Port) (v : Word) : Target → List Passage
  | .port p => [.filed p v]
  | .last => last.toList.map fun p => .filed p v
  | .acc | .bak | .nil | .any => []

theorem Target.tookAt?_of_mem_filings {t : Target} {last : Option Port} {v : Word} {p : Port}
    {w : Passage} (h : w ∈ t.filings last v) : Passage.tookAt? p w = none := by
  cases t with
  | acc | bak | nil | any => cases h
  | port q =>
    obtain rfl := List.mem_singleton.mp h
    rfl
  | last =>
    obtain ⟨q, -, rfl⟩ := List.mem_map.mp h
    rfl

namespace Program

/-- No instruction names `ANY`. -/
def NamesNoAny (program : Program) : Prop :=
  ∀ i ∈ program.instructions, i.source ≠ .any ∧ i.destination ≠ .any

instance (program : Program) : Decidable program.NamesNoAny :=
  inferInstanceAs (Decidable (∀ i ∈ program.instructions, _))

/-- What a program can do next, seen from the registers. -/
inductive Does (program : Program) (r : Registers) : Deed → Prop
  | completes {i : Instruction} {v : Word} {w : List Passage} (hi : program.current? r = some i)
    (hf : r.writeInFlight = false) (hm : ∀ mode, i.op = .move mode → i.destination.remote = false)
    (hg : i.Gets r v w) : Does program r ⟨w, program.done i v r⟩
  | hands {i : Instruction} {mode : Mode} {v : Word} {w : List Passage}
    (hi : program.current? r = some i) (hf : r.writeInFlight = false) (hm : i.op = .move mode)
    (hr : i.destination.remote = true) (hg : i.Gets r v w) :
    Does program r ⟨w ++ i.destination.filings r.last v, { r with writeInFlight := true }⟩
  | finishes (hf : r.writeInFlight = true) : Does program r ⟨[], { r with
      pc := Execution.wrapPc program.instructions.length (r.pc + 1)
      writeInFlight := false }⟩

end Program

/-! ## What comes next is determined -/

theorem Instruction.Gets.unique {i : Instruction} {r : Registers} {v v' : Word}
    {w w' : List Passage} (h : i.Gets r v w) (h' : i.Gets r v' w') (ha : i.source ≠ .any)
    (hw : ∀ p x x', .took p x ∈ w → .took p x' ∈ w' → x = x') : v = v' ∧ w = w' := by
  cases h with
  | literal hr =>
    cases h' with
    | literal => exact ⟨rfl, rfl⟩
    | instant hr' | taken hr' => cases hr.symm.trans hr'
  | instant hr hv =>
    cases h' with
    | literal hr' => cases hr.symm.trans hr'
    | instant _ hv' =>
      cases hv.symm.trans hv'
      exact ⟨rfl, rfl⟩
    | taken _ hp => cases hp.symm.trans (Target.hears_of_instant? hv)
  | @taken p _ hr hp =>
    cases h' with
    | literal hr' => cases hr.symm.trans hr'
    | instant _ hv => cases hp.symm.trans (Target.hears_of_instant? hv)
    | taken _ hp' =>
      cases Target.hears_unique ha hp hp'
      cases hw p _ _ List.mem_cons_self List.mem_cons_self
      exact ⟨rfl, rfl⟩

namespace Program

variable {program : Program}

/-- Two deeds that can come next are the same, if they take the same word. -/
theorem Does.unique {r : Registers} {d d' : Deed} (hn : program.NamesNoAny)
    (h : program.Does r d) (h' : program.Does r d')
    (hw : ∀ p x x', .took p x ∈ d.passed → .took p x' ∈ d'.passed → x = x') : d = d' := by
  cases h with
  | @completes i _ w hi hf hm hg =>
    have hany := (hn i (mem_of_current? hi)).1
    cases h' with
    | completes hi' _ _ hg' =>
      cases hi.symm.trans hi'
      obtain ⟨rfl, rfl⟩ := hg.unique hg' hany hw
      rfl
    | hands hi' _ hm' hr' =>
      cases hi.symm.trans hi'
      cases (hm _ hm').symm.trans hr'
    | finishes hf' => cases hf.symm.trans hf'
  | @hands i _ _ w hi hf hm hr hg =>
    have hany := (hn i (mem_of_current? hi)).1
    cases h' with
    | completes hi' _ hm' =>
      cases hi.symm.trans hi'
      cases (hm' _ hm).symm.trans hr
    | hands hi' _ _ _ hg' =>
      cases hi.symm.trans hi'
      obtain ⟨rfl, rfl⟩ := hg.unique hg' hany fun p x x' hx hx' =>
        hw p x x' (List.mem_append_left _ hx) (List.mem_append_left _ hx')
      rfl
    | finishes hf' => cases hf.symm.trans hf'
  | finishes hf =>
    cases h' with
    | completes _ hf' | hands _ hf' => cases hf.symm.trans hf'
    | finishes => rfl

/-- A deed takes at most one word. -/
theorem Does.took_eq {r : Registers} {d : Deed} (h : program.Does r d) {p : Port} {x : Word}
    (hx : .took p x ∈ d.passed) : d.passed.filterMap (Passage.tookAt? p) = [x] := by
  have hg : ∀ {i : Instruction} {v : Word} {w : List Passage}, i.Gets r v w → .took p x ∈ w →
      w.filterMap (Passage.tookAt? p) = [x] := by
    intro i v w hg hx
    cases hg with
    | literal | instant => simp at hx
    | taken =>
      simp only [List.mem_cons, Passage.took.injEq, reduceCtorEq, List.not_mem_nil, or_false] at hx
      obtain ⟨rfl, rfl⟩ := hx
      simp [Passage.tookAt?, List.filterMap_cons]
  cases h with
  | completes _ _ _ hget => exact hg hget hx
  | @hands i _ v w _ _ _ _ hget =>
    have hfil : ∀ y ∈ i.destination.filings r.last v, Passage.tookAt? p y = none :=
      fun _ => Target.tookAt?_of_mem_filings
    have hnot : .took p x ∉ i.destination.filings r.last v := by
      intro hy
      simpa [Passage.tookAt?] using hfil _ hy
    rw [List.filterMap_append, List.filterMap_eq_nil_iff.mpr hfil, List.append_nil]
    exact hg hget ((List.mem_append.mp hx).resolve_right hnot)
  | finishes => cases hx

/-! ## Logs -/

/-- The deeds of a log can follow one another, from `r` on, and lead to `r'`. -/
def Tells (program : Program) : Registers → List Deed → Registers → Prop
  | r, [], r' => r' = r
  | r, d :: log, r' => program.Does r d ∧ program.Tells d.registers log r'

theorem Tells.unique {r r₁ r₂ : Registers} {log : List Deed} (h₁ : program.Tells r log r₁)
    (h₂ : program.Tells r log r₂) : r₁ = r₂ := by
  induction log generalizing r with
  | nil => exact Eq.trans h₁ (Eq.symm h₂)
  | cons d log ih => exact ih h₁.2 h₂.2

theorem Tells.append {r r' : Registers} {log : List Deed} {d : Deed}
    (h : program.Tells r log r') (hd : program.Does r' d) :
    program.Tells r (log ++ [d]) d.registers := by
  induction log generalizing r with
  | nil =>
    obtain rfl : r' = r := h
    exact ⟨hd, rfl⟩
  | cons d₁ log ih => exact ⟨h.1, ih h.2⟩

theorem Tells.split {r r' : Registers} {log rest : List Deed} {d : Deed}
    (h : program.Tells r (log ++ d :: rest) r') :
    ∃ r₁, program.Tells r log r₁ ∧ program.Does r₁ d := by
  induction log generalizing r with
  | nil => exact ⟨r, rfl, h.1⟩
  | cons d₁ log ih =>
    obtain ⟨r₁, h₁, hd⟩ := ih h.2
    exact ⟨r₁, ⟨h.1, h₁⟩, hd⟩

/-! ## The deeds of turns -/

theorem done_core (i : Instruction) (v : Word) (r : Registers) :
    program.done i v r.core = program.done i v r := by
  obtain ⟨op, source, destination, value, label⟩ := i
  cases op with
  | simple op => cases op <;> rfl
  | jump cond =>
    by_cases h : cond.holds r.acc = true
    · simp only [done, Execution.effect, Registers.core, h, if_true]
      rfl
    · simp only [done, Execution.effect, Registers.core, h]
      rfl
  | missing | arith | move | jumpBy => rfl

theorem core_done (i : Instruction) (v : Word) (r : Registers) :
    (program.done i v r).core = program.done i v r := by
  rw [done_eq]
  rfl

end Program

namespace Site

variable {s s₁ : Site} {i : Instruction} {v : Word}

theorem Draws.registers_eq (h : s.Draws i v s₁) (ha : i.source ≠ .any) :
    s₁.registers = s.registers := by
  cases h with
  | literal | instant => rfl
  | taken => rw [registers_grab, if_neg ha]; rfl

/-- What passes when a word for a target without `ANY` is handed over, if it can be. -/
theorem filings_of_addressee? {t : Target} (hr : t.remote = true) (ha : t ≠ .any) (v : Word) :
    t.filings s.registers.last v = (s.addressee? t).toList.map fun p => .filed p v := by
  cases t with
  | acc | bak | nil => cases hr
  | port p | last => rfl
  | any => exact absurd rfl ha

/-- The operand that is drawn at a site. -/
theorem Draws.gets (h : s.Draws i v s₁) (hs : s.passed = []) :
    i.Gets s.registers.core v s₁.passed := by
  cases h with
  | literal h =>
    rw [hs]
    exact .literal h
  | instant h hv =>
    rw [passed_note, hs]
    refine .instant h ?_
    cases ht : i.source <;> rw [ht] at hv <;> exact hv
  | @taken p h _ hp =>
    have hv : ((s.attend i.source).incoming p).value = (s.incoming p).value := by
      rw [incoming_attend]
    rw [passed_grab, passed_attend, hs, hv]
    exact .taken h (chosen?_eq_some _ hp).1

end Site

namespace Program

variable {program : Program} {s s' : Site}

/-- A node waits in its turn: nothing passes, and no instruction is completed. -/
structure Waits (program : Program) (s s' : Site) : Prop where
  passed : s'.passed = []
  core : s'.registers.core = s.registers.core
  stalled : (program.current? s.registers).isSome = true → s'.registers.stalled = true

/-- A node does something in its turn. -/
structure Acts (program : Program) (s s' : Site) : Prop where
  does : program.Does s.registers.core ⟨s'.passed, s'.registers.core⟩
  present : (program.current? s.registers).isSome = true
  stalled : s'.registers.stalled = s'.registers.writeInFlight

/-- What a `MOV` that has its word for a pipe does. -/
theorem does_of_draws {i : Instruction} {mode : Mode} {v : Word} {s₁ : Site}
    (hi : program.current? s.registers = some i) (hf : s.registers.writeInFlight = false)
    (hm : i.op = .move mode) (hr : i.destination.remote = true) (hd : s.Draws i v s₁)
    (hn : i.source ≠ .any ∧ i.destination ≠ .any) (hs : s.passed = []) :
    program.Does s.registers.core
      ⟨s₁.passed ++ (s₁.addressee? i.destination).toList.map fun p => .filed p v,
        { s₁.registers.core with writeInFlight := true }⟩ := by
  rw [← Site.filings_of_addressee? hr hn.2, hd.registers_eq hn.1]
  exact .hands hi hf hm hr (hd.gets hs)

theorem Turned.does (h : program.Turned s s') (hn : program.NamesNoAny) (hs : s.passed = []) :
    program.Waits s s' ∨ program.Acts s s' := by
  have hmem : ∀ i, program.current? s.registers = some i → i.source ≠ .any ∧ i.destination ≠ .any :=
    fun i hi => hn i (mem_of_current? hi)
  cases h with
  | rests hi => exact .inl ⟨hs, rfl, fun h => by rw [hi] at h; cases h⟩
  | listens => exact .inl ⟨hs, rfl, fun _ => rfl⟩
  | @completes i v s₁ hi hf hm hd =>
    have hr := hd.registers_eq (hmem i hi).1
    have hdo : program.Does s.registers.core ⟨s₁.passed, program.done i v s.registers.core⟩ :=
      .completes hi hf hm (hd.gets hs)
    refine .inr ⟨?_, by rw [hi]; rfl, ?_⟩
    · rw [Site.passed_setRegisters, Site.registers_setRegisters, core_done, hr, ← done_core]
      exact hdo
    · rw [Site.registers_setRegisters, done_eq, hr]
      exact hf.symm
  | @keeps i mode v s₁ hi hf hm hr hd ha =>
    have hdo := does_of_draws hi hf hm hr hd (hmem i hi) hs
    rw [ha] at hdo
    refine .inr ⟨?_, by rw [hi]; rfl, rfl⟩
    rw [Site.passed_expect, Site.passed_hold, ← List.append_nil s₁.passed]
    simp only [Site.expect, Site.hold, if_neg (hmem i hi).2]
    exact hdo
  | @files i mode v s₁ p hi hf hm hr hd ha hw =>
    have hdo := does_of_draws hi hf hm hr hd (hmem i hi) hs
    rw [ha] at hdo
    refine .inr ⟨?_, by rw [hi]; rfl, rfl⟩
    rw [Site.passed_expect, Site.passed_file]
    simp only [Site.expect, Site.file, if_neg (hmem i hi).2]
    exact hdo
  | expects hi hf =>
    refine .inl ⟨hs, ?_, fun _ => rfl⟩
    simp only [Site.expect, Site.registers_setRegisters, Registers.core, ← hf]
  | commits hi _ _ ht => exact absurd ht (hmem _ hi).2
  | finishes hi hf =>
    refine .inr ⟨?_, by rw [hi]; rfl, rfl⟩
    rw [Site.passed_setRegisters, hs]
    exact .finishes hf

end Program

end NodeCube
