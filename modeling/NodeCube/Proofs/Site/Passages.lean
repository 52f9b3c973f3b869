import NodeCube.Proofs.Site.Requests

/-!
# The words that pass in a step

What a step notes of the words that pass goes with what it does to the pipes. A pipe that accepts a
word was free and has a write request after that (`Pipe.Filed`), and one that a word was taken from
showed a transfer and had a write request for just that word (`Pipe.Drawn`, `Pipe.Took`). An
instruction that gets its operand from its source reads there once (`Site.Draws.reads_eq`).
-/

namespace NodeCube

namespace Passage

/-- The word, if the pipe at port `p` accepted it. -/
def filedAt? (p : Port) : Passage → Option Word
  | .filed q v => if q = p then some v else none
  | .read _ _ | .took _ _ => none

/-- The word, if it was taken from the pipe at port `p`. -/
def tookAt? (p : Port) : Passage → Option Word
  | .took q v => if q = p then some v else none
  | .read _ _ | .filed _ _ => none

/-- The port and the word, if a pipe accepted it. -/
def filed? : Passage → Option (Port × Word)
  | .filed p v => some (p, v)
  | .read _ _ | .took _ _ => none

/-- The target and the word, if it was read. -/
def read? : Passage → Option (Target × Word)
  | .read t v => some (t, v)
  | .filed _ _ | .took _ _ => none

end Passage

/-! ## Pipes -/

namespace Pipe

/-- What the writer's turn does to a pipe that accepts the given words. -/
inductive Filed (a b : Pipe) : List Word → Prop
  | nothing (hw : b.writing = a.writing) (hv : b.value = a.value) : Filed a b []
  | word {v : Word} (ha : a.writing = false) (hb : b.writing = true) (hv : b.value = v) :
    Filed a b [v]

/-- What the reader's turn does to a pipe that the given words are taken from, when none was taken
before. -/
inductive Took (a b : Pipe) : List Word → Prop
  | nothing (ht : b.taken = false) : Took a b []
  | word (ha : a.writing = true) (ht : b.taken = true) : Took a b [a.value]

/-- What the reader's turn does to a pipe that the given words are drawn from. -/
inductive Drawn (a b : Pipe) : List Word → Prop
  | nothing (ht : b.taken = a.taken) : Drawn a b []
  | word (hp : a.phase = .transferring) (ha : a.writing = true) (hn : a.taken = false)
    (ht : b.taken = true) : Drawn a b [a.value]

theorem ready_iff {p : Pipe} : p.ready = true ↔
    p.phase = .transferring ∧ p.writing = true ∧ p.reading = true ∧ p.taken = false := by
  simp [ready, and_assoc]

theorem Drawn.took {a b : Pipe} {ws : List Word} (h : Drawn a b ws) (ha : a.taken = false) :
    Took a b ws := by
  cases h with
  | nothing ht => exact .nothing (ht.trans ha)
  | word _ hw _ ht => exact .word hw ht

end Pipe

/-! ## Turns -/

namespace Site

variable {s s₁ : Site} {i : Instruction} {v : Word}

/-- The words that the pipe at port `p` accepted. -/
def filedAt (s : Site) (p : Port) : List Word := s.passed.filterMap (Passage.filedAt? p)

/-- The words that were taken from the pipe at port `p`. -/
def tookAt (s : Site) (p : Port) : List Word := s.passed.filterMap (Passage.tookAt? p)

@[simp] theorem filedAt_expect (s : Site) (p : Port) : s.expect.filedAt p = s.filedAt p := rfl

@[simp] theorem tookAt_expect (s : Site) (p : Port) : s.expect.tookAt p = s.tookAt p := rfl

@[simp] theorem filedAt_hold (s : Site) (t : Target) (v : Word) (p : Port) :
    (s.hold t v).filedAt p = s.filedAt p := by simp [filedAt]

@[simp] theorem tookAt_hold (s : Site) (t : Target) (v : Word) (p : Port) :
    (s.hold t v).tookAt p = s.tookAt p := by simp [tookAt]

@[simp] theorem tookAt_file (s : Site) (t : Target) (q : Port) (v : Word) (p : Port) :
    (s.file t q v).tookAt p = s.tookAt p := by
  simp [tookAt, Passage.tookAt?, List.filterMap_cons]

/-- The operand that an instruction has read from its source. -/
def operand (i : Instruction) (v : Word) : List (Target × Word) :=
  if i.op.readsSource then [(i.source, v)] else []

theorem Draws.filedAt_eq (h : s.Draws i v s₁) (p : Port) : s₁.filedAt p = s.filedAt p := by
  cases h <;> simp [filedAt, Passage.filedAt?]

theorem Draws.filed_eq (h : s.Draws i v s₁) :
    s₁.passed.filterMap Passage.filed? = s.passed.filterMap Passage.filed? := by
  cases h <;> simp [Passage.filed?]

/-- An operand from the source is read there once. -/
theorem Draws.reads_eq (h : s.Draws i v s₁) : s₁.passed.filterMap Passage.read? =
    s.passed.filterMap Passage.read? ++ operand i v := by
  cases h with
  | literal h => simp [operand, h]
  | instant h => simp [operand, h, Passage.read?]
  | taken h => simp [operand, h, Passage.read?, List.filterMap_cons, incoming_attend]

theorem Draws.value_of_literal (h : s.Draws i v s₁) (hr : i.op.readsSource = false) :
    v = i.value := by
  cases h with
  | literal => rfl
  | instant h => rw [hr] at h; cases h
  | taken h => rw [hr] at h; cases h

theorem Draws.drawn (h : s.Draws i v s₁) (hs : s.passed = []) (p : Port) :
    Pipe.Drawn (s.incoming p) (s₁.incoming p) (s₁.tookAt p) := by
  cases h with
  | literal =>
    rw [tookAt, hs]
    exact .nothing rfl
  | instant =>
    rw [tookAt, passed_note, hs]
    exact .nothing rfl
  | @taken q _ _ hq =>
    have hready := Pipe.ready_iff.mp (chosen?_eq_some _ hq).2
    rw [incoming_attend] at hready
    obtain ⟨hp, hw, -, ht⟩ := hready
    rw [tookAt, passed_grab, passed_attend, hs, incoming_grab, incoming_attend, incoming_attend]
    by_cases e : p = q
    · subst e
      simp only [List.nil_append, List.filterMap_cons, List.filterMap_nil, Passage.tookAt?, if_true]
      exact .word hp hw ht rfl
    · simp only [List.nil_append, List.filterMap_cons, Passage.tookAt?, if_neg (Ne.symm e),
        if_neg e]
      refine .nothing ?_
      split <;> rfl

theorem filed_file {t : Target} {q : Port} (hw : (s.outgoing q).writing = false)
    (p : Port) (hp : s.filedAt p = []) :
    Pipe.Filed (s.outgoing p) ((s.file t q v).outgoing p) ((s.file t q v).filedAt p) := by
  rw [filedAt, passed_file, List.filterMap_append, ← filedAt, hp, outgoing_file]
  by_cases e : p = q
  · subst e
    simpa [Passage.filedAt?] using Pipe.Filed.word (v := v) hw rfl rfl
  · simpa [Passage.filedAt?, Ne.symm e, e] using
      Pipe.Filed.nothing (a := s.outgoing p) rfl rfl

end Site

namespace Program.Turned

variable {program : Program} {s s' : Site}

/-- A step and the words that the pipes accept in it. -/
theorem filed (h : program.Turned s s') (hs : s.passed = []) (p : Port) :
    Pipe.Filed (s.outgoing p) (s'.outgoing p) (s'.filedAt p) := by
  have hnil : s.filedAt p = [] := by rw [Site.filedAt, hs]; rfl
  cases h with
  | rests | listens | expects | finishes =>
    show Pipe.Filed _ _ (s.filedAt p)
    rw [hnil]
    exact .nothing rfl rfl
  | @completes _ _ s₁ _ _ _ hd =>
    show Pipe.Filed _ (s₁.outgoing p) (s₁.filedAt p)
    rw [hd.filedAt_eq, hd.outgoing, hnil]
    exact .nothing rfl rfl
  | keeps _ _ _ _ hd =>
    rw [Site.outgoing_expect, Site.outgoing_hold, Site.filedAt_expect, Site.filedAt_hold,
      hd.filedAt_eq, hd.outgoing, hnil]
    exact .nothing rfl rfl
  | files _ _ _ _ hd _ hw =>
    rw [← hd.outgoing p, Site.outgoing_expect, Site.filedAt_expect]
    exact Site.filed_file hw p ((hd.filedAt_eq p).trans hnil)
  | commits _ _ _ _ _ hl =>
    exact Site.filed_file (t := .any) (AnyPort.free_of_listener? hl).2 p hnil

/-- A step and the words that it takes from the pipes. -/
theorem drawn (h : program.Turned s s') (hs : s.passed = []) (p : Port) :
    Pipe.Drawn (s.incoming p) (s'.incoming p) (s'.tookAt p) := by
  have hnil : s.tookAt p = [] := by rw [Site.tookAt, hs]; rfl
  cases h with
  | rests | expects | finishes =>
    show Pipe.Drawn _ _ (s.tookAt p)
    rw [hnil]
    exact .nothing rfl
  | @listens i =>
    show Pipe.Drawn _ ((s.attend i.source).incoming p) (s.tookAt p)
    rw [hnil, Site.incoming_attend]
    exact .nothing rfl
  | completes _ _ _ hd => exact hd.drawn hs p
  | keeps _ _ _ _ hd =>
    rw [Site.incoming_expect, Site.incoming_hold, Site.tookAt_expect, Site.tookAt_hold]
    exact hd.drawn hs p
  | files _ _ _ _ hd =>
    rw [Site.incoming_expect, Site.incoming_file, Site.tookAt_expect, Site.tookAt_file]
    exact hd.drawn hs p
  | commits =>
    rw [Site.incoming_expect, Site.incoming_file, Site.tookAt_expect, Site.tookAt_file, hnil]
    exact .nothing rfl

theorem took (h : program.Turned s s') (hu : s.Untaken) (hs : s.passed = []) (p : Port) :
    Pipe.Took (s.incoming p) (s'.incoming p) (s'.tookAt p) :=
  (h.drawn hs p).took (hu p)

end Program.Turned

end NodeCube
