import NodeCube.Proofs.Site.Turn

/-!
# The requests of a node

A node keeps no list of the requests that it has filed; its registers and the instruction at its
program counter tell which there are. `Program.Owns` says this of its write requests and
`Program.Attends` of its read requests. A step keeps both (`Program.Turned.owns`,
`Program.Turned.attends`), and touches only the node's own side of its pipes (`Ports.ByOwner`).

A word that was taken in this tick leaves its read request standing until the pipe is stepped, so
`Attends` counts only the requests for words that were not taken.
-/

namespace NodeCube

namespace Pipe

/-- The reader may have changed its side. -/
structure ReaderMoved (a b : Pipe) : Prop where
  phase : b.phase = a.phase
  writing : b.writing = a.writing
  value : b.value = a.value

/-- The writer may have filed a request if it had none. -/
structure WriterMoved (a b : Pipe) : Prop where
  phase : b.phase = a.phase
  reading : b.reading = a.reading
  taken : b.taken = a.taken
  filed : b.writing = a.writing ∧ b.value = a.value ∨ a.writing = false ∧ b.writing = true

theorem ReaderMoved.refl (a : Pipe) : ReaderMoved a a := ⟨rfl, rfl, rfl⟩

theorem WriterMoved.refl (a : Pipe) : WriterMoved a a := ⟨rfl, rfl, rfl, .inl ⟨rfl, rfl⟩⟩

theorem ReaderMoved.trans {a b c : Pipe} (h : ReaderMoved a b) (h' : ReaderMoved b c) :
    ReaderMoved a c :=
  ⟨h'.phase.trans h.phase, h'.writing.trans h.writing, h'.value.trans h.value⟩

theorem WriterMoved.trans {a b c : Pipe} (h : WriterMoved a b) (h' : WriterMoved b c) :
    WriterMoved a c := by
  refine ⟨h'.phase.trans h.phase, h'.reading.trans h.reading, h'.taken.trans h.taken, ?_⟩
  rcases h.filed with ⟨hw, hv⟩ | ⟨ha, hb⟩
  · rcases h'.filed with ⟨hw', hv'⟩ | ⟨hb, hc⟩
    · exact .inl ⟨hw'.trans hw, hv'.trans hv⟩
    · exact .inr ⟨hw.symm.trans hb, hc⟩
  · rcases h'.filed with ⟨hw', -⟩ | ⟨hb', -⟩
    · exact .inr ⟨ha, hw'.trans hb⟩
    · rw [hb] at hb'; cases hb'

theorem WriterMoved.kept {a b : Pipe} (h : WriterMoved a b) (hw : a.writing = true) :
    b.writing = true ∧ b.value = a.value := by
  rcases h.filed with ⟨e, hv⟩ | ⟨e, -⟩
  · exact ⟨e.trans hw, hv⟩
  · rw [hw] at e; cases e

end Pipe

theorem Target.isSome_of_resolves_any {t : Target} {last : Option Port} {p : Port} (ht : t = .any)
    (h : t.resolves last p = true) : last.isSome = true := by
  subst ht
  exact Option.isSome_iff_exists.mpr ⟨p, beq_iff_eq.mp h⟩

theorem Target.hears_unique {t : Target} {last : Option Port} {p q : Port} (ht : t ≠ .any)
    (hp : t.hears last p = true) (hq : t.hears last q = true) : p = q := by
  cases t <;> simp_all [hears]

theorem Target.hears_of_instant? {t : Target} {r : Registers} {v : Word} {last : Option Port}
    {p : Port} (h : t.instant? r = some v) : t.hears last p = false := by
  cases t <;> first | rfl | cases h

/-- The node at these ports changed nothing but its own side of the pipes. -/
structure Ports.ByOwner (a b : Ports) : Prop where
  incoming : ∀ p, Pipe.ReaderMoved (a.incoming.get p) (b.incoming.get p)
  outgoing : ∀ p, Pipe.WriterMoved (a.outgoing.get p) (b.outgoing.get p)

/-- The neighbours changed nothing but their sides of the pipes. -/
structure Ports.ByOthers (a b : Ports) : Prop where
  incoming : ∀ p, Pipe.WriterMoved (a.incoming.get p) (b.incoming.get p)
  outgoing : ∀ p, Pipe.ReaderMoved (a.outgoing.get p) (b.outgoing.get p)

namespace Site

variable {s s₁ : Site} {i : Instruction} {v : Word}

theorem attend_readerMoved (s : Site) (t : Target) (p : Port) :
    Pipe.ReaderMoved (s.incoming p) ((s.attend t).incoming p) := by
  rw [incoming_attend]
  exact ⟨rfl, rfl, rfl⟩

theorem grab_readerMoved (s : Site) (t : Target) (p q : Port) :
    Pipe.ReaderMoved (s.incoming q) ((s.grab t p).incoming q) := by
  rw [incoming_grab]
  split
  · exact ⟨rfl, rfl, rfl⟩
  · split
    · exact ⟨rfl, rfl, rfl⟩
    · exact .refl _

theorem Draws.readerMoved (h : s.Draws i v s₁) (p : Port) :
    Pipe.ReaderMoved (s.incoming p) (s₁.incoming p) := by
  cases h with
  | literal => exact .refl _
  | instant => exact .refl _
  | @taken q =>
    exact (attend_readerMoved s i.source p).trans
      (grab_readerMoved (s.attend i.source) i.source q p)

theorem file_writerMoved {t : Target} {p : Port} (q : Port) (h : (s.outgoing p).writing = false) :
    Pipe.WriterMoved (s.outgoing q) ((s.file t p v).outgoing q) := by
  rw [outgoing_file]
  split
  · rename_i e
    subst e
    exact ⟨rfl, rfl, rfl, .inr ⟨h, rfl⟩⟩
  · exact .refl _

theorem resolves_of_addressee? {t : Target} {p : Port} (h : s.addressee? t = some p) :
    t = .any ∨ t.resolves s.registers.last p = true := by
  cases t with
  | acc | bak | nil => cases h
  | port q => cases h; exact .inr (beq_self_eq_true _)
  | any => exact .inl rfl
  | last => exact .inr (beq_iff_eq.mpr h)

/-- The registers know where a word was handed over. -/
theorem hands_file {t : Target} {p : Port} (v : Word)
    (h : t = .any ∨ s.registers.anyWrite = none ∧ t.resolves s.registers.last p = true) :
    (s.file t p v).registers.anyWrite = none ∧
      t.resolves (s.file t p v).registers.last p = true := by
  rw [registers_file]
  by_cases ht : t = .any
  · subst ht
    exact ⟨rfl, beq_self_eq_true _⟩
  · rw [if_neg ht]
    exact h.resolve_left ht

end Site

namespace Program

variable {program : Program} {s s' : Site} {r : Registers}

theorem Turned.byOwner (h : program.Turned s s') : s.ports.ByOwner s'.ports := by
  cases h with
  | rests => exact ⟨fun _ => .refl _, fun _ => .refl _⟩
  | listens => exact ⟨Site.attend_readerMoved s _, fun _ => .refl _⟩
  | completes _ _ _ hd =>
    refine ⟨hd.readerMoved, fun p => ?_⟩
    rw [← show _ = (s.ports.outgoing.get p) from hd.outgoing p]
    exact .refl _
  | @keeps i _ v s₁ _ _ _ _ hd _ =>
    refine ⟨fun p => ?_, fun p => ?_⟩
    · show Pipe.ReaderMoved (s.incoming p) ((s₁.hold i.destination v).expect.incoming p)
      simpa using hd.readerMoved p
    · show Pipe.WriterMoved (s.outgoing p) ((s₁.hold i.destination v).expect.outgoing p)
      simpa [hd.outgoing] using Pipe.WriterMoved.refl _
  | @files i _ v s₁ q _ _ _ _ hd _ hw =>
    refine ⟨hd.readerMoved, fun p => ?_⟩
    show Pipe.WriterMoved (s.outgoing p) ((s₁.file i.destination q v).expect.outgoing p)
    rw [Site.outgoing_expect, ← hd.outgoing]
    exact Site.file_writerMoved p hw
  | expects => exact ⟨fun _ => .refl _, fun _ => .refl _⟩
  | commits _ _ _ _ _ hl =>
    exact ⟨fun _ => .refl _, fun p =>
      Site.file_writerMoved (t := .any) p (AnyPort.free_of_listener? hl).2⟩
  | finishes => exact ⟨fun _ => .refl _, fun _ => .refl _⟩

/-! ## Write requests -/

theorem PcFits.congr {r' : Registers} (h : program.PcFits r) (e : r'.pc = r.pc) :
    program.PcFits r' := by
  unfold PcFits
  rw [e]
  exact h

theorem Fits.anyWrite_eq_none (h : program.Fits r) (hf : r.writeInFlight = false) :
    r.anyWrite = none := by
  cases ha : r.anyWrite with
  | none => rfl
  | some v =>
    have := (h.held (by rw [ha]; rfl)).1
    rw [hf] at this
    cases this

/-- Registers that say nothing about requests. -/
theorem Fits.of_clear (hp : program.PcFits r) (hf : r.writeInFlight = false)
    (ha : r.anyWrite = none) (hs : r.stalled = false) : program.Fits r where
  pc := hp
  flight h := by rw [hf] at h; cases h
  held h := by rw [ha] at h; cases h
  chosen h := by rw [hf] at h; cases h
  waits h := by rw [hs] at h; cases h

/-- Registers of a `MOV` that waits for its word to be taken, which `ANY` may still hold. -/
theorem Fits.of_expecting {i : Instruction} {mode : Mode} (hp : program.PcFits r)
    (hi : program.current? r = some i) (hm : i.op = .move mode) (hr : i.destination.remote = true)
    (hf : r.writeInFlight = true) (hs : r.stalled = true)
    (ha : r.anyWrite.isSome = true → i.destination = .any)
    (hc : r.anyWrite = none → i.destination = .any → r.last.isSome = true) : program.Fits r where
  pc := hp
  flight _ := ⟨hs, i, mode, hi, hm, hr⟩
  held h := ⟨hf, fun j hj => by cases hi.symm.trans hj; exact ha h⟩
  chosen _ h j hj := by cases hi.symm.trans hj; exact hc h
  waits _ h := by rw [hf] at h; cases h

/-- The write requests at a site are those that the registers know of. -/
structure Owns (program : Program) (s : Site) : Prop where
  fits : program.Fits s.registers
  writes : ∀ p, (s.outgoing p).writing = true → program.Hands s.registers p

theorem Owns.free (h : program.Owns s) (hf : s.registers.writeInFlight = false) (p : Port) :
    (s.outgoing p).writing = false := by
  cases hw : (s.outgoing p).writing with
  | false => rfl
  | true =>
    have := (h.writes p hw).1
    rw [hf] at this
    cases this

theorem Owns.of_free (hf : program.Fits s.registers) (hw : ∀ p, (s.outgoing p).writing = false) :
    program.Owns s where
  fits := hf
  writes p h := by rw [hw] at h; cases h

/-- A word that was just handed over. -/
theorem fits_file {i : Instruction} {mode : Mode} {p : Port} (v : Word)
    (hp : program.PcFits s.registers) (hi : program.current? s.registers = some i)
    (hm : i.op = .move mode) (hr : i.destination.remote = true)
    (ha : i.destination = .any ∨
      s.registers.anyWrite = none ∧ i.destination.resolves s.registers.last p = true) :
    program.Fits (s.file i.destination p v).expect.registers ∧
      program.Hands (s.file i.destination p v).expect.registers p := by
  have hpc : (s.file i.destination p v).expect.registers.pc = s.registers.pc := s.pc_file _ p v
  have hcur := current?_of_pc hpc hi
  obtain ⟨hnone, hres⟩ := Site.hands_file v ha
  refine ⟨.of_expecting (hp.congr hpc) hcur hm hr rfl rfl ?_ fun _ h => ?_, rfl, hnone, i, hcur,
    hres⟩
  · intro h
    exact absurd hnone (Option.isSome_iff_ne_none.mp h)
  · exact Target.isSome_of_resolves_any h hres

/-- A word that could not be handed over. -/
theorem fits_hold {i : Instruction} {mode : Mode} (v : Word)
    (hp : program.PcFits s.registers) (hi : program.current? s.registers = some i)
    (hm : i.op = .move mode) (hr : i.destination.remote = true)
    (hn : s.registers.anyWrite = none) :
    program.Fits (s.hold i.destination v).expect.registers := by
  have hpc : (s.hold i.destination v).expect.registers.pc = s.registers.pc := s.pc_hold _ v
  refine .of_expecting (hp.congr hpc) (current?_of_pc hpc hi) hm hr rfl rfl (fun h => ?_)
    fun h hd => ?_
  · simp only [Site.expect, Site.registers_setRegisters, Site.registers_hold] at h
    split at h
    · assumption
    · rw [hn] at h; cases h
  · simp [Site.expect, hd] at h

/-- Registers of an instruction that waits for a word to read. -/
theorem Fits.of_listening {i : Instruction} (hp : program.PcFits r)
    (hi : program.current? r = some i) (hs : i.op.readsSource = true)
    (hr : i.source.remote = true) (hf : r.writeInFlight = false) (ha : r.anyWrite = none) :
    program.Fits r where
  pc := hp
  flight h := by rw [hf] at h; cases h
  held h := by rw [ha] at h; cases h
  chosen h := by rw [hf] at h; cases h
  waits _ _ := ⟨i, hi, hs, hr⟩

/-- Waiting for a word to be taken changes nothing. -/
theorem Fits.expect_eq (h : program.Fits s.registers) (hf : s.registers.writeInFlight = true) :
    s.expect = s := by
  have hs := (h.flight hf).1
  obtain ⟨⟨pc, acc, bak, last, inFlight, held, stalled⟩, ports, passed⟩ := s
  cases hf
  cases hs
  rfl

/-- Where a `MOV` hands its word over. -/
theorem Fits.handed {i : Instruction} {v : Word} {s₁ : Site} {p : Port}
    (h : program.Fits s.registers) (hf : s.registers.writeInFlight = false)
    (hd : s.Draws i v s₁) (ha : s₁.addressee? i.destination = some p) :
    i.destination = .any ∨
      s₁.registers.anyWrite = none ∧ i.destination.resolves s₁.registers.last p = true := by
  refine (Site.resolves_of_addressee? ha).imp id fun hres => ⟨?_, hres⟩
  rw [hd.registers]
  exact h.anyWrite_eq_none hf

/-- A step leads to registers that fit again, whatever requests there are. -/
theorem Turned.fits (hfit : program.Fits s.registers) (h : program.Turned s s') :
    program.Fits s'.registers := by
  cases h with
  | rests => exact hfit
  | listens hi hf hs hr =>
    exact .of_listening hfit.pc (current?_of_pc rfl hi) hs hr hf (hfit.anyWrite_eq_none hf)
  | completes _ hf _ hd hp =>
    refine .of_clear hp ?_ ?_ ?_
    · rw [Site.registers_setRegisters, done_eq, hd.registers]
      exact hf
    · rw [Site.registers_setRegisters, done_eq, hd.registers]
      exact hfit.anyWrite_eq_none hf
    · rw [Site.registers_setRegisters, done_eq]
  | @keeps i _ v s₁ hi hf hm hr hd _ =>
    refine fits_hold v (hfit.pc.congr hd.pc) (current?_of_pc hd.pc hi) hm hr ?_
    rw [hd.registers]
    exact hfit.anyWrite_eq_none hf
  | @files i _ v s₁ p hi hf hm hr hd ha =>
    exact (fits_file v (hfit.pc.congr hd.pc) (current?_of_pc hd.pc hi) hm hr
      (hfit.handed hf hd ha)).1
  | expects _ hf => exact hfit.expect_eq hf ▸ hfit
  | @commits i _ v p hi hf hm ht =>
    rw [← ht]
    exact (fits_file v hfit.pc hi hm (by rw [ht]; rfl) (.inl ht)).1
  | finishes _ _ _ hv =>
    have hpc : 0 ≤ s.registers.pc + 1 := by have := hfit.pc.1; omega
    exact .of_clear (wrapPc_fits hpc) rfl hv rfl

/-- A word that is handed over is the only one at the site. -/
theorem Hands.of_file {i : Instruction} {p q : Port} {v : Word}
    (h : program.Hands (s.file i.destination p v).expect.registers p)
    (hw : ∀ q, (s.outgoing q).writing = false)
    (hq : ((s.file i.destination p v).expect.outgoing q).writing = true) :
    program.Hands (s.file i.destination p v).expect.registers q := by
  rw [Site.outgoing_expect, Site.outgoing_file] at hq
  split at hq
  · rename_i e
    subst e
    exact h
  · rw [hw] at hq
    cases hq

theorem Turned.owns (ho : program.Owns s) (h : program.Turned s s') : program.Owns s' := by
  refine ⟨h.fits ho.fits, ?_⟩
  have hnone : ∀ {s₁ : Site}, s.registers.writeInFlight = false →
      (∀ p, s₁.outgoing p = s.outgoing p) → ∀ p, (s₁.outgoing p).writing = false := by
    intro s₁ hf hout p
    rw [hout]
    exact ho.free hf p
  cases h with
  | rests => exact ho.writes
  | listens _ hf =>
    intro p hp
    cases hp.symm.trans (ho.free hf p)
  | completes _ hf _ hd =>
    intro p hp
    cases hp.symm.trans (hnone hf hd.outgoing p)
  | keeps _ hf _ _ hd =>
    intro p hp
    rw [Site.outgoing_expect, Site.outgoing_hold, hnone hf hd.outgoing] at hp
    cases hp
  | @files i _ v s₁ p hi hf hm hr hd ha =>
    intro q hq
    exact (fits_file v (ho.fits.pc.congr hd.pc) (current?_of_pc hd.pc hi) hm hr
      (ho.fits.handed hf hd ha)).2.of_file (hnone hf hd.outgoing) hq
  | expects _ hf => exact ho.fits.expect_eq hf ▸ ho.writes
  | @commits i _ v p hi hf hm ht hv =>
    rw [← ht]
    intro q hq
    refine (fits_file v ho.fits.pc hi hm (by rw [ht]; rfl) (.inl ht)).2.of_file (fun q => ?_) hq
    -- while `ANY` holds a word, none of the node's waits at a port
    cases hq : (s.outgoing q).writing with
    | false => rfl
    | true => rw [(ho.writes q hq).2.1] at hv; cases hv
  | @finishes i _ p hi hf _ hv ht hw =>
    intro q hq
    obtain ⟨-, -, j, hj, hres⟩ := ho.writes q hq
    cases hi.symm.trans hj
    rw [Site.outgoing_setRegisters, Target.resolves_unique hres ht, hw] at hq
    cases hq

/-! ## Read requests -/

/-- The registers say that the node listens at port `p`. -/
def Listens (program : Program) (r : Registers) (p : Port) : Prop :=
  r.stalled = true ∧ r.writeInFlight = false ∧
    ∃ i, program.current? r = some i ∧ i.op.readsSource = true ∧ i.source.hears r.last p = true

/-- The read requests at a site are those that the registers know of. -/
def Attends (program : Program) (s : Site) : Prop :=
  ∀ p, (s.incoming p).reading = true ∧ (s.incoming p).taken = false ↔ program.Listens s.registers p

/-- A node that waits for nothing to read has no open request. -/
theorem Attends.of_quiet (hl : s.registers.stalled = false ∨ s.registers.writeInFlight = true)
    (hq : ∀ p, ¬((s.incoming p).reading = true ∧ (s.incoming p).taken = false)) :
    program.Attends s := by
  refine fun p => ⟨fun h => absurd h (hq p), fun ⟨hs, hf, _⟩ => ?_⟩
  rcases hl with h | h
  · rw [h] at hs; cases hs
  · rw [h] at hf; cases hf

theorem Attends.quiet (h : program.Attends s) (hf : s.registers.writeInFlight = true) (p : Port) :
    ¬((s.incoming p).reading = true ∧ (s.incoming p).taken = false) := by
  intro hr
  have := ((h p).mp hr).2.1
  rw [hf] at this
  cases this

/-- While the node listens for the operand of `i`, each of its requests is for that operand. -/
theorem Attends.hears {i : Instruction} {p : Port} (h : program.Attends s) (hu : s.Untaken)
    (hi : program.current? s.registers = some i) (hr : (s.incoming p).reading = true) :
    i.op.readsSource = true ∧ i.source.hears s.registers.last p = true := by
  obtain ⟨-, -, j, hj, hs, hh⟩ := (h p).mp ⟨hr, hu p⟩
  cases hi.symm.trans hj
  exact ⟨hs, hh⟩

/-- After a node drew its operand, no request of it is open. -/
theorem Attends.quiet_of_draws {i : Instruction} {v : Word} {s₁ : Site} (h : program.Attends s)
    (hu : s.Untaken) (hi : program.current? s.registers = some i) (hd : s.Draws i v s₁) (p : Port) :
    ¬((s₁.incoming p).reading = true ∧ (s₁.incoming p).taken = false) := by
  rintro ⟨hr, ht⟩
  cases hd with
  | literal hs =>
    have := (h.hears hu hi hr).1
    rw [hs] at this
    cases this
  | instant _ hv =>
    have := (h.hears hu hi hr).2
    rw [Target.hears_of_instant? hv] at this
    cases this
  | @taken q _ _ hp =>
    rw [Site.incoming_grab] at hr ht
    split at hr
    · rename_i e
      rw [if_pos e] at ht
      cases ht
    · rename_i hne
      split at hr
      · cases hr
      · rename_i hany
        -- `i` reads from one port, and that is `q`
        rw [Site.incoming_attend, Bool.or_eq_true] at hr
        have hp' : i.source.hears s.registers.last p = true := by
          rcases hr with hr | hr
          · exact (h.hears hu hi hr).2
          · exact (Bool.and_eq_true_iff.mp hr).1
        have hq := (Site.chosen?_eq_some _ hp).1
        exact hne (Target.hears_unique hany hp' hq)

/-- A node that starts to read, or goes on with it, has a request at each port it listens at. If
`ANY` files none, that is because it has them all. -/
theorem Attends.reads_of_hears {i : Instruction} {p : Port} (h : program.Attends s) (hu : s.Untaken)
    (hi : program.current? s.registers = some i)
    (hh : i.source.hears s.registers.last p = true) :
    ((s.incoming p).reading || s.opens i.source p) = true := by
  by_cases hany : i.source = .any ∧ ∃ q, (s.incoming q).reading = true
  · obtain ⟨hany, q, hq⟩ := hany
    obtain ⟨hs, hf, j, hj, hsrc, -⟩ := (h q).mp ⟨hq, hu q⟩
    cases hi.symm.trans hj
    rw [((h p).mpr ⟨hs, hf, i, hi, hsrc, hh⟩).1]
    rfl
  · have ho : s.opens i.source p = true := by
      simp only [Site.opens, hh, Bool.true_and, Bool.not_eq_true', Bool.and_eq_false_iff,
        List.any_eq_false]
      by_cases ht : i.source = .any
      · exact .inr fun q _ hq => hany ⟨ht, q, hq⟩
      · exact .inl (beq_eq_false_iff_ne.mpr ht)
    rw [ho, Bool.or_true]

theorem Turned.attends (hu : s.Untaken) (ha : program.Attends s) (h : program.Turned s s') :
    program.Attends s' := by
  cases h with
  | rests => exact ha
  | @listens i hi hf hs _ _ =>
    intro p
    simp only [Site.incoming_setRegisters, Site.incoming_attend, Site.registers_setRegisters]
    constructor
    · rintro ⟨hr, -⟩
      refine ⟨rfl, hf, i, hi, hs, ?_⟩
      rcases Bool.or_eq_true_iff.mp hr with hr | hr
      · exact (ha.hears hu hi hr).2
      · exact (Bool.and_eq_true_iff.mp hr).1
    · rintro ⟨-, -, j, hj, -, hh⟩
      cases hi.symm.trans hj
      exact ⟨ha.reads_of_hears hu hi hh, hu p⟩
  | completes hi _ _ hd =>
    refine .of_quiet (.inl ?_) fun p => ha.quiet_of_draws hu hi hd p
    rw [Site.registers_setRegisters, done_eq]
  | @keeps i _ v s₁ hi _ _ _ hd _ =>
    refine .of_quiet (.inr rfl) fun p => ?_
    rw [Site.incoming_expect, Site.incoming_hold]
    exact ha.quiet_of_draws hu hi hd p
  | files hi _ _ _ hd => exact .of_quiet (.inr rfl) fun p => ha.quiet_of_draws hu hi hd p
  | expects _ hf => exact .of_quiet (.inr rfl) (ha.quiet hf)
  | commits _ hf => exact .of_quiet (.inr rfl) (ha.quiet hf)
  | finishes _ hf => exact .of_quiet (.inl rfl) (ha.quiet hf)

end Program

end NodeCube
