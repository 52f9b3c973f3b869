import NodeCube.Proofs.Casing.Replica
import NodeCube.Proofs.Runner.Arguments
import NodeCube.Proofs.Text.Lines
import NodeCube.Runner.Directory

/-!
# Runs that are resumed

The casing of a run is that of a history (`exists_installed`), so a run whose programs are accepted
ticks without a fault, and the snapshot that it writes brings every casing with programs on the same
faces to where it was (`Alternate.enable_restored`). A run that starts from the snapshot therefore
goes on as if there had been no stop (`FileSystem.run_resumed`), wherever files that were written
can be read.
-/

namespace NodeCube

namespace Runner

open Snapshot

/-! ## Programs -/

/-- A program that is accepted. -/
def Accepted (source : Bytes) : Prop := (Assembler.assemble source).isOk = true

/-- The file with the program of a face can be read, and the program is accepted. -/
def Source.Accepted (files : Files) (s : Source) : Prop :=
  ∃ source, files s.path = some source ∧ Runner.Accepted source

/-- The node of a face has a part of a snapshot that is not too long for the format. -/
def Source.Short (files : Files) (s : Source) : Prop :=
  ∀ source, files s.path = some source → source.length + 15 < UInt32.size

theorem Accepted.diagnostic_ofSource {source : Bytes} (h : Accepted source) :
    (Node.ofSource source).diagnostic = none := by
  unfold Accepted at h
  cases hp : Assembler.assemble source with
  | ok p => simp only [Node.ofSource, Node.assemble, Assembler.compile_eq, hp]
  | error e =>
    rw [hp] at h
    cases h

/-! ## Setting up -/

/-- The casing with the programs of some files. -/
def installed (files : Files) (sources : List Source) (c : Casing) : Casing :=
  sources.foldl (fun c s => install c s.face ((files s.path).getD [])) c

theorem installAll_eq {files : Files} {sources : List Source}
    (h : ∀ s ∈ sources, s.Accepted files) (c : Casing) :
    installAll files c sources = ([], .ok (installed files sources c)) := by
  induction sources generalizing c with
  | nil => rfl
  | cons s rest ih =>
    obtain ⟨source, hs, ha⟩ := h s List.mem_cons_self
    have hrest := ih (fun x hx => h x (List.mem_cons_of_mem s hx)) (install c s.face source)
    simp only [installAll, hs, hrest, nodeDiagnosticText, ha.diagnostic_ofSource, installed,
      List.foldl_cons, Option.getD_some, List.append_nil]

theorem slots_install (c : Casing) (f g : Face) (source : Bytes) :
    (install c f source).slots.get g =
      if g = f then some (c.receive (.node (Node.ofSource source))) else c.slots.get g := by
  rw [install, Casing.exchange_eq, PerFace.get_set]
  rfl

theorem enabled_install (c : Casing) (f : Face) (source : Bytes) :
    (install c f source).enabled = c.enabled := by
  rw [install, Casing.exchange_eq]

theorem stand_install (c : Casing) (f : Face) (source : Bytes) :
    (install c f source).stand = c.stand := by
  rw [install, Casing.exchange_eq]

theorem stand_installed (files : Files) (sources : List Source) (c : Casing) :
    (installed files sources c).stand = c.stand := by
  induction sources generalizing c with
  | nil => rfl
  | cons s rest ih => exact (ih _).trans (stand_install c s.face _)

/-- The programs are on the faces that were given, and nothing else changes. -/
theorem isSome_installed (files : Files) (sources : List Source) (c : Casing) (f : Face) :
    ((installed files sources c).slots.get f).isSome = true ↔
      f ∈ sources.map Source.face ∨ (c.slots.get f).isSome = true := by
  induction sources generalizing c with
  | nil => simp [installed]
  | cons s rest ih =>
    refine (ih (install c s.face ((files s.path).getD []))).trans ?_
    rw [slots_install, List.map_cons, List.mem_cons]
    by_cases hf : f = s.face <;> simp [hf]

/-- A casing that is not enabled and has only new nodes with programs that are accepted. -/
structure Prepared (c : Casing) : Prop where
  enabled : c.enabled = false
  nodes : ∀ f d, c.slots.get f = some d →
    ∃ source, d = .node (Node.ofSource source) ∧ Accepted source

theorem Prepared.new (stand : Stand) : Prepared (Casing.new stand) where
  enabled := rfl
  nodes f d hd := by simp [Casing.new] at hd

theorem Prepared.install {c : Casing} (h : Prepared c) (f : Face) {source : Bytes}
    (hs : Accepted source) : Prepared (install c f source) where
  enabled := (enabled_install c f source).trans h.enabled
  nodes g d hd := by
    rw [slots_install] at hd
    split at hd
    · cases hd
      refine ⟨source, ?_, hs⟩
      rw [Casing.receive, h.enabled]
      rfl
    · exact h.nodes g d hd

theorem Prepared.installed {files : Files} {sources : List Source}
    (h : ∀ s ∈ sources, s.Accepted files) {c : Casing} (hc : Prepared c) :
    Prepared (installed files sources c) := by
  induction sources generalizing c with
  | nil => exact hc
  | cons s rest ih =>
    obtain ⟨source, hs, ha⟩ := h s List.mem_cons_self
    simp only [Runner.installed, List.foldl_cons, hs]
    exact ih (fun x hx => h x (List.mem_cons_of_mem s hx)) (hc.install s.face ha)

theorem compact_install {c : Casing} (h : c.Compact) (f : Face) {source : Bytes}
    (hs : source.length + 15 < UInt32.size) : (install c f source).Compact := by
  intro g n hn
  rw [slots_install] at hn
  split at hn
  · have hsource : n.source = source := by
      unfold Casing.receive at hn
      split at hn <;> cases hn <;> rfl
    rw [n.length_encode, hsource]
    exact hs
  · exact h g n hn

theorem compact_installed {files : Files} {sources : List Source}
    (h : ∀ s ∈ sources, s.Short files) {c : Casing} (hc : c.Compact) :
    (installed files sources c).Compact := by
  induction sources generalizing c with
  | nil => exact hc
  | cons s rest ih =>
    refine ih (fun x hx => h x (List.mem_cons_of_mem s hx)) (compact_install hc s.face ?_)
    cases hs : files s.path with
    | none => decide
    | some source => exact h s List.mem_cons_self source hs

/-- Installing programs is a history. -/
theorem exists_installed (files : Files) (sources : List Source) (r : Rig) :
    ∃ acts, (r.run acts).casing = installed files sources r.casing := by
  induction sources generalizing r with
  | nil => exact ⟨[], rfl⟩
  | cons s rest ih =>
    let order : Order := ⟨⟨r.casing.stand, s.face⟩, .node, (files s.path).getD []⟩
    let r' := (r.perform (.make order)).perform (.install s.face r.shelf.length)
    have hr' : r'.casing = install r.casing s.face ((files s.path).getD []) := by
      have hfits : r.casing.fits s.face order.make = true := by
        simp [Casing.fits, order, Order.make]
      have hget : (r.shelf ++ [order.make])[r.shelf.length]? = some order.make := by simp
      simp only [r', Rig.perform, hget]
      exact congrArg Rig.casing (Rig.exchange_of_fits
        (r := { r with shelf := (r.shelf ++ [order.make]).eraseIdx r.shelf.length }) hfits)
    obtain ⟨acts, hacts⟩ := ih r'
    refine ⟨.make order :: .install s.face r.shelf.length :: acts, ?_⟩
    rw [hr'] at hacts
    exact hacts

end Runner

/-! ## Ticking -/

theorem Rig.run_enable_steps (r : Rig) (k : Nat) :
    (r.run (.enable :: List.replicate k .step)).casing = r.casing.enable.after k := by
  induction k with
  | zero => rfl
  | succ k ih =>
    have hstep : r.run (.enable :: List.replicate (k + 1) .step) =
        (r.run (.enable :: List.replicate k .step)).perform .step := by
      rw [List.replicate_succ', ← List.cons_append]
      exact List.foldl_append
    rw [hstep, Casing.after, ← ih]
    rfl

namespace Casing.Steady

variable {c : Casing} {f : Face}

/-- Ticks change only the registers of a node. -/
theorem node_after (h : c.Steady) {n : Node} (hn : c.slots.get f = some (.node n)) (k : Nat) :
    ∃ r, (c.after k).slots.get f = some (.node (n.withRegisters r)) := by
  induction k with
  | zero => exact ⟨n.machine.registers, hn⟩
  | succ k ih =>
    obtain ⟨r, hr⟩ := ih
    obtain ⟨s, -, -, -, hs⟩ := (h.after k).turn hr
    rw [← h.after_succ] at hs
    exact ⟨s.registers, hs⟩

theorem none_after (h : c.Steady) (hn : c.slots.get f = none) (k : Nat) :
    (c.after k).slots.get f = none := by
  induction k with
  | zero => exact hn
  | succ k ih =>
    rw [h.after_succ]
    simp only [stepPipes, merged, PerFace.get_ofFn, slotAfter, ih, Option.map_none]

theorem stand_after (h : c.Steady) (k : Nat) : (c.after k).stand = c.stand := by
  induction k with
  | zero => rfl
  | succ k ih =>
    rw [h.after_succ]
    exact ih

end Casing.Steady

namespace Runner

/-- A casing whose steps do not fault ticks on. -/
theorem advance_after {c : Casing}
    (h : ∀ k, Casing.step (c.after k) = .ok () (c.after (k + 1))) (k n : Nat) :
    advance (c.after k) n = .ok (c.after (k + n)) := by
  induction n generalizing k with
  | zero => rfl
  | succ n ih =>
    simp only [advance, h k]
    rw [ih, Nat.add_right_comm, Nat.add_assoc]

theorem operate_after {c c' : Casing}
    (h : ∀ k, Casing.step (c.after k) = .ok () (c.after (k + 1))) {k : Nat}
    (hc : c'.enable = c.after k) {o : Options} (hv : o.verbose = false)
    (hs : o.savePath.isEmpty = false) :
    operate o c' = .saving o.savePath (c.after (k + o.ticks)).save
      (casingText (c.after (k + o.ticks)) o.ticks) := by
  simp only [operate, tickAll, hv, hc, advance_after h, hs, Bool.false_eq_true, if_false]

/-! ## Going on from a snapshot -/

/-- A casing that is prepared by a history. -/
structure Ready (c : Casing) : Prop extends Prepared c where
  reached : ∃ acts, ((Rig.new c.stand).run acts).casing = c

namespace Ready

variable {c : Casing}

theorem steady (h : Ready c) : c.enable.Steady := by
  obtain ⟨acts, hc⟩ := h.reached
  have := (Rig.fresh_run c.stand acts (by rw [hc]; exact h.enabled)).steady
  rwa [hc] at this

theorem slots_enable (h : Ready c) {f : Face} {n : Node} (hn : c.slots.get f = some (.node n)) :
    c.enable.slots.get f = some (.node n.enable) := by
  rw [Casing.enable_eq h.enabled]
  simp only [PerFace.get_map, hn, Option.map_some]
  rfl

/-- What is on a face at the start and later. -/
theorem slots_after (h : Ready c) (k : Nat) (f : Face) :
    c.slots.get f = none ∧ (c.enable.after k).slots.get f = none ∨
    ∃ source r, Accepted source ∧ c.slots.get f = some (.node (Node.ofSource source)) ∧
      (c.enable.after k).slots.get f =
        some (.node ((Node.ofSource source).enable.withRegisters r)) := by
  cases hs : c.slots.get f with
  | none => exact .inl ⟨rfl, h.steady.none_after (Casing.slots_enable_of_none hs) k⟩
  | some d =>
    obtain ⟨source, rfl, ha⟩ := h.nodes f d hs
    obtain ⟨r, hr⟩ := h.steady.node_after (h.slots_enable hs) k
    exact .inr ⟨source, r, ha, rfl, hr⟩

theorem diagnostic_after (h : Ready c) {k : Nat} {f : Face} {n : Node}
    (hn : (c.enable.after k).slots.get f = some (.node n)) : n.diagnostic = none := by
  obtain ⟨-, h₂⟩ | ⟨source, r, ha, -, h₂⟩ := h.slots_after k f
  · cases hn.symm.trans h₂
  · cases hn.symm.trans h₂
    exact ha.diagnostic_ofSource

/-- The nodes keep the sources that they had at the start. -/
theorem compact_after (h : Ready c) (hc : c.Compact) (k : Nat) : (c.enable.after k).Compact := by
  intro f n hn
  obtain ⟨-, h₂⟩ | ⟨source, r, -, h₁, h₂⟩ := h.slots_after k f
  · cases hn.symm.trans h₂
  · cases hn.symm.trans h₂
    have hlength := hc f _ h₁
    rw [Node.length_encode] at hlength ⊢
    exact hlength

/-- The casing after some ticks is that of a history as well. -/
theorem exists_after (h : Ready c) (k : Nat) :
    ∃ acts, ((Rig.new c.stand).run acts).casing = c.enable.after k := by
  obtain ⟨acts, hc⟩ := h.reached
  refine ⟨acts ++ .enable :: List.replicate k .step, ?_⟩
  have happend : (Rig.new c.stand).run (acts ++ .enable :: List.replicate k .step) =
      ((Rig.new c.stand).run acts).run (.enable :: List.replicate k .step) := List.foldl_append
  rw [happend, Rig.run_enable_steps, hc]

theorem translated_after (h : Ready c) (k : Nat) : (c.enable.after k).Translated := by
  obtain ⟨acts, hc⟩ := h.exists_after k
  exact hc ▸ Rig.translated_run _ acts

theorem anyRefused_eq (h : Ready c) (faces : List Face) : anyRefused c faces = false := by
  refine List.any_eq_false.mpr fun f _ => ?_
  obtain ⟨h₁, -⟩ | ⟨source, r, ha, h₁, -⟩ := h.slots_after 0 f
  · simp [node?, h₁]
  · simp [node?, h₁, Device.node?, ha.diagnostic_ofSource]

end Ready

/-- Two casings that are ready, on the same stand and with programs on the same faces. The first
one can be saved. -/
structure Alternate (c c' : Casing) : Prop where
  ready : Ready c
  compact : c.Compact
  ready' : Ready c'
  stand : c'.stand = c.stand
  faces : ∀ f, (c'.slots.get f).isSome = true ↔ (c.slots.get f).isSome = true

namespace Alternate

variable {c c' : Casing}

theorem twins (h : Alternate c c') (k : Nat) : (c.enable.after k).Twins c' where
  kinds f := by
    have hf := h.faces f
    obtain ⟨h₁, h₂⟩ | ⟨source, r, -, h₁, h₂⟩ := h.ready.slots_after k f
    · rw [h₁] at hf
      cases hs : c'.slots.get f with
      | none => rw [h₂]
      | some d => simp [hs] at hf
    · rw [h₁] at hf
      obtain ⟨d, hd⟩ := Option.isSome_iff_exists.mp (hf.mpr rfl)
      obtain ⟨source', rfl, -⟩ := h.ready'.nodes f d hd
      rw [hd, h₂]
      rfl
  nodes f d hd := by
    obtain ⟨-, h₂⟩ | ⟨source, r, -, -, h₂⟩ := h.ready.slots_after k f
    · cases hd.symm.trans h₂
    · cases hd.symm.trans h₂
      rfl

theorem load_save (h : Alternate c c') (k : Nat) :
    Casing.load (c.enable.after k).save c' = .ok () ((c.enable.after k).restored c') := by
  obtain ⟨acts, hc⟩ := h.ready.exists_after k
  have htwins := h.twins k
  have hcompact := h.ready.compact_after h.compact k
  refine Casing.load_save ?_ c'
  rw [← hc] at htwins hcompact ⊢
  exact Rig.portable_run _ _ htwins hcompact.source_lt

/-- A snapshot of the one leads the other to where it was taken. -/
theorem enable_restored (h : Alternate c c') (k : Nat) :
    ((c.enable.after k).restored c').enable = c.enable.after k := by
  have hin : ∀ {stand : Stand} {b : Casing},
      (∃ acts, ((Rig.new stand).run acts).casing = b) → b.InStep := by
    rintro stand b ⟨acts, rfl⟩
    exact Rig.inStep_run _ acts
  have hsteady := h.ready.steady
  have hstand : (c.enable.after k).stand = c'.stand := by
    rw [hsteady.stand_after, Casing.stand_enable, h.stand]
  have hon : (c.enable.after k).enable = c.enable.after k := by
    rw [Casing.enable, if_pos (hsteady.after k).enabled]
  rw [(h.twins k).enable_restored (h.ready.translated_after k) (hin (h.ready.exists_after k))
    (hin h.ready'.reached), hon, ← hstand]
  rfl

theorem anyRefused_restored (h : Alternate c c') (k : Nat) (faces : List Face) :
    anyRefused ((c.enable.after k).restored c') faces = false := by
  refine List.any_eq_false.mpr fun f _ => ?_
  obtain ⟨-, -, hr⟩ | ⟨m, n, hm, -, hr⟩ := (h.twins k).restored (h.ready.translated_after k) f
  · simp [node?, hr]
  · simp [node?, hr, Device.node?, h.ready.diagnostic_after hm]

end Alternate

/-- The casing of a run is ready. -/
theorem ready_installed {files : Files} {sources : List Source}
    (h : ∀ s ∈ sources, s.Accepted files) (stand : Stand) :
    Ready (installed files sources (Casing.new stand)) where
  toPrepared := (Prepared.new stand).installed h
  reached := by
    rw [stand_installed]
    exact exists_installed files sources (Rig.new stand)

/-! ## Runs -/

section Runs

variable {files : Files} {o : Options} (h : ∀ s ∈ o.sources, s.Accepted files)
  (hv : o.verbose = false) (hcheck : o.checkOnly = false) (hs : o.savePath.isEmpty = false)

include h hv hcheck hs

/-- A run from the start. -/
theorem runWith_eq (hl : o.loadPath.isEmpty = true) : runWith files o =
    .saving o.savePath
      ((installed files o.sources (Casing.new .first)).enable.after o.ticks).save
      (casingText ((installed files o.sources (Casing.new .first)).enable.after o.ticks)
        o.ticks) := by
  have hc := ready_installed h .first
  have hrun := operate_after (k := 0) hc.steady.step_after rfl hv hs
  rw [Nat.zero_add] at hrun
  simp only [runWith, installAll_eq h, hc.anyRefused_eq, hcheck, resume, hl, if_true,
    Bool.false_eq_true, if_false]
  exact hrun

/-- A run from a snapshot that was written after `k` ticks, by a run with programs on the same
faces. -/
theorem runWith_resumed {c : Casing} {k : Nat}
    (hc : Alternate c (installed files o.sources (Casing.new .first)))
    (hl : o.loadPath.isEmpty = false) (hload : files o.loadPath = some (c.enable.after k).save) :
    runWith files o = .saving o.savePath (c.enable.after (k + o.ticks)).save
      (casingText (c.enable.after (k + o.ticks)) o.ticks) := by
  have hrun := operate_after hc.ready.steady.step_after (hc.enable_restored k) hv hs
  simp only [runWith, installAll_eq h, hc.ready'.anyRefused_eq, hcheck, resume, hl, loadFrom, hload,
    hc.load_save k, hc.anyRefused_restored, Bool.false_eq_true, if_false]
  exact hrun

omit hv hs in
/-- A run from a snapshot that is refused. -/
theorem runWith_refused {bytes : Bytes} {e : SnapshotError} (hl : o.loadPath.isEmpty = false)
    (hfile : files o.loadPath = some bytes)
    (he : Outcome.result (Casing.load bytes (installed files o.sources (Casing.new .first))) =
      .error e) : runWith files o = stopped (.snapshot e) [] [] := by
  have hc := ready_installed h .first
  have hload : loadFrom files o.loadPath (installed files o.sources (Casing.new .first)) =
      .error (.snapshot e) := by
    simp only [loadFrom, hfile]
    cases hr : Casing.load bytes (installed files o.sources (Casing.new .first)) with
    | ok u c =>
      rw [hr] at he
      cases he
    | error e' c =>
      rw [hr] at he
      cases he
      rfl
  simp only [runWith, installAll_eq h, hc.anyRefused_eq, hcheck, resume, hl, hload,
    Bool.false_eq_true, if_false]

end Runs

/-! ## Runs on a file system -/

namespace FileSystem

variable {σ : Type} {fs : FileSystem σ} {d : σ} {args : List Bytes} {sources : List Source}
  {n m : Nat} {s r : Bytes}

/-- The file can be written. -/
def Writes (fs : FileSystem σ) (d : σ) (path content : Bytes) : Prop :=
  (fs.write path content d).1 = .complete

/-- Every file that was written can be read, and has not changed. -/
def ReadsBack (fs : FileSystem σ) : Prop :=
  ∀ d path content, fs.Writes d path content →
    fs.file? (fs.write path content d).2 path = some content

theorem run_of_closed {o : Options} {report : Report} (ho : Options.ofArgs args = .ok o)
    (h : runWith (fs.file? d) o = .closed report) : fs.run d args = (report, d) := by
  simp only [FileSystem.run, Runner.run, ho, h]

theorem run_of_saving {o : Options} {content out : Bytes} (ho : Options.ofArgs args = .ok o)
    (h : runWith (fs.file? d) o = .saving r content out) (hr : fs.Writes d r content) :
    fs.run d args = (savingReport r out .complete, (fs.write r content d).2) := by
  unfold Writes at hr
  simp only [FileSystem.run, Runner.run, ho, h, hr]

theorem run_saving (hargs : Options.ofArgs args = .ok { sources })
    (hsources : ∀ x ∈ sources, x.Accepted (fs.file? d)) (hn : n ≤ maxTicks) (hr : r ≠ [])
    (hr₀ : 0 ∉ r) :
    let c := (installed (fs.file? d) sources (Casing.new .first)).enable.after n
    fs.Writes d r c.save → fs.run d (args ++ (ticking n ++ saving r)) =
      (savingReport r (casingText c n) .complete, (fs.write r c.save d).2) := by
  intro c
  exact run_of_saving (Options.ofArgs_saving hargs hn hr₀)
    (runWith_eq hsources rfl rfl (List.isEmpty_eq_false_iff.mpr hr) rfl)

theorem run_resuming {c : Casing} (hargs : Options.ofArgs args = .ok { sources })
    (hsources : ∀ x ∈ sources, x.Accepted (fs.file? d))
    (hc : Alternate c (installed (fs.file? d) sources (Casing.new .first))) (hm : m ≤ maxTicks)
    (hs : s ≠ []) (hr : r ≠ []) (hs₀ : 0 ∉ s) (hr₀ : 0 ∉ r)
    (hload : fs.file? d s = some (c.enable.after n).save)
    (hw : fs.Writes d r (c.enable.after (n + m)).save) :
    fs.run d (args ++ (ticking m ++ (loading s ++ saving r))) =
      (savingReport r (casingText (c.enable.after (n + m)) m) .complete,
        (fs.write r (c.enable.after (n + m)).save d).2) :=
  run_of_saving (Options.ofArgs_resuming hargs hm hs₀ hr₀)
    (runWith_resumed hsources rfl rfl (List.isEmpty_eq_false_iff.mpr hr) hc
      (List.isEmpty_eq_false_iff.mpr hs) hload) hw

/-- Stopping and going on is not seen, wherever files that were written can be read. A run for `n`
ticks that writes a snapshot, and one for `m` ticks that starts from it and has programs on the same
faces, end like a single run for `n + m` ticks: all of them succeed if their snapshots can be
written, the last two write the same snapshot of the casing after `n + m` ticks, and they print the
same registers. The programs that the second run is given do not matter. -/
theorem run_resumed (fs : FileSystem σ) (hfs : fs.ReadsBack) (d : σ) (args args' : List Bytes)
    (sources sources' : List Source) (n m : Nat) (s r : Bytes)
    (hargs : Options.ofArgs args = .ok { sources })
    (hargs' : Options.ofArgs args' = .ok { sources := sources' })
    (hfaces : ∀ f, f ∈ sources'.map Source.face ↔ f ∈ sources.map Source.face)
    (hsources : ∀ x ∈ sources, x.Accepted (fs.file? d))
    (hshort : ∀ x ∈ sources, x.Short (fs.file? d))
    (hsources' : ∀ x ∈ sources',
      x.Accepted (fs.file? (fs.run d (args ++ (ticking n ++ saving s))).2))
    (hs : s ≠ []) (hr : r ≠ []) (hs₀ : 0 ∉ s) (hr₀ : 0 ∉ r) (hticks : n + m < maxTicks) :
    let first := fs.run d (args ++ (ticking n ++ saving s))
    let second := fs.run first.2 (args' ++ (ticking m ++ (loading s ++ saving r)))
    let single := fs.run d (args ++ (ticking (n + m) ++ saving r))
    ∃ c, (installAll (fs.file? d) (Casing.new .first) sources).2 = .ok c ∧
      (fs.Writes d s (c.enable.after n).save →
        fs.Writes first.2 r (c.enable.after (n + m)).save →
        fs.Writes d r (c.enable.after (n + m)).save →
        first.1.exit = 0 ∧
        second.1 =
          { exit := 0
            out := line (ascii "tick " ++ Text.natural m) ++ nodesText (c.enable.after (n + m)) ++
              line (ascii "OK: wrote snapshot to " ++ r) } ∧
        single.1 =
          { exit := 0
            out := line (ascii "tick " ++ Text.natural (n + m)) ++
              nodesText (c.enable.after (n + m)) ++ line (ascii "OK: wrote snapshot to " ++ r) } ∧
        fs.file? second.2 r = some (c.enable.after (n + m)).save ∧
        fs.file? single.2 r = some (c.enable.after (n + m)).save) := by
  intro first second single
  let c := installed (fs.file? d) sources (Casing.new .first)
  refine ⟨c, by rw [installAll_eq hsources], fun hw₁ hw₂ hw₃ => ?_⟩
  have hfirst : first = (savingReport s (casingText (c.enable.after n) n) .complete,
      (fs.write s (c.enable.after n).save d).2) :=
    run_saving hargs hsources (by omega) hs hs₀ hw₁
  have hsingle : single = (savingReport r (casingText (c.enable.after (n + m)) (n + m)) .complete,
      (fs.write r (c.enable.after (n + m)).save d).2) :=
    run_saving hargs hsources (by omega) hr hr₀ hw₃
  have hload : fs.file? first.2 s = some (c.enable.after n).save := by
    rw [hfirst]
    exact hfs d s _ hw₁
  have hempty : (Casing.new .first).Compact := fun f n hn => by simp [Casing.new] at hn
  have hc : Alternate c (installed (fs.file? first.2) sources' (Casing.new .first)) :=
    { ready := ready_installed hsources .first
      compact := compact_installed hshort hempty
      ready' := ready_installed hsources' .first
      stand := by rw [stand_installed, stand_installed]
      faces := fun f => by rw [isSome_installed, isSome_installed, hfaces] }
  have hsecond : second = (savingReport r (casingText (c.enable.after (n + m)) m) .complete,
      (fs.write r (c.enable.after (n + m)).save first.2).2) :=
    run_resuming hargs' hsources' hc (by omega) hs hr hs₀ hr₀ hload hw₂
  refine ⟨congrArg (fun x => x.1.exit) hfirst, congrArg Prod.fst hsecond,
    congrArg Prod.fst hsingle, ?_, ?_⟩
  · rw [hsecond]
    exact hfs first.2 r _ hw₂
  · rw [hsingle]
    exact hfs d r _ hw₃

end FileSystem

/-! ## Runs in a directory -/

namespace Directory

theorem writes_of_canWrite {path : Bytes} (h : canWrite path = true) (d : Directory)
    (content : Bytes) : fileSystem.Writes d path content := by
  simp only [FileSystem.Writes, fileSystem, h, if_true]

theorem readsBack_fileSystem : fileSystem.ReadsBack := by
  intro d path content h
  cases hw : canWrite path with
  | true =>
    simp only [fileSystem, hw, if_true]
    exact file?_write_self path content d
  | false => simp [FileSystem.Writes, fileSystem, hw] at h

/-- The programs of two nodes, of which one hands a word to the other. -/
def relay : Directory :=
  [(ascii "a", ascii "MOV 5, RIGHT"), (ascii "b", ascii "MOV LEFT, ACC")]

theorem exists_relay {files : Files} {x : Source} (h : files x.path ∈ relay.map (some ·.2)) :
    ∃ source ∈ relay.map Prod.snd, files x.path = some source := by
  obtain ⟨y, hy, hx⟩ := List.mem_map.mp h
  exact ⟨y.2, List.mem_map_of_mem hy, hx.symm⟩

theorem accepted_relay {files : Files} {x : Source} (h : files x.path ∈ relay.map (some ·.2)) :
    x.Accepted files := by
  have hok : ∀ text ∈ relay.map Prod.snd, (Assembler.assemble text).isOk = true := by
    decide +kernel
  obtain ⟨source, hs, hx⟩ := exists_relay h
  exact ⟨source, hx, hok source hs⟩

theorem short_relay {files : Files} {x : Source} (h : files x.path ∈ relay.map (some ·.2)) :
    x.Short files := by
  have hshort : ∀ text ∈ relay.map Prod.snd, text.length + 15 < UInt32.size := by
    decide +kernel
  obtain ⟨source, hs, hx⟩ := exists_relay h
  intro text ht
  cases hx.symm.trans ht
  exact hshort source hs

/-- The run stops while the word is under way. The run that goes on has the programs the other way
round, and comes to the same end. -/
theorem run_resumed_relay :
    let first := fileSystem.run relay ([ascii "z_neg=a", ascii "x_neg=b"] ++
      (ticking 1 ++ saving (ascii "s")))
    let second := fileSystem.run first.2 ([ascii "x_neg=a", ascii "z_neg=b"] ++
      (ticking 2 ++ (loading (ascii "s") ++ saving (ascii "r"))))
    let single := fileSystem.run relay ([ascii "z_neg=a", ascii "x_neg=b"] ++
      (ticking (1 + 2) ++ saving (ascii "r")))
    first.1.exit = 0 ∧ second.1.exit = 0 ∧ single.1.exit = 0 ∧
      fileSystem.file? second.2 (ascii "r") = fileSystem.file? single.2 (ascii "r") := by
  have hs : canWrite (ascii "s") = true := by decide
  have hr : canWrite (ascii "r") = true := by decide
  obtain ⟨c, -, h⟩ := FileSystem.run_resumed fileSystem readsBack_fileSystem relay
    [ascii "z_neg=a", ascii "x_neg=b"] [ascii "x_neg=a", ascii "z_neg=b"]
    [⟨.zNeg, ascii "a"⟩, ⟨.xNeg, ascii "b"⟩] [⟨.xNeg, ascii "a"⟩, ⟨.zNeg, ascii "b"⟩]
    1 2 (ascii "s") (ascii "r") rfl rfl (fun f => by cases f <;> decide)
    (fun x hx => accepted_relay (by revert x; decide +kernel))
    (fun x hx => short_relay (by revert x; decide +kernel))
    (fun x hx => accepted_relay (by revert x; decide +kernel))
    (by decide) (by decide) (by decide +kernel) (by decide +kernel) (by decide)
  obtain ⟨h₁, h₂, h₃, h₄, h₅⟩ := h (writes_of_canWrite hs _ _) (writes_of_canWrite hr _ _)
    (writes_of_canWrite hr _ _)
  refine ⟨h₁, ?_, ?_, h₄.trans h₅.symm⟩
  · rw [h₂]
  · rw [h₃]

/-- Line feeds are an empty program. -/
theorem accepted_feeds (k : Nat) : Accepted (List.replicate k 10) := by
  have hlines : Text.lines (List.replicate k 10) = Text.lines [] := Text.lines_append_feeds [] k
  rw [Accepted, Assembler.assemble, Assembler.sourceLines, hlines]
  rfl

/-- One program, from the file `a`. -/
def lone : List Bytes := [ascii "y_neg=a"]

theorem ofArgs_lone : Options.ofArgs lone = .ok { sources := [⟨.yNeg, ascii "a"⟩] } := rfl

section Lone

variable {d : Directory} {source : Bytes} (ha : Accepted source)
  (hd : d.file? (ascii "a") = some source)

include hd

theorem slots_lone : (installed d.file? [⟨.yNeg, ascii "a"⟩] (Casing.new .first)).slots.get .yNeg =
    some (.node (Node.ofSource source)) := by
  show (install (Casing.new .first) .yNeg ((d.file? (ascii "a")).getD [])).slots.get .yNeg = _
  rw [slots_install, if_pos rfl, hd]
  rfl

include ha

theorem accepted_lone : ∀ x ∈ [Source.mk .yNeg (ascii "a")], x.Accepted d.file? := by
  intro x hx
  cases List.mem_singleton.mp hx
  exact ⟨source, hd, ha⟩

/-- There is no way on from the snapshot of a program with 2^32 - 15 bytes. -/
theorem run_hollow (hsize : source.length + 15 = UInt32.size) :
    let first := fileSystem.run d (lone ++ (ticking 0 ++ saving (ascii "s")))
    let second := fileSystem.run first.2
      (lone ++ (ticking 0 ++ (loading (ascii "s") ++ saving (ascii "r"))))
    first.1.exit = 0 ∧ second.1.exit = 1 := by
  intro first second
  let c := installed d.file? [⟨.yNeg, ascii "a"⟩] (Casing.new .first)
  have hfirst : first = (savingReport (ascii "s") (casingText c.enable 0) .complete,
      d.write (ascii "s") c.enable.save) :=
    FileSystem.run_saving ofArgs_lone (accepted_lone ha hd) (by decide) (by decide) (by decide)
      (writes_of_canWrite (by decide) d _)
  have hd' : first.2.file? (ascii "a") = some source := by
    rw [hfirst]
    exact (file?_write_of_ne _ d (by decide)).trans hd
  have hfile : first.2.file? (ascii "s") = some c.enable.save := by
    rw [hfirst]
    exact file?_write_self _ _ d
  have hon := (ready_installed (accepted_lone ha hd) .first).slots_enable (slots_lone hd)
  let o : Options :=
    { sources := [⟨.yNeg, ascii "a"⟩], ticks := 0, savePath := ascii "r", loadPath := ascii "s" }
  have hargs : Options.ofArgs (lone ++ (ticking 0 ++ (loading (ascii "s") ++ saving (ascii "r")))) =
      .ok o := Options.ofArgs_resuming ofArgs_lone (by decide) (by decide) (by decide)
  have hrun : runWith first.2.file? o = stopped (.snapshot (.truncated 0)) [] [] :=
    runWith_refused (accepted_lone ha hd') rfl rfl hfile
      (Casing.load_hollow hon hsize (slots_lone hd'))
  have hsecond : second = (_, first.2) := FileSystem.run_of_closed hargs hrun
  rw [hsecond, hfirst]
  exact ⟨rfl, rfl⟩

end Lone

/-- A snapshot after 2^63 ticks cannot be asked for. There is no way on from the snapshot of a
program that is too long, nor if a snapshot cannot be written or goes where a program is. And
without a name no snapshot is written, so that the next run starts again. -/
theorem run_not_resumed :
    (fileSystem.run relay
      ([ascii "z_neg=a"] ++ (ticking 9223372036854775808 ++ saving (ascii "s")))).1.exit = 2 ∧
    (let d : Directory := [(ascii "a", List.replicate 4294967281 10)]
     let first := fileSystem.run d (lone ++ (ticking 0 ++ saving (ascii "s")))
     let second := fileSystem.run first.2
       (lone ++ (ticking 0 ++ (loading (ascii "s") ++ saving (ascii "r"))))
     Accepted (List.replicate 4294967281 10) ∧ first.1.exit = 0 ∧ second.1.exit = 1) ∧
    (fileSystem.run relay (lone ++ (ticking 0 ++ saving (ascii ".")))).1.exit = 1 ∧
    (let first := fileSystem.run relay (lone ++ (ticking 0 ++ saving (ascii "a")))
     let second := fileSystem.run first.2
       (lone ++ (ticking 0 ++ (loading (ascii "a") ++ saving (ascii "r"))))
     first.1.exit = 0 ∧ second.1.exit = 1) ∧
    let first := fileSystem.run relay (lone ++ (ticking 1 ++ saving []))
    let second := fileSystem.run first.2 (lone ++ (ticking 0 ++ (loading [] ++ saving (ascii "r"))))
    let single := fileSystem.run relay (lone ++ (ticking (1 + 0) ++ saving (ascii "r")))
    fileSystem.file? second.2 (ascii "r") ≠ fileSystem.file? single.2 (ascii "r") := by
  have hlength : (List.replicate 4294967281 (10 : UInt8)).length + 15 = UInt32.size := by
    rw [List.length_replicate]
  refine ⟨by decide +kernel, ⟨accepted_feeds _, ?_⟩, by decide +kernel, by decide +kernel,
    by decide +kernel⟩
  exact run_hollow (accepted_feeds _) rfl hlength

end Directory

end Runner

end NodeCube
