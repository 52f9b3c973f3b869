import Mathlib.Data.List.Induction
import Mathlib.Data.List.Nodup
import NodeCube.Proofs.Runner.Resume

/-!
# Groups of arguments

Arguments come in groups: an option with its value, or an argument that stands alone. What groups
ask for can be told without reading them in turn (`asked`), and reading them comes to just that if
each can be read and no face is given twice (`Options.read_groups`). All of this is the same in
every order of the groups but for the order of the sources. The casing that a run sets up does not
depend on that (`installed_perm`), and so a run shows the order in its messages only
(`mute_run_perm`).
-/

namespace NodeCube.Runner

/-! ## Groups -/

/-- The file with the program of a face, as an argument gives it. -/
def Source.ofArg? (arg : Bytes) : Option Source :=
  (Text.cut '='.toUInt8 arg).bind fun (name, path) => (Face.ofName? name).map (⟨·, path⟩)

/-- Arguments that belong together; none of them asks for help. Each ends at its first NUL byte. -/
inductive Group where
  | switch (arg : Bytes) (s : Switch) (name : Switch.ofName? (Text.untilNul arg) = some s)
    (noHelp : s ≠ .help)
  | setting (arg value : Bytes) (s : Setting)
    (name : Setting.ofName? (Text.untilNul arg) = some s)
  | single (arg : Bytes) (noSwitch : Switch.ofName? (Text.untilNul arg) = none)
    (noSetting : Setting.ofName? (Text.untilNul arg) = none)

namespace Group

def args : Group → List Bytes
  | .switch arg _ _ _ => [arg]
  | .setting arg value _ _ => [arg, value]
  | .single arg _ _ => [arg]

/-- Whether the group is a given switch. -/
def turnsOn (s : Switch) : Group → Bool
  | .switch _ t _ _ => t == s
  | _ => false

/-- The value that the group gives to a setting. -/
def value? (s : Setting) : Group → Option Bytes
  | .setting _ value t _ => if t = s then some (Text.untilNul value) else none
  | _ => none

def source? : Group → Option Source
  | .single arg _ _ => Source.ofArg? (Text.untilNul arg)
  | _ => none

/-- The group can be read: its ticks are a number, and an argument that stands alone is a source. -/
def Sound : Group → Prop
  | .switch _ _ _ _ => True
  | .setting _ value s _ => s = .ticks → ticks? (Text.untilNul value) ≠ none
  | .single arg _ _ => Source.ofArg? (Text.untilNul arg) ≠ none

/-- Reads the group on top of some options. -/
def apply (o : Options) : Group → Except Refusal Options
  | .switch _ s _ _ => o.setSwitch s
  | .setting _ value s _ => o.setValue s (Text.untilNul value)
  | .single arg _ _ => o.addSource (Text.untilNul arg)

end Group

/-- The values that some groups give to a setting. -/
def given (s : Setting) (gs : List Group) : List Bytes := gs.filterMap (Group.value? s)

/-- What some groups ask for. The last value of a setting counts. -/
def asked (gs : List Group) : Options where
  sources := gs.filterMap Group.source?
  ticks := ((given .ticks gs).getLast?.bind ticks?).getD 100
  verbose := gs.any (Group.turnsOn .verbose)
  checkOnly := gs.any (Group.turnsOn .check)
  savePath := (given .save gs).getLast?.getD []
  loadPath := (given .load gs).getLast?.getD []

/-- Each group can be read, and no face is given twice. -/
structure Readable (gs : List Group) : Prop where
  sound : ∀ g ∈ gs, g.Sound
  nodup : ((asked gs).sources.map Source.face).Nodup

/-! ## Reading groups -/

/-- A refusal that is told by a message only. -/
def Refusal.Curt (e : Refusal) : Prop := e.report.exit = 2 ∧ e.report.out = []

/-- The name of a setting is not that of a switch. -/
theorem Switch.ofName?_of_setting {arg : Bytes} {s : Setting}
    (h : Setting.ofName? arg = some s) : Switch.ofName? arg = none := by
  unfold Setting.ofName? at h
  split at h
  · rename_i e
    rcases e with rfl | rfl <;> decide
  split at h
  · rename_i e
    rcases e with rfl | rfl <;> decide
  split at h
  · rename_i e
    rcases e with rfl | rfl <;> decide
  cases h

namespace Options

variable {o : Options} {gs : List Group} {g : Group}

theorem any_face_eq_true {sources : List Source} {f : Face} :
    sources.any (·.face == f) = true ↔ f ∈ sources.map Source.face := by
  simp [List.any_eq_true, List.mem_map]

theorem addSource_eq (o : Options) (arg : Bytes) : o.addSource arg =
    match Source.ofArg? arg with
    | none => .error (.unknownArgument arg)
    | some s =>
      if o.sources.any (·.face == s.face) then .error (.faceGivenTwice s.face)
      else .ok { o with sources := o.sources ++ [s] } := by
  unfold addSource Source.ofArg?
  cases Text.cut '='.toUInt8 arg with
  | none => rfl
  | some x =>
    obtain ⟨name, path⟩ := x
    simp only [Option.bind_some]
    cases Face.ofName? name <;> rfl

theorem read_group (o : Options) (g : Group) (rest : List Bytes) :
    o.read (g.args.map Text.untilNul ++ rest) = g.apply o >>= fun o => o.read rest := by
  cases g with
  | switch arg s name noHelp =>
    show o.read (Text.untilNul arg :: rest) = _
    rw [read.eq_def]
    simp only [name, Group.apply]
    cases o.setSwitch s <;> rfl
  | setting arg value s name =>
    show o.read (Text.untilNul arg :: Text.untilNul value :: rest) = _
    rw [read.eq_def]
    simp only [Switch.ofName?_of_setting name, name, Group.apply]
    cases o.setValue s (Text.untilNul value) <;> rfl
  | single arg noSwitch noSetting =>
    show o.read (Text.untilNul arg :: rest) = _
    rw [read.eq_def]
    simp only [noSwitch, noSetting, Group.apply]
    cases o.addSource (Text.untilNul arg) <;> rfl

/-- Groups are read one after another. -/
theorem read_flatMap (o : Options) (gs : List Group) :
    o.read ((gs.flatMap Group.args).map Text.untilNul) = gs.foldlM Group.apply o := by
  induction gs generalizing o with
  | nil => rfl
  | cons g gs ih =>
    rw [List.flatMap_cons, List.map_append, read_group, List.foldlM_cons]
    exact congrArg (g.apply o >>= ·) (funext ih)

/-- One more group. -/
theorem asked_concat (gs : List Group) (g : Group) : asked (gs ++ [g]) =
    { sources := (asked gs).sources ++ g.source?.toList
      ticks := (g.value? .ticks).elim (asked gs).ticks fun v => (ticks? v).getD 100
      verbose := (asked gs).verbose || g.turnsOn .verbose
      checkOnly := (asked gs).checkOnly || g.turnsOn .check
      savePath := (g.value? .save).getD (asked gs).savePath
      loadPath := (g.value? .load).getD (asked gs).loadPath } := by
  have hgiven : ∀ s, (given s (gs ++ [g])).getLast? = (g.value? s).or (given s gs).getLast? := by
    intro s
    rw [given, List.filterMap_append]
    cases hv : g.value? s <;> simp [hv, given]
  have hsource : [g].filterMap Group.source? = g.source?.toList := by
    cases hg : g.source? <;> simp [hg]
  simp only [asked, hgiven, List.filterMap_append, List.any_append, List.any_cons, List.any_nil,
    Bool.or_false, hsource]
  cases g.value? .ticks <;> cases g.value? .save <;> cases g.value? .load <;> rfl

theorem apply_asked (hg : g.Sound)
    (hf : ∀ s, g.source? = some s → s.face ∉ (asked gs).sources.map Source.face) :
    g.apply (asked gs) = .ok (asked (gs ++ [g])) := by
  rw [asked_concat]
  cases g with
  | switch arg s name noHelp =>
    cases s with
    | help => exact absurd rfl noHelp
    | verbose | check => simp [Group.apply, setSwitch, Group.source?, Group.value?, Group.turnsOn]
  | setting arg value s name =>
    cases s with
    | ticks =>
      obtain ⟨n, hn⟩ := Option.ne_none_iff_exists'.mp (hg rfl)
      simp [Group.apply, setValue, Group.source?, Group.value?, Group.turnsOn, hn]
    | save | load => simp [Group.apply, setValue, Group.source?, Group.value?, Group.turnsOn]
  | single arg noSwitch noSetting =>
    obtain ⟨s, hs⟩ := Option.ne_none_iff_exists'.mp hg
    have hfresh : (asked gs).sources.any (·.face == s.face) = false :=
      Bool.eq_false_iff.mpr (mt any_face_eq_true.mp (hf s hs))
    simp [Group.apply, addSource_eq, Group.source?, Group.value?, Group.turnsOn, hs, hfresh]

/-- A group that cannot be read, or gives a face again, is refused. -/
theorem apply_error
    (h : ¬ (g.Sound ∧ ∀ s, g.source? = some s → s.face ∉ o.sources.map Source.face)) :
    ∃ e : Refusal, g.apply o = .error e ∧ e.Curt := by
  cases g with
  | switch arg s name noHelp => exact absurd ⟨trivial, fun _ hs => by cases hs⟩ h
  | setting arg value s name =>
    cases s with
    | ticks =>
      cases hn : ticks? (Text.untilNul value) with
      | none =>
        refine ⟨.invalidTicks (Text.untilNul value), ?_, rfl, rfl⟩
        simp only [Group.apply, setValue, hn]
      | some n => exact absurd ⟨fun _ => by simp [hn], fun _ hs => by cases hs⟩ h
    | save | load => exact absurd ⟨fun hs => (by cases hs), fun _ hs => by cases hs⟩ h
  | single arg noSwitch noSetting =>
    rw [Group.apply, addSource_eq]
    cases hs : Source.ofArg? (Text.untilNul arg) with
    | none => exact ⟨_, rfl, rfl, rfl⟩
    | some s =>
      by_cases hface : o.sources.any (·.face == s.face) = true
      · exact ⟨.faceGivenTwice s.face, by simp only [hface, if_true], rfl, rfl⟩
      · refine absurd ⟨by simp [Group.Sound, hs], fun t ht => ?_⟩ h
        cases hs.symm.trans ht
        exact mt any_face_eq_true.mpr hface

theorem readable_concat : Readable (gs ++ [g]) ↔ Readable gs ∧ g.Sound ∧
    ∀ s, g.source? = some s → s.face ∉ (asked gs).sources.map Source.face := by
  have hsources : ((asked (gs ++ [g])).sources.map Source.face).Nodup ↔
      ((asked gs).sources.map Source.face).Nodup ∧
        ∀ s, g.source? = some s → s.face ∉ (asked gs).sources.map Source.face := by
    rw [asked_concat, List.map_append]
    cases g.source? with
    | none => simp
    | some s => simp [List.nodup_append]
  constructor
  · intro h
    obtain ⟨hn, hf⟩ := hsources.mp h.nodup
    exact ⟨⟨fun x hx => h.sound x (List.mem_append_left _ hx), hn⟩, h.sound g (by simp), hf⟩
  · rintro ⟨h, hg, hf⟩
    refine ⟨fun x hx => ?_, hsources.mpr ⟨h.nodup, hf⟩⟩
    rcases List.mem_append.mp hx with hx | hx
    · exact h.sound x hx
    · obtain rfl := List.mem_singleton.mp hx
      exact hg

/-- Reading groups gives what they ask for, or they are refused. -/
theorem read_groups (gs : List Group) :
    (Readable gs →
      ({} : Options).read ((gs.flatMap Group.args).map Text.untilNul) = .ok (asked gs)) ∧
    (¬ Readable gs → ∃ e : Refusal,
      ({} : Options).read ((gs.flatMap Group.args).map Text.untilNul) = .error e ∧ e.Curt) := by
  rw [read_flatMap]
  induction gs using List.reverseRecOn with
  | nil =>
    have hnil : Readable [] := ⟨fun _ hg => absurd hg List.not_mem_nil, List.nodup_nil⟩
    exact ⟨fun _ => rfl, fun h => absurd hnil h⟩
  | append_singleton gs g ih =>
    rw [readable_concat, List.foldlM_append]
    by_cases hgs : Readable gs
    · rw [ih.1 hgs]
      constructor
      · rintro ⟨-, hg, hf⟩
        show (g.apply (asked gs) >>= pure) = _
        rw [apply_asked hg hf]
        rfl
      · intro h
        obtain ⟨e, he, hcurt⟩ := apply_error (not_and.mp h hgs)
        refine ⟨e, ?_, hcurt⟩
        show (g.apply (asked gs) >>= pure) = _
        rw [he]
        rfl
    · obtain ⟨e, he, hcurt⟩ := ih.2 hgs
      rw [he]
      exact ⟨fun h => absurd h.1 hgs, fun _ => ⟨e, rfl, hcurt⟩⟩

end Options

/-! ## Groups in another order -/

section Perm

variable {gs gs' : List Group}

theorem sources_perm (hp : gs.Perm gs') : (asked gs).sources.Perm (asked gs').sources :=
  hp.filterMap _

theorem Readable.perm (h : Readable gs) (hp : gs.Perm gs') : Readable gs' where
  sound g hg := h.sound g (hp.mem_iff.mpr hg)
  nodup := ((sources_perm hp).map Source.face).nodup_iff.mp h.nodup

/-- A setting that is given at most once has one value in every order. -/
theorem given_perm {s : Setting} (hp : gs.Perm gs') (hs : (given s gs).length ≤ 1) :
    given s gs' = given s gs := by
  have hgiven : (given s gs).Perm (given s gs') := hp.filterMap _
  cases hl : given s gs with
  | nil =>
    rw [hl] at hgiven
    exact hgiven.nil_eq.symm
  | cons v l =>
    rw [hl] at hgiven hs
    obtain rfl : l = [] := List.eq_nil_of_length_eq_zero (by simpa using hs)
    exact (List.singleton_perm.mp hgiven).symm

/-- Only the sources can tell the order of the groups. -/
theorem asked_perm (hp : gs.Perm gs') (hs : ∀ s, (given s gs).length ≤ 1) :
    asked gs' = { asked gs with sources := (asked gs').sources } := by
  have hany : ∀ s, gs'.any (Group.turnsOn s) = gs.any (Group.turnsOn s) := fun s => hp.symm.any_eq
  simp only [asked, given_perm hp (hs _), hany]

end Perm

/-! ## Setting up -/

section Installing

variable {files : Files} {sources : List Source}

/-- Whether every source can be read, and the casing then. -/
theorem installAll_of_isSome (h : ∀ s ∈ sources, (files s.path).isSome = true) (c : Casing) :
    (installAll files c sources).2 = .ok (installed files sources c) := by
  induction sources generalizing c with
  | nil => rfl
  | cons s rest ih =>
    obtain ⟨source, hs⟩ := Option.isSome_iff_exists.mp (h s List.mem_cons_self)
    simp only [installAll, hs, installed, List.foldl_cons, Option.getD_some]
    exact ih (fun x hx => h x (List.mem_cons_of_mem s hx)) _

theorem installAll_of_isNone {s : Source} (hs : s ∈ sources) (hf : files s.path = none)
    (c : Casing) : ∃ path, (installAll files c sources).2 = .error (.cannotOpenInput path) := by
  induction sources generalizing c with
  | nil => cases hs
  | cons t rest ih =>
    cases ht : files t.path with
    | none => exact ⟨t.path, by simp only [installAll, ht]⟩
    | some source =>
      have hrest : s ∈ rest := by
        rcases List.mem_cons.mp hs with rfl | hs
        · cases hf.symm.trans ht
        · exact hs
      simp only [installAll, ht]
      exact ih hrest _

/-- In a new casing nothing is left on the pipes by a program that is installed. -/
theorem install_of_fresh {c : Casing} (he : c.enabled = false) (hp : c.pipes = Pipes.fresh)
    (f : Face) (source : Bytes) : install c f source =
      { c with slots := c.slots.set f (some (.node (Node.ofSource source))) } := by
  have hports : (Pipes.fresh.ports f).cancelRequests.step = Pipes.fresh.ports f := by
    cases f <;> rfl
  rw [install, Casing.exchange_eq]
  simp only [hp, hports, Pipes.withPorts_ports, Option.map_some, Casing.receive, he,
    Bool.false_eq_true, if_false]

/-- The slots with the programs of some files. -/
def filled (files : Files) (sources : List Source) (slots : PerFace (Option Device)) :
    PerFace (Option Device) :=
  sources.foldl
    (fun t s => t.set s.face (some (.node (Node.ofSource ((files s.path).getD []))))) slots

theorem installed_of_fresh {c : Casing} (he : c.enabled = false) (hp : c.pipes = Pipes.fresh) :
    installed files sources c = { c with slots := filled files sources c.slots } := by
  induction sources generalizing c with
  | nil => rfl
  | cons s rest ih =>
    have hc := install_of_fresh he hp s.face ((files s.path).getD [])
    rw [installed, List.foldl_cons, hc]
    exact ih he hp

/-- The order of the sources does not matter, as no face has two. -/
theorem installed_perm {sources' : List Source} (hp : sources.Perm sources')
    (hn : (sources.map Source.face).Nodup) (stand : Stand) :
    installed files sources (Casing.new stand) = installed files sources' (Casing.new stand) := by
  rw [installed_of_fresh rfl rfl, installed_of_fresh rfl rfl]
  have hfilled : filled files sources (Casing.new stand).slots =
      filled files sources' (Casing.new stand).slots := by
    refine hp.foldl_eq' (fun s hs t ht z => ?_) _
    by_cases hf : s.face = t.face
    · rw [List.inj_on_of_nodup_map hn hs ht hf]
    · exact PerFace.set_comm z hf _ _
  rw [hfilled]

end Installing

/-! ## Runs -/

/-- An ending without its messages. -/
def Ending.mute : Ending → Ending
  | .closed report => .closed { report with err := [] }
  | .saving path content out => .saving path content out

section Runs

variable {files : Files} {o : Options} {sources : List Source}

theorem anyRefused_perm (hp : o.sources.Perm sources) (c : Casing) :
    anyRefused c (sources.map Source.face) = anyRefused c (o.sources.map Source.face) :=
  (hp.symm.map Source.face).any_eq

theorem mute_resume_perm (hp : o.sources.Perm sources) (c : Casing) :
    (resume files { o with sources } c).mute = (resume files o c).mute := by
  unfold resume
  dsimp only
  split
  · rfl
  · cases loadFrom files o.loadPath c with
    | error stop => rfl
    | ok c' =>
      simp only [anyRefused_perm hp]
      split <;> rfl

/-- A run without its messages, by the casing that is set up. -/
theorem mute_runWith (files : Files) (o : Options) : (runWith files o).mute =
    match (installAll files (Casing.new .first) o.sources).2 with
    | .error stop => .closed { exit := stop.exit }
    | .ok c =>
      if anyRefused c (o.sources.map Source.face) then .closed { exit := 1 }
      else if o.checkOnly then
        .closed { exit := 0,
                  out := line (ascii "OK: " ++ Text.natural o.sources.length ++
                    ascii " program(s) compiled") }
      else (resume files o c).mute := by
  unfold runWith
  obtain ⟨err, result⟩ := installAll files (Casing.new .first) o.sources
  cases result with
  | error stop => rfl
  | ok c =>
    dsimp only
    split
    · rfl
    · split <;> rfl

/-- A run with its sources in another order differs in its messages only. -/
theorem mute_runWith_perm (hp : o.sources.Perm sources) (hn : (o.sources.map Source.face).Nodup) :
    (runWith files { o with sources }).mute = (runWith files o).mute := by
  rw [mute_runWith, mute_runWith]
  dsimp only
  by_cases h : ∀ s ∈ o.sources, (files s.path).isSome = true
  · have h' : ∀ s ∈ sources, (files s.path).isSome = true := fun s hs => h s (hp.mem_iff.mpr hs)
    rw [installAll_of_isSome h, installAll_of_isSome h', installed_perm hp hn]
    simp only [anyRefused_perm hp, hp.length_eq, mute_resume_perm hp]
  · obtain ⟨s, hs, hf⟩ : ∃ s ∈ o.sources, files s.path = none := by simpa using h
    obtain ⟨path, he⟩ := installAll_of_isNone hs hf (Casing.new .first)
    obtain ⟨path', he'⟩ := installAll_of_isNone (hp.mem_iff.mp hs) hf (Casing.new .first)
    rw [he, he']
    rfl

theorem mute_closed_of_curt {e : Refusal} (h : e.Curt) :
    (Ending.closed e.report).mute = .closed { exit := 2 } := by
  obtain ⟨hexit, hout⟩ := h
  simp only [Ending.mute, hexit, hout]

/-- A run whose groups of arguments stand in another order differs in its messages only. -/
theorem mute_run_perm {gs gs' : List Group} (hp : gs.Perm gs')
    (hs : ∀ s, (given s gs).length ≤ 1) :
    (run files (gs'.flatMap Group.args)).mute = (run files (gs.flatMap Group.args)).mute := by
  unfold run Options.ofArgs
  by_cases h : Readable gs
  · have hl := sources_perm hp
    rw [(Options.read_groups gs).1 h, (Options.read_groups gs').1 (h.perm hp), asked_perm hp hs]
    generalize (asked gs').sources = sources at hl
    have hempty : sources.isEmpty = (asked gs).sources.isEmpty := hl.symm.isEmpty_eq
    cases he : (asked gs).sources.isEmpty with
    | true => simp only [hempty, he, if_true]
    | false =>
      simp only [hempty, he, Bool.false_eq_true, if_false]
      exact mute_runWith_perm hl h.nodup
  · obtain ⟨e, he, hcurt⟩ := (Options.read_groups gs).2 h
    obtain ⟨e', he', hcurt'⟩ := (Options.read_groups gs').2 fun h' => h (h'.perm hp.symm)
    rw [he, he']
    exact (mute_closed_of_curt hcurt').trans (mute_closed_of_curt hcurt).symm

end Runs

namespace FileSystem

variable {σ : Type} {fs : FileSystem σ} {d : σ}

/-- What a run leaves can be told from its ending without the messages. -/
theorem run_eq_of_mute {args args' : List Bytes}
    (h : (Runner.run (fs.file? d) args).mute = (Runner.run (fs.file? d) args').mute) :
    (fs.run d args).1.exit = (fs.run d args').1.exit ∧
      (fs.run d args).1.out = (fs.run d args').1.out ∧ (fs.run d args).2 = (fs.run d args').2 := by
  unfold FileSystem.run
  generalize Runner.run (fs.file? d) args = a at h
  generalize Runner.run (fs.file? d) args' = b at h
  cases a with
  | closed r =>
    cases b with
    | closed r' =>
      simp only [Ending.mute, Ending.closed.injEq, Report.mk.injEq, and_true] at h
      exact ⟨h.1, h.2, rfl⟩
    | saving path content out => cases h
  | saving path content out =>
    cases b with
    | closed r' => cases h
    | saving path' content' out' =>
      cases h
      exact ⟨rfl, rfl, rfl⟩

/-- The order of the groups does not matter. Where no group asks for help and each setting is given
at most once, a run with the groups in another order has the same exit code, prints the same and
leaves the same files, whether it comes to its end or is refused or stopped on the way, and however
its files are read and written. -/
theorem run_groups_perm (fs : FileSystem σ) (d : σ) (gs gs' : List Group) (hp : gs.Perm gs')
    (hs : ∀ s, (given s gs).length ≤ 1) :
    (fs.run d (gs.flatMap Group.args)).1.exit = (fs.run d (gs'.flatMap Group.args)).1.exit ∧
      (fs.run d (gs.flatMap Group.args)).1.out = (fs.run d (gs'.flatMap Group.args)).1.out ∧
      (fs.run d (gs.flatMap Group.args)).2 = (fs.run d (gs'.flatMap Group.args)).2 :=
  run_eq_of_mute (mute_run_perm hp hs).symm

end FileSystem

namespace Directory

/-- Both kinds of spelling, and a snapshot that goes to a file called `-h`. -/
def mixed : List Group :=
  [.single (ascii "z_neg=a") (by decide) (by decide),
    .switch (ascii "--verbose") .verbose (by decide) (by decide),
    .setting (ascii "-s") (ascii "-h") .save (by decide),
    .single (ascii "x_neg=b") (by decide) (by decide),
    .setting (ascii "--ticks") (ascii "2") .ticks (by decide)]

theorem given_mixed (s : Setting) : (given s mixed).length ≤ 1 := by
  cases s <;> decide

/-- The other way round, the sources are installed in the other order, and the run prints the same
ticks and writes the same snapshot. -/
theorem run_groups_perm_mixed :
    mixed.Perm mixed.reverse ∧ (∀ s, (given s mixed).length ≤ 1) ∧
    (fileSystem.run relay (mixed.flatMap Group.args)).1.exit = 0 ∧
    (asked mixed.reverse).sources = (asked mixed).sources.reverse ∧
    (fileSystem.run relay (mixed.reverse.flatMap Group.args)).1.exit = 0 ∧
    (fileSystem.run relay (mixed.reverse.flatMap Group.args)).1.out =
      (fileSystem.run relay (mixed.flatMap Group.args)).1.out ∧
    (fileSystem.run relay (mixed.reverse.flatMap Group.args)).2 =
      (fileSystem.run relay (mixed.flatMap Group.args)).2 := by
  have hp : mixed.Perm mixed.reverse := mixed.reverse_perm.symm
  have hzero : (fileSystem.run relay (mixed.flatMap Group.args)).1.exit = 0 := by decide +kernel
  obtain ⟨hexit, hout, hfiles⟩ :=
    FileSystem.run_groups_perm fileSystem relay mixed mixed.reverse hp given_mixed
  exact ⟨hp, given_mixed, hzero, by decide +kernel, hexit.symm.trans hzero, hout.symm, hfiles.symm⟩

end Directory

end NodeCube.Runner
