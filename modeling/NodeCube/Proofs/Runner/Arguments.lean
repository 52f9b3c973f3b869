import NodeCube.Proofs.Text.Numerals
import NodeCube.Runner.Options

/-!
# What arguments ask for

Arguments are read from left to right on top of what was read before (`Options.read_append`), so
options can be added at the end of a list of arguments that is complete
(`Options.ofArgs_append`). A number of ticks that is written out in base ten is read back
(`ticks?_natural`).
-/

namespace NodeCube

namespace Runner

/-- A number of ticks can be given by its decimal digits. -/
theorem ticks?_natural {n : Nat} (h : n ≤ maxTicks) : ticks? (Text.natural n) = some n := by
  obtain ⟨b, rest, hn⟩ := List.exists_cons_of_ne_nil (Text.natural_ne_nil n)
  have hdigit : Text.isDigit b = true := Text.isDigit_of_mem_natural (n := n) (by simp [hn])
  have htrim : Text.trimLeft (Text.natural n) = Text.natural n := by
    simp [Text.trimLeft, hn, Text.isBlank_of_isDigit hdigit]
  simp [ticks?, htrim, Text.splitSign_natural, Text.Radix.value?_natural, h]

namespace Options

/-! ## Reading on -/

variable {o o' : Options} {arg : Bytes}

theorem read_switch {s : Switch} (hs : Switch.ofName? arg = some s) (ho : o.setSwitch s = .ok o')
    (rest : List Bytes) : o.read (arg :: rest) = o'.read rest := by
  rw [read.eq_def]
  simp only [hs, ho]

theorem read_setting {s : Setting} {value : Bytes} (hn : Switch.ofName? arg = none)
    (hs : Setting.ofName? arg = some s) (ho : o.setValue s value = .ok o') (rest : List Bytes) :
    o.read (arg :: value :: rest) = o'.read rest := by
  rw [read.eq_def]
  simp only [hn, hs, ho]

theorem read_source (hn : Switch.ofName? arg = none) (hs : Setting.ofName? arg = none)
    (ho : o.addSource arg = .ok o') (rest : List Bytes) :
    o.read (arg :: rest) = o'.read rest := by
  rw [read.eq_def]
  simp only [hn, hs, ho]

/-- The name of an option is not the program of a face. -/
theorem ofName?_of_addSource (h : o.addSource arg = .ok o') : Setting.ofName? arg = none := by
  have hcut : Text.cut '='.toUInt8 arg ≠ none := by
    intro hc
    simp [addSource, hc] at h
  unfold Setting.ofName?
  split
  · rename_i e
    rcases e with rfl | rfl <;> exact absurd (by decide) hcut
  split
  · rename_i e
    rcases e with rfl | rfl <;> exact absurd (by decide) hcut
  split
  · rename_i e
    rcases e with rfl | rfl <;> exact absurd (by decide) hcut
  rfl

/-- What was read counts as read, whatever follows. -/
theorem read_append {args : List Bytes} (h : o.read args = .ok o') (rest : List Bytes) :
    o.read (args ++ rest) = o'.read rest := by
  fun_induction read o args with
  | case1 o =>
    cases h
    rfl
  | case2 | case4 | case6 => cases h
  | case3 o arg more s hs o₁ ho ih => exact (read_switch hs ho _).trans (ih h)
  | case5 o arg hn s value more hs o₁ ho ih => exact (read_setting hn hs ho _).trans (ih h)
  | case7 o arg hn more o₁ ho _ ih =>
    exact (read_source hn (ofName?_of_addSource ho) ho _).trans (ih h)

/-- Options that are added at the end of the arguments. -/
theorem ofArgs_append {args more : List Bytes} (h : ofArgs args = .ok o)
    (hm : o.read (more.map Text.untilNul) = .ok o') (hs : o'.sources = o.sources) :
    ofArgs (args ++ more) = .ok o' := by
  unfold ofArgs at h ⊢
  split at h
  · cases h
  · rename_i o₁ h₁
    split at h
    · cases h
    · rename_i hne
      cases h
      rw [List.map_append, read_append h₁, hm]
      simp only [hs, hne, Bool.false_eq_true, if_false]

/-! ## Ticks and snapshots -/

end Options

/-- Arguments for a number of ticks. -/
def ticking (n : Nat) : List Bytes := [ascii "-t", Text.natural n]

/-- Arguments for a snapshot that is to be written. -/
def saving (path : Bytes) : List Bytes := [ascii "-s", path]

/-- Arguments for a snapshot that is to be restored. -/
def loading (path : Bytes) : List Bytes := [ascii "-l", path]

theorem untilNul_eq_self {s : Bytes} (h : 0 ∉ s) : Text.untilNul s = s := by
  induction s with
  | nil => rfl
  | cons b s ih =>
    obtain ⟨hb, hs⟩ := not_or.mp (mt List.mem_cons.mpr h)
    have hkeep : (b != 0) = true := bne_iff_ne.mpr (Ne.symm hb)
    rw [Text.untilNul, List.takeWhile_cons, if_pos hkeep]
    exact congrArg (b :: ·) (ih hs)

theorem zero_not_mem_natural (n : Nat) : 0 ∉ Text.natural n := by
  intro h
  exact Text.ne_of_isDigit (Text.isDigit_of_mem_natural h) (by decide) rfl

namespace Options

variable {o : Options} {n : Nat} {path : Bytes}

theorem read_ticking (hn : n ≤ maxTicks) (rest : List Bytes) :
    o.read ((ticking n).map Text.untilNul ++ rest) = { o with ticks := n }.read rest := by
  have hname : Text.untilNul (ascii "-t") = ascii "-t" := by decide
  simp only [ticking, List.map_cons, List.map_nil, hname,
    untilNul_eq_self (zero_not_mem_natural n)]
  refine read_setting (s := .ticks) (by decide) (by decide) ?_ rest
  simp only [setValue, ticks?_natural hn]

theorem read_saving (hp : 0 ∉ path) (rest : List Bytes) :
    o.read ((saving path).map Text.untilNul ++ rest) = { o with savePath := path }.read rest := by
  have hname : Text.untilNul (ascii "-s") = ascii "-s" := by decide
  simp only [saving, List.map_cons, List.map_nil, hname, untilNul_eq_self hp]
  exact read_setting (s := .save) (by decide) (by decide) rfl rest

theorem read_loading (hp : 0 ∉ path) (rest : List Bytes) :
    o.read ((loading path).map Text.untilNul ++ rest) = { o with loadPath := path }.read rest := by
  have hname : Text.untilNul (ascii "-l") = ascii "-l" := by decide
  simp only [loading, List.map_cons, List.map_nil, hname, untilNul_eq_self hp]
  exact read_setting (s := .load) (by decide) (by decide) rfl rest

variable {args : List Bytes} {sources : List Source}

/-- The options for some ticks and a snapshot at the end. -/
theorem ofArgs_saving (h : ofArgs args = .ok { sources }) (hn : n ≤ maxTicks) (hp : 0 ∉ path) :
    ofArgs (args ++ (ticking n ++ saving path)) =
      .ok { sources, ticks := n, savePath := path } := by
  refine ofArgs_append h ?_ rfl
  rw [List.map_append, read_ticking hn]
  exact read_saving hp []

/-- The options for some ticks after one snapshot and before another one. -/
theorem ofArgs_resuming {start : Bytes} (h : ofArgs args = .ok { sources }) (hn : n ≤ maxTicks)
    (hs : 0 ∉ start) (hp : 0 ∉ path) :
    ofArgs (args ++ (ticking n ++ (loading start ++ saving path))) =
      .ok { sources, ticks := n, savePath := path, loadPath := start } := by
  refine ofArgs_append h ?_ rfl
  rw [List.map_append, List.map_append, read_ticking hn, read_loading hs]
  exact read_saving hp []

end Options

end Runner

end NodeCube
