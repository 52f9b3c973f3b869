import NodeCube.Instruction

/-!
# Programs

A program is a list of instructions with the labels that jumps go to, the source line of each
instruction, and the source lines themselves. Labels are kept sorted by name, one entry a name.
-/

namespace NodeCube

/-- Labels with the index of the instruction each stands for. -/
abbrev Labels := List (Bytes × Int)

namespace Labels

/-- The index that a label stands for. -/
def find? (name : Bytes) (labels : Labels) : Option Int := labels.lookup name

/-- Enters a label in its place, over an entry of the same name. -/
def insert (name : Bytes) (index : Int) : Labels → Labels
  | [] => [(name, index)]
  | (n, i) :: rest =>
    if name = n then (name, index) :: rest
    else if name < n then (name, index) :: (n, i) :: rest
    else (n, i) :: insert name index rest

def ofList (entries : List (Bytes × Int)) : Labels :=
  entries.foldl (fun labels (n, i) => labels.insert n i) []

@[simp] theorem find?_nil (name : Bytes) : find? name [] = none := rfl

@[simp] theorem find?_insert_self (name : Bytes) (index : Int) (labels : Labels) :
    (labels.insert name index).find? name = some index := by
  induction labels with
  | nil => simp [insert, find?]
  | cons e rest ih =>
    obtain ⟨n, i⟩ := e
    by_cases h : name = n
    · simp [insert, find?, h]
    · by_cases hl : name < n
      · simp [insert, find?, h, hl]
      · have hb : (name == n) = false := by simpa using h
        have ih' : List.lookup name (insert name index rest) = some index := ih
        simp [insert, find?, h, hl, List.lookup_cons, hb, ih']

theorem find?_insert_of_ne {name other : Bytes} (index : Int) (labels : Labels)
    (hne : other ≠ name) : (labels.insert name index).find? other = labels.find? other := by
  have hb : (other == name) = false := by simpa using hne
  induction labels with
  | nil => simp [insert, find?, List.lookup_cons, hb]
  | cons e rest ih =>
    obtain ⟨n, i⟩ := e
    by_cases h : name = n
    · subst h
      simp [insert, find?, List.lookup_cons, hb]
    · by_cases hl : name < n
      · simp [insert, find?, h, hl, List.lookup_cons, hb]
      · have ih' : List.lookup other (insert name index rest) = List.lookup other rest := ih
        simp [insert, find?, h, hl, List.lookup_cons, ih']

end Labels

/-- A program. A failed assembly leaves one with nothing but the source lines. -/
structure Program where
  instructions : List Instruction := []
  labels : Labels := []
  /-- The source line of each instruction, in the order of the instructions. -/
  lines : List Nat := []
  /-- The source lines, in capital letters. -/
  code : List Bytes := []
  deriving DecidableEq, Repr

namespace Program

/-- The source line of an instruction. -/
def lineOf? (p : Program) (index : Int) : Option Nat :=
  if index < 0 then none else p.lines[index.toNat]?

/-- Removes all that a program has. -/
def clear (_ : Program) : Program := {}

/-- The program that has only source lines. -/
def ofCode (code : List Bytes) : Program := { code }

end Program

end NodeCube
