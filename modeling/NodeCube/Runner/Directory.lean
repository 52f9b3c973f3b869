import NodeCube.Runner.Run

/-!
# Directories

The file system of a single directory, given as a list of its files. Files lie directly in it: a
name that is empty, means a directory or has a slash in it cannot be written.
-/

namespace NodeCube.Runner

/-- Files with their names. -/
abbrev Directory := List (Bytes × Bytes)

namespace Directory

def file? (d : Directory) (name : Bytes) : Option Bytes := d.lookup name

def canWrite (name : Bytes) : Bool :=
  !name.isEmpty && !name.contains '/'.toUInt8 && name != ascii "." && name != ascii ".."

/-- Puts a file into the directory, over one of the same name. -/
def write (name content : Bytes) : Directory → Directory
  | [] => [(name, content)]
  | (n, c) :: rest =>
    if n = name then (name, content) :: rest else (n, c) :: write name content rest

/-- The directory as a file system. -/
def fileSystem : FileSystem Directory where
  file? := file?
  write path content d :=
    if canWrite path then (.complete, d.write path content) else (.cannotOpen, d)

/-- A run in the directory and what it leaves there. -/
def run (d : Directory) (args : List Bytes) : Report × Directory := fileSystem.run d args

/-- The files that are new or changed since `before`. -/
def changedSince (before d : Directory) : Directory :=
  d.filter fun (name, content) => before.file? name != some content

@[simp] theorem file?_write_self (name content : Bytes) (d : Directory) :
    (d.write name content).file? name = some content := by
  induction d with
  | nil => simp [write, file?]
  | cons e rest ih =>
    obtain ⟨n, c⟩ := e
    by_cases h : n = name
    · simp [write, file?, h]
    · have hb : (name == n) = false := by simpa using Ne.symm h
      have ih' : List.lookup name (write name content rest) = some content := ih
      simp [write, file?, h, List.lookup_cons, hb, ih']

theorem file?_write_of_ne {name other : Bytes} (content : Bytes) (d : Directory)
    (hne : other ≠ name) : (d.write name content).file? other = d.file? other := by
  induction d with
  | nil =>
    have hb : (other == name) = false := by simpa using hne
    simp [write, file?, List.lookup_cons, hb]
  | cons e rest ih =>
    obtain ⟨n, c⟩ := e
    have ih' : List.lookup other (write name content rest) = List.lookup other rest := ih
    by_cases h : n = name
    · have hb : (other == name) = false := by simpa using hne
      subst h
      simp [write, file?, List.lookup_cons, hb]
    · simp [write, file?, h, List.lookup_cons, ih']

end Directory

end NodeCube.Runner
