import NodeCube.Text

/-!
# Faces

The six faces of the cube, and tables with one entry for each.
-/

namespace NodeCube

/-- One of the six faces of the cube. -/
inductive Face where
  | yNeg
  | yPos
  | zNeg
  | zPos
  | xNeg
  | xPos
  deriving DecidableEq, Repr

namespace Face

/-- The faces in the order in which a casing goes through them. -/
def all : List Face := [.yNeg, .yPos, .zNeg, .zPos, .xNeg, .xPos]

theorem mem_all (x : Face) : x ∈ all := by cases x <;> decide

/-- The place in `all`. -/
def index : Face → Nat
  | .yNeg => 0
  | .yPos => 1
  | .zNeg => 2
  | .zPos => 3
  | .xNeg => 4
  | .xPos => 5

def name : Face → Bytes
  | .yNeg => ascii "Y_NEG"
  | .yPos => ascii "Y_POS"
  | .zNeg => ascii "Z_NEG"
  | .zPos => ascii "Z_POS"
  | .xNeg => ascii "X_NEG"
  | .xPos => ascii "X_POS"

/-- Reads a face's name, in small or capital letters; the name ends at the first NUL byte. -/
def ofName? (s : Bytes) : Option Face := all.find? fun f => f.name == Text.upper (Text.untilNul s)

end Face

/-- A table with one entry for each face. -/
structure PerFace (α : Type) where
  yNeg : α
  yPos : α
  zNeg : α
  zPos : α
  xNeg : α
  xPos : α
  deriving DecidableEq, Repr

namespace PerFace

variable {α β : Type}

/-- The same entry everywhere. -/
def replicate (a : α) : PerFace α := ⟨a, a, a, a, a, a⟩

/-- The table of a function. -/
def ofFn (g : Face → α) : PerFace α := ⟨g .yNeg, g .yPos, g .zNeg, g .zPos, g .xNeg, g .xPos⟩

def get (t : PerFace α) : Face → α
  | .yNeg => t.yNeg
  | .yPos => t.yPos
  | .zNeg => t.zNeg
  | .zPos => t.zPos
  | .xNeg => t.xNeg
  | .xPos => t.xPos

def set (t : PerFace α) (f : Face) (a : α) : PerFace α :=
  match f with
  | .yNeg => { t with yNeg := a }
  | .yPos => { t with yPos := a }
  | .zNeg => { t with zNeg := a }
  | .zPos => { t with zPos := a }
  | .xNeg => { t with xNeg := a }
  | .xPos => { t with xPos := a }

def map (g : α → β) (t : PerFace α) : PerFace β := ofFn fun f => g (t.get f)

@[ext] theorem ext_get {s t : PerFace α} (h : ∀ f, s.get f = t.get f) : s = t := by
  cases s; cases t
  simp only [mk.injEq]
  exact ⟨h .yNeg, h .yPos, h .zNeg, h .zPos, h .xNeg, h .xPos⟩

@[simp] theorem get_replicate (a : α) (f : Face) : (replicate a).get f = a := by cases f <;> rfl

@[simp] theorem get_ofFn (g : Face → α) (f : Face) : (ofFn g).get f = g f := by cases f <;> rfl

@[simp] theorem get_map (g : α → β) (t : PerFace α) (f : Face) : (t.map g).get f = g (t.get f) := by
  simp [map]

@[simp] theorem get_set_self (t : PerFace α) (f : Face) (a : α) : (t.set f a).get f = a := by
  cases f <;> rfl

theorem get_set_of_ne (t : PerFace α) {f w : Face} (a : α) (h : w ≠ f) :
    (t.set f a).get w = t.get w := by
  cases f <;> cases w <;> first | rfl | exact absurd rfl h

theorem get_set (t : PerFace α) (f w : Face) (a : α) :
    (t.set f a).get w = if w = f then a else t.get w := by
  split
  · rename_i h; rw [h, get_set_self]
  · rename_i h; exact get_set_of_ne t a h

end PerFace

end NodeCube
