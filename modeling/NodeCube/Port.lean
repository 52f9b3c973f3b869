import NodeCube.Bytes

/-!
# Ports

The four ports of a node, and tables with one entry for each.
-/

namespace NodeCube

/-- One of a node's four ports. -/
inductive Port where
  | left
  | right
  | up
  | down
  deriving DecidableEq, Repr

namespace Port

/-- The ports in the order in which `ANY` tries them. -/
def all : List Port := [.left, .right, .up, .down]

theorem mem_all (x : Port) : x ∈ all := by cases x <;> decide

/-- The place in `all`. -/
def index : Port → Nat
  | .left => 0
  | .right => 1
  | .up => 2
  | .down => 3

def name : Port → Bytes
  | .left => ascii "LEFT"
  | .right => ascii "RIGHT"
  | .up => ascii "UP"
  | .down => ascii "DOWN"

def ofIndex? : Nat → Option Port
  | 0 => some .left
  | 1 => some .right
  | 2 => some .up
  | 3 => some .down
  | _ => none

@[simp] theorem ofIndex?_index (p : Port) : ofIndex? p.index = some p := by cases p <;> rfl

end Port

/-- A table with one entry for each port. -/
structure PerPort (α : Type) where
  left : α
  right : α
  up : α
  down : α
  deriving DecidableEq, Repr

namespace PerPort

variable {α β : Type}

/-- The same entry everywhere. -/
def replicate (a : α) : PerPort α := ⟨a, a, a, a⟩

/-- The table of a function. -/
def ofFn (g : Port → α) : PerPort α := ⟨g .left, g .right, g .up, g .down⟩

def get (t : PerPort α) : Port → α
  | .left => t.left
  | .right => t.right
  | .up => t.up
  | .down => t.down

def set (t : PerPort α) (p : Port) (a : α) : PerPort α :=
  match p with
  | .left => { t with left := a }
  | .right => { t with right := a }
  | .up => { t with up := a }
  | .down => { t with down := a }

def map (g : α → β) (t : PerPort α) : PerPort β := ofFn fun p => g (t.get p)

@[ext] theorem ext_get {s t : PerPort α} (h : ∀ p, s.get p = t.get p) : s = t := by
  cases s; cases t
  simp only [mk.injEq]
  exact ⟨h .left, h .right, h .up, h .down⟩

@[simp] theorem get_replicate (a : α) (p : Port) : (replicate a).get p = a := by cases p <;> rfl

@[simp] theorem get_ofFn (g : Port → α) (p : Port) : (ofFn g).get p = g p := by cases p <;> rfl

@[simp] theorem get_map (g : α → β) (t : PerPort α) (p : Port) : (t.map g).get p = g (t.get p) := by
  simp [map]

@[simp] theorem get_set_self (t : PerPort α) (p : Port) (a : α) : (t.set p a).get p = a := by
  cases p <;> rfl

theorem get_set_of_ne (t : PerPort α) {p w : Port} (a : α) (h : w ≠ p) :
    (t.set p a).get w = t.get w := by
  cases p <;> cases w <;> first | rfl | exact absurd rfl h

theorem get_set (t : PerPort α) (p w : Port) (a : α) :
    (t.set p a).get w = if w = p then a else t.get w := by
  split
  · rename_i h; rw [h, get_set_self]
  · rename_i h; exact get_set_of_ne t a h

end PerPort

end NodeCube
