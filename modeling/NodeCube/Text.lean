import NodeCube.Bytes

/-!
# Text

White space, letter case, trimming, lines and the first occurrence of a byte. `lines` is the rule
for source files: line feeds separate lines, one carriage return before a line feed or at the end
of the text is dropped, and so are the empty lines at the end.
-/

namespace NodeCube.Text

/-- White space: the space, and the bytes from horizontal tab to carriage return. -/
def isBlank (b : UInt8) : Bool := b == 32 || (9 ≤ b && b ≤ 13)

/-- The decimal digits. -/
def isDigit (b : UInt8) : Bool := 48 ≤ b && b ≤ 57

/-- The capital of a small letter; every other byte stands for itself. -/
def upperByte (b : UInt8) : UInt8 := if 97 ≤ b ∧ b ≤ 122 then b - 32 else b

def upper (s : Bytes) : Bytes := s.map upperByte

def trimLeft (s : Bytes) : Bytes := s.dropWhile isBlank

def trimRight (s : Bytes) : Bytes := (s.reverse.dropWhile isBlank).reverse

def trim (s : Bytes) : Bytes := trimLeft (trimRight s)

/-- The parts before and after the first `b`, if there is one. -/
def cut (b : UInt8) : Bytes → Option (Bytes × Bytes)
  | [] => none
  | x :: rest => if x = b then some ([], rest) else (cut b rest).map fun (l, r) => (x :: l, r)

/-- The text up to its first NUL byte. -/
def untilNul (s : Bytes) : Bytes := s.takeWhile (· != 0)

/-- The texts between line feeds: one more than there are line feeds. -/
def segments : Bytes → List Bytes
  | [] => [[]]
  | b :: rest => if b = 10 then [] :: segments rest else (segments rest).modifyHead (b :: ·)

/-- Drops one carriage return at the end. -/
def dropReturn (line : Bytes) : Bytes :=
  if line.getLast? = some 13 then line.dropLast else line

/-- Drops the empty lines at the end. -/
def dropEmptyTail (lines : List Bytes) : List Bytes :=
  (lines.reverse.dropWhile List.isEmpty).reverse

/-- The lines of a text. -/
def lines (text : Bytes) : List Bytes := dropEmptyTail ((segments text).map dropReturn)

/-- The part of a line before its comment, which starts at the first `#`. -/
def beforeComment (line : Bytes) : Bytes := line.takeWhile (· != '#'.toUInt8)

theorem segments_ne_nil (s : Bytes) : segments s ≠ [] := by
  induction s with
  | nil => simp [segments]
  | cons b rest ih =>
    unfold segments
    split
    · simp
    · cases h : segments rest with
      | nil => exact absurd h ih
      | cons x xs => simp

@[simp] theorem length_upper (s : Bytes) : (upper s).length = s.length := by simp [upper]

theorem eq_append_of_cut {b : UInt8} {s l r : Bytes} (h : cut b s = some (l, r)) :
    s = l ++ b :: r ∧ b ∉ l := by
  induction s generalizing l with
  | nil => simp [cut] at h
  | cons x rest ih =>
    unfold cut at h
    split at h
    · rename_i hx
      simp only [Option.some.injEq, Prod.mk.injEq] at h
      obtain ⟨rfl, rfl⟩ := h
      simp [hx]
    · rename_i hx
      obtain ⟨⟨l', r'⟩, hc, he⟩ := Option.map_eq_some_iff.1 h
      simp only [Prod.mk.injEq] at he
      obtain ⟨rfl, rfl⟩ := he
      obtain ⟨hs, hn⟩ := ih hc
      exact ⟨by rw [hs]; rfl, by simp [hn, Ne.symm hx]⟩

theorem cut_eq_none_iff {b : UInt8} {s : Bytes} : cut b s = none ↔ b ∉ s := by
  induction s with
  | nil => simp [cut]
  | cons x rest ih =>
    unfold cut
    split
    · rename_i hx; simp [hx]
    · rename_i hx; simp [ih, Ne.symm hx]

end NodeCube.Text
