import NodeCube.Word.Literal

/-!
# Numerals are read back

The decimal text of a number is a row of digits whose value is that number
(`Text.Radix.value?_natural`), and the text of a word is a literal that denotes it
(`Word.ofLiteral?_text`). It has at most six bytes (`Word.length_text_le`).

A literal is given up as soon as its digits exceed the bound. Since their value only grows
(`Text.Radix.le_of_valueFrom?`), this refuses no more than a test at the end would
(`Word.ofLiteral?_eq`).
-/

namespace NodeCube

namespace Text

/-! ## Digits -/

section Digits

variable {b : UInt8} (h : isDigit b = true)
include h

theorem toNat_of_isDigit : 48 ≤ b.toNat ∧ b.toNat ≤ 57 := by
  simpa [isDigit, UInt8.le_iff_toNat_le] using h

theorem isBlank_of_isDigit : isBlank b = false := by
  have := toNat_of_isDigit h
  simp only [isBlank, Bool.or_eq_false_iff, beq_eq_false_iff_ne, Bool.and_eq_false_iff,
    decide_eq_false_iff_not, ← UInt8.toNat_inj, UInt8.le_iff_toNat_le, ne_eq]
  have h9 : (9 : UInt8).toNat = 9 := rfl
  have h13 : (13 : UInt8).toNat = 13 := rfl
  have h32 : (32 : UInt8).toNat = 32 := rfl
  omega

theorem ne_of_isDigit {c : UInt8} (hc : isDigit c = false) : b ≠ c := by
  rintro rfl
  rw [h] at hc
  cases hc

end Digits

/-! ## Decimal numbers -/

theorem toUInt8_digitChar {d : Nat} (h : d < 10) :
    (Nat.digitChar d).toUInt8 = UInt8.ofNat (48 + d) := by
  revert d
  decide

theorem natural_eq (n : Nat) :
    natural n = (if n < 10 then [] else natural (n / 10)) ++ [UInt8.ofNat (48 + n % 10)] := by
  unfold natural
  rw [Nat.toDigits_eq_if (by decide)]
  split
  · rename_i h
    rw [Nat.mod_eq_of_lt h, ← toUInt8_digitChar h]
    rfl
  · rw [List.map_append, ← toUInt8_digitChar (Nat.mod_lt n (by decide))]
    rfl

theorem isDigit_of_mem_natural {n : Nat} {b : UInt8} (h : b ∈ natural n) : isDigit b = true := by
  induction n using Nat.strongRecOn with
  | ind n ih =>
    rw [natural_eq] at h
    rcases List.mem_append.mp h with h | h
    · split at h
      · exact absurd h List.not_mem_nil
      · exact ih (n / 10) (by omega) h
    · have hall : ∀ d, d < 10 → isDigit (UInt8.ofNat (48 + d)) = true := by decide
      rw [List.mem_singleton.mp h]
      exact hall (n % 10) (Nat.mod_lt n (by decide))

theorem natural_ne_nil (n : Nat) : natural n ≠ [] := by
  rw [natural_eq]
  simp

/-- A number below ten times a power of ten has at most one digit more than the power has zeros. -/
theorem length_natural_le {n k : Nat} (h : n < 10 * Nat.pow 10 k) : (natural n).length ≤ k + 1 := by
  induction k generalizing n with
  | zero =>
    have hn : n < 10 := h
    rw [natural_eq, if_pos hn]
    exact Nat.le_refl 1
  | succ k ih =>
    have hpow : Nat.pow 10 (k + 1) = Nat.pow 10 k * 10 := rfl
    have hrest : (natural (n / 10)).length ≤ k + 1 := ih (by omega)
    rw [natural_eq, List.length_append, List.length_singleton]
    split
    · exact Nat.le_add_left 1 _
    · exact Nat.succ_le_succ hrest

/-- A digit is no sign. -/
theorem splitSign_of_isDigit {b : UInt8} (hb : isDigit b = true) (rest : Bytes) :
    splitSign (b :: rest) = (false, b :: rest) := by
  have hminus : b ≠ '-'.toUInt8 := ne_of_isDigit hb (by decide)
  have hplus : b ≠ '+'.toUInt8 := ne_of_isDigit hb (by decide)
  rw [splitSign, if_neg hminus, if_neg hplus]

theorem splitSign_natural (n : Nat) : splitSign (natural n) = (false, natural n) := by
  obtain ⟨b, rest, hn⟩ := List.exists_cons_of_ne_nil (natural_ne_nil n)
  have hb : isDigit b = true := isDigit_of_mem_natural (n := n) (by simp [hn])
  rw [hn, splitSign_of_isDigit hb]

namespace Radix

/-- The value of a row of digits only grows while it is read. -/
theorem le_of_valueFrom? {r : Radix} {n m : Nat} {s : Bytes} (h : r.valueFrom? n s = some m) :
    n ≤ m := by
  induction s generalizing n with
  | nil => exact Nat.le_of_eq (Option.some.inj h)
  | cons b s ih =>
    rw [valueFrom?] at h
    cases hd : r.digit? b with
    | none =>
      rw [hd] at h
      cases h
    | some d =>
      rw [hd] at h
      have hbase : n * 1 ≤ n * r.base := Nat.mul_le_mul_left n (by cases r <;> decide)
      have hrest : n * r.base + d ≤ m := ih h
      omega

/-- So it may be given up once it exceeds the limit. -/
theorem boundedFrom?_eq (r : Radix) {limit n : Nat} (h : n ≤ limit) (s : Bytes) :
    r.boundedFrom? limit n s = (r.valueFrom? n s).filter (· ≤ limit) := by
  induction s generalizing n with
  | nil => rw [boundedFrom?, valueFrom?, Option.filter_some, if_pos (decide_eq_true h)]
  | cons b s ih =>
    rw [boundedFrom?, valueFrom?]
    cases r.digit? b with
    | none => rfl
    | some d =>
      show (if limit < n * r.base + d then none else r.boundedFrom? limit (n * r.base + d) s) =
        (r.valueFrom? (n * r.base + d) s).filter (· ≤ limit)
      split
      · rename_i hover
        refine (Option.filter_eq_none_iff.mpr fun m hm hle => ?_).symm
        have hgrown : n * r.base + d ≤ m := le_of_valueFrom? hm
        have hfits : m ≤ limit := of_decide_eq_true hle
        omega
      · rename_i hfits
        exact ih (Nat.le_of_not_lt hfits)

theorem valueFrom?_append (r : Radix) (n : Nat) (s t : Bytes) : r.valueFrom? n (s ++ t) =
    (r.valueFrom? n s).bind fun m => r.valueFrom? m t := by
  induction s generalizing n with
  | nil => rfl
  | cons b s ih =>
    simp only [List.cons_append, valueFrom?]
    cases r.digit? b with
    | none => rfl
    | some d => exact ih _

theorem digit?_ofNat {d : Nat} (h : d < 10) : digit? .decimal (UInt8.ofNat (48 + d)) = some d := by
  revert d
  decide

theorem valueFrom?_natural (n : Nat) : valueFrom? .decimal 0 (natural n) = some n := by
  induction n using Nat.strongRecOn with
  | ind n ih =>
    have hd : n % 10 < 10 := Nat.mod_lt n (by decide)
    rw [natural_eq, valueFrom?_append]
    by_cases h : n < 10
    · rw [if_pos h]
      simp only [Option.bind_some, valueFrom?, digit?_ofNat hd, base, Option.some.injEq]
      omega
    · rw [if_neg h, ih (n / 10) (by omega)]
      simp only [Option.bind_some, valueFrom?, digit?_ofNat hd, base, Option.some.injEq]
      omega

theorem value?_natural (n : Nat) : value? .decimal (natural n) = some n := by
  rw [value?, if_neg (by simp [natural_ne_nil])]
  exact valueFrom?_natural n

/-- No row of decimal digits looks like a hexadecimal number. -/
theorem split_of_isDigit {digits : Bytes} (h : ∀ b ∈ digits, isDigit b = true) :
    split digits = (.decimal, digits) := by
  unfold split
  split
  · rename_i x rest
    have hx : isDigit x = true := h x (by simp)
    have hsmall : x ≠ 'x'.toUInt8 := ne_of_isDigit hx (by decide)
    have hcapital : x ≠ 'X'.toUInt8 := ne_of_isDigit hx (by decide)
    rw [if_neg (not_or.mpr ⟨hsmall, hcapital⟩)]
  · rfl

theorem split_natural (n : Nat) : split (natural n) = (.decimal, natural n) :=
  split_of_isDigit fun _ => isDigit_of_mem_natural

end Radix

end Text

/-! ## Words -/

namespace Word

/-- The integer a literal denotes, of whatever size. -/
def literalValue? (s : Bytes) : Option Int :=
  let (negative, unsigned) := Text.splitSign s
  let (radix, digits) := Text.Radix.split unsigned
  (radix.value? digits).map fun (n : Nat) => if negative then -(n : Int) else n

/-- It makes no difference that the digits are bounded before the sign counts. -/
theorem ofLiteral?_eq (s : Bytes) : ofLiteral? s =
    (literalValue? s).bind fun v => if -32768 ≤ v ∧ v ≤ 65535 then some (wrap v) else none := by
  unfold ofLiteral? literalValue?
  generalize Text.splitSign s = signed
  obtain ⟨negative, unsigned⟩ := signed
  dsimp only
  generalize Text.Radix.split unsigned = numeral
  obtain ⟨radix, digits⟩ := numeral
  dsimp only
  unfold Text.Radix.value?
  split
  · rfl
  · rw [Text.Radix.boundedFrom?_eq radix (Nat.zero_le _)]
    cases radix.valueFrom? 0 digits with
    | none => rfl
    | some n =>
      rw [Option.map_some, Option.bind_some]
      by_cases hn : n ≤ 65535
      · rw [Option.filter_some, if_pos (decide_eq_true hn)]
        have hv : (if negative then -(n : Int) else n) ≤ 65535 := by split <;> omega
        dsimp only
        generalize (if negative then -(n : Int) else n) = v at hv ⊢
        by_cases hlow : v < -32768
        · rw [if_pos hlow, if_neg (by omega)]
        · rw [if_neg hlow, if_pos ⟨by omega, hv⟩]
      · have hv : ¬ (-32768 ≤ (if negative then -(n : Int) else n) ∧
            (if negative then -(n : Int) else n) ≤ 65535) := by split <;> omega
        rw [Option.filter_some, if_neg (by simpa using hn), if_neg hv]

/-- The value of a literal whose sign is followed by a decimal number. -/
theorem literalValue?_of_splitSign {s : Bytes} {negative : Bool} {n : Nat}
    (h : Text.splitSign s = (negative, Text.natural n)) :
    literalValue? s = some (if negative then -(n : Int) else n) := by
  simp only [literalValue?, h, Text.Radix.split_natural]
  rw [Text.Radix.value?_natural]
  rfl

/-- The text of an integer denotes it. -/
theorem literalValue?_integer (i : Int) : literalValue? (Text.integer i) = some i := by
  unfold Text.integer
  split
  · rw [@literalValue?_of_splitSign _ true _ rfl, if_pos rfl]
    exact congrArg some (by omega)
  · rw [literalValue?_of_splitSign (Text.splitSign_natural _), if_neg Bool.false_ne_true]
    exact congrArg some (by omega)

theorem ofLiteral?_text (w : Word) : ofLiteral? w.text = some w := by
  have hlow := Int16.le_toInt w
  have hhigh := Int16.toInt_lt w
  have hrange : -32768 ≤ w.toInt ∧ w.toInt ≤ 65535 := by omega
  simp only [ofLiteral?_eq, text, literalValue?_integer, Option.bind_some, if_pos hrange, wrap,
    Int16.ofInt_toInt]

/-- The text of a word begins with a digit or a minus sign, and all its other bytes are digits. -/
theorem text_eq (w : Word) : ∃ n, n ≤ 32768 ∧
    (w.text = Text.natural n ∨ w.text = '-'.toUInt8 :: Text.natural n) := by
  have hlow := Int16.le_toInt w
  have hhigh := Int16.toInt_lt w
  refine ⟨w.toInt.natAbs, by omega, ?_⟩
  unfold text Text.integer
  split
  · exact .inr rfl
  · exact .inl rfl

theorem length_text_le (w : Word) : w.text.length ≤ 6 := by
  obtain ⟨n, hn, htext⟩ := text_eq w
  have hlen : (Text.natural n).length ≤ 5 :=
    Text.length_natural_le (Nat.lt_of_le_of_lt hn (by decide))
  rcases htext with htext | htext
  · rw [htext]
    omega
  · rw [htext, List.length_cons]
    omega

theorem looksLiteral_text (w : Word) : looksLiteral w.text = true := by
  obtain ⟨n, -, htext | htext⟩ := text_eq w
  · obtain ⟨b, rest, hn⟩ := List.exists_cons_of_ne_nil (Text.natural_ne_nil n)
    have hb : Text.isDigit b = true := Text.isDigit_of_mem_natural (n := n) (by simp [hn])
    rw [htext, hn, looksLiteral, hb]
    rfl
  · rw [htext]
    rfl

/-- The bytes of a word's text. -/
theorem digit_or_minus_of_mem_text {w : Word} {b : UInt8} (h : b ∈ w.text) :
    Text.isDigit b = true ∨ b = '-'.toUInt8 := by
  obtain ⟨n, -, htext | htext⟩ := text_eq w
  · exact .inl (Text.isDigit_of_mem_natural (htext ▸ h))
  · rcases List.mem_cons.mp (htext ▸ h) with h | h
    · exact .inr h
    · exact .inl (Text.isDigit_of_mem_natural h)

end Word

end NodeCube
