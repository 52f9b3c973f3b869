import NodeCube.Proofs.Text.Lines

/-!
# Joining lines and finding them again

Lines can be joined by line feeds or by carriage returns with line feeds, each join in its own way,
and any number of line ends may follow the last line. `lines` finds the lines again, whatever was
chosen (`lines_undo_joining`), if none of them has a line feed or a carriage return at its end and
the last one is not empty.

* `map_dropReturn_ended`: a line with either line end, in front of any text;
* `map_dropReturn_joinedBy`: joined lines and the empty lines behind them, before the empty ones
  are dropped;
* `not_mem_of_mem_lines`, `getLast?_lines`: what the lines of every text look like.
-/

namespace NodeCube.Text

/-- What stands between two lines. -/
inductive LineEnd where
  | feed
  | returnFeed
  deriving DecidableEq, Repr

def LineEnd.text : LineEnd → Bytes
  | .feed => [10]
  | .returnFeed => [13, 10]

/-- The lines one after another, with the line end `ends i` behind the one at index `i` unless it
is the last. -/
def joinedBy (ends : Nat → LineEnd) : List Bytes → Bytes
  | [] => []
  | [line] => line
  | line :: next :: rest => line ++ (ends 0).text ++ joinedBy (fun i => ends (i + 1)) (next :: rest)

/-! ## Line ends -/

theorem dropReturn_append_return (line : Bytes) : dropReturn (line ++ [13]) = line := by
  simp [dropReturn]

theorem map_dropReturn_of_isLine {line : Bytes} (h : IsLine line) :
    (segments line).map dropReturn = [line] := by
  rw [segments_of_not_mem h.1, List.map_singleton, dropReturn, if_neg h.2]

/-- A line is cut off in front of its line end, and nothing is left of that. -/
theorem map_dropReturn_ended {line : Bytes} (h : IsLine line) (e : LineEnd) (rest : Bytes) :
    (segments (line ++ e.text ++ rest)).map dropReturn =
      line :: (segments rest).map dropReturn := by
  cases e with
  | feed =>
    show (segments (line ++ [10] ++ rest)).map dropReturn = _
    rw [List.append_assoc, List.singleton_append, segments_append_feed, List.map_append,
      map_dropReturn_of_isLine h, List.singleton_append]
  | returnFeed =>
    have hreturn : 10 ∉ line ++ [13] := by simp [h.1]
    have htext : line ++ LineEnd.returnFeed.text ++ rest = (line ++ [13]) ++ 10 :: rest := by
      simp [LineEnd.text]
    rw [htext, segments_append_feed, segments_of_not_mem hreturn, List.singleton_append,
      List.map_cons, dropReturn_append_return]

/-- Line ends behind the last line are so many empty lines. -/
theorem map_dropReturn_last {line : Bytes} (h : IsLine line) (final : List LineEnd) :
    (segments (line ++ final.flatMap LineEnd.text)).map dropReturn =
      line :: List.replicate final.length [] := by
  induction final generalizing line with
  | nil =>
    rw [List.flatMap_nil, List.append_nil]
    exact map_dropReturn_of_isLine h
  | cons e final ih =>
    have hempty : IsLine [] := by decide
    rw [List.flatMap_cons, ← List.append_assoc, map_dropReturn_ended h,
      ← List.nil_append (final.flatMap LineEnd.text), ih hempty]
    rfl

/-- What `lines` finds in joined lines before it drops the empty ones at the end. -/
theorem map_dropReturn_joinedBy {rows : List Bytes} (hne : rows ≠ [])
    (h : ∀ row ∈ rows, IsLine row) (ends : Nat → LineEnd) (final : List LineEnd) :
    (segments (joinedBy ends rows ++ final.flatMap LineEnd.text)).map dropReturn =
      rows ++ List.replicate final.length [] := by
  induction rows generalizing ends with
  | nil => exact absurd rfl hne
  | cons row rest ih =>
    have hrow : IsLine row := h row List.mem_cons_self
    cases rest with
    | nil => exact map_dropReturn_last hrow final
    | cons next rest =>
      have hrest := ih (by simp) (fun r hr => h r (List.mem_cons_of_mem _ hr))
        fun i => ends (i + 1)
      rw [joinedBy, List.append_assoc, map_dropReturn_ended hrow, hrest]
      rfl

/-! ## Lines that are left -/

theorem getLast?_dropEmptyTail (lines : List Bytes) :
    (dropEmptyTail lines).getLast? ≠ some [] := by
  intro h
  rw [dropEmptyTail, List.getLast?_reverse] at h
  have hhead := List.head?_dropWhile_not List.isEmpty lines.reverse
  rw [h] at hhead
  simp at hhead

theorem dropEmptyTail_of_getLast? {lines : List Bytes} (h : lines.getLast? ≠ some []) :
    dropEmptyTail lines = lines := by
  obtain ⟨n, hn⟩ := exists_eq_dropEmptyTail_append lines
  cases n with
  | zero =>
    rw [List.replicate_zero, List.append_nil] at hn
    exact hn.symm
  | succ n =>
    -- an empty line that was dropped would have been the last one
    rw [hn, List.replicate_succ', ← List.append_assoc, List.getLast?_append] at h
    exact absurd rfl h

theorem not_mem_of_mem_segments {s seg : Bytes} (h : seg ∈ segments s) : 10 ∉ seg := by
  induction s generalizing seg with
  | nil =>
    obtain rfl := List.mem_singleton.mp h
    exact List.not_mem_nil
  | cons b s ih =>
    rw [segments] at h
    split at h
    · rcases List.mem_cons.mp h with rfl | h
      · exact List.not_mem_nil
      · exact ih h
    · rename_i hb
      obtain ⟨first, others, hs⟩ := List.exists_cons_of_ne_nil (segments_ne_nil s)
      rw [hs] at h ih
      rcases List.mem_cons.mp h with rfl | h
      · simpa [Ne.symm hb] using ih List.mem_cons_self
      · exact ih (List.mem_cons_of_mem _ h)

theorem dropReturn_subset (line : Bytes) : dropReturn line ⊆ line := by
  unfold dropReturn
  split
  · exact List.dropLast_subset line
  · exact List.Subset.refl line

theorem not_mem_of_mem_lines {text line : Bytes} (h : line ∈ lines text) : 10 ∉ line := by
  obtain ⟨n, hn⟩ := exists_eq_dropEmptyTail_append ((segments text).map dropReturn)
  have hmem : line ∈ (segments text).map dropReturn := by
    rw [hn]
    exact List.mem_append_left _ h
  obtain ⟨seg, hseg, rfl⟩ := List.mem_map.mp hmem
  exact fun hfeed => not_mem_of_mem_segments hseg (dropReturn_subset seg hfeed)

theorem getLast?_lines (text : Bytes) : (lines text).getLast? ≠ some [] :=
  getLast?_dropEmptyTail _

/-- Joined lines are found again, whichever line end stands at each join and however many stand at
the end; and whatever the text, its lines have no line feed and the last one is not empty. -/
theorem lines_undo_joining :
    (∀ (ends : Nat → LineEnd) (rows : List Bytes) (final : List LineEnd),
      (∀ row ∈ rows, IsLine row) → rows.getLast? ≠ some [] →
      lines (joinedBy ends rows ++ final.flatMap LineEnd.text) = rows) ∧
    ∀ text : Bytes, (∀ line ∈ lines text, 10 ∉ line) ∧ (lines text).getLast? ≠ some [] := by
  refine ⟨fun ends rows final h hlast => ?_,
    fun text => ⟨fun _ => not_mem_of_mem_lines, getLast?_lines text⟩⟩
  have hdrop := dropEmptyTail_append_empty rows
  rw [dropEmptyTail_of_getLast? hlast] at hdrop
  unfold lines
  cases rows with
  | nil =>
    -- without lines the text is that of an empty line and line ends behind it
    have hempty : IsLine [] := by decide
    rw [joinedBy, map_dropReturn_last hempty, ← List.replicate_succ]
    exact hdrop (final.length + 1)
  | cons row rest =>
    rw [map_dropReturn_joinedBy (by simp) h]
    exact hdrop final.length

/-- Lines of which one is empty and one has a carriage return inside. -/
def mixedRows : List Bytes := [ascii "A:NOP", [], [13, 65], ascii "JMP A"]

theorem lines_undo_joining_mixed :
    (∀ row ∈ mixedRows, IsLine row) ∧ mixedRows.getLast? ≠ some [] ∧
    lines (ascii "A:NOP" ++ [13, 10] ++ [10] ++ [13, 65] ++ [13, 10] ++ ascii "JMP A" ++
      [13, 10, 10, 13, 10]) = mixedRows := by
  have hrows : ∀ row ∈ mixedRows, IsLine row := by decide
  have hlast : mixedRows.getLast? ≠ some [] := by decide
  exact ⟨hrows, hlast, lines_undo_joining.1 (fun i => if i = 1 then .feed else .returnFeed) mixedRows
    [.returnFeed, .feed, .returnFeed] hrows hlast⟩

end NodeCube.Text
