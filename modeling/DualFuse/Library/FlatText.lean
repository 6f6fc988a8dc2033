import Mathlib.Tactic

/-! A text with one cursor, and the same text as lines with the cursor in one of them.
Edits and moves are defined on the text alone, where a line is what stands between two
breaks; the lemmas say what they are on the lines. -/

namespace DualFuse.Library

/-- A text, and the number of characters before the cursor. -/
structure FlatText (α : Type) where
  text : List α
  offset : ℕ
  deriving DecidableEq

namespace FlatText

variable {α : Type}

def insert (t : FlatText α) (a : α) : FlatText α :=
  ⟨t.text.take t.offset ++ a :: t.text.drop t.offset, t.offset + 1⟩

/-- The character before the cursor is deleted. -/
def delete (t : FlatText α) : FlatText α := ⟨t.text.take (t.offset - 1) ++ t.text.drop t.offset, t.offset - 1⟩

theorem delete_of_offset_eq_zero {t : FlatText α} (h : t.offset = 0) : t.delete = t := by
  obtain ⟨text, offset⟩ := t
  dsimp only at h
  subst h
  rfl

def left (t : FlatText α) : FlatText α := ⟨t.text, t.offset - 1⟩

def right (t : FlatText α) : FlatText α := ⟨t.text, min (t.offset + 1) t.text.length⟩

section Vertical
variable [DecidableEq α] (nl : α)

/-- The length of what comes before the next break. -/
def lineLength (l : List α) : ℕ := (l.takeWhile fun a => a ≠ nl).length

/-- The place of the cursor in its line. -/
def column (t : FlatText α) : ℕ := lineLength nl (t.text.take t.offset).reverse

/-- To the line above, and there not beyond its end. -/
def up (t : FlatText α) : FlatText α :=
  let start := t.offset - t.column nl
  if start = 0 then t
  else
    let above := lineLength nl (t.text.take (start - 1)).reverse
    ⟨t.text, start - 1 - above + min (t.column nl) above⟩

/-- To the line below, and there not beyond its end. -/
def down (t : FlatText α) : FlatText α :=
  let stop := t.offset + lineLength nl (t.text.drop t.offset)
  if t.text.length ≤ stop then t
  else ⟨t.text, stop + 1 + min (t.column nl) (lineLength nl (t.text.drop (stop + 1)))⟩

end Vertical

/-- The cursor stands between two parts of the text. -/
def between (before after : List α) : FlatText α := ⟨before ++ after, before.length⟩

section Between
variable {before after : List α} {a : α}

theorem insert_between : (between before after).insert a = between (before ++ [a]) after := by
  simp [insert, between]

theorem delete_between : (between (before ++ [a]) after).delete = between before after := by
  simp [delete, between]

end Between

/-! ### Lines -/

/-- The lines, each with a break after it. -/
def endLines (nl : α) (lines : List (List α)) : List α := lines.flatMap fun l => l ++ [nl]

/-- The lines, each with a break before it. -/
def startLines (nl : α) (lines : List (List α)) : List α := lines.flatMap fun l => nl :: l

/-- The lines joined by breaks, with the cursor at a column of one line. -/
def ofLines (nl : α) (lines : List (List α)) (line column : ℕ) : FlatText α :=
  ⟨[nl].intercalate lines, ((lines.take line).map fun l => l.length + 1).sum + column⟩

section Lines
variable {nl : α} {above below : List (List α)} {line : List α} {i : ℕ}

theorem endLines_append (l : List α) : endLines nl (above ++ [l]) = endLines nl above ++ l ++ [nl] := by
  simp [endLines]

theorem startLines_cons (l : List α) : startLines nl (l :: below) = nl :: (l ++ startLines nl below) := rfl

theorem length_endLines (nl : α) (lines : List (List α)) :
    (endLines nl lines).length = (lines.map fun l => l.length + 1).sum := by
  simp [endLines, List.length_flatMap]

theorem intercalate_cons (line : List α) (below : List (List α)) :
    [nl].intercalate (line :: below) = line ++ startLines nl below := by
  induction below generalizing line with
  | nil => simp [startLines, List.intercalate, List.intersperse]
  | cons l below ih =>
    rw [startLines_cons, ← ih l]
    simp [List.intercalate, List.intersperse]

theorem intercalate_append (above : List (List α)) (line : List α) (below : List (List α)) :
    [nl].intercalate (above ++ line :: below) = endLines nl above ++ (line ++ startLines nl below) := by
  induction above with
  | nil => exact intercalate_cons line below
  | cons l above ih =>
    have hstart : startLines nl (above ++ line :: below) = nl :: [nl].intercalate (above ++ line :: below) := by
      cases above with
      | nil => rw [List.nil_append, startLines_cons, intercalate_cons]
      | cons l' above => rw [List.cons_append, startLines_cons, intercalate_cons]
    rw [List.cons_append, intercalate_cons, hstart, ih]
    simp [endLines]

/-- Where the cursor stands, given the lines around it and the parts of its own line. -/
theorem ofLines_eq {lines : List (List α)} {l r : List α} (h : lines = above ++ (l ++ r) :: below) :
    ofLines nl lines above.length l.length = between (endLines nl above ++ l) (r ++ startLines nl below) := by
  subst h
  rw [ofLines, intercalate_append, List.take_left, ← length_endLines nl, between, List.length_append]
  simp

/-! ### Edits, on the lines -/

theorem insert_ofLines {l r : List α} (a : α) :
    (ofLines nl (above ++ (l ++ r) :: below) above.length l.length).insert a =
      ofLines nl (above ++ (l ++ a :: r) :: below) above.length (l.length + 1) := by
  have hlines : above ++ (l ++ a :: r) :: below = above ++ (l ++ [a] ++ r) :: below := by simp
  rw [ofLines_eq rfl, insert_between, show l.length + 1 = (l ++ [a]).length by simp, ofLines_eq hlines,
    List.append_assoc]

/-- A break that is inserted splits the line. -/
theorem insert_break_ofLines {l r : List α} :
    (ofLines nl (above ++ (l ++ r) :: below) above.length l.length).insert nl =
      ofLines nl (above ++ l :: r :: below) (above.length + 1) 0 := by
  have hlines : above ++ l :: r :: below = (above ++ [l]) ++ ([] ++ r) :: below := by simp
  rw [ofLines_eq rfl, insert_between, show above.length + 1 = (above ++ [l]).length by simp,
    ← List.length_nil (α := α), ofLines_eq hlines, endLines_append, List.append_nil]

theorem delete_ofLines {l r : List α} {a : α} :
    (ofLines nl (above ++ (l ++ a :: r) :: below) above.length (l.length + 1)).delete =
      ofLines nl (above ++ (l ++ r) :: below) above.length l.length := by
  have hlines : above ++ (l ++ a :: r) :: below = above ++ (l ++ [a] ++ r) :: below := by simp
  rw [show l.length + 1 = (l ++ [a]).length by simp, ofLines_eq hlines, ← List.append_assoc, delete_between,
    ofLines_eq rfl]

/-- Deleting a break joins two lines. -/
theorem delete_break_ofLines {l r : List α} :
    (ofLines nl (above ++ l :: r :: below) (above.length + 1) 0).delete =
      ofLines nl (above ++ (l ++ r) :: below) above.length l.length := by
  have hlines : above ++ l :: r :: below = (above ++ [l]) ++ ([] ++ r) :: below := by simp
  rw [show above.length + 1 = (above ++ [l]).length by simp, ← List.length_nil (α := α), ofLines_eq hlines,
    endLines_append, List.append_nil, delete_between, ofLines_eq rfl]

/-! ### Moves, on the lines -/

theorem ofLines_text (c : ℕ) :
    (ofLines nl (above ++ line :: below) i c).text = endLines nl above ++ (line ++ startLines nl below) :=
  intercalate_append above line below

theorem ofLines_offset (c : ℕ) :
    (ofLines nl (above ++ line :: below) above.length c).offset = (endLines nl above).length + c := by
  rw [ofLines, List.take_left, length_endLines]

theorem ofLines_offset_next (c : ℕ) :
    (ofLines nl (above ++ line :: below) (above.length + 1) c).offset =
      (endLines nl above).length + line.length + 1 + c := by
  rw [ofLines, List.take_length_add_append, ← length_endLines nl, List.take_succ_cons, List.take_zero, endLines_append,
    List.length_append, List.length_append, List.length_singleton]

/-- A move changes the offset only. -/
theorem move_eq {lines : List (List α)} {j c d n : ℕ} (h : n = (ofLines nl lines j d).offset) :
    ⟨(ofLines nl lines i c).text, n⟩ = ofLines nl lines j d := by
  subst h
  rfl

theorem left_ofLines_succ (lines : List (List α)) (c : ℕ) :
    (ofLines nl lines i (c + 1)).left = ofLines nl lines i c := rfl

theorem left_ofLines_first (lines : List (List α)) : (ofLines nl lines 0 0).left = ofLines nl lines 0 0 := rfl

/-- From the start of a line to the end of the one above. -/
theorem left_ofLines_zero :
    (ofLines nl (above ++ line :: below) (above.length + 1) 0).left =
      ofLines nl (above ++ line :: below) above.length line.length := by
  refine move_eq ?_
  rw [ofLines_offset, ofLines_offset_next, Nat.add_zero, Nat.add_sub_cancel]

theorem right_ofLines {c : ℕ} (hc : c < line.length) :
    (ofLines nl (above ++ line :: below) above.length c).right =
      ofLines nl (above ++ line :: below) above.length (c + 1) := by
  refine move_eq ?_
  rw [ofLines_offset, ofLines_offset, ofLines_text, min_eq_left, Nat.add_assoc]
  simp only [List.length_append]
  omega

/-- From the end of a line to the start of the one below. -/
theorem right_ofLines_end {l : List α} :
    (ofLines nl (above ++ line :: l :: below) above.length line.length).right =
      ofLines nl (above ++ line :: l :: below) (above.length + 1) 0 := by
  refine move_eq ?_
  rw [ofLines_offset, ofLines_offset_next, ofLines_text, min_eq_left, Nat.add_zero]
  simp only [startLines_cons, List.length_append, List.length_cons]
  omega

theorem right_ofLines_last :
    (ofLines nl (above ++ [line]) above.length line.length).right =
      ofLines nl (above ++ [line]) above.length line.length := by
  refine move_eq ?_
  rw [ofLines_offset, ofLines_text, min_eq_right]
  · simp [startLines]
  · simp [startLines]

theorem head?_startLines (below : List (List α)) :
    (startLines nl below).head? = none ∨ (startLines nl below).head? = some nl := by
  cases below with
  | nil => exact .inl rfl
  | cons l below => exact .inr rfl

theorem head?_reverse_endLines (above : List (List α)) :
    (endLines nl above).reverse.head? = none ∨ (endLines nl above).reverse.head? = some nl := by
  rcases List.eq_nil_or_concat above with rfl | ⟨above, l, rfl⟩
  · exact .inl rfl
  · rw [List.concat_eq_append, endLines_append, List.reverse_append]
    exact .inr rfl

section Breaks
variable [DecidableEq α]

/-- A line ends where the next break is, or the text. -/
theorem lineLength_append {l rest : List α} (hl : nl ∉ l) (hrest : rest.head? = none ∨ rest.head? = some nl) :
    lineLength nl (l ++ rest) = l.length := by
  unfold lineLength
  rw [List.takeWhile_append_of_pos fun a ha => by simpa using ne_of_mem_of_not_mem ha hl]
  cases rest with
  | nil => simp
  | cons a rest =>
    have ha : a = nl := by simpa using hrest
    rw [List.takeWhile_cons_of_neg (by simpa using ha), List.append_nil]

/-- The line before a place, read backwards. -/
theorem lineLength_reverse {l : List α} (hl : nl ∉ l) (above : List (List α)) :
    lineLength nl (endLines nl above ++ l).reverse = l.length := by
  rw [List.reverse_append, lineLength_append _ (head?_reverse_endLines above), List.length_reverse]
  rwa [List.mem_reverse]

variable {c : ℕ} (hline : nl ∉ line) (hc : c ≤ line.length)

include hline hc in
theorem column_ofLines : (ofLines nl (above ++ line :: below) above.length c).column nl = c := by
  rw [column, ofLines_offset, ofLines_text, List.take_length_add_append, List.take_append_of_le_length hc,
    lineLength_reverse fun hmem => hline (List.mem_of_mem_take hmem), List.length_take, min_eq_left hc]

include hline hc in
theorem up_ofLines_first : (ofLines nl (line :: below) 0 c).up nl = ofLines nl (line :: below) 0 c := by
  have hcolumn : (ofLines nl ([] ++ line :: below) [].length c).column nl = c := column_ofLines hline hc
  have hoffset : (ofLines nl (line :: below) 0 c).offset = c := Nat.zero_add c
  rw [List.nil_append, List.length_nil] at hcolumn
  rw [up, hcolumn, hoffset, Nat.sub_self]
  rfl

include hline hc in
theorem up_ofLines {l : List α} (hl : nl ∉ l) :
    (ofLines nl (above ++ l :: line :: below) (above.length + 1) c).up nl =
      ofLines nl (above ++ l :: line :: below) above.length (min c l.length) := by
  have hlines : above ++ l :: line :: below = (above ++ [l]) ++ line :: below := by simp
  have hcolumn : (ofLines nl (above ++ l :: line :: below) (above.length + 1) c).column nl = c := by
    rw [hlines, show above.length + 1 = (above ++ [l]).length by simp]
    exact column_ofLines hline hc
  have hstart : (endLines nl above).length + l.length + 1 + c - c = (endLines nl above ++ l).length + 1 := by
    rw [List.length_append]
    omega
  have htake : (endLines nl above ++ (l ++ startLines nl (line :: below))).take (endLines nl above ++ l).length =
      endLines nl above ++ l := by rw [← List.append_assoc, List.take_left]
  unfold up
  rw [hcolumn, ofLines_offset_next, hstart]
  dsimp only
  rw [if_neg (Nat.succ_ne_zero _), Nat.add_sub_cancel]
  refine move_eq ?_
  rw [ofLines_text, htake, lineLength_reverse hl, ofLines_offset, List.length_append, Nat.add_sub_cancel]

include hline hc in
/-- The end of the line, from the cursor. -/
theorem stop_ofLines :
    (ofLines nl (above ++ line :: below) above.length c).offset +
        lineLength nl ((ofLines nl (above ++ line :: below) above.length c).text.drop
          (ofLines nl (above ++ line :: below) above.length c).offset) =
      (endLines nl above ++ line).length := by
  rw [ofLines_offset, ofLines_text, List.drop_length_add_append, List.drop_append_of_le_length hc,
    lineLength_append (fun hmem => hline (List.mem_of_mem_drop hmem)) (head?_startLines below), List.length_drop,
    List.length_append]
  omega

include hline hc in
theorem down_ofLines_last :
    (ofLines nl (above ++ [line]) above.length c).down nl = ofLines nl (above ++ [line]) above.length c := by
  unfold down
  rw [stop_ofLines hline hc, ofLines_text]
  dsimp only
  rw [if_pos]
  simp [startLines]

include hline hc in
theorem down_ofLines {l : List α} (hl : nl ∉ l) :
    (ofLines nl (above ++ line :: l :: below) above.length c).down nl =
      ofLines nl (above ++ line :: l :: below) (above.length + 1) (min c l.length) := by
  have hdrop : (endLines nl above ++ (line ++ startLines nl (l :: below))).drop
      ((endLines nl above ++ line).length + 1) = l ++ startLines nl below := by
    rw [← List.append_assoc, List.drop_length_add_append]
    rfl
  have hlength : ¬(endLines nl above ++ (line ++ startLines nl (l :: below))).length ≤
      (endLines nl above ++ line).length := by
    simp only [startLines_cons, List.length_append, List.length_cons]
    omega
  unfold down
  rw [stop_ofLines hline hc, column_ofLines hline hc]
  dsimp only
  rw [if_neg (by rwa [ofLines_text])]
  refine move_eq ?_
  rw [ofLines_text, hdrop, lineLength_append hl (head?_startLines below), ofLines_offset_next, List.length_append]

end Breaks

end Lines

end FlatText

end DualFuse.Library
