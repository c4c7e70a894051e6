import Mathlib.Data.List.TakeWhile
import Quadra.Proofs.Report.Visible

set_option autoImplicit false

/-!
# Escape sequences

A text is read as its characters and escape sequences (`pieces`): `ESC`, a bracket, digits and `m`. What is
left without the sequences is the text itself (`stripped`); what is left of them and the line breaks are
the marks that tell which lines are coloured where (`marks`). A text that is a plain one with some stretches
painted (`Decorates`) is stripped to the plain text, and each of its colours ends on its line
(`Decorates.closed`).
-/

namespace Quadra.Report

/-! ## Reading a coloured text -/

/-- The character that starts an escape sequence. -/
def esc : Char := '\x1b'

/-- A character, or an escape sequence, by its digits. -/
inductive Piece
  | char (c : Char)
  | sequence (digits : List Char)
deriving DecidableEq

/-- The digits of an escape sequence and the text behind it, read from behind its first character. -/
def sequence? : List Char → Option (List Char × List Char)
  | '[' :: text =>
      let digits := text.takeWhile Char.isDigit
      match text.dropWhile Char.isDigit with
      | 'm' :: rest => if digits.isEmpty then none else some (digits, rest)
      | _ => none
  | _ => none

theorem length_lt_of_sequence? {text digits rest : List Char} (h : sequence? text = some (digits, rest)) :
    rest.length < text.length := by
  unfold sequence? at h
  split at h
  · rename_i text
    simp only at h
    split at h
    · rename_i hdrop
      split at h
      · cases h
      · cases h
        have hle := (List.dropWhile_suffix (l := text) Char.isDigit).length_le
        rw [hdrop] at hle
        simp only [List.length_cons] at hle ⊢
        omega
    · cases h
  · cases h

/-- The characters and escape sequences of a text. -/
def pieces : List Char → List Piece
  | [] => []
  | c :: text =>
      if c = esc then
        match _h : sequence? text with
        | some (digits, rest) => .sequence digits :: pieces rest
        | none => .char c :: pieces text
      else .char c :: pieces text
termination_by text => text.length
decreasing_by
  · have := length_lt_of_sequence? _h
    simp only [List.length_cons]
    omega
  · simp
  · simp

/-- A text without its escape sequences. -/
def stripped (text : List Char) : List Char :=
  (pieces text).filterMap fun
    | .char c => some c
    | .sequence _ => none

/-- What begins or ends in a text: a colour begins with a sequence, the sequence `0` ends it. -/
inductive Mark
  | colour
  | reset
  | lineEnd
deriving DecidableEq

/-- The mark that a piece is. -/
def Piece.mark? : Piece → Option Mark
  | .char c => if c = '\n' then some .lineEnd else none
  | .sequence digits => if digits = ['0'] then some .reset else some .colour

@[simp] theorem Piece.mark?_lineEnd : (Piece.char '\n').mark? = some .lineEnd := rfl

theorem Piece.mark?_char {c : Char} (hc : c ≠ '\n') : (Piece.char c).mark? = none := if_neg hc

@[simp] theorem Piece.mark?_reset : (Piece.sequence ['0']).mark? = some .reset := rfl

theorem Piece.mark?_colour {digits : List Char} (h : digits ≠ ['0']) :
    (Piece.sequence digits).mark? = some .colour := if_neg h

/-- The marks of a text, in order. -/
def marks (text : List Char) : List Mark := (pieces text).filterMap Piece.mark?

/-- Each colour is followed by exactly one reset before the next colour and before the end of its line. -/
def Paired (marks : List Mark) : Prop :=
  ∀ front back, marks = front ++ .colour :: back →
    back.takeWhile (· == .reset) = [.reset]

/-! ## Pieces -/

theorem pieces_cons_of_ne {c : Char} (hc : c ≠ esc) (text : List Char) :
    pieces (c :: text) = .char c :: pieces text := by
  rw [pieces, if_neg hc]

/-- A text without `ESC` is its characters. -/
theorem pieces_append {text : List Char} (h : esc ∉ text) (rest : List Char) :
    pieces (text ++ rest) = text.map .char ++ pieces rest := by
  induction text with
  | nil => rfl
  | cons c text ih =>
      obtain ⟨hc, htext⟩ := not_or.mp (mt List.mem_cons.mpr h)
      rw [List.cons_append, pieces_cons_of_ne (Ne.symm hc), ih htext, List.map_cons, List.cons_append]

/-- The escape sequence of these digits. -/
def sequence (digits : List Char) : List Char := esc :: '[' :: (digits ++ ['m'])

/-- The digits of a sequence: there are some. -/
structure IsCode (digits : List Char) : Prop where
  ne_nil : digits ≠ []
  isDigit : ∀ c ∈ digits, c.isDigit = true

theorem sequence?_of_isCode {digits : List Char} (h : IsCode digits) (rest : List Char) :
    sequence? ('[' :: (digits ++ 'm' :: rest)) = some (digits, rest) := by
  have hm : ¬ 'm'.isDigit = true := by decide
  have htake : (digits ++ 'm' :: rest).takeWhile Char.isDigit = digits := by
    rw [List.takeWhile_append_of_pos h.isDigit, List.takeWhile_cons_of_neg hm, List.append_nil]
  have hdrop : (digits ++ 'm' :: rest).dropWhile Char.isDigit = 'm' :: rest := by
    rw [List.dropWhile_append_of_pos h.isDigit, List.dropWhile_cons_of_neg hm]
  simp only [sequence?, htake, hdrop, List.isEmpty_eq_false_iff.mpr h.ne_nil, Bool.false_eq_true, if_false]

theorem pieces_sequence_append {digits : List Char} (h : IsCode digits) (rest : List Char) :
    pieces (sequence digits ++ rest) = .sequence digits :: pieces rest := by
  have htext : sequence digits ++ rest = esc :: '[' :: (digits ++ 'm' :: rest) := by
    simp [sequence]
  rw [htext, pieces, if_pos rfl]
  split
  · rename_i heq
    rw [sequence?_of_isCode h] at heq
    cases heq
    rfl
  · rename_i heq
    rw [sequence?_of_isCode h] at heq
    cases heq

/-! ## Colours that end on their lines -/

/-- Line ends, and colours with their resets. -/
inductive Closed : List Mark → Prop
  | nil : Closed []
  | lineEnd {marks : List Mark} : Closed marks → Closed (.lineEnd :: marks)
  | colour {marks : List Mark} : Closed marks → Closed (.colour :: .reset :: marks)

namespace Closed

variable {marks : List Mark}

theorem takeWhile_reset (h : Closed marks) : marks.takeWhile (· == .reset) = [] := by
  cases h <;> rfl

theorem paired (h : Closed marks) : Paired marks := by
  induction h with
  | nil =>
      intro front back heq
      exact absurd heq (List.append_ne_nil_of_right_ne_nil front (List.cons_ne_nil _ _)).symm
  | lineEnd _ ih =>
      rintro (_ | ⟨mark, front⟩) back heq
      · cases heq
      · cases heq
        exact ih front back rfl
  | @colour marks hmarks ih =>
      -- the colour is this one, or one behind its reset
      rintro (_ | ⟨mark, _ | ⟨mark', front⟩⟩) back heq
      · cases heq
        rw [List.takeWhile_cons_of_pos rfl, hmarks.takeWhile_reset]
      · cases heq
      · cases heq
        exact ih front back rfl

/-- Characters end lines only. -/
theorem chars_append (h : Closed marks) (text : List Char) :
    Closed ((text.map Piece.char).filterMap Piece.mark? ++ marks) := by
  induction text with
  | nil => exact h
  | cons c text ih =>
      rw [List.map_cons]
      by_cases hc : c = '\n'
      · subst hc
        rw [List.filterMap_cons_some Piece.mark?_lineEnd]
        exact .lineEnd ih
      · rwa [List.filterMap_cons_none (Piece.mark?_char hc)]

end Closed

theorem marks_chars_of_line {text : List Char} (h : '\n' ∉ text) :
    (text.map Piece.char).filterMap Piece.mark? = [] := by
  rw [List.filterMap_map, List.filterMap_eq_nil_iff]
  intro c hc
  exact Piece.mark?_char fun heq => h (heq ▸ hc)

/-- The first text is the second one with some stretches painted: a colour in front, and the reset behind,
on one line. -/
inductive Decorates : List Char → List Char → Prop
  | nil : Decorates [] []
  | plain {text coloured plain : List Char} (hfree : esc ∉ text) :
      Decorates coloured plain → Decorates (text ++ coloured) (text ++ plain)
  | painted {digits text coloured plain : List Char} (hcode : IsCode digits) (hcolour : digits ≠ ['0'])
      (hfree : esc ∉ text) (hline : '\n' ∉ text) :
      Decorates coloured plain →
        Decorates (sequence digits ++ (text ++ (sequence ['0'] ++ coloured))) (text ++ plain)

namespace Decorates

variable {coloured plain : List Char}

theorem append {coloured' plain' : List Char} (h : Decorates coloured plain)
    (h' : Decorates coloured' plain') : Decorates (coloured ++ coloured') (plain ++ plain') := by
  induction h with
  | nil => exact h'
  | plain hfree _ ih =>
      rw [List.append_assoc, List.append_assoc]
      exact .plain hfree ih
  | painted hcode hcolour hfree hline _ ih =>
      simp only [List.append_assoc]
      exact .painted hcode hcolour hfree hline ih

theorem of_free {text : List Char} (hfree : esc ∉ text) : Decorates text text := by
  have h := Decorates.plain hfree .nil
  rwa [List.append_nil] at h

theorem isCode_reset : IsCode ['0'] := ⟨List.cons_ne_nil _ _, List.all_eq_true.mp rfl⟩

/-- Without its sequences a coloured text is the plain one. -/
theorem stripped_eq (h : Decorates coloured plain) : stripped coloured = plain := by
  have hchars : ∀ text : List Char, ((text.map Piece.char).filterMap fun
      | .char c => some c
      | .sequence _ => none) = text := by
    intro text
    rw [List.filterMap_map]
    exact List.filterMap_some
  induction h with
  | nil => rw [stripped, pieces, List.filterMap_nil]
  | plain hfree _ ih =>
      rw [stripped, pieces_append hfree, List.filterMap_append, hchars]
      exact congrArg _ ih
  | painted hcode _ hfree _ _ ih =>
      rw [stripped, pieces_sequence_append hcode, pieces_append hfree, pieces_sequence_append isCode_reset]
      simp only [List.filterMap_cons, List.filterMap_append, hchars]
      exact congrArg _ ih

theorem not_mem_plain (h : Decorates coloured plain) : esc ∉ plain := by
  induction h with
  | nil => exact List.not_mem_nil
  | plain hfree _ ih => exact fun hmem => (List.mem_append.mp hmem).elim hfree ih
  | painted _ _ hfree _ _ ih => exact fun hmem => (List.mem_append.mp hmem).elim hfree ih

/-- Its colours end on their lines. -/
theorem closed (h : Decorates coloured plain) : Closed (marks coloured) := by
  induction h with
  | nil =>
      rw [marks, pieces]
      exact .nil
  | plain hfree _ ih =>
      rw [marks, pieces_append hfree, List.filterMap_append]
      exact ih.chars_append _
  | @painted digits text coloured plain hcode hcolour hfree hline _ ih =>
      -- the painted text has no line end, so that the reset is the next mark
      rw [marks, pieces_sequence_append hcode, pieces_append hfree, pieces_sequence_append isCode_reset,
        List.filterMap_cons_some (Piece.mark?_colour hcolour), List.filterMap_append,
        marks_chars_of_line hline, List.nil_append, List.filterMap_cons_some Piece.mark?_reset]
      exact .colour ih

end Decorates

end Quadra.Report
