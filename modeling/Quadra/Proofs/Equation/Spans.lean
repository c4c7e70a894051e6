import Mathlib.Data.List.SplitBy
import Mathlib.Data.List.TakeWhile
import Quadra.Equation.Term
import Quadra.Proofs.Equation.Scan

set_option autoImplicit false

/-!
# Where tokens stand

The tokens of a text stand in it one behind the other, with only blanks between them, and each has
the byte offsets of its part of the text as its span: `laidOut_tokensFrom`. So a run of tokens covers
a part of the text, from the first of them to the last: `LaidOut.exists_covers`.
-/

namespace Quadra.Equation

open Text

/-- A token that is spelled by these characters: a number by its text, any other by one. -/
inductive Spells : Kind → List Char → Prop
  | number {text : List Char} (hne : text ≠ []) (hchars : ∀ c ∈ text, isNumberChar c = true) :
      Spells (.number text) text
  | symbol {c : Char} (hblank : isBlank c = false) : Spells (.ofChar c) [c]

/-- The tokens stand in a text that starts at this byte offset, in this order. -/
inductive LaidOut : Nat → List Char → List Token → Prop
  | nil {offset : Nat} {gap : List Char} (hgap : ∀ c ∈ gap, isBlank c = true) : LaidOut offset gap []
  | cons {offset : Nat} {gap marked rest : List Char} {token : Token} {tokens : List Token}
      (hgap : ∀ c ∈ gap, isBlank c = true) (hmarked : Spells token.kind marked)
      (hlo : token.span.lo = offset + byteLength gap)
      (hhi : token.span.hi = token.span.lo + byteLength marked)
      (hrest : LaidOut token.span.hi rest tokens) :
      LaidOut offset (gap ++ (marked ++ rest)) (token :: tokens)

/-! ## The tokens of a scan -/

theorem LaidOut.cons_blank {offset : Nat} {c : Char} {text : List Char} {tokens : List Token}
    (hc : isBlank c = true) (h : LaidOut (offset + c.utf8Size) text tokens) :
    LaidOut offset (c :: text) tokens := by
  cases h with
  | nil hgap => exact .nil (List.forall_mem_cons.mpr ⟨hc, hgap⟩)
  | @cons _ gap marked rest token tokens hgap hmarked hlo hhi hrest =>
      have hlo' : token.span.lo = offset + byteLength (c :: gap) := by
        rw [byteLength_cons, hlo, Nat.add_assoc]
      exact .cons (List.forall_mem_cons.mpr ⟨hc, hgap⟩) hmarked hlo' hhi hrest

/-- A token that stands at the start of the text. -/
theorem LaidOut.cons_token {offset : Nat} {marked rest : List Char} {kind : Kind}
    {tokens : List Token} (hmarked : Spells kind marked)
    (h : LaidOut (offset + byteLength marked) rest tokens) :
    LaidOut offset (marked ++ rest)
      (⟨kind, ⟨offset, offset + byteLength marked⟩⟩ :: tokens) := by
  have hgap : ∀ c ∈ ([] : List Char), isBlank c = true := fun _ hc => absurd hc List.not_mem_nil
  exact .cons hgap hmarked rfl rfl h

theorem isNumberChar_of_startsNumber {c : Char} {rest : List Char}
    (h : startsNumber c rest = true) : isNumberChar c = true := by
  rw [startsNumber, Bool.or_eq_true, Bool.and_eq_true] at h
  rw [isNumberChar, Bool.or_eq_true]
  exact h.imp_right And.left

/-- **The scanner lays its tokens out in the text.** -/
theorem laidOut_tokensFrom (offset : Nat) (text : List Char) :
    LaidOut offset text (tokensFrom offset text) := by
  fun_induction scanFrom offset text with
  | case1 offset =>
      rw [tokensFrom_nil]
      exact .nil fun _ hc => absurd hc List.not_mem_nil
  | case2 offset c rest hblank ih =>
      rw [tokensFrom_of_isBlank offset hblank]
      exact ih.cons_blank hblank
  | case3 offset c rest hblank hnumber text stop ih =>
      have hspells : Spells (.number text) text := by
        refine .number (List.cons_ne_nil _ _) (List.forall_mem_cons.mpr ⟨?_, ?_⟩)
        · exact isNumberChar_of_startsNumber hnumber
        · intro d hd
          exact List.mem_takeWhile_imp hd
      have htext : c :: rest = text ++ rest.dropWhile isNumberChar := by
        rw [List.cons_append, List.takeWhile_append_dropWhile]
      rw [tokensFrom_of_startsNumber offset hblank hnumber]
      -- only now, since the tokens are stated with the rest of the text
      rw [htext]
      exact ih.cons_token hspells
  | case4 offset c rest hblank hnumber stop ih =>
      rw [tokensFrom_of_symbol offset hblank hnumber]
      exact LaidOut.cons_token (.symbol (Bool.eq_false_iff.mpr hblank)) ih

/-- Every token is spelled by characters of the text. -/
theorem LaidOut.exists_spells {offset : Nat} {text : List Char} {tokens : List Token}
    (h : LaidOut offset text tokens) {token : Token} (htoken : token ∈ tokens) :
    ∃ marked, Spells token.kind marked := by
  induction h with
  | nil => cases htoken
  | @cons _ _ marked _ _ _ _ hmarked _ _ _ ih =>
      rcases List.mem_cons.mp htoken with rfl | htoken
      · exact ⟨marked, hmarked⟩
      · exact ih htoken

/-! ## Runs of tokens -/

/-- The span covers the middle one of three parts of the text. -/
def Covers (text : List Char) (span : Span) (before marked after : List Char) : Prop :=
  text = before ++ (marked ++ after) ∧
    span = ⟨byteLength before, byteLength before + byteLength marked⟩

/-- Tokens behind others stand in the rest of the text. -/
theorem LaidOut.exists_of_append {offset : Nat} {text : List Char} {l r : List Token}
    (h : LaidOut offset text (l ++ r)) :
    ∃ front rest, text = front ++ rest ∧ LaidOut offset front l ∧
      LaidOut (offset + byteLength front) rest r := by
  induction l generalizing offset text with
  | nil => exact ⟨[], text, rfl, .nil fun _ hc => absurd hc List.not_mem_nil, h⟩
  | cons token l ih =>
      cases h with
      | @cons _ gap marked behind _ _ hgap hmarked hlo hhi hrest =>
          obtain ⟨front, rest, rfl, hl, hr⟩ := ih hrest
          refine ⟨gap ++ (marked ++ front), rest, ?_, .cons hgap hmarked hlo hhi hl, ?_⟩
          · simp only [List.append_assoc]
          · have hoffset : offset + byteLength (gap ++ (marked ++ front)) =
                token.span.hi + byteLength front := by
              rw [byteLength_append, byteLength_append, hhi, hlo]
              omega
            rw [hoffset]
            exact hr

/-- A token is spelled by at least one character. -/
theorem Spells.ne_nil {kind : Kind} {text : List Char} (h : Spells kind text) : text ≠ [] := by
  cases h with
  | number hne => exact hne
  | symbol => exact List.cons_ne_nil _ _

/-- One token covers its characters. -/
theorem LaidOut.exists_of_singleton {offset : Nat} {text : List Char} {token : Token}
    (h : LaidOut offset text [token]) :
    ∃ before marked after, text = before ++ (marked ++ after) ∧ marked ≠ [] ∧
      token.span.lo = offset + byteLength before ∧
      token.span.hi = offset + byteLength before + byteLength marked := by
  cases h with
  | @cons _ gap marked rest _ _ hgap hmarked hlo hhi hrest =>
      exact ⟨gap, marked, rest, rfl, hmarked.ne_nil, hlo, by rw [hhi, hlo]⟩

/-- A run of tokens has a part of a text that starts at this byte offset, from the first of the tokens
to the last. -/
structure Occupies (offset : Nat) (text : List Char) (run : List Token)
    (before marked after : List Char) : Prop where
  text_eq : text = before ++ (marked ++ after)
  ne_nil : marked ≠ []
  span_eq : spanOf run = ⟨offset + byteLength before, offset + byteLength before + byteLength marked⟩
  lo_eq : run.head?.map (·.span.lo) = some (spanOf run).lo
  hi_eq : run.getLast?.map (·.span.hi) = some (spanOf run).hi

/-- A run of tokens stands in one part of the text. -/
theorem LaidOut.exists_occupies {offset : Nat} {text : List Char} {l run r : List Token}
    (h : LaidOut offset text (l ++ (run ++ r))) (hne : run ≠ []) :
    ∃ before marked after, Occupies offset text run before marked after := by
  obtain ⟨front, behind, rfl, -, hbehind⟩ := h.exists_of_append
  obtain ⟨middle, rest, rfl, hrun, -⟩ := hbehind.exists_of_append
  obtain ⟨init, last, rfl⟩ := (List.eq_nil_or_concat' run).resolve_left hne
  cases init with
  | nil =>
      -- a single token is joined with itself
      obtain ⟨b, marked, a, rfl, hmarked, hlo, hhi⟩ := hrun.exists_of_singleton
      have hspan : spanOf ([] ++ [last]) = last.span := by
        show last.span.join last.span = last.span
        rw [Span.join, min_self, max_self]
      have hoffset : offset + byteLength (front ++ b) = last.span.lo := by
        rw [byteLength_append, hlo, Nat.add_assoc]
      refine ⟨front ++ b, marked, a ++ rest, by simp only [List.append_assoc], hmarked, ?_, ?_, ?_⟩
      · rw [hspan, hoffset, hlo, ← hhi, ← hlo]
      · rw [hspan]
        rfl
      · rw [hspan]
        rfl
  | cons first mid =>
      -- the first token is the one with the least offsets, the last that with the greatest
      obtain ⟨start, stop, rfl, hstart, hstop⟩ := hrun.exists_of_append
      obtain ⟨b', marked', a, rfl, -, hlo', hhi'⟩ := hstop.exists_of_singleton
      cases hstart with
      | @cons _ b marked a' _ _ _ hmarked hlo hhi _ =>
          have hspan : spanOf (first :: mid ++ [last]) = ⟨first.span.lo, last.span.hi⟩ := by
            have hjoin : spanOf (first :: mid ++ [last]) = first.span.join last.span := by
              rw [spanOf, List.getLast?_concat]
              rfl
            simp only [byteLength_append] at hlo hhi hlo' hhi'
            rw [hjoin, Span.join, Span.mk.injEq]
            omega
          refine ⟨front ++ b, marked ++ (a' ++ (b' ++ marked')), a ++ rest,
            by simp only [List.append_assoc], ?_, ?_, ?_, ?_⟩
          · exact List.append_ne_nil_of_left_ne_nil hmarked.ne_nil _
          · rw [hspan, Span.mk.injEq]
            simp only [byteLength_append] at hlo hhi hlo' hhi' ⊢
            omega
          · rw [hspan]
            rfl
          · rw [hspan, List.getLast?_concat]
            rfl

/-- A run of tokens covers the text from the first of them to the last. -/
theorem LaidOut.exists_covers {text : List Char} {l run r : List Token}
    (h : LaidOut 0 text (l ++ (run ++ r))) (hne : run ≠ []) :
    ∃ before marked after, Covers text (spanOf run) before marked after := by
  obtain ⟨before, marked, after, hrun⟩ := h.exists_occupies hne
  refine ⟨before, marked, after, hrun.text_eq, ?_⟩
  rw [hrun.span_eq, Nat.zero_add]

end Quadra.Equation
