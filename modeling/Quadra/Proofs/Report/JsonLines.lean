import Quadra.Proofs.Report.JsonNumbers

set_option autoImplicit false

/-!
# The tokens of lines

A line spells tokens when it is read as these, provided that the text ends behind it or goes on with a
delimiter (`Spells`). Lines are laid out with margins, labels and commas, and a reader finds in them the
tokens of the labels, of the lines and of the commas: `SpellsLines.placeItem`.
-/

namespace Quadra.Report.JsonReader

/-! ## Modes -/

namespace Mode

theorem tokens?_cons (mode : Mode) (c : Char) (text : List Char) :
    mode.tokens? (c :: text) =
      (mode.next c).bind fun step => (step.2.tokens? text).map (step.1 ++ ·) := by
  cases mode <;> rfl

/-- A character that ends no token. -/
theorem tokens?_cons_of_next {mode mode' : Mode} {c : Char} (h : mode.next c = some ([], mode'))
    (text : List Char) : mode.tokens? (c :: text) = mode'.tokens? text := by
  rw [tokens?_cons, h, Option.bind_some]
  exact Option.map_id'

theorem tokens?_between_cons (c : Char) (text : List Char) :
    Mode.between.tokens? (c :: text) = ((start c).2.tokens? text).map ((start c).1 ++ ·) :=
  tokens?_cons _ c text

/-- A word goes on up to the next delimiter. -/
theorem tokens?_word_append {text : List Char} (h : ∀ c ∈ text, isDelimiter c = false)
    (front rest : List Char) :
    (Mode.word front).tokens? (text ++ rest) = (Mode.word (front ++ text)).tokens? rest := by
  induction text generalizing front with
  | nil => rw [List.nil_append, List.append_nil]
  | cons c text ih =>
      obtain ⟨hc, htext⟩ := List.forall_mem_cons.mp h
      have hnext : (Mode.word front).next c = some ([], .word (front ++ [c])) := by
        rw [next, hc, if_neg Bool.false_ne_true]
      rw [List.cons_append, tokens?_cons_of_next hnext, ih htext, List.append_assoc,
        List.singleton_append]

/-- A delimiter or the end of the text ends a word. -/
theorem tokens?_word_of_head {rest : List Char} (h : ∀ c ∈ rest.head?, isDelimiter c = true)
    (text : List Char) :
    (Mode.word text).tokens? rest =
      (literal? text).bind fun value => (Mode.between.tokens? rest).map (.atom value :: ·) := by
  cases rest with
  | nil => cases hvalue : literal? text <;> simp [tokens?, hvalue]
  | cons c rest =>
      -- the delimiter is read as it is between tokens
      rw [tokens?_cons, next, h c rfl, if_pos rfl, tokens?_between_cons]
      cases literal? text with
      | none => rfl
      | some value =>
          simp only [Option.map_some, Option.bind_some, Option.map_map]
          rfl

theorem hexDigit?_digitChar : ∀ n < 16, hexDigit? (Nat.digitChar n) = some n := by decide

/-- An escape of one letter. -/
theorem tokens?_string_backslash {c letter : Char} (hcode : letter ≠ 'u')
    (h : escaped? letter = some c) (front rest : List Char) :
    (Mode.string front).tokens? ('\\' :: letter :: rest) =
      (Mode.string (front ++ [c])).tokens? rest := by
  have hnext : (Mode.escape front).next letter = some ([], .string (front ++ [c])) := by
    rw [next, if_neg (beq_iff_eq.not.mpr hcode), h]
    rfl
  have hbackslash : (Mode.string front).next '\\' = some ([], .escape front) := rfl
  rw [tokens?_cons_of_next hbackslash, tokens?_cons_of_next hnext]

/-- The code of a character below 256. -/
theorem tokens?_string_code {c : Char} (hc : c.toNat < 256) (front rest : List Char) :
    (Mode.string front).tokens? ('\\' :: 'u' :: '0' :: '0' :: Nat.digitChar (c.toNat / 16) ::
      Nat.digitChar (c.toNat % 16) :: rest) = (Mode.string (front ++ [c])).tokens? rest := by
  have hbackslash : (Mode.string front).next '\\' = some ([], .escape front) := rfl
  have hcode : (Mode.escape front).next 'u' = some ([], .code front 0 0) := rfl
  have hfirst : (Mode.code front 0 0).next '0' = some ([], .code front 1 0) := rfl
  have hsecond : (Mode.code front 1 0).next '0' = some ([], .code front 2 0) := rfl
  have hthird : (Mode.code front 2 0).next (Nat.digitChar (c.toNat / 16)) =
      some ([], .code front 3 (c.toNat / 16)) := by
    simp [next, hexDigit?_digitChar _ (by omega : c.toNat / 16 < 16)]
  have hfourth : (Mode.code front 3 (c.toNat / 16)).next (Nat.digitChar (c.toNat % 16)) =
      some ([], .string (front ++ [c])) := by
    have hvalue : 16 * (c.toNat / 16) + c.toNat % 16 = c.toNat := Nat.div_add_mod _ _
    have hvalid : c.toNat.isValidChar := c.valid
    simp [next, hexDigit?_digitChar _ (by omega : c.toNat % 16 < 16), hvalue, hvalid]
  rw [tokens?_cons_of_next hbackslash, tokens?_cons_of_next hcode, tokens?_cons_of_next hfirst,
    tokens?_cons_of_next hsecond, tokens?_cons_of_next hthird, tokens?_cons_of_next hfourth]

/-- An escaped character is read as the character. -/
theorem tokens?_string_escape (front : List Char) (c : Char) (rest : List Char) :
    (Mode.string front).tokens? (Json.escape c ++ rest) =
      (Mode.string (front ++ [c])).tokens? rest := by
  unfold Json.escape
  split
  · exact tokens?_string_backslash (by decide) rfl front rest
  · exact tokens?_string_backslash (by decide) rfl front rest
  · exact tokens?_string_backslash (by decide) rfl front rest
  · exact tokens?_string_backslash (by decide) rfl front rest
  · exact tokens?_string_backslash (by decide) rfl front rest
  · rename_i hquote hbackslash _ _ _
    -- two more letters, codes for the other control characters, and characters as they are
    split_ifs with hbackspace hfeed hcontrol
    · have hc : '\x08' = c := Char.ext (UInt32.toNat.inj hbackspace.symm)
      exact hc ▸ tokens?_string_backslash (by decide) rfl front rest
    · have hc : '\x0c' = c := Char.ext (UInt32.toNat.inj hfeed.symm)
      exact hc ▸ tokens?_string_backslash (by decide) rfl front rest
    · exact tokens?_string_code (by omega) front rest
    · have hnext : (Mode.string front).next c = some ([], .string (front ++ [c])) := by
        rw [next, if_neg (beq_iff_eq.not.mpr hquote), if_neg (beq_iff_eq.not.mpr hbackslash),
          if_neg hcontrol]
      exact tokens?_cons_of_next hnext rest

theorem tokens?_string_append (front text rest : List Char) :
    (Mode.string front).tokens? (text.flatMap Json.escape ++ rest) =
      (Mode.string (front ++ text)).tokens? rest := by
  induction text generalizing front with
  | nil => rw [List.flatMap_nil, List.nil_append, List.append_nil]
  | cons c text ih =>
      rw [List.flatMap_cons, List.append_assoc, tokens?_string_escape, ih, List.append_assoc,
        List.singleton_append]

end Mode

/-! ## Texts -/

/-- Whether a word in front of a text ends there. -/
def StartsDelimited (text : List Char) : Prop := ∀ c ∈ text.head?, isDelimiter c = true

/-- The text is read as these tokens, where nothing or a delimiter stands behind it. -/
def Spells (text : List Char) (tokens : List Token) : Prop :=
  ∀ rest, StartsDelimited rest →
    Mode.between.tokens? (text ++ rest) = (Mode.between.tokens? rest).map (tokens ++ ·)

/-- The text is read as these tokens, whatever stands behind it. -/
def SpellsAlone (text : List Char) (tokens : List Token) : Prop :=
  ∀ rest, Mode.between.tokens? (text ++ rest) = (Mode.between.tokens? rest).map (tokens ++ ·)

theorem SpellsAlone.spells {text : List Char} {tokens : List Token} (h : SpellsAlone text tokens) :
    Spells text tokens := fun rest _ => h rest

theorem spellsAlone_nil : SpellsAlone [] [] := fun _ => Option.map_id'.symm

theorem SpellsAlone.append {s t : List Char} {ts us : List Token} (hs : SpellsAlone s ts)
    (ht : SpellsAlone t us) : SpellsAlone (s ++ t) (ts ++ us) := by
  intro rest
  rw [List.append_assoc, hs, ht, Option.map_map]
  simp only [Function.comp_def, List.append_assoc]

theorem SpellsAlone.append_spells {s t : List Char} {ts us : List Token} (hs : SpellsAlone s ts)
    (ht : Spells t us) : Spells (s ++ t) (ts ++ us) := by
  intro rest hrest
  rw [List.append_assoc, hs, ht rest hrest, Option.map_map]
  simp only [Function.comp_def, List.append_assoc]

theorem Spells.append {s t : List Char} {ts us : List Token} (hs : Spells s ts)
    (hstarts : StartsDelimited t) (ht : Spells t us) : Spells (s ++ t) (ts ++ us) := by
  intro rest hrest
  -- behind `s` stands `t`, or `rest` where `t` is empty
  have hboth : StartsDelimited (t ++ rest) := by
    cases t with
    | nil => exact hrest
    | cons c t => exact hstarts
  rw [List.append_assoc, hs _ hboth, ht rest hrest, Option.map_map]
  simp only [Function.comp_def, List.append_assoc]

/-- Blanks between tokens are skipped. -/
theorem spellsAlone_blank {c : Char} (hc : isBlank c = true) : SpellsAlone [c] [] := by
  intro rest
  rw [List.singleton_append, Mode.tokens?_between_cons, Mode.start, if_pos hc]

theorem spellsAlone_mark {c : Char} (hblank : isBlank c = false) (hc : isMark c = true) :
    SpellsAlone [c] [.mark c] := by
  intro rest
  rw [List.singleton_append, Mode.tokens?_between_cons, Mode.start,
    if_neg (Bool.eq_false_iff.mp hblank), if_pos hc]

theorem spellsAlone_replicate (n : Nat) : SpellsAlone (List.replicate n ' ') [] := by
  induction n with
  | zero => exact spellsAlone_nil
  | succ n ih => exact (spellsAlone_blank rfl).append ih

/-- A quoted string is read as the string. -/
theorem spellsAlone_quote (s : String) :
    SpellsAlone (Json.quote s).toList [.atom (.text s)] := by
  intro rest
  have hquote : Mode.start '"' = ([], .string []) := rfl
  have hend : (Mode.string s.toList).next '"' = some ([.atom (.text s)], .between) := by
    rw [Mode.next, if_pos (beq_self_eq_true _), String.ofList_toList]
  rw [Json.quote, String.toList_ofList, List.cons_append, List.cons_append,
    Mode.tokens?_between_cons, hquote]
  simp only [List.append_assoc, List.nil_append, List.singleton_append]
  rw [Mode.tokens?_string_append, List.nil_append, Mode.tokens?_cons, hend, Option.bind_some,
    Option.map_id']
  rfl

/-- A word is read as its value. -/
theorem Denotes.spells {text : List Char} {value : Json} (h : Denotes text value) :
    Spells text [.atom value] := by
  intro rest hrest
  obtain ⟨c, text, rfl⟩ := List.exists_cons_of_ne_nil h.ne_nil
  obtain ⟨hc, htext⟩ := List.forall_mem_cons.mp h.word
  have hstart : Mode.start c = ([], .word [c]) := by
    rw [isDelimiter, Bool.or_eq_false_iff, Bool.or_eq_false_iff] at hc
    rw [Mode.start, hc.1.1, hc.1.2, hc.2]
    rfl
  rw [List.cons_append, Mode.tokens?_between_cons, hstart, Mode.tokens?_word_append htext,
    List.singleton_append, Mode.tokens?_word_of_head hrest, h.literal, Option.bind_some]
  exact Option.map_id'

/-! ## Lines -/

/-- The lines spell the tokens, each line some of them. -/
inductive SpellsLines : List String → List Token → Prop
  | nil : SpellsLines [] []
  | cons {line : String} {lines : List String} {tokens more : List Token}
      (hline : Spells line.toList tokens) (hlines : SpellsLines lines more) :
      SpellsLines (line :: lines) (tokens ++ more)

namespace SpellsLines

theorem singleton {line : String} {tokens : List Token} (h : Spells line.toList tokens) :
    SpellsLines [line] tokens := by
  have hline := SpellsLines.cons h .nil
  rwa [List.append_nil] at hline

theorem append {front back : List String} {ts us : List Token} (hfront : SpellsLines front ts)
    (hback : SpellsLines back us) : SpellsLines (front ++ back) (ts ++ us) := by
  induction hfront with
  | nil => exact hback
  | cons hline _ ih =>
      rw [List.cons_append, List.append_assoc]
      exact .cons hline ih

/-- Lines are divided by line breaks, which end every word. -/
theorem spells_intercalate {lines : List String} {tokens : List Token}
    (h : SpellsLines lines tokens) : Spells ("\n".intercalate lines).toList tokens := by
  induction h with
  | nil => exact spellsAlone_nil.spells
  | @cons line lines tokens more hline hlines ih =>
      cases lines with
      | nil =>
          cases hlines
          rwa [String.intercalate_singleton, List.append_nil]
      | cons next lines =>
          have hbreak : StartsDelimited ("\n".toList ++ ("\n".intercalate (next :: lines)).toList) := by
            rintro c ⟨⟩
            rfl
          rw [String.intercalate_cons_cons, String.append_assoc, String.toList_append,
            String.toList_append]
          exact hline.append hbreak ((spellsAlone_blank rfl).append_spells ih)

/-- A margin adds no token. -/
theorem margin (n : Nat) {lines : List String} {tokens : List Token} (h : SpellsLines lines tokens) :
    SpellsLines (lines.map (String.ofList (List.replicate n ' ') ++ ·)) tokens := by
  induction h with
  | nil => exact .nil
  | cons hline _ ih =>
      refine .cons ?_ ih
      rw [String.toList_append, String.toList_ofList]
      exact (spellsAlone_replicate n).append_spells hline

/-- A label in front of the first line. -/
theorem label {label first : String} {rest : List String} {front tokens : List Token}
    (hlabel : SpellsAlone label.toList front) (h : SpellsLines (first :: rest) tokens) :
    SpellsLines ((label ++ first) :: rest) (front ++ tokens) := by
  cases h with
  | cons hline hlines =>
      rw [← List.append_assoc]
      refine .cons ?_ hlines
      rw [String.toList_append]
      exact hlabel.append_spells hline

/-- A comma, or nothing, behind the last line. -/
theorem comma {comma last : String} {front : List String} {tokens back : List Token}
    (hstarts : StartsDelimited comma.toList) (hcomma : Spells comma.toList back)
    (h : SpellsLines (front ++ [last]) tokens) :
    SpellsLines (front ++ [last ++ comma]) (tokens ++ back) := by
  induction front generalizing tokens with
  | nil =>
      -- the last line is the only one
      cases h with
      | cons hline hlines =>
          cases hlines
          rw [List.append_nil]
          refine singleton ?_
          rw [String.toList_append]
          exact hline.append hstarts hcomma
  | cons first front ih =>
      cases h with
      | cons hline hlines =>
          rw [List.append_assoc]
          exact .cons hline (ih hlines)

/-- An item in its group: the tokens of its label, of its lines and of the comma. -/
theorem placeItem (style : OutlineStyle) {label comma : String} {lines : List String}
    {front tokens back : List Token} (hne : lines ≠ []) (hlabel : SpellsAlone label.toList front)
    (hstarts : StartsDelimited comma.toList) (hcomma : Spells comma.toList back)
    (h : SpellsLines lines tokens) :
    SpellsLines (Outline.placeItem style label comma lines) (front ++ tokens ++ back) := by
  -- the label goes to the first line and the comma to the last, which may be the same one
  obtain ⟨first, rest, rfl⟩ := List.exists_cons_of_ne_nil hne
  obtain ⟨start, last, hlast⟩ : ∃ start last, (label ++ first) :: rest = start ++ [last] :=
    ⟨_, _, (List.dropLast_append_getLast (List.cons_ne_nil _ _)).symm⟩
  have hlabelled := SpellsLines.label hlabel h
  rw [hlast] at hlabelled
  have hdivided := hlabelled.comma hstarts hcomma
  simp only [Outline.placeItem, hlast]
  rw [List.getLast?_concat]
  simp only [List.dropLast_concat]
  exact hdivided.margin style.indent

end SpellsLines

end Quadra.Report.JsonReader
