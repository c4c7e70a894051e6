import Quadra.Proofs.Report.JsonLines

set_option autoImplicit false

/-!
# JSON is read back

The tokens of a value are what its lines spell (`spellsLines_lines`), and the reader builds the value
again from them (`foldlM_tokens`), but for the numbers without a text, of which it finds `null`
(`stored`): `read?_pretty`.
-/

namespace Quadra.Report

namespace JsonReader

open Json (ofNumber)

/-! ## Tokens of a value -/

/-- The comma behind an item that is not the last one. -/
def separator (last : Bool) : List Token := if last then [] else [.mark ',']

mutual

/-- What a reader finds of a value: the value, with `null` for each number that is not finite. -/
def stored : Json → Json
  | .null => .null
  | .integer n => .integer n
  | .number x => ofNumber x
  | .text s => .text s
  | .array items => .array (storedItems items)
  | .object members => .object (storedMembers members)

def storedItems : List Json → List Json
  | [] => []
  | item :: rest => stored item :: storedItems rest

def storedMembers : List (String × Json) → List (String × Json)
  | [] => []
  | (key, member) :: rest => (key, stored member) :: storedMembers rest

end

theorem storedItems_eq_map (items : List Json) : storedItems items = items.map stored := by
  induction items with
  | nil => rfl
  | cons item rest ih => rw [storedItems, ih, List.map_cons]

theorem storedMembers_eq_map (members : List (String × Json)) :
    storedMembers members = members.map fun member => (member.1, stored member.2) := by
  induction members with
  | nil => rfl
  | cons member rest ih => rw [storedMembers, ih, List.map_cons]

mutual

/-- The tokens of a value. -/
def tokens : Json → List Token
  | .null => [.atom .null]
  | .integer n => [.atom (.integer n)]
  | .number x => [.atom (ofNumber x)]
  | .text s => [.atom (.text s)]
  | .array items => .mark '[' :: (itemTokens items ++ [.mark ']'])
  | .object members => .mark '\x7b' :: (memberTokens members ++ [.mark '\x7d'])

def itemTokens : List Json → List Token
  | [] => []
  | item :: rest => tokens item ++ separator rest.isEmpty ++ itemTokens rest

def memberTokens : List (String × Json) → List Token
  | [] => []
  | (key, member) :: rest =>
      [.atom (.text key), .mark ':'] ++ tokens member ++ separator rest.isEmpty ++ memberTokens rest

end

/-! ## Lines of a value -/

theorem lines_ne_nil (style : OutlineStyle) (outline : Outline) : outline.lines style ≠ [] := by
  match outline with
  | .leaf _ => exact List.cons_ne_nil _ _
  | .group _ [] _ => exact List.cons_ne_nil _ _
  | .group _ (_ :: _) _ => exact List.cons_ne_nil _ _

theorem isEmpty_itemOutlines (items : List Json) :
    (Json.itemOutlines items).isEmpty = items.isEmpty := by
  cases items <;> rfl

theorem isEmpty_memberOutlines (members : List (String × Json)) :
    (Json.memberOutlines members).isEmpty = members.isEmpty := by
  cases members <;> rfl

/-- The label of a member is its key and a colon. -/
theorem spellsAlone_label (key : String) :
    SpellsAlone (Json.quote key ++ ": ").toList [.atom (.text key), .mark ':'] := by
  have hcolon : SpellsAlone ": ".toList ([.mark ':'] ++ []) :=
    (spellsAlone_mark rfl rfl).append (spellsAlone_blank rfl)
  rw [String.toList_append]
  exact (spellsAlone_quote key).append hcolon

section

variable {style : OutlineStyle}

/-- A group: its brackets around its items, in one line or in several. -/
theorem spellsLines_group {opening closing : String} {items : List (String × Outline)}
    {front tokens back : List Token} (hopening : SpellsAlone opening.toList front)
    (hclosing : SpellsAlone closing.toList back)
    (hitems : SpellsLines (Outline.itemLines style items) tokens) :
    SpellsLines ((Outline.group opening items closing).lines style)
      (front ++ (tokens ++ back)) := by
  cases items with
  | nil =>
      cases hitems
      refine .singleton ?_
      rw [String.toList_append]
      exact (hopening.append hclosing).spells
  | cons item items =>
      exact .cons hopening.spells (hitems.append (.singleton hclosing.spells))

/-- An item in front of others, or the last one. -/
theorem spellsLines_item (hstyle : style.trailingComma = false) {label : String} {item : Outline}
    {rest : List (String × Outline)} {front tokens more : List Token}
    (hlabel : SpellsAlone label.toList front) (hitem : SpellsLines (item.lines style) tokens)
    (hrest : SpellsLines (Outline.itemLines style rest) more) :
    SpellsLines (Outline.itemLines style ((label, item) :: rest))
      (front ++ tokens ++ separator rest.isEmpty ++ more) := by
  rw [Outline.itemLines, hstyle]
  refine .append ?_ hrest
  have hne := lines_ne_nil style item
  cases rest with
  | nil => exact hitem.placeItem style hne hlabel (by rintro c ⟨⟩) spellsAlone_nil.spells
  | cons next rest =>
      have hcomma : SpellsAlone ",".toList [.mark ','] := spellsAlone_mark rfl rfl
      have hstarts : StartsDelimited ",".toList := by
        rintro c ⟨⟩
        rfl
      exact hitem.placeItem style hne hlabel hstarts hcomma.spells

mutual

/-- The lines of a value spell its tokens. -/
theorem spellsLines_lines (hstyle : style.trailingComma = false) (value : Json) :
    SpellsLines (value.outline.lines style) (tokens value) := by
  match value with
  | .null => exact .singleton denotes_null.spells
  | .integer n => exact .singleton (denotes_toString n).spells
  | .number x => exact .singleton (denotes_numberText x).spells
  | .text s => exact .singleton (spellsAlone_quote s).spells
  | .array items =>
      have hopening : SpellsAlone "[".toList [.mark '['] := spellsAlone_mark rfl rfl
      have hclosing : SpellsAlone "]".toList [.mark ']'] := spellsAlone_mark rfl rfl
      exact spellsLines_group hopening hclosing (spellsLines_items hstyle items)
  | .object members =>
      have hopening : SpellsAlone "\x7b".toList [.mark '\x7b'] := spellsAlone_mark rfl rfl
      have hclosing : SpellsAlone "\x7d".toList [.mark '\x7d'] := spellsAlone_mark rfl rfl
      exact spellsLines_group hopening hclosing (spellsLines_members hstyle members)

theorem spellsLines_items (hstyle : style.trailingComma = false) (items : List Json) :
    SpellsLines (Outline.itemLines style (Json.itemOutlines items)) (itemTokens items) := by
  match items with
  | [] => exact .nil
  | item :: rest =>
      have hlabel : SpellsAlone "".toList [] := spellsAlone_nil
      have hitem := spellsLines_item hstyle hlabel (spellsLines_lines hstyle item)
        (spellsLines_items hstyle rest)
      rwa [isEmpty_itemOutlines] at hitem

theorem spellsLines_members (hstyle : style.trailingComma = false)
    (members : List (String × Json)) :
    SpellsLines (Outline.itemLines style (Json.memberOutlines members))
      (memberTokens members) := by
  match members with
  | [] => exact .nil
  | (key, member) :: rest =>
      have hitem := spellsLines_item hstyle (spellsAlone_label key) (spellsLines_lines hstyle member)
        (spellsLines_members hstyle rest)
      rwa [isEmpty_memberOutlines] at hitem

end

end

/-- The text of a value spells its tokens. -/
theorem tokens?_pretty (value : Json) :
    Mode.between.tokens? value.pretty.toList = some (tokens value) := by
  have hlines : SpellsLines (value.outline.lines ⟨2, false⟩) (tokens value) :=
    spellsLines_lines rfl value
  -- nothing stands behind the last line
  have h := hlines.spells_intercalate [] (by rintro c ⟨⟩)
  rw [List.append_nil] at h
  rw [Json.pretty, Outline.text, h]
  exact congrArg some (List.append_nil _)

/-! ## Building the value -/

/-- An array starts alike whether its first item or a further one comes next. -/
theorem foldlM_atFirstItem (value : Json) (more : List Token) (frames : List Frame) :
    (tokens value ++ more).foldlM Reading.next (.atFirstItem frames) =
      (tokens value ++ more).foldlM Reading.next (.atValue (.array [] :: frames)) := by
  cases value <;> rfl

mutual

/-- A reader builds the value that is stored in the tokens. -/
theorem foldlM_tokens (value : Json) (frames : List Frame) :
    (tokens value).foldlM Reading.next (.atValue frames) =
      some (.behind (stored value) frames) := by
  match value with
  | .null => rfl
  | .integer n => rfl
  | .number x => rfl
  | .text s => rfl
  | .array [] => rfl
  | .array (item :: rest) =>
      -- the bracket is followed by the first item, the lemma on items is about a further one
      have hitems := foldlM_itemTokens (item :: rest) (List.cons_ne_nil _ _) [] frames
      simp only [itemTokens, List.append_assoc] at hitems
      rw [← foldlM_atFirstItem] at hitems
      simp only [tokens, itemTokens, List.append_assoc]
      exact hitems
  | .object [] => rfl
  | .object (member :: rest) =>
      exact foldlM_memberTokens (member :: rest) (List.cons_ne_nil _ _) [] frames

/-- The items of an array, behind those that have been read. -/
theorem foldlM_itemTokens (more : List Json) (hne : more ≠ []) (items : List Json)
    (frames : List Frame) :
    (itemTokens more ++ [Token.mark ']']).foldlM Reading.next (.atValue (.array items :: frames)) =
      some (.behind (.array (items ++ storedItems more)) frames) := by
  match more with
  | item :: rest =>
      rw [itemTokens, List.append_assoc, List.append_assoc, List.foldlM_append, foldlM_tokens item]
      match rest with
      | [] => rfl
      | next :: rest =>
          have hrest := foldlM_itemTokens (next :: rest) (List.cons_ne_nil _ _)
            (items ++ [stored item]) frames
          rw [List.append_assoc] at hrest
          exact hrest

/-- The members of an object, behind those that have been read. -/
theorem foldlM_memberTokens (more : List (String × Json)) (hne : more ≠ [])
    (members : List (String × Json)) (frames : List Frame) :
    (memberTokens more ++ [Token.mark '\x7d']).foldlM Reading.next (.atKey members frames) =
      some (.behind (.object (members ++ storedMembers more)) frames) := by
  match more with
  | (key, member) :: rest =>
      have hmember : ([Token.atom (.text key), Token.mark ':'] ++ tokens member).foldlM Reading.next
          (.atKey members frames) = some (.behind (stored member) (.object members key :: frames)) :=
        foldlM_tokens member _
      rw [memberTokens, List.append_assoc, List.append_assoc, List.foldlM_append, hmember]
      match rest with
      | [] => rfl
      | next :: rest =>
          have hrest := foldlM_memberTokens (next :: rest) (List.cons_ne_nil _ _)
            (members ++ [(key, stored member)]) frames
          rw [List.append_assoc] at hrest
          exact hrest

end

end JsonReader

open JsonReader

/-- **What is written is read back**, but for the numbers that have no text. -/
theorem Json.read?_pretty (value : Json) : read? value.pretty = some (stored value) := by
  rw [read?, tokens?_pretty]
  show ((tokens value).foldlM Reading.next (.atValue [])).bind _ = _
  rw [foldlM_tokens]
  rfl

end Quadra.Report
