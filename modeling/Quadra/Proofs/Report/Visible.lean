import Quadra.Proofs.Decimal.Layout
import Quadra.Report.Form
import Quadra.Solution.Solve

set_option autoImplicit false

/-!
# Texts without control characters

What equations, solutions and their explanations are written with is visible (`Visible`), so that no such
text has a line break or the start of an escape sequence, whatever the numbers are. Lines of records and
dumps are visible too, since strings escape their control characters.
-/

namespace Quadra

namespace Report

/-! ## Visible texts -/

/-- A character that is no control character of ASCII. -/
def isVisible (c : Char) : Bool := 0x20 ≤ c.toNat

/-- A text without control characters. -/
def Visible (s : String) : Prop := ∀ c ∈ s.toList, isVisible c = true

instance (s : String) : Decidable (Visible s) := inferInstanceAs (Decidable (∀ c ∈ s.toList, _))

theorem visible_ofList {text : List Char} : Visible (.ofList text) ↔ ∀ c ∈ text, isVisible c = true := by
  rw [Visible, String.toList_ofList]

/-- What is spelled out in a text is seen at its characters. -/
theorem visible_literal {text : List Char} (h : text.all isVisible = true) : Visible (.ofList text) :=
  visible_ofList.mpr (List.all_eq_true.mp h)

@[simp] theorem visible_append (s t : String) : Visible (s ++ t) ↔ Visible s ∧ Visible t := by
  rw [Visible, String.toList_append, List.forall_mem_append]
  rfl

theorem visible_join {texts : List String} (h : ∀ text ∈ texts, Visible text) :
    Visible (.join texts) := by
  intro c hc
  rw [String.toList_join, List.mem_flatMap] at hc
  obtain ⟨text, htext, hc⟩ := hc
  exact h text htext c hc

theorem visible_intercalate {separator : String} (hseparator : Visible separator) {texts : List String}
    (h : ∀ text ∈ texts, Visible text) : Visible (separator.intercalate texts) := by
  induction texts with
  | nil => simp [Visible]
  | cons text rest ih =>
      obtain ⟨htext, hrest⟩ := List.forall_mem_cons.mp h
      cases rest with
      | nil => rwa [String.intercalate_singleton]
      | cons next rest =>
          rw [String.intercalate_cons_cons, visible_append, visible_append]
          exact ⟨⟨htext, hseparator⟩, ih hrest⟩

/-! ## Numbers -/

theorem isVisible_of_isDigit {c : Char} (h : c.isDigit = true) : isVisible c = true := by
  obtain ⟨hlow, -⟩ := Char.isDigit_iff_toNat.mp h
  have hzero : '0'.toNat = 48 := rfl
  exact decide_eq_true (by omega)

theorem isVisible_toDigits (n : Nat) : ∀ c ∈ Nat.toDigits 10 n, isVisible c = true :=
  fun c hc => isVisible_of_isDigit (isDigit_toDigits n c hc)

theorem isVisible_replicate_zero (n : Nat) : ∀ c ∈ List.replicate n '0', isVisible c = true :=
  fun _ hc => isVisible_of_isDigit (isDigit_of_mem_replicate_zero hc)

theorem visible_toString_nat (n : Nat) : Visible (toString n) := by
  rw [Nat.toString_eq_ofList_toDigits, visible_ofList]
  exact isVisible_toDigits n

theorem visible_toString_int (n : Int) : Visible (toString n) := by
  cases n with
  | ofNat n => exact visible_toString_nat n
  | negSucc n => exact (visible_append "-" _).mpr ⟨visible_literal rfl, visible_toString_nat (n + 1)⟩

theorem isVisible_writePositional (pointZero : Bool) (d : Decimal) :
    ∀ c ∈ Layout.writePositional pointZero d, isVisible c = true := by
  have hdigits : ∀ c ∈ d.digits, isVisible c = true := isVisible_toDigits d.significand
  rw [Layout.writePositional]
  split
  · have hinteger := List.forall_mem_append.mpr ⟨hdigits, isVisible_replicate_zero d.exponent.toNat⟩
    refine List.forall_mem_append.mpr ⟨hinteger, ?_⟩
    split <;> exact List.all_eq_true.mp rfl
  · dsimp only
    split
    · refine List.forall_mem_append.mpr ⟨fun c hc => hdigits c (List.mem_of_mem_take hc), ?_⟩
      exact List.forall_mem_cons.mpr ⟨rfl, fun c hc => hdigits c (List.mem_of_mem_drop hc)⟩
    · exact List.forall_mem_append.mpr ⟨List.forall_mem_cons.mpr ⟨rfl, List.forall_mem_cons.mpr
        ⟨rfl, isVisible_replicate_zero _⟩⟩, hdigits⟩

theorem isVisible_writeScientific (exponentPlus : Bool) (d : Decimal) :
    ∀ c ∈ Layout.writeScientific exponentPlus d, isVisible c = true := by
  have hdigits : ∀ c ∈ d.digits, isVisible c = true := isVisible_toDigits d.significand
  rw [Layout.writeScientific]
  refine List.forall_mem_append.mpr ⟨List.forall_mem_append.mpr ⟨?_, List.forall_mem_cons.mpr ⟨rfl, ?_⟩⟩,
    isVisible_toDigits _⟩
  · split
    · exact List.all_eq_true.mp rfl
    · rename_i hone
      rwa [← hone]
    · rename_i hmore
      obtain ⟨hc, hcs⟩ := List.forall_mem_cons.mp (hmore ▸ hdigits)
      exact List.forall_mem_cons.mpr ⟨hc, List.forall_mem_cons.mpr ⟨rfl, hcs⟩⟩
  · split
    · exact List.all_eq_true.mp rfl
    · split <;> exact List.all_eq_true.mp rfl

theorem isVisible_write (layout : Layout) (x : Binary64) :
    ∀ c ∈ layout.write x, isVisible c = true := by
  have hsign : ∀ c ∈ (if x.isNegative then ['-'] else []), isVisible c = true := by
    split <;> exact List.all_eq_true.mp rfl
  rcases x with _ | negative | ⟨negative, m, e, h⟩
  · show ∀ c ∈ ['N', 'a', 'N'], _
    exact List.all_eq_true.mp rfl
  · exact List.forall_mem_append.mpr ⟨hsign, List.all_eq_true.mp rfl⟩
  · refine List.forall_mem_append.mpr ⟨hsign, ?_⟩
    rw [Layout.writeDecimal]
    split
    · exact isVisible_writePositional _ _
    · exact isVisible_writeScientific _ _

theorem visible_display (x : Binary64) : Visible x.display :=
  visible_ofList.mpr (isVisible_write _ _)

theorem visible_inspect (x : Binary64) : Visible x.inspect :=
  visible_ofList.mpr (isVisible_write _ _)

theorem visible_numberText (x : Binary64) : Visible (Json.numberText x) := by
  rw [Json.numberText]
  split
  · exact visible_ofList.mpr (isVisible_write _ _)
  · exact visible_literal rfl

theorem visible_fixed (x : Binary64) : Visible x.fixed := by
  rw [Binary64.fixed, visible_ofList]
  generalize x + Binary64.zero false = y
  have hsign : ∀ c ∈ (if y.isNegative then ['-'] else []), isVisible c = true := by
    split <;> exact List.all_eq_true.mp rfl
  rcases y with _ | negative | ⟨negative, m, e, h⟩
  · show ∀ c ∈ ['N', 'a', 'N'], _
    exact List.all_eq_true.mp rfl
  · exact List.forall_mem_append.mpr ⟨hsign, List.all_eq_true.mp rfl⟩
  · refine List.forall_mem_append.mpr ⟨hsign, ?_⟩
    rw [Fixed.writeScaled]
    exact List.forall_mem_append.mpr ⟨isVisible_toDigits _, List.forall_mem_cons.mpr ⟨rfl,
      List.forall_mem_append.mpr ⟨isVisible_replicate_zero _, isVisible_toDigits _⟩⟩⟩

theorem visible_fraction (f : Fraction) : Visible f.text := by
  rw [Fraction.text]
  split
  · exact visible_toString_int _
  · rw [visible_append, visible_append]
    exact ⟨⟨visible_toString_int _, visible_literal rfl⟩, visible_toString_nat _⟩

/-! ## Equations and solutions -/

theorem visible_canonical (p : Polynomial) : Visible p.canonical := by
  have hterm : ∀ entry, Visible (Polynomial.termText entry) := by
    intro entry
    rw [Polynomial.termText, visible_append, visible_append]
    exact ⟨⟨visible_display _, visible_literal rfl⟩, visible_toString_nat _⟩
  have hleading : ∀ c, Visible (Polynomial.leadingSign c) := by
    intro c
    rw [Polynomial.leadingSign]
    split <;> exact visible_literal rfl
  have hseparator : ∀ c, Visible (Polynomial.separator c) := by
    intro c
    rw [Polynomial.separator]
    split <;> exact visible_literal rfl
  rw [Polynomial.canonical]
  cases p.coefficients.entries with
  | nil => exact visible_literal rfl
  | cons first rest =>
      rw [Polynomial.canonicalTerms]
      simp only [visible_append]
      refine ⟨⟨⟨hleading _, hterm _⟩, visible_join ?_⟩, visible_literal rfl⟩
      refine List.forall_mem_map.mpr fun entry _ => ?_
      exact (visible_append _ _).mpr ⟨hseparator _, hterm _⟩

theorem visible_summary (kind : SolutionKind) : Visible kind.summary := by
  cases kind <;> exact visible_literal rfl

theorem visible_name (kind : SolutionKind) : Visible kind.name := by
  cases kind <;> exact visible_literal rfl

theorem visible_root (fractions : Bool) (root : Root) : Visible (root.text fractions) := by
  rw [Root.text]
  split
  · split
    · exact visible_fraction _
    · exact visible_display _
  · exact visible_display _

theorem visible_solution (fractions : Bool) (solution : Solution) :
    Visible (solution.text fractions) := by
  cases solution with
  | real root => exact visible_root fractions root
  | complex re im =>
      have hpart : ∀ root : Root,
          Visible (if fractions = true then root.text true else root.value.fixed) := by
        intro root
        split
        · exact visible_root true root
        · exact visible_fixed _
      have hsign : Visible (if im.value < 0 then "-" else "+") := by
        split <;> exact visible_literal rfl
      rw [Solution.text]
      simp only [visible_append]
      exact ⟨⟨⟨⟨hpart re, visible_literal rfl⟩, hsign⟩, visible_literal rfl⟩, hpart _⟩

/-! ## Explanations -/

theorem visible_discriminantSteps (k : Coefficients) (x : Binary64) :
    ∀ line ∈ k.discriminantSteps x, Visible line := by
  refine List.forall_mem_cons.mpr ⟨visible_literal rfl, List.forall_mem_singleton.mpr ?_⟩
  simp only [visible_append, visible_display, and_true]
  and_intros <;> exact visible_literal rfl

theorem visible_formulaStep (k : Coefficients) {root sign symbol radical result : String}
    (hroot : Visible root) (hsign : Visible sign) (hsymbol : Visible symbol) (hradical : Visible radical)
    (hresult : Visible result) : Visible (k.formulaStep root sign symbol radical result) := by
  rw [Coefficients.formulaStep]
  simp only [visible_append, visible_display, hroot, hsign, hsymbol, hradical, hresult, true_and, and_true]
  and_intros <;> exact visible_literal rfl

/-- The two steps of a pair of roots, behind its summary. -/
theorem visible_pair (k : Coefficients) (kind : SolutionKind) {symbol letters result result' : String}
    (x : Binary64) (hsymbol : Visible symbol) (hletters : Visible letters) (hresult : Visible result)
    (hresult' : Visible result') :
    ∀ line ∈ [kind.summary, k.formulaStep "x₁" "+" symbol (letters ++ x.display) result,
      k.formulaStep "x₂" "-" symbol (letters ++ x.display) result'], Visible line := by
  have hradical : Visible (letters ++ x.display) := (visible_append _ _).mpr ⟨hletters, visible_display x⟩
  have hplus : Visible (k.formulaStep "x₁" "+" symbol (letters ++ x.display) result) :=
    visible_formulaStep k (visible_literal rfl) (visible_literal rfl) hsymbol hradical hresult
  have hminus : Visible (k.formulaStep "x₂" "-" symbol (letters ++ x.display) result') :=
    visible_formulaStep k (visible_literal rfl) (visible_literal rfl) hsymbol hradical hresult'
  exact List.forall_mem_cons.mpr ⟨visible_summary kind, List.forall_mem_cons.mpr ⟨hplus,
    List.forall_mem_singleton.mpr hminus⟩⟩

theorem visible_doubleRoot (k : Coefficients) (x : Binary64) :
    ∀ line ∈ (k.doubleRoot x).explanation, Visible line := by
  refine List.forall_mem_cons.mpr ⟨visible_literal rfl, List.forall_mem_singleton.mpr ?_⟩
  simp only [visible_append, visible_display, visible_fixed, and_true]
  and_intros <;> exact visible_literal rfl

theorem visible_quadratic (k : Coefficients) : ∀ line ∈ k.quadratic.explanation, Visible line := by
  rw [Coefficients.quadratic]
  refine List.forall_mem_append.mpr ⟨visible_discriminantSteps k _, ?_⟩
  split
  · exact visible_pair k .positiveDiscriminant _ (visible_literal rfl) (visible_literal rfl)
      (visible_fixed _) (visible_fixed _)
  · split
    · exact visible_doubleRoot k _
    · exact visible_pair k .negativeDiscriminant _ (visible_literal rfl) (visible_literal rfl)
        (visible_solution _ _) (visible_solution _ _)

theorem visible_linear (k : Coefficients) : ∀ line ∈ k.linear.explanation, Visible line := by
  refine List.forall_mem_cons.mpr ⟨visible_literal rfl, List.forall_mem_singleton.mpr ?_⟩
  simp only [visible_append, visible_display, visible_fixed, and_true]
  and_intros <;> exact visible_literal rfl

theorem visible_constant (k : Coefficients) : ∀ line ∈ k.constant.explanation, Visible line := by
  rw [Coefficients.constant]
  split
  · refine List.forall_mem_singleton.mpr ?_
    simp only [visible_append, visible_display, and_true]
    and_intros <;> exact visible_literal rfl
  · exact List.forall_mem_singleton.mpr (visible_literal rfl)

/-- No line of an explanation has a line break of its own. -/
theorem visible_explanation (p : Polynomial) : ∀ line ∈ p.solve.explanation, Visible line := by
  show ∀ line ∈ p.analysis.explanation, Visible line
  rw [Polynomial.analysis]
  split
  · exact visible_constant _
  · exact visible_linear _
  · exact visible_quadratic _
  · exact List.forall_mem_singleton.mpr (visible_summary .unsupported)

/-! ## Outlines -/

theorem isVisible_escape (c : Char) : ∀ d ∈ Json.escape c, isVisible d = true := by
  have hdigit : ∀ n < 16, isVisible (Nat.digitChar n) = true := by decide
  unfold Json.escape
  split
  · exact List.all_eq_true.mp rfl
  · exact List.all_eq_true.mp rfl
  · exact List.all_eq_true.mp rfl
  · exact List.all_eq_true.mp rfl
  · exact List.all_eq_true.mp rfl
  · split
    · exact List.all_eq_true.mp rfl
    · split
      · exact List.all_eq_true.mp rfl
      · split
        · -- a code of four digits
          have hhigh := hdigit (c.toNat / 16) (by omega)
          have hlow := hdigit (c.toNat % 16) (by omega)
          simp only [List.forall_mem_cons]
          exact ⟨rfl, rfl, rfl, rfl, hhigh, hlow, fun _ h => absurd h List.not_mem_nil⟩
        · exact List.forall_mem_singleton.mpr (decide_eq_true (by omega))

/-- A string in quotes has no control characters, since they are escaped. -/
theorem visible_quote (s : String) : Visible (Json.quote s) := by
  rw [Json.quote, visible_ofList]
  refine List.forall_mem_cons.mpr ⟨rfl, List.forall_mem_append.mpr ⟨fun c hc => ?_, List.all_eq_true.mp rfl⟩⟩
  obtain ⟨d, -, hd⟩ := List.mem_flatMap.mp hc
  exact isVisible_escape d c hd

mutual

/-- All texts of an outline are visible. -/
def OutlineVisible : Outline → Prop
  | .leaf text => Visible text
  | .group opening items closing => Visible opening ∧ ItemsVisible items ∧ Visible closing

/-- All labels and items of a group are visible. -/
def ItemsVisible : List (String × Outline) → Prop
  | [] => True
  | (label, item) :: rest => Visible label ∧ OutlineVisible item ∧ ItemsVisible rest

end

theorem visible_placeItem (style : OutlineStyle) {label comma : String} (hlabel : Visible label)
    (hcomma : Visible comma) {lines : List String} (h : ∀ line ∈ lines, Visible line) :
    ∀ line ∈ Outline.placeItem style label comma lines, Visible line := by
  have hmargin : Visible (.ofList (List.replicate style.indent ' ')) :=
    visible_ofList.mpr fun c hc => by rw [List.eq_of_mem_replicate hc]; rfl
  cases lines with
  | nil => exact fun _ hline => absurd hline List.not_mem_nil
  | cons first rest =>
      obtain ⟨hfirst, hrest⟩ := List.forall_mem_cons.mp h
      obtain ⟨start, last, hlast⟩ : ∃ start last, (label ++ first) :: rest = start ++ [last] :=
        ⟨_, _, (List.dropLast_append_getLast (List.cons_ne_nil _ _)).symm⟩
      have hlabelled : ∀ line ∈ start ++ [last], Visible line :=
        hlast ▸ List.forall_mem_cons.mpr ⟨(visible_append _ _).mpr ⟨hlabel, hfirst⟩, hrest⟩
      obtain ⟨hstart, hend⟩ := List.forall_mem_append.mp hlabelled
      simp only [Outline.placeItem, hlast]
      rw [List.getLast?_concat]
      simp only [List.dropLast_concat]
      refine List.forall_mem_map.mpr fun line hline => (visible_append _ _).mpr ⟨hmargin, ?_⟩
      rcases List.mem_append.mp hline with hline | hline
      · exact hstart line hline
      · rw [List.mem_singleton.mp hline, visible_append]
        exact ⟨List.forall_mem_singleton.mp hend, hcomma⟩

mutual

/-- So are its lines. -/
theorem visible_lines (style : OutlineStyle) {outline : Outline} (h : OutlineVisible outline) :
    ∀ line ∈ outline.lines style, Visible line := by
  match outline, h with
  | .leaf text, h => exact List.forall_mem_singleton.mpr h
  | .group opening [] closing, ⟨hopening, _, hclosing⟩ =>
      exact List.forall_mem_singleton.mpr ((visible_append _ _).mpr ⟨hopening, hclosing⟩)
  | .group opening (item :: items) closing, ⟨hopening, hitems, hclosing⟩ =>
      exact List.forall_mem_append.mpr ⟨List.forall_mem_cons.mpr ⟨hopening, visible_itemLines style hitems⟩,
        List.forall_mem_singleton.mpr hclosing⟩

theorem visible_itemLines (style : OutlineStyle) {items : List (String × Outline)}
    (h : ItemsVisible items) : ∀ line ∈ Outline.itemLines style items, Visible line := by
  match items, h with
  | [], _ => exact fun _ hline => absurd hline List.not_mem_nil
  | (label, item) :: rest, ⟨hlabel, hitem, hrest⟩ =>
      have hcomma : Visible (if rest.isEmpty && !style.trailingComma then "" else ",") := by
        split <;> exact visible_literal rfl
      exact List.forall_mem_append.mpr ⟨visible_placeItem style hlabel hcomma (visible_lines style hitem),
        visible_itemLines style hrest⟩

end

/-! ## Records and dumps -/

theorem outlineVisible_leaf {text : String} (h : Visible text) : OutlineVisible (.leaf text) := h

theorem outlineVisible_group {opening closing : String} {items : List (String × Outline)}
    (hopening : Visible opening) (hitems : ItemsVisible items) (hclosing : Visible closing) :
    OutlineVisible (.group opening items closing) :=
  ⟨hopening, hitems, hclosing⟩

theorem itemsVisible_cons {label : String} {item : Outline} {items : List (String × Outline)}
    (hlabel : Visible label) (hitem : OutlineVisible item) (hitems : ItemsVisible items) :
    ItemsVisible ((label, item) :: items) :=
  ⟨hlabel, hitem, hitems⟩

theorem itemsVisible_map {α : Type} {items : List α} {label : α → String} {item : α → Outline}
    (hlabel : ∀ x ∈ items, Visible (label x)) (hitem : ∀ x ∈ items, OutlineVisible (item x)) :
    ItemsVisible (items.map fun x => (label x, item x)) := by
  induction items with
  | nil => exact trivial
  | cons x items ih =>
      obtain ⟨hlabel, hlabels⟩ := List.forall_mem_cons.mp hlabel
      obtain ⟨hitem, hitems⟩ := List.forall_mem_cons.mp hitem
      exact ⟨hlabel, hitem, ih hlabels hitems⟩

mutual

/-- Every value of a record is visible, whatever its texts are. -/
theorem outlineVisible_json (value : Json) : OutlineVisible value.outline := by
  match value with
  | .null => exact outlineVisible_leaf (visible_literal rfl)
  | .integer n => exact visible_toString_nat n
  | .number x => exact visible_numberText x
  | .text s => exact visible_quote s
  | .array items =>
      exact outlineVisible_group (visible_literal rfl) (itemsVisible_items items) (visible_literal rfl)
  | .object members =>
      exact outlineVisible_group (visible_literal rfl) (itemsVisible_members members) (visible_literal rfl)

theorem itemsVisible_items (items : List Json) : ItemsVisible (Json.itemOutlines items) := by
  match items with
  | [] => exact trivial
  | item :: rest =>
      exact itemsVisible_cons (visible_literal rfl) (outlineVisible_json item) (itemsVisible_items rest)

theorem itemsVisible_members (members : List (String × Json)) :
    ItemsVisible (Json.memberOutlines members) := by
  match members with
  | [] => exact trivial
  | (key, member) :: rest =>
      exact itemsVisible_cons ((visible_append _ _).mpr ⟨visible_quote key, visible_literal rfl⟩)
        (outlineVisible_json member) (itemsVisible_members rest)

end

theorem outlineVisible_record {name : String} (hname : Visible name) {fields : List (String × Outline)}
    (hfields : ∀ field ∈ fields, Visible field.1 ∧ OutlineVisible field.2) :
    OutlineVisible (.record name fields) := by
  refine outlineVisible_group ((visible_append _ _).mpr ⟨hname, visible_literal rfl⟩)
    (itemsVisible_map (fun field h => ?_) (fun field h => (hfields field h).2)) (visible_literal rfl)
  exact (visible_append _ _).mpr ⟨(hfields field h).1, visible_literal rfl⟩

theorem outlineVisible_wrapped {name : String} (hname : Visible name) {item : Outline}
    (hitem : OutlineVisible item) : OutlineVisible (.wrapped name item) :=
  outlineVisible_group ((visible_append _ _).mpr ⟨hname, visible_literal rfl⟩)
    (itemsVisible_cons (visible_literal rfl) hitem trivial) (visible_literal rfl)

theorem outlineVisible_list {items : List Outline} (h : ∀ item ∈ items, OutlineVisible item) :
    OutlineVisible (.list items) :=
  outlineVisible_group (visible_literal rfl) (itemsVisible_map (fun _ _ => visible_literal rfl) h)
    (visible_literal rfl)

theorem outlineVisible_number (x : Binary64) : OutlineVisible (.number x) := visible_inspect x

theorem outlineVisible_quoted (s : String) : OutlineVisible (.quoted s) := visible_quote s

theorem outlineVisible_root (root : Root) : OutlineVisible (rootOutline root) := by
  have hrational : OutlineVisible (.leaf (toString root.rational)) := by
    cases root.rational <;> exact outlineVisible_leaf (visible_literal rfl)
  refine outlineVisible_record (visible_literal rfl) ?_
  simp only [List.forall_mem_cons, List.not_mem_nil, false_implies, implies_true, outlineVisible_number,
    hrational, and_true]
  and_intros <;> exact visible_literal rfl

theorem outlineVisible_solution (solution : Solution) : OutlineVisible (solutionOutline solution) := by
  cases solution with
  | real root => exact outlineVisible_wrapped (visible_literal rfl) (outlineVisible_root root)
  | complex re im =>
      refine outlineVisible_record (visible_literal rfl) ?_
      simp only [List.forall_mem_cons, List.not_mem_nil, false_implies, implies_true, outlineVisible_root,
        and_true]
      and_intros <;> exact visible_literal rfl

theorem outlineVisible_polynomial (p : Polynomial) : OutlineVisible (polynomialOutline p) := by
  have hentries : OutlineVisible (.group "\x7b" (p.coefficients.entries.map fun entry =>
      (toString entry.1.val ++ ": ", Outline.number entry.2)) "\x7d") := by
    refine outlineVisible_group (visible_literal rfl) (itemsVisible_map (fun entry _ => ?_)
      (fun entry _ => outlineVisible_number _)) (visible_literal rfl)
    exact (visible_append _ _).mpr ⟨visible_toString_nat _, visible_literal rfl⟩
  have hdegree := outlineVisible_leaf (visible_toString_nat p.degree.val)
  refine outlineVisible_record (visible_literal rfl) ?_
  simp only [List.forall_mem_cons, List.not_mem_nil, false_implies, implies_true, hentries, hdegree, and_true]
  and_intros <;> exact visible_literal rfl

theorem outlineVisible_resolution (r : Resolution) : OutlineVisible (resolutionOutline r) := by
  have hdegree := outlineVisible_leaf (visible_toString_nat r.degree.val)
  have hcoefficients : OutlineVisible (.record "Coefficients"
      [("a", .number r.coefficients.a), ("b", .number r.coefficients.b),
        ("c", .number r.coefficients.c)]) := by
    refine outlineVisible_record (visible_literal rfl) ?_
    simp only [List.forall_mem_cons, List.not_mem_nil, false_implies, implies_true, outlineVisible_number,
      and_true]
    and_intros <;> exact visible_literal rfl
  have hdiscriminant : OutlineVisible (.optional (r.discriminant.map .number)) := by
    cases r.discriminant with
    | none => exact outlineVisible_leaf (visible_literal rfl)
    | some x => exact outlineVisible_wrapped (visible_literal rfl) (outlineVisible_number x)
  have hkind := outlineVisible_leaf (visible_name r.kind)
  have hsolutions : OutlineVisible (.list (r.solutions.map solutionOutline)) :=
    outlineVisible_list (List.forall_mem_map.mpr fun solution _ => outlineVisible_solution solution)
  have hexplanation : OutlineVisible (.list (r.explanation.map .quoted)) :=
    outlineVisible_list (List.forall_mem_map.mpr fun line _ => outlineVisible_quoted line)
  refine outlineVisible_record (visible_literal rfl) ?_
  simp only [List.forall_mem_cons, List.not_mem_nil, false_implies, implies_true, outlineVisible_quoted,
    hdegree, hcoefficients, hdiscriminant, hkind, hsolutions, hexplanation, and_true]
  and_intros <;> exact visible_literal rfl

end Report

end Quadra
