import Quadra.Diagnostic.Snippet
import Quadra.Proofs.Equation.Faults

set_option autoImplicit false

/-!
# The caret line

The fourth line of a snippet has the carets. They are placed by character, but the span counts bytes:
they stand below the characters of the span exactly when both of its ends point at their columns
(`PointsAt`), which is so when the equation is plain ASCII.
-/

namespace Quadra.Diagnostic

open Text Equation

/-! ## Lines -/

/-- A text without a line break. -/
def OneLine (text : String) : Prop := '\n' ∉ text.toList

instance (text : String) : Decidable (OneLine text) := inferInstanceAs (Decidable (¬ _))

@[simp] theorem oneLine_append (s t : String) : OneLine (s ++ t) ↔ OneLine s ∧ OneLine t := by
  rw [OneLine, String.toList_append, List.mem_append, not_or]
  rfl

/-- The line of a report that has the carets: the fourth one. -/
def caretLine (report : String) : Option (List Char) := (report.toList.splitOn '\n')[3]?

theorem toList_join_cons (line : String) (lines : List String) :
    (String.join ((line :: lines).map (· ++ "\n"))).toList =
      line.toList ++ '\n' :: (String.join (lines.map (· ++ "\n"))).toList := by
  simp

/-- The lines of a report are found again in its text. -/
theorem getElem?_splitOn_join {front : List String} (hfront : ∀ line ∈ front, OneLine line)
    {line : String} (hline : OneLine line) (rest : List String) :
    ((String.join ((front ++ line :: rest).map (· ++ "\n"))).toList.splitOn '\n')[front.length]? =
      some line.toList := by
  induction front with
  | nil =>
      rw [List.nil_append, toList_join_cons, List.splitOn_append_cons_self_of_not_mem hline]
      rfl
  | cons first front ih =>
      obtain ⟨hfirst, hothers⟩ := List.forall_mem_cons.mp hfront
      rw [List.cons_append, toList_join_cons, List.splitOn_append_cons_self_of_not_mem hfirst,
        List.length_cons, List.getElem?_cons_succ, ih hothers]

/-! ## Labels -/

theorem oneLine_of_spells {kind : Kind} {text : List Char} (h : Spells kind text) :
    OneLine kind.text := by
  cases h with
  | number _ hchars =>
      intro hmem
      rw [Kind.text, String.toList_ofList] at hmem
      exact absurd (hchars _ hmem) (by decide)
  | @symbol c hblank =>
      have hc : c ≠ '\n' := by
        rintro rfl
        exact absurd hblank (by decide)
      unfold Kind.ofChar
      split <;> simp [OneLine, Kind.text, hc.symm]

/-- Digits are no line break. -/
theorem oneLine_toString (n : Nat) : OneLine (toString n) := by
  rw [OneLine, Nat.toString_eq_ofList_toDigits, String.toList_ofList]
  intro hmem
  have hdigit : '\n'.isDigit = true := Nat.isDigit_of_mem_toDigits (by decide) (by decide) hmem
  exact absurd hdigit (by decide)

theorem oneLine_quote {front text back : String} (hfront : OneLine front) (htext : OneLine text)
    (hback : OneLine back) : OneLine (front ++ text ++ back) := by
  rw [oneLine_append, oneLine_append]
  exact ⟨⟨hfront, htext⟩, hback⟩

/-- A reason that quotes only tokens without line breaks has none. -/
theorem oneLine_reason {kinds : List Kind} (hkinds : ∀ kind ∈ kinds, OneLine kind.text) {flaw : Flaw}
    (h : FlawIn kinds flaw) : OneLine flaw.reason := by
  cases h with
  | @strayCharacter c h =>
      have htext : OneLine ("Invalid(" ++ .ofList [c] ++ ")") := hkinds (.invalid c) h
      rw [oneLine_append, oneLine_append] at htext
      exact oneLine_quote (by decide +kernel) htext.1.2 (by decide +kernel)
  | @notFinite text h =>
      exact oneLine_quote (by decide +kernel) (hkinds (.number text) h) (by decide +kernel)
  | @notNumber text h =>
      exact oneLine_quote (by decide +kernel) (hkinds (.number text) h) (by decide +kernel)
  | expectedPower => decide +kernel
  | expectedVariable => decide +kernel
  | expectedContent => decide +kernel
  | @unexpected kind h =>
      exact oneLine_quote (by decide +kernel) (hkinds kind h) (by decide +kernel)

theorem oneLine_tooLarge (n : Power) : OneLine (Flaw.tooLarge n).reason :=
  oneLine_quote (by decide +kernel) (oneLine_toString _) (by decide +kernel)

theorem span_diagnostic (fault : Fault) : fault.diagnostic.span = fault.span := by
  cases fault <;> rfl

theorem label_term (text : List Char) (flaw : Flaw) (span : Span) :
    (Fault.term text flaw span).diagnostic.label = flaw.reason := rfl

/-- The label of a fault of a scanned text has no line break. -/
theorem oneLine_label {source : String} {fault : Fault} (h : parse source = .error fault) :
    OneLine fault.diagnostic.label := by
  have hlaid := laidOut_tokensFrom 0 source.toList
  cases faultOf_of_parse h with
  | missing =>
      show OneLine "no `=` in this equation"
      decide +kernel
  | @repeated count second hcount _ =>
      show OneLine (if count = 0 then _ else _)
      rw [if_neg (by omega)]
      decide +kernel
  | empty side _ =>
      rw [label_term]
      cases side <;> decide +kernel
  | flawed htokens _ hflaw =>
      rw [label_term]
      rcases hflaw with hflaw | ⟨n, rfl⟩
      · refine oneLine_reason (fun kind hkind => ?_) hflaw
        obtain ⟨token, htoken, rfl⟩ := List.mem_map.mp hkind
        have hmem : token ∈ tokensFrom 0 source.toList := by
          rw [htokens]
          exact List.mem_append_right _ (List.mem_append_left _ htoken)
        obtain ⟨text, htext⟩ := hlaid.exists_spells hmem
        exact oneLine_of_spells htext
      · exact oneLine_tooLarge n

/-! ## Columns -/

/-- How far the byte offset behind a text lies beyond its number of characters. -/
def overshoot (before : List Char) : Nat := byteLength before - before.length

/-- The byte offset between two parts of a text, taken for a number of characters, leads to the column
between them: the characters behind it that are counted as well take no cells. -/
def PointsAt (before after : List Char) : Prop :=
  overshoot before ≤ after.length ∧ width (after.take (overshoot before)) = 0

instance (before after : List Char) : Decidable (PointsAt before after) :=
  inferInstanceAs (Decidable (_ ∧ _))

theorem length_le_byteLength (text : List Char) : text.length ≤ byteLength text := by
  induction text with
  | nil => exact le_rfl
  | cons c text ih =>
      have hsize := c.utf8Size_pos
      rw [byteLength_cons, List.length_cons]
      omega

/-- Without characters of more than one byte, offsets are columns. -/
theorem pointsAt_of_ascii {before : List Char} (h : ∀ c ∈ before, c.utf8Size = 1)
    (after : List Char) : PointsAt before after := by
  have hlength : byteLength before = before.length := by
    induction before with
    | nil => rfl
    | cons c before ih =>
        obtain ⟨hc, hbefore⟩ := List.forall_mem_cons.mp h
        rw [byteLength_cons, hc, ih hbefore, List.length_cons, Nat.add_comm]
  rw [PointsAt, overshoot, hlength, Nat.sub_self, List.take_zero]
  exact ⟨Nat.zero_le _, rfl⟩

/-- The width in front of an offset is that of the text in front of it, and of what is counted
beyond. -/
theorem width_take_byteLength (before after : List Char) :
    width ((before ++ (after ++ [' '])).take (byteLength before)) =
      width before + width ((after ++ [' ']).take (overshoot before)) := by
  have hle := length_le_byteLength before
  have hoffset : byteLength before = before.length + overshoot before := by
    rw [overshoot]
    omega
  rw [hoffset, List.take_length_add_append, width_append]

/-- The blank at the end of the line has a cell, so that running over it shows. -/
theorem pointsAt_iff (before after : List Char) :
    PointsAt before after ↔ width ((after ++ [' ']).take (overshoot before)) = 0 := by
  rw [PointsAt]
  rcases Nat.lt_or_ge after.length (overshoot before) with hlt | hle
  · have hall : (after ++ [' ']).take (overshoot before) = after ++ [' '] := by
      refine List.take_of_length_le ?_
      rw [List.length_append, List.length_singleton]
      omega
    have hblank : width [' '] = 1 := by decide +kernel
    rw [hall, width_append, hblank]
    omega
  · rw [List.take_append_of_le_length hle]
    exact and_iff_right hle

/-! ## Snippets -/

theorem oneLine_ofList {text : List Char} (h : '\n' ∉ text) : OneLine (.ofList text) := by
  rwa [OneLine, String.toList_ofList]

theorem oneLine_replicate {c : Char} (hc : c ≠ '\n') (n : Nat) :
    OneLine (.ofList (List.replicate n c)) :=
  oneLine_ofList fun hmem => hc (List.eq_of_mem_replicate hmem).symm

theorem oneLine_carets (source : List Char) (span : Span) : OneLine (carets source span) :=
  (oneLine_append _ _).mpr ⟨oneLine_replicate (by decide) _, oneLine_replicate (by decide) _⟩

/-- The lines of a snippet without colours. -/
theorem snippetLines_plain (source : List Char) (d : Diagnostic) :
    snippetLines .plain source d =
      ["error[" ++ d.code.name ++ "]" ++ ": " ++ d.title, "  |", "1 |" ++ " " ++ .ofList source] ++
        ("  |" ++ carets source d.span ++ " " ++ d.label) :: "  |" ::
          d.notes.map fun note => "  " ++ "=" ++ " " ++ note.kind.name ++ ": " ++ note.text := by
  have hnote : ∀ note : Note, Paint.plain.ofNote note.kind = "" := by
    intro note
    cases note.kind <;> rfl
  simp only [snippetLines, hnote]
  simp only [Paint.plain, String.empty_append, String.append_empty]
  rfl

/-- The caret line of a snippet has the carets and the label. -/
theorem caretLine_snippet {fault : Fault} (hlabel : OneLine fault.diagnostic.label)
    {equation report : String} (hequation : OneLine equation)
    (h : fault.diagnostic.snippet equation false = .ok report) :
    caretLine report = some ("  |" ++ carets (sourceLine equation) fault.diagnostic.span ++ " " ++
      fault.diagnostic.label).toList := by
  have htitle : OneLine ("error[" ++ fault.diagnostic.code.name ++ "]" ++ ": " ++
      fault.diagnostic.title) := by
    cases fault with
    | format =>
        show OneLine "error[P0001]: Invalid equation format"
        decide +kernel
    | term =>
        show OneLine "error[P0002]: Invalid term"
        decide +kernel
  have hframe : OneLine "  |" := by decide +kernel
  have hsource : OneLine ("1 |" ++ " " ++ .ofList (sourceLine equation)) := by
    refine (oneLine_append _ _).mpr ⟨by decide +kernel, oneLine_ofList ?_⟩
    rw [sourceLine, List.mem_append, not_or]
    exact ⟨hequation, by decide⟩
  have hcarets : OneLine ("  |" ++ carets (sourceLine equation) fault.diagnostic.span ++ " " ++
      fault.diagnostic.label) := by
    simp only [oneLine_append]
    exact ⟨⟨⟨hframe, oneLine_carets _ _⟩, by decide +kernel⟩, hlabel⟩
  unfold snippet at h
  simp only at h
  split at h
  · cases h
  · cases h
    have hfront : ∀ line ∈ ["error[" ++ fault.diagnostic.code.name ++ "]" ++ ": " ++
        fault.diagnostic.title, "  |", "1 |" ++ " " ++ .ofList (sourceLine equation)],
        OneLine line := by
      simp only [List.forall_mem_cons]
      exact ⟨htitle, hframe, hsource, fun _ hmem => absurd hmem List.not_mem_nil⟩
    rw [caretLine, if_neg Bool.false_ne_true, snippetLines_plain]
    exact getElem?_splitOn_join hfront hcarets _

/-- There is a snippet when the span lies in the source line. -/
theorem exists_snippet {d : Diagnostic} {equation : String}
    (h : ¬ (sourceLine equation).length < d.span.hi) (colour : Bool) :
    ∃ report, d.snippet equation colour = .ok report := by
  unfold snippet
  simp only
  rw [if_neg h]
  exact ⟨_, rfl⟩

/-! ## Marked characters -/

/-- The caret line that marks a part of the equation: a caret below each cell of its characters, from
the first of them on. -/
def marking (before marked : List Char) (label : String) : String :=
  "  |" ++ (blanks (width before + 1) ++ .ofList (List.replicate (width marked) '^')) ++ " " ++ label

theorem replicate_append_replicate_inj {a b a' b' : Nat} :
    List.replicate a ' ' ++ List.replicate b '^' = List.replicate a' ' ' ++ List.replicate b' '^' ↔
      a = a' ∧ b = b' := by
  constructor
  · intro h
    have hblanks := congrArg (List.count ' ') h
    have hcarets := congrArg (List.count '^') h
    simp only [List.count_append, List.count_replicate] at hblanks hcarets
    exact ⟨by simpa using hblanks, by simpa using hcarets⟩
  · rintro ⟨rfl, rfl⟩
    rfl

/-- The carets stand below the characters of the span when both of its ends point at their
columns. -/
theorem carets_eq_marking_iff {equation : String} {span : Span} {before marked after : List Char}
    (h : Covers equation.toList span before marked after) (label : String) :
    "  |" ++ carets (sourceLine equation) span ++ " " ++ label = marking before marked label ↔
      PointsAt before (marked ++ after) ∧ PointsAt (before ++ marked) after := by
  obtain ⟨hequation, rfl⟩ := h
  -- both ends are columns up to what is counted beyond them
  have hlo : width ((sourceLine equation).take (byteLength before)) =
      width before + width ((marked ++ after ++ [' ']).take (overshoot before)) := by
    rw [← width_take_byteLength, sourceLine, hequation]
    simp only [List.append_assoc]
  have hhi : width ((sourceLine equation).take (byteLength before + byteLength marked)) =
      width before + width marked +
        width ((after ++ [' ']).take (overshoot (before ++ marked))) := by
    rw [← width_append, ← width_take_byteLength, byteLength_append, sourceLine, hequation]
    simp only [List.append_assoc]
  rw [pointsAt_iff, pointsAt_iff, marking, String.append_left_inj, String.append_left_inj,
    String.append_right_inj, carets, ← String.toList_inj]
  simp only [blanks, String.toList_append, String.toList_ofList, hlo, hhi]
  rw [replicate_append_replicate_inj]
  omega

/-- A span whose end points at its column lies in the source line. -/
theorem not_lt_of_pointsAt {equation : String} {span : Span} {before marked after : List Char}
    (h : Covers equation.toList span before marked after)
    (hpoints : PointsAt (before ++ marked) after) : ¬ (sourceLine equation).length < span.hi := by
  obtain ⟨hequation, rfl⟩ := h
  have hbound := hpoints.1
  have hle := length_le_byteLength (before ++ marked)
  rw [sourceLine, hequation]
  simp only [overshoot, byteLength_append, List.length_append, List.length_singleton] at *
  omega

end Quadra.Diagnostic
