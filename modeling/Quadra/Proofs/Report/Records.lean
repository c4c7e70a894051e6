import Quadra.Proofs.Report.JsonRoundTrip
import Quadra.Report.Form
import Quadra.Solution.Solve

set_option autoImplicit false

/-!
# Records with fractions and without

The record of a solved equation is written at once, or with fractions is kept as a value first, in which
the solutions are replaced. Both texts are those of one object but for its solutions
(`SameButSolutions`): `report_json_agrees`.
-/

namespace Quadra

open Report JsonReader
open Json (ofNumber replace)

namespace Report

/-! ## Replaced members -/

section

variable {α : Type} (key : String) (value : α)

/-- A key that is there stays in its place. -/
theorem keys_replace {members : List (String × α)} (h : key ∈ members.map Prod.fst) :
    (replace key value members).map Prod.fst = members.map Prod.fst := by
  induction members with
  | nil => exact absurd h List.not_mem_nil
  | cons member rest ih =>
      rw [replace]
      split
      · rename_i heq
        rw [List.map_cons, List.map_cons, heq]
      · rename_i hne
        have hrest : key ∈ rest.map Prod.fst := (List.mem_cons.mp h).resolve_left (Ne.symm hne)
        rw [List.map_cons, List.map_cons, ih hrest]

theorem lookup_replace_self (members : List (String × α)) :
    (replace key value members).lookup key = some value := by
  induction members with
  | nil => rw [replace, List.lookup_cons_self]
  | cons member rest ih =>
      rw [replace]
      split
      · exact List.lookup_cons_self
      · rename_i hne
        rw [List.lookup_cons, beq_eq_false_iff_ne.mpr (Ne.symm hne)]
        exact ih

theorem lookup_replace_of_ne {key' : String} (h : key' ≠ key) (members : List (String × α)) :
    (replace key value members).lookup key' = members.lookup key' := by
  have hbeq := beq_eq_false_iff_ne.mpr h
  induction members with
  | nil => rw [replace, List.lookup_cons, hbeq]
  | cons member rest ih =>
      rw [replace]
      split
      · rename_i heq
        rw [List.lookup_cons, List.lookup_cons, heq, hbeq]
      · rw [List.lookup_cons, List.lookup_cons, ih]

/-- A function of the values may be applied before a value is replaced. -/
theorem map_replace {β : Type} (f : α → β) (members : List (String × α)) :
    (replace key value members).map (fun member => (member.1, f member.2)) =
      replace key (f value) (members.map fun member => (member.1, f member.2)) := by
  induction members with
  | nil => rfl
  | cons member rest ih =>
      rw [replace, List.map_cons, replace]
      split
      · rfl
      · rw [List.map_cons, ih]

end

/-- The keys of the record of a solved equation. -/
def recordKeys : List String :=
  ["reducedForm", "degree", "coefficients", "discriminant", "solutionType", "solutions", "explanation"]

/-- Both lists have the keys of a record, in their order, and the same values but for the solutions,
which are these. -/
structure SameButSolutions {α : Type} (members members' : List (String × α)) (solutions solutions' : α) :
    Prop where
  keys : members.map Prod.fst = recordKeys
  keys' : members'.map Prod.fst = recordKeys
  others : ∀ key, key ≠ "solutions" → members'.lookup key = members.lookup key
  solutions : members.lookup "solutions" = some solutions
  solutions' : members'.lookup "solutions" = some solutions'

theorem sameButSolutions_replace {α : Type} {members : List (String × α)} {solutions : α}
    (hkeys : members.map Prod.fst = recordKeys) (h : members.lookup "solutions" = some solutions)
    (value : α) : SameButSolutions members (replace "solutions" value members) solutions value where
  keys := hkeys
  keys' := (keys_replace _ value (by rw [hkeys]; decide)).trans hkeys
  others _ hne := lookup_replace_of_ne _ value hne members
  solutions := h
  solutions' := lookup_replace_self _ value members

/-! ## Texts of objects -/

/-- The text of an object, by the layouts of its values. -/
def objectText (members : List (String × Outline)) : String :=
  (Outline.group "\x7b" (members.map fun member => (Json.quote member.1 ++ ": ", member.2)) "\x7d").text
    ⟨2, false⟩

theorem Json.memberOutlines_eq_map (members : List (String × Json)) :
    memberOutlines members = members.map fun member => (quote member.1 ++ ": ", member.2.outline) := by
  induction members with
  | nil => rfl
  | cons member rest ih => rw [memberOutlines, ih, List.map_cons]

theorem Json.itemOutlines_eq_map (items : List Json) :
    itemOutlines items = items.map fun item => ("", item.outline) := by
  induction items with
  | nil => rfl
  | cons item rest ih => rw [itemOutlines, ih, List.map_cons]

theorem Json.pretty_object (members : List (String × Json)) :
    (object members).pretty = objectText (members.map fun member => (member.1, member.2.outline)) := by
  rw [pretty, outline, memberOutlines_eq_map, objectText, List.map_map]
  rfl

theorem Json.outline_array (items : List Json) :
    (array items).outline = .list (items.map outline) := by
  rw [outline, itemOutlines_eq_map, Outline.list, List.map_map]
  rfl

/-- A number that is not finite is written as `null`, like the value that is kept of it. -/
theorem Json.outline_ofNumber (x : Binary64) : (ofNumber x).outline = (number x).outline := by
  rw [ofNumber]
  split
  · rfl
  · rename_i hx
    rw [outline, outline, numberText, if_neg hx]

/-- It is read as `null` too, and so is the kept value. -/
theorem stored_ofNumber (x : Binary64) : stored (ofNumber x) = ofNumber x := by
  rw [ofNumber]
  split
  · rename_i hx
    exact ofNumber_of_isFinite hx
  · rfl

end Report

/-! ## Records -/

namespace Resolution

variable (r : Resolution)

/-- The kept values have the layouts of the values that are written at once. -/
theorem outlines_members : (r.members ofNumber).map (fun member => (member.1, member.2.outline)) =
    (r.members .number).map fun member => (member.1, member.2.outline) := by
  have hdiscriminant : ((r.discriminant.map ofNumber).getD .null).outline =
      ((r.discriminant.map Json.number).getD .null).outline := by
    cases r.discriminant with
    | none => rfl
    | some x => exact Json.outline_ofNumber x
  have hsolution : ∀ solution : Solution,
      (solution.json ofNumber).outline = (solution.json .number).outline := by
    rintro (root | ⟨re, im⟩)
    · exact Json.outline_ofNumber root.value
    · rfl
  simp only [members, List.map_cons, List.map_nil, Json.outline_array, List.map_map, Function.comp_def,
    hdiscriminant, hsolution]
  simp only [Json.outline, Json.memberOutlines, Json.outline_ofNumber]

/-- And they are read as the same values. -/
theorem stored_members : (r.members ofNumber).map (fun member => (member.1, stored member.2)) =
    (r.members .number).map fun member => (member.1, stored member.2) := by
  have hdiscriminant : stored ((r.discriminant.map ofNumber).getD .null) =
      stored ((r.discriminant.map Json.number).getD .null) := by
    cases r.discriminant with
    | none => rfl
    | some x => exact stored_ofNumber x
  have hsolution : ∀ solution : Solution,
      stored (solution.json ofNumber) = stored (solution.json .number) := by
    rintro (root | ⟨re, im⟩)
    · exact stored_ofNumber root.value
    · rfl
  simp only [members, List.map_cons, List.map_nil, stored, storedItems_eq_map, storedMembers, List.map_map,
    Function.comp_def, hdiscriminant, hsolution, stored_ofNumber]

theorem report_json (palette : Palette) :
    r.report .json ⟨false, palette⟩ = (Json.object (r.members .number)).pretty := rfl

theorem report_json_fractions (palette : Palette) :
    r.report .json ⟨true, palette⟩ = (Json.object (replace "solutions"
      (.array (r.solutions.map fun solution => .text (solution.text true)))
      (r.members ofNumber))).pretty := rfl

/-- The members, seen through a function of their values, before and after the solutions are replaced. -/
theorem sameButSolutions_members {β : Type} (f : Json → β) (value : β) :
    SameButSolutions ((r.members .number).map fun member => (member.1, f member.2))
      (replace "solutions" value ((r.members .number).map fun member => (member.1, f member.2)))
      (f (.array (r.solutions.map (Solution.json .number)))) value :=
  sameButSolutions_replace rfl rfl value

/-- Both records are texts of objects with the same texts of their values but for the solutions. -/
theorem texts_agree (palette palette' : Palette) :
    ∃ (members members' : List (String × Outline)) (items : List Outline),
      r.report .json ⟨false, palette⟩ = objectText members ∧
      r.report .json ⟨true, palette'⟩ = objectText members' ∧
      items.length = r.solutions.length ∧
      SameButSolutions members members' (.list items)
        (.list (r.solutions.map fun solution => .leaf (Json.quote (solution.text true)))) := by
  have hsame := r.sameButSolutions_members Json.outline
    (Json.array (r.solutions.map fun solution => .text (solution.text true))).outline
  rw [Json.outline_array, Json.outline_array, List.map_map, List.map_map] at hsame
  refine ⟨_, _, _, ?_, ?_, ?_, hsame⟩
  · rw [report_json, Json.pretty_object]
  · rw [report_json_fractions, Json.pretty_object, map_replace, outlines_members, Json.outline_array,
      List.map_map]
  · rw [List.length_map]

/-- A reader finds in them the same values but for the solutions. -/
theorem values_agree (palette palette' : Palette) :
    ∃ (members members' : List (String × Json)) (items : List Json),
      Json.read? (r.report .json ⟨false, palette⟩) = some (.object members) ∧
      Json.read? (r.report .json ⟨true, palette'⟩) = some (.object members') ∧
      items.length = r.solutions.length ∧
      SameButSolutions members members' (.array items)
        (.array (r.solutions.map fun solution => .text (solution.text true))) := by
  have htexts : stored (.array (r.solutions.map fun solution => .text (solution.text true))) =
      .array (r.solutions.map fun solution => .text (solution.text true)) := by
    rw [stored, storedItems_eq_map, List.map_map]
    rfl
  have hsame := r.sameButSolutions_members stored
    (.array (r.solutions.map fun solution => .text (solution.text true)))
  rw [stored, storedItems_eq_map] at hsame
  refine ⟨_, _, _, ?_, ?_, ?_, hsame⟩
  · rw [report_json, Json.read?_pretty, stored, storedMembers_eq_map]
  · rw [report_json_fractions, Json.read?_pretty, stored, storedMembers_eq_map, map_replace,
      stored_members, htexts]
  · rw [List.length_map, List.length_map]

end Resolution

/-- **Records with fractions and without are the same but for the solutions.** Both are texts of an object
with the same keys in the same order and the same text for every other value. The solutions are lists of
one length, and with fractions each entry is the text of its solution. A reader of these texts finds the
same. -/
theorem Polynomial.report_json_agrees (p : Polynomial) (palette palette' : Palette) :
    (∃ (members members' : List (String × Outline)) (items : List Outline),
      p.solve.report .json ⟨false, palette⟩ = objectText members ∧
      p.solve.report .json ⟨true, palette'⟩ = objectText members' ∧
      items.length = p.solve.solutions.length ∧
      SameButSolutions members members' (.list items)
        (.list (p.solve.solutions.map fun solution => .leaf (Json.quote (solution.text true))))) ∧
    ∃ (members members' : List (String × Json)) (items : List Json),
      Json.read? (p.solve.report .json ⟨false, palette⟩) = some (.object members) ∧
      Json.read? (p.solve.report .json ⟨true, palette'⟩) = some (.object members') ∧
      items.length = p.solve.solutions.length ∧
      SameButSolutions members members' (.array items)
        (.array (p.solve.solutions.map fun solution => .text (solution.text true))) :=
  ⟨p.solve.texts_agree palette palette', p.solve.values_agree palette palette'⟩

end Quadra
