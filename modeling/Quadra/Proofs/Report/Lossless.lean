import Quadra.Proofs.Equation.RoundTrip
import Quadra.Proofs.Report.JsonRoundTrip
import Quadra.Report.Form

set_option autoImplicit false

/-!
# Reports in JSON lose nothing

A reader finds in the record of a polynomial, and in that of a solved equation without fractions, all
that was put into them: `read?_report`.
-/

namespace Quadra

open Report JsonReader
open Json (ofNumber)

/-- The record of a polynomial is read back as it is. -/
theorem Polynomial.stored_json {p : Polynomial} (h : p.HasFiniteCoefficients) :
    stored p.json = p.json := by
  have hmembers : ∀ entry ∈ p.coefficients.entries,
      (toString entry.1.val, ofNumber entry.2) = (toString entry.1.val, Json.number entry.2) :=
    fun entry hentry => by rw [ofNumber_of_isFinite (h entry hentry)]
  simp only [json, stored, storedMembers, storedMembers_eq_map, List.map_map, Function.comp_def]
  rw [List.map_congr_left hmembers]

/-- Of the record of a solved equation without fractions, only numbers that are not finite are lost. -/
theorem Resolution.stored_json (r : Resolution) : stored (r.json false) = .object
      [ ("reducedForm", .text r.reducedForm),
        ("degree", .integer r.degree.val),
        ("coefficients", .object
          [ ("a", ofNumber r.coefficients.a),
            ("b", ofNumber r.coefficients.b),
            ("c", ofNumber r.coefficients.c) ]),
        ("discriminant", (r.discriminant.map ofNumber).getD .null),
        ("solutionType", .text r.kind.name),
        ("solutions", .array (r.solutions.map fun solution => match solution with
          | .real root => ofNumber root.value
          | .complex re im => .text (Solution.text false (.complex re im)))),
        ("explanation", .array (r.explanation.map .text)) ] := by
  have hdiscriminant : stored ((r.discriminant.map Json.number).getD .null) =
      (r.discriminant.map ofNumber).getD .null := by
    cases r.discriminant <;> rfl
  have hsolution : ∀ solution : Solution, stored (solution.json .number) = match solution with
      | .real root => ofNumber root.value
      | .complex re im => .text (Solution.text false (.complex re im)) := by
    rintro (root | ⟨re, im⟩) <;> rfl
  simp only [json, members, Bool.false_eq_true, if_false, stored, storedMembers, storedItems_eq_map,
    List.map_map, Function.comp_def, hdiscriminant, hsolution]

namespace Report

/-- Powers that differ have keys that differ. -/
theorem nodup_keys (p : Polynomial) :
    (p.coefficients.entries.map fun entry => toString entry.1.val).Nodup := by
  refine List.Pairwise.map _ (fun a b hlt => ?_) p.coefficients.ascending
  intro hkeys
  have hpowers := congrArg (fun key => natural? key.toList) hkeys
  simp only [natural?_toString, Option.some.injEq] at hpowers
  exact hlt.ne (Fin.val_injective hpowers)

/-- **Reports in JSON lose nothing** of a polynomial with finite coefficients. They are JSON texts, and a
reader finds in them the record of the polynomial, the keys of which are its powers in ascending order,
and that of its solution, with `null` for a discriminant that is missing and for what is not finite. -/
theorem read?_report {p : Polynomial} (hfinite : p.HasFiniteCoefficients) :
    (∀ config, Json.read? (p.report .json config) = some (.object
      [ ("reducedForm", .text p.canonical),
        ("degree", .integer p.degree.val),
        ("coefficients", .object (p.coefficients.entries.map fun entry =>
          (toString entry.1.val, .number entry.2))) ])) ∧
    (let keys := p.coefficients.entries.map fun entry => toString entry.1.val
     keys.Nodup ∧ (keys.map fun key => natural? key.toList) =
        p.coefficients.entries.map fun entry => some entry.1.val) ∧
    p.coefficients.entries.Pairwise (fun a b => a.1 < b.1) ∧
    ∀ palette, Json.read? (p.solve.report .json ⟨false, palette⟩) = some (.object
      [ ("reducedForm", .text p.canonical),
        ("degree", .integer p.degree.val),
        ("coefficients", .object
          [ ("a", .number (p.coefficient .two)),
            ("b", .number (p.coefficient .one)),
            ("c", .number (p.coefficient .zero)) ]),
        ("discriminant", match p.solve.discriminant with
          | some x => if x.isFinite then .number x else .null
          | none => .null),
        ("solutionType", .text p.solve.kind.name),
        ("solutions", .array (p.solve.solutions.map fun solution => match solution with
          | .real root => if root.value.isFinite then .number root.value else .null
          | .complex re im => .text (Solution.text false (.complex re im)))),
        ("explanation", .array (p.solve.explanation.map .text)) ]) := by
  refine ⟨fun config => ?_, ⟨nodup_keys p, ?_⟩, p.coefficients.ascending, fun palette => ?_⟩
  · show Json.read? p.json.pretty = _
    rw [Json.read?_pretty, Polynomial.stored_json hfinite]
    rfl
  · simp only [List.map_map, Function.comp_def, natural?_toString]
  · show Json.read? (p.solve.json false).pretty = _
    have hcoefficient := fun n => ofNumber_of_isFinite (hfinite.isFinite_coefficient n)
    have ha : ofNumber p.solve.coefficients.a = .number (p.coefficient .two) := hcoefficient .two
    have hb : ofNumber p.solve.coefficients.b = .number (p.coefficient .one) := hcoefficient .one
    have hc : ofNumber p.solve.coefficients.c = .number (p.coefficient .zero) := hcoefficient .zero
    rw [Json.read?_pretty, Resolution.stored_json, ha, hb, hc]
    cases p.solve.discriminant <;> rfl

/-- The key `10` stands behind the key `2`, and both numbers have exponents. -/
theorem read?_report_two_ten :
    let p := Polynomial.ofCoefficients (.ofList [(⟨10, by decide⟩, -1e22), (.two, 1e-6)])
    p.HasFiniteCoefficients ∧ Json.read? (p.report .json ⟨true, .ansi⟩) = some (.object
      [ ("reducedForm", .text "0.000001 * X^2 - 10000000000000000000000 * X^10 = 0"),
        ("degree", .integer 10),
        ("coefficients", .object [("2", .number 1e-6), ("10", .number (-1e22))]) ]) := by
  intro p
  have hentries : p.coefficients.entries = [(.two, 1e-6), (⟨10, by decide⟩, -1e22)] := by
    decide +kernel
  have hcanonical : p.canonical = "0.000001 * X^2 - 10000000000000000000000 * X^10 = 0" := by
    decide +kernel
  have hdegree : p.degree.val = 10 := by decide +kernel
  have hfinite : p.HasFiniteCoefficients := by
    rw [Polynomial.HasFiniteCoefficients, hentries]
    decide +kernel
  refine ⟨hfinite, ?_⟩
  rw [(read?_report hfinite).1, hcanonical, hdegree, hentries]
  rfl

end Report

end Quadra
