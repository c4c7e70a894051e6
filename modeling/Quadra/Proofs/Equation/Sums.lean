import Quadra.Proofs.Equation.Grammar
import Quadra.Proofs.Polynomial.Significance

set_option autoImplicit false

/-!
# Adding up terms

The reader keeps a map of sums and adds one monomial after the other. The map holds at each power
the sum that `sumAt` gives (`find?_sums`), and the reader goes on exactly as long as all sums are
finite (`addTerms_eq_ok_iff`, `addsUp_iff_staysFinite`).
-/

namespace Quadra

/-- The outcome of a sequence is the outcome of its second part on the result of the first. -/
theorem Logged.outcome_bind {ε α β : Type} (x : Logged ε α) (f : α → Logged ε β) :
    (x >>= f).outcome = x.outcome.bind fun value => (f value).outcome := by
  cases h : x.outcome with
  | error fault => rw [Logged.bind_error h]; rfl
  | ok value => rw [Logged.bind_ok h]; rfl

namespace Equation

/-! ## Sums of monomials -/

theorem coefficientsAt_append (n : Power) (ms ms' : List Monomial) :
    coefficientsAt n (ms ++ ms') = coefficientsAt n ms ++ coefficientsAt n ms' := by
  rw [coefficientsAt, List.filter_append, List.map_append]
  rfl

theorem exists_of_mem_coefficientsAt {n : Power} {ms : List Monomial} {c : Binary64}
    (h : c ∈ coefficientsAt n ms) : ∃ m ∈ ms, m.coefficient = c := by
  obtain ⟨m, hm, hc⟩ := List.mem_map.mp h
  exact ⟨m, List.mem_of_mem_filter hm, hc⟩

theorem sumAt_append_singleton (n : Power) (ms : List Monomial) (m : Monomial) :
    sumAt n (ms ++ [m]) = if m.power = n then sumAt n ms + m.coefficient else sumAt n ms := by
  by_cases h : m.power = n <;> simp [sumAt, coefficientsAt, h]

/-- The sum of a power that does not occur is the zero that sums start from. -/
theorem sumAt_of_notMem {n : Power} {ms : List Monomial} (h : n ∉ ms.map Monomial.power) :
    sumAt n ms = 0 := by
  have hnone : ms.filter (fun m => decide (m.power = n)) = [] := by
    rw [List.filter_eq_nil_iff]
    intro m hm heq
    exact h (List.mem_map.mpr ⟨m, hm, of_decide_eq_true heq⟩)
  rw [sumAt, coefficientsAt, hnone]
  rfl

/-- A power that does not occur counts as zero, so that a lookup with this default is the sum. -/
theorem getD_ite_sumAt (ms : List Monomial) (n : Power) :
    (if n ∈ ms.map Monomial.power then some (sumAt n ms) else none).getD 0 = sumAt n ms := by
  split
  · rfl
  · rename_i hnone
    exact (sumAt_of_notMem hnone).symm

/-- The map that the reader holds after these monomials. -/
def sums (ms : List Monomial) : Sums := ms.foldl addMonomial .empty

theorem sums_append_singleton (ms : List Monomial) (m : Monomial) :
    sums (ms ++ [m]) = addMonomial (sums ms) m := by
  rw [sums, List.foldl_append]
  rfl

/-- The map holds the sum of every power that occurs. -/
theorem find?_sums (ms : List Monomial) (n : Power) :
    (sums ms).find? n = if n ∈ ms.map Monomial.power then some (sumAt n ms) else none := by
  -- the reader adds at the end, so the induction takes the last monomial off
  induction ms using List.reverseRecOn generalizing n with
  | nil => rfl
  | append_singleton ms m ih =>
      have hcurrent : ((sums ms).find? m.power).getD 0 = sumAt m.power ms := by
        rw [ih, getD_ite_sumAt]
      rw [sums_append_singleton, addMonomial, PowerMap.find?_insert, sumAt_append_singleton,
        hcurrent, ih]
      by_cases heq : m.power = n
      · subst heq
        simp
      · simp [heq, Ne.symm heq]

theorem getD_find?_sums (ms : List Monomial) (n : Power) :
    ((sums ms).find? n).getD 0 = sumAt n ms := by
  rw [find?_sums, getD_ite_sumAt]

/-- The reader's map is the map of all totals. -/
theorem sums_eq_totals (ms : List Monomial) : sums ms = totals ms := by
  refine PowerMap.ext_find? fun n => ?_
  rw [find?_sums, totals, PowerMap.find?_ofList_map (fun n => sumAt n ms)]

/-- The entries of the totals are sums. -/
theorem eq_sumAt_of_mem_totals {ms : List Monomial} {n : Power} {c : Binary64}
    (h : (n, c) ∈ (totals ms).entries) : c = sumAt n ms := by
  rw [PowerMap.mem_entries_iff, ← sums_eq_totals] at h
  rw [← getD_find?_sums, h]
  rfl

/-- The polynomial of the totals has the significant sums. -/
theorem find?_ofCoefficients_totals (ms : List Monomial) (n : Power) :
    (Polynomial.ofCoefficients (totals ms)).coefficients.find? n =
      (some (sumAt n ms)).filter isSignificant := by
  show ((totals ms).filter isSignificant).find? n = _
  rw [PowerMap.find?_filter, ← sums_eq_totals, find?_sums]
  split
  · rfl
  · -- the sum of a power that does not occur is zero
    rename_i hnone
    rw [sumAt_of_notMem hnone, Option.filter_some, isSignificant_zero]
    rfl

/-! ## Finite sums -/

/-- The sum of its power is finite after every monomial that is added to a map. -/
def AddsUp : Sums → List Monomial → Prop
  | _, [] => True
  | sums, m :: ms =>
      (((addMonomial sums m).find? m.power).getD 0).isFinite = true ∧ AddsUp (addMonomial sums m) ms

theorem addsUp_append (start : Sums) (ms ms' : List Monomial) :
    AddsUp start (ms ++ ms') ↔ AddsUp start ms ∧ AddsUp (ms.foldl addMonomial start) ms' := by
  induction ms generalizing start with
  | nil => simp [AddsUp]
  | cons m ms ih => simp [AddsUp, ih, and_assoc]

theorem staysFinite_append_singleton (ms : List Monomial) (m : Monomial) :
    StaysFinite (ms ++ [m]) ↔ StaysFinite ms ∧ (sumAt m.power (ms ++ [m])).isFinite = true := by
  constructor
  · intro h
    exact ⟨fun read hread => h read (hread.trans (List.prefix_append ms [m])),
      h _ List.prefix_rfl _⟩
  · rintro ⟨h, hlast⟩ read hread n
    rcases List.prefix_concat_iff.mp hread with rfl | hread
    · -- only the sum of the last power has changed
      by_cases heq : m.power = n
      · exact heq ▸ hlast
      · rw [sumAt_append_singleton, if_neg heq]
        exact h ms List.prefix_rfl n
    · exact h read hread n

/-- Checking the changed sum after every monomial is checking all sums all the time. -/
theorem addsUp_iff_staysFinite (ms : List Monomial) : AddsUp .empty ms ↔ StaysFinite ms := by
  induction ms using List.reverseRecOn with
  | nil =>
      simp only [AddsUp, true_iff]
      intro read hread n
      rw [List.prefix_nil.mp hread]
      rfl
  | append_singleton ms m ih =>
      have hlast : AddsUp (ms.foldl addMonomial .empty) [m] ↔
          (sumAt m.power (ms ++ [m])).isFinite = true := by
        rw [← getD_find?_sums, sums_append_singleton]
        exact and_iff_left trivial
      rw [addsUp_append, ih, hlast, staysFinite_append_singleton]

/-! ## Terms of a side -/

section

variable {source : List Char} {side : Side} {start : Sums} {term : List Token}

/-- A term that is not read is a fault, and nothing is logged. -/
theorem addTerm_of_error {flaw : Flaw} (h : readTerm side term = .error flaw) :
    addTerm source side start term =
      ⟨[], .error (.term ((spanOf term).slice source) flaw (spanOf term))⟩ := by
  unfold addTerm
  rw [h]
  rfl

/-- A term that is read is logged, and added when the sum of its power stays finite. -/
theorem addTerm_of_ok {m : Monomial} (h : readTerm side term = .ok m) :
    addTerm source side start term =
      ⟨[.term side m],
        if (((addMonomial start m).find? m.power).getD 0).isFinite then .ok (addMonomial start m)
        else .error (.term ((spanOf term).slice source) (.tooLarge m.power) (spanOf term))⟩ := by
  unfold addTerm
  rw [h]
  simp only
  rw [Logged.bind_ok (x := Logged.log (.term side m)) rfl]
  split <;> rfl

end

/-- A term is added when it is read and the sum of its power stays finite. -/
theorem addTerm_eq_ok_iff (source : List Char) (side : Side) (start result : Sums)
    (term : List Token) :
    (addTerm source side start term).outcome = .ok result ↔
      ∃ m, readTerm side term = .ok m ∧ addMonomial start m = result ∧
        ((result.find? m.power).getD 0).isFinite = true := by
  cases hread : readTerm side term with
  | error flaw =>
      rw [addTerm_of_error hread]
      simp
  | ok m =>
      rw [addTerm_of_ok hread]
      by_cases hfinite : (((addMonomial start m).find? m.power).getD 0).isFinite = true
      · simp only [if_pos hfinite, Except.ok.injEq, exists_eq_left']
        constructor
        · rintro rfl
          exact ⟨rfl, hfinite⟩
        · exact And.left
      · simp only [if_neg hfinite, reduceCtorEq, Except.ok.injEq, exists_eq_left', false_iff, not_and]
        rintro rfl
        exact hfinite

/-- The terms of a side are added when all of them are read and all sums stay finite. -/
theorem addTerms_eq_ok_iff (source : List Char) (side : Side) (start result : Sums)
    (terms : List (List Token)) :
    (addTerms source side start terms).outcome = .ok result ↔
      ∃ ms : List Monomial, terms.map (readTerm side) = ms.map .ok ∧ AddsUp start ms ∧
        ms.foldl addMonomial start = result := by
  induction terms generalizing start with
  | nil =>
      constructor
      · intro h
        cases h
        exact ⟨[], rfl, trivial, rfl⟩
      · rintro ⟨ms, hread, -, rfl⟩
        rw [List.map_eq_nil_iff.mp hread.symm]
        rfl
  | cons term terms ih =>
      rw [addTerms, Logged.outcome_bind]
      constructor
      · -- the sums behind the first term are the start of the others
        intro h
        cases hfirst : (addTerm source side start term).outcome with
        | error fault => rw [hfirst] at h; cases h
        | ok next =>
            rw [hfirst] at h
            obtain ⟨m, hread, rfl, hfinite⟩ := (addTerm_eq_ok_iff ..).mp hfirst
            obtain ⟨ms, hreads, hadds, rfl⟩ := (ih _).mp h
            exact ⟨m :: ms, by rw [List.map_cons, List.map_cons, hread, hreads],
              ⟨hfinite, hadds⟩, rfl⟩
      · rintro ⟨ms, hreads, hadds, rfl⟩
        cases ms with
        | nil => cases hreads
        | cons m ms =>
            obtain ⟨hread, hreads⟩ := List.cons.inj hreads
            obtain ⟨hfinite, hadds⟩ := hadds
            have hfirst := (addTerm_eq_ok_iff source side start _ term).mpr
              ⟨m, hread, rfl, hfinite⟩
            rw [hfirst]
            exact (ih _).mpr ⟨ms, hreads, hadds, rfl⟩

end Equation

end Quadra
