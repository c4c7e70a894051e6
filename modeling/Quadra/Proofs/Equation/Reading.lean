import Quadra.Proofs.Equation.Scan
import Quadra.Proofs.Equation.Sides
import Quadra.Proofs.Equation.Sums

set_option autoImplicit false

/-!
# Reading an equation

The reader accepts exactly the equations of the grammar whose sums stay finite, and its polynomial is
that of the totals of all powers: `parse_eq_ok_iff`.
-/

namespace Quadra.Equation

/-! ## The two sides -/

/-- A side is added when it has a token and all of its terms are added. -/
theorem addSide_eq_ok_iff (source : List Char) (side : Side) (start result : Sums) (equals : Token)
    (tokens : List Token) :
    (addSide source side start equals tokens).outcome = .ok result ↔
      tokens ≠ [] ∧ ∃ ms : List Monomial,
        (splitTerms tokens).map (readTerm side) = ms.map .ok ∧ AddsUp start ms ∧
          ms.foldl addMonomial start = result := by
  unfold addSide
  cases tokens with
  | nil => simp [Logged.fail]
  | cons first rest =>
      rw [List.isEmpty_cons, if_neg Bool.false_ne_true, addTerms_eq_ok_iff]
      simp

/-- With one `=`, the left side is added in front of the right side. -/
theorem outcome_reduce (source : List Char) {tokens : List Token} {equals : Token}
    (h : tokens.filter (fun t => t.kind == .equals) = [equals]) :
    (reduce source tokens).outcome =
      ((addSide source .left .empty equals
          (tokens.takeWhile fun t => !(t.kind == .equals))).outcome.bind fun s =>
        (addSide source .right s equals
          ((tokens.dropWhile fun t => !(t.kind == .equals)).drop 1)).outcome).map
        Polynomial.ofCoefficients := by
  simp only [reduce, h, Logged.outcome_bind]
  cases (addSide source .left .empty equals
      (tokens.takeWhile fun t => !(t.kind == .equals))).outcome with
  | error fault => rfl
  | ok s =>
      simp only [Except.bind]
      cases (addSide source .right s equals
          ((tokens.dropWhile fun t => !(t.kind == .equals)).drop 1)).outcome <;> rfl

/-- The fault of an equation with one `=` is that of the left side, or else that of the right side. -/
theorem outcome_reduce_eq_error_iff (source : List Char) {tokens : List Token} {equals : Token}
    (h : tokens.filter (fun t => t.kind == .equals) = [equals]) (fault : Fault) :
    (reduce source tokens).outcome = .error fault ↔
      (addSide source .left .empty equals
          (tokens.takeWhile fun t => !(t.kind == .equals))).outcome = .error fault ∨
        ∃ s, (addSide source .left .empty equals
            (tokens.takeWhile fun t => !(t.kind == .equals))).outcome = .ok s ∧
          (addSide source .right s equals
            ((tokens.dropWhile fun t => !(t.kind == .equals)).drop 1)).outcome = .error fault := by
  rw [outcome_reduce source h]
  cases (addSide source .left .empty equals
      (tokens.takeWhile fun t => !(t.kind == .equals))).outcome with
  | error found => simp [Except.bind, Except.map]
  | ok s =>
      simp only [Except.bind, reduceCtorEq, false_or, Except.ok.injEq, exists_eq_left']
      cases (addSide source .right s equals
          ((tokens.dropWhile fun t => !(t.kind == .equals)).drop 1)).outcome <;> simp [Except.map]

theorem kind_ne_equals {tokens : List Token} (h : Kind.equals ∉ tokens.map Token.kind) :
    ∀ t ∈ tokens, (t.kind == .equals) = false := by
  intro t ht
  exact beq_eq_false_iff_ne.mpr fun heq => h (heq ▸ List.mem_map_of_mem ht)

section

variable {l r : List Token} {equals : Token} (hequals : equals.kind = .equals)
  (hl : Kind.equals ∉ l.map Token.kind)

include hequals hl

theorem filter_append_cons (hr : Kind.equals ∉ r.map Token.kind) :
    (l ++ equals :: r).filter (fun t => t.kind == .equals) = [equals] := by
  have hself : (equals.kind == .equals) = true := beq_iff_eq.mpr hequals
  have hl' : l.filter (fun t => t.kind == .equals) = [] :=
    List.filter_eq_nil_iff.mpr fun t ht => Bool.eq_false_iff.mp (kind_ne_equals hl t ht)
  have hr' : r.filter (fun t => t.kind == .equals) = [] :=
    List.filter_eq_nil_iff.mpr fun t ht => Bool.eq_false_iff.mp (kind_ne_equals hr t ht)
  rw [List.filter_append, List.filter_cons, hself, if_pos rfl, hl', hr']
  rfl

/-- Tokens are cut in front of their first `=`. -/
theorem cut_append_cons :
    (l ++ equals :: r).takeWhile (fun t => !(t.kind == .equals)) = l ∧
      (l ++ equals :: r).dropWhile (fun t => !(t.kind == .equals)) = equals :: r := by
  have hself : (equals.kind == .equals) = true := beq_iff_eq.mpr hequals
  have hleft : ∀ t ∈ l, (!(t.kind == .equals)) = true := by
    intro t ht
    rw [kind_ne_equals hl t ht]
    rfl
  constructor
  · rw [List.takeWhile_append_of_pos hleft, List.takeWhile_cons, hself]
    exact List.append_nil l
  · rw [List.dropWhile_append_of_pos hleft, List.dropWhile_cons, hself]
    rfl

/-- An equation with one `=` is reduced side by side. -/
theorem reduce_append_cons (source : List Char) (hr : Kind.equals ∉ r.map Token.kind)
    (p : Polynomial) :
    (reduce source (l ++ equals :: r)).outcome = .ok p ↔
      ∃ s s', (addSide source .left .empty equals l).outcome = .ok s ∧
        (addSide source .right s equals r).outcome = .ok s' ∧ .ofCoefficients s' = p := by
  obtain ⟨htake, hdrop⟩ := cut_append_cons (r := r) hequals hl
  rw [outcome_reduce source (filter_append_cons hequals hl hr), htake, hdrop, List.drop_one,
    List.tail_cons]
  cases (addSide source .left .empty equals l).outcome with
  | error fault => simp [Except.bind, Except.map]
  | ok s =>
      simp only [Except.bind, Except.ok.injEq, exists_and_left, exists_eq_left']
      cases (addSide source .right s equals r).outcome with
      | error fault => simp [Except.map]
      | ok s' => simp [Except.map]

end

/-- A list of tokens that is reduced has exactly one `=`. -/
theorem exists_sides_of_reduce {source : List Char} {tokens : List Token} {p : Polynomial}
    (h : (reduce source tokens).outcome = .ok p) :
    ∃ l equals r, tokens = l ++ equals :: r ∧ equals.kind = .equals ∧
      Kind.equals ∉ l.map Token.kind ∧ Kind.equals ∉ r.map Token.kind := by
  unfold reduce at h
  simp only at h
  split at h
  · cases h
  · rename_i equals hfilter
    obtain ⟨l, r, rfl, hl, hequals, hr⟩ := List.filter_eq_cons_iff.mp hfilter
    refine ⟨l, equals, r, rfl, beq_iff_eq.mp hequals, ?_, ?_⟩
    · intro hmem
      obtain ⟨t, ht, hkind⟩ := List.mem_map.mp hmem
      exact hl t ht (beq_iff_eq.mpr hkind)
    · intro hmem
      obtain ⟨t, ht, hkind⟩ := List.mem_map.mp hmem
      exact List.filter_eq_nil_iff.mp hr t ht (beq_iff_eq.mpr hkind)
  · cases h

theorem parse_eq_reduce (source : String) :
    parse source = (reduce source.toList (tokensFrom 0 source.toList)).outcome := rfl

/-- A text with one `=` is read when both sides have tokens, all terms are read, and no sum of a power
becomes infinite. -/
theorem parse_eq_ok_iff_of_symbols {source : String} {lk rk : List Kind}
    (hsymbols : symbols source.toList = lk ++ .equals :: rk) (hl : Kind.equals ∉ lk)
    (hr : Kind.equals ∉ rk) (p : Polynomial) :
    parse source = .ok p ↔
      lk ≠ [] ∧ rk ≠ [] ∧ ∃ ms : List Monomial,
        readings .left lk ++ readings .right rk = ms.map .ok ∧ StaysFinite ms ∧
          p = .ofCoefficients (totals ms) := by
  obtain ⟨l, behind, htokens, rfl, hbehind⟩ := List.map_eq_append_iff.mp hsymbols
  obtain ⟨equals, r, rfl, hequals, rfl⟩ := List.map_eq_cons_iff.mp hbehind
  rw [parse_eq_reduce, htokens, reduce_append_cons hequals hl source.toList hr]
  simp only [addSide_eq_ok_iff, map_readTerm_splitTerms, ne_eq, List.map_eq_nil_iff]
  constructor
  · rintro ⟨s, s', ⟨hlne, ms, hms, hadds, rfl⟩, ⟨hrne, ms', hms', hadds', rfl⟩, rfl⟩
    refine ⟨hlne, hrne, ms ++ ms', ?_, ?_, ?_⟩
    · rw [hms, hms', List.map_append]
    · rw [← addsUp_iff_staysFinite, addsUp_append]
      exact ⟨hadds, hadds'⟩
    · rw [← sums_eq_totals, sums, List.foldl_append]
  · rintro ⟨hlne, hrne, all, hall, hfinite, rfl⟩
    obtain ⟨ms, ms', rfl, hms, hms'⟩ := List.map_eq_append_iff.mp hall.symm
    rw [← addsUp_iff_staysFinite, addsUp_append] at hfinite
    rw [← sums_eq_totals, sums, List.foldl_append]
    exact ⟨_, _, ⟨hlne, ms, hms.symm, hfinite.1, rfl⟩, ⟨hrne, ms', hms'.symm, hfinite.2, rfl⟩, rfl⟩

/-! ## Equations of the grammar -/

/-- The text is an equation when its symbols are two sides with an `=` between them. -/
theorem derives_iff (source : String) (left right : List Term) :
    Derives source left right ↔
      ∃ l r, symbols source.toList = l ++ .equals :: r ∧ IsSide l left ∧ IsSide r right := by
  simp only [Derives, map_kind_scan, List.append_cancel_right_eq]

/-- An equation of the grammar is read as its meaning when all sums stay finite, and else it is not
read. -/
theorem parse_eq_ok_iff_of_derives {source : String} {left right : List Term}
    (h : Derives source left right) (p : Polynomial) :
    parse source = .ok p ↔
      StaysFinite (monomials left right) ∧ p = .ofCoefficients (totals (monomials left right)) := by
  obtain ⟨lk, rk, hsymbols, hleft, hright⟩ := (derives_iff ..).mp h
  rw [parse_eq_ok_iff_of_symbols hsymbols hleft.equals_notMem hright.equals_notMem,
    hleft.readings_eq .left, hright.readings_eq .right, ← List.map_append, ← monomials]
  constructor
  · -- the terms that are read are those of the derivation
    rintro ⟨-, -, ms, hms, hfinite, rfl⟩
    obtain rfl := List.map_injective_iff.mpr (fun _ _ => Except.ok.inj) hms
    exact ⟨hfinite, rfl⟩
  · rintro ⟨hfinite, rfl⟩
    exact ⟨hleft.ne_nil, hright.ne_nil, _, rfl, hfinite, rfl⟩

/-- Whatever is read is an equation of the grammar. -/
theorem exists_derives_of_parse {source : String} {p : Polynomial} (h : parse source = .ok p) :
    ∃ left right, Derives source left right := by
  rw [parse_eq_reduce] at h
  obtain ⟨l, equals, r, htokens, hequals, hl, hr⟩ := exists_sides_of_reduce h
  rw [htokens, reduce_append_cons hequals hl source.toList hr] at h
  obtain ⟨s, s', hleft, hright, -⟩ := h
  obtain ⟨hlne, ms, hreadl, -⟩ := (addSide_eq_ok_iff ..).mp hleft
  obtain ⟨hrne, ms', hreadr, -⟩ := (addSide_eq_ok_iff ..).mp hright
  obtain ⟨left, hleft⟩ := exists_isSide hlne (allRead_of_map hreadl)
  obtain ⟨right, hright⟩ := exists_isSide hrne (allRead_of_map hreadr)
  refine ⟨left, right, (derives_iff ..).mpr ⟨_, _, ?_, hleft, hright⟩⟩
  rw [symbols, htokens, List.map_append, List.map_cons, hequals]

/-- **What is read**: a text is read exactly when it is an equation of the grammar and no sum of a
power becomes infinite, and its polynomial is the reduced form of the sums of all powers. -/
theorem parse_eq_ok_iff (source : String) (p : Polynomial) :
    parse source = .ok p ↔
      ∃ left right, Derives source left right ∧ StaysFinite (monomials left right) ∧
        p = .ofCoefficients (totals (monomials left right)) := by
  constructor
  · intro h
    obtain ⟨left, right, hderives⟩ := exists_derives_of_parse h
    exact ⟨left, right, hderives, (parse_eq_ok_iff_of_derives hderives p).mp h⟩
  · rintro ⟨left, right, hderives, hmeaning⟩
    exact (parse_eq_ok_iff_of_derives hderives p).mpr hmeaning

end Quadra.Equation
