import Quadra.Proofs.Equation.Reading

set_option autoImplicit false

/-!
# Reading without places

Where the tokens stand is only told in the place of a fault. The polynomial, the events and the cause of
a fault depend on the kinds of the tokens alone: `read_congr`.
-/

namespace Quadra

namespace Logged

variable {ε ε' α β : Type}

/-- The same events and the same outcome, with a fault seen through `f`. -/
def mapFault (f : ε → ε') (x : Logged ε α) : Logged ε' α := ⟨x.events, x.outcome.mapError f⟩

theorem mapFault_bind (f : ε → ε') (x : Logged ε α) (g : α → Logged ε β) :
    (x >>= g).mapFault f = x.mapFault f >>= fun value => (g value).mapFault f := by
  cases h : x.outcome with
  | error fault =>
      have hf : (x.mapFault f).outcome = .error (f fault) := by rw [mapFault, h]; rfl
      rw [bind_error h, bind_error hf]
      rfl
  | ok value =>
      have hf : (x.mapFault f).outcome = .ok value := by rw [mapFault, h]; rfl
      rw [bind_ok h, bind_ok hf]
      rfl

end Logged

/-- A result does not depend on how a fault is seen. -/
theorem mapError_eq_ok_iff {ε ε' α : Type} (f : ε → ε') (x : Except ε α) (value : α) :
    x.mapError f = .ok value ↔ x = .ok value := by
  cases x <;> simp [Except.mapError]

namespace Equation

/-! ## Causes -/

/-- What a fault says, apart from where: the number of `=`, or the flaw of a term. -/
inductive Cause
  | format (count : Nat)
  | term (flaw : Flaw)
deriving DecidableEq

/-- The cause of a fault. -/
def Fault.cause : Fault → Cause
  | .format count _ => .format count
  | .term _ flaw _ => .term flaw

/-! ## The reader -/

section

variable (source source' : List Char) (side : Side)

theorem addTerm_congr (sums : Sums) {term term' : List Token}
    (h : readTerm side term = readTerm side term') :
    (addTerm source side sums term).mapFault Fault.cause =
      (addTerm source' side sums term').mapFault Fault.cause := by
  cases hread : readTerm side term with
  | error flaw =>
      rw [addTerm_of_error hread, addTerm_of_error (h ▸ hread)]
      rfl
  | ok m =>
      rw [addTerm_of_ok hread, addTerm_of_ok (h ▸ hread)]
      unfold Logged.mapFault
      split <;> rfl

theorem addTerms_congr (sums : Sums) {terms terms' : List (List Token)}
    (h : terms.map (readTerm side) = terms'.map (readTerm side)) :
    (addTerms source side sums terms).mapFault Fault.cause =
      (addTerms source' side sums terms').mapFault Fault.cause := by
  induction terms generalizing sums terms' with
  | nil =>
      rw [List.map_eq_nil_iff.mp h.symm]
      rfl
  | cons term terms ih =>
      obtain ⟨term', terms', rfl, hterm, hterms⟩ := List.map_eq_cons_iff.mp h.symm
      rw [addTerms, addTerms, Logged.mapFault_bind, Logged.mapFault_bind,
        addTerm_congr source source' side sums hterm.symm]
      exact congrArg _ (funext fun next => ih next hterms.symm)

theorem addSide_congr (sums : Sums) (equals equals' : Token) {tokens tokens' : List Token}
    (h : tokens.map Token.kind = tokens'.map Token.kind) :
    (addSide source side sums equals tokens).mapFault Fault.cause =
      (addSide source' side sums equals' tokens').mapFault Fault.cause := by
  have hempty : tokens.isEmpty = tokens'.isEmpty := by
    rw [← List.isEmpty_map (f := Token.kind), h, List.isEmpty_map]
  unfold addSide
  rw [← hempty]
  split
  · rfl
  · refine addTerms_congr source source' side sums ?_
    rw [map_readTerm_splitTerms, map_readTerm_splitTerms, h]

theorem reduce_congr {tokens tokens' : List Token}
    (h : tokens.map Token.kind = tokens'.map Token.kind) :
    (reduce source tokens).mapFault Fault.cause = (reduce source' tokens').mapFault Fault.cause := by
  -- the lists are cut in the same places, since only the kinds are looked at
  have hfilter : (tokens.filter fun t => t.kind == .equals).map Token.kind =
      (tokens'.filter fun t => t.kind == .equals).map Token.kind := by
    have := congrArg (List.filter (· == .equals)) h
    rwa [List.filter_map, List.filter_map] at this
  have hleft : (tokens.takeWhile fun t => !(t.kind == .equals)).map Token.kind =
      (tokens'.takeWhile fun t => !(t.kind == .equals)).map Token.kind := by
    have := congrArg (List.takeWhile (!· == .equals)) h
    rwa [List.takeWhile_map, List.takeWhile_map] at this
  have hright : ((tokens.dropWhile fun t => !(t.kind == .equals)).drop 1).map Token.kind =
      ((tokens'.dropWhile fun t => !(t.kind == .equals)).drop 1).map Token.kind := by
    have := congrArg (fun kinds => (List.dropWhile (!· == .equals) kinds).drop 1) h
    simp only [List.dropWhile_map, List.drop_one, ← List.map_tail] at this
    rwa [List.drop_one, List.drop_one]
  cases hequals : tokens.filter fun t => t.kind == .equals with
  | nil =>
      rw [hequals] at hfilter
      have hequals' := List.map_eq_nil_iff.mp hfilter.symm
      simp only [reduce, hequals, hequals']
      rfl
  | cons equals others =>
      rw [hequals] at hfilter
      obtain ⟨equals', others', hequals', -, hothers⟩ := List.map_eq_cons_iff.mp hfilter.symm
      cases others with
      | nil =>
          obtain rfl := List.map_eq_nil_iff.mp hothers
          simp only [reduce, hequals, hequals', Logged.mapFault_bind]
          rw [addSide_congr source source' .left .empty equals equals' hleft]
          refine congrArg _ (funext fun sums => ?_)
          rw [addSide_congr source source' .right sums equals equals' hright]
      | cons second rest =>
          obtain ⟨second', rest', rfl, -, hrest⟩ := List.map_eq_cons_iff.mp hothers
          have hlength : rest'.length = rest.length := by
            rw [← List.length_map (f := Token.kind), hrest, List.length_map]
          simp only [reduce, hequals, hequals', List.length_cons, hlength]
          rfl

end

/-- **Texts with the same kinds of tokens are read alike**: with the same events, and as the same
polynomial or with a fault of the same cause. -/
theorem read_congr {source source' : String}
    (h : symbols source.toList = symbols source'.toList) :
    (read source).mapFault Fault.cause = (read source').mapFault Fault.cause :=
  reduce_congr _ _ h

end Equation

end Quadra
