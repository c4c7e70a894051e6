import Quadra.Equation.Parse

set_option autoImplicit false

/-!
# The grammar of equations

Which texts are equations and what they say, apart from how they are read. An equation is a list of
tokens with one `=` and a side on either hand of it. A side is a sum of terms, each with a sign in
front, which only the first may lack. `Derives source left right` states that the text is an
equation with these terms; its meaning is the binary64 sum of the coefficients of every power.
-/

namespace Quadra.Equation

/-! ## Terms -/

/-- A term as it is written: whether its sign is a minus, the text of its coefficient where it has
one, and its power. -/
structure Term where
  subtracted : Bool
  literal : Option (List Char)
  power : Power

/-- A coefficient is a numeral for a finite number. -/
def IsCoefficient (text : List Char) : Prop :=
  ∃ x, Binary64.ofNumeral? text = some x ∧ x.isFinite = true

/-- An exponent is a text of digits only that denotes a power. -/
def IsExponent (text : List Char) (n : Power) : Prop :=
  (∀ c ∈ text, c.isDigit = true) ∧ Nat.ofDigitChars 10 text 0 = n.val

/-- The variable, by itself or with an exponent. -/
inductive IsVariable : List Kind → Power → Prop
  | bare : IsVariable [.variable] .one
  | raised {text : List Char} {n : Power} (hn : IsExponent text n) :
      IsVariable [.variable, .power, .number text] n

/-- A term without its sign, in one of five forms: `3`, `3 X`, `3 * X`, `* X` and `X`. -/
inductive IsBody : List Kind → Option (List Char) → Power → Prop
  | constant {text : List Char} (hc : IsCoefficient text) :
      IsBody [.number text] (some text) .zero
  | adjacent {text : List Char} {v : List Kind} {n : Power} (hc : IsCoefficient text)
      (hv : IsVariable v n) : IsBody (.number text :: v) (some text) n
  | product {text : List Char} {v : List Kind} {n : Power} (hc : IsCoefficient text)
      (hv : IsVariable v n) : IsBody (.number text :: .times :: v) (some text) n
  | starred {v : List Kind} {n : Power} (hv : IsVariable v n) : IsBody (.times :: v) none n
  | plain {v : List Kind} {n : Power} (hv : IsVariable v n) : IsBody v none n

/-! ## Sides -/

/-- The sign in front of a term. -/
def signKind (subtracted : Bool) : Kind := if subtracted then .minus else .plus

/-- Terms that all have a sign. -/
inductive AreSigned : List Kind → List Term → Prop
  | nil : AreSigned [] []
  | cons {body rest : List Kind} {terms : List Term} {literal : Option (List Char)} {n : Power}
      (subtracted : Bool) (first : IsBody body literal n) (others : AreSigned rest terms) :
      AreSigned (signKind subtracted :: (body ++ rest)) (⟨subtracted, literal, n⟩ :: terms)

/-- The terms of a side: at least one, and only the first may lack its sign. -/
inductive IsSide : List Kind → List Term → Prop
  | signed {kinds : List Kind} {first : Term} {terms : List Term}
      (all : AreSigned kinds (first :: terms)) : IsSide kinds (first :: terms)
  | unsigned {body rest : List Kind} {terms : List Term} {literal : Option (List Char)} {n : Power}
      (first : IsBody body literal n) (others : AreSigned rest terms) :
      IsSide (body ++ rest) (⟨false, literal, n⟩ :: terms)

/-- The text is an equation with these terms on its left and on its right side. -/
def Derives (source : String) (left right : List Term) : Prop :=
  ∃ l r, (scan source).map Token.kind = l ++ .equals :: r ++ [.finish] ∧
    IsSide l left ∧ IsSide r right

/-! ## Meaning -/

/-- The factor of the terms of a side. -/
def Side.sign : Side → Binary64
  | .left => 1
  | .right => -1

namespace Term

/-- What the coefficient denotes without the sign, exactly; one where none is written. -/
def magnitude (t : Term) : Rat := t.literal.elim 1 Numeral.value

/-- The number nearest to the coefficient. -/
def coefficient (t : Term) : Binary64 := .nearest t.magnitude

/-- The factor of the sign of the term. -/
def sign (t : Term) : Binary64 := if t.subtracted then -1 else 1

/-- What a term of a side adds to the left side of the equation. -/
def monomial (side : Side) (t : Term) : Monomial := ⟨t.coefficient * t.sign * side.sign, t.power⟩

end Term

/-- What the terms of both sides add to the left side, in the order of the text. -/
def monomials (left right : List Term) : List Monomial :=
  left.map (Term.monomial .left) ++ right.map (Term.monomial .right)

/-- The coefficients of a power. -/
def coefficientsAt (n : Power) (ms : List Monomial) : List Binary64 :=
  (ms.filter fun m => m.power = n).map Monomial.coefficient

/-- The binary64 sum of the coefficients of a power, from zero and from left to right. -/
def sumAt (n : Power) (ms : List Monomial) : Binary64 := (coefficientsAt n ms).foldl (· + ·) 0

/-- No sum of a power is ever infinite or `nan` when the monomials are added one by one. -/
def StaysFinite (ms : List Monomial) : Prop :=
  ∀ read, read <+: ms → ∀ n, (sumAt n read).isFinite = true

/-- The sums of all powers that occur. -/
def totals (ms : List Monomial) : PowerMap Binary64 :=
  .ofList (ms.map fun m => (m.power, sumAt m.power ms))

/-! ## Tokens of a side

No token of a term is a sign, an `=` or the end. -/

/-- A token that may stand in a term behind its sign. -/
def Kind.isInner : Kind → Bool
  | .number _ => true
  | .times => true
  | .power => true
  | .variable => true
  | _ => false

theorem IsVariable.isInner {v : List Kind} {n : Power} (h : IsVariable v n) :
    ∀ kind ∈ v, kind.isInner = true := by
  cases h <;> simp [Kind.isInner]

theorem IsVariable.ne_nil {v : List Kind} {n : Power} (h : IsVariable v n) : v ≠ [] := by
  cases h <;> simp

theorem IsBody.isInner {body : List Kind} {literal : Option (List Char)} {n : Power}
    (h : IsBody body literal n) : ∀ kind ∈ body, kind.isInner = true := by
  cases h with
  | constant => simp [Kind.isInner]
  | adjacent _ hv => simpa [Kind.isInner] using hv.isInner
  | product _ hv => simpa [Kind.isInner] using hv.isInner
  | starred hv => simpa [Kind.isInner] using hv.isInner
  | plain hv => exact hv.isInner

theorem IsBody.ne_nil {body : List Kind} {literal : Option (List Char)} {n : Power}
    (h : IsBody body literal n) : body ≠ [] := by
  cases h with
  | constant => simp
  | adjacent => simp
  | product => simp
  | starred => simp
  | plain hv => exact hv.ne_nil

theorem isSign_signKind (subtracted : Bool) : (signKind subtracted).isSign = true := by
  cases subtracted <;> rfl

theorem AreSigned.equals_notMem {kinds : List Kind} {terms : List Term} (h : AreSigned kinds terms) :
    Kind.equals ∉ kinds := by
  induction h with
  | nil => exact List.not_mem_nil
  | cons subtracted first _ ih =>
      intro hmem
      rcases List.mem_cons.mp hmem with heq | hmem
      · cases subtracted <;> cases heq
      · rcases List.mem_append.mp hmem with hmem | hmem
        · exact absurd (first.isInner _ hmem) (by decide)
        · exact ih hmem

theorem IsSide.equals_notMem {kinds : List Kind} {terms : List Term} (h : IsSide kinds terms) :
    Kind.equals ∉ kinds := by
  cases h with
  | signed all => exact all.equals_notMem
  | unsigned first others =>
      intro hmem
      rcases List.mem_append.mp hmem with hmem | hmem
      · exact absurd (first.isInner _ hmem) (by decide)
      · exact others.equals_notMem hmem

theorem IsSide.ne_nil {kinds : List Kind} {terms : List Term} (h : IsSide kinds terms) :
    kinds ≠ [] := by
  cases h with
  | signed all => cases all; exact List.cons_ne_nil _ _
  | unsigned first _ => exact List.append_ne_nil_of_left_ne_nil first.ne_nil _

end Quadra.Equation
