import Quadra.Proofs.Decimal.Layout
import Quadra.Proofs.Report.JsonReader

set_option autoImplicit false

/-!
# Numbers in JSON are read back

In a layout in which integers have a zero behind their point, a number is written as a word with at least one
digit behind a point or with an exponent (`WritesNumber`), so that it is read as a number and not as an integer,
and as the one that was written: `literal?_write`, `denotes_numberText`. Integers have neither.
-/

namespace Quadra.Report.JsonReader

open Json (ofNumber)

/-! ## Whole numbers -/

theorem isWhole_cons {c : Char} {cs : List Char} (hc : c ≠ '0')
    (hdigits : ∀ x ∈ c :: cs, x.isDigit = true) : isWhole (c :: cs) = true := by
  rw [isWhole, List.all_eq_true.mpr hdigits, List.head?_cons, Option.any_some, bne_iff_ne.mpr hc]
  exact Bool.or_true _

theorem isWhole_singleton {c : Char} (hc : c.isDigit = true) : isWhole [c] = true := by
  by_cases hzero : c = '0'
  · rw [hzero]
    rfl
  · exact isWhole_cons hzero (List.forall_mem_singleton.mpr hc)

theorem isWhole_toDigits (n : Nat) : isWhole (Nat.toDigits 10 n) = true := by
  by_cases h : n = 0
  · rw [h]
    rfl
  · obtain ⟨c, cs, hdigits, hc⟩ := exists_toDigits_eq_cons h
    have hall := isDigit_toDigits n
    rw [hdigits] at hall ⊢
    exact isWhole_cons hc hall

theorem isDigit_of_isWhole {text : List Char} (h : isWhole text = true) :
    ∀ c ∈ text, c.isDigit = true := by
  rw [isWhole, Bool.or_eq_true, Bool.and_eq_true] at h
  rcases h with h | h
  · rw [beq_iff_eq.mp h]
    exact List.forall_mem_singleton.mpr rfl
  · exact List.all_eq_true.mp h.1

theorem natural?_toDigits (n : Nat) : natural? (Nat.toDigits 10 n) = some n := by
  rw [natural?, List.all_eq_true.mpr (isDigit_toDigits n),
    List.isEmpty_eq_false_iff.mpr Nat.toDigits_ne_nil, Nat.ofDigitChars_ten_toDigits]
  rfl

theorem natural?_toString (n : Nat) : natural? (toString n).toList = some n := by
  rw [Nat.toString_eq_ofList_toDigits, String.toList_ofList, natural?_toDigits]

/-! ## Parts of a number -/

theorem isDelimiter_of_isDigit {c : Char} (hc : c.isDigit = true) : isDelimiter c = false := by
  rw [← Bool.not_eq_true]
  intro h
  simp only [isDelimiter, isBlank, isMark, Bool.or_eq_true, beq_iff_eq, List.contains_eq_mem,
    List.mem_cons, List.not_mem_nil, or_false, decide_eq_true_eq] at h
  rcases h with ((((rfl | rfl) | rfl) | rfl) | (rfl | rfl | rfl | rfl | rfl | rfl)) | rfl
  all_goals exact absurd hc (by decide)

/-- The point in front of digits, where there are any. -/
def pointed : List Char → List Char
  | [] => []
  | digits => '.' :: digits

/-- Only its letter or nothing starts an exponent. -/
theorem not_isDigit_head_exponent {text : List Char} {k : Int} (h : exponent? text = some k) :
    ∀ c ∈ text.head?, c.isDigit = false ∧ c ≠ '.' := by
  cases text with
  | nil => simp
  | cons letter text =>
      rw [exponent?] at h
      split at h
      · rename_i hletter
        rw [Bool.or_eq_true, beq_iff_eq, beq_iff_eq] at hletter
        rintro c ⟨⟩
        rcases hletter with rfl | rfl <;> decide
      · cases h

theorem takeWhile_isDigit_append {digits rest : List Char} (hdigits : ∀ c ∈ digits, c.isDigit = true)
    (hrest : ∀ c ∈ rest.head?, c.isDigit = false) :
    (digits ++ rest).takeWhile Char.isDigit = digits := by
  rw [List.takeWhile_append_of_pos hdigits]
  cases rest with
  | nil => rw [List.takeWhile_nil, List.append_nil]
  | cons c rest =>
      rw [List.takeWhile_cons_of_neg (Bool.not_eq_true _ ▸ hrest c rfl), List.append_nil]

theorem dropWhile_isDigit_append {digits rest : List Char} (hdigits : ∀ c ∈ digits, c.isDigit = true)
    (hrest : ∀ c ∈ rest.head?, c.isDigit = false) :
    (digits ++ rest).dropWhile Char.isDigit = rest := by
  rw [List.dropWhile_append_of_pos hdigits]
  cases rest with
  | nil => rfl
  | cons c rest => rw [List.dropWhile_cons_of_neg (Bool.not_eq_true _ ▸ hrest c rfl)]

theorem fraction?_pointed_append {digits rest : List Char}
    (hdigits : ∀ c ∈ digits, c.isDigit = true)
    (hrest : ∀ c ∈ rest.head?, c.isDigit = false ∧ c ≠ '.') :
    fraction? (pointed digits ++ rest) = some (digits, rest) := by
  cases digits with
  | nil =>
      cases rest with
      | nil => rfl
      | cons c rest =>
          show fraction? (c :: rest) = _
          unfold fraction?
          split
          · rename_i heq
            cases heq
            exact absurd rfl (hrest _ rfl).2
          · rfl
  | cons d digits =>
      have hhead : ∀ c ∈ rest.head?, c.isDigit = false := fun c hc => (hrest c hc).1
      show fraction? ('.' :: ((d :: digits) ++ rest)) = _
      simp only [fraction?, takeWhile_isDigit_append hdigits hhead,
        dropWhile_isDigit_append hdigits hhead]
      rfl

/-- The word is a number without a sign that denotes `q`, and no integer: it has digits behind a point,
or an exponent. -/
inductive WritesNumber : List Char → Rat → Prop
  | parts {whole fraction rest : List Char} {k : Int} (hwhole : isWhole whole = true)
      (hfraction : ∀ c ∈ fraction, c.isDigit = true) (hrest : exponent? rest = some k)
      (hword : ∀ c ∈ rest, isDelimiter c = false) (hne : fraction ≠ [] ∨ rest ≠ []) :
      WritesNumber (whole ++ (pointed fraction ++ rest))
        (Nat.ofDigitChars 10 (whole ++ fraction) 0 * 10 ^ (k - fraction.length))

/-- What follows the whole digits starts with a point or with the letter of the exponent. -/
theorem not_isDigit_head_pointed (fraction : List Char) {rest : List Char} {k : Int}
    (hrest : exponent? rest = some k) :
    ∀ c ∈ (pointed fraction ++ rest).head?, c.isDigit = false := by
  cases fraction with
  | nil => exact fun c hc => (not_isDigit_head_exponent hrest c hc).1
  | cons d fraction =>
      rintro c ⟨⟩
      rfl

namespace WritesNumber

variable {text : List Char} {q : Rat}

theorem magnitude? (h : WritesNumber text q) : magnitude? text = some q := by
  obtain @⟨whole, fraction, rest, k, hwhole, hfraction, hrest, -, -⟩ := h
  have hdigits := isDigit_of_isWhole hwhole
  have hhead := not_isDigit_head_pointed fraction hrest
  rw [JsonReader.magnitude?]
  simp only [takeWhile_isDigit_append hdigits hhead, dropWhile_isDigit_append hdigits hhead,
    if_pos hwhole, fraction?_pointed_append hfraction (not_isDigit_head_exponent hrest),
    Option.bind_eq_bind, Option.bind_some, hrest]
  rfl

theorem isWhole_eq_false (h : WritesNumber text q) : isWhole text = false := by
  obtain @⟨whole, fraction, rest, k, -, -, hrest, -, hne⟩ := h
  -- what follows the whole digits is there, and does not start with a digit
  have htail : pointed fraction ++ rest ≠ [] := by
    rcases hne with hne | hne
    · obtain ⟨d, fraction, rfl⟩ := List.exists_cons_of_ne_nil hne
      exact List.cons_ne_nil _ _
    · exact List.append_ne_nil_of_right_ne_nil _ hne
  obtain ⟨c, tail, hcons⟩ := List.exists_cons_of_ne_nil htail
  have hc : c.isDigit = false := not_isDigit_head_pointed fraction hrest c (by rw [hcons]; rfl)
  rw [← Bool.not_eq_true]
  intro hwhole
  have hmem : c ∈ whole ++ (pointed fraction ++ rest) := by
    rw [hcons]
    exact List.mem_append_right _ List.mem_cons_self
  exact absurd (isDigit_of_isWhole hwhole c hmem) (Bool.not_eq_true _ ▸ hc)

theorem exists_cons (h : WritesNumber text q) : ∃ c rest, text = c :: rest ∧ c.isDigit = true := by
  obtain @⟨whole, fraction, rest, k, hwhole, -, -, -, -⟩ := h
  cases whole with
  | nil => cases hwhole
  | cons c whole =>
      exact ⟨c, whole ++ (pointed fraction ++ rest), rfl,
        isDigit_of_isWhole hwhole c List.mem_cons_self⟩

/-- A number is read as the nearest one of its sign. -/
theorem literal? (h : WritesNumber text q) (negative : Bool) :
    literal? ((if negative then ['-'] else []) ++ text) =
      some (.number (.ofMagnitude negative q)) := by
  have hnumber := h.magnitude?
  have hwhole := h.isWhole_eq_false
  obtain ⟨c, rest, rfl, hc⟩ := h.exists_cons
  cases negative with
  | true =>
      have hsigned : ¬ isWhole ('-' :: c :: rest) = true := Bool.false_ne_true
      show JsonReader.literal? ('-' :: c :: rest) = _
      rw [JsonReader.literal?, if_neg (by simp), if_neg hsigned, number?, hnumber]
      rfl
  | false =>
      have hnull : c :: rest ≠ ['n', 'u', 'l', 'l'] := by
        rintro ⟨⟩
        cases hc
      have hminus : ∀ text, c :: rest ≠ '-' :: text := by
        rintro text ⟨⟩
        cases hc
      show JsonReader.literal? (c :: rest) = _
      rw [JsonReader.literal?, if_neg hnull, if_neg (Bool.eq_false_iff.mp hwhole), number?, hnumber]
      · rfl
      · exact hminus

theorem isDelimiter_eq_false (h : WritesNumber text q) : ∀ c ∈ text, isDelimiter c = false := by
  obtain @⟨whole, fraction, rest, k, hwhole, hfraction, -, hword, -⟩ := h
  have hpointed : ∀ c ∈ pointed fraction, isDelimiter c = false := by
    cases fraction with
    | nil => exact fun c hc => absurd hc List.not_mem_nil
    | cons d fraction =>
        exact List.forall_mem_cons.mpr ⟨rfl, fun c hc => isDelimiter_of_isDigit (hfraction c hc)⟩
  refine List.forall_mem_append.mpr ⟨fun c hc => ?_, List.forall_mem_append.mpr ⟨hpointed, hword⟩⟩
  exact isDelimiter_of_isDigit (isDigit_of_isWhole hwhole c hc)

end WritesNumber

/-! ## Decimals -/

/-- Digits have no sign. -/
theorem signed?_toDigits (n : Nat) : signed? (Nat.toDigits 10 n) = some (n : Int) := by
  have hsign : ∀ c ∈ Nat.toDigits 10 n, c ≠ '-' ∧ c ≠ '+' := by
    intro c hc
    have hdigit := isDigit_toDigits n c hc
    constructor <;> rintro rfl <;> cases hdigit
  rw [signed?]
  · rw [natural?_toDigits]
    rfl
  · intro digits heq
    exact (hsign '-' (heq ▸ List.mem_cons_self)).1 rfl
  · intro digits heq
    exact (hsign '+' (heq ▸ List.mem_cons_self)).2 rfl

/-- An exponent is read back, with a plus sign or without. -/
theorem exponent?_written (plus : Bool) (l : Int) :
    exponent? ('e' :: ((if l < 0 then ['-'] else if plus then ['+'] else []) ++
      Nat.toDigits 10 l.natAbs)) = some l := by
  show signed? _ = _
  by_cases hl : l < 0
  · rw [if_pos hl]
    show (natural? (Nat.toDigits 10 l.natAbs)).map _ = _
    rw [natural?_toDigits, Option.map_some]
    congr 1
    omega
  · have hnatural : (l.natAbs : Int) = l := Int.natAbs_of_nonneg (by omega)
    rw [if_neg hl]
    cases plus with
    | true =>
        show (natural? (Nat.toDigits 10 l.natAbs)).map _ = _
        rw [natural?_toDigits, Option.map_some]
        exact congrArg some hnatural
    | false =>
        show signed? (Nat.toDigits 10 l.natAbs) = _
        rw [signed?_toDigits, hnatural]

/-- Digits on both sides of a point. -/
theorem writesNumber_point {whole fraction : List Char} (hwhole : isWhole whole = true)
    (hfraction : ∀ c ∈ fraction, c.isDigit = true) (hne : fraction ≠ []) :
    WritesNumber (whole ++ '.' :: fraction)
      (Nat.ofDigitChars 10 (whole ++ fraction) 0 * 10 ^ (-(fraction.length : Int))) := by
  have hwrites : WritesNumber _ _ :=
    .parts hwhole hfraction (show exponent? [] = some 0 from rfl)
      (fun c hc => absurd hc List.not_mem_nil) (.inl hne)
  rw [zero_sub, List.append_nil] at hwrites
  obtain ⟨c, rest, rfl⟩ := List.exists_cons_of_ne_nil hne
  exact hwrites

variable {d : Decimal}

/-- In scientific form the first digit is the whole, and the others are the fraction. -/
theorem writesNumber_writeScientific (plus : Bool) (d : Decimal) :
    WritesNumber (Layout.writeScientific plus d) d.value := by
  obtain ⟨c, cs, hdigits⟩ := List.exists_cons_of_ne_nil d.digits_ne_nil
  obtain ⟨hc, hcs⟩ := List.forall_mem_cons.mp (hdigits ▸ d.isDigit_digits)
  have hsignificand : Nat.ofDigitChars 10 ([c] ++ cs) 0 = d.significand := by
    rw [List.singleton_append, ← hdigits, Decimal.ofDigitChars_digits]
  have hexponent : d.leadingExponent - cs.length = d.exponent := by
    rw [Decimal.leadingExponent, hdigits, List.length_cons]
    omega
  have hword : ∀ x ∈ 'e' :: ((if d.leadingExponent < 0 then ['-'] else if plus then ['+'] else []) ++
      Nat.toDigits 10 d.leadingExponent.natAbs), isDelimiter x = false := by
    refine List.forall_mem_cons.mpr ⟨rfl, List.forall_mem_append.mpr ⟨?_, fun x hx => ?_⟩⟩
    · split_ifs
      · exact List.forall_mem_singleton.mpr rfl
      · exact List.forall_mem_singleton.mpr rfl
      · exact fun _ hx => absurd hx List.not_mem_nil
    · exact isDelimiter_of_isDigit (isDigit_toDigits _ x hx)
  have hwrites : WritesNumber _ _ :=
    .parts (isWhole_singleton hc) hcs (exponent?_written plus d.leadingExponent) hword
      (.inr (List.cons_ne_nil _ _))
  rw [hsignificand, hexponent, ← Decimal.value] at hwrites
  convert hwrites using 1
  rw [Layout.writeScientific, hdigits]
  cases cs <;> simp [pointed]

/-- The digits of the significand, with a point that leaves as many of them behind it as the exponent
says. -/
theorem writesNumber_fraction {whole fraction : List Char} (hwhole : isWhole whole = true)
    (hfraction : ∀ c ∈ fraction, c.isDigit = true)
    (hdigits : Nat.ofDigitChars 10 (whole ++ fraction) 0 = d.significand)
    (hexponent : d.exponent < 0) (hlength : (fraction.length : Int) = -d.exponent) :
    WritesNumber (whole ++ '.' :: fraction) d.value := by
  have hne : fraction ≠ [] := by
    rintro rfl
    rw [List.length_nil] at hlength
    omega
  have hwrites := writesNumber_point hwhole hfraction hne
  rwa [hdigits, hlength, neg_neg, ← Decimal.value] at hwrites

/-- An integer has a zero behind its point. Only the decimal zero has no digit that is not zero. -/
theorem writesNumber_integer (hexponent : 0 ≤ d.exponent) (h : d.significand = 0 → d.exponent = 0) :
    WritesNumber (d.digits ++ List.replicate d.exponent.toNat '0' ++ ['.', '0']) d.value := by
  set zeros := List.replicate d.exponent.toNat '0' with hzeros
  have hwhole : isWhole (d.digits ++ zeros) = true := by
    by_cases hzero : d.significand = 0
    · rw [hzeros, h hzero, Decimal.digits, hzero]
      rfl
    · obtain ⟨c, cs, hdigits, hc⟩ := exists_toDigits_eq_cons hzero
      have hall : ∀ x ∈ d.digits ++ zeros, x.isDigit = true :=
        List.forall_mem_append.mpr ⟨d.isDigit_digits, fun x => isDigit_of_mem_replicate_zero⟩
      rw [Decimal.digits, hdigits, List.cons_append] at hall ⊢
      exact isWhole_cons hc hall
  have hvalue : d.value = Nat.ofDigitChars 10 (d.digits ++ zeros ++ ['0']) 0 *
      10 ^ (-((['0'] : List Char).length : Int)) := by
    have hten : ∀ n : Nat, Nat.ofDigitChars 10 ['0'] n = 10 * n := fun _ => rfl
    rw [Nat.ofDigitChars_append, hten, Decimal.value_eq_ofDigitChars hexponent, ← hzeros,
      List.length_singleton, Nat.cast_one, zpow_neg_one]
    push_cast
    ring
  rw [hvalue]
  exact writesNumber_point hwhole (List.forall_mem_singleton.mpr rfl) (List.cons_ne_nil _ _)

theorem writesNumber_writePositional (h : d.significand = 0 → d.exponent = 0) :
    WritesNumber (Layout.writePositional true d) d.value := by
  rw [Layout.writePositional]
  split
  · rename_i hexponent
    exact writesNumber_integer hexponent h
  · rename_i hexponent
    have hsignificand : d.significand ≠ 0 := fun hzero => hexponent (h hzero).ge
    obtain ⟨c, cs, hdigits, hc⟩ := exists_toDigits_eq_cons hsignificand
    simp only
    split
    · -- the point stands between two digits
      rename_i hlead
      set lead := (d.digits.length + d.exponent).toNat with hlead_eq
      have hwhole : isWhole (d.digits.take lead) = true := by
        have hall : ∀ x ∈ d.digits.take lead, x.isDigit = true :=
          fun x hx => d.isDigit_digits x (List.mem_of_mem_take hx)
        have hsucc : lead = lead - 1 + 1 := by omega
        rw [hsucc, Decimal.digits, hdigits, List.take_succ_cons] at hall ⊢
        exact isWhole_cons hc hall
      refine writesNumber_fraction hwhole (fun x hx => d.isDigit_digits x (List.mem_of_mem_drop hx)) ?_
        (by omega) ?_
      · rw [List.take_append_drop, Decimal.ofDigitChars_digits]
      · rw [List.length_drop]
        omega
    · -- all digits stand behind the point
      rename_i hlead
      set zeros := List.replicate (-(d.digits.length + d.exponent)).toNat '0' with hzeros
      have hbehind : ∀ x ∈ zeros ++ d.digits, x.isDigit = true :=
        List.forall_mem_append.mpr ⟨fun x => isDigit_of_mem_replicate_zero, d.isDigit_digits⟩
      have hzero : isWhole ['0'] = true := rfl
      have hlength : ((zeros ++ d.digits).length : Int) = -d.exponent := by
        rw [hzeros, List.length_append, List.length_replicate]
        omega
      exact writesNumber_fraction hzero hbehind (d.ofDigitChars_zeros_append _) (by omega) hlength

/-- A decimal is written as a number that denotes it, with an exponent or without. -/
theorem writesNumber_writeDecimal {layout : Layout} (hpoint : layout.pointZero = true)
    (h : d.significand = 0 → d.exponent = 0) : WritesNumber (layout.writeDecimal d) d.value := by
  rw [Layout.writeDecimal, hpoint]
  split
  · exact writesNumber_writePositional h
  · exact writesNumber_writeScientific layout.exponentPlus d

/-! ## Literals -/

/-- Only zero has a shortest decimal without digits but zero, and it is written as such. -/
theorem exponent_shortest (tie : Decimal.Tie) {x : Binary64} (hx : x.isFinite = true)
    (h : (Decimal.shortest tie x).significand = 0) : (Decimal.shortest tie x).exponent = 0 := by
  -- the decimal is zero, so it reads back as a zero, which is written without a search
  have hvalue : (Decimal.shortest tie x).value = 0 := by
    rw [Decimal.value, h, Nat.cast_zero, zero_mul]
  have hback := Decimal.ofMagnitude_shortest tie hx
  rw [hvalue, Binary64.ofMagnitude, if_pos le_rfl] at hback
  rw [← hback]
  rfl

section

variable {layout : Layout} {x : Binary64}

variable (hpoint : layout.pointZero = true) (hx : x.isFinite = true)

include hpoint hx

theorem writesNumber_shortest :
    WritesNumber (layout.writeDecimal (Decimal.shortest layout.tie x))
      (Decimal.shortest layout.tie x).value :=
  writesNumber_writeDecimal hpoint (exponent_shortest layout.tie hx)

/-- **Numbers are read back**, bit by bit, in every layout that tells them from integers. -/
theorem literal?_write : literal? (layout.write x) = some (.number x) := by
  have hliteral := (writesNumber_shortest hpoint hx).literal? x.isNegative
  rwa [Decimal.ofMagnitude_shortest layout.tie hx, ← Binary64.write_of_isFinite layout hx] at hliteral

end

/-- The text is a single word, which is read as `value`. -/
structure Denotes (text : List Char) (value : Json) : Prop where
  ne_nil : text ≠ []
  word : ∀ c ∈ text, isDelimiter c = false
  literal : literal? text = some value

theorem denotes_null : Denotes ['n', 'u', 'l', 'l'] .null where
  ne_nil := List.cons_ne_nil _ _
  word := by
    simp only [List.forall_mem_cons]
    exact ⟨rfl, rfl, rfl, rfl, fun _ hc => absurd hc List.not_mem_nil⟩
  literal := rfl

/-- Integers are read back. -/
theorem denotes_toString (n : Nat) : Denotes (toString n).toList (.integer n) := by
  rw [Nat.toString_eq_ofList_toDigits, String.toList_ofList]
  refine ⟨Nat.toDigits_ne_nil, fun c hc => isDelimiter_of_isDigit (isDigit_toDigits n c hc), ?_⟩
  have hnull : Nat.toDigits 10 n ≠ ['n', 'u', 'l', 'l'] := by
    intro h
    have hdigit := isDigit_toDigits n 'n' (h ▸ List.mem_cons_self)
    exact absurd hdigit (by decide)
  rw [literal?, if_neg hnull, if_pos (isWhole_toDigits n), Nat.ofDigitChars_ten_toDigits]

theorem ofNumber_of_isFinite {x : Binary64} (hx : x.isFinite = true) : ofNumber x = .number x :=
  if_pos hx

/-- **Numbers in JSON are read back**, bit by bit, where they have a text. -/
theorem denotes_numberText (x : Binary64) : Denotes (Json.numberText x).toList (ofNumber x) := by
  rw [Json.numberText, ofNumber]
  split
  · rename_i hx
    have hwrites : WritesNumber _ _ := writesNumber_shortest (show Layout.record.pointZero = true from rfl) hx
    have hliteral := literal?_write (show Layout.record.pointZero = true from rfl) hx
    rw [String.toList_ofList]
    refine ⟨?_, ?_, hliteral⟩
    · rw [Binary64.write_of_isFinite _ hx]
      obtain ⟨c, rest, hcons, -⟩ := hwrites.exists_cons
      rw [hcons]
      exact List.append_ne_nil_of_right_ne_nil _ (List.cons_ne_nil _ _)
    · rw [Binary64.write_of_isFinite _ hx]
      refine List.forall_mem_append.mpr ⟨?_, hwrites.isDelimiter_eq_false⟩
      cases x.isNegative with
      | false => exact fun _ hc => absurd hc List.not_mem_nil
      | true => exact List.forall_mem_singleton.mpr rfl
  · exact denotes_null

end Quadra.Report.JsonReader
