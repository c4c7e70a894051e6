import Mathlib.Data.List.Forall2
import Mathlib.Data.List.TakeWhile
import Quadra.CommandLine.Grammar

set_option autoImplicit false

/-!
# Command lines are read as what they give

What a command line gives are values of options and flags, one after the other (`Item`), and each of them
is written in one of a few ways (`Item.Spelled`). If the names of a declaration can be told apart
(`WellFormed`), exactly the items that were written are read (`Holds`), and with the positional argument
behind `--` they pass all checks when they are acceptable: `Declaration.WellFormed.read_items`.
-/

namespace Quadra.CommandLine

/-! ## Items -/

/-- What a command line gives at a time. -/
inductive Item (Name : Type)
  | value (option : Name) (text : String)
  | flag (name : String)

/-- A name has no dash in front, and no `=` that a value would stand behind. -/
structure IsName (name : String) : Prop where
  head : name.toList.head?.any (· != '-') = true
  all : name.toList.all (· != '=') = true

/-- A value is not taken for an option, and does not start with a `=` that would be dropped. -/
def IsValue (text : String) : Prop := text.toList.head?.any (fun c => c != '-' && c != '=') = true

theorem exists_cons_of_any_head? {α : Type} {xs : List α} {test : α → Bool}
    (h : xs.head?.any test = true) : ∃ x rest, xs = x :: rest ∧ test x = true := by
  cases xs with
  | nil => cases h
  | cons x rest => exact ⟨x, rest, rfl, h⟩

theorem IsName.exists_cons {name : String} (h : IsName name) :
    ∃ c rest, name.toList = c :: rest ∧ c ≠ '-' := by
  obtain ⟨c, rest, hcons, hc⟩ := exists_cons_of_any_head? h.head
  exact ⟨c, rest, hcons, bne_iff_ne.mp hc⟩

theorem IsName.forall_bne {name : String} (h : IsName name) : ∀ c ∈ name.toList, (c != '=') = true :=
  List.all_eq_true.mp h.all

theorem IsValue.exists_cons {text : String} (h : IsValue text) :
    ∃ c rest, text.toList = c :: rest ∧ c ≠ '-' ∧ c ≠ '=' := by
  obtain ⟨c, rest, hcons, hc⟩ := exists_cons_of_any_head? h
  rw [Bool.and_eq_true, bne_iff_ne, bne_iff_ne] at hc
  exact ⟨c, rest, hcons, hc⟩

/-- Nothing is dropped from the front of a value. -/
theorem IsValue.dropWhile_equals {text : String} (h : IsValue text) :
    text.toList.dropWhile (· == '=') = text.toList := by
  obtain ⟨c, rest, hcons, -, hc⟩ := h.exists_cons
  rw [hcons, List.dropWhile_cons_of_neg (by simpa using hc)]

variable {Name : Type}

/-- How an item is written: a value as an argument of its own, behind the name and a `=`, or behind the
letter with a `=` or without; a flag by its name. -/
inductive Item.Spelled (declaration : Declaration Name) : Item Name → List String → Prop
  | apart (option : Name) {text : String} (htext : IsValue text) :
      Spelled declaration (.value option text) ["--" ++ declaration.longName option, text]
  | equals (option : Name) {text : String} (htext : IsValue text) :
      Spelled declaration (.value option text) ["--" ++ declaration.longName option ++ "=" ++ text]
  | letterApart {option : Name} {letter : Char} {text argument : String}
      (hletter : declaration.letter? option = some letter) (htext : IsValue text)
      (hargument : argument.toList = ['-', letter]) :
      Spelled declaration (.value option text) [argument, text]
  | letterEquals {option : Name} {letter : Char} {text argument : String}
      (hletter : declaration.letter? option = some letter) (htext : IsValue text)
      (hargument : argument.toList = '-' :: letter :: '=' :: text.toList) :
      Spelled declaration (.value option text) [argument]
  | letterJoined {option : Name} {letter : Char} {text argument : String}
      (hletter : declaration.letter? option = some letter) (htext : IsValue text)
      (hargument : argument.toList = '-' :: letter :: text.toList) :
      Spelled declaration (.value option text) [argument]
  | flag {name : String} (hname : name ∈ declaration.flags) : Spelled declaration (.flag name) ["--" ++ name]

/-- The names of a declaration can be told apart, and a default is one of the values that are allowed. -/
structure Declaration.WellFormed (declaration : Declaration Name) : Prop where
  mem_options : ∀ option, option ∈ declaration.options
  longName_inj : ∀ option other, declaration.longName option = declaration.longName other → option = other
  isName_longName : ∀ option, IsName (declaration.longName option)
  letter_inj : ∀ option other letter, declaration.letter? option = some letter →
    declaration.letter? other = some letter → option = other
  letter_ne : ∀ option, declaration.letter? option ≠ some '-'
  isName_flag : ∀ flag ∈ declaration.flags, IsName flag
  longName_ne_flag : ∀ flag ∈ declaration.flags, ∀ option, declaration.longName option ≠ flag
  default_allowed : ∀ option default, declaration.default? option = some default →
    ∀ allowed, declaration.allowed option = some allowed → default ∈ allowed

/-- A member that is the only one to pass a test is found by it. -/
theorem find?_eq_some_of_unique {α : Type} {xs : List α} {test : α → Bool} {x : α} (hmem : x ∈ xs)
    (htest : test x = true) (hunique : ∀ y, test y = true → y = x) : xs.find? test = some x := by
  cases hfind : xs.find? test with
  | none => exact absurd htest (List.find?_eq_none.mp hfind x hmem)
  | some y => rw [hunique y (List.find?_some hfind)]

theorem Declaration.WellFormed.find?_longName {declaration : Declaration Name}
    (hd : declaration.WellFormed) (option : Name) :
    (declaration.options.find? fun other => declaration.longName other == declaration.longName option) =
      some option :=
  find?_eq_some_of_unique (hd.mem_options option) (beq_self_eq_true _)
    fun other hother => hd.longName_inj other option (beq_iff_eq.mp hother)

theorem Declaration.WellFormed.ne_of_letter {declaration : Declaration Name} (hd : declaration.WellFormed)
    {option : Name} {letter : Char} (hletter : declaration.letter? option = some letter) :
    letter ≠ '-' := by
  rintro rfl
  exact hd.letter_ne option hletter

/-! ## Single arguments -/

namespace Given

variable [DecidableEq Name] {declaration : Declaration Name} (hd : declaration.WellFormed)
  (given : Given Name)

section

include hd

theorem addLong_longName (option : Name) :
    given.addLong declaration (declaration.longName option).toList =
      .ok (given.addOption declaration option none) := by
  have hname := (hd.isName_longName option).forall_bne
  simp only [addLong, List.takeWhile_eq_self_iff.mpr hname, List.dropWhile_eq_nil_iff.mpr hname,
    String.ofList_toList, hd.find?_longName]

/-- The value stands behind the first `=`. -/
theorem addLong_equals (option : Name) {text : String} (htext : IsValue text) :
    given.addLong declaration ((declaration.longName option).toList ++ '=' :: text.toList) =
      .ok (given.addOption declaration option (some text)) := by
  have hname := (hd.isName_longName option).forall_bne
  simp only [addLong, List.takeWhile_append_of_pos hname, List.dropWhile_append_of_pos hname,
    List.takeWhile_cons_of_neg, List.dropWhile_cons_of_neg, List.dropWhile_cons_of_pos, bne_self_eq_false,
    beq_self_eq_true, Bool.false_eq_true, not_false_eq_true, List.append_nil, String.ofList_toList,
    hd.find?_longName, htext.dropWhile_equals]

theorem addLong_flag {flag : String} (hflag : flag ∈ declaration.flags) :
    given.addLong declaration flag.toList = .ok (given.addFlag flag) := by
  have hname := (hd.isName_flag flag hflag).forall_bne
  have hfind : (declaration.options.find? fun other => declaration.longName other == flag) = none :=
    List.find?_eq_none.mpr fun option _ heq => hd.longName_ne_flag flag hflag option (beq_iff_eq.mp heq)
  simp only [addLong, List.takeWhile_eq_self_iff.mpr hname, String.ofList_toList, hfind,
    List.contains_iff_mem.mpr hflag, if_true]

theorem addShort_letter {option : Name} {letter : Char}
    (hletter : declaration.letter? option = some letter) (rest : List Char) :
    given.addShort declaration letter rest = .ok (given.addOption declaration option
      (if rest.isEmpty then none else some (.ofList (rest.dropWhile (· == '='))))) := by
  have hfind : (declaration.options.find? fun other => declaration.letter? other == some letter) =
      some option :=
    find?_eq_some_of_unique (hd.mem_options option) (beq_iff_eq.mpr hletter)
      fun other hother => hd.letter_inj other option letter (beq_iff_eq.mp hother) hletter
  simp only [addShort, hfind]

theorem addShort_equals {option : Name} {letter : Char} {text : String}
    (hletter : declaration.letter? option = some letter) (htext : IsValue text) :
    given.addShort declaration letter ('=' :: text.toList) =
      .ok (given.addOption declaration option (some text)) := by
  rw [addShort_letter hd given hletter, List.isEmpty_cons, if_neg Bool.false_ne_true,
    List.dropWhile_cons_of_pos rfl, htext.dropWhile_equals, String.ofList_toList]

theorem addShort_joined {option : Name} {letter : Char} {text : String}
    (hletter : declaration.letter? option = some letter) (htext : IsValue text) :
    given.addShort declaration letter text.toList =
      .ok (given.addOption declaration option (some text)) := by
  have hempty : text.toList.isEmpty = false := by
    obtain ⟨c, rest, hcons, -⟩ := htext.exists_cons
    rw [hcons]
    rfl
  rw [addShort_letter hd given hletter, hempty, if_neg Bool.false_ne_true, htext.dropWhile_equals,
    String.ofList_toList]

end

variable {given} (hopen : given.trailing = false)

section

include hopen

/-- Two dashes and a name. -/
theorem add_long {name argument : String} (hname : IsName name) (tail : List Char)
    (hargument : argument.toList = '-' :: '-' :: (name.toList ++ tail)) :
    given.add declaration argument = given.addLong declaration (name.toList ++ tail) := by
  obtain ⟨c, rest, hcons, hc⟩ := hname.exists_cons
  rw [add, hopen, hargument, hcons]
  show given.addLong declaration ((c :: (rest ++ tail)).dropWhile (· == '-')) = _
  rw [List.dropWhile_cons_of_neg (by simpa using hc)]
  rfl

/-- One dash and a letter. -/
theorem add_short {letter : Char} {argument : String} {rest : List Char} (hletter : letter ≠ '-')
    (hargument : argument.toList = '-' :: letter :: rest) :
    given.add declaration argument = given.addShort declaration letter rest := by
  rw [add, hopen, hargument, if_neg Bool.false_ne_true]
  split
  · rename_i heq
    cases heq
    exact absurd rfl hletter
  · rename_i heq
    cases heq
    exact absurd rfl hletter
  · rename_i heq
    cases heq
    rfl
  · rename_i hother
    exact absurd rfl (hother letter rest)

/-- A value that is awaited. -/
theorem add_value {option : Name} {text : String} (htext : IsValue text)
    (hawaiting : given.awaiting = some option) :
    given.add declaration text = .ok (given.addValue declaration option text) := by
  obtain ⟨c, rest, hcons, hc, -⟩ := htext.exists_cons
  have hplain : given.add declaration text = given.addPlain declaration text.toList := by
    unfold add
    rw [hopen, if_neg Bool.false_ne_true, hcons]
    split
    · rename_i heq
      cases heq
      exact absurd rfl hc
    · rename_i heq
      cases heq
      exact absurd rfl hc
    · rename_i heq
      cases heq
      exact absurd rfl hc
    · rfl
  rw [hplain, addPlain, hopen, hawaiting, String.ofList_toList]

theorem add_dashes : given.add declaration "--" = .ok { given with trailing := true } := by
  rw [add, hopen]
  rfl

end

/-- Behind the dashes an argument is positional, whatever it looks like. -/
theorem add_positional (hnone : given.positional = none) (positional : String) :
    { given with trailing := true }.add declaration positional =
      .ok { given with positional := some positional, trailing := true } := by
  rw [add, if_pos rfl, addPlain, hnone, String.ofList_toList]

theorem read_of_add {next : Given Name} {argument : String}
    (h : given.add declaration argument = .ok next) (rest : List String) :
    given.read declaration (argument :: rest) = next.read declaration rest := by
  rw [read, h]
  rfl

end Given

/-! ## What has been read -/

/-- The flag that an item is. -/
def Item.flag? : Item Name → Option String
  | .value _ _ => none
  | .flag name => some name

/-- The flags, in order. -/
def flagsOf (items : List (Item Name)) : List String := items.filterMap Item.flag?

theorem flagsOf_append (front back : List (Item Name)) :
    flagsOf (front ++ back) = flagsOf front ++ flagsOf back :=
  List.filterMap_append

variable [DecidableEq Name]

/-- The value that an item has for an option. -/
def Item.value? (option : Name) : Item Name → Option String
  | .value other text => if other = option then some text else none
  | .flag _ => none

/-- The values of an option, in order. -/
def valuesOf (option : Name) (items : List (Item Name)) : List String :=
  items.filterMap (Item.value? option)

theorem valuesOf_append (option : Name) (front back : List (Item Name)) :
    valuesOf option (front ++ back) = valuesOf option front ++ valuesOf option back :=
  List.filterMap_append

theorem valuesOf_value (option other : Name) (text : String) :
    valuesOf option [.value other text] = if other = option then [text] else [] := by
  by_cases h : other = option
  · simp [valuesOf, Item.value?, h]
  · simp [valuesOf, Item.value?, h]

/-- Exactly these items have been read. Which option awaits a value is left open: it is one with a list
behind a value of its own, and the next item starts with a dash. -/
structure Holds (items : List (Item Name)) (given : Given Name) : Prop where
  positional_eq : given.positional = none
  trailing_eq : given.trailing = false
  usage_eq : ∀ option,
    given.usage option = ⟨(valuesOf option items).length, valuesOf option items⟩
  flags_eq : given.flags = flagsOf items

theorem holds_start : Holds [] (Given.start : Given Name) := ⟨rfl, rfl, fun _ => rfl, rfl⟩

variable {declaration : Declaration Name} {items : List (Item Name)} {given : Given Name}

namespace Holds

/-- An option and its value are counted, whatever is awaited behind them. -/
theorem value (declaration : Declaration Name) (h : Holds items given) (option : Name) (text : String)
    (awaiting : Option Name) :
    Holds (items ++ [.value option text])
      { (given.addOption declaration option none).addValue declaration option text with
        awaiting := awaiting } where
  positional_eq := h.positional_eq
  trailing_eq := h.trailing_eq
  usage_eq other := by
    rw [valuesOf_append, valuesOf_value]
    show (if other = option then _ else if other = option then _ else given.usage other) = _
    rw [h.usage_eq other]
    by_cases heq : option = other
    · subst heq
      simp [Given.addOption, h.usage_eq option]
    · simp [heq, Ne.symm heq]
  flags_eq := by
    rw [flagsOf_append]
    exact h.flags_eq.trans (List.append_nil _).symm

theorem flag (h : Holds items given) (name : String) :
    Holds (items ++ [.flag name]) (given.addFlag name) where
  positional_eq := h.positional_eq
  trailing_eq := h.trailing_eq
  usage_eq option := by
    rw [valuesOf_append]
    exact (h.usage_eq option).trans (by simp [valuesOf, Item.value?])
  flags_eq := by
    rw [flagsOf_append, ← h.flags_eq]
    rfl

/-- The value is awaited, and is the next argument. -/
theorem read_apart (h : Holds items given) {option : Name} {text argument : String} (htext : IsValue text)
    (hadd : given.add declaration argument = .ok (given.addOption declaration option none)) :
    ∃ next, Holds (items ++ [.value option text]) next ∧
      ∀ rest, given.read declaration ([argument, text] ++ rest) = next.read declaration rest := by
  have hawaits : (given.addOption declaration option none).trailing = false := h.trailing_eq
  refine ⟨_, h.value declaration option text
    (if declaration.isList option then some option else none), fun rest => ?_⟩
  show given.read declaration (argument :: text :: rest) = _
  rw [Given.read_of_add hadd, Given.read_of_add (Given.add_value hawaits htext rfl)]
  rfl

/-- The value stands in the same argument. -/
theorem read_joined (h : Holds items given) {option : Name} {text argument : String}
    (hadd : given.add declaration argument = .ok (given.addOption declaration option (some text))) :
    ∃ next, Holds (items ++ [.value option text]) next ∧
      ∀ rest, given.read declaration ([argument] ++ rest) = next.read declaration rest :=
  ⟨_, h.value declaration option text none, Given.read_of_add hadd⟩

section

variable (hd : declaration.WellFormed)

include hd

/-- One more item is read, whatever stands behind it. -/
theorem read_item (h : Holds items given) {item : Item Name} {arguments : List String}
    (hspelled : item.Spelled declaration arguments) :
    ∃ next, Holds (items ++ [item]) next ∧
      ∀ rest, given.read declaration (arguments ++ rest) = next.read declaration rest := by
  have hopen := h.trailing_eq
  cases hspelled with
  | apart option htext =>
      apply h.read_apart htext
      rw [Given.add_long hopen (hd.isName_longName option) [] (by simp), List.append_nil]
      exact Given.addLong_longName hd given option
  | @equals option text htext =>
      apply h.read_joined
      rw [Given.add_long hopen (hd.isName_longName option) ('=' :: text.toList) (by simp)]
      exact Given.addLong_equals hd given option htext
  | letterApart hletter htext hargument =>
      apply h.read_apart htext
      rw [Given.add_short hopen (hd.ne_of_letter hletter) hargument]
      exact Given.addShort_letter hd given hletter []
  | letterEquals hletter htext hargument =>
      apply h.read_joined
      rw [Given.add_short hopen (hd.ne_of_letter hletter) hargument]
      exact Given.addShort_equals hd given hletter htext
  | letterJoined hletter htext hargument =>
      apply h.read_joined
      rw [Given.add_short hopen (hd.ne_of_letter hletter) hargument]
      exact Given.addShort_joined hd given hletter htext
  | @flag name hname =>
      refine ⟨given.addFlag name, h.flag name, Given.read_of_add ?_⟩
      rw [Given.add_long hopen (hd.isName_flag name hname) [] (by simp), List.append_nil]
      exact Given.addLong_flag hd given hname

/-- Items are read one after the other. -/
theorem read_items (h : Holds items given) {more : List (Item Name)} {arguments : List (List String)}
    (hspelled : List.Forall₂ (Item.Spelled declaration) more arguments) :
    ∃ next, Holds (items ++ more) next ∧
      ∀ rest, given.read declaration (arguments.flatten ++ rest) = next.read declaration rest := by
  induction hspelled generalizing items given with
  | nil => exact ⟨given, by rwa [List.append_nil], fun _ => rfl⟩
  | @cons item written more arguments hitem _ ih =>
      obtain ⟨middle, hmiddle, hread⟩ := h.read_item hd hitem
      obtain ⟨next, hnext, hmore⟩ := ih hmiddle
      refine ⟨next, by rwa [List.append_assoc] at hnext, fun rest => ?_⟩
      rw [List.flatten_cons, List.append_assoc, hread, hmore]

end

end Holds

/-! ## Checks -/

/-- What is found for items, and a positional argument. -/
def Matches.ofItems (declaration : Declaration Name) (items : List (Item Name)) (positional : String) :
    Matches Name where
  positional := positional
  values option := declaration.orDefault option (valuesOf option items)
  flags := flagsOf items

/-- All values are in the lists of their options, and nothing is repeated that counts once. -/
structure Acceptable (declaration : Declaration Name) (items : List (Item Name)) : Prop where
  allowed : ∀ option allowed, declaration.allowed option = some allowed →
    ∀ value ∈ valuesOf option items, value ∈ allowed
  single : ∀ option, declaration.isList option = false → (valuesOf option items).length ≤ 1
  flag : ∀ flag ∈ declaration.flags, (flagsOf items).count flag ≤ 1

namespace Holds

theorem values_eq (h : Holds items given) (option : Name) :
    given.values declaration option = declaration.orDefault option (valuesOf option items) := by
  rw [Given.values, h.usage_eq]

theorem lacksValue_eq_false (h : Holds items given) (option : Name) :
    given.lacksValue declaration option = false := by
  rw [Given.lacksValue, Given.isGiven, h.values_eq, h.usage_eq]
  cases valuesOf option items <;> rfl

theorem repeats_eq_false (h : Holds items given) (hitems : Acceptable declaration items) (option : Name) :
    given.repeats declaration option = false := by
  rw [Given.repeats, h.usage_eq]
  cases hlist : declaration.isList option with
  | true => rfl
  | false => exact decide_eq_false (Nat.not_lt.mpr (hitems.single option hlist))

theorem repeatsFlag_eq_false (h : Holds items given) (hitems : Acceptable declaration items)
    {flag : String} (hflag : flag ∈ declaration.flags) : given.repeatsFlag flag = false := by
  rw [Given.repeatsFlag, h.flags_eq]
  exact decide_eq_false (Nat.not_lt.mpr (hitems.flag flag hflag))

variable (hd : declaration.WellFormed)

include hd

theorem valuesAllowed (h : Holds items given) (hitems : Acceptable declaration items) (option : Name) :
    given.valuesAllowed declaration option = true := by
  rw [Given.valuesAllowed, h.values_eq]
  cases hallowed : declaration.allowed option with
  | none => rfl
  | some allowed =>
      refine List.all_eq_true.mpr fun value hvalue => List.contains_iff_mem.mpr ?_
      have hmem := hitems.allowed option allowed hallowed value
      cases hvalues : valuesOf option items with
      | nil =>
          rw [hvalues] at hvalue
          exact hd.default_allowed option value (Option.mem_toList.mp hvalue) allowed hallowed
      | cons first others =>
          rw [hvalues] at hvalue hmem
          exact hmem hvalue

/-- With the positional argument behind them, acceptable items pass all checks. -/
theorem check_eq (h : Holds items given) (hitems : Acceptable declaration items) (positional : String) :
    ({ given with positional := some positional, trailing := true } : Given Name).check declaration =
      .ok (.ofItems declaration items positional) := by
  have hlacks : declaration.options.any (given.lacksValue declaration) = false :=
    List.any_eq_false.mpr fun option _ => Bool.eq_false_iff.mp (h.lacksValue_eq_false option)
  have hallowed : declaration.options.all (given.valuesAllowed declaration) = true :=
    List.all_eq_true.mpr fun option _ => h.valuesAllowed hd hitems option
  have hrepeats : declaration.options.any (given.repeats declaration) = false :=
    List.any_eq_false.mpr fun option _ => Bool.eq_false_iff.mp (h.repeats_eq_false hitems option)
  have hflags : declaration.flags.any given.repeatsFlag = false :=
    List.any_eq_false.mpr fun flag hflag => Bool.eq_false_iff.mp (h.repeatsFlag_eq_false hitems hflag)
  have hvalues : given.values declaration = (Matches.ofItems declaration items positional).values :=
    funext h.values_eq
  show (if declaration.options.any (given.lacksValue declaration) then _
    else if !declaration.options.all (given.valuesAllowed declaration) then _
    else if declaration.options.any (given.repeats declaration) ||
      declaration.flags.any given.repeatsFlag then _ else _) = _
  rw [hlacks, hallowed, hrepeats, hflags]
  show Except.ok (Matches.mk positional (given.values declaration) given.flags) = _
  rw [hvalues, h.flags_eq]
  rfl

end Holds

/-- **A command line is read as what it gives**: items that are acceptable, each in one of its ways, and the
positional argument behind `--`, whatever it looks like. -/
theorem Declaration.WellFormed.read_items (hd : declaration.WellFormed) {arguments : List (List String)}
    (hspelled : List.Forall₂ (Item.Spelled declaration) items arguments)
    (hitems : Acceptable declaration items) (positional : String) :
    declaration.read (arguments.flatten ++ ["--", positional]) =
      .ok (.ofItems declaration items positional) := by
  obtain ⟨given, hgiven, hread⟩ := holds_start.read_items hd hspelled
  rw [List.nil_append] at hgiven
  rw [Declaration.read, hread, Given.read_of_add (Given.add_dashes hgiven.trailing_eq),
    Given.read_of_add (Given.add_positional hgiven.positional_eq positional)]
  exact hgiven.check_eq hd hitems positional

end Quadra.CommandLine
