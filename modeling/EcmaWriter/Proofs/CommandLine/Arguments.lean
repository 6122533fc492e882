import EcmaWriter.CommandLine.Arguments

/-!
# EcmaWriter - All choices can be asked for

Every choice of options can be written as arguments, with each value joined to its option,
and these arguments are read as that choice.  Only an empty path cannot be asked for.

Main results:

- Definition `Arguments.written`: arguments that ask for given choices.
- Theorem `Arguments.parse_written`: these are read as the choices.
-/

namespace EcmaWriter

namespace Arguments

/-- An option and its value as one argument. -/
def joined (option : OptionName) (value : String) : String :=
  option.written ++ "=" ++ value

/-- Arguments that ask for given choices. -/
def written (a : Arguments) : List String :=
  a.input.toList.map (joined .input) ++ a.output.toList.map (joined .output) ++
    (a.dialect.map (nameIn dialectNames)).toList.map (joined .dialect) ++
    a.links.map (joined .link) ++
    (if a.allowUnresolved then [OptionName.written .allowUnresolved] else []) ++
    (if a.verbose then [OptionName.written .verbose] else [])

/-! ## One argument -/

section

/-- The long name of an option is looked up as that option. -/
theorem lookup_long (option : OptionName) :
    OptionName.long.lookup (String.ofList (nameIn OptionName.long option).toList) =
      some option := by
  cases option <;> decide

/-- No name of an option has an equals sign, so the first one ends the name. -/
theorem equals_not_mem_long (option : OptionName) :
    '=' ∉ (nameIn OptionName.long option).toList := by
  cases option <;> decide

/-- The characters of an option as it is written. -/
theorem toList_written (option : OptionName) :
    option.written.toList = '-' :: '-' :: (nameIn OptionName.long option).toList := by
  rw [OptionName.written, String.toList_append]
  rfl

/-- The characters of an option with its value behind an equals sign. -/
theorem toList_joined (option : OptionName) (value : String) :
    (joined option value).toList =
      '-' :: '-' :: ((nameIn OptionName.long option).toList ++ '=' :: value.toList) := by
  simp [joined, toList_written]

variable (a : Arguments) {option : OptionName}

/-- An option with its value is split where they were joined. -/
theorem longOption_joined (hvalue : option.hasValue = true) {name value : List Char}
    (hname : OptionName.long.lookup (String.ofList name) = some option) (hequals : '=' ∉ name) :
    a.longOption (name ++ '=' :: value) =
      (a.store option (String.ofList value)).map fun b => (b, Option.none) := by
  have hne : ∀ c ∈ name, decide (c ≠ '=') = true := by
    intro c hc
    have hne : c ≠ '=' := fun h => hequals (h ▸ hc)
    simpa using hne
  have htake : (name ++ '=' :: value).takeWhile (· ≠ '=') = name := by
    rw [List.takeWhile_append_of_pos hne]
    simp
  have hdrop : (name ++ '=' :: value).dropWhile (· ≠ '=') = '=' :: value := by
    rw [List.dropWhile_append_of_pos hne]
    simp
  simp only [longOption, htake, hdrop, hname, hvalue, if_true]
  cases a.store option (String.ofList value) <;> rfl

/-- An option without a value is its name. -/
theorem longOption_written (hvalue : option.hasValue = false) :
    a.longOption (nameIn OptionName.long option).toList =
      (a.flag option).map fun b => (b, Option.none) := by
  have hne : ∀ c ∈ (nameIn OptionName.long option).toList, decide (c ≠ '=') = true := by
    intro c hc
    have hne : c ≠ '=' := fun h => equals_not_mem_long option (h ▸ hc)
    simpa using hne
  have htake : (nameIn OptionName.long option).toList.takeWhile (· ≠ '=') =
      (nameIn OptionName.long option).toList := by
    rw [← List.append_nil (nameIn OptionName.long option).toList,
      List.takeWhile_append_of_pos hne]
    rfl
  have hdrop : (nameIn OptionName.long option).toList.dropWhile (· ≠ '=') = [] := by
    rw [← List.append_nil (nameIn OptionName.long option).toList,
      List.dropWhile_append_of_pos hne]
    rfl
  simp only [longOption, htake, hdrop, lookup_long, hvalue]
  cases a.flag option <;> rfl

/-- One argument that is taken and is not the end of the options. -/
theorem takeAll_of_take {b : Arguments} {argument : String} (hend : argument ≠ "--")
    (htake : a.take argument = .ok (b, Option.none)) (rest : List String) :
    a.takeAll (argument :: rest) = b.takeAll rest := by
  conv => lhs; unfold takeAll
  rw [if_neg hend, htake]
  rfl

/-- An option with its value goes into its field. -/
theorem takeAll_joined {b : Arguments} {value : String} (hvalue : option.hasValue = true)
    (hstore : a.store option value = .ok b) (rest : List String) :
    a.takeAll (joined option value :: rest) = b.takeAll rest := by
  have htext := toList_joined option value
  refine takeAll_of_take a ?_ ?_ rest
  · intro h
    rw [h] at htext
    exact absurd htext (by simp)
  · rw [take, htext]
    simp only [longOption_joined a hvalue (lookup_long option) (equals_not_mem_long option),
      String.ofList_toList, hstore]
    rfl

/-- An option without a value sets its flag. -/
theorem takeAll_written {b : Arguments} (hvalue : option.hasValue = false)
    (hflag : a.flag option = .ok b) (rest : List String) :
    a.takeAll (option.written :: rest) = b.takeAll rest := by
  refine takeAll_of_take a ?_ ?_ rest
  · cases option <;> decide
  · rw [take, toList_written]
    simp only [longOption_written a hvalue, hflag]
    rfl

end

/-! ## All arguments -/

section

variable {a b : Arguments} {option : OptionName} (rest : List String)

/-- An option that is only given if there is a value for it. -/
theorem takeAll_optional (hvalue : option.hasValue = true) {value : Option String}
    (hsome : ∀ text, value = some text → a.store option text = .ok b)
    (hnone : value = Option.none → a = b) :
    a.takeAll (value.toList.map (joined option) ++ rest) = b.takeAll rest := by
  cases value with
  | none => rw [hnone rfl]; rfl
  | some text => exact takeAll_joined a hvalue (hsome text rfl) rest

/-- An option that is only given if its flag is set. -/
theorem takeAll_flag (hvalue : option.hasValue = false) {given : Bool}
    (htrue : given = true → a.flag option = .ok b) (hfalse : given = false → a = b) :
    a.takeAll ((if given then [option.written] else []) ++ rest) = b.takeAll rest := by
  cases given with
  | false => rw [hfalse rfl]; rfl
  | true => exact takeAll_written a hvalue (htrue rfl) rest

/-- Links are gathered in the order in which they are given. -/
theorem takeAll_links (a : Arguments) (links : List String) :
    a.takeAll (links.map (joined .link) ++ rest) =
      { a with links := a.links ++ links }.takeAll rest := by
  induction links generalizing a with
  | nil => simp
  | cons link links ih =>
    rw [List.map_cons, List.cons_append, takeAll_joined a rfl rfl, ih]
    simp

end

/-- Arguments that ask for given choices are read as these. -/
theorem parse_written (a : Arguments) (hinput : a.input ≠ some "")
    (houtput : a.output ≠ some "") : parse a.written = .ok a := by
  obtain ⟨input, output, dialect, links, allowUnresolved, verbose⟩ := a
  have hpath : ∀ option value, some value ≠ some "" →
      path option Option.none value = .ok (some value) := by
    intro option value hvalue
    have hne : value ≠ "" := fun h => hvalue (h ▸ rfl)
    simp [path, hne]
  have hinputs : ∀ text, input = some text →
      store ⟨.none, .none, .none, [], false, false⟩ .input text =
        .ok ⟨input, .none, .none, [], false, false⟩ := by
    rintro text rfl
    rw [store, hpath _ _ hinput]
    rfl
  have houtputs : ∀ text, output = some text →
      store ⟨input, .none, .none, [], false, false⟩ .output text =
        .ok ⟨input, output, .none, [], false, false⟩ := by
    rintro text rfl
    rw [store, hpath _ _ houtput]
    rfl
  have hdialects : ∀ text, dialect.map (nameIn dialectNames) = some text →
      store ⟨input, output, .none, [], false, false⟩ .dialect text =
        .ok ⟨input, output, dialect, [], false, false⟩ := by
    intro text htext
    obtain ⟨d, rfl, rfl⟩ := Option.map_eq_some_iff.1 htext
    cases d <;> rfl
  rw [parse, none, written]
  simp only [List.append_assoc]
  rw [takeAll_optional _ rfl hinputs (fun h => by rw [h]),
    takeAll_optional _ rfl houtputs (fun h => by rw [h]),
    takeAll_optional _ rfl hdialects (fun h => by rw [Option.map_eq_none_iff.1 h]),
    takeAll_links, List.nil_append,
    takeAll_flag (b := ⟨input, output, dialect, links, allowUnresolved, false⟩) _ rfl
      (fun h => by rw [h]; rfl) (fun h => by rw [h]),
    ← List.append_nil (if verbose then _ else _),
    takeAll_flag (b := ⟨input, output, dialect, links, allowUnresolved, verbose⟩) [] rfl
      (fun h => by rw [h]; rfl) (fun h => by rw [h])]
  rfl

end Arguments

end EcmaWriter
