import FinalityBridge.CommandLine.Report
import FinalityBridge.Proofs.Text.Spelling

/-!
# Arranging a command line

Options and positional arguments may come in any order, and the value of an option in a word of its
own or after an equals sign. However its parts are arranged, a command line that fits the form of a
command names the command that is built from the parts (`Command.ofArguments_words`).
-/

namespace FinalityBridge

namespace Text

/-- A text without the marks of options. -/
def IsPlain (text : String) : Prop := ∀ c ∈ text.toList, c ≠ '-' ∧ c ≠ '='

-- The commas and the blanks of a list are no marks of options either.
theorem isPlain_of_lists {α : Type} {Spells : List Char → α → Prop} {text : String} {items : List α}
    (h : Lists Spells text.toList items)
    (hinert : ∀ core item, Spells core item → ∀ c ∈ core, IsInert c) : IsPlain text := by
  obtain ⟨parts, -, htext, hparts⟩ := h
  have hplain : ∀ part ∈ parts, ∀ c ∈ part, c ≠ '-' ∧ c ≠ '=' := by
    apply forall_of_forall₂ (P := fun part => ∀ c ∈ part, c ≠ '-' ∧ c ≠ '=') hparts
    rintro part item ⟨core, hpadded, hspells⟩ c hc
    exact (inert_of_padded hpadded (hinert core item hspells) c hc).2
  intro c hc
  rw [htext] at hc
  obtain hc | ⟨part, hmem, hc⟩ := mem_intercalate hc
  · rw [List.mem_singleton.1 hc]
    decide
  · exact hplain part hmem c hc

end Text

theorem Decimal.isPlain_of_spells {text : String} {n : Nat} (h : Decimal.Spells text.toList n) :
    Text.IsPlain text :=
  fun c hc => (Decimal.isInert_of_spells h c hc).2.2

theorem Hex.isPlain_of_spells {text : String} {bytes : Bytes} (h : Hex.Spells text.toList bytes) :
    Text.IsPlain text :=
  fun c hc => (Hex.isInert_of_spells h c hc).2.2

namespace CommandLine

/-! ## Words -/

/-- A name that an option or a flag can have. -/
def IsName (name : String) : Prop :=
  name.toList.head? ≠ none ∧ name.toList.head? ≠ some '-' ∧ '=' ∉ name.toList

instance (name : String) : Decidable (IsName name) := inferInstanceAs (Decidable (_ ∧ _))

theorem IsName.exists_cons {name : String} (h : IsName name) :
    ∃ c rest, name.toList = c :: rest ∧ c ≠ '-' ∧ '=' ∉ c :: rest := by
  obtain ⟨hne, hdash, hequals⟩ := h
  cases hname : name.toList with
  | nil =>
    rw [hname] at hne
    exact absurd rfl hne
  | cons c rest =>
    rw [hname] at hdash hequals
    exact ⟨c, rest, rfl, fun hc => hdash (congrArg some hc), hequals⟩

namespace Word

theorem ofString_plain {text : String} (h : Text.IsPlain text) : ofString text = .plain text := by
  unfold ofString
  split
  · rename_i htext
    exact absurd rfl (h '-' (by simp [htext])).1
  · rename_i htext
    exact absurd rfl (h '-' (by simp [htext])).1
  · rename_i htext
    exact absurd rfl (h '-' (by simp [htext])).1
  · rfl

theorem toList_dashes (name : String) : ("--" ++ name).toList = '-' :: '-' :: name.toList :=
  String.toList_append

/-- What follows the dashes of a name, told apart by the first equals sign. -/
def ofName (text : List Char) : Word :=
  match text.dropWhile (· ≠ '=') with
  | [] => .named (String.ofList (text.takeWhile (· ≠ '='))) none
  | value => .named (String.ofList (text.takeWhile (· ≠ '=')))
      (some (String.ofList (value.dropWhile (· = '='))))

theorem ofString_dashes {text : String} {c : Char} {rest : List Char}
    (htext : text.toList = '-' :: '-' :: c :: rest) (hc : c ≠ '-') :
    ofString text = ofName (c :: rest) := by
  have hdrop : (c :: rest).dropWhile (· = '-') = c :: rest :=
    List.dropWhile_cons_of_neg (by simpa using hc)
  unfold ofString
  rw [htext]
  split
  · rename_i heq
    cases heq
  · rename_i heq
    cases heq
    exact congrArg ofName hdrop
  · rename_i hdashes heq
    cases heq
    exact (hdashes rfl).elim
  · rename_i hdashes _
    exact (hdashes (c :: rest) rfl).elim

theorem ofString_name {name : String} (h : IsName name) : ofString ("--" ++ name) = .named name none := by
  obtain ⟨c, rest, hname, hc, hequals⟩ := h.exists_cons
  have hall : ∀ d ∈ c :: rest, decide (d ≠ '=') = true := by
    intro d hd
    rw [decide_eq_true_eq]
    rintro rfl
    exact hequals hd
  have htext : ("--" ++ name).toList = '-' :: '-' :: c :: rest := by rw [toList_dashes, hname]
  rw [ofString_dashes htext hc, ofName, List.dropWhile_eq_nil_iff.2 hall, List.takeWhile_eq_self_iff.2 hall,
    ← hname, String.ofList_toList]

theorem ofString_joined {name value : String} (h : IsName name) (hvalue : Text.IsPlain value) :
    ofString ("--" ++ name ++ "=" ++ value) = .named name (some value) := by
  obtain ⟨c, rest, hname, hc, hequals⟩ := h.exists_cons
  have hall : ∀ d ∈ c :: rest, decide (d ≠ '=') = true := by
    intro d hd
    rw [decide_eq_true_eq]
    rintro rfl
    exact hequals hd
  have htext : ("--" ++ name ++ "=" ++ value).toList =
      '-' :: '-' :: c :: (rest ++ '=' :: value.toList) := by
    rw [String.toList_append, String.toList_append, toList_dashes, hname]
    simp
  have hdrop : (c :: (rest ++ '=' :: value.toList)).dropWhile (· ≠ '=') = '=' :: value.toList := by
    rw [← List.cons_append, List.dropWhile_append_of_pos hall]
    rfl
  have htake : (c :: (rest ++ '=' :: value.toList)).takeWhile (· ≠ '=') = c :: rest := by
    rw [← List.cons_append, List.takeWhile_append_of_pos hall]
    simp
  have hplain : ('=' :: value.toList).dropWhile (· = '=') = value.toList := by
    rw [List.dropWhile_cons_of_pos (by decide), List.dropWhile_eq_self_iff]
    intro hlength
    simpa using (hvalue _ (List.getElem_mem hlength)).2
  rw [ofString_dashes htext hc, ofName, hdrop, htake]
  dsimp only
  rw [hplain, ← hname, String.ofList_toList, String.ofList_toList]

end Word

/-! ## Parts of a command line -/

/-- A part of a command line, in one of the ways to write it. -/
inductive Part where
  | positional (text : String)
  -- An option with its value in the next word.
  | apart (name value : String)
  -- An option with its value after an equals sign.
  | joined (name value : String)
  | flag (name : String)
deriving DecidableEq

namespace Part

def words : Part → List String
  | positional text => [text]
  | apart name value => ["--" ++ name, value]
  | joined name value => ["--" ++ name ++ "=" ++ value]
  | flag name => ["--" ++ name]

def positional? : Part → Option String
  | positional text => some text
  | _ => none

def option? : Part → Option (String × Option String)
  | apart name value => some (name, some value)
  | joined name value => some (name, some value)
  | _ => none

def flag? : Part → Option String
  | flag name => some name
  | _ => none

end Part

/-- The words of a command line. -/
def wordsOf (parts : List Part) : List String := parts.flatMap Part.words

/-- What the parts of a command line say, without the order of options among positional arguments. -/
def argumentsOf (parts : List Part) : Arguments where
  positionals := parts.filterMap Part.positional?
  options := parts.filterMap Part.option?
  flags := parts.filterMap Part.flag?

section Cons

variable (parts : List Part)

theorem argumentsOf_positional (text : String) :
    argumentsOf (.positional text :: parts) =
      { argumentsOf parts with positionals := text :: (argumentsOf parts).positionals } := rfl

theorem argumentsOf_apart (name value : String) :
    argumentsOf (.apart name value :: parts) =
      { argumentsOf parts with options := (name, some value) :: (argumentsOf parts).options } := rfl

theorem argumentsOf_joined (name value : String) :
    argumentsOf (.joined name value :: parts) =
      { argumentsOf parts with options := (name, some value) :: (argumentsOf parts).options } := rfl

theorem argumentsOf_flag (name : String) :
    argumentsOf (.flag name :: parts) =
      { argumentsOf parts with flags := name :: (argumentsOf parts).flags } := rfl

end Cons

namespace Form

/-- The options and flags of a form can be told apart and from all else. -/
structure WellNamed (form : Form) : Prop where
  option : ∀ name ∈ form.options.map (·.1), IsName name ∧ name ∉ form.flags
  flag : ∀ name ∈ form.flags, IsName name

/-- Arguments that a form has a place for, without marks of options in their values. -/
structure Takes (form : Form) (arguments : Arguments) : Prop where
  positional : ∀ text ∈ arguments.positionals, Text.IsPlain text
  option : ∀ name value, (name, some value) ∈ arguments.options →
    name ∈ form.options.map (·.1) ∧ Text.IsPlain value
  flag : ∀ name ∈ arguments.flags, name ∈ form.flags

variable {form : Form} {parts : List Part}

theorem any_options {name : String} (h : name ∈ form.options.map (·.1)) :
    (form.options.any fun option => option.1 == name) = true := by
  obtain ⟨option, hoption, rfl⟩ := List.mem_map.1 h
  exact List.any_eq_true.2 ⟨option, hoption, beq_self_eq_true _⟩

-- Each part adds what it says to what was found before it.
theorem collect_words (hform : form.WellNamed) (htakes : form.Takes (argumentsOf parts))
    (found : Arguments) :
    form.collect found (wordsOf parts) =
      some ⟨found.positionals ++ (argumentsOf parts).positionals,
        found.options ++ (argumentsOf parts).options, found.flags ++ (argumentsOf parts).flags⟩ := by
  induction parts generalizing found with
  | nil => simp [wordsOf, argumentsOf, collect]
  | cons part parts ih =>
    have hrest : form.Takes (argumentsOf parts) := by
      refine ⟨fun text htext => ?_, fun name value hoption => ?_, fun name hflag => ?_⟩
      · apply htakes.positional
        exact (List.sublist_cons_self part parts).filterMap _ |>.subset htext
      · apply htakes.option
        exact (List.sublist_cons_self part parts).filterMap _ |>.subset hoption
      · apply htakes.flag
        exact (List.sublist_cons_self part parts).filterMap _ |>.subset hflag
    cases part with
    | positional text =>
      have hplain := Word.ofString_plain (htakes.positional text List.mem_cons_self)
      show form.collect found (text :: wordsOf parts) = _
      rw [collect, hplain]
      dsimp only
      rw [ih hrest, argumentsOf_positional]
      simp
    | apart name value =>
      obtain ⟨hname, hvalue⟩ := htakes.option name value List.mem_cons_self
      obtain ⟨hisName, hflags⟩ := hform.option name hname
      show form.collect found (("--" ++ name) :: value :: wordsOf parts) = _
      rw [collect, Word.ofString_name hisName]
      dsimp only
      rw [if_neg (by simpa using hflags), if_pos (any_options hname), Word.ofString_plain hvalue]
      dsimp only
      rw [ih hrest, argumentsOf_apart]
      simp
    | joined name value =>
      obtain ⟨hname, hvalue⟩ := htakes.option name value List.mem_cons_self
      obtain ⟨hisName, hflags⟩ := hform.option name hname
      show form.collect found (("--" ++ name ++ "=" ++ value) :: wordsOf parts) = _
      rw [collect, Word.ofString_joined hisName hvalue]
      dsimp only
      rw [if_neg (by simpa using hflags), if_pos (any_options hname), ih hrest, argumentsOf_joined]
      simp
    | flag name =>
      have hflags := htakes.flag name List.mem_cons_self
      show form.collect found (("--" ++ name) :: wordsOf parts) = _
      rw [collect, Word.ofString_name (hform.flag name hflags)]
      dsimp only
      rw [if_pos (by simpa using hflags), ih hrest, argumentsOf_flag]
      simp

/-- However its parts are arranged, a command line that fits a form is read as what they say. -/
theorem scan_words (hform : form.WellNamed) (htakes : form.Takes (argumentsOf parts))
    (harity : form.arity.Admits (argumentsOf parts).positionals.length)
    (hoptions : ∀ option ∈ form.options, option.2.Admits ((argumentsOf parts).values option.1)) :
    form.scan (wordsOf parts) = some (argumentsOf parts) := by
  unfold scan
  rw [collect_words hform htakes]
  exact Option.filter_some_pos (decide_eq_true ⟨harity, hoptions⟩)

end Form

/-! ## Values of arguments -/

namespace Arguments

variable {arguments : Arguments} {name text : String}

theorem mem_values {value : Option String} :
    value ∈ arguments.values name ↔ (name, value) ∈ arguments.options := by
  unfold values
  rw [List.mem_filterMap]
  constructor
  · rintro ⟨⟨key, value'⟩, hmem, hvalue⟩
    dsimp only at hvalue
    split at hvalue
    · rename_i hkey
      cases hvalue
      rwa [← hkey]
    · cases hvalue
  · intro hmem
    exact ⟨(name, value), hmem, if_pos rfl⟩

/-- Options of certain names only, each at most once, and no flags. -/
structure Only (arguments : Arguments) (names : List String) : Prop where
  known : ∀ name ∈ arguments.options.map (·.1), name ∈ names
  distinct : (arguments.options.map (·.1)).Nodup
  flags : arguments.flags = []

/-- An option is given once, with a text of a certain kind for its value. -/
def Gives (arguments : Arguments) (name : String) (Spelled : List Char → Prop) : Prop :=
  ∃ text, arguments.values name = [some text] ∧ Spelled text.toList

/-- An option for a number is given like that, or left out where its default is the number. -/
def GivesOr (arguments : Arguments) (name : String) (default n : Nat) : Prop :=
  arguments.Gives name (Decimal.Spells · n) ∨ (arguments.values name = [] ∧ n = default)

section Readers

variable {α : Type} {reader : ValueReader α} {value : α} {cause : ValueError} {label : String}

theorem readValue_of_ok (h : reader text = .ok value) : readValue label reader text = .ok value := by
  rw [readValue, h]

theorem readValue_of_error (h : reader text = .error cause) :
    readValue label reader text = .error (.invalidValue label cause) := by
  rw [readValue, h]

theorem positional_of_ok {index : Nat} (htext : arguments.positionals[index]? = some text)
    (h : reader text = .ok value) : arguments.positional index name reader = .ok value := by
  rw [positional, htext]
  exact readValue_of_ok h

theorem positional_of_error {index : Nat} (htext : arguments.positionals[index]? = some text)
    (h : reader text = .error cause) :
    arguments.positional index name reader = .error (.invalidValue s!"<{name}>" cause) := by
  rw [positional, htext]
  exact readValue_of_error h

theorem option?_of_values_nil (h : arguments.values name = []) :
    arguments.option? name reader = .ok none := by
  unfold option?
  rw [h]
  rfl

theorem option?_of_values_singleton (h : arguments.values name = [some text]) :
    arguments.option? name reader = some <$> readValue s!"--{name} <{name}>" reader text := by
  unfold option?
  rw [h, show [some text].filterMap id = [text] from rfl]
  dsimp only
  rw [List.mapM_cons, List.mapM_nil]
  cases readValue s!"--{name} <{name}>" reader text <;> rfl

variable {Spelled : List Char → Prop}

theorem Gives.option?_of_ok (h : arguments.Gives name Spelled)
    (hread : ∀ text, Spelled text.toList → reader text = .ok value) :
    arguments.option? name reader = .ok (some value) := by
  obtain ⟨text, hvalues, hspelled⟩ := h
  rw [option?_of_values_singleton hvalues, readValue_of_ok (hread text hspelled)]
  rfl

theorem Gives.option?_of_error (h : arguments.Gives name Spelled)
    (hread : ∀ text, Spelled text.toList → reader text = .error cause) :
    arguments.option? name reader = .error (.invalidValue s!"--{name} <{name}>" cause) := by
  obtain ⟨text, hvalues, hspelled⟩ := h
  rw [option?_of_values_singleton hvalues, readValue_of_error (hread text hspelled)]
  rfl

theorem Gives.option_eq (h : arguments.Gives name Spelled)
    (hread : ∀ text, Spelled text.toList → reader text = .ok value) :
    arguments.option name reader = .ok value := by
  unfold option
  rw [h.option?_of_ok hread]
  rfl

/-- A number with a default is read, whether it is given or left out. -/
theorem GivesOr.optionD_eq {default n : Nat} {fallback : α} (h : arguments.GivesOr name default n)
    (hread : ∀ text, Decimal.Spells text.toList n → reader text = .ok value)
    (hdefault : n = default → fallback = value) : arguments.optionD name reader fallback = .ok value := by
  unfold optionD
  obtain h | ⟨hvalues, hn⟩ := h
  · rw [h.option?_of_ok hread]
    rfl
  · rw [option?_of_values_nil hvalues, hdefault hn]
    rfl

theorem GivesOr.optionD_eq_error {default n : Nat} {fallback : α} (h : arguments.GivesOr name default n)
    (hread : ∀ text, Decimal.Spells text.toList n → reader text = .error cause) (hn : n ≠ default) :
    arguments.optionD name reader fallback = .error (.invalidValue s!"--{name} <{name}>" cause) := by
  unfold optionD
  obtain h | ⟨-, hdefault⟩ := h
  · rw [h.option?_of_error hread]
    rfl
  · exact absurd hdefault hn

end Readers

/-! ### Options as demanded -/

variable {Spelled : List Char → Prop}

theorem Only.values_eq_nil {names : List String} (h : arguments.Only names) (hname : name ∉ names) :
    arguments.values name = [] := by
  rw [List.eq_nil_iff_forall_not_mem]
  intro value hvalue
  exact hname (h.known name (List.mem_map.2 ⟨(name, value), mem_values.1 hvalue, rfl⟩))

theorem Gives.admits (h : arguments.Gives name Spelled) (demand : Demand) :
    demand.Admits (arguments.values name) := by
  obtain ⟨text, hvalues, -⟩ := h
  have hgiven : ∃ value ∈ arguments.values name, value.isSome :=
    ⟨some text, by rw [hvalues]; exact List.mem_singleton_self _, rfl⟩
  cases demand with
  | required => exact hgiven
  | optional => exact .inr hgiven
  | defaulted => trivial

theorem Gives.isPlain (h : arguments.Gives name Spelled)
    (hplain : ∀ text, Spelled text.toList → Text.IsPlain text) {value : String}
    (hvalue : some value ∈ arguments.values name) : Text.IsPlain value := by
  obtain ⟨text, hvalues, hspelled⟩ := h
  rw [hvalues, List.mem_singleton, Option.some.injEq] at hvalue
  subst hvalue
  exact hplain _ hspelled

theorem GivesOr.isPlain {default n : Nat} (h : arguments.GivesOr name default n) {value : String}
    (hvalue : some value ∈ arguments.values name) : Text.IsPlain value := by
  obtain h | ⟨hvalues, -⟩ := h
  · exact h.isPlain (fun _ => Decimal.isPlain_of_spells) hvalue
  · rw [hvalues] at hvalue
    cases hvalue

end Arguments

namespace Form

/-- Arguments that are just what a form asks for, with each option and each flag at most once. -/
structure Fits (form : Form) (arguments : Arguments) : Prop where
  arity : form.arity.Admits arguments.positionals.length
  positional : ∀ text ∈ arguments.positionals, Text.IsPlain text
  known : ∀ name ∈ arguments.options.map (·.1), name ∈ form.options.map (·.1)
  demand : ∀ option ∈ form.options, option.2.Admits (arguments.values option.1)
  value : ∀ name ∈ form.options.map (·.1), ∀ value, some value ∈ arguments.values name →
    Text.IsPlain value
  flag : ∀ name ∈ arguments.flags, name ∈ form.flags
  distinct : arguments.Distinct

variable {form : Form} {arguments : Arguments}

theorem Fits.of_only {names : List String} (honly : arguments.Only names)
    (hnames : ∀ name ∈ names, name ∈ form.options.map (·.1))
    (harity : form.arity.Admits arguments.positionals.length)
    (hpositional : ∀ text ∈ arguments.positionals, Text.IsPlain text)
    (hdemand : ∀ option ∈ form.options, option.2.Admits (arguments.values option.1))
    (hvalue : ∀ name ∈ names, ∀ value, some value ∈ arguments.values name → Text.IsPlain value) :
    form.Fits arguments where
  arity := harity
  positional := hpositional
  known name hname := hnames name (honly.known name hname)
  demand := hdemand
  value name _ value hmem := by
    by_cases hname : name ∈ names
    · exact hvalue name hname value hmem
    · rw [honly.values_eq_nil hname] at hmem
      cases hmem
  flag := by
    rw [honly.flags]
    exact nofun
  distinct := by
    refine ⟨honly.distinct, ?_⟩
    rw [honly.flags]
    exact List.nodup_nil

theorem Fits.takes (h : form.Fits arguments) : form.Takes arguments where
  positional := h.positional
  option name value hoption := by
    have hname := h.known name (List.mem_map.2 ⟨(name, some value), hoption, rfl⟩)
    exact ⟨hname, h.value name hname value (Arguments.mem_values.2 hoption)⟩
  flag := h.flag

end Form

/-- The command of a line that fits a form is what is built from its parts. -/
theorem Command.ofArguments_words {form : Form} {parts : List Part}
    {build : Arguments → Except ArgumentError Command} (hform : form.WellNamed)
    (hfits : form.Fits (argumentsOf parts)) :
    Command.ofArguments form build (wordsOf parts) = build (argumentsOf parts) := by
  unfold Command.ofArguments
  rw [Form.scan_words hform hfits.takes hfits.arity hfits.demand]
  dsimp only
  cases build (argumentsOf parts) with
  | error e => rfl
  | ok command => exact if_pos hfits.distinct

-- Plain words are all positional arguments.
theorem Command.ofArguments_plain {arity : Arity} {flags texts : List String}
    {build : Arguments → Except ArgumentError Command} (hflags : ∀ name ∈ flags, IsName name)
    (harity : arity.Admits texts.length) (hplain : ∀ text ∈ texts, Text.IsPlain text) :
    Command.ofArguments ⟨arity, [], flags⟩ build texts = build ⟨texts, [], []⟩ := by
  have hwords : wordsOf (texts.map .positional) = texts := by
    rw [wordsOf, List.flatMap_map]
    exact List.flatMap_singleton' texts
  have harguments : argumentsOf (texts.map .positional) = ⟨texts, [], []⟩ := by
    clear harity hplain hwords
    induction texts with
    | nil => rfl
    | cons text texts ih => rw [List.map_cons, argumentsOf_positional, ih]
  have honly : (⟨texts, [], []⟩ : Arguments).Only [] := ⟨nofun, List.nodup_nil, rfl⟩
  have hfits : (⟨arity, [], flags⟩ : Form).Fits (argumentsOf (texts.map .positional)) := by
    rw [harguments]
    apply Form.Fits.of_only honly (List.forall_mem_nil _) harity hplain (List.forall_mem_nil _)
    exact List.forall_mem_nil _
  have hform : (⟨arity, [], flags⟩ : Form).WellNamed := ⟨List.forall_mem_nil _, hflags⟩
  calc Command.ofArguments ⟨arity, [], flags⟩ build texts
      = Command.ofArguments ⟨arity, [], flags⟩ build (wordsOf (texts.map .positional)) := by rw [hwords]
    _ = build (argumentsOf (texts.map .positional)) := Command.ofArguments_words hform hfits
    _ = build ⟨texts, [], []⟩ := by rw [harguments]

theorem respond_of_parse {words : List String} {command : Command}
    (h : Command.parse words = .ok command) : respond words = .ok command.run := by
  rw [respond, h]
  rfl

theorem Report.ofExcept_eq_iff {reply : Except Failure String} {output : String} :
    ofExcept reply = ⟨output, none⟩ ↔ reply = .ok output := by
  cases reply with
  | error failure => simp [ofExcept]
  | ok printed => simp [ofExcept]

end CommandLine

end FinalityBridge
