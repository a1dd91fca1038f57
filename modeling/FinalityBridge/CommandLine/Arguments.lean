import FinalityBridge.Text.Value

/-!
# Command-line arguments

A command takes positional arguments, options with a value (`--name value` or `--name=value`) and
flags, in any order. Its form says which; what does not fit the form is a usage error, and only then
are values read. A word that begins with a dash and goes on is never the value of an option, so an
option before such a word, or at the end, is given without its value.
-/

namespace FinalityBridge.CommandLine

inductive ArgumentError where
  -- The words do not fit the form of a command.
  | usage
  -- The value of an argument cannot be read.
  | invalidValue (label : String) (cause : ValueError)
deriving DecidableEq

def ArgumentError.message : ArgumentError → String
  | usage => "invalid usage"
  | invalidValue label cause => s!"Invalid value for '{label}': {cause.message}"

inductive Arity where
  | exactly (count : Nat)
  | oneOrMore
deriving DecidableEq

/-- Whether a number of positional arguments is right. -/
def Arity.Admits : Arity → Nat → Prop
  | exactly count, n => n = count
  | oneOrMore, n => 0 < n

instance (arity : Arity) (n : Nat) : Decidable (arity.Admits n) := by
  cases arity <;> simp only [Arity.Admits] <;> infer_instance

inductive Demand where
  -- Nothing: the option must be given, and its value.
  | required
  -- The option, but not its value alone.
  | optional
  -- The option, or its value alone; a default stands for either.
  | defaulted
deriving DecidableEq

/-- Whether an option is given as demanded; of the values, one for each time that the option is given,
some may have been left out. -/
def Demand.Admits : Demand → List (Option String) → Prop
  | required, values => ∃ value ∈ values, value.isSome
  | optional, values => values = [] ∨ ∃ value ∈ values, value.isSome
  | defaulted, _ => True

instance (demand : Demand) (values : List (Option String)) : Decidable (demand.Admits values) := by
  cases demand <;> simp only [Demand.Admits] <;> infer_instance

/-- The form of a command's arguments. Names are without their dashes. -/
structure Form where
  arity : Arity
  options : List (String × Demand)
  flags : List String

structure Arguments where
  positionals : List String
  -- The options in the order in which they are given, each with its value unless that is left out.
  options : List (String × Option String)
  flags : List String
deriving DecidableEq

/-- The values of an option, one for each time that it is given. -/
def Arguments.values (arguments : Arguments) (name : String) : List (Option String) :=
  arguments.options.filterMap fun (key, value) => if key = name then some value else none

inductive Word where
  -- Two dashes: only positional arguments follow.
  | separator
  -- A name after dashes, with what follows an equals sign.
  | named (name : String) (value : Option String)
  -- One dash and more.
  | short
  | plain (text : String)
deriving DecidableEq

/-- Tells words apart by their dashes. A name may have more than two of them, and a value more than
one equals sign before it; a lone dash is a plain word. -/
def Word.ofString (text : String) : Word :=
  match text.toList with
  | ['-', '-'] => .separator
  | '-' :: '-' :: rest =>
    let rest := rest.dropWhile (· = '-')
    let name := String.ofList (rest.takeWhile (· ≠ '='))
    match rest.dropWhile (· ≠ '=') with
    | [] => .named name none
    | value => .named name (some (String.ofList (value.dropWhile (· = '='))))
  | '-' :: _ :: _ => .short
  | _ => .plain text

namespace Form

def collect (form : Form) (found : Arguments) : List String → Option Arguments
  | [] => some found
  | text :: rest =>
    match Word.ofString text with
    | .separator => some { found with positionals := found.positionals ++ rest }
    | .short => none
    | .plain text => form.collect { found with positionals := found.positionals ++ [text] } rest
    | .named name value =>
      if form.flags.contains name then
        form.collect { found with flags := found.flags ++ [name] } rest
      else if form.options.any fun option => option.1 == name then
        match value, rest with
        | none, next :: after =>
          match Word.ofString next with
          | .plain value =>
            form.collect { found with options := found.options ++ [(name, some value)] } after
          | _ => form.collect { found with options := found.options ++ [(name, none)] } (next :: after)
        | value, rest => form.collect { found with options := found.options ++ [(name, value)] } rest
      else none

/-- The arguments of a command line that fits the form: the right number of positional arguments,
and every option as demanded. -/
def scan (form : Form) (words : List String) : Option Arguments :=
  (form.collect ⟨[], [], []⟩ words).filter fun found =>
    form.arity.Admits found.positionals.length ∧
      ∀ option ∈ form.options, option.2.Admits (found.values option.1)

end Form

namespace Arguments

variable {α : Type}

def Distinct (arguments : Arguments) : Prop :=
  (arguments.options.map (·.1)).Nodup ∧ arguments.flags.Nodup

instance (arguments : Arguments) : Decidable arguments.Distinct :=
  inferInstanceAs (Decidable (_ ∧ _))

def readValue (label : String) (reader : ValueReader α) (text : String) : Except ArgumentError α :=
  match reader text with
  | .ok value => .ok value
  | .error cause => .error (.invalidValue label cause)

def positional (arguments : Arguments) (index : Nat) (name : String) (reader : ValueReader α) :
    Except ArgumentError α :=
  match arguments.positionals[index]? with
  | some text => readValue s!"<{name}>" reader text
  | none => .error .usage

/-- Reads the values of an option and gives the first, if there is any. -/
def option? (arguments : Arguments) (name : String) (reader : ValueReader α) :
    Except ArgumentError (Option α) := do
  let texts := (arguments.values name).filterMap id
  let values ← texts.mapM (readValue s!"--{name} <{name}>" reader)
  return values.head?

def option (arguments : Arguments) (name : String) (reader : ValueReader α) :
    Except ArgumentError α := do
  match ← arguments.option? name reader with
  | some value => .ok value
  | none => .error .usage

/-- Reads an option that has a default, for when its value is left out. -/
def optionD (arguments : Arguments) (name : String) (reader : ValueReader α) (default : α) :
    Except ArgumentError α := do
  return (← arguments.option? name reader).getD default

end Arguments

end FinalityBridge.CommandLine
