import Relata.Index.Basic
/-!
# Arguments

The words of a command line: a command and its options. The option for the store directory may stand
before the command or after it, and counts after it when it stands in both places. Words are read from
left to right, and the reading ends at the first that does not fit.
-/

namespace Relata.CommandLine

/-- What the user wants done. -/
inductive Command where
  /-- Show every operator on the movie database, and perhaps save the database. -/
  | demo (index : Option IndexKind) (codec : Option String) (save : Bool)
  /-- Print a saved table, and perhaps its index. -/
  | print (slot : String) (index : Bool)
  /-- Print the names of the saved tables. -/
  | list
  deriving DecidableEq

/-- A command, with the store directory if one is named. -/
structure Request where
  store : Option String
  command : Command
  deriving DecidableEq

/-- Why there is nothing to do. -/
inductive Stop where
  /-- The user asks for an explanation. -/
  | help
  /-- The words do not fit. -/
  | refused
  deriving DecidableEq

/-! ## Options -/

/-- An option: its name, its letter if it has one, and whether a value follows it. A value that is not
accepted is refused at once. -/
structure OptionForm where
  name : String
  letter : Option Char := none
  takesValue : Bool := true
  accepts : String → Bool := fun _ => true

/-- The options that were given, by name. An option without a value has the empty text. -/
abbrev Given := List (String × String)

/-- What a word looks like. -/
inductive Word where
  /-- Two dashes and a name, perhaps with a value after an equals sign. -/
  | named (name : String) (value : Option String)
  /-- A dash and a letter, perhaps with a value right after it or after an equals sign. -/
  | lettered (letter : Char) (value : Option String)
  /-- Two dashes alone: no option follows. -/
  | last
  /-- Anything else. -/
  | plain
  deriving DecidableEq

/-- What a word looks like by its dashes. -/
def Word.ofText (word : String) : Word :=
  match word.toList with
  | ['-', '-'] => .last
  | '-' :: '-' :: rest =>
    let name := String.ofList (rest.takeWhile (· ≠ '='))
    match rest.dropWhile (· ≠ '=') with
    | [] => .named name none
    | _ :: value => .named name (some (String.ofList value))
  | ['-', c] => .lettered c none
  | '-' :: c :: '=' :: value => .lettered c (some (String.ofList value))
  | '-' :: c :: value => .lettered c (some (String.ofList value))
  | _ => .plain

/-- The option that a word stands for, with the value in the word. -/
def findOption (forms : List OptionForm) : Word → Except Stop (OptionForm × Option String)
  | .named name value =>
    if name = "help" && value.isNone then .error .help
    else match forms.find? fun f => f.name == name with
      | some form => .ok (form, value)
      | none => .error .refused
  | .lettered letter value =>
    if letter = 'h' then .error .help
    else match forms.find? fun f => f.letter == some letter with
      | some form => .ok (form, value)
      | none => .error .refused
  | _ => .error .refused

/-- The options with one more, which must not be there and whose value must be accepted. -/
def give (given : Given) (form : OptionForm) (value : String) : Except Stop Given :=
  if given.any (fun g => g.1 == form.name) || !form.accepts value then .error .refused
  else .ok (given ++ [(form.name, value)])

/-- The options at the front of some words, and the words from the first that is no option on. The
value of an option is in its word or is the next word, which then looks like no option. -/
def readOptions (forms : List OptionForm) (given : Given) : List String → Except Stop (Given × List String)
  | [] => .ok (given, [])
  | word :: rest =>
    match Word.ofText word with
    | .plain => .ok (given, word :: rest)
    | .last => if rest = [] then .ok (given, []) else .error .refused
    | w => do
      let (form, value) ← findOption forms w
      match form.takesValue, value, rest with
      | true, some v, rest => readOptions forms (← give given form v) rest
      | true, none, v :: rest =>
        if Word.ofText v = .plain then readOptions forms (← give given form v) rest
        else .error .refused
      | true, none, [] => .error .refused
      | false, none, rest => readOptions forms (← give given form "") rest
      | false, some _, _ => .error .refused

/-! ## Commands -/

def storeOption : OptionForm := { name := "store" }

def demoOptions : List OptionForm :=
  [storeOption, { name := "index", accepts := fun v => (IndexKind.parse v).toOption.isSome },
    { name := "codec" }, { name := "save", takesValue := false }]

def printOptions : List OptionForm :=
  [storeOption, { name := "slot", letter := some 's' }, { name := "index", takesValue := false }]

/-- The names of the commands, one of which explains the others. -/
def commandNames : List String := ["demo", "show", "list", "help"]

/-- The command of a name with the given options. -/
def commandOf (name : String) (given : Given) : Except Stop Command :=
  match name with
  | "demo" => .ok (.demo ((given.lookup "index").bind fun v => (IndexKind.parse v).toOption)
      (given.lookup "codec") (given.lookup "save").isSome)
  | "show" => match given.lookup "slot" with
    | some slot => .ok (.print slot (given.lookup "index").isSome)
    | none => .error .refused
  | "list" => .ok .list
  | _ => .error .refused

/-- The options of the command of a name. -/
def optionsOf? : String → Option (List OptionForm)
  | "demo" => some demoOptions
  | "show" => some printOptions
  | "list" => some [storeOption]
  | _ => none

/-- What the words after the command that explains ask for: at most one command. -/
def explain (words : List String) : Stop :=
  match words with
  | [] => .help
  | [name] => if commandNames.contains name then .help else .refused
  | _ => .refused

/-- What a command line asks for. -/
def parse (words : List String) : Except Stop Request := do
  match ← readOptions [storeOption] [] words with
  | (_, []) => .error .refused
  | (before, name :: rest) =>
    if name = "help" then .error (explain rest)
    else match optionsOf? name with
      | none => .error .refused
      | some forms =>
        match ← readOptions forms [] rest with
        | (given, []) =>
          let command ← commandOf name given
          return ⟨(given.lookup "store").or (before.lookup "store"), command⟩
        | (_, _ :: _) => .error .refused

def usage : String :=
  "usage: relata [--store DIR] demo [--index hash|btree] [--codec none|zstd|lz4] [--save]\n"
    ++ "       relata [--store DIR] show --slot NAME [--index]\n"
    ++ "       relata [--store DIR] list\n"

end Relata.CommandLine
