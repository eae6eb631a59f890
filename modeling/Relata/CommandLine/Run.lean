import Relata.CommandLine.Arguments
import Relata.Demo.Tour
import Relata.Store.Catalog
import Relata.Store.Files
import Relata.Table.Grid
/-!
# Running a command

A command line runs on variables and a file tree. It gives what is printed, an exit code and the next
file tree. A command that fails keeps what it printed before.
-/

namespace Relata.CommandLine

/-- Why a command ends early: a fault with its wording, or a table that cannot be printed to its end. -/
inductive Failure where
  | fault (message : String)
  | tooWide
  deriving DecidableEq

/-- What was printed so far, and the failure that ended it. -/
structure Transcript where
  printed : String
  failure : Option Failure := none
  deriving DecidableEq

/-- A transcript and what comes after it, unless it ended in a failure. -/
def Transcript.andThen (first next : Transcript) : Transcript :=
  match first.failure with
  | some _ => first
  | none => ⟨first.printed ++ next.printed, next.failure⟩

/-- What a run leaves: the exit code and the texts of the two output streams. -/
structure Outcome where
  code : UInt8
  output : String
  errors : String
  deriving DecidableEq

/-- The outcome of a command that ran. -/
def Transcript.outcome (t : Transcript) : Outcome :=
  match t.failure with
  | none => ⟨0, t.printed, ""⟩
  | some (.fault message) => ⟨1, t.printed, "Error: " ++ message ++ "\n"⟩
  | some .tooWide => ⟨101, t.printed, "Formatting argument out of range\n"⟩

/-! ## The commands -/

/-- A table as it is printed, with an empty line after it. -/
def showTable (t : Table) : Transcript :=
  match t.render? with
  | some grid => ⟨grid ++ "\n", none⟩
  | none => ⟨t.renderBeginning, some .tooWide⟩

/-- A query and its result. An operator that cannot be evaluated is named, and any other rejection
ends the tour. -/
def showResult (label : String) (result : Except Rejection Table) : Transcript :=
  let announced := "RA> " ++ label ++ "\n"
  match result with
  | .ok table => Transcript.andThen ⟨announced, none⟩ (showTable table)
  | .error (.unsupported operator) => ⟨announced ++ "  (" ++ operator ++ " is not implemented)\n\n", none⟩
  | .error rejection => ⟨announced, some (.fault rejection.message)⟩

/-- Save tables in their slots, up to the first that cannot be saved. -/
def saveAll {σ : Type} [Storage σ] (directory : String) (c : Catalog σ) :
    List Table → Transcript × Catalog σ
  | [] => (⟨"", none⟩, c)
  | t :: rest =>
    match c.save t with
    | (.error fault, c) => (⟨"", some (.fault fault.message)⟩, c)
    | (.ok path, c) =>
      let line := "saved " ++ t.name ++ " -> " ++ directory ++ "/" ++ path ++ "\n"
      let (after, c) := saveAll directory c rest
      (Transcript.andThen ⟨line, none⟩ after, c)

/-- The movie database and the tour of the operators on it. -/
def showTour (settings : Settings) (movies : Movies) : Transcript :=
  let tables := movies.tables.foldl (fun shown t => shown.andThen (showTable t)) ⟨"", none⟩
  (movies.results (Session.ofSettings settings)).foldl (fun t r => t.andThen (showResult r.1 r.2)) tables

/-- Run the demonstration and perhaps save the movie database. -/
def demo {σ : Type} [Storage σ] (settings : Settings) (save : Bool) (storage : σ) : Transcript × σ :=
  match Movies.build settings.indexKind with
  | .error fault => (⟨"", some (.fault fault.message)⟩, storage)
  | .ok movies =>
    let shown := showTour settings movies
    if !save || shown.failure.isSome then (shown, storage)
    else match Codec.parse settings.codecName with
      | .error fault => (shown.andThen ⟨"", some (.fault fault.message)⟩, storage)
      | .ok codec =>
        let (saved, c) := saveAll settings.storeDirectory ⟨storage, codec⟩ movies.tables
        (shown.andThen saved, c.storage)

/-- Print a saved table and perhaps its index. -/
def print {σ : Type} [Storage σ] (c : Catalog σ) (slot : String) (index : Bool) : Transcript :=
  match c.load slot with
  | .error fault => ⟨"", some (.fault fault.message)⟩
  | .ok table => (showTable table).andThen ⟨if index then table.renderIndex ++ "\n" else "", none⟩

def list {σ : Type} [Storage σ] (c : Catalog σ) : Transcript :=
  ⟨String.join (c.slots.map fun slot => slot ++ "\n"), none⟩

/-- Run a command on a storage. Only saving needs a codec that is known. -/
def Command.run {σ : Type} [Storage σ] (command : Command) (settings : Settings) (storage : σ) :
    Transcript × σ :=
  let catalog : Catalog σ := ⟨storage, (Codec.parse settings.codecName).toOption.getD .stored⟩
  match command with
  | .demo index codec save =>
    CommandLine.demo { settings with
      indexKind := index.getD settings.indexKind, codecName := codec.getD settings.codecName } save storage
  | .print slot index => (CommandLine.print catalog slot index, storage)
  | .list => (CommandLine.list catalog, storage)

/-! ## The program -/

/-- The settings of a request: those of the variables, with the store directory that is named. -/
def Request.settings (r : Request) (value? : String → Option String) : Settings :=
  let settings := Settings.ofVariables value?
  { settings with storeDirectory := r.store.getD settings.storeDirectory }

/-- The store directory that a command line works on, if it asks for a command. -/
def storeDirectory? (value? : String → Option String) (words : List String) : Option String :=
  match parse words with
  | .error _ => none
  | .ok request => some (request.settings value?).storeDirectory

/-- Run a command line in a directory of a file tree. -/
def run (value? : String → Option String) (words : List String) (tree : FileTree) (base : Location) :
    Outcome × FileTree :=
  match parse words with
  | .error .help => (⟨0, usage, ""⟩, tree)
  | .error .refused => (⟨2, "", usage⟩, tree)
  | .ok request =>
    let settings := request.settings value?
    let files : Files := ⟨tree, base, settings.storeDirectory⟩
    let (transcript, files) := request.command.run settings files
    (transcript.outcome, files.tree)

end Relata.CommandLine
