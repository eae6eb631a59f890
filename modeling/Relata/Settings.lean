import Relata.Index.Basic
/-!
# Settings

What a user may choose: how indexes are kept, what is appended to a colliding attribute name in a
join, and where and how tables are saved.
-/

namespace Relata

/-- The choices of a user. -/
structure Settings where
  indexKind : IndexKind := .hash
  renameSuffix : String := "2"
  storeDirectory : String := "store"
  codecName : String := "none"
  deriving DecidableEq

namespace Settings

/-- The settings when nothing is chosen. -/
def standard : Settings := {}

/-- The variables that settings are read from. -/
def variableNames : List String :=
  ["RELALG_INDEX", "RELALG_RENAME_SUFFIX", "RELALG_STORE_DIR", "RELALG_CODEC"]

/-- The settings that variables give. An unreadable index kind and an empty suffix are ignored. -/
def ofVariables (value? : String → Option String) : Settings where
  indexKind := match (value? "RELALG_INDEX").map IndexKind.parse with
    | some (.ok kind) => kind
    | _ => standard.indexKind
  renameSuffix := match value? "RELALG_RENAME_SUFFIX" with
    | some suffix => if suffix = "" then standard.renameSuffix else suffix
    | none => standard.renameSuffix
  storeDirectory := (value? "RELALG_STORE_DIR").getD standard.storeDirectory
  codecName := (value? "RELALG_CODEC").getD standard.codecName

def toJson (s : Settings) : Json :=
  Json.record [("index_kind", s.indexKind.toJson), ("rename_suffix", Json.ofString s.renameSuffix),
    ("store_dir", Json.ofString s.storeDirectory), ("snapshot_codec", Json.ofString s.codecName)]

def ofJson? (v : Json) : Option Settings := do
  let fields ← v.fields? ["index_kind", "rename_suffix", "store_dir", "snapshot_codec"]
  match fields with
  | [kind, suffix, directory, codec] =>
    return ⟨← IndexKind.ofJson? kind, ← suffix.string?, ← directory.string?, ← codec.string?⟩
  | _ => none

end Settings

end Relata
