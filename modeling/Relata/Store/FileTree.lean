import Relata.Index.Basic
import Relata.Store.Fault
/-!
# File trees

A file tree says what is at each location: a directory, or a file and its bytes. A path is a text that
leads from a starting directory, or from the top when it begins with a slash, to a location; it is
walked part by part, and every fault of it is found in that order. Links are not modelled.
-/

namespace Relata

/-- What is at a location. -/
inductive Node where
  | directory
  | file (content : Bytes)
  deriving DecidableEq

/-- The names of the directories from the top down, and the last name. -/
abbrev Location := List String

/-- Locations with what is there. The top directory is always there and is not listed. -/
structure FileTree where
  nodes : List (Location × Node)
  deriving DecidableEq

/-! ## Paths -/

namespace Path

/-- The parts of a path between its slashes. Parts may be empty. -/
def parts (path : String) : List String := (path.toList.splitOnP (· == '/')).map String.ofList

/-- Whether a path starts at the top. -/
def isAbsolute (path : String) : Bool := path.toList.head? == some '/'

/-- A path that follows another. One that starts at the top stands alone. -/
def join (base path : String) : String :=
  if isAbsolute path then path
  else if base = "" || base.toList.getLast? == some '/' then base ++ path
  else base ++ "/" ++ path

/-- Whether a part of a path stays where it is. -/
def isIdle (part : String) : Bool := part = "" || part = "."

/-- The parts without those at the end that stay where they are. -/
def settled (parts : List String) : List String := (parts.reverse.dropWhile isIdle).reverse

/-- The parts of the path of the directory around. A path whose parts all stay has none. -/
def parent (parts : List String) : List String := settled (settled parts).dropLast

theorem length_settled_le (parts : List String) : (settled parts).length ≤ parts.length := by
  have := (List.dropWhile_sublist isIdle (l := parts.reverse)).length_le
  simpa [settled] using this

theorem length_parent_lt {parts : List String} (h : parts ≠ []) : (parent parts).length < parts.length := by
  have h₁ := length_settled_le (settled parts).dropLast
  have h₂ := length_settled_le parts
  have h₃ := List.length_pos_iff.2 h
  simp only [List.length_dropLast] at h₁
  unfold parent
  omega

def ofParts (parts : List String) : String := Text.joined "/" parts

def maxName : Nat := 255

def maxPath : Nat := 4095

/-- Whether a path can be walked at all. -/
def check (path : String) : Except PathFault Unit :=
  if path.toList.contains (Char.ofNat 0) then .error .nulCharacter
  else if path = "" then .error .noEntry
  else if path.utf8ByteSize > maxPath then .error .nameTooLong
  else .ok ()

/-- Where the walk of a path starts. -/
def origin (base : Location) (path : String) : Location := if isAbsolute path then [] else base

end Path

/-! ## Walking -/

namespace FileTree

def empty : FileTree := ⟨[]⟩

def node? (t : FileTree) (l : Location) : Option Node :=
  if l = [] then some .directory else t.nodes.lookup l

def isDirectory (t : FileTree) (l : Location) : Bool := t.node? l == some .directory

/-- The tree with something at a location, in place of what was there. -/
def put (t : FileTree) (l : Location) (node : Node) : FileTree := ⟨Entries.replace l node t.nodes⟩

/-- The location that one part of a path leads to. -/
def enter (t : FileTree) (l : Location) (part : String) : Except PathFault Location :=
  if !t.isDirectory l then .error .notDirectory
  else if Path.isIdle part then .ok l
  else if part = ".." then .ok l.dropLast
  else if part.utf8ByteSize > Path.maxName then .error .nameTooLong
  else if (t.node? (l ++ [part])).isNone then .error .noEntry
  else .ok (l ++ [part])

/-- The location that the parts of a path lead to. -/
def walk (t : FileTree) (l : Location) (parts : List String) : Except PathFault Location :=
  parts.foldlM t.enter l

/-- The location that a path leads to from a directory. -/
def locate (t : FileTree) (base : Location) (path : String) : Except PathFault Location := do
  Path.check path
  t.walk (Path.origin base path) (Path.parts path)

/-- What a path leads to. -/
def look (t : FileTree) (base : Location) (path : String) : Option Node :=
  match t.locate base path with
  | .ok l => t.node? l
  | .error _ => none

/-! ## Reading and changing -/

/-- The bytes of the file that a path leads to. -/
def readFile (t : FileTree) (base : Location) (path : String) : Except PathFault Bytes := do
  let l ← t.locate base path
  match t.node? l with
  | some (.file content) => return content
  | some .directory => .error .isDirectory
  | none => .error .noEntry

/-- The tree without the file that a path leads to. -/
def removeFile (t : FileTree) (base : Location) (path : String) : Except PathFault FileTree := do
  let l ← t.locate base path
  if t.isDirectory l then .error .isDirectory else return ⟨Entries.erase l t.nodes⟩

/-- The tree with a file where a path leads to, in place of the file that was there. A path that ends
with a slash or with a part that is no name leads to a directory. -/
def createFile (t : FileTree) (base : Location) (path : String) (content : Bytes) :
    Except PathFault FileTree := do
  Path.check path
  let named := ((Path.parts path).reverse.dropWhile (· == "")).reverse
  let directory ← t.walk (Path.origin base path) named.dropLast
  let name := named.getLastD ""
  if !t.isDirectory directory then .error .notDirectory
  else if named.length < (Path.parts path).length || Path.isIdle name || name = ".." then
    .error .isDirectory
  else if name.utf8ByteSize > Path.maxName then .error .nameTooLong
  else if t.isDirectory (directory ++ [name]) then .error .isDirectory
  else return t.put (directory ++ [name]) (.file content)

/-- The tree with a new directory where a path leads to. -/
def createDirectory (t : FileTree) (base : Location) (path : String) : Except PathFault FileTree := do
  Path.check path
  let named := ((Path.parts path).reverse.dropWhile (· == "")).reverse
  let directory ← t.walk (Path.origin base path) named.dropLast
  let name := named.getLastD ""
  if !t.isDirectory directory then .error .notDirectory
  else if Path.isIdle name || name = ".." then .error .alreadyExists
  else if name.utf8ByteSize > Path.maxName then .error .nameTooLong
  else if (t.node? (directory ++ [name])).isSome then .error .alreadyExists
  else return t.put (directory ++ [name]) .directory

/-- The tree with a directory where a path leads to, unless one is there. -/
def ensureDirectory (t : FileTree) (base : Location) (path : String) : Except PathFault FileTree :=
  match t.createDirectory base path with
  | .ok t => .ok t
  | .error fault => if t.look base path = some .directory then .ok t else .error fault

/-- The tree with a directory where the parts of a path lead to and, where they lead nowhere, around
it. What was made before a fault stays. -/
def ensureDirectories (t : FileTree) (base : Location) (parts : List String) :
    Except PathFault Unit × FileTree :=
  if _ : parts = [] then (.ok (), t)
  else
    match t.ensureDirectory base (Path.ofParts parts) with
    | .ok t => (.ok (), t)
    | .error .noEntry =>
      match t.ensureDirectories base (Path.parent parts) with
      | (.error fault, t) => (.error fault, t)
      | (.ok (), t) =>
        match t.ensureDirectory base (Path.ofParts parts) with
        | .ok t => (.ok (), t)
        | .error fault => (.error fault, t)
    | .error fault => (.error fault, t)
termination_by parts.length
decreasing_by exact Path.length_parent_lt ‹_›

/-- The locations of the files below a directory, from that directory on. -/
def filesBelow (t : FileTree) (l : Location) : List Location :=
  t.nodes.filterMap fun entry => match entry.2 with
    | .directory => none
    | .file _ => if l.isPrefixOf entry.1 then some (entry.1.drop l.length) else none

end FileTree

end Relata
