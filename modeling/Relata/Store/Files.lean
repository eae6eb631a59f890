import Relata.Sorted
import Relata.Store.FileTree
import Relata.Store.Storage
/-!
# Storage in files

A storage that keeps its bytes in the files below a root directory. The root and the directories on
the way to a file are made when the file is written.
-/

namespace Relata

/-- A file tree, the directory where its paths start, and the path of the root. -/
structure Files where
  tree : FileTree
  base : Location
  root : String
  deriving DecidableEq

namespace Files

/-- The path in the file tree that a path in the storage stands for. -/
def resolve (f : Files) (path : String) : String := Path.join f.root path

/-- A fault of the file tree in an action. -/
def fault (action : FileAction) (cause : PathFault) : StoreFault := .storage (.file action cause)

/-- Write a file after making the directories around it. -/
def write (f : Files) (path : String) (bytes : Bytes) : Except StoreFault Unit × Files :=
  match f.tree.ensureDirectories f.base (Path.parent (Path.parts (f.resolve path))) with
  | (.error cause, tree) => (.error (fault .makingParent cause), { f with tree })
  | (.ok (), tree) =>
    match tree.createFile f.base (f.resolve path) bytes with
    | .error cause => (.error (fault .creating cause), { f with tree })
    | .ok tree => (.ok (), { f with tree })

def read (f : Files) (path : String) : Except StoreFault Bytes :=
  (f.tree.readFile f.base (f.resolve path)).mapError (fault (.reading path))

/-- Remove a file. Where the path leads nowhere, nothing is done. -/
def delete (f : Files) (path : String) : Except StoreFault Unit × Files :=
  if (f.tree.look f.base (f.resolve path)).isNone then (.ok (), f)
  else match f.tree.removeFile f.base (f.resolve path) with
    | .error cause => (.error (fault .deleting cause), f)
    | .ok tree => (.ok (), { f with tree })

/-- The paths below the root that start with a text, in ascending order. -/
def list (f : Files) (beginning : String) : List String :=
  match f.tree.locate f.base f.root with
  | .error _ => []
  | .ok root =>
    if f.tree.isDirectory root then
      Sorted.sort (((f.tree.filesBelow root).map Path.ofParts).filter fun path =>
        Text.startsWith path beginning)
    else []

def contains (f : Files) (path : String) : Bool :=
  match f.tree.look f.base (f.resolve path) with
  | some (.file _) => true
  | _ => false

instance : Storage Files where
  write := write
  read := read
  delete := delete
  list := list
  contains := contains

end Files

end Relata
