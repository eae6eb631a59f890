import Relata.CommandLine.Run
/-!
# The program

Reads the store directory into a file tree, runs the command line on it, prints what it gives, and
writes what is new in the tree.
-/

namespace Relata.Main

/-- The path of a location from the top. -/
def pathOf (l : Location) : String := "/" ++ Text.joined "/" l

/-- A file tree with what is on disk at a location. -/
def loadNode (tree : FileTree) (l : Location) : IO FileTree := do
  let path := (← IO.currentDir) / pathOf l
  if ← path.isDir then return tree.put l .directory
  if ← path.pathExists then return tree.put l (.file (← IO.FS.readBinFile path).data.toList)
  return tree

/-- A file tree with what is on disk below a directory. -/
partial def loadBelow (tree : FileTree) (l : Location) : IO FileTree := do
  let path := (← IO.currentDir) / pathOf l
  let mut tree := tree
  for entry in ← path.readDir do
    let child := l ++ [entry.fileName]
    tree ← loadNode tree child
    if tree.isDirectory child then tree ← loadBelow tree child
  return tree

/-- A file tree with what is on disk along a path, and the location where the path ends or breaks
off. -/
def loadPath (tree : FileTree) (l : Location) : List String → IO (FileTree × Location)
  | [] => return (tree, l)
  | part :: rest => do
    let step := if Path.isIdle part then l else if part = ".." then l.dropLast else l ++ [part]
    let tree ← if (tree.node? step).isSome then pure tree else loadNode tree step
    if tree.isDirectory step then loadPath tree step rest else return (tree, step)

/-- A file tree with a directory and what is on disk along a path from there and below its end. -/
def load (base : Location) (path : String) : IO FileTree := do
  let (tree, _) ← loadPath FileTree.empty [] base
  let (tree, l) ← loadPath tree (Path.origin base path) (Path.parts path)
  if tree.isDirectory l then loadBelow tree l else return tree

/-- Write to disk what a file tree has and the one before did not have. -/
def storeNew (before after : FileTree) : IO Unit := do
  for (l, node) in after.nodes do
    if before.node? l ≠ some node then
      match node with
      | .directory => IO.FS.createDir (pathOf l)
      | .file content => IO.FS.writeBinFile (pathOf l) ⟨content.toArray⟩

/-- The variables that are set, by name. -/
def readVariables : IO (List (String × String)) := do
  let mut set := []
  for name in Settings.variableNames do
    if let some value ← IO.getEnv name then set := (name, value) :: set
  return set

/-- Run the program. -/
def run (words : List String) : IO UInt32 := do
  let known ← readVariables
  let value? := fun name => known.lookup name
  let base := (Path.parts (← IO.currentDir).toString).filter fun part => !Path.isIdle part
  let before ← match CommandLine.storeDirectory? value? words with
    | none => pure FileTree.empty
    | some directory => load base directory
  let (outcome, after) := CommandLine.run value? words before base
  (← IO.getStdout).putStr outcome.output
  (← IO.getStderr).putStr outcome.errors
  storeNew before after
  return outcome.code.toUInt32

end Relata.Main

def main (words : List String) : IO UInt32 := Relata.Main.run words
