import Relata.Tuple
import Relata.Fault
import Relata.Json.Shape
/-!
# Indexes

An index maps keys to tuples. A hash index has no order of its own and keeps its entries as they
arrived; it finds a key by equality. A B-tree index keeps its entries in key order, and the order of the
keys is all that a look-up in it goes by. Both are seen through the list of their entries.
-/

namespace Relata

/-- How an index is kept. -/
inductive IndexKind where
  | hash
  | btree
  deriving DecidableEq, Repr

namespace IndexKind

def name : IndexKind → String
  | hash => "hash"
  | btree => "btree"

/-- The kind that a spelling in any ASCII case stands for. -/
def parse (s : String) : Except Fault IndexKind :=
  let word := Text.lowercase s
  if word = "hash" || word = "linhash" then .ok hash
  else if word = "btree" || word = "tree" || word = "bptree" then .ok btree
  else .error (.unreadable (.indexKind word))

def toJson (kind : IndexKind) : Json := Json.ofString kind.name

def ofJson? (v : Json) : Option IndexKind :=
  match v.name? with
  | some "hash" => some hash
  | some "btree" => some btree
  | _ => none

end IndexKind

/-! ## Lists of entries -/

namespace Entries

variable {κ ν : Type}

/-- The entries with a value under a key: in the place of the key if it is there, and last if not. -/
def replace [DecidableEq κ] (k : κ) (v : ν) : List (κ × ν) → List (κ × ν)
  | [] => [(k, v)]
  | e :: rest => if e.1 = k then (k, v) :: rest else e :: replace k v rest

/-- The entries with a value under a key, in the place that the order of the keys gives it. -/
def insert [Ord κ] (k : κ) (v : ν) : List (κ × ν) → List (κ × ν)
  | [] => [(k, v)]
  | e :: rest =>
    match compare k e.1 with
    | .lt => (k, v) :: e :: rest
    | .eq => (k, v) :: rest
    | .gt => e :: insert k v rest

/-- The value under a key in entries in the order of their keys. Keys are only compared, and no entry is looked at
behind the place of the key. -/
def search? [Ord κ] (k : κ) : List (κ × ν) → Option ν
  | [] => none
  | e :: rest =>
    match compare k e.1 with
    | .lt => none
    | .eq => some e.2
    | .gt => search? k rest

/-- The entries without a key. -/
def erase [DecidableEq κ] (k : κ) (entries : List (κ × ν)) : List (κ × ν) :=
  entries.filter fun e => e.1 ≠ k

end Entries

/-! ## Indexes -/

/-- A map from keys to tuples, kept in one of two ways. -/
inductive Index where
  | hash (entries : List (Key × Tuple))
  | btree (entries : List (Key × Tuple))

namespace Index

def empty : IndexKind → Index
  | .hash => hash []
  | .btree => btree []

def kind : Index → IndexKind
  | hash _ => .hash
  | btree _ => .btree

def entries : Index → List (Key × Tuple)
  | hash entries => entries
  | btree entries => entries

/-- The tuple under a key. -/
def find? (index : Index) (key : Key) : Option Tuple :=
  match index with
  | hash entries => entries.lookup key
  | btree entries => Entries.search? key entries

def contains (index : Index) (key : Key) : Bool := (index.find? key).isSome

def size (index : Index) : Nat := index.entries.length

def isEmpty (index : Index) : Bool := index.size == 0

/-- The index with a tuple under a key, in place of the one that was there. -/
def insert (index : Index) (key : Key) (tuple : Tuple) : Index :=
  match index with
  | hash entries => hash (Entries.replace key tuple entries)
  | btree entries => btree (Entries.insert key tuple entries)

end Index

end Relata
