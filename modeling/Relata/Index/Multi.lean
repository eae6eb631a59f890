import Relata.Tuple
/-!
# Multi-valued indexes

A multi-valued index keeps, under each key, every tuple that was added under it, in the order they
came, and counts them. Joins build one over the table they probe.
-/

namespace Relata

/-- Buckets of tuples under distinct keys, and the number of tuples that were added. -/
structure MultiIndex where
  buckets : List (Key × List Tuple)
  size : Nat

namespace MultiIndex

def empty : MultiIndex := ⟨[], 0⟩

/-- The buckets with one more tuple at the end of the bucket of its key. -/
def addTo (key : Key) (tuple : Tuple) : List (Key × List Tuple) → List (Key × List Tuple)
  | [] => [(key, [tuple])]
  | b :: rest => if b.1 = key then (b.1, b.2 ++ [tuple]) :: rest else b :: addTo key tuple rest

def insert (index : MultiIndex) (key : Key) (tuple : Tuple) : MultiIndex :=
  ⟨addTo key tuple index.buckets, index.size + 1⟩

/-- The index of tuples under their values at the given columns. -/
def build (tuples : List Tuple) (columns : List Nat) : MultiIndex :=
  tuples.foldl (fun index t => index.insert (t.project columns) t) empty

/-- The same index, if every tuple has the columns. -/
def build? (tuples : List Tuple) (columns : List Nat) : Option MultiIndex :=
  tuples.foldlM (fun index t => (t.project? columns).map fun key => index.insert key t) empty

def find (index : MultiIndex) (key : Key) : List Tuple := (index.buckets.lookup key).getD []

def keyCount (index : MultiIndex) : Nat := index.buckets.length

def isEmpty (index : MultiIndex) : Bool := index.size == 0

end MultiIndex

end Relata
