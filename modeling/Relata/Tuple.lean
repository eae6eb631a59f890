import Relata.Value.Text
/-!
# Tuples and keys

A tuple is one row of a table, and a key is what a tuple shows at the key columns. Both are
sequences of values, ordered lexicographically with a proper prefix first.
-/

namespace Relata

/-- One row: a sequence of values. -/
abbrev Tuple := List Value

/-- The values of a row at the key columns, in key order. -/
abbrev Key := List Value

namespace Tuple

def render (t : Tuple) : String := "(" ++ Text.joined ", " (t.map Value.render) ++ ")"

/-- The values at the given columns, in that order. Columns past the end of the row are left out. -/
def project (t : Tuple) (columns : List Nat) : Tuple := columns.filterMap fun c => t[c]?

/-- The values at the given columns, if the row has all of them. -/
def project? (t : Tuple) (columns : List Nat) : Option Tuple := columns.mapM fun c => t[c]?

end Tuple

end Relata
