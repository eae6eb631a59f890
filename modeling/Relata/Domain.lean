/-!
# Domains

A domain is the type of an attribute's values. There are eight, in a fixed order that also orders
values of different domains.
-/

namespace Relata

/-- The type of an attribute's values. -/
inductive Domain where
  | integer
  | long
  | short
  | byte
  | double
  | float
  | character
  | string
  deriving DecidableEq, Repr

namespace Domain

def all : List Domain := [integer, long, short, byte, double, float, character, string]

def rank : Domain → Nat
  | integer => 0
  | long => 1
  | short => 2
  | byte => 3
  | double => 4
  | float => 5
  | character => 6
  | string => 7

def name : Domain → String
  | integer => "Integer"
  | long => "Long"
  | short => "Short"
  | byte => "Byte"
  | double => "Double"
  | float => "Float"
  | character => "Character"
  | string => "String"

/-- The other spellings a domain is read from. -/
def aliases : Domain → List String
  | integer => ["integer", "int", "i32"]
  | long => ["long", "i64"]
  | short => ["short", "i16"]
  | byte => ["byte", "i8"]
  | double => ["double", "f64"]
  | float => ["float", "f32"]
  | character => ["character", "char"]
  | string => ["string", "str"]

/-- The domain with the given full name. -/
def ofName? (s : String) : Option Domain := all.find? fun d => d.name == s

/-- The domain a spelling stands for: its full name or one of its aliases. -/
def read? (s : String) : Option Domain := all.find? fun d => d.name == s || d.aliases.contains s

end Domain

end Relata
