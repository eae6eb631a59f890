/-!
# Texts

Operations on texts that need no table of characters.
-/

namespace Relata.Text

/-- Whether a character is a control character: a code point below 32, or from 127 to 159. -/
def isControl (c : Char) : Bool :=
  c.toNat < 0x20 || (0x7F ≤ c.toNat && c.toNat ≤ 0x9F)

/-- ASCII letters in lower case; every other character stays. -/
def lowercase (s : String) : String := String.ofList (s.toList.map Char.toLower)

/-- Texts joined with a separator between neighbours. -/
def joined (separator : String) (parts : List String) : String :=
  String.ofList (separator.toList.intercalate (parts.map String.toList))

/-- Whether a text starts with another. -/
def startsWith (s beginning : String) : Bool := beginning.toList.isPrefixOf s.toList

end Relata.Text
