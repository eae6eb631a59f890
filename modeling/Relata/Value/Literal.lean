import Relata.Fault
/-!
# Reading and comparing values with causes

The forms of reading and comparison that name the cause when they fail.
-/

namespace Relata

/-- The domain a spelling stands for. -/
def Domain.parse (s : String) : Except Fault Domain :=
  match Domain.read? s with
  | some d => .ok d
  | none => .error (.unreadable (.domain s))

namespace Value

/-- The value a text denotes in a domain. The fault shows the text trimmed. -/
def parse (domain : Domain) (text : String) : Except Fault Value :=
  match read? domain text with
  | some v => .ok v
  | none => .error (.unreadable (.literal (String.ofList (Text.trim text.toList)) domain))

/-- Two domains that are compared must be the same. -/
def checkDomains (left right : Domain) : Except Fault Unit :=
  if left = right then .ok () else .error (.incomparable left right)

/-- The order of two values of one domain. -/
def tryCompare (a b : Value) : Except Fault Ordering :=
  (checkDomains a.domain b.domain).map fun _ => compare a b

end Value

end Relata
