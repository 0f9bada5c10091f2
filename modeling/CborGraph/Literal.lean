import CborGraph.Text.Quoted

/-!
# Parts of number literals

A literal is read as a list of characters: an optional sign, then ASCII digits.
`Literal.split` cuts at the first character of a kind. A literal that stands for no
number is an error, which quotes it.
-/

namespace CborGraph

/-- A number literal that stands for no number. -/
structure LiteralError where
  /-- The literal as it was given. -/
  literal : String
deriving DecidableEq

/-- The wording of the error. -/
def LiteralError.message (e : LiteralError) : String :=
  "invalid numeric literal: " ++ Text.quote e.literal

namespace Literal

/-- Whether the literal is negative, and what follows its sign. A literal with no
sign is not negative. -/
def sign : List Char → Bool × List Char
  | '-' :: cs => (true, cs)
  | '+' :: cs => (false, cs)
  | cs => (false, cs)

/-- One ASCII digit or more, and nothing else. -/
def isNumeral (cs : List Char) : Bool := !cs.isEmpty && cs.all Char.isDigit

/-- The value of a digit. -/
def digit (c : Char) : Nat := c.toNat - '0'.toNat

/-- The number that ASCII digits stand for. -/
def numeral (cs : List Char) : Nat := cs.foldl (fun n c => n * 10 + digit c) 0

/-- The integer a literal with an optional sign stands for. -/
def int? (cs : List Char) : Option Int :=
  let (negative, digits) := sign cs
  if isNumeral digits then
    some (if negative then -(numeral digits : Int) else numeral digits)
  else none

/-- What stands before the first character that satisfies `p`, and what stands after
it, if there is one. -/
def split (p : Char → Bool) (cs : List Char) : List Char × Option (List Char) :=
  (cs.takeWhile (!p ·),
    match cs.dropWhile (!p ·) with
    | [] => none
    | _ :: rest => some rest)

end Literal

end CborGraph
