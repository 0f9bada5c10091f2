/-!
# MIME messages

Headers in order and a body.
-/

namespace CborGraph

/-- A MIME message. -/
structure MimeMessage where
  /-- Names and values in order; a name may repeat. -/
  headers : List (String × String)
  /-- What follows the headers. -/
  body : String
deriving DecidableEq

/-- One line a header, an empty line, and the body. -/
def MimeMessage.text (m : MimeMessage) : String :=
  String.join (m.headers.map fun (name, value) => name ++ ": " ++ value ++ "\n") ++ "\n" ++ m.body

end CborGraph
