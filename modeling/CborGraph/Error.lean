/-!
# Errors

The causes for which an encoding ends, and their wording.
-/

namespace CborGraph

/-- Why an encoding ended. -/
inductive EncodeError
  /-- The sink refused a write. -/
  | io (text : String)
  /-- No encoder accepts values of the type. -/
  | unsupportedType (typeName : String)
  /-- A date and time with no offset has no place in UTC: no default time zone is set, or
  the time zone leads out of the range of years. -/
  | naiveDateTime
  /-- A container was reached again inside itself while sharing is off. -/
  | cyclicStructure
  /-- Serialised data was not well formed. -/
  | serialization (text : String)
deriving DecidableEq

/-- The wording of an error. -/
def EncodeError.message : EncodeError → String
  | io text => "IO error: " ++ text
  | unsupportedType typeName => "cannot serialize type " ++ typeName
  | naiveDateTime => "naive datetime encountered and no default timezone has been set"
  | cyclicStructure => "cyclic data structure detected but value sharing is disabled"
  | serialization text => "Serde error: " ++ text

end CborGraph
