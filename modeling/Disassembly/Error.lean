/-! # Errors

Decoding never fails. What can fail is the choice of an architecture, a label group, an address
given as text, and the number of bytes to skip. -/

namespace Disassembly

/-- What was wrong with a request. -/
inductive Error where
  /-- No architecture has this name. -/
  | unknownArchitecture (name : String)
  /-- The library has no group of this name. -/
  | unknownLabelGroup (name : String)
  /-- The text is not an address. -/
  | invalidAddress (text : String)
  /-- The bytes to skip are more than the input has. -/
  | offsetOutOfRange (offset length : Nat)
  deriving DecidableEq, Repr

/-- The wording of an error. -/
def Error.message : Error → String
  | .unknownArchitecture name => "unknown architecture '" ++ name ++ "'"
  | .unknownLabelGroup name => "label group '" ++ name ++ "' not defined"
  | .invalidAddress text => "invalid address '" ++ text ++ "'"
  | .offsetOutOfRange offset length =>
    "offset " ++ offset.repr ++ " is beyond the " ++ length.repr ++ " byte input"

end Disassembly
