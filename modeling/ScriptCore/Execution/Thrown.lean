/-!
# ScriptCore.Execution.Thrown

What a script can **throw**, by cause, with the kind of error that scripts see and its wording.
-/

namespace ScriptCore

/-- The kind of an error, named for the constructor that scripts know. -/
inductive ErrorKind where
  | error | typeError | referenceError | rangeError | internalError
deriving DecidableEq

/-- The constructor's name. -/
def ErrorKind.name : ErrorKind → String
  | .error => "Error"
  | .typeError => "TypeError"
  | .referenceError => "ReferenceError"
  | .rangeError => "RangeError"
  | .internalError => "InternalError"

/-- The kind whose constructor has a name; plain errors for any other name. -/
def ErrorKind.ofName (name : String) : ErrorKind :=
  ([typeError, referenceError, rangeError, internalError].find? (·.name == name)).getD error

/-- Something thrown. -/
inductive Thrown where
  /-- An operation met a proxy that has been revoked. -/
  | revokedProxy
  /-- A call of something that is no function. -/
  | notAFunction
  /-- An array was to grow too far at once. -/
  | invalidArrayLength
  /-- A receiver that is neither a primitive nor an object. -/
  | nullishReceiver
  /-- A global property refused an assignment. -/
  | readOnlyGlobal (name : String)
  /-- A function of the host failed. -/
  | hostFailure (text : String)
  /-- Raised by code of the embedding. -/
  | raised (kind : ErrorKind) (message : String)
deriving DecidableEq

namespace Thrown

/-- The kind of error that scripts see. -/
def kind : Thrown → ErrorKind
  | .invalidArrayLength => .rangeError
  | .hostFailure _ => .error
  | .raised k _ => k
  | _ => .typeError

/-- The wording. -/
def message : Thrown → String
  | .revokedProxy => "proxy has been revoked"
  | .notAFunction => "object is not a function"
  | .invalidArrayLength => "Invalid array length"
  | .nullishReceiver => "Cannot convert undefined or null to object"
  | .readOnlyGlobal name => "Cannot assign to read only property '" ++ name ++ "'"
  | .hostFailure text => text
  | .raised _ m => m

/-- The kind and the wording, as one text. -/
def text (t : Thrown) : String := t.kind.name ++ ": " ++ t.message

end Thrown

end ScriptCore
