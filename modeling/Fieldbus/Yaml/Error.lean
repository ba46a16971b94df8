/-!
# Errors of YAML documents

A text that is no document, or none that a configuration may be, is refused as a
whole.  An error names the line, counted from zero, where there is one to name.
-/

namespace Fieldbus.Yaml

/-- Why a text is not a document. -/
inductive Error where
  /-- A character that no document holds. -/
  | character
  | start (line : Nat)
  /-- A quoted scalar without its end, or with a wrong escape. -/
  | quoted (line : Nat)
  /-- A plain scalar in brackets with a colon directly before a mark. -/
  | colon (line : Nat)
  | tab (line : Nat)
  /-- A key without its colon. -/
  | key (line : Nat)
  /-- An item, a key or a colon where none may be. -/
  | place (line : Nat)
  /-- A token where another one is needed. -/
  | unexpected (line : Nat)
  /-- The text ends too early. -/
  | ended
  /-- A number too great to be kept. -/
  | number
  /-- A key that occurs twice. -/
  | duplicateKey
  /-- Collections too deep. -/
  | depth
  | documents
deriving DecidableEq, Repr

def Error.text : Error → String
  | character => "control characters are not allowed"
  | start line => s!"found character that cannot start any token at line {line}"
  | quoted line => s!"malformed quoted scalar at line {line}"
  | colon line => s!"found unexpected ':' at line {line}"
  | tab line => s!"found a tab character that violates indentation at line {line}"
  | key line => s!"could not find expected ':' at line {line}"
  | place line => s!"not allowed in this context at line {line}"
  | unexpected line => s!"unexpected token at line {line}"
  | ended => "unexpected end of document"
  | number => "number out of range"
  | duplicateKey => "duplicate key"
  | depth => "recursion limit exceeded"
  | documents => "more than one document"

end Fieldbus.Yaml
