set_option autoImplicit false

/-! # Dialects

TypeScript comes in two dialects that disagree on what `<` means at the start of an expression:
a type assertion in plain TypeScript, an element in TSX.
-/

namespace Promisify

/-- The dialect a file is read in. -/
inductive Dialect where
  | typeScript
  | tsx
  deriving DecidableEq, Repr, Inhabited

/-- The name of a dialect. -/
def Dialect.name : Dialect → String
  | .typeScript => "TypeScript"
  | .tsx => "TSX"

end Promisify
