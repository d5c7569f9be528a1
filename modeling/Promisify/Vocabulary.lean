import Promisify.Text

set_option autoImplicit false

/-! # The names the migration is about

The methods that end a stream, the operators that limit it to one value, the two helpers that take
the place of the methods, and the modules all of these come from.
-/

namespace Promisify

namespace Vocabulary

/-- The call that turns a stream into a promise. -/
def toPromise : Text := "toPromise".toList

/-- The call that registers callbacks on a stream. -/
def subscribe : Text := "subscribe".toList

/-- The call that passes a stream through operators. -/
def pipe : Text := "pipe".toList

/-- The operator that ends a stream after a number of values. -/
def take : Text := "take".toList

/-- The operator that ends a stream after its first matching value. -/
def first : Text := "first".toList

/-- The operators that limit a stream to one value, in the order in which they are pruned. -/
def limitingOperators : List Text := [first, take]

/-- The helper that resolves with the first value of a stream. -/
def firstValueFrom : Text := "firstValueFrom".toList

/-- The helper that resolves with the last value of a stream. -/
def lastValueFrom : Text := "lastValueFrom".toList

/-- The type of streams. -/
def observable : Text := "Observable".toList

/-- The call that continues a promise. -/
def continuation : Text := "then".toList

/-- The module that exports the helpers. -/
def streams : Text := "rxjs".toList

/-- The module that exports the operators. -/
def operators : Text := "rxjs/operators".toList

end Vocabulary

end Promisify
