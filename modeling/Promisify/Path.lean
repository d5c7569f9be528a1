import Promisify.Dialect
import Promisify.Text

set_option autoImplicit false

/-! # Paths

A path is kept as it was written, but two paths are compared by their components: repeated slashes
and inner `.` do not count, a leading `.` does.
-/

namespace Promisify

/-- A path as it was written. -/
structure Path where
  text : Text
  deriving DecidableEq, Repr, Inhabited

/-- One step of a path. -/
inductive Component where
  /-- The slash that makes a path absolute. -/
  | root
  /-- A leading `.`. -/
  | current
  /-- `..` anywhere. -/
  | parent
  /-- A name. -/
  | normal (name : Text)
  deriving DecidableEq, Repr

namespace Component

/-- The place of a component's kind in the order of components. -/
def rank : Component → Nat
  | root => 0
  | current => 1
  | parent => 2
  | normal _ => 3

/-- The name of a component, empty when it has none. -/
def name : Component → Text
  | normal n => n
  | _ => []

/-- The component that a piece between slashes stands for; empty pieces and `.` stand for
none. -/
def ofPiece? : Text → Option Component
  | [] => none
  | ['.'] => none
  | ['.', '.'] => some parent
  | n => some (normal n)

/-- Whether the name `a` comes strictly before `b`, character by character. -/
def nameLt : Text → Text → Bool
  | _, [] => false
  | [], _ :: _ => true
  | a :: as, b :: bs => a.val < b.val || (a == b && nameLt as bs)

/-- Whether a component comes strictly before another. -/
def lt (a b : Component) : Bool :=
  a.rank < b.rank || (a.rank == b.rank && nameLt a.name b.name)

/-- Whether a list of components comes strictly before another. -/
def listLt : List Component → List Component → Bool
  | _, [] => false
  | [], _ :: _ => true
  | a :: as, b :: bs => a.lt b || (a == b && listLt as bs)

end Component

namespace Path

/-- A path from a text. -/
def ofString (s : String) : Path := ⟨s.toList⟩

/-- The path of a source that is in no file. -/
def inline : Path := ofString "<inline>.ts"

/-- Whether a path starts from the root. -/
def isAbsolute (p : Path) : Bool := p.text.head? == some '/'

/-- The pieces between slashes. -/
def pieces : Text → List Text
  | [] => [[]]
  | c :: cs =>
      if c = '/' then [] :: pieces cs
      else
        match pieces cs with
        | [] => [[c]]
        | p :: ps => (c :: p) :: ps

/-- The components of a path. -/
def components (p : Path) : List Component :=
  match pieces p.text with
  | [] => []
  | first :: rest =>
      let lead :=
        if p.isAbsolute then [Component.root]
        else if first = ['.'] then [Component.current]
        else (Component.ofPiece? first).toList
      lead ++ rest.filterMap Component.ofPiece?

/-- Whether two paths have the same components. -/
def same (p q : Path) : Bool := p.components == q.components

/-- Whether a path comes strictly before another, component by component. -/
def lt (p q : Path) : Bool := Component.listLt p.components q.components

/-- The name a path ends in, when it ends in one. -/
def fileName? (p : Path) : Option Text :=
  match p.components.getLast? with
  | some (.normal n) => some n
  | _ => none

/-- What follows the last dot of a text. -/
def afterLastDot? : Text → Option Text
  | [] => none
  | c :: cs =>
      match afterLastDot? cs with
      | some e => some e
      | none => if c = '.' then some cs else none

/-- The extension of a name; a dot at the very front starts none. -/
def nameExtension? (name : Text) : Option Text := afterLastDot? name.tail

/-- The extension of the name a path ends in. -/
def extension? (p : Path) : Option Text := p.fileName?.bind nameExtension?

/-- The dialect of the files with this path. -/
def dialect (p : Path) : Dialect :=
  match p.extension? with
  | some ['t', 's', 'x'] => .tsx
  | some ['j', 's', 'x'] => .tsx
  | _ => .typeScript

/-- The path of an entry called `name` in the directory. -/
def join (p : Path) (name : Text) : Path :=
  if p.text.endsWith '/' then ⟨p.text ++ name⟩ else ⟨p.text ++ '/' :: name⟩

end Path

end Promisify
