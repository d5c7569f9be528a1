import Promisify.Text

set_option autoImplicit false

/-! # Sets of names

A set of names keeps them in the order in which they were first put in, which is the order they are
written in an import.
-/

namespace Promisify

/-- Distinct names in the order in which they were first inserted. -/
structure NameSet where
  names : List Text
  nodup : names.Nodup

namespace NameSet

/-- No names. -/
def empty : NameSet := ⟨[], List.nodup_nil⟩

instance : Inhabited NameSet := ⟨empty⟩

/-- Whether a name has been inserted. -/
def contains (s : NameSet) (name : Text) : Bool := decide (name ∈ s.names)

/-- The set with a name added at its end, unless it is there already. -/
def insert (s : NameSet) (name : Text) : NameSet :=
  if h : name ∈ s.names then s
  else
    ⟨s.names ++ [name], by
      rw [List.nodup_append]
      refine ⟨s.nodup, by simp, ?_⟩
      intro a ha b hb
      simp only [List.mem_singleton] at hb
      subst hb
      intro hab
      exact h (hab ▸ ha)⟩

/-- The number of names. -/
def size (s : NameSet) : Nat := s.names.length

/-- Whether there are no names. -/
def isEmpty (s : NameSet) : Bool := s.names.isEmpty

/-- The names of a list, each at its first place. -/
def ofList (names : List Text) : NameSet := names.foldl insert empty

end NameSet

end Promisify
