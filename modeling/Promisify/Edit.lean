import Promisify.Event
import Promisify.Sorting

set_option autoImplicit false

/-! # Edits

An edit replaces the bytes of a span by a text. A set of edits is applied in one pass from left to
right: edits are taken in the order of their spans, and an edit that starts before the end of the
last one taken is dropped.
-/

namespace Promisify

/-- A replacement of the bytes of a span; an empty span makes it an insertion. -/
structure Edit where
  span : Span
  text : Text
  deriving DecidableEq, Repr

namespace Edit

/-- The insertion of a text. -/
def insertion (offset : Nat) (text : Text) : Edit := ⟨⟨offset, offset⟩, text⟩

/-- The deletion of a span. -/
def deletion (span : Span) : Edit := ⟨span, []⟩

/-- Edits are taken by the start of their span, then by its end. -/
def before (a b : Edit) : Bool :=
  a.span.start < b.span.start || (a.span.start == b.span.start && a.span.stop ≤ b.span.stop)

end Edit

/-- Edits in the order in which they were recorded. -/
abbrev Edits := List Edit

namespace Edits

/-- The edits in the order in which they are taken; equal spans keep their order. -/
def sorted (es : Edits) : List Edit := sortedBy Edit.before es

/-- The edits that are taken, from those in order, when the text up to `cursor` is done. -/
def taken (cursor : Nat) : List Edit → List Edit
  | [] => []
  | e :: es =>
      if e.span.start < cursor then taken cursor es else e :: taken e.span.stop es

/-- The edits that are dropped, from those in order, up to the first one that cannot be
applied. -/
def droppedFrom (source : Text) (cursor : Nat) : List Edit → List Edit
  | [] => []
  | e :: es =>
      if e.span.start < cursor then e :: droppedFrom source cursor es
      else if (source.slice? cursor e.span.start).isSome then droppedFrom source e.span.stop es
      else []

/-- The edits that applying the set drops. -/
def dropped (es : Edits) (source : Text) : List Edit := droppedFrom source 0 es.sorted

/-- The text from `cursor` on, with the edits in order applied to it. -/
def applyFrom (source : Text) (cursor : Nat) : List Edit → Option Text
  | [] => (Text.splitAt? cursor source).map Prod.snd
  | e :: es =>
      if e.span.start < cursor then applyFrom source cursor es
      else do
        let kept ← source.slice? cursor e.span.start
        let rest ← applyFrom source e.span.stop es
        return kept ++ e.text ++ rest

/-- The text with the edits applied. There is none when an edit that is taken has an offset past
the end of the text or inside a character. -/
def applied? (es : Edits) (source : Text) : Option Text := applyFrom source 0 es.sorted

/-- What is reported while the edits are applied. -/
def events (es : Edits) (source : Text) : List Event :=
  (es.dropped source).map fun e =>
    ⟨.debug, "dropping overlapping edit at ".toList ++ Text.ofNat e.span.start ++ "..".toList
      ++ Text.ofNat e.span.stop, []⟩

end Edits

end Promisify
