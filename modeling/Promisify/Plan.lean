import Promisify.Pipeline

set_option autoImplicit false

/-! # Plans

The replacement of a site is planned before anything is written: a plan is a list of pieces, each
a text or a span of the source, which is copied with the plans inside it carried out.
-/

namespace Promisify

/-- The function that replaces a terminal call. -/
inductive Helper where
  | firstValue
  | lastValue
  deriving DecidableEq, Repr

/-- The name under which a helper is imported. -/
def Helper.name : Helper → Text
  | firstValue => Vocabulary.firstValueFrom
  | lastValue => Vocabulary.lastValueFrom

/-- Why a site has no plan. -/
inductive Refusal where
  | unrecognized (o : Obstacle)
  /-- A subscription to a stream that may have many values. -/
  | unlimitedSubscription
  deriving DecidableEq, Repr

/-- The reason in words. -/
def Refusal.reason : Refusal → Text
  | unrecognized o => "unrecognized shape (".toList ++ o.reason ++ ")".toList
  | unlimitedSubscription => "subscription without take(1)/first()".toList

/-- A part of a replacement. -/
inductive Piece where
  | text (t : Text)
  | source (s : Span)
  deriving DecidableEq, Repr

/-- The replacement of one site. -/
structure Plan where
  /-- The bytes that are replaced. -/
  span : Span
  helper : Helper
  /-- Whether the argument is asserted to be a stream of a type. -/
  assertsType : Bool
  pieces : List Piece
  deriving DecidableEq, Repr

/-- The spans that make up the argument of the helper, and which helper it is. The stream is
limited to one value exactly when the helper is the first one. -/
def Shape.argument : Shape → Except Refusal (Helper × List Span)
  | .unrecognized o => .error (.unrecognized o)
  | .chain receiver => .ok (.lastValue, [receiver.span])
  | .pipeline p =>
      let call := p.call.span
      match p.trim with
      | .unchanged => .ok (.lastValue, [call])
      | .collapse => .ok (.firstValue, [p.source.span])
      | .cut c => .ok (.firstValue, [⟨call.start, c.start⟩, ⟨c.stop, call.stop⟩])

/-- A span without what lies before `start`. -/
def Span.clampStart (start : Nat) (s : Span) : Span := ⟨max s.start start, s.stop⟩

namespace SourceFile

variable (f : SourceFile)

/-- The pieces after the argument of the helper, and whether they assert a type. -/
def closing (s : Site) (h : Helper) : Except Refusal (Bool × List Piece) :=
  match s.terminal with
  | .toPromise =>
      match s.typeArguments? with
      | some types =>
          .ok (true, [.text (" as ".toList ++ Vocabulary.observable ++ f.textOf types),
            .text ")".toList])
      | none => .ok (false, [.text ")".toList])
  | .subscribe =>
      if h = .firstValue then
        match s.arguments? with
        | some arguments =>
            .ok (false, [.text (").".toList ++ Vocabulary.continuation),
              .source arguments.span])
        | none => .error (.unrecognized .missingNode)
      else .error .unlimitedSubscription

/-- The replacement of a site, or why it stays as written. A prefix folded into the chain stays
outside the helper. -/
def plan (s : Site) : Except Refusal Plan := do
  let (helper, spans) ← (f.shape s).argument
  let (assertsType, rest) ← f.closing s helper
  let opening := Piece.text (helper.name ++ "(".toList)
  let argument := spans.map fun a => Piece.source (a.clampStart s.start)
  return ⟨s.span, helper, assertsType, opening :: argument ++ rest⟩

end SourceFile

end Promisify
