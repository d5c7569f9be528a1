import Promisify.Event
import Promisify.NameSet
import Promisify.Plan
import Promisify.Sorting

set_option autoImplicit false

/-! # Carrying out plans

A span of the source is rendered by copying it and putting in place of each outermost plan inside
it the plan's pieces, whose spans are rendered in turn. A plan that lies in a part of its
enclosing site that no piece copies is not carried out.
-/

namespace Promisify

/-- A text with the plans carried out in it, each before the ones inside it. -/
structure Rendering where
  text : Text
  done : List Plan
  deriving DecidableEq, Repr

namespace Rendering

/-- Nothing. -/
def empty : Rendering := ⟨[], []⟩

/-- A text in which nothing is replaced. -/
def ofText (t : Text) : Rendering := ⟨t, []⟩

/-- One rendering after another. -/
def append (a b : Rendering) : Rendering := ⟨a.text ++ b.text, a.done ++ b.done⟩

end Rendering

namespace Plan

/-- Plans are taken by their start; of two with the same start the longer comes first. -/
def before (p q : Plan) : Bool :=
  p.span.start < q.span.start || (p.span.start == q.span.start && q.span.stop ≤ p.span.stop)

/-- The plans in the order in which they are taken. -/
def sorted (ps : List Plan) : List Plan := sortedBy Plan.before ps

/-- The names the replacement needs, in the order of their use. -/
def names (p : Plan) : List Text :=
  if p.assertsType then [Vocabulary.observable, p.helper.name] else [p.helper.name]

/-- The pieces rendered one after another. -/
def renderPieces (inside : Span → Option Rendering) : List Piece → Option Rendering
  | [] => some .empty
  | .text t :: ps => (renderPieces inside ps).map fun r => (Rendering.ofText t).append r
  | .source s :: ps => do
      let a ← inside s
      let b ← renderPieces inside ps
      return a.append b

/-- The bytes from `cursor` to `stop`, with the outermost of the plans inside them carried
out. -/
def renderFrom (inside : Span → Option Rendering) (source : Text) (stop : Nat) (cursor : Nat) :
    List Plan → Option Rendering
  | [] => (source.slice? cursor stop).map Rendering.ofText
  | p :: ps =>
      if p.span.start < cursor || stop < p.span.stop then
        renderFrom inside source stop cursor ps
      else do
        let gap ← source.slice? cursor p.span.start
        let body ← renderPieces inside p.pieces
        let rest ← renderFrom inside source stop p.span.stop ps
        return (Rendering.ofText gap).append ⟨body.text ++ rest.text, p :: body.done ++ rest.done⟩

/-- A span with plans nested at most `fuel` deep carried out. -/
def render (source : Text) (plans : List Plan) : Nat → Span → Option Rendering
  | 0, _ => none
  | fuel + 1, s => renderFrom (render source plans fuel) source s.stop s.start plans

end Plan

/-- How many sites were found, replaced and left. -/
structure SiteCounts where
  found : Nat
  converted : Nat
  skipped : Nat
  deriving DecidableEq, Repr, Inhabited

/-- The sites of a file, what was decided about each, and the text that comes of it. -/
structure Conversion where
  decisions : List (Site × Except Refusal Plan)
  rendering : Rendering

namespace SourceFile

/-- Every site with its plan or the reason why it has none. -/
def decisions (f : SourceFile) : List (Site × Except Refusal Plan) :=
  f.sites.map fun s => (s, f.plan s)

/-- The plans of the sites that have one, in the order in which they are taken. -/
def plans (f : SourceFile) : List Plan :=
  Plan.sorted (f.decisions.filterMap fun d => d.2.toOption)

/-- The text with all plans carried out. -/
def rendering? (f : SourceFile) : Option Rendering :=
  Plan.render f.text f.plans (f.plans.length + 1) ⟨0, f.text.size⟩

/-- Replaces every site that has a plan. -/
def conversion? (f : SourceFile) : Option Conversion :=
  f.rendering?.map fun r => ⟨f.decisions, r⟩

end SourceFile

namespace Conversion

variable (r : Conversion)

/-- The new text. -/
def text : Text := r.rendering.text

/-- The number of sites that have a plan. -/
def planned : Nat := (r.decisions.filterMap fun d => d.2.toOption).length

/-- The counts of sites. -/
def counts : SiteCounts :=
  ⟨r.decisions.length, r.rendering.done.length, r.decisions.length - r.planned⟩

/-- The names the new text needs, in the order of their first use. -/
def required : NameSet := NameSet.ofList (r.rendering.done.flatMap Plan.names)

/-- What is reported about one site. -/
def decisionEvent (source : Text) : Site × Except Refusal Plan → Event
  | (s, decision) =>
      let line := ("line".toList, Text.ofNat ((source.pointAt s.call.start).row + 1))
      let kind := ("kind".toList, s.terminal.member)
      match decision with
      | .ok p =>
          ⟨.debug, "planned rewrite".toList, [line, kind, ("helper".toList, p.helper.name)]⟩
      | .error skip => ⟨.debug, "skipping site: ".toList ++ skip.reason, [line, kind]⟩

/-- What is reported while the sites of `source` are replaced. -/
def events (source : Text) : List Event :=
  let lost := r.planned - r.rendering.done.length
  r.decisions.map (decisionEvent source) ++
    (if lost = 0 then [] else
      [⟨.debug, Text.ofNat lost
        ++ " nested rewrite(s) discarded with their enclosing operator".toList, []⟩])

end Conversion

end Promisify
