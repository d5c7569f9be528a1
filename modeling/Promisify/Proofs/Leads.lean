import Promisify.Proofs.Conversion
import Promisify.Proofs.Spacing

set_option autoImplicit false

/-! # The text in front of a helper

A helper becomes part of a longer name when the text written before it ends in a name. To speak about
that text, plans are carried out once more, this time noting for each plan what has been written when
its helper comes (`Plan.mark`). Leaving the notes out gives the rendering again.

Main statement: a helper is fused with the text before it exactly when in the source a name reaches up
to its site and the site does not open the argument of another helper.
-/

namespace Promisify

namespace Plan

/-! ## Renderings with notes -/

/-- A rendering in which each plan carried out comes with the text written before its helper. -/
structure Marked where
  text : Text
  leads : List (Plan × Text)
  deriving DecidableEq

/-- The notes of what is written behind `u`. -/
def behind (u : Text) (leads : List (Plan × Text)) : List (Plan × Text) :=
  leads.map fun l => (l.1, u ++ l.2)

/-- The pieces of a template, marked one after another. -/
def markPieces (inside : Span → Option Marked) : List Piece → Option Marked
  | [] => some ⟨[], []⟩
  | .text t :: ps => (markPieces inside ps).map fun r => ⟨t ++ r.text, behind t r.leads⟩
  | .source s :: ps => do
      let a ← inside s
      let b ← markPieces inside ps
      return ⟨a.text ++ b.text, a.leads ++ behind a.text b.leads⟩

/-- The bytes from `cursor` to `stop`, marked. -/
def markFrom (inside : Span → Option Marked) (source : Text) (stop : Nat) (cursor : Nat) :
    List Plan → Option Marked
  | [] => (source.slice? cursor stop).map fun t => ⟨t, []⟩
  | p :: ps =>
      if p.span.start < cursor || stop < p.span.stop then
        markFrom inside source stop cursor ps
      else do
        let gap ← source.slice? cursor p.span.start
        let body ← markPieces inside p.pieces
        let rest ← markFrom inside source stop p.span.stop ps
        return ⟨gap ++ (body.text ++ rest.text),
          behind gap ((p, []) :: body.leads ++ behind body.text rest.leads)⟩

/-- A span with plans nested at most `fuel` deep carried out, and what is written before each of
their helpers. -/
def mark (source : Text) (plans : List Plan) : Nat → Span → Option Marked
  | 0, _ => none
  | fuel + 1, s => markFrom (mark source plans fuel) source s.stop s.start plans

/-- The rendering without the notes. -/
def Marked.rendering (m : Marked) : Rendering := ⟨m.text, m.leads.map Prod.fst⟩

theorem map_fst_behind (u : Text) (leads : List (Plan × Text)) :
    (behind u leads).map Prod.fst = leads.map Prod.fst := by
  rw [behind, List.map_map]
  rfl

theorem mem_behind {u : Text} {leads : List (Plan × Text)} {l : Plan × Text}
    (h : l ∈ behind u leads) : ∃ v, (l.1, v) ∈ leads ∧ l.2 = u ++ v := by
  obtain ⟨k, hk, rfl⟩ := List.mem_map.mp h
  exact ⟨k.2, hk, rfl⟩

theorem markPieces_rendering (inside : Span → Option Marked) (pieces : List Piece) :
    (markPieces inside pieces).map Marked.rendering =
      renderPieces (fun a => (inside a).map Marked.rendering) pieces := by
  induction pieces with
  | nil => rfl
  | cons piece pieces ih =>
      cases piece with
      | text t =>
          rw [markPieces, renderPieces, ← ih, Option.map_map, Option.map_map]
          congr 1
          funext r
          simp [Marked.rendering, Rendering.append, Rendering.ofText, map_fst_behind]
      | source a =>
          simp only [markPieces, renderPieces, ← ih]
          cases inside a with
          | none => rfl
          | some x =>
              cases markPieces inside pieces with
              | none => rfl
              | some y => simp [Marked.rendering, Rendering.append, map_fst_behind]

theorem markFrom_rendering (inside : Span → Option Marked) (source : Text) (stop cursor : Nat)
    (ps : List Plan) :
    (markFrom inside source stop cursor ps).map Marked.rendering =
      renderFrom (fun a => (inside a).map Marked.rendering) source stop cursor ps := by
  induction ps generalizing cursor with
  | nil =>
      rw [markFrom, renderFrom, Option.map_map]
      rfl
  | cons p ps ih =>
      rw [markFrom, renderFrom]
      by_cases hskip : (p.span.start < cursor || stop < p.span.stop) = true
      · rw [if_pos hskip, if_pos hskip, ih]
      · rw [if_neg hskip, if_neg hskip, ← markPieces_rendering, ← ih]
        cases source.slice? cursor p.span.start with
        | none => rfl
        | some gap =>
            cases markPieces inside p.pieces with
            | none => rfl
            | some b =>
                cases markFrom inside source stop p.span.stop ps with
                | none => rfl
                | some rest =>
                    simp [Marked.rendering, Rendering.append, Rendering.ofText, behind,
                      Function.comp_def]

/-- **Without the notes a marked rendering is the rendering.** -/
theorem mark_rendering (source : Text) (ps : List Plan) (fuel : Nat) (s : Span) :
    (mark source ps fuel s).map Marked.rendering = render source ps fuel s := by
  induction fuel generalizing s with
  | zero => rfl
  | succ fuel ih =>
      have hinside : (fun a => (mark source ps fuel a).map Marked.rendering) =
          render source ps fuel := funext ih
      rw [mark, render, markFrom_rendering, hinside]

/-! ## Plans that are fused -/

variable {t : Text} {ps : List Plan}

/-- `p` lies inside `q` and starts with the argument of its helper. -/
def OpensArgument (p q : Plan) : Prop :=
  p.span.inside q.span ∧ q.sources.head?.map Span.start = some p.span.start

/-- A name reaches up to the plan, and no other helper's parenthesis is put between them. -/
def Fuses (t : Text) (ps : List Plan) (p : Plan) : Prop :=
  t.nameBefore p.span.start = true ∧ ∀ q ∈ ps, ¬ p.OpensArgument q

/-- A marked text written from the offset `k` of the source on: each helper is where its note says,
a helper with nothing before it belongs to a plan that starts at `k`, and any other one is fused
with the text before it exactly when its plan says so. -/
structure Marked.Faithful (t : Text) (ps : List Plan) (k : Nat) (m : Marked) : Prop where
  written : ∀ l ∈ m.leads, ∃ v, m.text = l.2 ++ (l.1.helper.name ++ '(' :: v)
  flush : ∀ l ∈ m.leads, l.2 = [] → l.1.span.start = k
  fused : ∀ l ∈ m.leads, l.2 ≠ [] → (l.2.endsInName = true ↔ Fuses t ps l.1)

/-- Where the plans of `ps` lie relative to a span that is rendered: inside it, apart from it, or
around it with the argument of their helper starting no later than it. -/
def Surrounds (ps : List Plan) (s : Span) : Prop :=
  ∀ q ∈ ps, q.span.within s = true ∨ q.span.apart s ∨
    ∀ a ∈ q.sources.head?, a.start ≤ s.start

theorem head_le_of_mem {q : Plan} (hq : q.Fits) {a b : Span} (ha : a ∈ q.sources.head?)
    (hb : b ∈ q.sources) : a.start ≤ b.start := by
  obtain ⟨l, hl⟩ := List.head?_eq_some_iff.mp ha
  have hord := hq.ordered
  have hfwd := hq.forward a (by simp [hl])
  rw [hl] at hb hord
  rcases List.mem_cons.mp hb with rfl | hb
  · exact Nat.le_refl _
  · have := (List.pairwise_cons.mp hord).1 b hb
    omega

/-- A span copied by an outermost plan is surrounded as the span around the plan is. -/
theorem Surrounds.source (h : Nested ps) {s a : Span} (hs : Surrounds ps s) {q : Plan}
    (hq : q ∈ outermost (inSpan ps s)) (ha : a ∈ q.sources) : Surrounds ps a := by
  obtain ⟨hqs, hmax⟩ := mem_outermost.mp hq
  obtain ⟨hqp, hqw⟩ := mem_inSpan.mp hqs
  have haq := Span.within_iff.mp ((h.fits q hqp).inside a ha).1
  have hne := h.nonempty q hqp
  have hqw' := Span.within_iff.mp hqw
  intro r hr
  rcases h.trichotomy hqp hr with rfl | hqr | hrq | hapart
  · exact Or.inr (Or.inr fun b hb => head_le_of_mem (h.fits q hqp) hb ha)
  · exact (hqr.clear a ha).imp id Or.inl
  · -- a plan around an outermost one reaches beyond the span
    have hin := Span.within_iff.mp hrq.inside.1
    rcases hs r hr with hrs | hrs | hrs
    · exact absurd hrq.inside (hmax r (mem_inSpan.mpr ⟨hr, hrs⟩))
    · unfold Span.apart at hrs
      omega
    · right; right
      intro b hb
      have := hrs b hb
      omega
  · right; left
    unfold Span.apart at hapart ⊢
    omega

/-- An outermost plan behind the start of the span opens no argument. -/
theorem Surrounds.not_opens (h : Nested ps) {s : Span} (hs : Surrounds ps s) {p : Plan}
    (hp : p ∈ outermost (inSpan ps s)) (hlt : s.start < p.span.start) :
    ∀ q ∈ ps, ¬ p.OpensArgument q := by
  obtain ⟨hps, hmax⟩ := mem_outermost.mp hp
  obtain ⟨hpp, hpw⟩ := mem_inSpan.mp hps
  have hne := h.nonempty p hpp
  have hpw' := Span.within_iff.mp hpw
  rintro q hq ⟨hin, hhead⟩
  have hin' := Span.within_iff.mp hin.1
  rcases hs q hq with hqs | hqs | hqs
  · exact hmax q (mem_inSpan.mpr ⟨hq, hqs⟩) hin
  · unfold Span.apart at hqs
    omega
  · obtain ⟨a, ha, hstart⟩ := Option.map_eq_some_iff.mp hhead
    have := hqs a ha
    omega

/-! ## What is written before a helper -/

/-- A note in a template comes from a copied span, behind the pieces in front of it. -/
theorem mem_markPieces {inside : Span → Option Marked} {pieces : List Piece} {m : Marked}
    (h : markPieces inside pieces = some m) {l : Plan × Text} (hl : l ∈ m.leads) :
    ∃ before a after w r u v, pieces = before ++ .source a :: after ∧
      fillPieces (fun a => (inside a).map Marked.text) before = some w ∧ inside a = some r ∧
      (l.1, u) ∈ r.leads ∧ l.2 = w ++ u ∧ m.text = w ++ r.text ++ v := by
  induction pieces generalizing m l with
  | nil =>
      cases h
      simp at hl
  | cons piece pieces ih =>
      cases piece with
      | text t =>
          obtain ⟨b, hb, rfl⟩ := Option.map_eq_some_iff.mp h
          obtain ⟨x, hx, hlx⟩ := mem_behind hl
          obtain ⟨before, a, after, w, r, u, v, rfl, hw, hr, hu, hxu, htext⟩ := ih hb hx
          refine ⟨.text t :: before, a, after, t ++ w, r, u, v, rfl, ?_, hr, hu, ?_, ?_⟩
          · rw [fillPieces, hw]
            rfl
          · rw [hlx, List.append_assoc]
            exact congrArg (t ++ ·) hxu
          · simp [htext]
      | source s =>
          simp only [markPieces, Option.bind_eq_bind, Option.bind_eq_some_iff, Option.pure_def,
            Option.some.injEq] at h
          obtain ⟨x, hx, b, hb, rfl⟩ := h
          rcases List.mem_append.mp hl with hl | hl
          · exact ⟨[], s, pieces, [], x, l.2, b.text, rfl, rfl, hx, hl, rfl, by simp⟩
          · obtain ⟨y, hy, hly⟩ := mem_behind hl
            obtain ⟨before, a, after, w, r, u, v, rfl, hw, hr, hu, hyu, htext⟩ := ih hb hy
            refine ⟨.source s :: before, a, after, x.text ++ w, r, u, v, rfl, ?_, hr, hu, ?_, ?_⟩
            · simp [fillPieces, hx, hw]
            · rw [hly, List.append_assoc]
              exact congrArg (x.text ++ ·) hyu
            · simp [htext]

theorem markPieces_text (inside : Span → Option Marked) (pieces : List Piece) :
    (markPieces inside pieces).map Marked.text =
      fillPieces (fun a => (inside a).map Marked.text) pieces := by
  have hinside : (fun a => ((inside a).map Marked.rendering).map Rendering.text) =
      fun a => (inside a).map Marked.text := by
    funext a
    rw [Option.map_map]
    rfl
  rw [← hinside, ← renderPieces_text, ← markPieces_rendering, Option.map_map]
  rfl

theorem fillPieces_append (inside : Span → Option Text) (x y : List Piece) :
    fillPieces inside (x ++ y) =
      (fillPieces inside x).bind fun a => (fillPieces inside y).map fun b => a ++ b := by
  induction x with
  | nil => simp [fillPieces]
  | cons piece x ih =>
      cases piece with
      | text t =>
          rw [List.cons_append, fillPieces, fillPieces, ih]
          cases fillPieces inside x with
          | none => rfl
          | some a =>
              cases fillPieces inside y with
              | none => rfl
              | some b => simp
      | source s =>
          rw [List.cons_append, fillPieces, fillPieces, ih]
          cases inside s with
          | none => rfl
          | some c =>
              cases fillPieces inside x with
              | none => rfl
              | some a =>
                  cases fillPieces inside y with
                  | none => rfl
                  | some b => simp

/-- How the rendering of a span ends: it is not empty when the span is not, and it ends in no name
when no name reaches up to the end of the span. -/
structure Marked.Ends (t : Text) (s : Span) (m : Marked) : Prop where
  nonempty : s.start < s.stop → m.text ≠ []
  last : t.nameBefore s.stop = false → m.text.endsInName = false

/-- What is known of the spans that a plan copies once they are rendered. -/
structure Rendered (t : Text) (ps : List Plan) (a : Span) (r : Marked) : Prop where
  ends : r.Ends t a
  faithful : r.Faithful t ps a.start
  inside : ∀ l ∈ r.leads, l.1 ∈ ps ∧ l.1.span.within a = true

section Body

variable {inside : Span → Option Marked} {q : Plan} {b : Marked}

theorem fillPieces_opening {inside : Span → Option Text} {rest : List Piece} {w : Text}
    (h : fillPieces inside (q.opening :: rest) = some w) : ∃ v, w = q.helper.name ++ '(' :: v := by
  rw [opening, fillPieces] at h
  obtain ⟨v, -, rfl⟩ := Option.map_eq_some_iff.mp h
  exact ⟨v, by simp⟩

/-- A plan starts with its helper. -/
theorem body_opens (hq : q.Spaced t ps) (h : markPieces inside q.pieces = some b) :
    ∃ v, b.text = q.helper.name ++ '(' :: v := by
  have htext := congrArg (Option.map Marked.text) h
  obtain ⟨rest, hrest⟩ := hq.opens
  rw [markPieces_text, hrest] at htext
  exact fillPieces_opening htext

/-- A plan does not end in a name. -/
theorem body_closes (hq : q.Spaced t ps)
    (hin : ∀ a ∈ q.sources, ∀ r, inside a = some r → Rendered t ps a r)
    (h : markPieces inside q.pieces = some b) : b.text.endsInName = false := by
  have htext := congrArg (Option.map Marked.text) h
  rw [markPieces_text] at htext
  rcases hq.closes with hlast | ⟨a, hlast, hlt, hbefore⟩
  · obtain ⟨before, hsplit⟩ := List.getLast?_eq_some_iff.mp hlast
    rw [hsplit, fillPieces_append] at htext
    obtain ⟨w, -, htext⟩ := Option.bind_eq_some_iff.mp htext
    simp only [fillPieces, Option.map_some, Option.some.injEq] at htext
    rw [← htext, Text.endsInName_append w (by simp)]
    rfl
  · obtain ⟨before, hsplit⟩ := List.getLast?_eq_some_iff.mp hlast
    have ha : a ∈ q.sources := mem_sources_of_split hsplit
    rw [hsplit, fillPieces_append] at htext
    obtain ⟨w, -, htext⟩ := Option.bind_eq_some_iff.mp htext
    cases hr : inside a with
    | none => simp [fillPieces, hr] at htext
    | some r =>
        have hends := (hin a ha r hr).ends
        simp only [fillPieces, hr, Option.map_some, Option.bind_eq_bind, Option.bind_some,
          Option.pure_def, List.append_nil, Option.some.injEq] at htext
        rw [← htext, Text.endsInName_append w (hends.nonempty hlt)]
        exact hends.last hbefore

/-- A plan that starts with the first span of another one opens the argument of its helper. -/
theorem opensArgument_of_first (hfits : q.Fits) {a : Span} {after : List Piece}
    (hsplit : q.pieces = [q.opening] ++ .source a :: after) {p : Plan}
    (hpa : p.span.within a = true) (hstart : p.span.start = a.start) : p.OpensArgument q := by
  have ha : a ∈ q.sources := mem_sources_of_split hsplit
  refine ⟨⟨within_trans hpa (hfits.inside a ha).1, ?_⟩, ?_⟩
  · intro heq
    rw [heq, hfits.not_within ha] at hpa
    exact Bool.noConfusion hpa
  · rw [sources, hsplit, hstart]
    rfl

/-- The text in front of a cut ends in no name when no name reaches up to the cut. -/
theorem endsInName_front {c : Span} (hc : t.nameBefore c.stop = false)
    (hin : ∀ r, inside c = some r → Rendered t ps c r) {w : Text}
    (hw : fillPieces (fun a => (inside a).map Marked.text) [q.opening, .source c] = some w) :
    w.endsInName = false := by
  cases hr : inside c with
  | none => simp [opening, fillPieces, hr] at hw
  | some r =>
      simp only [opening, fillPieces, hr, Option.map_some, Option.bind_eq_bind,
        Option.bind_some, Option.pure_def, List.append_nil, Option.some.injEq] at hw
      rw [← hw]
      by_cases hnil : r.text = []
      · rw [hnil, List.append_nil, Text.endsInName_append _ (by simp)]
        rfl
      · rw [Text.endsInName_append _ hnil]
        exact (hin r hr).ends.last hc

/-- **A plan with which a copied span starts** is not fused, and what is written before it ends in no
name: it opens the argument, or stands behind a cut that no name reaches up to. -/
theorem Spaced.not_fuses (hq : q.Spaced t ps) (hfits : q.Fits) (hqp : q ∈ ps)
    (hin : ∀ a ∈ q.sources, ∀ r, inside a = some r → Rendered t ps a r)
    {before after : List Piece} {a : Span} (hsplit : q.pieces = before ++ .source a :: after) {w : Text}
    (hw : fillPieces (fun a => (inside a).map Marked.text) before = some w) {p : Plan} (hp : p ∈ ps)
    (hpa : p.span.within a = true) (hstart : p.span.start = a.start) :
    w.endsInName = false ∧ ¬ Fuses t ps p := by
  rcases hq.lead before a after hsplit p hp hpa hstart with rfl | ⟨hbefore, c, rfl, hc⟩
  · constructor
    · simp only [opening, fillPieces, Option.map_some, List.append_nil, Option.some.injEq] at hw
      rw [← hw, Text.endsInName_append _ (by simp)]
      rfl
    · rintro ⟨-, hnone⟩
      exact hnone q hqp (opensArgument_of_first hfits hsplit hpa hstart)
  · have hcs : c ∈ q.sources := by
      rw [sources, hsplit]
      simp [Piece.span?]
    refine ⟨endsInName_front hc (hin c hcs) hw, ?_⟩
    rintro ⟨hname, -⟩
    rw [hstart, hbefore] at hname
    exact Bool.noConfusion hname

/-- What stands in place of the plan `q`: it starts with the helper of `q` and ends in no name, and
each helper inside it stands behind that of `q` and is fused with the text before it exactly when its
plan says so. -/
structure Marked.Replaces (t : Text) (ps : List Plan) (q : Plan) (b : Marked) : Prop where
  opens : ∃ v, b.text = q.helper.name ++ '(' :: v
  closes : b.text.endsInName = false
  behind : ∀ l ∈ b.leads, l.2 ≠ []
  written : ∀ l ∈ b.leads, ∃ v, b.text = l.2 ++ (l.1.helper.name ++ '(' :: v)
  fused : ∀ l ∈ b.leads, (l.2.endsInName = true ↔ Fuses t ps l.1)

theorem Marked.Replaces.ne_nil (h : b.Replaces t ps q) : b.text ≠ [] := by
  obtain ⟨v, hv⟩ := h.opens
  simp [hv]

/-- **The template of a plan stands in its place.** -/
theorem body_replaces (hfits : q.Fits) (hqp : q ∈ ps) (hq : q.Spaced t ps)
    (hin : ∀ a ∈ q.sources, ∀ r, inside a = some r → Rendered t ps a r)
    (h : markPieces inside q.pieces = some b) : b.Replaces t ps q := by
  have hnotes : ∀ l ∈ b.leads, l.2 ≠ [] ∧ (∃ v, b.text = l.2 ++ (l.1.helper.name ++ '(' :: v)) ∧
      (l.2.endsInName = true ↔ Fuses t ps l.1) := by
    intro l hl
    obtain ⟨before, a, after, w, r, u, v, hsplit, hw, hr, hu, hlu, htext⟩ := mem_markPieces h hl
    have hrendered := hin a (mem_sources_of_split hsplit) r hr
    obtain ⟨hlp, hla⟩ := hrendered.inside _ hu
    -- the pieces in front of the copied span start with the helper of `q`
    have hne : w ≠ [] := by
      obtain ⟨front, rfl⟩ := hq.exists_front hsplit
      obtain ⟨w', rfl⟩ := fillPieces_opening hw
      simp
    rw [hlu]
    refine ⟨by simp [hne], ?_, ?_⟩
    · obtain ⟨v', hv'⟩ := hrendered.faithful.written _ hu
      exact ⟨v' ++ v, by simp [htext, hv']⟩
    · by_cases hnil : u = []
      · -- the helper is written first in the copied span
        subst hnil
        obtain ⟨hends, hfuses⟩ := hq.not_fuses hfits hqp hin hsplit hw hlp hla
          (hrendered.faithful.flush _ hu rfl)
        simp [hends, hfuses]
      · rw [Text.endsInName_append w hnil]
        exact hrendered.faithful.fused _ hu hnil
  exact ⟨body_opens hq h, body_closes hq hin h, fun l hl => (hnotes l hl).1,
    fun l hl => (hnotes l hl).2.1, fun l hl => (hnotes l hl).2.2⟩

end Body

/-! ## What is written before a helper in a span -/

/-- The source between two offsets ends as the source does in front of the second one. -/
theorem endsInName_slice {a b : Nat} {gap : Text} (h : t.slice? a b = some gap) (hne : gap ≠ []) :
    gap.endsInName = t.nameBefore b := by
  obtain ⟨u, v, rfl, rfl, rfl⟩ := Text.slice?_eq_some_iff.mp h
  have hfrom : Text.From (u ++ gap ++ v) (Text.size u) (gap ++ v) := ⟨u, by simp, rfl⟩
  exact (hfrom.nameBefore hne).symm

theorem size_slice {a b : Nat} {gap : Text} (h : t.slice? a b = some gap) :
    a + Text.size gap = b := by
  obtain ⟨u, v, -, rfl, hb⟩ := Text.slice?_eq_some_iff.mp h
  exact hb

/-- The notes made when a plan is carried out behind a gap: its own, those in its template and those
behind it. -/
theorem mem_leads_cases {p : Plan} {gap text : Text} {body rest : List (Plan × Text)}
    {l : Plan × Text} (h : l ∈ behind gap ((p, []) :: body ++ behind text rest)) :
    (l.1 = p ∧ l.2 = gap) ∨ (∃ u, (l.1, u) ∈ body ∧ l.2 = gap ++ u) ∨
      ∃ u, (l.1, u) ∈ rest ∧ l.2 = gap ++ (text ++ u) := by
  obtain ⟨u, hu, hlu⟩ := mem_behind h
  rcases List.mem_append.mp hu with hu | hu
  · rcases List.mem_cons.mp hu with hu | hu
    · rw [Prod.mk.injEq] at hu
      exact Or.inl ⟨hu.1, by rw [hlu, hu.2, List.append_nil]⟩
    · exact Or.inr (Or.inl ⟨u, hu, hlu⟩)
  · obtain ⟨x, hx, hux⟩ := mem_behind hu
    simp only at hux
    exact Or.inr (Or.inr ⟨x, hx, by rw [hlu, hux]⟩)

/-- The source from an offset on ends as the source does. -/
theorem Marked.ends_gap {a b : Nat} {gap : Text} (h : t.slice? a b = some gap) :
    Marked.Ends t ⟨a, b⟩ ⟨gap, []⟩ where
  nonempty := by
    rintro hlt rfl
    have hsize := size_slice h
    simp only [Text.size_nil] at hlt hsize
    omega
  last := by
    intro hlast
    by_cases hnil : gap = []
    · rw [hnil]
      rfl
    · exact (endsInName_slice h hnil).trans hlast

namespace Marked.Replaces

variable {p : Plan} {b rest : Marked} {gap : Text} {cursor : Nat}

/-- **One step of a scan**: behind a gap a plan is carried out, and the scan goes on behind the plan. -/
theorem faithful (h : b.Replaces t ps p) (hp : p.Spaced t ps)
    (hgap : t.slice? cursor p.span.start = some gap)
    (hfree : cursor < p.span.start → ∀ q ∈ ps, ¬ p.OpensArgument q)
    (hrest : rest.Faithful t ps p.span.stop) :
    Marked.Faithful t ps cursor ⟨gap ++ (b.text ++ rest.text),
      Plan.behind gap ((p, []) :: b.leads ++ Plan.behind b.text rest.leads)⟩ := by
  have hsize := size_slice hgap
  refine ⟨?_, ?_, ?_⟩
  · intro l hl
    rcases mem_leads_cases hl with ⟨h₁, h₂⟩ | ⟨u, hu, h₂⟩ | ⟨u, hu, h₂⟩
    · obtain ⟨v, hv⟩ := h.opens
      exact ⟨v ++ rest.text, by simp [h₁, h₂, hv]⟩
    · obtain ⟨v, hv⟩ := h.written _ hu
      exact ⟨v ++ rest.text, by simp [h₂, hv]⟩
    · obtain ⟨v, hv⟩ := hrest.written _ hu
      exact ⟨v, by simp [h₂, hv]⟩
  · -- with nothing before it the helper is that of `p`, and there is no gap
    intro l hl hnil
    rcases mem_leads_cases hl with ⟨h₁, h₂⟩ | ⟨u, hu, h₂⟩ | ⟨u, hu, h₂⟩
    · rw [h₂] at hnil
      rw [hnil, Text.size_nil] at hsize
      rw [h₁]
      omega
    · rw [h₂, List.append_eq_nil_iff] at hnil
      exact absurd hnil.2 (h.behind _ hu)
    · rw [h₂, List.append_eq_nil_iff, List.append_eq_nil_iff] at hnil
      exact absurd hnil.2.1 h.ne_nil
  · intro l hl hnil
    rcases mem_leads_cases hl with ⟨h₁, h₂⟩ | ⟨u, hu, h₂⟩ | ⟨u, hu, h₂⟩
    · rw [h₂] at hnil
      have hpos := Text.size_pos hnil
      rw [h₁, h₂, endsInName_slice hgap hnil]
      exact ⟨fun hname => ⟨hname, hfree (by omega)⟩, And.left⟩
    · rw [h₂, Text.endsInName_append gap (h.behind _ hu)]
      exact h.fused _ hu
    · by_cases hunil : u = []
      · -- the plan starts where `p` stops, and `p` does not end in a name
        have hstart := hrest.flush _ hu hunil
        rw [h₂, hunil, List.append_nil, Text.endsInName_append gap h.ne_nil, h.closes]
        refine iff_of_false Bool.false_ne_true ?_
        rintro ⟨hname, -⟩
        rw [hstart, hp.stop] at hname
        exact Bool.noConfusion hname
      · rw [h₂, Text.endsInName_append gap (by simp [hunil]), Text.endsInName_append b.text hunil]
        exact hrest.fused _ hu hunil

theorem ends (h : b.Replaces t ps p) {stop : Nat} (hrest : rest.Ends t ⟨p.span.stop, stop⟩)
    (leads : List (Plan × Text)) :
    Marked.Ends t ⟨cursor, stop⟩ ⟨gap ++ (b.text ++ rest.text), leads⟩ where
  nonempty := by
    intro _
    simp [h.ne_nil]
  last := by
    intro hlast
    by_cases hnil : rest.text = []
    · rw [hnil, List.append_nil, Text.endsInName_append gap h.ne_nil]
      exact h.closes
    · rw [Text.endsInName_append gap (by simp [hnil]), Text.endsInName_append b.text hnil]
      exact hrest.last hlast

end Marked.Replaces

/-- **The scan of a span**: from each place on where it goes on copying, helpers are fused with the
text before them as their plans say. -/
theorem markFrom_faithful (hnested : Nested ps) (hspaced : ∀ q ∈ ps, q.Spaced t ps)
    {inside : Span → Option Marked} {s : Span} {cursor : Nat} {qs : List Plan} {m : Marked}
    (hc : s.start ≤ cursor)
    (hqs : ∀ q ∈ picks s.stop cursor qs, q ∈ ps ∧
      ∀ a ∈ q.sources, ∀ r, inside a = some r → Rendered t ps a r)
    (hfree : ∀ p ∈ picks s.stop cursor qs, s.start < p.span.start →
      ∀ q ∈ ps, ¬ p.OpensArgument q)
    (h : markFrom inside t s.stop cursor qs = some m) :
    m.Faithful t ps cursor ∧ m.Ends t ⟨cursor, s.stop⟩ := by
  induction qs generalizing cursor m with
  | nil =>
      obtain ⟨gap, hgap, rfl⟩ := Option.map_eq_some_iff.mp h
      exact ⟨⟨by simp, by simp, by simp⟩, Marked.ends_gap hgap⟩
  | cons p qs ih =>
      rw [markFrom] at h
      rw [picks] at hqs hfree
      by_cases hskip : (p.span.start < cursor || s.stop < p.span.stop) = true
      · rw [if_pos hskip] at h hqs hfree
        exact ih hc hqs hfree h
      · rw [if_neg hskip] at h hqs hfree
        simp only [Option.bind_eq_bind, Option.bind_eq_some_iff, Option.pure_def,
          Option.some.injEq] at h
        obtain ⟨gap, hgap, b, hb, rest, hrest, rfl⟩ := h
        simp only [Bool.or_eq_true, decide_eq_true_eq, not_or, Nat.not_lt] at hskip
        obtain ⟨hp, hin⟩ := hqs p List.mem_cons_self
        have hlt := hnested.nonempty p hp
        obtain ⟨hfaithful, hends⟩ := ih (show s.start ≤ p.span.stop by omega)
          (fun q hq => hqs q (List.mem_cons_of_mem p hq))
          (fun q hq => hfree q (List.mem_cons_of_mem p hq)) hrest
        have hbody := body_replaces (hnested.fits p hp) hp (hspaced p hp) hin hb
        exact ⟨hbody.faithful (hspaced p hp) hgap
          (fun hlt => hfree p List.mem_cons_self (by omega)) hfaithful, hbody.ends hends _⟩

/-- **Every span is rendered faithfully.** -/
theorem mark_rendered (hnested : Nested ps) (hspaced : ∀ q ∈ ps, q.Spaced t ps) {fuel : Nat}
    {s : Span} (hs : Surrounds ps s) {m : Marked} (h : mark t ps fuel s = some m) :
    Rendered t ps s m := by
  induction fuel generalizing s m with
  | zero => cases h
  | succ fuel ih =>
      have hpicks : ∀ q ∈ picks s.stop s.start ps, q ∈ outermost (inSpan ps s) := by
        intro q hq
        rw [picks_eq_outermost hnested] at hq
        exact hq
      have hinside : ∀ q ∈ picks s.stop s.start ps, q ∈ ps ∧
          ∀ a ∈ q.sources, ∀ r, mark t ps fuel a = some r → Rendered t ps a r := by
        intro q hq
        have hout := hpicks q hq
        exact ⟨(mem_inSpan.mp (mem_outermost.mp hout).1).1,
          fun a ha r hr => ih (hs.source hnested hout ha) hr⟩
      obtain ⟨hfaithful, hends⟩ := markFrom_faithful hnested hspaced (Nat.le_refl _) hinside
        (fun p hp hlt => hs.not_opens hnested (hpicks p hp) hlt) h
      refine ⟨hends, hfaithful, ?_⟩
      intro l hl
      -- the plans noted are the ones carried out
      have hrender : render t ps (fuel + 1) s = some m.rendering := by
        rw [← mark_rendering, h]
        rfl
      have hmem : l.1 ∈ kept (inSpan ps s) := by
        rw [← render_done hnested hrender]
        exact List.mem_map_of_mem hl
      exact mem_kept_inSpan hmem

end Plan

/-! ## Helpers in a converted text -/

namespace SourceFile

/-- The plans of a file in the order in which they are carried out, each with the text that is
written before its helper. -/
def leads? (f : SourceFile) : Option (List (Plan × Text)) :=
  (Plan.mark f.text f.plans (f.plans.length + 1) ⟨0, f.text.size⟩).map Plan.Marked.leads

/-- Every plan lies inside the whole text. -/
theorem plans_surround {f : SourceFile} (h : f.WellFormed) : Plan.Surrounds f.plans ⟨0, f.text.size⟩ := by
  intro q hq
  rw [← inSpan_plans h] at hq
  exact Or.inl (Plan.mem_inSpan.mp hq).2

/-- **When a helper is fused with the text before it.** In the conversion of a parsed file every
plan that is carried out has its helper, with the parenthesis behind it, at a place of its own. The
text before that place ends in a name exactly when in the source a name reaches up to the site and
the site does not open the argument of another helper. -/
theorem helper_fuses_iff {d : Dialect} {t : Text} {f : SourceFile} (h : parse? d t = .ok f) :
    ∃ c leads, f.conversion? = some c ∧ f.leads? = some leads ∧
      leads.map Prod.fst = Plan.kept f.plans ∧
      ∀ l ∈ leads, (∃ v, c.text = l.2 ++ (l.1.helper.name ++ '(' :: v)) ∧
        (l.2.endsInName = true ↔
          t.nameBefore l.1.span.start = true ∧ ∀ q ∈ f.plans, ¬ l.1.OpensArgument q) := by
  have hwf := parse?_wellFormed h
  have hnested := plans_nested hwf.tree
  have hspaced : ∀ q ∈ f.plans, q.Spaced f.text f.plans := fun q hq =>
    plans_spaced hwf (parse?_spaced h) hq
  obtain ⟨r, hr, hc⟩ := exists_conversion hwf
  have hmark := Plan.mark_rendering f.text f.plans (f.plans.length + 1) ⟨0, f.text.size⟩
  rw [show Plan.render f.text f.plans (f.plans.length + 1) ⟨0, f.text.size⟩ = some r from hr]
    at hmark
  obtain ⟨m, hm, rfl⟩ := Option.map_eq_some_iff.mp hmark
  have hfaithful := (Plan.mark_rendered hnested hspaced (plans_surround hwf) hm).faithful
  refine ⟨_, m.leads, hc, ?_, ?_, ?_⟩
  · rw [leads?, hm]
    rfl
  · have hdone := Plan.render_done hnested hr
    rw [inSpan_plans hwf] at hdone
    exact hdone
  · intro l hl
    refine ⟨hfaithful.written l hl, ?_⟩
    rw [← parse?_text h]
    by_cases hnil : l.2 = []
    · -- nothing is written before a site at the start of the text
      have hstart := hfaithful.flush l hl hnil
      rw [hnil, hstart]
      constructor
      · intro hname
        exact Bool.noConfusion hname
      · rintro ⟨hname, -⟩
        exact Bool.noConfusion ((Text.nameBefore_zero f.text).symm.trans hname)
    · exact hfaithful.fused l hl hnil

set_option maxRecDepth 100000 in
/-- Two sites behind a word, of which the inner one opens the argument of the outer one's helper. -/
theorem outer_helper_fuses_with_word :
    ∃ f, parse? .typeScript "return[a].toPromise().toPromise();".toList = .ok f ∧
      ∃ c p q, f.conversion? = some c ∧
        c.text = "returnlastValueFrom(lastValueFrom([a]));".toList ∧
        f.leads? = some [(p, "return".toList), (q, "returnlastValueFrom(".toList)] ∧
        (∀ r ∈ f.plans, ¬ p.OpensArgument r) ∧ ∃ r ∈ f.plans, q.OpensArgument r := by
  obtain ⟨f, hf, htext, hleads, hbefore⟩ := exists_of_parse
    (d := .typeScript) (t := "return[a].toPromise().toPromise();".toList)
    (fun f => f.conversion?.map Conversion.text =
        some "returnlastValueFrom(lastValueFrom([a]));".toList ∧
      f.leads?.map (List.map Prod.snd) =
        some ["return".toList, "returnlastValueFrom(".toList] ∧
      ∀ p ∈ f.plans, f.text.nameBefore p.span.start = true)
    (by decide +kernel) fun f hP => hP
  obtain ⟨c, leads, hc, hl, hkept, hiff⟩ := helper_fuses_iff hf
  rw [hl, Option.map_some, Option.some.injEq] at hleads
  obtain ⟨x, xs, rfl, hx, hxs⟩ := List.map_eq_cons_iff.mp hleads
  obtain ⟨y, ys, rfl, hy, hys⟩ := List.map_eq_cons_iff.mp hxs
  obtain rfl := List.map_eq_nil_iff.mp hys
  have hfused : x.2.endsInName = true := by rw [hx]; decide
  have hfree : ¬ y.2.endsInName = true := by rw [hy]; decide
  have hy' : y.1 ∈ f.plans := by
    have hmem : y.1 ∈ Plan.kept f.plans := by simp [← hkept]
    exact (Plan.mem_kept.mp hmem).1
  refine ⟨f, hf, c, x.1, y.1, hc, ?_, ?_, ((hiff x (by simp)).2.mp hfused).2, ?_⟩
  · rw [hc, Option.map_some, Option.some.injEq] at htext
    exact htext
  · rw [hl, ← hx, ← hy]
  · by_contra hnone
    refine hfree ((hiff y (by simp)).2.mpr ⟨?_, fun r hr hopens => hnone ⟨r, hr, hopens⟩⟩)
    rw [← parse?_text hf]
    exact hbefore y.1 hy'

set_option maxRecDepth 100000 in
/-- A helper that becomes part of the word before it. -/
theorem helper_continues_return :
    ∃ f, parse? .typeScript "function f() \x7b return(a).toPromise() \x7d\n".toList = .ok f ∧
      f.conversion?.map Conversion.text =
        some "function f() \x7b returnlastValueFrom((a)) \x7d\n".toList ∧
      f.leads?.map (List.map Prod.snd) = some ["function f() \x7b return".toList] ∧
      Text.endsInName "function f() \x7b return".toList = true :=
  exists_of_parse
    (fun f => f.conversion?.map Conversion.text =
        some "function f() \x7b returnlastValueFrom((a)) \x7d\n".toList ∧
      f.leads?.map (List.map Prod.snd) = some ["function f() \x7b return".toList] ∧
      Text.endsInName "function f() \x7b return".toList = true)
    (by decide +kernel) fun _ hP => hP

end SourceFile

end Promisify
