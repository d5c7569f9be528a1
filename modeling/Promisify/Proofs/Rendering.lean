import Mathlib.Data.List.Sort
import Promisify.Proofs.Plans

set_option autoImplicit false

/-! # Carrying out nested plans

One scan with a moving cursor over all plans picks the plans to carry out in a span, and every span
that a picked plan copies is scanned again. For nested plans the scan picks exactly the outermost
plans inside the span (`picks_eq_outermost`). Everything else follows from that:

* the plans carried out are the kept ones (`render_done`), in the order in which they are taken;
* the text is the source with each outermost plan's template in its place (`render_text`);
* only the bytes of the span and the plans inside it matter (`render_congr`).

The depth of the recursion is at most the number of plans inside the span, because a plan never lies
inside a span it copies itself (`length_inSpan_lt`).
-/

namespace Promisify

namespace Plan

/-! ## Plans inside a span -/

/-- The plans that lie inside a span. -/
def inSpan (ps : List Plan) (s : Span) : List Plan := ps.filter fun p => p.span.within s

/-- Whether no plan of the list has `p` strictly inside it. -/
def isOutermost (ps : List Plan) (p : Plan) : Bool := ps.all fun q => !decide (p.span.inside q.span)

/-- The plans that lie inside no other plan of the list. -/
def outermost (ps : List Plan) : List Plan := ps.filter (isOutermost ps)

/-- Whether every plan that has `p` strictly inside it copies a span around `p`. -/
def isKept (ps : List Plan) (p : Plan) : Bool :=
  ps.all fun q => !decide (p.span.inside q.span) || q.sources.any fun a => p.span.within a

/-- The plans that are copied along by all plans around them. -/
def kept (ps : List Plan) : List Plan := ps.filter (isKept ps)

theorem mem_inSpan {ps : List Plan} {s : Span} {p : Plan} :
    p ∈ inSpan ps s ↔ p ∈ ps ∧ p.span.within s = true := List.mem_filter

theorem mem_outermost {ps : List Plan} {p : Plan} :
    p ∈ outermost ps ↔ p ∈ ps ∧ ∀ q ∈ ps, ¬ p.span.inside q.span := by
  simp [outermost, isOutermost]

theorem mem_kept {ps : List Plan} {p : Plan} :
    p ∈ kept ps ↔
      p ∈ ps ∧ ∀ q ∈ ps, p.span.inside q.span → ∃ a ∈ q.sources, p.span.within a = true := by
  simp [kept, isKept, Classical.or_iff_not_imp_left]

theorem within_trans {r s t : Span} (hrs : r.within s = true) (hst : s.within t = true) :
    r.within t = true := by
  rw [Span.within_iff] at *
  omega

/-- What lies inside a part of a span lies inside the span. -/
theorem inSpan_inSpan (ps : List Plan) {s a : Span} (ha : a.within s = true) :
    inSpan (inSpan ps s) a = inSpan ps a := by
  unfold inSpan
  rw [List.filter_filter]
  apply List.filter_congr
  intro p _
  cases hp : p.span.within a with
  | false => rfl
  | true => simp [within_trans hp ha]

/-- Parts of a nested list with the same plans are the same. -/
theorem Nested.eq_of_sublist {ps qs rs : List Plan} (h : Nested ps) (hq : qs.Sublist ps)
    (hr : rs.Sublist ps) (hmem : ∀ p, p ∈ qs ↔ p ∈ rs) : qs = rs :=
  (h.precedes_pairwise.sublist hq).eq_of_mem_iff (h.precedes_pairwise.sublist hr) hmem

theorem Nested.restrict {ps : List Plan} (h : Nested ps) (s : Span) : Nested (inSpan ps s) :=
  h.filter _

/-- A plan does not lie inside a span it copies. -/
theorem Fits.not_within {p : Plan} (h : p.Fits) {a : Span} (ha : a ∈ p.sources) :
    p.span.within a = false := by
  have hin := h.inside a ha
  have hw := Span.within_iff.mp hin.1
  cases hp : p.span.within a with
  | false => rfl
  | true =>
      have hw' := Span.within_iff.mp hp
      exfalso
      apply hin.2
      cases ha' : a
      cases hp' : p.span
      rw [ha', hp'] at hw hw'
      simp only [Span.mk.injEq] at hw hw' ⊢
      omega

/-- Fewer plans lie inside a span that a plan copies than around it. -/
theorem length_inSpan_lt {ps : List Plan} {p : Plan} (hp : p ∈ ps) (hfit : p.Fits) {a : Span}
    (ha : a ∈ p.sources) : (inSpan ps a).length < ps.length := by
  apply List.length_filter_lt_length_iff_exists.mpr
  exact ⟨p, hp, by simp [hfit.not_within ha]⟩

/-! ## The scan -/

/-- The plans that the scan from `cursor` to `stop` carries out. -/
def picks (stop : Nat) : Nat → List Plan → List Plan
  | _, [] => []
  | cursor, p :: ps =>
      if p.span.start < cursor || stop < p.span.stop then picks stop cursor ps
      else p :: picks stop p.span.stop ps

theorem skip_iff {p : Plan} {cursor stop : Nat} :
    (p.span.start < cursor || stop < p.span.stop) = true ↔
      p.span.within ⟨cursor, stop⟩ = false := by
  simp only [Bool.or_eq_true, decide_eq_true_eq, Span.within, Bool.and_eq_false_iff,
    decide_eq_false_iff_not]
  omega

/-- After the first plan of a span the outermost ones are those behind it. -/
theorem outermost_cons {ps : List Plan} {p : Plan} (h : Nested (p :: ps)) {cursor stop : Nat}
    (hp : p.span.within ⟨cursor, stop⟩ = true) :
    outermost (inSpan (p :: ps) ⟨cursor, stop⟩) =
      p :: outermost (inSpan ps ⟨p.span.stop, stop⟩) := by
  obtain ⟨hfirst, -⟩ := List.pairwise_cons.mp h.ordered
  have hne := h.nonempty p (by simp)
  have hpw := Span.within_iff.mp hp
  refine h.eq_of_sublist (List.filter_sublist.trans List.filter_sublist)
    ((List.filter_sublist.trans List.filter_sublist).cons_cons p) ?_
  intro r
  simp only [mem_outermost, mem_inSpan, List.mem_cons, Span.within_iff] at hpw ⊢
  constructor
  · rintro ⟨⟨rfl | hr, hrw⟩, hmax⟩
    · exact Or.inl rfl
    · right
      rcases hfirst r hr with hin | hafter
      · exact absurd hin.inside (hmax p ⟨Or.inl rfl, hpw⟩)
      · refine ⟨⟨hr, hafter, hrw.2⟩, ?_⟩
        rintro q ⟨hq, hqw⟩
        exact hmax q ⟨Or.inr hq, by omega, hqw.2⟩
  · rintro (rfl | ⟨⟨hr, hrw⟩, hmax⟩)
    · refine ⟨⟨Or.inl rfl, hpw⟩, ?_⟩
      rintro q ⟨rfl | hq, -⟩ hin
      · exact hin.2 rfl
      · have hw := Span.within_iff.mp hin.1
        rcases hfirst q hq with hqr | hafter
        · exact Span.inside_asymm hqr.inside hin
        · omega
    · have hr' := h.nonempty r (by simp [hr])
      refine ⟨⟨Or.inr hr, by omega, hrw.2⟩, ?_⟩
      rintro q ⟨rfl | hq, hqw⟩ hin
      · have hw := Span.within_iff.mp hin.1
        omega
      · -- a plan around one that lies behind the first lies behind the first itself
        have hw := Span.within_iff.mp hin.1
        rcases hfirst q hq with hqp | hafter
        · have hw' := Span.within_iff.mp hqp.inside.1
          omega
        · exact hmax q ⟨hq, hafter, hqw.2⟩ hin

/-- **The scan picks the outermost plans of the span.** -/
theorem picks_eq_outermost {ps : List Plan} (h : Nested ps) (cursor stop : Nat) :
    picks stop cursor ps = outermost (inSpan ps ⟨cursor, stop⟩) := by
  induction ps generalizing cursor with
  | nil => rfl
  | cons p ps ih =>
      rw [picks]
      by_cases hskip : (p.span.start < cursor || stop < p.span.stop) = true
      · rw [if_pos hskip, ih h.tail]
        have := skip_iff.mp hskip
        simp [inSpan, this]
      · rw [if_neg hskip, ih h.tail, outermost_cons h]
        rw [skip_iff, Bool.not_eq_false] at hskip
        exact hskip

/-- Outermost plans are apart, in order. -/
theorem Nested.outermost_apart {ps : List Plan} (h : Nested ps) :
    (outermost ps).Pairwise fun p q => p.span.stop ≤ q.span.start := by
  have hsub : (outermost ps).Sublist ps := List.filter_sublist
  refine (h.ordered.sublist hsub).imp_of_mem ?_
  intro p q hp hq hpq
  rcases hpq with hin | hafter
  · exact absurd hin.inside ((mem_outermost.mp hq).2 p (hsub.subset hp))
  · exact hafter

/-- Every plan lies inside an outermost one, or is one. -/
theorem Nested.exists_outermost {ps : List Plan} (h : Nested ps) {p : Plan} (hp : p ∈ ps) :
    ∃ q ∈ outermost ps, p = q ∨ q.Holds p := by
  -- the first plan around `p` is the outermost one
  have hsome : (ps.find? fun q => p.span.within q.span).isSome = true := by
    rw [List.find?_isSome]
    exact ⟨p, hp, by simp [Span.within]⟩
  obtain ⟨q, hfind⟩ := Option.isSome_iff_exists.mp hsome
  obtain ⟨hpq, before, after, hsplit, hnone⟩ := List.find?_eq_some_iff_append.mp hfind
  have hq : q ∈ ps := by simp [hsplit]
  refine ⟨q, mem_outermost.mpr ⟨hq, ?_⟩, ?_⟩
  · intro r hr hin
    rw [hsplit] at hr
    rcases List.mem_append.mp hr with hr | hr
    · have := hnone r hr
      simp [within_trans hpq hin.1] at this
    · rcases List.mem_cons.mp hr with rfl | hr
      · exact hin.2 rfl
      · have hord := h.ordered
        rw [hsplit, List.pairwise_append] at hord
        have hq' := h.nonempty q hq
        have hw := Span.within_iff.mp hin.1
        rcases (List.pairwise_cons.mp hord.2.1).1 r hr with hqr | hafter
        · exact Span.inside_asymm hqr.inside hin
        · omega
  · rcases h.trichotomy hq hp with hqp | hqp | hqp | hqp
    · exact Or.inl hqp.symm
    · exact Or.inr hqp
    · have hqp' : p.span = q.span := by
        have h₁ := Span.within_iff.mp hqp.inside.1
        have h₂ := Span.within_iff.mp hpq
        cases hp' : p.span
        cases hq' : q.span
        rw [hp', hq'] at h₁ h₂
        simp only [Span.mk.injEq] at h₁ h₂ ⊢
        omega
      exact absurd hqp'.symm hqp.inside.2
    · have h₁ := Span.within_iff.mp hpq
      have h₂ := h.nonempty p hp
      unfold Span.apart at hqp
      omega

/-! ## The plans that are carried out -/

/-- A plan that lies inside a copied span of an outermost plan is kept exactly when it is kept there. -/
theorem Nested.mem_kept_iff {ps : List Plan} (h : Nested ps) {p : Plan} :
    p ∈ kept ps ↔ ∃ q ∈ outermost ps, p = q ∨ ∃ a ∈ q.sources, p ∈ kept (inSpan ps a) := by
  constructor
  · intro hp
    obtain ⟨hpm, hkeep⟩ := mem_kept.mp hp
    obtain ⟨q, hq, rfl | hin⟩ := h.exists_outermost hpm
    · exact ⟨p, hq, Or.inl rfl⟩
    · obtain ⟨a, ha, hpa⟩ := hkeep q (mem_outermost.mp hq).1 hin.inside
      refine ⟨q, hq, Or.inr ⟨a, ha, mem_kept.mpr ⟨mem_inSpan.mpr ⟨hpm, hpa⟩, ?_⟩⟩⟩
      intro r hr
      exact hkeep r (mem_inSpan.mp hr).1
  · rintro ⟨q, hq, rfl | ⟨a, ha, hp⟩⟩
    · refine mem_kept.mpr ⟨(mem_outermost.mp hq).1, ?_⟩
      intro r hr hin
      exact absurd hin ((mem_outermost.mp hq).2 r hr)
    · obtain ⟨hpm, hkeep⟩ := mem_kept.mp hp
      obtain ⟨hps, hpa⟩ := mem_inSpan.mp hpm
      have hqs := (mem_outermost.mp hq).1
      have hp' := h.nonempty p hps
      have hpw := Span.within_iff.mp hpa
      refine mem_kept.mpr ⟨hps, ?_⟩
      intro r hr hin
      have hw := Span.within_iff.mp hin.1
      rcases h.trichotomy hqs hr with rfl | hqr | hrq | hapart
      · exact ⟨a, ha, hpa⟩
      · -- a plan around `p` inside `q` meets the span `a`, so it lies inside it
        rcases hqr.clear a ha with hra | hra
        · exact hkeep r (mem_inSpan.mpr ⟨hr, hra⟩) hin
        · unfold Span.apart at hra
          omega
      · exact absurd hrq.inside ((mem_outermost.mp hq).2 r hr)
      · have haq := Span.within_iff.mp ((h.fits q hqs).inside a ha).1
        unfold Span.apart at hapart
        omega

/-- The plans that an outermost plan `q` carries along: itself, and the kept ones of the spans it
copies. -/
def carried (ps : List Plan) (q : Plan) : List Plan :=
  q :: q.sources.flatMap fun a => kept (inSpan ps a)

theorem mem_kept_inSpan {ps : List Plan} {a : Span} {p : Plan} (hp : p ∈ kept (inSpan ps a)) :
    p ∈ ps ∧ p.span.within a = true := mem_inSpan.mp (mem_kept.mp hp).1

/-- What a plan carries along lies inside it. -/
theorem Nested.carried_bounds {ps : List Plan} (h : Nested ps) {p q : Plan} (hq : q ∈ ps)
    (hp : p ∈ carried ps q) :
    q.span.start ≤ p.span.start ∧ p.span.start < p.span.stop ∧ p.span.stop ≤ q.span.stop := by
  rcases List.mem_cons.mp hp with rfl | hp
  · have := h.nonempty p hq
    omega
  · obtain ⟨a, ha, hpa⟩ := List.mem_flatMap.mp hp
    obtain ⟨hps, hpw⟩ := mem_kept_inSpan hpa
    have h₁ := h.nonempty p hps
    have h₂ := Span.within_iff.mp (within_trans hpw ((h.fits q hq).inside a ha).1)
    omega

/-- What a plan carries along comes in order. -/
theorem Nested.carried_pairwise {ps : List Plan} (h : Nested ps) {q : Plan} (hq : q ∈ ps) :
    (carried ps q).Pairwise precedes := by
  have hfit := h.fits q hq
  unfold carried
  rw [List.pairwise_cons, List.pairwise_flatMap]
  refine ⟨?_, ?_, ?_⟩
  · intro p hp
    obtain ⟨a, ha, hpa⟩ := List.mem_flatMap.mp hp
    obtain ⟨-, hpw⟩ := mem_kept_inSpan hpa
    apply precedes_of_inside
    refine ⟨within_trans hpw (hfit.inside a ha).1, ?_⟩
    intro heq
    rw [heq, hfit.not_within ha] at hpw
    exact Bool.noConfusion hpw
  · intro a ha
    exact (h.restrict a).precedes_pairwise.sublist List.filter_sublist
  · refine hfit.ordered.imp ?_
    intro a b hab x hx y hy
    obtain ⟨hxs, hxa⟩ := mem_kept_inSpan hx
    obtain ⟨-, hyb⟩ := mem_kept_inSpan hy
    have h₁ := Span.within_iff.mp hxa
    have h₂ := Span.within_iff.mp hyb
    have h₃ := h.nonempty x hxs
    exact Or.inl (by omega)

/-- **The kept plans, from the outside in**: each outermost plan with what it carries along. -/
theorem Nested.kept_eq {ps : List Plan} (h : Nested ps) :
    kept ps = (outermost ps).flatMap (carried ps) := by
  have hkept : (kept ps).Sublist ps := List.filter_sublist
  refine (h.precedes_pairwise.sublist hkept).eq_of_mem_iff ?_ ?_
  · rw [List.pairwise_flatMap]
    refine ⟨fun q hq => h.carried_pairwise (mem_outermost.mp hq).1, ?_⟩
    refine h.outermost_apart.imp_of_mem ?_
    intro q r hq hr hqr x hx y hy
    have h₁ := h.carried_bounds (mem_outermost.mp hq).1 hx
    have h₂ := h.carried_bounds (mem_outermost.mp hr).1 hy
    exact Or.inl (by omega)
  · intro p
    rw [h.mem_kept_iff]
    simp only [List.mem_flatMap, carried, List.mem_cons]

/-- Inside a span the plans outside it do not matter for what is carried along. -/
theorem Nested.carried_inSpan {ps : List Plan} (h : Nested ps) {s : Span} {q : Plan}
    (hq : q ∈ inSpan ps s) : carried (inSpan ps s) q = carried ps q := by
  obtain ⟨hqs, hqw⟩ := mem_inSpan.mp hq
  unfold carried
  congr 1
  apply List.flatMap_congr
  intro a ha
  rw [inSpan_inSpan ps (within_trans ((h.fits q hqs).inside a ha).1 hqw)]

theorem renderPieces_done {inside : Span → Option Rendering} {d : Span → List Plan}
    {pieces : List Piece} {r : Rendering}
    (hin : ∀ a ∈ pieces.filterMap Piece.span?, ∀ b, inside a = some b → b.done = d a)
    (h : renderPieces inside pieces = some r) :
    r.done = (pieces.filterMap Piece.span?).flatMap d := by
  induction pieces generalizing r with
  | nil =>
      cases h
      rfl
  | cons piece pieces ih =>
      cases piece with
      | text t =>
          obtain ⟨b, hb, rfl⟩ := Option.map_eq_some_iff.mp h
          have hrest : b.done = (pieces.filterMap Piece.span?).flatMap d := ih hin hb
          exact hrest
      | source a =>
          simp only [renderPieces, Option.bind_eq_bind, Option.bind_eq_some_iff, Option.pure_def,
            Option.some.injEq] at h
          obtain ⟨x, hx, y, hy, rfl⟩ := h
          have h₁ := hin a (by simp [Piece.span?]) x hx
          have h₂ := ih (fun b hb => hin b (by simp [Piece.span?] at hb ⊢; exact Or.inr hb)) hy
          simp [Rendering.append, Piece.span?, h₁, h₂]

theorem renderFrom_done {inside : Span → Option Rendering} {source : Text} {stop cursor : Nat}
    {ps : List Plan} {r : Rendering} {d : Plan → List Plan}
    (hbody : ∀ p ∈ ps, ∀ b, renderPieces inside p.pieces = some b → b.done = d p)
    (h : renderFrom inside source stop cursor ps = some r) :
    r.done = (picks stop cursor ps).flatMap fun p => p :: d p := by
  induction ps generalizing cursor r with
  | nil =>
      obtain ⟨t, -, rfl⟩ := Option.map_eq_some_iff.mp h
      rfl
  | cons p ps ih =>
      rw [renderFrom] at h
      rw [picks]
      by_cases hskip : (p.span.start < cursor || stop < p.span.stop) = true
      · rw [if_pos hskip] at h ⊢
        exact ih (fun q hq => hbody q (by simp [hq])) h
      · rw [if_neg hskip] at h ⊢
        simp only [Option.bind_eq_bind, Option.bind_eq_some_iff, Option.pure_def,
          Option.some.injEq] at h
        obtain ⟨gap, -, b, hb, rest, hrest, rfl⟩ := h
        have h₁ := hbody p (by simp) b hb
        have h₂ := ih (fun q hq => hbody q (by simp [hq])) hrest
        simp [Rendering.append, Rendering.ofText, h₁, h₂]

/-- **A span is rendered by carrying out the kept ones of the plans inside it, in order.** -/
theorem render_done {source : Text} {ps : List Plan} (h : Nested ps) {fuel : Nat} {s : Span}
    {r : Rendering} (hr : render source ps fuel s = some r) : r.done = kept (inSpan ps s) := by
  induction fuel generalizing s r with
  | zero => simp [render] at hr
  | succ fuel ih =>
      have hbody : ∀ p ∈ ps, ∀ b, renderPieces (render source ps fuel) p.pieces = some b →
          b.done = p.sources.flatMap fun a => kept (inSpan ps a) := by
        intro p hp b hb
        exact renderPieces_done (fun a ha c hc => ih hc) hb
      calc r.done
          = (picks s.stop s.start ps).flatMap (carried ps) := renderFrom_done hbody hr
        _ = (outermost (inSpan ps s)).flatMap (carried ps) := by rw [picks_eq_outermost h]
        _ = (outermost (inSpan ps s)).flatMap (carried (inSpan ps s)) := by
            apply List.flatMap_congr
            intro q hq
            exact (h.carried_inSpan (mem_outermost.mp hq).1).symm
        _ = kept (inSpan ps s) := (h.restrict s).kept_eq.symm

/-! ## The text -/

/-- The pieces of a template one after another, with copied spans rendered by `inside`. -/
def fillPieces (inside : Span → Option Text) : List Piece → Option Text
  | [] => some []
  | .text t :: ps => (fillPieces inside ps).map fun u => t ++ u
  | .source a :: ps => do
      let t ← inside a
      let u ← fillPieces inside ps
      return t ++ u

/-- The template of a plan, with the spans it copies rendered by `inside`. -/
def fill (inside : Span → Option Text) (p : Plan) : Option Text := fillPieces inside p.pieces

/-- The source from `cursor` to `stop` with a text in place of each of the plans, and the source
between the plans as it stands. -/
def splice (source : Text) (body : Plan → Option Text) (stop : Nat) :
    Nat → List Plan → Option Text
  | cursor, [] => source.slice? cursor stop
  | cursor, p :: ps => do
      let gap ← source.slice? cursor p.span.start
      let t ← body p
      let rest ← splice source body stop p.span.stop ps
      return gap ++ t ++ rest

theorem renderPieces_text (inside : Span → Option Rendering) (pieces : List Piece) :
    (renderPieces inside pieces).map Rendering.text =
      fillPieces (fun a => (inside a).map Rendering.text) pieces := by
  induction pieces with
  | nil => rfl
  | cons piece pieces ih =>
      cases piece with
      | text t =>
          rw [renderPieces, fillPieces, ← ih, Option.map_map, Option.map_map]
          rfl
      | source a =>
          simp only [renderPieces, fillPieces, ← ih]
          cases inside a with
          | none => rfl
          | some x =>
              cases renderPieces inside pieces with
              | none => rfl
              | some y => rfl

theorem renderFrom_text (inside : Span → Option Rendering) (source : Text) (stop cursor : Nat)
    (ps : List Plan) :
    (renderFrom inside source stop cursor ps).map Rendering.text =
      splice source (fill fun a => (inside a).map Rendering.text) stop cursor
        (picks stop cursor ps) := by
  induction ps generalizing cursor with
  | nil =>
      rw [renderFrom, picks, splice, Option.map_map]
      cases source.slice? cursor stop with
      | none => rfl
      | some t => rfl
  | cons p ps ih =>
      rw [renderFrom, picks]
      by_cases hskip : (p.span.start < cursor || stop < p.span.stop) = true
      · rw [if_pos hskip, if_pos hskip, ih]
      · rw [if_neg hskip, if_neg hskip, splice, fill, ← renderPieces_text, ← ih]
        cases source.slice? cursor p.span.start with
        | none => rfl
        | some gap =>
            cases renderPieces inside p.pieces with
            | none => rfl
            | some b =>
                cases renderFrom inside source stop p.span.stop ps with
                | none => rfl
                | some rest => simp [Rendering.append, Rendering.ofText]

/-! ## What a rendering depends on -/

/-- Two texts with the same bytes in a span. -/
def Agree (t t' : Text) (s : Span) : Prop :=
  ∀ a b, s.start ≤ a → b ≤ s.stop → t.slice? a b = t'.slice? a b

theorem agree_of_span? {t t' : Text} {s : Span} (hs : (t.span? s).isSome = true)
    (h : t'.span? s = t.span? s) : Agree t t' s := by
  obtain ⟨m, hm⟩ := Option.isSome_iff_exists.mp hs
  rw [hm] at h
  unfold Text.span? at hm h
  intro a b ha hb
  by_cases hab : a ≤ b
  · rw [Text.slice?_slice? hm ha hab hb, Text.slice?_slice? h ha hab hb]
  · unfold Text.slice?
    rw [if_neg hab, if_neg hab]

theorem renderPieces_congr {inside inside' : Span → Option Rendering} {pieces : List Piece}
    (h : ∀ a ∈ pieces.filterMap Piece.span?, inside a = inside' a) :
    renderPieces inside pieces = renderPieces inside' pieces := by
  induction pieces with
  | nil => rfl
  | cons piece pieces ih =>
      cases piece with
      | text t =>
          rw [renderPieces, renderPieces, ih h]
      | source a =>
          have hrest : ∀ b ∈ pieces.filterMap Piece.span?, inside b = inside' b :=
            fun b hb => h b (by simp [Piece.span?] at hb ⊢; exact Or.inr hb)
          rw [renderPieces, renderPieces, h a (by simp [Piece.span?]), ih hrest]

/-- A scan passes over the plans that do not lie inside the span. -/
theorem renderFrom_inSpan (inside : Span → Option Rendering) (source : Text) {s : Span}
    {cursor : Nat} (hc : s.start ≤ cursor) (ps : List Plan)
    (hne : ∀ p ∈ inSpan ps s, p.span.start < p.span.stop) :
    renderFrom inside source s.stop cursor ps =
      renderFrom inside source s.stop cursor (inSpan ps s) := by
  induction ps generalizing cursor with
  | nil => rfl
  | cons p ps ih =>
      by_cases hp : p.span.within s = true
      · have hcons : inSpan (p :: ps) s = p :: inSpan ps s := by simp [inSpan, hp]
        rw [hcons] at hne ⊢
        have hw := Span.within_iff.mp hp
        have hp' := hne p (by simp)
        have hne' : ∀ q ∈ inSpan ps s, q.span.start < q.span.stop :=
          fun q hq => hne q (by simp [hq])
        rw [renderFrom, renderFrom, ih hc hne', ih (show s.start ≤ p.span.stop by omega) hne']
      · have hcons : inSpan (p :: ps) s = inSpan ps s := by simp [inSpan, hp]
        have hskip : (p.span.start < cursor || s.stop < p.span.stop) = true := by
          rw [Span.within_iff] at hp
          simp only [Bool.or_eq_true, decide_eq_true_eq]
          omega
        rw [hcons] at hne ⊢
        rw [renderFrom, if_pos hskip, ih hc hne]

theorem renderFrom_congr {inside inside' : Span → Option Rendering} {t t' : Text} {s : Span}
    (ht : Agree t t' s) {cursor : Nat} (hc : s.start ≤ cursor) {ps : List Plan}
    (hps : ∀ p ∈ ps, p.span.within s = true ∧ p.span.start < p.span.stop)
    (hbody : ∀ p ∈ ps, renderPieces inside p.pieces = renderPieces inside' p.pieces) :
    renderFrom inside t s.stop cursor ps = renderFrom inside' t' s.stop cursor ps := by
  induction ps generalizing cursor with
  | nil => rw [renderFrom, renderFrom, ht cursor s.stop hc (Nat.le_refl _)]
  | cons p ps ih =>
      have hps' : ∀ q ∈ ps, q.span.within s = true ∧ q.span.start < q.span.stop :=
        fun q hq => hps q (by simp [hq])
      have hbody' : ∀ q ∈ ps, renderPieces inside q.pieces = renderPieces inside' q.pieces :=
        fun q hq => hbody q (by simp [hq])
      obtain ⟨hp, hne⟩ := hps p (by simp)
      have hw := Span.within_iff.mp hp
      rw [renderFrom, renderFrom, ht cursor p.span.start hc (by omega), hbody p (by simp),
        ih hc hps' hbody', ih (show s.start ≤ p.span.stop by omega) hps' hbody']

/-- **Only the bytes of a span and the plans inside it matter**, and any fuel above their number
will do. -/
theorem render_congr {t t' : Text} {ps ps' : List Plan} {fuel fuel' : Nat} {s : Span}
    (h : Nested (inSpan ps s)) (hin : inSpan ps' s = inSpan ps s) (ht : Agree t t' s)
    (hf : (inSpan ps s).length < fuel) (hf' : (inSpan ps s).length < fuel') :
    render t ps fuel s = render t' ps' fuel' s := by
  induction fuel generalizing s fuel' with
  | zero => omega
  | succ fuel ih =>
      obtain ⟨fuel', rfl⟩ : ∃ k, fuel' = k + 1 := ⟨fuel' - 1, by omega⟩
      have hps : ∀ p ∈ inSpan ps s, p.span.within s = true ∧ p.span.start < p.span.stop :=
        fun p hp => ⟨(mem_inSpan.mp hp).2, h.nonempty p hp⟩
      have hne : ∀ p ∈ inSpan ps s, p.span.start < p.span.stop := fun p hp => (hps p hp).2
      show renderFrom (render t ps fuel) t s.stop s.start ps
        = renderFrom (render t' ps' fuel') t' s.stop s.start ps'
      rw [renderFrom_inSpan _ _ (Nat.le_refl _) ps hne,
        renderFrom_inSpan _ _ (Nat.le_refl _) ps' (by rw [hin]; exact hne), hin]
      refine renderFrom_congr ht (Nat.le_refl _) hps ?_
      intro p hp
      apply renderPieces_congr
      intro a ha
      have hfit := h.fits p hp
      have has : a.within s = true := within_trans (hfit.inside a ha).1 (hps p hp).1
      have haw := Span.within_iff.mp has
      -- fewer plans lie inside the copied span
      have hlen : (inSpan ps a).length < (inSpan ps s).length := by
        rw [← inSpan_inSpan ps has]
        exact length_inSpan_lt hp hfit ha
      refine ih ?_ ?_ ?_ (by omega) (by omega)
      · rw [← inSpan_inSpan ps has]
        exact h.restrict a
      · rw [← inSpan_inSpan ps' has, hin, inSpan_inSpan ps has]
      · intro x y hx hy
        exact ht x y (by omega) (by omega)

/-! ## Rendering succeeds -/

theorem renderPieces_isSome {inside : Span → Option Rendering} {pieces : List Piece}
    (h : ∀ a ∈ pieces.filterMap Piece.span?, (inside a).isSome = true) :
    (renderPieces inside pieces).isSome = true := by
  induction pieces with
  | nil => rfl
  | cons piece pieces ih =>
      cases piece with
      | text t =>
          rw [renderPieces, Option.isSome_map]
          exact ih h
      | source a =>
          obtain ⟨x, hx⟩ := Option.isSome_iff_exists.mp (h a (by simp [Piece.span?]))
          have hrest : ∀ b ∈ pieces.filterMap Piece.span?, (inside b).isSome = true :=
            fun b hb => h b (by simp [Piece.span?] at hb ⊢; exact Or.inr hb)
          obtain ⟨y, hy⟩ := Option.isSome_iff_exists.mp (ih hrest)
          rw [renderPieces, hx, hy]
          rfl

theorem renderFrom_isSome {inside : Span → Option Rendering} {t : Text} {stop cursor : Nat}
    (hstop : t.IsBorder stop) (hcursor : t.IsBorder cursor) (hc : cursor ≤ stop)
    {ps : List Plan} (hborders : ∀ p ∈ ps, p.OnBorders t)
    (hbody : ∀ p ∈ ps, (renderPieces inside p.pieces).isSome = true) :
    (renderFrom inside t stop cursor ps).isSome = true := by
  induction ps generalizing cursor with
  | nil =>
      rw [renderFrom, Option.isSome_map]
      exact Text.slice?_isSome_iff.mpr ⟨hc, hcursor, hstop⟩
  | cons p ps ih =>
      have hborders' : ∀ q ∈ ps, q.OnBorders t := fun q hq => hborders q (by simp [hq])
      have hbody' : ∀ q ∈ ps, (renderPieces inside q.pieces).isSome = true :=
        fun q hq => hbody q (by simp [hq])
      rw [renderFrom]
      by_cases hskip : (p.span.start < cursor || stop < p.span.stop) = true
      · rw [if_pos hskip]
        exact ih hcursor hc hborders' hbody'
      · rw [if_neg hskip]
        simp only [Bool.or_eq_true, decide_eq_true_eq] at hskip
        have hp := hborders p (by simp)
        have hgap : (t.slice? cursor p.span.start).isSome = true :=
          Text.slice?_isSome_iff.mpr ⟨by omega, hcursor, hp.start⟩
        obtain ⟨gap, hgap⟩ := Option.isSome_iff_exists.mp hgap
        obtain ⟨b, hb⟩ := Option.isSome_iff_exists.mp (hbody p (by simp))
        obtain ⟨rest, hrest⟩ := Option.isSome_iff_exists.mp
          (ih hp.stop (show p.span.stop ≤ stop by omega) hborders' hbody')
        rw [hgap, hb, hrest]
        rfl

/-- **Nested plans on borders can be carried out** in every span between two borders. -/
theorem render_isSome {t : Text} {ps : List Plan} (h : Nested ps)
    (hborders : ∀ p ∈ ps, p.OnBorders t) {fuel : Nat} {s : Span} (hs : s.start ≤ s.stop)
    (hstart : t.IsBorder s.start) (hstop : t.IsBorder s.stop)
    (hf : (inSpan ps s).length < fuel) : (render t ps fuel s).isSome = true := by
  induction fuel generalizing s with
  | zero => omega
  | succ fuel ih =>
      show (renderFrom (render t ps fuel) t s.stop s.start ps).isSome = true
      have hne : ∀ p ∈ inSpan ps s, p.span.start < p.span.stop := (h.restrict s).nonempty
      rw [renderFrom_inSpan _ _ (Nat.le_refl _) ps hne]
      refine renderFrom_isSome hstop hstart hs ?_ ?_
      · intro p hp
        exact hborders p (mem_inSpan.mp hp).1
      · intro p hp
        obtain ⟨hps, hpw⟩ := mem_inSpan.mp hp
        have hfit := h.fits p hps
        apply renderPieces_isSome
        intro a ha
        have has : a.within s = true := within_trans (hfit.inside a ha).1 hpw
        have hlen : (inSpan ps a).length < (inSpan ps s).length := by
          rw [← inSpan_inSpan ps has]
          exact length_inSpan_lt hp hfit ha
        have hb := (hborders p hps).sources a ha
        exact ih (hfit.forward a ha) hb.1 hb.2 (by omega)

/-! ## The text of a span -/

/-- The text that a span becomes when the plans inside it are carried out. -/
def rendered? (source : Text) (ps : List Plan) (s : Span) : Option Text :=
  (render source ps (ps.length + 1) s).map Rendering.text

theorem fillPieces_congr {inside inside' : Span → Option Text} {pieces : List Piece}
    (h : ∀ a ∈ pieces.filterMap Piece.span?, inside a = inside' a) :
    fillPieces inside pieces = fillPieces inside' pieces := by
  induction pieces with
  | nil => rfl
  | cons piece pieces ih =>
      cases piece with
      | text t =>
          rw [fillPieces, fillPieces, ih h]
      | source a =>
          have hrest : ∀ b ∈ pieces.filterMap Piece.span?, inside b = inside' b :=
            fun b hb => h b (by simp [Piece.span?] at hb ⊢; exact Or.inr hb)
          rw [fillPieces, fillPieces, h a (by simp [Piece.span?]), ih hrest]

theorem splice_congr {source : Text} {body body' : Plan → Option Text} {stop cursor : Nat}
    {ps : List Plan} (h : ∀ p ∈ ps, body p = body' p) :
    splice source body stop cursor ps = splice source body' stop cursor ps := by
  induction ps generalizing cursor with
  | nil => rfl
  | cons p ps ih => rw [splice, splice, h p (by simp), ih fun q hq => h q (by simp [hq])]

/-- **The rule by which every span is rendered**: the outermost plans inside it are replaced by
their templates, in which the same rule renders the copied spans. -/
theorem render_text (source : Text) {ps : List Plan} (h : Nested ps) (s : Span) :
    rendered? source ps s =
      splice source (fill (rendered? source ps)) s.stop s.start (outermost (inSpan ps s)) := by
  show (renderFrom (render source ps ps.length) source s.stop s.start ps).map Rendering.text = _
  rw [renderFrom_text, picks_eq_outermost h]
  apply splice_congr
  intro p hp
  have hps : p ∈ ps := (mem_inSpan.mp (mem_outermost.mp hp).1).1
  apply fillPieces_congr
  intro a ha
  have hlen := length_inSpan_lt hps (h.fits p hps) ha
  -- the fuel left for a copied span is as good as the one a span starts with
  have hfuel : render source ps ps.length a = render source ps (ps.length + 1) a :=
    render_congr (h.restrict a) rfl (fun _ _ _ _ => rfl) hlen (by omega)
  show (render source ps ps.length a).map Rendering.text = rendered? source ps a
  rw [hfuel, rendered?]

/-- What a span becomes depends only on its own bytes and the plans inside it. -/
theorem rendered?_congr {t t' : Text} {ps ps' : List Plan} {s : Span} (h : Nested (inSpan ps s))
    (hin : inSpan ps' s = inSpan ps s) (ht : Agree t t' s) : rendered? t ps s = rendered? t' ps' s := by
  have hlen : (inSpan ps s).length ≤ ps.length := List.length_filter_le _ _
  have hlen' : (inSpan ps' s).length ≤ ps'.length := List.length_filter_le _ _
  rw [hin] at hlen'
  unfold rendered?
  rw [render_congr h hin ht (by omega) (show _ < ps'.length + 1 by omega)]

/-- **What takes the place of a plan depends only on its own bytes and the plans inside it.** -/
theorem fill_congr {t t' : Text} {ps ps' : List Plan} {p : Plan} (h : Nested (inSpan ps p.span))
    (hfit : p.Fits) (hin : inSpan ps' p.span = inSpan ps p.span) (ht : Agree t t' p.span) :
    fill (rendered? t ps) p = fill (rendered? t' ps') p := by
  apply fillPieces_congr
  intro a ha
  have hap := (hfit.inside a ha).1
  have haw := Span.within_iff.mp hap
  refine rendered?_congr ?_ ?_ ?_
  · rw [← inSpan_inSpan ps hap]
    exact h.restrict a
  · rw [← inSpan_inSpan ps' hap, hin, inSpan_inSpan ps hap]
  · intro x y hx hy
    exact ht x y (by omega) (by omega)

/-! ## Only the kept plans matter -/

theorem Nested.kept_nested {ps : List Plan} (h : Nested ps) : Nested (kept ps) := h.filter _

/-- The outermost plans are kept, and no other plan is outermost among those that are. -/
theorem Nested.outermost_kept {ps : List Plan} (h : Nested ps) : outermost (kept ps) = outermost ps := by
  have hkept : (kept ps).Sublist ps := List.filter_sublist
  have houtermost : (outermost (kept ps)).Sublist (kept ps) := List.filter_sublist
  refine h.eq_of_sublist (houtermost.trans hkept) List.filter_sublist fun p => ?_
  constructor
  · intro hp
    obtain ⟨hpk, hfree⟩ := mem_outermost.mp hp
    refine mem_outermost.mpr ⟨hkept.subset hpk, ?_⟩
    intro q hq hin
    obtain ⟨o, ho, rfl | hholds⟩ := h.exists_outermost hq
    · exact hfree q (h.mem_kept_iff.mpr ⟨q, ho, Or.inl rfl⟩) hin
    · refine hfree o (h.mem_kept_iff.mpr ⟨o, ho, Or.inl rfl⟩) ⟨within_trans hin.1 hholds.inside.1, ?_⟩
      intro heq
      rw [heq] at hin
      exact Span.inside_asymm hin hholds.inside
  · intro hp
    obtain ⟨-, hfree⟩ := mem_outermost.mp hp
    exact mem_outermost.mpr ⟨h.mem_kept_iff.mpr ⟨p, hp, Or.inl rfl⟩, fun q hq => hfree q (hkept.subset hq)⟩

/-- Inside a span that an outermost plan copies, the kept plans are those that are kept there. -/
theorem Nested.inSpan_kept {ps : List Plan} (h : Nested ps) {q : Plan} (hq : q ∈ outermost ps) {a : Span}
    (ha : a ∈ q.sources) : inSpan (kept ps) a = kept (inSpan ps a) := by
  have hleft : (inSpan (kept ps) a).Sublist (kept ps) := List.filter_sublist
  have hright : (kept (inSpan ps a)).Sublist (inSpan ps a) := List.filter_sublist
  refine h.eq_of_sublist (hleft.trans List.filter_sublist) (hright.trans List.filter_sublist) fun p => ?_
  constructor
  · intro hp
    obtain ⟨hpk, hpa⟩ := mem_inSpan.mp hp
    obtain ⟨hps, hkeep⟩ := mem_kept.mp hpk
    exact mem_kept.mpr ⟨mem_inSpan.mpr ⟨hps, hpa⟩, fun r hr => hkeep r (mem_inSpan.mp hr).1⟩
  · intro hp
    exact mem_inSpan.mpr ⟨h.mem_kept_iff.mpr ⟨q, hq, Or.inr ⟨a, ha, hp⟩⟩, (mem_kept_inSpan hp).2⟩

/-- **A span is rendered by the plans that are kept in it**; the others might as well not be there. -/
theorem rendered?_kept (t : Text) {ps : List Plan} (h : Nested ps) (s : Span) :
    rendered? t ps s = rendered? t (kept (inSpan ps s)) s := by
  induction hn : (inSpan ps s).length using Nat.strongRecOn generalizing s with
  | _ n ih =>
      have hs := h.restrict s
      have hself : inSpan (kept (inSpan ps s)) s = kept (inSpan ps s) :=
        List.filter_eq_self.mpr fun p hp => (mem_kept_inSpan hp).2
      rw [render_text t h s, render_text t hs.kept_nested s, hself,
        hs.outermost_kept]
      refine splice_congr fun p hp => fillPieces_congr fun a ha => ?_
      obtain ⟨hps, hpw⟩ := mem_inSpan.mp (mem_outermost.mp hp).1
      have has : a.within s = true := within_trans ((h.fits p hps).inside a ha).1 hpw
      have hlen : (inSpan ps a).length < n := by
        rw [← hn, ← inSpan_inSpan ps has]
        exact length_inSpan_lt (mem_outermost.mp hp).1 (h.fits p hps) ha
      have hin : inSpan (kept (inSpan ps s)) a = kept (inSpan ps a) := by
        rw [hs.inSpan_kept hp ha, inSpan_inSpan ps has]
      have hsame : inSpan (kept (inSpan ps a)) a = kept (inSpan ps a) :=
        List.filter_eq_self.mpr fun p hp => (mem_kept_inSpan hp).2
      rw [ih _ hlen a rfl]
      refine rendered?_congr ?_ (hin.trans hsame.symm) fun _ _ _ _ => rfl
      rw [hsame]
      exact (h.restrict a).kept_nested

end Plan

end Promisify
