import Promisify.Proofs.Conversion

set_option autoImplicit false

/-! # Nothing can go wrong in a conversion

Finding where a chain starts and carrying out plans are loops that run on fuel, and carrying out
plans cuts slices out of the text. Here the loops are described step by step, by the relations
`Node.Descends` and `Plan.Recurs`, so that it can be said that they end on their own and how deep they
go, and the slices are listed, so that it can be said that each of them exists.
-/

namespace Promisify

/-! ## The walk down a chain -/

namespace Node

/-- The walk down the left edge of a chain goes on from `n` to `m`. -/
structure Descends (n m : Node) : Prop where
  unprefixed : n.prefixedOperand? = none
  next : n.leftward? = some m
  sameStart : m.start = n.start

theorem Descends.weight_lt {n m : Node} (h : n.Descends m) : m.weight < n.weight :=
  weight_lt_of_mem_children (mem_children_of_leftward? h.next)

/-- A walk down a chain takes fewer steps than there are nodes. -/
theorem length_lt_weight {n : Node} {path : List Node} (h : (n :: path).IsChain Descends) :
    path.length < n.weight := by
  induction path generalizing n with
  | nil =>
      cases n
      simp [weight]
  | cons m path ih =>
      obtain ⟨hstep, hrest⟩ := List.isChain_cons_cons.mp h
      have hweight := hstep.weight_lt
      have hlength := ih hrest
      rw [List.length_cons]
      omega

end Node

/-! ## The recursion over copied spans -/

namespace Plan

variable {ps : List Plan} {s a : Span} {t : Text}

/-- Rendering `s` renders `a` in turn: a plan that is carried out in `s` copies `a`. -/
def Recurs (ps : List Plan) (s a : Span) : Prop :=
  ∃ p ∈ picks s.stop s.start ps, a ∈ p.sources

/-- The slices of the source that a scan copies around the plans it carries out. -/
def slices (stop : Nat) : Nat → List Plan → List Span
  | cursor, [] => [⟨cursor, stop⟩]
  | cursor, p :: ps => ⟨cursor, p.span.start⟩ :: slices stop p.span.stop ps

theorem renderPieces_isSome_iff {inside : Span → Option Rendering} {pieces : List Piece} :
    (renderPieces inside pieces).isSome = true ↔
      ∀ a ∈ pieces.filterMap Piece.span?, (inside a).isSome = true := by
  refine ⟨fun h => ?_, renderPieces_isSome⟩
  induction pieces with
  | nil => simp
  | cons piece pieces ih =>
      cases piece with
      | text t =>
          rw [renderPieces, Option.isSome_map] at h
          exact ih h
      | source b =>
          rw [renderPieces] at h
          cases hb : inside b with
          | none => simp [hb] at h
          | some x =>
              cases hrest : renderPieces inside pieces with
              | none => simp [hb, hrest] at h
              | some y =>
                  have hall := ih (by simp [hrest])
                  intro a ha
                  rcases List.mem_cons.mp (show a ∈ b :: pieces.filterMap Piece.span? from ha) with
                    rfl | ha
                  · simp [hb]
                  · exact hall a ha

/-- **A scan succeeds exactly when all its slices exist** and all spans that its plans copy can be
rendered. -/
theorem renderFrom_isSome_iff {inside : Span → Option Rendering} {stop cursor : Nat} :
    (renderFrom inside t stop cursor ps).isSome = true ↔
      (∀ c ∈ slices stop cursor (picks stop cursor ps), (t.span? c).isSome = true) ∧
      ∀ p ∈ picks stop cursor ps, ∀ a ∈ p.sources, (inside a).isSome = true := by
  induction ps generalizing cursor with
  | nil => simp [renderFrom, picks, slices, Text.span?]
  | cons p ps ih =>
      rw [renderFrom, picks]
      by_cases hskip : (p.span.start < cursor || stop < p.span.stop) = true
      · rw [if_pos hskip, if_pos hskip]
        exact ih
      · rw [if_neg hskip, if_neg hskip]
        simp only [slices, List.forall_mem_cons]
        have hpieces : (∀ a ∈ p.sources, (inside a).isSome = true) ↔
            (renderPieces inside p.pieces).isSome = true := renderPieces_isSome_iff.symm
        rw [hpieces, and_and_and_comm, ← ih]
        show _ ↔ ((t.slice? cursor p.span.start).isSome = true ∧ _) ∧ _
        cases t.slice? cursor p.span.start with
        | none => simp
        | some gap =>
            cases renderPieces inside p.pieces with
            | none => simp
            | some body =>
                cases renderFrom inside t stop p.span.stop ps with
                | none => simp
                | some rest => simp

namespace Recurs

/-- One level of the recursion: the copied span lies inside, between two borders, and has fewer plans
in it. -/
theorem step (h : Nested ps) (hborders : ∀ p ∈ ps, p.OnBorders t) (hrec : Recurs ps s a) :
    a.start ≤ a.stop ∧ t.IsBorder a.start ∧ t.IsBorder a.stop ∧
      (inSpan ps a).length < (inSpan ps s).length := by
  obtain ⟨p, hp, ha⟩ := hrec
  rw [picks_eq_outermost h] at hp
  have hps := (mem_outermost.mp hp).1
  obtain ⟨hp, hin⟩ := mem_inSpan.mp hps
  have hfit := h.fits p hp
  have hon := (hborders p hp).sources a ha
  refine ⟨hfit.forward a ha, hon.1, hon.2, ?_⟩
  rw [← inSpan_inSpan ps (within_trans (hfit.inside a ha).1 hin)]
  exact length_inSpan_lt hps hfit ha

/-- Every span on the way down the recursion lies between two borders, and the way is no longer than
there are plans. -/
theorem path (h : Nested ps) (hborders : ∀ p ∈ ps, p.OnBorders t) {way : List Span}
    (hway : (s :: way).IsChain (Recurs ps)) (hs : s.start ≤ s.stop) (hstart : t.IsBorder s.start)
    (hstop : t.IsBorder s.stop) :
    way.length ≤ (inSpan ps s).length ∧
      ∀ b ∈ s :: way, b.start ≤ b.stop ∧ t.IsBorder b.start ∧ t.IsBorder b.stop := by
  induction way generalizing s with
  | nil =>
      refine ⟨Nat.zero_le _, ?_⟩
      intro b hb
      rw [List.mem_singleton.mp hb]
      exact ⟨hs, hstart, hstop⟩
  | cons a way ih =>
      obtain ⟨hrec, hrest⟩ := List.isChain_cons_cons.mp hway
      obtain ⟨ha, hastart, hastop, hfewer⟩ := hrec.step h hborders
      obtain ⟨hlength, hall⟩ := ih hrest ha hastart hastop
      refine ⟨by rw [List.length_cons]; omega, ?_⟩
      rw [List.forall_mem_cons]
      exact ⟨⟨hs, hstart, hstop⟩, hall⟩

end Recurs

/-- All slices copied while a span between two borders is rendered exist. -/
theorem slices_exist (h : Nested ps) (hborders : ∀ p ∈ ps, p.OnBorders t) (hs : s.start ≤ s.stop)
    (hstart : t.IsBorder s.start) (hstop : t.IsBorder s.stop) :
    ∀ c ∈ slices s.stop s.start (picks s.stop s.start ps),
      c.start ≤ c.stop ∧ t.IsBorder c.start ∧ t.IsBorder c.stop := by
  intro c hc
  have hsome := render_isSome h hborders hs hstart hstop (Nat.lt_succ_self (inSpan ps s).length)
  exact Text.slice?_isSome_iff.mp ((renderFrom_isSome_iff.mp hsome).1 c hc)

end Plan

/-! ## The operators next to the limiting one -/

/-- The operator next to the limiting one, which removing it asks for, is there. -/
theorem SourceFile.neighbour_lt {f : SourceFile} {r : Node} {p : Pipeline} {l : LimitingOperator}
    (hp : f.pipeline? r = some p) (hl : p.limiting = some l) (hne : p.operators.length ≠ 1) :
    (l.index = 0 → 1 < p.operators.length) ∧
      (l.index ≠ 0 → l.index - 1 < p.operators.length) := by
  obtain ⟨k, a, hat⟩ := pipeline?_eq_some hp
  obtain ⟨-, hnode⟩ := firstLimit?_eq_some (hat.limiting ▸ hl)
  obtain ⟨hlt, -⟩ := List.getElem?_eq_some_iff.mp hnode
  omega

namespace SourceFile

/-! ## The whole pass -/

/-- **A conversion always comes to an end and never fails.** The walk down a chain and the recursion
over copied spans end on their own, the latter at most as many levels deep as there are plans. Every
slice copied on the way lies between two borders of the text, the operator next to a limiting one is
there when it is asked for, and no more plans are carried out than there are. -/
theorem conversion_never_fails (f : SourceFile) (h : f.WellFormed) :
    (∀ n ∈ f.root.preorder,
      (∀ path, (n :: path).IsChain Node.Descends → path.length < n.weight) ∧
      ∀ fuel, n.weight ≤ fuel →
        Node.foldedOperand? fuel n = Node.foldedOperand? n.weight n) ∧
    (∀ way, ((⟨0, f.text.size⟩ : Span) :: way).IsChain (Plan.Recurs f.plans) →
      way.length ≤ f.plans.length ∧
      ∀ s ∈ (⟨0, f.text.size⟩ : Span) :: way,
        ∀ c ∈ Plan.slices s.stop s.start (Plan.picks s.stop s.start f.plans),
          c.start ≤ c.stop ∧ c.stop ≤ f.text.size ∧
            f.text.IsBorder c.start ∧ f.text.IsBorder c.stop) ∧
    (∀ r p l, f.pipeline? r = some p → p.limiting = some l → p.operators.length ≠ 1 →
      (l.index = 0 → 1 < p.operators.length) ∧
        (l.index ≠ 0 → l.index - 1 < p.operators.length)) ∧
    ∃ c, f.conversion? = some c ∧
      (∀ fuel, f.plans.length < fuel →
        Plan.render f.text f.plans fuel ⟨0, f.text.size⟩ = some c.rendering) ∧
      c.rendering.done.length ≤ c.planned := by
  have hnested := plans_nested h.tree
  have hborders : ∀ p ∈ f.plans, p.OnBorders f.text := fun p hp => plans_onBorders h hp
  refine ⟨?_, ?_, fun r p l => neighbour_lt, ?_⟩
  · intro n _
    exact ⟨fun path => Node.length_lt_weight,
      fun fuel hfuel => Node.foldedOperand?_congr fuel n.weight n hfuel (Nat.le_refl _)⟩
  · intro way hway
    obtain ⟨hlength, hspans⟩ := Plan.Recurs.path hnested hborders hway (Nat.zero_le _)
      (Text.isBorder_zero _) (Text.isBorder_size _)
    rw [inSpan_plans h] at hlength
    refine ⟨hlength, ?_⟩
    intro s hs c hc
    obtain ⟨hle, hstart, hstop⟩ := hspans s hs
    obtain ⟨hc, hcstart, hcstop⟩ := Plan.slices_exist hnested hborders hle hstart hstop c hc
    exact ⟨hc, hcstop.le_size, hcstart, hcstop⟩
  · obtain ⟨r, hr, hc⟩ := exists_conversion h
    refine ⟨_, hc, ?_, ?_⟩
    · intro fuel hfuel
      rw [← hr]
      refine Plan.render_congr (hnested.restrict _) rfl (fun _ _ _ _ => rfl) ?_ ?_
      · rw [inSpan_plans h]
        exact hfuel
      · rw [inSpan_plans h]
        omega
    · rw [planned_eq h.tree, Plan.render_done hnested hr, inSpan_plans h]
      exact List.length_filter_le _ _

set_option maxRecDepth 100000 in
/-- A site in an argument of another one, behind a prefix that was folded into it. -/
theorem conversion_of_nested_sites_ends :
    ∃ f, parse? .typeScript
        "s.pipe(take(1)).subscribe(é => await x.f<T>().pipe(m, first()).toPromise());".toList
          = .ok f ∧
      f.WellFormed ∧ f.plans.map Plan.span = [⟨0, 76⟩, ⟨38, 75⟩] ∧
      (∀ way, ((⟨0, f.text.size⟩ : Span) :: way).IsChain (Plan.Recurs f.plans) → way.length ≤ 2) ∧
      ∃ c, f.conversion? = some c ∧ c.rendering.done.length ≤ c.planned := by
  refine exists_of_parse
    (fun f => f.WellFormed ∧ f.plans.map Plan.span = [⟨0, 76⟩, ⟨38, 75⟩])
    (by decide +kernel) ?_
  rintro f ⟨hwf, hplans⟩
  obtain ⟨-, hdepth, -, c, hc, -, hdone⟩ := conversion_never_fails f hwf
  have hlength : f.plans.length = 2 := by
    rw [← List.length_map Plan.span, hplans]
    rfl
  exact ⟨hwf, hplans, fun way hway => hlength ▸ (hdepth way hway).1, c, hc, hdone⟩

end SourceFile

end Promisify
