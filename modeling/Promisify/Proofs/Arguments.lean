import Promisify.Proofs.Parsing
import Promisify.Proofs.Totality

set_option autoImplicit false

/-! # What a helper is called with

The helper of a plan is called with the receiver of the site, or with what is left of a pipeline
without its limiting operator: the pipeline with a cut in it, or the source alone. A receiver `super`
is refused, and a pipeline is a call; so the only way for the keyword to become an argument is that a
pipeline on it is left without operators.
-/

namespace Promisify

/-- The expression that the helper is called with, as a whole or with an operator cut out of it. -/
def Shape.expression? : Shape → Option Node
  | .pipeline p =>
      match p.trim with
      | .collapse => some p.source
      | .unchanged | .cut _ => some p.call
  | .chain receiver => some receiver
  | .unrecognized _ => none

/-- The spans spell the expression `n`, as a whole or with a cut in it. -/
def Node.SpelledBy (n : Node) (spans : List Span) : Prop :=
  spans = [n.span] ∨
    n.kind = .callExpression ∧ ∃ c : Span, spans = [⟨n.start, c.start⟩, ⟨c.stop, n.stop⟩]

theorem Node.callStart_of_super {n : Node} (hn : n.kind = .super) : n.callStart = n.start := by
  refine callStart_of_end ?_ ?_
  · simp [prefixedOperand?, hn]
  · simp [leftward?, hn]

namespace SourceFile

variable {f : SourceFile} {s : Site} {n r : Node} {q : Pipeline}

/-! ## Shapes -/

/-- **What a site looks like**: it is left alone, or its receiver is not `super` and is a pipeline or
taken as it stands. -/
theorem shape_cases (f : SourceFile) (s : Site) :
    (∃ o, f.shape s = .unrecognized o) ∨
      ∃ r, s.receiver? = some r ∧ r.kind ≠ .super ∧
        ((∃ q, f.pipeline? r = some q ∧ f.shape s = .pipeline q) ∨
          f.pipeline? r = none ∧ f.shape s = .chain r) := by
  unfold shape
  split
  · exact Or.inl ⟨_, rfl⟩
  split
  · exact Or.inl ⟨_, rfl⟩
  split
  · exact Or.inl ⟨_, rfl⟩
  split
  · exact Or.inl ⟨_, rfl⟩
  next r hr =>
    split
    · exact Or.inl ⟨_, rfl⟩
    next hsuper =>
      refine Or.inr ⟨r, hr, hsuper, ?_⟩
      cases hq : f.pipeline? r with
      | some q => exact Or.inl ⟨q, rfl, rfl⟩
      | none => exact Or.inr ⟨rfl, rfl⟩

/-- A pipeline is left without operators when the limiting one is its only one. -/
theorem trim_eq_collapse_iff (hq : f.pipeline? r = some q) :
    q.trim = .collapse ↔ ∃ op, q.operators = [op] ∧ (f.limit? op).isSome = true := by
  obtain ⟨k, a, hat⟩ := pipeline?_eq_some hq
  have hlimiting := hat.limiting
  constructor
  · intro htrim
    unfold Pipeline.trim at htrim
    cases hl : q.limiting with
    | none => simp [hl] at htrim
    | some l =>
        simp only [hl] at htrim
        by_cases hone : q.operators.length = 1
        · obtain ⟨op, hop⟩ := List.length_eq_one_iff.mp hone
          refine ⟨op, hop, ?_⟩
          rw [hl, hop, firstLimit?] at hlimiting
          cases hlimit : f.limit? op with
          | none => simp [hlimit, firstLimit?] at hlimiting
          | some k => rfl
        · -- with more operators there is one next to the limiting one
          obtain ⟨hfirst, hlater⟩ := neighbour_lt hq hl hone
          rw [if_neg hone] at htrim
          by_cases hzero : l.index = 0
          · simp [hzero, List.getElem?_eq_getElem (hfirst hzero)] at htrim
          · simp [hzero, List.getElem?_eq_getElem (hlater hzero)] at htrim
  · rintro ⟨op, hop, hlimit⟩
    obtain ⟨k, hk⟩ := Option.isSome_iff_exists.mp hlimit
    rw [hop, firstLimit?, hk] at hlimiting
    simp [Pipeline.trim, hlimiting, hop]

/-! ## Arguments -/

/-- A pipeline that loses its only operator, on the stream `n`. -/
def Collapses (f : SourceFile) (s : Site) (n : Node) : Prop :=
  ∃ r q op, s.receiver? = some r ∧ f.pipeline? r = some q ∧ q.source = n ∧
    q.operators = [op] ∧ (f.limit? op).isSome = true

/-- **What the argument of a helper is**: the source of a pipeline that loses its only operator, or
an expression that is not `super`. -/
theorem argument_cases {helper : Helper} {spans : List Span}
    (h : (f.shape s).argument = .ok (helper, spans)) :
    ∃ m, (f.shape s).expression? = some m ∧ m.SpelledBy spans ∧
      (helper = .firstValue ∧ spans = [m.span] ∧ f.Collapses s m ∨
        m.kind ≠ .super ∧ s.receiver? = some m ∧ ∀ k, ¬ f.Collapses s k) := by
  rcases f.shape_cases s with ⟨o, ho⟩ | ⟨r, hr, hsuper, ⟨q, hq, hshape⟩ | ⟨hnone, hshape⟩⟩
  · simp [ho, Shape.argument] at h
  · obtain ⟨k, a, hat⟩ := pipeline?_eq_some hq
    have hcall : q.call = r := hat.call
    have hwhole : q.trim ≠ .collapse → ∀ k, ¬ f.Collapses s k := by
      rintro htrim k ⟨r', q', op, hr', hq', -, hop⟩
      rw [hr, Option.some.injEq] at hr'
      rw [← hr', hq, Option.some.injEq] at hq'
      exact htrim ((trim_eq_collapse_iff hq).mpr ⟨op, hq' ▸ hop⟩)
    rw [hshape] at h ⊢
    simp only [Shape.argument, Shape.expression?] at h ⊢
    cases htrim : q.trim with
    | unchanged =>
        simp only [htrim, Except.ok.injEq, Prod.mk.injEq] at h ⊢
        exact ⟨r, by rw [hcall], Or.inl (by rw [← h.2, hcall]),
          Or.inr ⟨hsuper, hr, hwhole (by rw [htrim]; simp)⟩⟩
    | collapse =>
        simp only [htrim, Except.ok.injEq, Prod.mk.injEq] at h ⊢
        obtain ⟨op, hop, hlimit⟩ := (trim_eq_collapse_iff hq).mp htrim
        exact ⟨q.source, rfl, Or.inl h.2.symm,
          Or.inl ⟨h.1.symm, h.2.symm, r, q, op, hr, hq, rfl, hop, hlimit⟩⟩
    | cut c =>
        simp only [htrim, Except.ok.injEq, Prod.mk.injEq] at h ⊢
        exact ⟨r, by rw [hcall], Or.inr ⟨hat.kind, c, by rw [← h.2, hcall]; rfl⟩,
          Or.inr ⟨hsuper, hr, hwhole (by rw [htrim]; simp)⟩⟩
  · rw [hshape] at h ⊢
    simp only [Shape.argument, Except.ok.injEq, Prod.mk.injEq] at h
    refine ⟨r, rfl, Or.inl h.2.symm, Or.inr ⟨hsuper, hr, ?_⟩⟩
    rintro k ⟨r', q, op, hr', hq, -⟩
    rw [hr, Option.some.injEq] at hr'
    rw [← hr', hnone] at hq
    cases hq

theorem receiver_mem (hs : Site.At f n s) (hwf : n.WellFormed) (hr : s.receiver? = some r) :
    r ∈ n.preorder :=
  Node.preorder_trans (Node.mem_preorder.mpr (Or.inr (hs.callee_mem hwf)))
    (Node.mem_preorder.mpr (Or.inr (Node.mem_descendants_of_child (Node.mem_children_of_child? hr))))

/-- The source of a pipeline on the receiver lies in the call; a source `super` is not cut off at
the start of the site. -/
theorem Collapses.source {m : Node} (h : f.Collapses s m) (hs : Site.At f n s) (hwf : n.WellFormed) :
    m ∈ n.preorder ∧ (m.kind = .super → m.span.clampStart s.start = m.span) := by
  obtain ⟨r, q, op, hr, hq, rfl, -⟩ := h
  obtain ⟨k, a, hat⟩ := pipeline?_eq_some hq
  have hrm := receiver_mem hs hwf hr
  have hrw := hwf.of_mem_preorder hrm
  have hkm := Node.mem_preorder.mpr (Or.inr (hrw.callee_mem hat.callee))
  have hsm := Node.mem_preorder.mpr
    (Or.inr (Node.mem_descendants_of_child (Node.mem_children_of_child? hat.source)))
  refine ⟨Node.preorder_trans hrm (Node.preorder_trans hkm hsm), ?_⟩
  intro hsuper
  have hbounds := hat.bounds hrw
  have hleft := q.source.callStart_of_super hsuper
  have hstart : s.start ≤ q.source.start := by
    rw [hs.start]
    rcases hwf.callStart_receiver hs.kind hs.callee hs.member hr with h | ⟨-, h⟩
    · omega
    · rcases hrw.callStart_receiver hat.kind hat.callee hat.member hat.source with h' | ⟨-, h'⟩
      · omega
      · omega
  simp [Span.clampStart, Node.span, Nat.max_eq_left hstart]

/-- **When `super` becomes an argument.** The helper of a plan is called with one expression of the
site, which is copied from the start of the site on, as a whole or with a cut in it. This is the
keyword `super` exactly when the receiver is a pipeline on `super` whose only operator is a limiting
one; the helper is then called with the bare keyword. -/
theorem argument_is_super_iff {d : Dialect} {t : Text} (h : parse? d t = .ok f) (hs : s ∈ f.sites)
    {p : Plan} (hp : f.plan s = .ok p) :
    ∃ m ∈ s.call.preorder, (f.shape s).expression? = some m ∧
      (∃ spans rest, m.SpelledBy spans ∧ p.pieces = .text (p.helper.name ++ "(".toList) ::
        (spans.map fun a => Piece.source (a.clampStart s.start)) ++ rest) ∧
      (m.kind = .super ↔ ∃ k, k.kind = .super ∧ f.Collapses s k) ∧
      (m.kind = .super →
        ∃ rest, p.pieces = .text "firstValueFrom(".toList :: .source m.span :: rest) := by
  obtain ⟨n, hn, hns⟩ := mem_sites.mp hs
  have hat := siteAt?_eq_some hns
  have hwf : n.WellFormed := (parse?_wellFormed h).tree.of_mem_preorder hn
  obtain ⟨helper, spans, asserts, rest, harg, -, rfl⟩ := plan_eq_ok hp
  obtain ⟨m, hm, hspelled, ⟨rfl, rfl, hcollapses⟩ | ⟨hsuper, hr, hnone⟩⟩ := argument_cases harg
  · obtain ⟨hmem, hclamp⟩ := hcollapses.source hat hwf
    refine ⟨m, hat.call ▸ hmem, hm, ⟨_, rest, hspelled, rfl⟩, ⟨fun hk => ⟨m, hk, hcollapses⟩, ?_⟩, ?_⟩
    · -- the source of the pipeline is the only one there is
      rintro ⟨k, hk, r', q', op', hr', hq', hsource', -⟩
      obtain ⟨r, q, op, hr, hq, hsource, -⟩ := hcollapses
      rw [hr, Option.some.injEq] at hr'
      rw [← hr', hq, Option.some.injEq] at hq'
      rw [← hsource, hq', hsource', hk]
    · intro hk
      refine ⟨rest, ?_⟩
      rw [List.map_cons, hclamp hk]
      rfl
  · refine ⟨m, hat.call ▸ receiver_mem hat hwf hr, hm, ⟨spans, rest, hspelled, rfl⟩, ?_, ?_⟩
    · exact ⟨fun hk => absurd hk hsuper, fun ⟨k, _, hk⟩ => absurd hk (hnone k)⟩
    · exact fun hk => absurd hk hsuper

set_option maxRecDepth 100000 in
/-- Two pipelines on `super`: one is left without operators, the other keeps one. -/
theorem super_behind_one_of_two_pipelines :
    ∃ f, parse? .typeScript
        "class É { f() { [await super.pipe<T>(first()).toPromise(), super.pipe(m, take(1)).subscribe(g)] } }".toList
          = .ok f ∧
      ∃ s ∈ f.sites, ∃ s' ∈ f.sites,
        (∃ k, k.kind = .super ∧ f.Collapses s k) ∧
        (∃ (p : Plan) (m : Node) (rest : List Piece), f.plan s = .ok p ∧ m.kind = .super ∧
          p.pieces = .text "firstValueFrom(".toList :: .source m.span :: rest) ∧
        (∃ p, f.plan s' = .ok p) ∧ ∀ k, k.kind = .super → ¬ f.Collapses s' k := by
  obtain ⟨f, hf, hsites⟩ := exists_of_parse
    (d := .typeScript)
    (t := "class É { f() { [await super.pipe<T>(first()).toPromise(), super.pipe(m, take(1)).subscribe(g)] } }".toList)
    (fun f => (f.sites.map fun s =>
        ((f.plan s).toOption.isSome, (f.shape s).expression?.map Node.kind)) =
      [(true, some .super), (true, some .callExpression)])
    (by decide +kernel) fun f hP => hP
  obtain ⟨s, rest, hs, hfirst, hrest⟩ := List.map_eq_cons_iff.mp hsites
  obtain ⟨s', rest', hs', hsecond, -⟩ := List.map_eq_cons_iff.mp hrest
  obtain ⟨hplan, hkind⟩ := Prod.mk.inj hfirst
  obtain ⟨hplan', hkind'⟩ := Prod.mk.inj hsecond
  obtain ⟨p, hp⟩ := Option.isSome_iff_exists.mp hplan
  obtain ⟨p', hp'⟩ := Option.isSome_iff_exists.mp hplan'
  have hmem : s ∈ f.sites := by simp [hs]
  have hmem' : s' ∈ f.sites := by simp [hs, hs']
  obtain ⟨m, -, hm, -, hiff, hpieces⟩ := argument_is_super_iff hf hmem (toOption_eq_some hp)
  obtain ⟨m', -, hm', -, hiff', -⟩ := argument_is_super_iff hf hmem' (toOption_eq_some hp')
  have hsuper : m.kind = .super := by simpa [hm] using hkind
  have hcall : m'.kind = .callExpression := by simpa [hm'] using hkind'
  obtain ⟨rest, hrest⟩ := hpieces hsuper
  refine ⟨f, hf, s, hmem, s', hmem', hiff.mp hsuper, ⟨p, m, rest, toOption_eq_some hp, hsuper, hrest⟩,
    ⟨p', toOption_eq_some hp'⟩, ?_⟩
  intro k hk hcollapses
  have hsuper' := hiff'.mpr ⟨k, hk, hcollapses⟩
  rw [hcall] at hsuper'
  cases hsuper'

set_option maxRecDepth 100000 in
/-- A helper that is called with the bare keyword. -/
theorem super_becomes_argument :
    ∃ f, parse? .typeScript
        "class A extends B { f() { return super.pipe(take(1)).toPromise(); } }\n".toList = .ok f ∧
      (∃ s ∈ f.sites, (∃ p, f.plan s = .ok p) ∧
        ∃ m, (f.shape s).expression? = some m ∧ m.kind = .super) ∧
      f.conversion?.map Conversion.text =
        some "class A extends B { f() { return firstValueFrom(super); } }\n".toList := by
  refine exists_of_parse
    (fun f => (f.sites.map fun s =>
        ((f.plan s).toOption.isSome, (f.shape s).expression?.map Node.kind)) =
          [(true, some .super)] ∧
      f.conversion?.map Conversion.text =
        some "class A extends B { f() { return firstValueFrom(super); } }\n".toList)
    (by decide +kernel) ?_
  rintro f ⟨hsites, htext⟩
  obtain ⟨s, rest, hs, hsite, -⟩ := List.map_eq_cons_iff.mp hsites
  obtain ⟨hplan, hkind⟩ := Prod.mk.inj hsite
  obtain ⟨p, hp⟩ := Option.isSome_iff_exists.mp hplan
  obtain ⟨m, hm, hsuper⟩ := Option.map_eq_some_iff.mp hkind
  exact ⟨⟨s, by simp [hs], ⟨p, toOption_eq_some hp⟩, m, hm, hsuper⟩, htext⟩

end SourceFile

end Promisify
