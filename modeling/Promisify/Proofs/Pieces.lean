import Promisify.Plan
import Promisify.Proofs.Nesting

set_option autoImplicit false

/-! # Where the pieces of a plan lie

A plan copies spans of its site: the receiver, the source of a pipeline or what is left of it
without an operator, and the arguments of a subscription. These spans lie strictly inside the site,
in order and apart, and no other site lies across the border of one.

Each shape of a site is opened once, into the spans of the source it copies (`Copied`). What is
shown about pieces is shown about these spans first and carried over to the plan, which only cuts
them off at the start of the site.
-/

namespace Promisify

/-- The span of the source that a piece copies, if it copies one. -/
def Piece.span? : Piece → Option Span
  | text _ => none
  | source s => some s

namespace Plan

/-- The spans of the source that a plan copies, in order. -/
def sources (p : Plan) : List Span := p.pieces.filterMap Piece.span?

/-- The copied spans lie strictly inside the plan, in order and apart. -/
structure Fits (p : Plan) : Prop where
  forward : ∀ a ∈ p.sources, a.start ≤ a.stop
  inside : ∀ a ∈ p.sources, a.inside p.span
  ordered : p.sources.Pairwise fun a b => a.stop ≤ b.start

theorem mem_sources_of_split {p : Plan} {before after : List Piece} {a : Span}
    (h : p.pieces = before ++ .source a :: after) : a ∈ p.sources := by
  rw [sources, h]
  simp [Piece.span?]

end Plan

/-! ## The shapes of a site -/

namespace Node

variable {n k a : Node}

/-- Every other part of a call comes after what is called. -/
theorem WellFormed.callee_before (h : n.WellFormed) (hn : n.kind = .callExpression)
    (hk : n.callee? = some k) {part : Field} (ha : n.child? part = some a)
    (hpart : .function ≠ part) : k.stop ≤ a.start := by
  have hac := mem_children_of_child? ha
  have haw := h.within (mem_descendants_of_child hac)
  have hfunction : ∃ f, n.child? .function = some f ∧ k.stop ≤ f.stop := by
    rcases callee?_cases hk with hp | ⟨-, hf⟩
    · obtain ⟨-, -, f, hf, hfo⟩ := prefixedOperand?_eq_some hp
      have hfw := h.child (mem_children_of_child? hf)
      exact ⟨f, hf, (hfw.fits.inside k (mem_children_of_operand? hfo)).2⟩
    · exact ⟨k, hf, Nat.le_refl _⟩
  obtain ⟨f, hf, hkf⟩ := hfunction
  have hfs := h.function_start hn hf
  rcases h.eq_or_apart (mem_children_of_child? hf) hac with heq | hfa | haf
  · exact absurd heq (ne_of_fields hf ha hpart)
  · omega
  · omega

end Node

namespace SourceFile

variable {f : SourceFile}

/-- What makes a call a pipeline. -/
structure PipelineAt (f : SourceFile) (r : Node) (p : Pipeline) (k a : Node) : Prop where
  kind : r.kind = .callExpression
  call : p.call = r
  callee : r.callee? = some k
  member : k.kind = .memberExpression
  property : ∃ q, k.child? .property = some q ∧ f.textOf q = Vocabulary.pipe
  source : k.child? .object = some p.source
  arguments : r.child? .arguments = some a
  argumentsKind : a.kind = .arguments
  operators : p.operators = a.codeParts
  limiting : p.limiting = f.firstLimit? 0 p.operators

theorem pipeline?_eq_some {r : Node} {p : Pipeline} (h : f.pipeline? r = some p) :
    ∃ k a, f.PipelineAt r p k a := by
  unfold pipeline? at h
  simp only [Option.bind_eq_bind, Option.bind_eq_some_iff, Option.pure_def, Option.some.injEq,
    Option.guard_eq_some', Bool.and_eq_true, decide_eq_true_eq] at h
  obtain ⟨-, hr, k, hk, -, hm, q, hq, -, ht, src, hsrc, a, ha, -, hak, rfl⟩ := h
  exact ⟨k, a, {
    kind := hr.1
    call := rfl
    callee := hk
    member := hm.1
    property := ⟨q, hq, ht⟩
    source := hsrc
    arguments := ha
    argumentsKind := hak
    operators := rfl
    limiting := rfl }⟩

theorem ofMember?_pipe : Terminal.ofMember? Vocabulary.pipe = none := by decide

/-- A call of `pipe` is no site. -/
theorem PipelineAt.not_site {r : Node} {p : Pipeline} {k a : Node} {s : Site}
    (h : f.PipelineAt r p k a) : ¬ Site.At f r s := by
  intro hs
  obtain ⟨q, hq, ht⟩ := h.property
  obtain ⟨q', hq', ht'⟩ := hs.property
  have hk : s.callee = k := Option.some.inj (hs.callee.symm.trans h.callee)
  have hqq : q = q' := Option.some.inj (hq.symm.trans (hk ▸ hq'))
  rw [← hqq, ht, ofMember?_pipe] at ht'
  simp at ht'

theorem firstLimit?_eq_some {ns : List Node} {i : Nat} {l : LimitingOperator}
    (h : f.firstLimit? i ns = some l) : i ≤ l.index ∧ ns[l.index - i]? = some l.node := by
  induction ns generalizing i with
  | nil => simp [firstLimit?] at h
  | cons n ns ih =>
      unfold firstLimit? at h
      split at h
      · cases h
        simp
      · have := ih h
        refine ⟨by omega, ?_⟩
        rw [show l.index - i = (l.index - (i + 1)) + 1 by omega]
        simpa using this.2

/-- A cut reaches from a border of an operator to the same border of the next one. -/
theorem PipelineAt.cut_borders {r : Node} {p : Pipeline} {k a : Node} {c : Span}
    (h : f.PipelineAt r p k a) (hc : p.trim = .cut c) :
    ∃ (i : Nat) (x y : Node), p.operators[i]? = some x ∧ p.operators[i + 1]? = some y ∧
      (c = ⟨x.start, y.start⟩ ∨ c = ⟨x.stop, y.stop⟩) := by
  unfold Pipeline.trim at hc
  cases hl : p.limiting with
  | none => simp [hl] at hc
  | some l =>
      have hlim := firstLimit?_eq_some (h.limiting ▸ hl)
      simp only [hl] at hc
      by_cases h₁ : p.operators.length = 1
      · simp [h₁] at hc
      · rw [if_neg h₁] at hc
        by_cases h₂ : l.index = 0
        · rw [if_pos h₂] at hc
          split at hc
          · rename_i y hy
            simp only [Trim.cut.injEq] at hc
            exact ⟨0, l.node, y, by simpa [h₂] using hlim.2, hy, Or.inl hc.symm⟩
          · simp at hc
        · rw [if_neg h₂] at hc
          split at hc
          · rename_i x hx
            simp only [Trim.cut.injEq] at hc
            refine ⟨l.index - 1, x, l.node, hx, ?_, Or.inr hc.symm⟩
            rw [show l.index - 1 + 1 = l.index - 0 by omega]
            exact hlim.2
          · simp at hc

/-- The cut `c` reaches from a border of the child `x` of `a` to the same border of the later child
`y`. -/
structure CutAt (a x y : Node) (c : Span) : Prop where
  left : x ∈ a.children
  right : y ∈ a.children
  ordered : x.stop ≤ y.start
  borders : c = ⟨x.start, y.start⟩ ∨ c = ⟨x.stop, y.stop⟩

theorem PipelineAt.cutAt {r : Node} {p : Pipeline} {k a : Node} {c : Span}
    (h : f.PipelineAt r p k a) (hwf : r.WellFormed) (hc : p.trim = .cut c) :
    ∃ x y, CutAt a x y c := by
  obtain ⟨i, x, y, hx, hy, hb⟩ := h.cut_borders hc
  rw [h.operators] at hx hy
  have haw := hwf.child (Node.mem_children_of_child? h.arguments)
  have hord : a.codeParts.Pairwise fun u v => u.stop ≤ v.start :=
    haw.fits.ordered.sublist List.filter_sublist
  obtain ⟨hi, hxi⟩ := List.getElem?_eq_some_iff.mp hx
  obtain ⟨hj, hyj⟩ := List.getElem?_eq_some_iff.mp hy
  refine ⟨x, y, Node.mem_children_of_codeParts (List.mem_of_getElem? hx),
    Node.mem_children_of_codeParts (List.mem_of_getElem? hy), ?_, hb⟩
  have := List.pairwise_iff_getElem.mp hord i (i + 1) hi hj (by omega)
  rwa [hxi, hyj] at this

/-! ## The copied spans -/

/-- The spans that the argument of a helper is made of, for the receiver `r`. -/
inductive Copied (f : SourceFile) (r : Node) : List Span → Prop
  | whole : Copied f r [r.span]
  | source {p : Pipeline} {k a : Node} (h : f.PipelineAt r p k a) : Copied f r [p.source.span]
  | cut {p : Pipeline} {k a : Node} {c : Span} (h : f.PipelineAt r p k a)
      (hc : p.trim = .cut c) : Copied f r [⟨r.start, c.start⟩, ⟨c.stop, r.stop⟩]

theorem argument_copied {s : Site} {helper : Helper} {spans : List Span}
    (h : (f.shape s).argument = .ok (helper, spans)) :
    ∃ r, s.receiver? = some r ∧ Copied f r spans := by
  unfold shape at h
  split at h
  · simp [Shape.argument] at h
  · split at h
    · simp [Shape.argument] at h
    · split at h
      · simp [Shape.argument] at h
      · split at h
        · simp [Shape.argument] at h
        · rename_i r hr
          refine ⟨r, hr, ?_⟩
          split at h
          · simp [Shape.argument] at h
          · split at h
            · rename_i p hp
              obtain ⟨k, a, hpa⟩ := pipeline?_eq_some hp
              simp only [Shape.argument] at h
              split at h
              · cases h
                rw [hpa.call]
                exact .whole
              · cases h
                exact .source hpa
              · rename_i c hc
                cases h
                rw [hpa.call]
                exact .cut hpa hc
            · simp only [Shape.argument] at h
              cases h
              exact .whole

/-- The parts of a pipeline in order: the source, then the arguments, all inside the call. -/
theorem PipelineAt.bounds {r : Node} {p : Pipeline} {k a : Node} (h : f.PipelineAt r p k a)
    (hwf : r.WellFormed) :
    r.start ≤ p.source.start ∧ p.source.start < p.source.stop ∧ p.source.stop ≤ a.start ∧
      a.start < a.stop ∧ a.stop ≤ r.stop := by
  have hkm := hwf.callee_mem h.callee
  have hkw := hwf.of_mem_descendants hkm
  have hk := hwf.within hkm
  have hs := hkw.within (Node.mem_descendants_of_child (Node.mem_children_of_child? h.source))
  have ha := hwf.within (Node.mem_descendants_of_child (Node.mem_children_of_child? h.arguments))
  have hka := hwf.callee_before h.kind h.callee h.arguments (by decide)
  omega

/-- The cut lies inside the arguments of the pipeline. -/
theorem CutAt.bounds {a x y : Node} {c : Span} (h : CutAt a x y c) (hwf : a.WellFormed) :
    a.start ≤ c.start ∧ c.start ≤ c.stop ∧ c.stop ≤ a.stop := by
  have hx := hwf.within (Node.mem_descendants_of_child h.left)
  have hy := hwf.within (Node.mem_descendants_of_child h.right)
  have hxy := h.ordered
  rcases h.borders with rfl | rfl
  · simp only
    omega
  · simp only
    omega

/-- A node of the arguments lies in front of the cut, in it or behind it. -/
theorem CutAt.apart {a x y b : Node} {c : Span} (h : CutAt a x y c) (hwf : a.WellFormed)
    (hb : b ∈ a.descendants) :
    b.stop ≤ c.start ∨ c.start ≤ b.start ∧ b.stop ≤ c.stop ∨ c.stop ≤ b.start := by
  have hx := hwf.within (Node.mem_descendants_of_child h.left)
  have hy := hwf.within (Node.mem_descendants_of_child h.right)
  have hxy := h.ordered
  have hbx := hwf.mem_preorder_or_apart h.left hb
  have hby := hwf.mem_preorder_or_apart h.right hb
  have hinx : b ∈ x.preorder → x.start ≤ b.start ∧ b.stop ≤ x.stop :=
    (hwf.child h.left).within_of_mem_preorder
  have hiny : b ∈ y.preorder → y.start ≤ b.start ∧ b.stop ≤ y.stop :=
    (hwf.child h.right).within_of_mem_preorder
  rcases h.borders with rfl | rfl
  · simp only
    rcases hbx with hbx | hbx | hbx
    · have := hinx hbx
      omega
    · omega
    · rcases hby with hby | hby | hby
      · have := hiny hby
        omega
      · omega
      · omega
  · simp only
    rcases hby with hby | hby | hby
    · have := hiny hby
      omega
    · rcases hbx with hbx | hbx | hbx
      · have := hinx hbx
        omega
      · omega
      · omega
    · omega

/-- The cut lies behind the source of the pipeline and inside the call. -/
theorem PipelineAt.cut_bounds {r : Node} {p : Pipeline} {k a : Node} {c : Span}
    (h : f.PipelineAt r p k a) (hwf : r.WellFormed) (hc : p.trim = .cut c) :
    r.start < c.start ∧ c.start ≤ c.stop ∧ c.stop ≤ r.stop ∧ p.source.stop ≤ c.start := by
  obtain ⟨x, y, hcut⟩ := h.cutAt hwf hc
  have hcb := hcut.bounds (hwf.child (Node.mem_children_of_child? h.arguments))
  have hpb := h.bounds hwf
  omega

/-- A call below a pipeline lies in front of the cut, in it or behind it. -/
theorem PipelineAt.cut_apart {r b : Node} {p : Pipeline} {k a : Node} {c : Span}
    (h : f.PipelineAt r p k a) (hwf : r.WellFormed) (hc : p.trim = .cut c)
    (hb : b ∈ r.descendants) (hbk : b.kind = .callExpression) :
    b.stop ≤ c.start ∨ c.start ≤ b.start ∧ b.stop ≤ c.stop ∨ c.stop ≤ b.start := by
  obtain ⟨x, y, hcut⟩ := h.cutAt hwf hc
  have hac := Node.mem_children_of_child? h.arguments
  have haw := hwf.child hac
  have hcb := hcut.bounds haw
  rcases hwf.mem_preorder_or_apart hac hb with hba | hba | hba
  · rcases Node.mem_preorder.mp hba with hba' | hba'
    · exact absurd hba' (Node.kind_ne_of_eq h.argumentsKind (by decide) hbk)
    · exact hcut.apart haw hba'
  · exact Or.inl (by omega)
  · exact Or.inr (Or.inr (by omega))

namespace Copied

variable {n r b : Node} {s t : Site} {spans : List Span}

/-- **No site lies across the border of a copied span.** -/
theorem clear (hcop : Copied f r spans) (hs : Site.At f n s) (hwf : n.WellFormed)
    (hr : s.receiver? = some r) (hb : b ∈ n.descendants) (ht : Site.At f b t) :
    ∀ a ∈ spans, b.span.within a = true ∨ b.span.apart a := by
  have hkw := hs.callee_wellFormed hwf
  have hrw := hkw.child (Node.mem_children_of_child? hr)
  have hbr := hwf.receiver_or_apart hs.callee hs.member hr hb ht.kind
  have hbw := hwf.within hb
  have hin : b ∈ r.preorder → r.start ≤ b.start ∧ b.stop ≤ r.stop := hrw.within_of_mem_preorder
  intro a ha
  simp only [Span.within_iff, Span.apart, Node.span]
  cases hcop with
  | whole =>
      simp only [List.mem_singleton] at ha
      subst ha
      simp only [Node.span]
      rcases hbr with hbr | hbr | hbr
      · exact Or.inl (hin hbr)
      · omega
      · omega
  | source hp =>
      simp only [List.mem_singleton] at ha
      subst ha
      simp only [Node.span]
      have hpb := hp.bounds hrw
      rcases hbr with hbr | hbr | hbr
      · rcases Node.mem_preorder.mp hbr with rfl | hbd
        · exact absurd ht hp.not_site
        · rcases hrw.receiver_or_apart hp.callee hp.member hp.source hbd ht.kind with h | h | h
          · have hkw' := hrw.of_mem_descendants (hrw.callee_mem hp.callee)
            exact Or.inl ((hkw'.child (Node.mem_children_of_child? hp.source)).within_of_mem_preorder
              h)
          · omega
          · omega
      · omega
      · omega
  | @cut p k args c hp hc =>
      have hcb := hp.cut_bounds hrw hc
      have hplace : b ∈ r.preorder →
          b.stop ≤ c.start ∨ c.start ≤ b.start ∧ b.stop ≤ c.stop ∨ c.stop ≤ b.start := by
        intro hbr
        rcases Node.mem_preorder.mp hbr with rfl | hbd
        · exact absurd ht hp.not_site
        · exact hp.cut_apart hrw hc hbd ht.kind
      simp only [List.mem_cons, List.not_mem_nil, or_false] at ha
      rcases hbr with hbr | hbr | hbr
      · have h₁ := hin hbr
        have h₂ := hplace hbr
        rcases ha with rfl | rfl
        · simp only
          omega
        · simp only
          omega
      · rcases ha with rfl | rfl
        · exact Or.inr (Or.inl hbr)
        · simp only
          omega
      · rcases ha with rfl | rfl
        · simp only
          omega
        · exact Or.inr (Or.inr hbr)

/-- The start of the site lies in front of the end of every copied span. -/
theorem bounds (hcop : Copied f r spans) (hs : Site.At f n s) (hwf : n.WellFormed)
    (hr : s.receiver? = some r) :
    (∀ a ∈ spans, s.start < a.stop ∧ a.start ≤ a.stop ∧ a.stop ≤ r.stop) ∧
      spans.Pairwise fun a b => a.stop ≤ b.start := by
  have hkw := hs.callee_wellFormed hwf
  have hrc := Node.mem_children_of_child? hr
  have hrw := hkw.child hrc
  have hrne := hkw.fits.nonempty r hrc
  have hstart := hwf.callStart_mem_receiver hs.kind hs.callee hs.member hr
  rw [← hs.start] at hstart
  -- a chain that goes on through a pipeline starts inside the pipeline's source
  have hsource : ∀ {p : Pipeline} {k a : Node}, f.PipelineAt r p k a →
      s.start < p.source.stop := by
    intro p k a hp
    have hpb := hp.bounds hrw
    rcases hwf.callStart_receiver hs.kind hs.callee hs.member hr with heq | ⟨-, heq⟩
    · rw [hs.start]
      omega
    · have := (hrw.callStart_mem_receiver hp.kind hp.callee hp.member hp.source).2
      rw [hs.start]
      omega
  cases hcop with
  | whole =>
      simp only [List.mem_singleton, forall_eq, Node.span, List.pairwise_singleton, and_true]
      omega
  | source hp =>
      have hpb := hp.bounds hrw
      have := hsource hp
      simp only [List.mem_singleton, forall_eq, Node.span, List.pairwise_singleton, and_true]
      omega
  | @cut p k args c hp hc =>
      have hcb := hp.cut_bounds hrw hc
      have := hsource hp
      constructor
      · simp only [List.mem_cons, List.not_mem_nil, or_false, forall_eq_or_imp, forall_eq]
        omega
      · rw [List.pairwise_pair]
        exact hcb.2.1

/-- Cut off at the start of the site, the spans lie inside the site up to the end of the receiver. -/
theorem clamped (hcop : Copied f r spans) (hs : Site.At f n s) (hwf : n.WellFormed)
    (hr : s.receiver? = some r) :
    (∀ a ∈ spans.map (Span.clampStart s.start),
      s.start ≤ a.start ∧ a.start ≤ a.stop ∧ a.stop ≤ r.stop) ∧
      (spans.map (Span.clampStart s.start)).Pairwise fun a b => a.stop ≤ b.start := by
  obtain ⟨hin, hord⟩ := hcop.bounds hs hwf hr
  constructor
  · intro a ha
    obtain ⟨b, hb, rfl⟩ := List.mem_map.mp ha
    have := hin b hb
    simp only [Span.clampStart]
    omega
  · rw [List.pairwise_map]
    refine hord.imp ?_
    intro a b hab
    simp only [Span.clampStart]
    omega

/-- A copied span starts and stops where nodes of the receiver do. -/
theorem borders (hcop : Copied f r spans) (hwf : r.WellFormed) :
    ∀ a ∈ spans, r.HasBorder a.start ∧ r.HasBorder a.stop := by
  intro a ha
  cases hcop with
  | whole =>
      simp only [List.mem_singleton] at ha
      subst ha
      exact ⟨Node.hasBorder_start r.mem_preorder_self, Node.hasBorder_stop r.mem_preorder_self⟩
  | source hp =>
      simp only [List.mem_singleton] at ha
      subst ha
      have hk := hwf.callee_mem hp.callee
      have hs := Node.mem_descendants_of_child (Node.mem_children_of_child? hp.source)
      have hm := Node.preorder_trans (Node.mem_preorder.mpr (Or.inr hk))
        (Node.mem_preorder.mpr (Or.inr hs))
      exact ⟨Node.hasBorder_start hm, Node.hasBorder_stop hm⟩
  | @cut p k args c hp hc =>
      obtain ⟨x, y, hcut⟩ := hp.cutAt hwf hc
      have harg : ∀ z ∈ args.children, z ∈ r.preorder := by
        intro z hz
        refine Node.mem_preorder.mpr (Or.inr (Node.mem_descendants_of_mem
          (Node.mem_children_of_child? hp.arguments) (Node.mem_preorder.mpr (Or.inr ?_))))
        exact Node.mem_descendants_of_child hz
      have hx := harg x hcut.left
      have hy := harg y hcut.right
      have hcb : r.HasBorder c.start ∧ r.HasBorder c.stop := by
        rcases hcut.borders with rfl | rfl
        · exact ⟨Node.hasBorder_start hx, Node.hasBorder_start hy⟩
        · exact ⟨Node.hasBorder_stop hx, Node.hasBorder_stop hy⟩
      simp only [List.mem_cons, List.not_mem_nil, or_false] at ha
      rcases ha with rfl | rfl
      · exact ⟨Node.hasBorder_start r.mem_preorder_self, hcb.1⟩
      · exact ⟨hcb.2, Node.hasBorder_stop r.mem_preorder_self⟩

end Copied

/-! ## The pieces of a plan -/

theorem closing_sources {s : Site} {h : Helper} {asserts : Bool} {rest : List Piece}
    (hc : f.closing s h = .ok (asserts, rest)) :
    rest.filterMap Piece.span? = [] ∨
      ∃ a, s.arguments? = some a ∧ rest.filterMap Piece.span? = [a.span] := by
  unfold closing at hc
  split at hc
  · split at hc
    · cases hc
      exact Or.inl rfl
    · cases hc
      exact Or.inl rfl
  · split at hc
    · split at hc
      · rename_i a ha
        cases hc
        exact Or.inr ⟨a, ha, rfl⟩
      · cases hc
    · cases hc

theorem plan_eq_ok {s : Site} {p : Plan} (hp : f.plan s = .ok p) :
    ∃ helper spans asserts rest, (f.shape s).argument = .ok (helper, spans) ∧
      f.closing s helper = .ok (asserts, rest) ∧
      p = ⟨s.span, helper, asserts, .text (helper.name ++ "(".toList) ::
        (spans.map fun a => Piece.source (a.clampStart s.start)) ++ rest⟩ := by
  unfold plan at hp
  cases ha : (f.shape s).argument with
  | error e => simp [ha, bind, Except.bind] at hp
  | ok argument =>
      obtain ⟨helper, spans⟩ := argument
      simp only [ha, bind, Except.bind] at hp
      cases hc : f.closing s helper with
      | error e => simp [hc] at hp
      | ok closing =>
          obtain ⟨asserts, rest⟩ := closing
          simp only [hc, pure, Except.pure, Except.ok.injEq] at hp
          exact ⟨helper, spans, asserts, rest, rfl, hc, hp.symm⟩

/-- The spans that the pieces of a plan copy: those of its argument, then those behind it. -/
theorem sources_pieces (t : Text) (start : Nat) (spans : List Span) (rest : List Piece) :
    (Piece.text t :: (spans.map fun a => Piece.source (a.clampStart start)) ++ rest).filterMap
      Piece.span? = spans.map (Span.clampStart start) ++ rest.filterMap Piece.span? := by
  have hmap : (spans.map fun a => Piece.source (a.clampStart start)).filterMap Piece.span?
      = spans.map (Span.clampStart start) := by
    rw [List.filterMap_map, ← List.filterMap_eq_map]
    rfl
  rw [← hmap, ← List.filterMap_append]
  rfl

/-- A plan copies the spans of its argument, cut off at the start of the site, and then the
arguments of the call if it copies them. -/
theorem plan_sources {s : Site} {p : Plan} (hp : f.plan s = .ok p) :
    p.span = s.span ∧ ∃ r spans rest, s.receiver? = some r ∧ Copied f r spans ∧
      p.sources = spans.map (Span.clampStart s.start) ++ rest ∧
      (rest = [] ∨ ∃ a, s.arguments? = some a ∧ rest = [a.span]) := by
  obtain ⟨helper, spans, asserts, rest, ha, hc, rfl⟩ := plan_eq_ok hp
  obtain ⟨r, hr, hcop⟩ := argument_copied ha
  exact ⟨rfl, r, spans, rest.filterMap Piece.span?, hr, hcop, sources_pieces _ _ _ _,
    closing_sources hc⟩

/-- The arguments of a site come behind its receiver, inside the call. -/
theorem arguments_bounds {n r a : Node} {s : Site} (hs : Site.At f n s) (hwf : n.WellFormed)
    (hr : s.receiver? = some r) (ha : s.arguments? = some a) :
    r.stop < a.start ∧ a.start < a.stop ∧ a.stop ≤ n.stop := by
  rw [Site.arguments?, hs.call] at ha
  obtain ⟨q, hq, -⟩ := hs.property
  have hkw := hs.callee_wellFormed hwf
  have hrq := hkw.object_before_property hs.member hr hq
  have hka := hwf.callee_before hs.kind hs.callee ha (by decide)
  have haw := hwf.within (Node.mem_descendants_of_child (Node.mem_children_of_child? ha))
  omega

/-- **The copied spans lie strictly inside the site, in order and apart.** -/
theorem plan_fits {n : Node} {s : Site} {p : Plan} (hs : Site.At f n s) (hwf : n.WellFormed)
    (hp : f.plan s = .ok p) : p.Fits := by
  obtain ⟨hspan, r, spans, rest, hr, hcop, hsources, hrest⟩ := plan_sources hp
  obtain ⟨hclamp, hord⟩ := hcop.clamped hs hwf hr
  obtain ⟨q, hq, -⟩ := hs.property
  have hkw := hs.callee_wellFormed hwf
  have hrq := hkw.object_before_property hs.member hr hq
  have hkn := hwf.within (hs.callee_mem hwf)
  have hstart := hwf.callStart_mem_receiver hs.kind hs.callee hs.member hr
  have hargs : ∀ a ∈ rest, r.stop < a.start ∧ a.start < a.stop ∧ a.stop ≤ n.stop := by
    intro a ha
    rcases hrest with rfl | ⟨b, hb, rfl⟩
    · simp at ha
    · simp only [List.mem_singleton] at ha
      subst ha
      exact arguments_bounds hs hwf hr hb
  have hall : ∀ a ∈ p.sources, n.callStart ≤ a.start ∧ a.start ≤ a.stop ∧ a.stop ≤ n.stop ∧
      (a.stop < n.stop ∨ n.callStart < a.start) := by
    intro a ha
    rw [hsources] at ha
    have := hs.start
    rcases List.mem_append.mp ha with ha | ha
    · have := hclamp a ha
      omega
    · have := hargs a ha
      omega
  refine ⟨fun a ha => (hall a ha).2.1, ?_, ?_⟩
  · intro a ha
    have := hall a ha
    rw [hspan, hs.span_eq]
    refine ⟨Span.within_iff.mpr ⟨this.1, this.2.2.1⟩, ?_⟩
    rintro rfl
    simp at this
  · rw [hsources, List.pairwise_append]
    refine ⟨hord, ?_, ?_⟩
    · rcases hrest with rfl | ⟨b, hb, rfl⟩
      · exact List.Pairwise.nil
      · exact List.pairwise_singleton _ _
    · intro a ha b hb
      have := hclamp a ha
      have := hargs b hb
      omega

/-- A plan cuts the text only where nodes of its call start or stop. -/
theorem plan_borders {n : Node} {s : Site} {p : Plan} (hs : Site.At f n s) (hwf : n.WellFormed)
    (hp : f.plan s = .ok p) :
    (n.HasBorder p.span.start ∧ n.HasBorder p.span.stop) ∧
      ∀ a ∈ p.sources, n.HasBorder a.start ∧ n.HasBorder a.stop := by
  obtain ⟨hspan, r, spans, rest, hr, hcop, hsources, hrest⟩ := plan_sources hp
  have hkw := hs.callee_wellFormed hwf
  have hrc := Node.mem_children_of_child? hr
  have hrm : r ∈ n.preorder := Node.preorder_trans
    (Node.mem_preorder.mpr (Or.inr (hs.callee_mem hwf)))
    (Node.mem_preorder.mpr (Or.inr (Node.mem_descendants_of_child hrc)))
  obtain ⟨m, hm, hms⟩ := hwf.exists_callStart
  have hstart : n.HasBorder s.start := by
    rw [hs.start, hms]
    exact Node.hasBorder_start hm
  refine ⟨?_, ?_⟩
  · rw [hspan, hs.span_eq, ← hs.start]
    exact ⟨hstart, Node.hasBorder_stop n.mem_preorder_self⟩
  · intro a ha
    rw [hsources] at ha
    rcases List.mem_append.mp ha with ha | ha
    · obtain ⟨b, hb, rfl⟩ := List.mem_map.mp ha
      have hborder := hcop.borders (hkw.child hrc) b hb
      refine ⟨?_, hborder.2.of_mem_preorder hrm⟩
      show n.HasBorder (max b.start s.start)
      rcases Nat.le_total b.start s.start with hle | hle
      · rw [Nat.max_eq_right hle]
        exact hstart
      · rw [Nat.max_eq_left hle]
        exact hborder.1.of_mem_preorder hrm
    · rcases hrest with rfl | ⟨x, hx, rfl⟩
      · simp at ha
      · simp only [List.mem_singleton] at ha
        subst ha
        rw [Site.arguments?, hs.call] at hx
        have hxm := Node.mem_preorder.mpr
          (Or.inr (Node.mem_descendants_of_child (Node.mem_children_of_child? hx)))
        exact ⟨Node.hasBorder_start hxm, Node.hasBorder_stop hxm⟩

/-- **No site lies across the border of a span that a plan copies.** -/
theorem plan_clear {n b : Node} {s t : Site} {p : Plan} (hs : Site.At f n s)
    (hwf : n.WellFormed) (hp : f.plan s = .ok p) (hb : b ∈ n.descendants)
    (ht : Site.At f b t) : ∀ a ∈ p.sources, t.span.within a = true ∨ t.span.apart a := by
  obtain ⟨hspan, r, spans, rest, hr, hcop, hsources, hrest⟩ := plan_sources hp
  have hin := Span.within_iff.mp (hs.inside ht hwf hb).1
  have hbounds := ht.span_bounds (hwf.of_mem_descendants hb)
  intro a ha
  rw [hsources] at ha
  rcases List.mem_append.mp ha with ha | ha
  · obtain ⟨c, hc, rfl⟩ := List.mem_map.mp ha
    have hclear := hcop.clear hs hwf hr hb ht c hc
    rw [hs.span_eq, ← hs.start] at hin
    simp only [Span.within_iff, Span.apart, Node.span, Span.clampStart] at hclear hin ⊢
    omega
  · rcases hrest with rfl | ⟨x, hx, rfl⟩
    · simp at ha
    · simp only [List.mem_singleton] at ha
      subst ha
      rw [Site.arguments?, hs.call] at hx
      have hxc := Node.mem_children_of_child? hx
      have hplace := hwf.mem_preorder_or_apart hxc hb
      have hinx : b ∈ x.preorder → x.start ≤ b.start ∧ b.stop ≤ x.stop :=
        (hwf.child hxc).within_of_mem_preorder
      simp only [Span.within_iff, Span.apart, Node.span]
      rcases hplace with hbx | hbx | hbx
      · have := hinx hbx
        omega
      · omega
      · omega

end SourceFile

end Promisify
