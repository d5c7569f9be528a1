import Promisify.Proofs.Parsing
import Promisify.Proofs.Rendering

set_option autoImplicit false

/-! # What stands around the pieces of a plan

A plan is written next to text of the source and next to other plans, so it matters which characters
the source has around it. Arguments stand between parentheses and commas, and a call stops with its
arguments; from this follows what stands in front of each span that a plan copies and behind the plan
(`Plan.Spaced`).

The spans of a plan that is cut in two need the most care: nothing that is replaced starts where the
second span starts, or neither the cut nor the text behind it follows a name.
-/

namespace Promisify

/-- What reading a file says about the text around its nodes. -/
structure SourceFile.Spaced (f : SourceFile) : Prop where
  edged : ∀ m ∈ f.root.preorder, m.Edged
  enclosed : ∀ m ∈ f.root.preorder, m.kind = .arguments → m.Enclosed f.text
  bare : ∀ m ∈ f.root.preorder, m.kind = .comment → m.children = []

theorem parse?_spaced {d : Dialect} {t : Text} {f : SourceFile} (h : parse? d t = .ok f) :
    f.Spaced where
  edged := parse?_edged h
  enclosed := by
    rw [parse?_text h]
    exact parse?_enclosed h
  bare := fun m hm hk => ((parse?_settled h m hm).1.comment hk).1

/-! ## Calls among arguments -/

namespace Node

/-- A call among arguments lies below one of them, for comments have nothing below them. -/
theorem Enclosed.exists_part {t : Text} {a b : Node} (h : a.Enclosed t)
    (hbare : ∀ c ∈ a.children, c.kind = .comment → c.children = []) (hb : b ∈ a.descendants)
    (hk : b.kind = .callExpression) : ∃ c ∈ a.codeParts, b ∈ c.preorder := by
  obtain ⟨c, hc, hbc⟩ := mem_descendants.mp hb
  rcases h.code c hc with hcode | hcomment
  · refine ⟨c, ?_, hbc⟩
    rw [codeParts_eq]
    exact List.mem_filter.mpr ⟨hc, hcode⟩
  · exfalso
    rcases mem_preorder.mp hbc with rfl | hbc
    · rw [hcomment] at hk
      exact absurd hk (by decide)
    · rw [descendants, hbare c hc hcomment] at hbc
      exact absurd hbc (by simp [preorderAll])

/-- A call among arguments starts behind the opening parenthesis. -/
theorem Enclosed.start_lt {t : Text} {a b : Node} (h : a.Enclosed t) (hwf : a.WellFormed)
    (hbare : ∀ c ∈ a.children, c.kind = .comment → c.children = []) (hb : b ∈ a.descendants)
    (hk : b.kind = .callExpression) : a.start < b.start := by
  obtain ⟨c, hc, hbc⟩ := h.exists_part hbare hb hk
  have hin := h.inside c hc
  have hbw := (hwf.child (mem_children_of_codeParts hc)).within_of_mem_preorder hbc
  omega

/-- Two parts among arguments are the same or have something between them. -/
theorem Enclosed.eq_or_apart {t : Text} {a x y : Node} (h : a.Enclosed t) (hx : x ∈ a.codeParts)
    (hy : y ∈ a.codeParts) : x = y ∨ x.stop < y.start ∨ y.stop < x.start := by
  by_cases hxy : x = y
  · exact Or.inl hxy
  · have hsymm : Std.Symm fun u v : Node => u.stop < v.start ∨ v.stop < u.start :=
      ⟨fun _ _ => Or.symm⟩
    have hpair : a.codeParts.Pairwise fun u v => u.stop < v.start ∨ v.stop < u.start :=
      h.apart.imp Or.inl
    exact Or.inr (hpair.forall hx hy hxy)

end Node

namespace SourceFile

variable {f : SourceFile}

/-! ## Where a pipeline is cut -/

/-- **What stands in front of a cut and behind it.** A cut from operator to operator has no name in
front of its ends; behind a cut at the ends of operators no name goes on and no site starts. -/
theorem PipelineAt.cut_spaced {r : Node} {p : Pipeline} {k a : Node} {c : Span}
    (h : f.PipelineAt r p k a) (hwf : r.WellFormed) (henc : a.Enclosed f.text)
    (hbare : ∀ m ∈ a.children, m.kind = .comment → m.children = []) (hc : p.trim = .cut c) :
    f.text.nameBefore c.start = false ∧ f.text.nameBefore c.stop = false ∨
      f.text.nameBehind c.stop = false ∧
        ∀ b ∈ r.descendants, ∀ t, Site.At f b t → t.span.start ≠ c.stop := by
  obtain ⟨i, x, y, hx, hy, hborders⟩ := h.cut_borders hc
  rw [h.operators] at hx hy
  have hx' := List.mem_of_getElem? hx
  have hy' := List.mem_of_getElem? hy
  have hxin := henc.inside x hx'
  have hyin := henc.inside y hy'
  rcases hborders with rfl | rfl
  · exact Or.inl ⟨hxin.2.2, hyin.2.2⟩
  · refine Or.inr ⟨henc.behind y hy', ?_⟩
    intro b hb t ht heq
    simp only at heq
    have hac := Node.mem_children_of_child? h.arguments
    have haw := hwf.child hac
    have hyw := haw.within (Node.mem_descendants_of_child (Node.mem_children_of_codeParts hy'))
    have htb := ht.span_bounds (hwf.of_mem_descendants hb)
    rcases hwf.mem_preorder_or_apart hac hb with hba | hba | hba
    · rcases Node.mem_preorder.mp hba with hba | hba
      · exact absurd hba (Node.kind_ne_of_eq h.argumentsKind (by decide) ht.kind)
      · -- the site lies below one of the operators, before `y`, in it or behind it
        obtain ⟨z, hz, hbz⟩ := henc.exists_part hbare hba ht.kind
        have hzw := (haw.child (Node.mem_children_of_codeParts hz)).within_of_mem_preorder hbz
        rcases henc.eq_or_apart hz hy' with rfl | hzy | hzy
        · omega
        · omega
        · omega
    · omega
    · omega

/-- The spans that make up the argument of a helper: one, or two around a cut. -/
theorem Copied.spaced {n r : Node} {s : Site} {spans : List Span} (hcop : Copied f r spans)
    (hs : Site.At f n s) (hwf : n.WellFormed) (hr : s.receiver? = some r)
    (henc : ∀ m ∈ r.preorder, m.kind = .arguments → m.Enclosed f.text)
    (hbare : ∀ m ∈ r.preorder, m.kind = .comment → m.children = []) :
    (∃ x, spans = [x]) ∨ ∃ x y, spans = [x, y] ∧ s.start ≤ y.start ∧
      (f.text.nameBefore x.stop = false ∧ f.text.nameBefore y.start = false ∨
        f.text.nameBehind y.start = false ∧ ∀ b ∈ n.descendants, ∀ t, Site.At f b t →
          t.span.within y = true → t.span.start ≠ y.start) := by
  obtain ⟨hin, hord⟩ := hcop.bounds hs hwf hr
  have hrw := (hs.callee_wellFormed hwf).child (Node.mem_children_of_child? hr)
  cases hcop with
  | whole => exact Or.inl ⟨_, rfl⟩
  | source hp => exact Or.inl ⟨_, rfl⟩
  | @cut p k args c hp hc =>
      refine Or.inr ⟨_, _, rfl, ?_, ?_⟩
      · have hx := (hin ⟨r.start, c.start⟩ (by simp)).1
        have hxy := List.pairwise_pair.mp hord
        simp only at hx hxy ⊢
        omega
      · have hargs : args ∈ r.preorder := Node.mem_preorder.mpr
          (Or.inr (Node.mem_descendants_of_child (Node.mem_children_of_child? hp.arguments)))
        have hchild : ∀ m ∈ args.children, m ∈ r.preorder := fun m hm =>
          Node.preorder_trans hargs
            (Node.mem_preorder.mpr (Or.inr (Node.mem_descendants_of_child hm)))
        refine (hp.cut_spaced hrw (henc args hargs hp.argumentsKind)
          (fun m hm => hbare m (hchild m hm)) hc).imp id ?_
        rintro ⟨hbehind, hcut⟩
        refine ⟨hbehind, ?_⟩
        intro b hb t ht hin' heq
        have htb := ht.span_bounds (hwf.of_mem_descendants hb)
        have hcb := hp.cut_bounds hrw hc
        have hw := Span.within_iff.mp hin'
        simp only at hw heq
        rcases hwf.receiver_or_apart hs.callee hs.member hr hb ht.kind with hbr | hbr | hbr
        · rcases Node.mem_preorder.mp hbr with rfl | hbr
          · exact hp.not_site ht
          · exact hcut b hbr t ht heq
        · omega
        · omega

/-- A site inside another site is at a call below the other one's. -/
theorem mem_descendants_of_inside (h : f.root.WellFormed) {n m : Node} {s t : Site}
    (hn : n ∈ f.root.preorder) (hm : m ∈ f.root.preorder) (hs : Site.At f n s)
    (ht : Site.At f m t) (hin : t.span.inside s.span) : m ∈ n.descendants := by
  have hsymm : Std.Symm fun a b : Node => (b ∈ a.descendants ∨ a.stop ≤ b.start) ∨
      (a ∈ b.descendants ∨ b.stop ≤ a.start) := ⟨fun _ _ => Or.symm⟩
  have hpair : f.root.preorder.Pairwise fun a b => (b ∈ a.descendants ∨ a.stop ≤ b.start) ∨
      (a ∈ b.descendants ∨ b.stop ≤ a.start) := h.preorder_pairwise.imp Or.inl
  have hsb := hs.span_bounds (h.of_mem_preorder hn)
  have htb := ht.span_bounds (h.of_mem_preorder hm)
  have hw := Span.within_iff.mp hin.1
  have hne : n ≠ m := by
    rintro rfl
    apply hin.2
    rw [hs.span_eq, ht.span_eq]
  rcases hpair.forall hn hm hne with (hbelow | hafter) | (habove | hbefore)
  · exact hbelow
  · omega
  · exact absurd (ht.inside hs (h.of_mem_preorder hm) habove) (Span.inside_asymm hin)
  · omega

end SourceFile

/-! ## Plans -/

namespace Plan

/-- The piece with which a plan starts: its helper and a parenthesis. -/
def opening (q : Plan) : Piece := .text (q.helper.name ++ ['('])

/-- What stands around the pieces of a plan, where the plans `ps` are carried out: the plan and the
text copied last end in no name, and where another plan starts with a copied span, this is the first
span behind the parenthesis or neither side of the cut in front of it follows a name. -/
structure Spaced (t : Text) (ps : List Plan) (q : Plan) : Prop where
  stop : t.nameBefore q.span.stop = false
  opens : ∃ rest, q.pieces = q.opening :: rest
  closes : q.pieces.getLast? = some (.text [')']) ∨
    ∃ a, q.pieces.getLast? = some (.source a) ∧ a.start < a.stop ∧ t.nameBefore a.stop = false
  lead : ∀ before a after, q.pieces = before ++ .source a :: after →
    ∀ p ∈ ps, p.span.within a = true → p.span.start = a.start →
      before = [q.opening] ∨
        t.nameBefore a.start = false ∧ ∃ b, before = [q.opening, .source b] ∧
          t.nameBefore b.stop = false

/-- In front of every copied span stands the opening. -/
theorem Spaced.exists_front {t : Text} {ps : List Plan} {q : Plan} (h : q.Spaced t ps)
    {before after : List Piece} {a : Span} (hsplit : q.pieces = before ++ .source a :: after) :
    ∃ front, before = q.opening :: front := by
  obtain ⟨rest, hrest⟩ := h.opens
  rw [hsplit] at hrest
  cases before with
  | nil => simp [opening] at hrest
  | cons piece front =>
      rw [List.cons_append, List.cons.injEq] at hrest
      exact ⟨front, by rw [hrest.1]⟩

end Plan

namespace SourceFile

variable {f : SourceFile}

/-- A site with a plan is called with arguments in parentheses. -/
theorem arguments_of_argument {s : Site} {x : Helper × List Span}
    (h : (f.shape s).argument = .ok x) :
    ∃ a, s.arguments? = some a ∧ a.kind = .arguments := by
  unfold shape at h
  split at h
  · simp [Shape.argument] at h
  · split at h
    · simp [Shape.argument] at h
    · next a ha =>
        refine ⟨a, ha, ?_⟩
        split at h
        · simp [Shape.argument] at h
        · next hk => simpa using hk

/-- The text by which the argument of a helper is said to be a stream. -/
def assertion : Text := " as ".toList ++ Vocabulary.observable

/-- The text between the argument of a helper and that of the continuation. -/
def continuing : Text := ").".toList ++ Vocabulary.continuation

/-- The pieces behind the argument of a helper, for a site at the call `n`: a parenthesis, perhaps
behind the types of the call, or the arguments of the call for a continuation. -/
inductive Closing (f : SourceFile) (n : Node) : List Piece → Prop
  | plain : Closing f n [.text [')']]
  | asserted {types : Node} (h : n.child? .typeArguments = some types) :
      Closing f n [.text (assertion ++ f.textOf types), .text [')']]
  | continued {a : Node} (h : n.child? .arguments = some a) :
      Closing f n [.text continuing, .source a.span]

theorem closing_cases {s : Site} {h : Helper} {asserts : Bool} {rest : List Piece}
    (hc : f.closing s h = .ok (asserts, rest)) : Closing f s.call rest := by
  unfold closing at hc
  split at hc
  · split at hc
    · next types htypes =>
        cases hc
        exact .asserted htypes
    · cases hc
      exact .plain
  · split at hc
    · split at hc
      · next a ha =>
          cases hc
          exact .continued ha
      · cases hc
    · cases hc

/-- Where a copied span stands among the pieces behind the opening: it is a span of the argument, or
the last piece. -/
theorem source_cases {spans : List Span} {rest before after : List Piece} {a : Span}
    (hrest : ∀ b l, rest ≠ .source b :: l)
    (h : spans.map Piece.source ++ rest = before ++ .source a :: after) :
    (∃ x y, spans = x ++ a :: y ∧ before = x.map Piece.source) ∨ ∃ x, rest = x ++ .source a :: after := by
  rcases List.append_eq_append_iff.mp h with ⟨m, hbefore, hr⟩ | ⟨m, hmap, hr⟩
  · exact Or.inr ⟨m, hr⟩
  · cases m with
    | nil =>
        rw [List.nil_append] at hr
        exact absurd hr.symm (hrest a after)
    | cons piece m =>
        rw [List.cons_append, List.cons.injEq] at hr
        rw [← hr.1] at hmap
        obtain ⟨x, z, rfl, rfl, hz⟩ := List.map_eq_append_iff.mp hmap
        obtain ⟨b, y, rfl, hb, -⟩ := List.map_eq_cons_iff.mp hz
        rw [Piece.source.injEq] at hb
        exact Or.inl ⟨x, y, by rw [hb], rfl⟩

/-- A site inside a span that a plan copies is at a call below the plan's own. -/
theorem mem_descendants_of_source (h : f.root.WellFormed) {n m : Node} {s t : Site} {q : Plan}
    {a : Span} (hn : n ∈ f.root.preorder) (hm : m ∈ f.root.preorder) (hs : Site.At f n s)
    (ht : Site.At f m t) (hq : f.plan s = .ok q) (ha : a ∈ q.sources)
    (hin : t.span.within a = true) : m ∈ n.descendants := by
  have hfits := plan_fits hs (h.of_mem_preorder hn) hq
  have hspan := (plan_sources hq).1
  refine mem_descendants_of_inside h hn hm hs ht ⟨?_, ?_⟩
  · rw [← hspan]
    exact Plan.within_trans hin (hfits.inside a ha).1
  · intro heq
    rw [heq, ← hspan, hfits.not_within ha] at hin
    exact Bool.noConfusion hin

/-- No site starts with the arguments of another one. -/
theorem start_ne_arguments {n m a : Node} {t : Site} (hwf : n.WellFormed) (ht : Site.At f m t)
    (hm : m ∈ n.descendants) (ha : n.child? .arguments = some a) (hak : a.kind = .arguments)
    (henc : a.Enclosed f.text) (hbare : ∀ c ∈ a.children, c.kind = .comment → c.children = [])
    (hin : t.span.within a.span = true) : t.span.start ≠ a.start := by
  intro heq
  have hac := Node.mem_children_of_child? ha
  have hw := Span.within_iff.mp hin
  have htb := ht.span_bounds (hwf.of_mem_descendants hm)
  simp only [Node.span] at hw
  rcases hwf.mem_preorder_or_apart hac hm with hma | hma | hma
  · rcases Node.mem_preorder.mp hma with hma | hma
    · exact absurd hma (Node.kind_ne_of_eq hak (by decide) ht.kind)
    · have := henc.start_lt (hwf.child hac) hbare hma ht.kind
      omega
  · omega
  · omega

/-- The parts of the plan `q` for the site `s` at the call `n`: behind the opening the `spans` that
are copied of the receiver `r`, then the pieces `rest`; the call has the arguments `a`. -/
structure PlanAt (f : SourceFile) (n : Node) (s : Site) (q : Plan) (r a : Node) (spans : List Span)
    (rest : List Piece) : Prop where
  site : Site.At f n s
  plan : f.plan s = .ok q
  receiver : s.receiver? = some r
  copied : Copied f r spans
  arguments : n.child? .arguments = some a
  argumentsKind : a.kind = .arguments
  pieces : q.pieces =
    q.opening :: ((spans.map (Span.clampStart s.start)).map Piece.source ++ rest)
  closing : Closing f n rest

theorem exists_planAt {n : Node} {s : Site} {q : Plan} (hs : Site.At f n s) (hq : f.plan s = .ok q) :
    ∃ r a spans rest, f.PlanAt n s q r a spans rest := by
  obtain ⟨helper, spans, asserts, rest, harg, hclose, hpieces⟩ := plan_eq_ok hq
  obtain ⟨r, hr, hcop⟩ := argument_copied harg
  obtain ⟨a, ha, hak⟩ := arguments_of_argument harg
  refine ⟨r, a, spans, rest, hs, hq, hr, hcop, ?_, hak, ?_, ?_⟩
  · rw [← hs.call]
    exact ha
  · rw [hpieces, List.map_map]
    rfl
  · rw [← hs.call]
    exact closing_cases hclose

namespace PlanAt

variable {n r a : Node} {s : Site} {q : Plan} {spans : List Span} {rest : List Piece}

/-- The arguments are a node of the file, between parentheses. -/
theorem enclosed (h : f.PlanAt n s q r a spans rest) (hf : f.Spaced) (hn : n ∈ f.root.preorder) :
    a.Enclosed f.text ∧ ∀ c ∈ a.children, c.kind = .comment → c.children = [] := by
  have ha : a ∈ f.root.preorder := Node.preorder_trans hn (Node.mem_preorder.mpr
    (Or.inr (Node.mem_descendants_of_child (Node.mem_children_of_child? h.arguments))))
  refine ⟨hf.enclosed a ha h.argumentsKind, fun c hc => hf.bare c ?_⟩
  exact Node.preorder_trans ha (Node.mem_preorder.mpr (Or.inr (Node.mem_descendants_of_child hc)))

/-- A call stops with its arguments, so no name reaches up to the end of the plan. -/
theorem stop (h : f.PlanAt n s q r a spans rest) (hedge : n.Edged) (henc : a.Enclosed f.text) :
    f.text.nameBefore q.span.stop = false := by
  have hstop := hedge.closing h.site.kind
  rw [h.arguments, Option.map_some, Option.some.injEq] at hstop
  rw [(plan_sources h.plan).1, h.site.span_eq, ← hstop]
  exact henc.closed

theorem closes (h : f.PlanAt n s q r a spans rest) (hwf : n.WellFormed) (henc : a.Enclosed f.text) :
    q.pieces.getLast? = some (.text [')']) ∨
      ∃ b, q.pieces.getLast? = some (.source b) ∧ b.start < b.stop ∧
        f.text.nameBefore b.stop = false := by
  have hlast : rest ≠ [] → q.pieces.getLast? = rest.getLast? := by
    intro hne
    rw [h.pieces, ← List.cons_append, List.getLast?_append, List.getLast?_eq_some_getLast hne,
      Option.some_or]
  have hclosing := h.closing
  cases hclosing with
  | plain => exact Or.inl (hlast (by simp))
  | asserted _ => exact Or.inl (hlast (by simp))
  | continued hb =>
      cases h.arguments.symm.trans hb
      exact Or.inr ⟨a.span, hlast (by simp),
        hwf.fits.nonempty a (Node.mem_children_of_child? h.arguments), henc.closed⟩

/-- A copied span is one of the receiver's, or it is the arguments. -/
theorem source_cases (h : f.PlanAt n s q r a spans rest) {before after : List Piece} {b : Span}
    (hsplit : q.pieces = before ++ .source b :: after) :
    (∃ x y, spans.map (Span.clampStart s.start) = x ++ b :: y ∧
      before = q.opening :: x.map Piece.source) ∨ b = a.span := by
  rw [h.pieces] at hsplit
  cases before with
  | nil => simp [Plan.opening] at hsplit
  | cons first before =>
      rw [List.cons_append, List.cons.injEq] at hsplit
      obtain ⟨rfl, hsplit⟩ := hsplit
      have hclosing := h.closing
      have hrest : ∀ c l, rest ≠ .source c :: l := by
        intro c l
        cases hclosing <;> simp
      rcases SourceFile.source_cases hrest hsplit with ⟨x, y, hx, rfl⟩ | ⟨x, hx⟩
      · exact Or.inl ⟨x, y, hx, rfl⟩
      · -- the only span behind the receiver's is that of the arguments
        have hmem : Piece.source b ∈ rest := by
          rw [hx]
          simp
        cases hclosing with
        | plain => simp at hmem
        | asserted _ => simp at hmem
        | continued hb =>
            cases h.arguments.symm.trans hb
            exact Or.inr (by simpa using hmem)

/-- What is copied of the receiver: one span, or two around a cut. The second one starts behind the
site's own start. -/
theorem spans_cases (h : f.PlanAt n s q r a spans rest) (hf : f.Spaced) (hn : n ∈ f.root.preorder)
    (hwf : n.WellFormed) :
    (∃ x, spans.map (Span.clampStart s.start) = [x]) ∨
      ∃ x y, spans.map (Span.clampStart s.start) = [x, y] ∧
        (f.text.nameBefore x.stop = false ∧ f.text.nameBefore y.start = false ∨
          f.text.nameBehind y.start = false ∧ ∀ b ∈ n.descendants, ∀ t, Site.At f b t →
            t.span.within y = true → t.span.start ≠ y.start) := by
  -- everything below the receiver is a node of the file
  have hreceiver : ∀ k ∈ r.preorder, k ∈ f.root.preorder := by
    intro k hk
    have hrn := Node.mem_descendants_of_child (Node.mem_children_of_child? h.receiver)
    have hrc := Node.preorder_trans
      (Node.mem_preorder.mpr (Or.inr (h.site.callee_mem hwf)))
      (Node.mem_preorder.mpr (Or.inr hrn))
    exact Node.preorder_trans hn (Node.preorder_trans hrc hk)
  rcases h.copied.spaced h.site hwf h.receiver (fun k hk => hf.enclosed k (hreceiver k hk))
    (fun k hk => hf.bare k (hreceiver k hk)) with ⟨u, rfl⟩ | ⟨u, v, rfl, hle, hspaced⟩
  · exact Or.inl ⟨_, rfl⟩
  · have hv : v.clampStart s.start = v := by
      rw [Span.clampStart, Nat.max_eq_left hle]
    refine Or.inr ⟨u.clampStart s.start, v, ?_, hspaced⟩
    rw [List.map_cons, List.map_cons, List.map_nil, hv]

/-- What stands in front of a copied span with which another site starts. -/
theorem lead (h : f.PlanAt n s q r a spans rest) (hf : f.Spaced) (hn : n ∈ f.root.preorder)
    (hwf : n.WellFormed) {before after : List Piece} {b : Span}
    (hsplit : q.pieces = before ++ .source b :: after) {m : Node} {t : Site} (hm : m ∈ n.descendants)
    (ht : Site.At f m t) (hin : t.span.within b = true) (hstart : t.span.start = b.start) :
    before = [q.opening] ∨
      f.text.nameBefore b.start = false ∧ ∃ c, before = [q.opening, .source c] ∧
        f.text.nameBefore c.stop = false := by
  rcases h.source_cases hsplit with ⟨x, y, hx, rfl⟩ | rfl
  · rcases h.spans_cases hf hn hwf with ⟨u, hu⟩ | ⟨u, v, hu, hspaced⟩
    · cases x with
      | nil => exact Or.inl rfl
      | cons c x => simp [hu] at hx
    · cases x with
      | nil => exact Or.inl rfl
      | cons c x =>
          cases x with
          | nil =>
              simp only [hu, List.cons_append, List.nil_append, List.cons.injEq] at hx
              obtain ⟨rfl, rfl, -⟩ := hx
              rcases hspaced with ⟨hu, hv⟩ | ⟨-, hnone⟩
              · exact Or.inr ⟨hv, _, rfl, hu⟩
              · exact absurd hstart (hnone m hm t ht hin)
          | cons c' x => simp [hu] at hx
  · obtain ⟨henc, hbare⟩ := h.enclosed hf hn
    exact absurd hstart
      (start_ne_arguments hwf ht hm h.arguments h.argumentsKind henc hbare hin)

end PlanAt

/-- **The plans of a file are spaced.** -/
theorem plans_spaced (h : f.WellFormed) (hf : f.Spaced) {q : Plan} (hq : q ∈ f.plans) :
    q.Spaced f.text f.plans := by
  obtain ⟨n, hn, s, hs, hplan⟩ := mem_plans h.tree hq
  have hwf := h.tree.of_mem_preorder hn
  obtain ⟨r, a, spans, rest, hat⟩ := exists_planAt hs hplan
  obtain ⟨henc, -⟩ := hat.enclosed hf hn
  refine ⟨hat.stop (hf.edged n hn) henc, ⟨_, hat.pieces⟩, hat.closes hwf henc, ?_⟩
  intro before b after hsplit p hp hin hstart
  obtain ⟨m, hm, t, ht, hpt⟩ := mem_plans h.tree hp
  rw [(plan_sources hpt).1] at hin hstart
  have hmn := mem_descendants_of_source h.tree hn hm hs ht hplan (Plan.mem_sources_of_split hsplit) hin
  exact hat.lead hf hn hwf hsplit hmn ht hin hstart

end SourceFile

end Promisify
