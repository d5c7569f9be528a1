import Promisify.Proofs.Migrations

set_option autoImplicit false

/-! # Line breaks of a migrated file

A file writes its line breaks with a carriage return or without. A migration writes words and one line
break of its own, and copies the rest in slices that start where a node of the tree starts or stops. So
what decides about the line breaks of the output is which properties of texts carry over to texts put
together (`Text.LineStyle`), and whether the slices have them (`SourceFile.Keeps`).

Two properties are followed through a migration this way: that there is no carriage return, and that
every line feed comes after one (`Text.Paired`). The second one needs that no slice starts between the
two characters of a line break.
-/

namespace Promisify

/-! ## Line breaks of a text -/

namespace Text

/-- Every line feed comes after a carriage return. -/
def Paired (t : Text) : Prop := ∀ u v, t = u ++ '\n' :: v → u.getLast? = some '\r'

/-- Whether every line feed comes after a carriage return, where `previous` is the character before
the text. -/
def pairedFrom (previous : Option Char) : Text → Bool
  | [] => true
  | c :: cs => (c != '\n' || previous == some '\r') && pairedFrom (some c) cs

/-- Whether an offset lies between a carriage return and the line feed after it. -/
def splitsBreak (t : Text) (k : Nat) : Bool :=
  (t.splitAt? k).any fun p => p.1.getLast? == some '\r' && p.2.head? == some '\n'

/-- A text in one line. -/
def Unbroken (t : Text) : Prop := '\r' ∉ t ∧ '\n' ∉ t

instance (t : Text) : Decidable t.Unbroken := inferInstanceAs (Decidable (_ ∧ _))

variable {t u : Text}

theorem Unbroken.append (ht : t.Unbroken) (hu : u.Unbroken) : (t ++ u).Unbroken := by
  unfold Unbroken at ht hu ⊢
  simp only [List.mem_append, not_or]
  exact ⟨⟨ht.1, hu.1⟩, ht.2, hu.2⟩

theorem Unbroken.join {sep : Text} {ts : List Text} (hsep : sep.Unbroken)
    (hts : ∀ t ∈ ts, Unbroken t) : (Text.join sep ts).Unbroken := by
  fun_induction Text.join sep ts with
  | case1 => decide
  | case2 t => exact hts t List.mem_cons_self
  | case3 t u ts ih =>
      have hrest := ih fun v hv => hts v (List.mem_cons_of_mem t hv)
      exact ((hts t List.mem_cons_self).append hsep).append hrest

theorem Unbroken.flatMap {sep : Text} {ts : List Text} (hsep : sep.Unbroken)
    (hts : ∀ t ∈ ts, Unbroken t) : Unbroken (ts.flatMap fun t => sep ++ t) := by
  induction ts with
  | nil => exact (by decide : Unbroken [])
  | cons t ts ih =>
      have hrest := ih fun v hv => hts v (List.mem_cons_of_mem t hv)
      exact (hsep.append (hts t List.mem_cons_self)).append hrest

theorem pairedFrom_iff (previous : Option Char) (t : Text) : pairedFrom previous t = true ↔
    ∀ u v, t = u ++ '\n' :: v → u.getLast?.or previous = some '\r' := by
  induction t generalizing previous with
  | nil => simp [pairedFrom]
  | cons c t ih =>
      rw [pairedFrom, Bool.and_eq_true, Bool.or_eq_true, bne_iff_ne, beq_iff_eq, ih]
      constructor
      · rintro ⟨hc, ht⟩ u v heq
        cases u with
        | nil =>
            rw [List.nil_append, List.cons.injEq] at heq
            exact hc.resolve_left (not_not.mpr heq.1)
        | cons a u =>
            rw [List.cons_append, List.cons.injEq] at heq
            have hu := ht u v heq.2
            rw [List.getLast?_cons, ← heq.1]
            cases hlast : u.getLast? with
            | none => simpa [hlast] using hu
            | some b => simpa [hlast] using hu
      · intro h
        constructor
        · by_cases hc : c = '\n'
          · right
            subst hc
            exact h [] t rfl
          · exact Or.inl hc
        · intro u v heq
          have hu := h (c :: u) v (by rw [heq, List.cons_append])
          rw [List.getLast?_cons] at hu
          cases hlast : u.getLast? with
          | none => simpa [hlast] using hu
          | some b => simpa [hlast] using hu

theorem paired_iff : t.Paired ↔ pairedFrom none t = true := by
  rw [pairedFrom_iff]
  simp [Paired]

instance (t : Text) : Decidable t.Paired := decidable_of_iff _ paired_iff.symm

/-- A property of texts that only line breaks decide: a text in one line has it, and two texts that
have it make up one that has it. -/
structure LineStyle (P : Text → Prop) : Prop where
  unbroken : ∀ t, Unbroken t → P t
  append : ∀ t u, P t → P u → P (t ++ u)

theorem Paired.append (ht : t.Paired) (hu : u.Paired) : (t ++ u).Paired := by
  intro x y heq
  rcases List.append_eq_append_iff.mp heq with ⟨m, rfl, hm⟩ | ⟨m, rfl, hm⟩
  · -- the line feed stands in the second text
    have hlast := hu m y hm
    rw [List.getLast?_append, hlast]
    rfl
  · cases m with
    | nil =>
        have hlast := hu [] y hm.symm
        cases hlast
    | cons c m =>
        rw [List.cons_append, List.cons.injEq] at hm
        exact ht x m (by rw [← hm.1])

theorem lineStyle_paired : LineStyle Paired where
  unbroken := by
    intro t ht u v heq
    refine absurd ?_ ht.2
    rw [heq]
    simp
  append := fun t u => Paired.append

theorem lineStyle_bare : LineStyle fun t => '\r' ∉ t where
  unbroken := fun t ht => ht.1
  append := by
    intro t u ht hu hmem
    rcases List.mem_append.mp hmem with hmem | hmem
    · exact ht hmem
    · exact hu hmem

/-- A slice of a text has paired line breaks when it does not start inside one. -/
theorem Paired.slice {m : Text} {a b : Nat} (h : t.Paired) (ha : t.splitsBreak a = false)
    (hm : t.slice? a b = some m) : m.Paired := by
  obtain ⟨u, v, rfl, rfl, -⟩ := slice?_eq_some_iff.mp hm
  intro x y heq
  subst heq
  have hlast := h (u ++ x) (y ++ v) (by simp)
  rw [List.getLast?_append] at hlast
  cases x with
  | nil =>
      -- the slice starts with the line feed, so it starts inside a line break
      have hsplit : splitsBreak (u ++ ([] ++ '\n' :: y) ++ v) (size u) = true := by
        rw [splitsBreak, List.append_assoc, splitAt?_append]
        simpa using hlast
      rw [hsplit] at ha
      cases ha
  | cons c x =>
      rw [List.getLast?_eq_some_getLast (List.cons_ne_nil c x)] at hlast ⊢
      exact hlast

theorem splitsBreak_zero (t : Text) : t.splitsBreak 0 = false := by
  rw [splitsBreak, show t.splitAt? 0 = some ([], t) from splitAt?_append [] t]
  rfl

/-! The line break that a text is written with is that of its first line. -/

theorem lineBreakFrom_append {u : Text} (previous : Option Char) (v : Text) (hu : '\n' ∉ u) :
    lineBreakFrom previous (u ++ '\n' :: v) =
      if u.getLast?.or previous = some '\r' then ['\r', '\n'] else ['\n'] := by
  induction u generalizing previous with
  | nil =>
      rw [List.nil_append, lineBreakFrom, if_pos rfl]
      rfl
  | cons c u ih =>
      rw [List.mem_cons, not_or] at hu
      rw [List.cons_append, lineBreakFrom, if_neg (Ne.symm hu.1), ih _ hu.2, List.getLast?_cons]
      cases u.getLast? with
      | none => rfl
      | some d => rfl

theorem lineBreakFrom_of_notMem (previous : Option Char) (h : '\n' ∉ t) :
    lineBreakFrom previous t = ['\n'] := by
  induction t generalizing previous with
  | nil => rfl
  | cons c t ih =>
      rw [List.mem_cons, not_or] at h
      rw [lineBreakFrom, if_neg (Ne.symm h.1), ih _ h.2]

theorem Paired.lineBreak (h : t.Paired) (hmem : '\n' ∈ t) : t.lineBreak = ['\r', '\n'] := by
  obtain ⟨u, v, rfl, hu⟩ := List.eq_append_cons_of_mem hmem
  rw [Text.lineBreak, lineBreakFrom_append none v hu, h u v rfl]
  rfl

theorem lineBreak_bare (h : '\r' ∉ t) : '\r' ∉ t.lineBreak := by
  by_cases hmem : '\n' ∈ t
  · obtain ⟨u, v, rfl, hu⟩ := List.eq_append_cons_of_mem hmem
    have hlast : u.getLast?.or none ≠ some '\r' := by
      intro hlast
      rw [Option.or_none] at hlast
      exact h (List.mem_append_left _ (List.mem_of_getLast? hlast))
    rw [Text.lineBreak, lineBreakFrom_append none v hu, if_neg hlast]
    decide
  · rw [Text.lineBreak, lineBreakFrom_of_notMem none hmem]
    decide

/-- All slices from the offset `k` on have the property `P`. -/
def SlicesFrom (t : Text) (P : Text → Prop) (k : Nat) : Prop := ∀ b m, t.slice? k b = some m → P m

end Text

variable {P : Text → Prop} {t : Text}

/-! ## Plans and edits -/

namespace Plan

/-- The texts that a plan writes have the property, and so have the slices that its copied spans and
what follows it start with. -/
structure InStyle (t : Text) (P : Text → Prop) (p : Plan) : Prop where
  texts : ∀ u, .text u ∈ p.pieces → P u
  sources : ∀ a, .source a ∈ p.pieces → t.SlicesFrom P a.start
  stop : t.SlicesFrom P p.span.stop

variable {inside : Span → Option Rendering} {ps : List Plan} {r : Rendering}

theorem style_renderPieces (hP : Text.LineStyle P) {pieces : List Piece}
    (htexts : ∀ u, .text u ∈ pieces → P u)
    (hsources : ∀ a, .source a ∈ pieces → ∀ b, inside a = some b → P b.text)
    (h : renderPieces inside pieces = some r) : P r.text := by
  induction pieces generalizing r with
  | nil =>
      cases h
      exact hP.unbroken [] (by decide)
  | cons piece pieces ih =>
      have htexts' : ∀ u, .text u ∈ pieces → P u := fun u hu => htexts u (List.mem_cons_of_mem _ hu)
      have hsources' : ∀ a, .source a ∈ pieces → ∀ b, inside a = some b → P b.text :=
        fun a ha => hsources a (List.mem_cons_of_mem _ ha)
      cases piece with
      | text u =>
          obtain ⟨b, hb, rfl⟩ := Option.map_eq_some_iff.mp h
          exact hP.append _ _ (htexts u List.mem_cons_self) (ih htexts' hsources' hb)
      | source a =>
          simp only [renderPieces, Option.bind_eq_bind, Option.bind_eq_some_iff, Option.pure_def,
            Option.some.injEq] at h
          obtain ⟨x, hx, y, hy, rfl⟩ := h
          exact hP.append _ _ (hsources a List.mem_cons_self x hx) (ih htexts' hsources' hy)

theorem style_renderFrom (hP : Text.LineStyle P) {stop cursor : Nat}
    (hcursor : t.SlicesFrom P cursor) (hps : ∀ p ∈ ps, p.InStyle t P)
    (hbody : ∀ p ∈ ps, ∀ b, renderPieces inside p.pieces = some b → P b.text)
    (h : renderFrom inside t stop cursor ps = some r) : P r.text := by
  induction ps generalizing cursor r with
  | nil =>
      obtain ⟨u, hu, rfl⟩ := Option.map_eq_some_iff.mp h
      exact hcursor stop u hu
  | cons p ps ih =>
      have hps' : ∀ q ∈ ps, q.InStyle t P := fun q hq => hps q (List.mem_cons_of_mem p hq)
      have hbody' : ∀ q ∈ ps, ∀ b, renderPieces inside q.pieces = some b → P b.text :=
        fun q hq => hbody q (List.mem_cons_of_mem p hq)
      rw [renderFrom] at h
      split at h
      · exact ih hcursor hps' hbody' h
      · simp only [Option.bind_eq_bind, Option.bind_eq_some_iff, Option.pure_def,
          Option.some.injEq] at h
        obtain ⟨gap, hgap, b, hb, rest, hrest, rfl⟩ := h
        -- the copied text up to the plan, the plan, and what follows it
        have hfront : P gap := hcursor p.span.start gap hgap
        have hplan : P b.text := hbody p List.mem_cons_self b hb
        have hback : P rest.text := ih (hps p List.mem_cons_self).stop hps' hbody' hrest
        exact hP.append _ _ hfront (hP.append _ _ hplan hback)

/-- **What the texts and slices have that plans are made of, the rendered text has.** -/
theorem style_render (hP : Text.LineStyle P) (hps : ∀ p ∈ ps, p.InStyle t P) {fuel : Nat}
    {s : Span} (hs : t.SlicesFrom P s.start) (h : render t ps fuel s = some r) : P r.text := by
  induction fuel generalizing s r with
  | zero => simp [render] at h
  | succ fuel ih =>
      refine style_renderFrom hP hs hps ?_ h
      intro p hp b hb
      refine style_renderPieces hP (hps p hp).texts ?_ hb
      intro a ha c hc
      exact ih ((hps p hp).sources a ha) hc

end Plan

/-- **What the texts of edits and the slices between them have, the edited text has.** -/
theorem Edits.style_applyFrom (hP : Text.LineStyle P) {es : List Edit} {cursor : Nat} {r : Text}
    (hes : ∀ e ∈ es, P e.text ∧ t.SlicesFrom P e.span.stop) (hcursor : t.SlicesFrom P cursor)
    (h : applyFrom t cursor es = some r) : P r := by
  induction es generalizing cursor r with
  | nil =>
      obtain ⟨⟨u, v⟩, huv, rfl⟩ := Option.map_eq_some_iff.mp h
      obtain ⟨rfl, rfl⟩ := Text.splitAt?_eq_some_iff.mp huv
      exact hcursor _ v (Text.slice?_eq_some_iff.mpr ⟨u, [], (List.append_nil _).symm, rfl, rfl⟩)
  | cons e es ih =>
      have hes' : ∀ d ∈ es, P d.text ∧ t.SlicesFrom P d.span.stop :=
        fun d hd => hes d (List.mem_cons_of_mem e hd)
      obtain ⟨htext, hstop⟩ := hes e List.mem_cons_self
      rw [applyFrom] at h
      split at h
      · exact ih hes' hcursor h
      · simp only [Option.bind_eq_bind, Option.bind_eq_some_iff, Option.pure_def,
          Option.some.injEq] at h
        obtain ⟨kept, hkept, rest, hrest, rfl⟩ := h
        exact hP.append _ _ (hP.append _ _ (hcursor _ kept hkept) htext) (ih hes' hstop hrest)

/-! ## Files -/

namespace SourceFile

variable {f : SourceFile}

/-- The offsets from which on a file is copied: its start, the borders of its nodes, and behind a line
break at such a border. -/
inductive Resumes (f : SourceFile) : Nat → Prop
  | start : Resumes f 0
  | border {k : Nat} (h : f.root.HasBorder k) : Resumes f k
  | pastLineBreak {k : Nat} (h : f.root.HasBorder k) : Resumes f (f.pastLineBreak k)

/-- Whatever is copied of a file has the property `P`. -/
def Keeps (f : SourceFile) (P : Text → Prop) : Prop := ∀ k, f.Resumes k → f.text.SlicesFrom P k

/-- No node starts or stops between a carriage return and the line feed after it. -/
def SparesBreaks (f : SourceFile) : Prop :=
  ∀ n ∈ f.root.preorder,
    f.text.splitsBreak n.start = false ∧ f.text.splitsBreak n.stop = false

instance (f : SourceFile) : Decidable f.SparesBreaks := List.decidableBAll _ _

/-- Behind a line break no line break is cut in two. -/
theorem splitsBreak_pastLineBreak {k : Nat} (h : f.text.splitsBreak k = false) :
    f.text.splitsBreak (f.pastLineBreak k) = false := by
  rcases f.pastLineBreak_cases k with hk | ⟨⟨u, v⟩, hv, w, rfl, hk⟩ | ⟨⟨u, v⟩, hv, w, rfl, hk⟩
  · rw [hk]
    exact h
  · have hsplit := splitAt?_add (v := ['\n']) hv
    rw [hk, Text.splitsBreak, show k + 1 = k + Text.size ['\n'] from rfl, hsplit]
    simp
  · have hsplit := splitAt?_add (v := ['\r', '\n']) hv
    rw [hk, Text.splitsBreak, show k + 2 = k + Text.size ['\r', '\n'] from rfl, hsplit]
    simp

theorem keeps_paired (h : f.SparesBreaks) (ht : f.text.Paired) : f.Keeps Text.Paired := by
  have hborder : ∀ k, f.root.HasBorder k → f.text.splitsBreak k = false := by
    rintro k ⟨m, hm, rfl | rfl⟩
    · exact (h m hm).1
    · exact (h m hm).2
  intro k hk b m hm
  refine ht.slice ?_ hm
  cases hk with
  | start => exact Text.splitsBreak_zero _
  | border hk => exact hborder k hk
  | pastLineBreak hk => exact splitsBreak_pastLineBreak (hborder _ hk)

theorem keeps_bare (h : '\r' ∉ f.text) : f.Keeps fun t => '\r' ∉ t := by
  intro k _ b m hm hmem
  obtain ⟨u, v, heq, -⟩ := Text.slice?_eq_some_iff.mp hm
  apply h
  rw [heq]
  simp [hmem]

theorem Keeps.textOf (hf : f.Keeps P) (hP : Text.LineStyle P) {n : Node} (hn : n ∈ f.root.preorder) :
    P (f.textOf n) := by
  rw [SourceFile.textOf]
  cases hm : f.text.span? n.span with
  | none => exact hP.unbroken [] (by decide)
  | some m => exact hf n.start (.border (Node.hasBorder_start hn)) n.stop m hm

/-- The texts that close a plan are in one line, but for the type arguments that are copied. -/
theorem closing_texts {s : Site} {h : Helper} {asserts : Bool} {rest : List Piece}
    (hc : f.closing s h = .ok (asserts, rest)) {u : Text} (hu : .text u ∈ rest) :
    Text.Unbroken u ∨ ∃ w types, Text.Unbroken w ∧ s.typeArguments? = some types ∧
      u = w ++ f.textOf types := by
  unfold closing at hc
  split at hc
  · split at hc
    · next types htypes =>
        cases hc
        simp only [List.mem_cons, Piece.text.injEq, List.not_mem_nil, or_false] at hu
        rcases hu with rfl | rfl
        · exact Or.inr ⟨_, types, by decide, htypes, rfl⟩
        · exact Or.inl (by decide)
    · cases hc
      simp only [List.mem_singleton, Piece.text.injEq] at hu
      rw [hu]
      exact Or.inl (by decide)
  · split at hc
    · split at hc
      · cases hc
        simp only [List.mem_cons, Piece.text.injEq, reduceCtorEq, List.not_mem_nil, or_false] at hu
        rw [hu]
        exact Or.inl (by decide)
      · cases hc
    · cases hc

theorem plans_inStyle (hP : Text.LineStyle P) (hwf : f.WellFormed) (hf : f.Keeps P) {p : Plan}
    (hp : p ∈ f.plans) : p.InStyle f.text P := by
  obtain ⟨n, hn, s, hs, hplan⟩ := mem_plans hwf.tree hp
  obtain ⟨⟨-, hstop⟩, hsources⟩ := plan_borders hs (hwf.tree.of_mem_preorder hn) hplan
  refine ⟨?_, ?_, hf _ (.border (hstop.of_mem_preorder hn))⟩
  · obtain ⟨helper, spans, asserts, rest, -, hclosing, rfl⟩ := plan_eq_ok hplan
    intro u hu
    rcases List.mem_append.mp hu with hu | hu
    · rcases List.mem_cons.mp hu with hu | hu
      · cases hu
        refine hP.unbroken _ ?_
        cases helper <;> decide
      · obtain ⟨a, -, ha⟩ := List.mem_map.mp hu
        cases ha
    · rcases closing_texts hclosing hu with hu | ⟨w, types, hw, htypes, rfl⟩
      · exact hP.unbroken u hu
      · rw [Site.typeArguments?, hs.call] at htypes
        have htm := Node.preorder_trans hn (Node.mem_preorder.mpr
          (Or.inr (Node.mem_descendants_of_child (Node.mem_children_of_child? htypes))))
        exact hP.append _ _ (hP.unbroken w hw) (hf.textOf hP htm)
  · intro a ha
    have hmem : a ∈ p.sources := List.mem_filterMap.mpr ⟨_, ha, rfl⟩
    exact hf _ (.border ((hsources a hmem).1.of_mem_preorder hn))

/-- **What is copied of a file, and what is in one line, the converted text has.** -/
theorem style_conversion (hP : Text.LineStyle P) (hwf : f.WellFormed) (hf : f.Keeps P)
    {r : Conversion} (hr : f.conversion? = some r) : P r.text := by
  obtain ⟨c, hc, rfl⟩ := Option.map_eq_some_iff.mp hr
  exact Plan.style_render hP (fun p hp => plans_inStyle hP hwf hf hp) (hf 0 .start) hc

/-! ## Imports -/

theorem anchor_resumes (f : SourceFile) : f.Resumes f.anchor := by
  rcases f.anchor_cases with hanchor | ⟨n, hn, hanchor⟩
  · rw [hanchor]
    exact .start
  · rw [hanchor]
    exact .border (Node.hasBorder_start
      (Node.mem_preorder.mpr (Or.inr (Node.mem_descendants_of_child hn))))

/-- Pruning writes nothing and goes on at a border of a node or behind the line break there. -/
theorem ImportAt.prune_resumes {n : Node} {d : ImportDecl} {unused : List Text} (h : f.ImportAt n d)
    (hn : n ∈ f.root.children) (hwf : n.WellFormed) :
    ∀ e ∈ (f.pruneDecl unused d).edits, e.text = [] ∧ f.Resumes e.span.stop := by
  have hnm := Node.mem_preorder.mpr (Or.inr (Node.mem_descendants_of_child hn))
  have hborder : ∀ m ∈ n.preorder, f.root.HasBorder m.start ∧ f.root.HasBorder m.stop := by
    intro m hm
    have hmr := Node.preorder_trans hnm hm
    exact ⟨Node.hasBorder_start hmr, Node.hasBorder_stop hmr⟩
  have hcase := (pruneDecl_cases unused h).1
  generalize (f.pruneDecl unused d).edits = es at hcase ⊢
  intro e he
  cases hcase with
  | untouched => cases he
  | names =>
      rw [cutNames_eq] at he
      obtain ⟨htext, -, ⟨x, -, y, hy, hspan⟩, -⟩ := (h.inRow unused hwf).mem_cuts he
      obtain ⟨z, hz, rfl⟩ := List.mem_map.mp hy
      have hzb := hborder z.node (h.name_within hwf hz).1
      refine ⟨htext, .border ?_⟩
      rcases hspan with hspan | hspan
      · rw [hspan]
        exact hzb.2
      · rw [hspan]
        exact hzb.1
  | @braces b o _ _ hb ho =>
      rw [List.mem_singleton.mp he]
      exact ⟨rfl, .border (hborder b (h.braces_within hwf hb).1).2⟩
  | all =>
      rw [List.mem_singleton.mp he, h.node]
      exact ⟨rfl, .pastLineBreak (hborder n n.mem_preorder_self).2⟩

theorem style_statement (hP : Text.LineStyle P) (hline : P f.text.lineBreak) {names : List Text}
    (hnames : ∀ x ∈ names, Text.Unbroken x) :
    P (f.importLayout.statement Vocabulary.streams names) := by
  have hquote : Text.Unbroken [f.importLayout.quote] := by
    rcases f.importLayout_quote with hq | hq <;> rw [hq] <;> decide
  have hend : Text.Unbroken (if f.importLayout.semicolon then [';'] else []) := by
    cases f.importLayout.semicolon <;> decide
  have hcomma : Text.Unbroken ", ".toList := by decide
  have hjoin := hcomma.join hnames
  unfold ImportLayout.statement
  rw [importLayout_lineBreak]
  refine hP.append _ _ (hP.unbroken _ (.append (.append (.append (.append (.append (.append ?_ hjoin)
    ?_) hquote) ?_) hquote) hend)) hline
  · decide
  · decide
  · decide

/-- Adding names writes texts in one line or an import with the line break of the file. -/
theorem additions_inStyle (hP : Text.LineStyle P) (hwf : f.root.WellFormed)
    (hline : P f.text.lineBreak) {required : NameSet}
    (hnames : ∀ x ∈ required.names, Text.Unbroken x) :
    ∀ e ∈ (f.additions required).edits, P e.text ∧ f.Resumes e.span.stop := by
  have hmissing : ∀ x ∈ f.missing required, Text.Unbroken x := fun x hx =>
    hnames x (List.mem_filter.mp hx).1
  have hcase := (f.additions_cases required).1
  generalize (f.additions required).edits = es at hcase ⊢
  intro e he
  cases hcase with
  | nothing => cases he
  | @extended d b _ htarget =>
      obtain ⟨hd, -, hb⟩ := target?_eq_some htarget
      obtain ⟨-, n, hn, hat⟩ := mem_importsFrom hd
      have hnw := hwf.child hn
      have hnm := Node.mem_preorder.mpr (Or.inr (Node.mem_descendants_of_child hn))
      rw [List.mem_singleton.mp he, extension]
      cases hlast : d.names.getLast? with
      | some last =>
          have hlm := (hat.name_within hnw (List.mem_of_getLast? hlast)).1
          exact ⟨hP.unbroken _ (.flatMap (by decide) hmissing),
            .border (Node.hasBorder_stop (Node.preorder_trans hnm hlm))⟩
      | none =>
          have hbm := (hat.braces_within hnw hb).1
          exact ⟨hP.unbroken _ (.append (.append (by decide) (.join (by decide) hmissing)) (by decide)),
            .border (Node.hasBorder_stop (Node.preorder_trans hnm hbm))⟩
  | inserted =>
      rw [List.mem_singleton.mp he]
      exact ⟨style_statement hP hline hmissing, f.anchor_resumes⟩

/-- **What is copied of a file, what is in one line and the line break of the file have, the file with
its imports made to fit has.** -/
theorem style_importChange (hP : Text.LineStyle P) (hwf : f.root.WellFormed) (hf : f.Keeps P)
    (hline : P f.text.lineBreak) {required : NameSet}
    (hnames : ∀ x ∈ required.names, Text.Unbroken x) {o : Text}
    (h : (f.importChange required).edits.applied? f.text = some o) : P o := by
  refine Edits.style_applyFrom hP ?_ (hf 0 .start) h
  intro e he
  rw [Edits.sorted, mem_sortedBy, importChange_edits] at he
  rcases List.mem_append.mp he with he | he
  · obtain ⟨htext, hstop⟩ := additions_inStyle hP hwf hline hnames e he
    exact ⟨htext, hf _ hstop⟩
  · rw [prunings_edits] at he
    obtain ⟨d, hd, he⟩ := List.mem_flatMap.mp he
    obtain ⟨-, n, hn, hat⟩ := mem_importsFrom hd
    obtain ⟨htext, hstop⟩ := hat.prune_resumes hn (hwf.child hn) e he
    rw [htext]
    exact ⟨hP.unbroken [] (by decide), hf _ hstop⟩

theorem required_unbroken (r : Conversion) : ∀ x ∈ r.required.names, Text.Unbroken x := by
  intro x hx
  rcases Conversion.mem_required hx with rfl | ⟨helper, rfl⟩
  · decide
  · cases helper <;> decide

end SourceFile

open SourceFile

/-- **A migration keeps the line breaks of a file.** Where the source has no carriage return the output
has none. Where every line feed of the source comes after a carriage return, so does every line feed of
the output, provided that the converted text still shows how lines are broken and that no node of the two
trees that are read starts or stops inside a line break. -/
theorem migration_keeps_line_breaks {p : Path} {source o : Text} {counts : MigrationCounts}
    (h : migrate p source = .ok (.converted o counts)) :
    ∃ f r g, parse? p.dialect source = .ok f ∧ f.conversion? = some r ∧
      parse? p.dialect r.text = .ok g ∧
      ('\r' ∉ source → '\r' ∉ o) ∧
      (f.SparesBreaks → g.SparesBreaks → '\n' ∈ r.text → source.Paired → o.Paired) := by
  obtain ⟨f, r, g, o', hf, hr, hg, ho, hout⟩ := migrate_eq_ok_iff.mp h
  obtain rfl : o' = o := by
    unfold Migration.ofOutput at hout
    split at hout
    · cases hout
    · cases hout
      rfl
  have hwf := parse?_wellFormed hf
  have hwg := (parse?_wellFormed hg).tree
  have hftext := parse?_text hf
  have hgtext := parse?_text hg
  refine ⟨f, r, g, hf, hr, hg, ?_, ?_⟩
  · intro hsource
    have hconverted : '\r' ∉ r.text :=
      style_conversion Text.lineStyle_bare hwf (keeps_bare (hftext ▸ hsource)) hr
    rw [← hgtext] at hconverted
    exact style_importChange Text.lineStyle_bare hwg (keeps_bare hconverted)
      (Text.lineBreak_bare hconverted) (required_unbroken r) ho
  · intro hfs hgs hbreak hsource
    have hconverted : r.text.Paired :=
      style_conversion Text.lineStyle_paired hwf (keeps_paired hfs (hftext ▸ hsource)) hr
    rw [← hgtext] at hconverted hbreak
    have hline : g.text.lineBreak.Paired := by
      rw [hconverted.lineBreak hbreak]
      decide
    exact style_importChange Text.lineStyle_paired hwg (keeps_paired hgs hconverted) hline
      (required_unbroken r) ho

set_option maxRecDepth 100000 in
/-- An import is put in and one is taken out, in a file with carriage returns and in one without. -/
theorem migration_keeps_line_breaks_of_either_kind :
    (∃ f r g, parse? Path.inline.dialect
        "import { first } from 'rxjs/operators';\r\na.pipe(first()).toPromise();\r\n".toList = .ok f ∧
      f.conversion? = some r ∧ parse? Path.inline.dialect r.text = .ok g ∧
      f.SparesBreaks ∧ g.SparesBreaks ∧ '\n' ∈ r.text ∧
      Text.Paired "import { first } from 'rxjs/operators';\r\na.pipe(first()).toPromise();\r\n".toList ∧
      migrate Path.inline
          "import { first } from 'rxjs/operators';\r\na.pipe(first()).toPromise();\r\n".toList =
        .ok (.converted "import { firstValueFrom } from 'rxjs';\r\nfirstValueFrom(a);\r\n".toList
          ⟨⟨1, 1, 0⟩, ⟨1, 1, 1⟩⟩) ∧
      Text.Paired "import { firstValueFrom } from 'rxjs';\r\nfirstValueFrom(a);\r\n".toList) ∧
    '\r' ∉ "import { first } from 'rxjs/operators';\na.pipe(first()).toPromise();\n".toList ∧
    migrate Path.inline
        "import { first } from 'rxjs/operators';\na.pipe(first()).toPromise();\n".toList =
      .ok (.converted "import { firstValueFrom } from 'rxjs';\nfirstValueFrom(a);\n".toList
        ⟨⟨1, 1, 0⟩, ⟨1, 1, 1⟩⟩) ∧
    '\r' ∉ "import { firstValueFrom } from 'rxjs';\nfirstValueFrom(a);\n".toList := by
  have hpaired : migrate Path.inline
      "import { first } from 'rxjs/operators';\r\na.pipe(first()).toPromise();\r\n".toList =
        .ok (.converted "import { firstValueFrom } from 'rxjs';\r\nfirstValueFrom(a);\r\n".toList
          ⟨⟨1, 1, 0⟩, ⟨1, 1, 1⟩⟩) := by decide +kernel
  have hbare : migrate Path.inline
      "import { first } from 'rxjs/operators';\na.pipe(first()).toPromise();\n".toList =
        .ok (.converted "import { firstValueFrom } from 'rxjs';\nfirstValueFrom(a);\n".toList
          ⟨⟨1, 1, 0⟩, ⟨1, 1, 1⟩⟩) := by decide +kernel
  obtain ⟨f, r, g, hf, hr, hg, -, hkeeps⟩ := migration_keeps_line_breaks hpaired
  obtain ⟨-, -, -, -, -, -, hnone, -⟩ := migration_keeps_line_breaks hbare
  obtain ⟨f', hf', hspares, htext⟩ := exists_of_parse (d := Path.inline.dialect)
    (t := "import { first } from 'rxjs/operators';\r\na.pipe(first()).toPromise();\r\n".toList)
    (fun f => f.SparesBreaks ∧ f.conversion?.map Conversion.text =
      some "import { first } from 'rxjs/operators';\r\nfirstValueFrom(a);\r\n".toList)
    (by decide +kernel) fun f hP => hP
  cases hf.symm.trans hf'
  rw [hr, Option.map_some, Option.some.injEq] at htext
  obtain ⟨g', hg', hspares'⟩ := exists_of_parse (d := Path.inline.dialect)
    (t := "import { first } from 'rxjs/operators';\r\nfirstValueFrom(a);\r\n".toList)
    (fun g => g.SparesBreaks) (by decide +kernel) fun g hP => hP
  cases hg.symm.trans (htext ▸ hg')
  have hbreak : '\n' ∈ r.text := by
    rw [htext]
    decide
  have hsource : Text.Paired
      "import { first } from 'rxjs/operators';\r\na.pipe(first()).toPromise();\r\n".toList := by decide
  have hsource' : '\r' ∉
      "import { first } from 'rxjs/operators';\na.pipe(first()).toPromise();\n".toList := by decide
  exact ⟨⟨f, r, g, hf, hr, hg, hspares, hspares', hbreak, hsource, hpaired,
    hkeeps hspares hspares' hbreak hsource⟩, hsource', hbare, hnone hsource'⟩

end Promisify
