import Promisify.Proofs.Steps

set_option autoImplicit false

/-! # Adding comments to a tree

Comments are met while the tree is read and added to it afterwards, each in the innermost node that
covers it and the first one first. Where no node starts or stops inside a comment, the tree with the
comment is well-formed when the tree without it is: a node keeps its outline, and what a node asks of
its children it asks of their outlines.
-/

namespace Promisify

namespace Node

/-! ## Outlines -/

/-- What a node shows to its parent. -/
def outline (n : Node) : Kind × Option Field × Span := (n.kind, n.field, n.span)

variable {c : Span} {n m : Node} {cs : List Node}

theorem outline_addComment (c : Span) (n : Node) : (addComment c n).outline = n.outline := by
  cases n
  rw [addComment]
  rfl

theorem outline_eq_iff : m.outline = n.outline ↔
    m.kind = n.kind ∧ m.field = n.field ∧ m.start = n.start ∧ m.stop = n.stop := by
  simp [outline, span]

theorem children_addComment (c : Span) (n : Node) :
    (addComment c n).children = addCommentAmong c n.children := by
  cases n
  rw [addComment]
  rfl

theorem isCode_eq_of_outline (h : m.outline = n.outline) : m.isCode = n.isCode := by
  obtain ⟨hkind, -⟩ := outline_eq_iff.mp h
  simp only [isCode, isMark, hkind]

theorem map_start_eq_of_outline {x y : Option Node} (h : x.map outline = y.map outline) :
    x.map start = y.map start := by
  have hmap := congrArg (Option.map fun o => o.2.2.start) h
  rw [Option.map_map, Option.map_map] at hmap
  exact hmap

theorem map_stop_eq_of_outline {x y : Option Node} (h : x.map outline = y.map outline) :
    x.map stop = y.map stop := by
  have hmap := congrArg (Option.map fun o => o.2.2.stop) h
  rw [Option.map_map, Option.map_map] at hmap
  exact hmap

/-- A comment among the children has no role, so each role is filled as before, perhaps by a child that
has the comment in it. -/
theorem child?_addComment_cases (c : Span) (n : Node) (f : Field) :
    (addComment c n).child? f = n.child? f ∨
      ∃ m, n.child? f = some m ∧ (addComment c n).child? f = some (addComment c m) := by
  unfold child?
  rw [children_addComment]
  induction n.children with
  | nil => exact Or.inl rfl
  | cons m ms ih =>
      obtain ⟨-, hfield, -⟩ := outline_eq_iff.mp (outline_addComment c m)
      rw [addCommentAmong]
      split
      · rw [List.find?_cons, List.find?_cons, hfield]
        split
        · exact Or.inr ⟨m, rfl, rfl⟩
        · exact Or.inl rfl
      · split
        · exact Or.inl rfl
        · rw [List.find?_cons, List.find?_cons]
          split
          · exact Or.inl rfl
          · exact ih

theorem child?_addComment (c : Span) (n : Node) (f : Field) :
    ((addComment c n).child? f).map outline = (n.child? f).map outline := by
  rcases child?_addComment_cases c n f with hsame | ⟨m, hm, hadded⟩
  · rw [hsame]
  · rw [hadded, hm, Option.map_some, Option.map_some, outline_addComment]

/-- A comment is no code. -/
theorem filter_addCommentAmong (c : Span) (cs : List Node) :
    ((addCommentAmong c cs).filter isCode).map outline = (cs.filter isCode).map outline := by
  induction cs with
  | nil => rfl
  | cons n ns ih =>
      have hcode := isCode_eq_of_outline (outline_addComment c n)
      rw [addCommentAmong]
      split
      · rw [List.filter_cons, List.filter_cons, hcode]
        split
        · rw [List.map_cons, List.map_cons, outline_addComment]
        · rfl
      · split
        · rfl
        · rw [List.filter_cons, List.filter_cons]
          split
          · rw [List.map_cons, List.map_cons, ih]
          · exact ih

theorem span_codeParts_addComment (c : Span) (n : Node) :
    (addComment c n).codeParts.map span = n.codeParts.map span := by
  have hmap := congrArg (List.map fun o => o.2.2) (filter_addCommentAmong c n.children)
  rw [List.map_map, List.map_map] at hmap
  rw [codeParts_eq, codeParts_eq, children_addComment]
  exact hmap

theorem kind_codeParts_addComment (c : Span) (n : Node) :
    (addComment c n).codeParts.map kind = n.codeParts.map kind := by
  have hmap := congrArg (List.map fun o => o.1) (filter_addCommentAmong c n.children)
  rw [List.map_map, List.map_map] at hmap
  rw [codeParts_eq, codeParts_eq, children_addComment]
  exact hmap

theorem head?_codeParts_addComment (c : Span) (n : Node) :
    (addComment c n).codeParts.head?.map outline = n.codeParts.head?.map outline := by
  rw [codeParts_eq, codeParts_eq, children_addComment, ← List.head?_map, ← List.head?_map,
    filter_addCommentAmong]

theorem operand?_addComment (c : Span) (n : Node) :
    (addComment c n).operand?.map outline = n.operand?.map outline := by
  obtain ⟨hkind, -⟩ := outline_eq_iff.mp (outline_addComment c n)
  unfold operand?
  rw [hkind]
  split
  · exact head?_codeParts_addComment c n
  · exact child?_addComment c n _
  · rfl

/-! ## Where a comment goes -/

/-- A child is the comment, a child as it was, or the child that covers the comment. -/
theorem mem_addCommentAmong (h : m ∈ addCommentAmong c cs) :
    m = leaf .comment c.start c.stop ∨ m ∈ cs ∨
      ∃ k ∈ cs, c.within k.span = true ∧ m = addComment c k := by
  induction cs with
  | nil => exact Or.inl (List.mem_singleton.mp h)
  | cons n ns ih =>
      rw [addCommentAmong] at h
      split at h
      · next hin =>
          rcases List.mem_cons.mp h with rfl | h
          · exact Or.inr (Or.inr ⟨n, List.mem_cons_self, hin, rfl⟩)
          · exact Or.inr (Or.inl (List.mem_cons_of_mem n h))
      · split at h
        · rcases List.mem_cons.mp h with rfl | h
          · exact Or.inl rfl
          · exact Or.inr (Or.inl h)
        · rcases List.mem_cons.mp h with rfl | h
          · exact Or.inr (Or.inl List.mem_cons_self)
          · rcases ih h with h | h | ⟨k, hk, hin, rfl⟩
            · exact Or.inl h
            · exact Or.inr (Or.inl (List.mem_cons_of_mem n h))
            · exact Or.inr (Or.inr ⟨k, List.mem_cons_of_mem n hk, hin, rfl⟩)

/-- A child stays, perhaps with the comment in it. -/
theorem mem_addCommentAmong_of_mem (h : m ∈ cs) :
    m ∈ addCommentAmong c cs ∨ addComment c m ∈ addCommentAmong c cs := by
  induction cs with
  | nil => cases h
  | cons n ns ih =>
      rw [addCommentAmong]
      rcases List.mem_cons.mp h with rfl | h
      · split
        · exact Or.inr List.mem_cons_self
        · split
          · exact Or.inl (List.mem_cons_of_mem _ List.mem_cons_self)
          · exact Or.inl List.mem_cons_self
      · split
        · exact Or.inl (List.mem_cons_of_mem _ h)
        · split
          · exact Or.inl (List.mem_cons_of_mem _ (List.mem_cons_of_mem n h))
          · exact (ih h).imp (List.mem_cons_of_mem n) (List.mem_cons_of_mem n)

/-- A node of the tree with a comment is the comment, or a node of the tree, perhaps with the comment
in it. -/
theorem exists_of_mem_preorder_addComment {x : Node} (h : x ∈ (addComment c n).preorder)
    (hx : x.kind ≠ .comment) : ∃ y ∈ n.preorder, x = y ∨ x = addComment c y := by
  induction n using inductionOn with
  | node n ih =>
      rcases mem_preorder.mp h with rfl | h
      · exact ⟨n, n.mem_preorder_self, Or.inr rfl⟩
      · obtain ⟨m, hm, hxm⟩ := mem_descendants.mp h
        rw [children_addComment] at hm
        rcases mem_addCommentAmong hm with rfl | hm | ⟨k, hk, -, rfl⟩
        · rw [List.mem_singleton.mp hxm] at hx
          exact absurd rfl hx
        · exact ⟨x, mem_preorder.mpr (.inr (mem_descendants_of_mem hm hxm)), Or.inl rfl⟩
        · obtain ⟨y, hy, hxy⟩ := ih k hk hxm
          exact ⟨y, mem_preorder.mpr (.inr (mem_descendants_of_mem hk hy)), hxy⟩

/-- A node of the tree stays, perhaps with the comment in it. -/
theorem exists_mem_preorder_addComment {y : Node} (h : y ∈ n.preorder) :
    ∃ x ∈ (addComment c n).preorder, x = y ∨ x = addComment c y := by
  induction n using inductionOn with
  | node n ih =>
      rcases mem_preorder.mp h with rfl | h
      · exact ⟨addComment c y, mem_preorder_self _, Or.inr rfl⟩
      · obtain ⟨m, hm, hym⟩ := mem_descendants.mp h
        have hchildren := children_addComment c n
        rcases mem_addCommentAmong_of_mem (c := c) hm with hm' | hm'
        · rw [← hchildren] at hm'
          exact ⟨y, mem_preorder.mpr (.inr (mem_descendants_of_mem hm' hym)), Or.inl rfl⟩
        · rw [← hchildren] at hm'
          obtain ⟨x, hx, hxy⟩ := ih m hm hym
          exact ⟨x, mem_preorder.mpr (.inr (mem_descendants_of_mem hm' hx)), hxy⟩

/-- The ends of a node lie outside the comment. -/
def Clear (c : Span) (n : Node) : Prop := c.spares n.start ∧ c.spares n.stop

theorem within_iff {c : Span} {n : Node} :
    c.within n.span = true ↔ n.start ≤ c.start ∧ c.stop ≤ n.stop := Span.within_iff

/-- A comment that neither lies in a node nor in front of it lies behind it. -/
theorem Clear.stop_le (h : n.Clear c) (hin : ¬ c.within n.span = true)
    (hle : ¬ c.stop ≤ n.start) : n.stop ≤ c.start := by
  rw [within_iff] at hin
  obtain ⟨hstart, hstop⟩ := h
  unfold Span.spares at hstart hstop
  omega

theorem ordered_addCommentAmong (hne : ∀ n ∈ cs, n.start < n.stop) (hclear : ∀ n ∈ cs, n.Clear c)
    (h : cs.Pairwise fun a b => a.stop ≤ b.start) :
    (addCommentAmong c cs).Pairwise fun a b => a.stop ≤ b.start := by
  induction cs with
  | nil => exact List.pairwise_singleton _ _
  | cons n ns ih =>
      obtain ⟨hhead, htail⟩ := List.pairwise_cons.mp h
      obtain ⟨-, -, hstart, hstop⟩ := outline_eq_iff.mp (outline_addComment c n)
      have hn := hne n List.mem_cons_self
      rw [addCommentAmong]
      split
      · refine List.pairwise_cons.mpr ⟨?_, htail⟩
        intro b hb
        rw [hstop]
        exact hhead b hb
      · next hin =>
          split
          · next hle =>
              refine List.pairwise_cons.mpr ⟨?_, h⟩
              intro b hb
              show c.stop ≤ b.start
              rcases List.mem_cons.mp hb with rfl | hb
              · exact hle
              · have := hhead b hb
                omega
          · next hle =>
              have hbehind := (hclear n List.mem_cons_self).stop_le hin hle
              refine List.pairwise_cons.mpr ⟨?_, ih ?_ ?_ htail⟩
              · intro b hb
                rcases mem_addCommentAmong hb with rfl | hb | ⟨k, hk, -, rfl⟩
                · exact hbehind
                · exact hhead b hb
                · rw [(outline_eq_iff.mp (outline_addComment c k)).2.2.1]
                  exact hhead k hk
              · exact fun b hb => hne b (List.mem_cons_of_mem n hb)
              · exact fun b hb => hclear b (List.mem_cons_of_mem n hb)

/-! ## Settled trees -/

/-- A node of a tree to which the comments up to the offset `k` have been added. -/
structure Settled (k : Nat) (n : Node) : Prop where
  fits : n.Fits
  edged : n.Edged
  comment : n.kind = .comment → n.children = [] ∧ n.stop ≤ k
  front : ∀ o ∈ n.operand?, ∀ c ∈ n.children, c.stop ≤ o.start → c.kind = .comment

theorem Settled.mono {k k' : Nat} (h : n.Settled k) (hk : k ≤ k') : n.Settled k' :=
  ⟨h.fits, h.edged, fun hn => ⟨(h.comment hn).1, Nat.le_trans (h.comment hn).2 hk⟩, h.front⟩

theorem settled_leaf (a b : Nat) : (leaf .comment a b).Settled b where
  fits := ⟨by simp [leaf, children], by simp [leaf, children], List.Pairwise.nil,
    by simp [leaf, kind], by simp [leaf, kind], by simp [leaf, children]⟩
  edged := ⟨by simp [leaf, kind], by simp [leaf, kind], by simp [leaf, kind], by simp [leaf, kind]⟩
  comment := fun _ => ⟨rfl, Nat.le_refl b⟩
  front := by simp [leaf, children]

theorem Edged.addComment (h : n.Edged) (c : Span) : (addComment c n).Edged := by
  obtain ⟨hkind, -, hstart, hstop⟩ := outline_eq_iff.mp (outline_addComment c n)
  refine ⟨?_, ?_, ?_, ?_⟩
  · rw [hkind, hstart, map_start_eq_of_outline (head?_codeParts_addComment c n)]
    exact h.leading
  · rw [hkind, hstart]
    intro hn
    obtain ⟨o, ho, hlt⟩ := h.prefixed hn
    have hmap := operand?_addComment c n
    rw [ho] at hmap
    obtain ⟨o', ho', hout⟩ := Option.map_eq_some_iff.mp hmap
    refine ⟨o', ho', ?_⟩
    rw [(outline_eq_iff.mp hout).2.2.1]
    exact hlt
  · rw [hkind, hstop, map_stop_eq_of_outline (child?_addComment c n _)]
    exact h.closing
  · rw [hkind]
    intro hn
    have hkinds : (n.codeParts.map kind).Pairwise fun a _ => a ≠ .namedImports :=
      List.pairwise_map.mpr (h.trailing hn)
    rw [← kind_codeParts_addComment c n] at hkinds
    exact List.pairwise_map.mp hkinds

/-- Whether a node is enclosed shows in the spans of its parts. -/
theorem Enclosed.addComment {t : Text} (h : n.Enclosed t) (c : Span) :
    (addComment c n).Enclosed t := by
  obtain ⟨-, -, hstart, hstop⟩ := outline_eq_iff.mp (outline_addComment c n)
  have hspans := span_codeParts_addComment c n
  have hparts : ∀ m ∈ (Node.addComment c n).codeParts, ∃ k ∈ n.codeParts,
      k.start = m.start ∧ k.stop = m.stop := by
    intro m hm
    have hmem : m.span ∈ n.codeParts.map span := by
      rw [← hspans]
      exact List.mem_map_of_mem hm
    obtain ⟨k, hk, heq⟩ := List.mem_map.mp hmem
    exact ⟨k, hk, Span.mk.inj heq⟩
  refine ⟨?_, ?_, ?_, ?_, ?_, ?_⟩
  · rw [span, hstart, hstop]
    exact h.parens
  · intro m hm
    rw [children_addComment] at hm
    rcases mem_addCommentAmong hm with rfl | hm | ⟨k, hk, -, rfl⟩
    · exact Or.inr rfl
    · exact h.code m hm
    · have hout := outline_addComment c k
      rw [isCode_eq_of_outline hout, (outline_eq_iff.mp hout).1]
      exact h.code k hk
  · intro m hm
    obtain ⟨k, hk, hkstart, hkstop⟩ := hparts m hm
    rw [hstart, hstop, ← hkstart, ← hkstop]
    exact h.inside k hk
  · intro m hm
    obtain ⟨k, hk, -, hkstop⟩ := hparts m hm
    rw [← hkstop]
    exact h.behind k hk
  · have hapart : (n.codeParts.map span).Pairwise fun a b => a.stop < b.start :=
      List.pairwise_map.mpr h.apart
    rw [← hspans] at hapart
    exact List.pairwise_map.mp hapart
  · rw [hstop]
    exact h.closed

/-- Only comments stand in front of an operand, before and after. -/
theorem front_addComment (c : Span)
    (h : ∀ o ∈ n.operand?, ∀ m ∈ n.children, m.stop ≤ o.start → m.kind = .comment) :
    ∀ o ∈ (addComment c n).operand?, ∀ m ∈ (addComment c n).children,
      m.stop ≤ o.start → m.kind = .comment := by
  intro o ho m hm hle
  have hoperand := map_start_eq_of_outline (operand?_addComment c n)
  rw [Option.mem_def.mp ho] at hoperand
  obtain ⟨o', ho', hstart⟩ := Option.map_eq_some_iff.mp hoperand.symm
  rw [children_addComment] at hm
  rcases mem_addCommentAmong hm with rfl | hm | ⟨k, hk, -, rfl⟩
  · rfl
  · exact h o' ho' m hm (by omega)
  · obtain ⟨hkind, -, -, hstop⟩ := outline_eq_iff.mp (outline_addComment c k)
    rw [hkind]
    exact h o' ho' k hk (by omega)

theorem Fits.addComment (h : n.Fits) (hc : c.start < c.stop) (hin : c.within n.span = true)
    (hclear : ∀ m ∈ n.children, m.Clear c)
    (hoperand : ∀ o ∈ (addComment c n).operand?, ∀ m ∈ (addComment c n).children,
      m.stop ≤ o.start → m.isToken = true) : (addComment c n).Fits := by
  obtain ⟨hkind, -, hstart, hstop⟩ := outline_eq_iff.mp (outline_addComment c n)
  rw [within_iff] at hin
  refine ⟨?_, ?_, ?_, ?_, ?_, hoperand⟩
  · intro m hm
    rw [children_addComment] at hm
    rcases mem_addCommentAmong hm with rfl | hm | ⟨k, hk, -, rfl⟩
    · exact hc
    · exact h.nonempty m hm
    · obtain ⟨-, -, hstart', hstop'⟩ := outline_eq_iff.mp (outline_addComment c k)
      rw [hstart', hstop']
      exact h.nonempty k hk
  · intro m hm
    rw [children_addComment] at hm
    rw [hstart, hstop]
    rcases mem_addCommentAmong hm with rfl | hm | ⟨k, hk, -, rfl⟩
    · exact hin
    · exact h.inside m hm
    · obtain ⟨-, -, hstart', hstop'⟩ := outline_eq_iff.mp (outline_addComment c k)
      rw [hstart', hstop']
      exact h.inside k hk
  · rw [children_addComment]
    exact ordered_addCommentAmong h.nonempty hclear h.ordered
  · rw [hkind, hstart, map_start_eq_of_outline (child?_addComment c n _)]
    exact h.function
  · rw [hkind, hstart, map_start_eq_of_outline (child?_addComment c n _)]
    exact h.object

/-- A comment node does not cover a later comment. -/
theorem Settled.ne_comment (h : n.Settled c.start) (hc : c.start < c.stop)
    (hin : c.within n.span = true) : n.kind ≠ .comment := by
  intro hk
  rw [within_iff] at hin
  have := (h.comment hk).2
  omega

/-- A node stays settled when a comment is added somewhere below it. -/
theorem Settled.addComment (h : n.Settled c.start) (hc : c.start < c.stop)
    (hin : c.within n.span = true) (hchildren : ∀ m ∈ n.children, m.Settled c.start)
    (hclear : ∀ m ∈ n.children, m.Clear c) : (addComment c n).Settled c.stop := by
  have hfront := front_addComment c h.front
  refine ⟨h.fits.addComment hc hin hclear ?_, h.edged.addComment c, ?_, hfront⟩
  · intro o ho m hm hle
    have hk := hfront o ho m hm hle
    rw [children_addComment] at hm
    have hbare : m.children = [] := by
      rcases mem_addCommentAmong hm with rfl | hm | ⟨k, hk', hin', rfl⟩
      · rfl
      · exact ((hchildren m hm).comment hk).1
      · rw [(outline_eq_iff.mp (outline_addComment c k)).1] at hk
        exact absurd hk ((hchildren k hk').ne_comment hc hin')
    simp [isToken, hk, hbare]
  · intro hk
    rw [(outline_eq_iff.mp (outline_addComment c n)).1] at hk
    exact absurd hk (h.ne_comment hc hin)

/-- **A tree stays settled when a comment is added to it.** -/
theorem settled_addComment (hc : c.start < c.stop) (hin : c.within n.span = true)
    (h : ∀ m ∈ n.preorder, m.Settled c.start) (hclear : ∀ m ∈ n.preorder, m.Clear c) :
    ∀ m ∈ (addComment c n).preorder, m.Settled c.stop := by
  induction n using inductionOn with
  | node n ih =>
      have hmem : ∀ k ∈ n.children, ∀ m ∈ k.preorder, m ∈ n.preorder := fun k hk m hm =>
        mem_preorder.mpr (Or.inr (mem_descendants_of_mem hk hm))
      have hself : ∀ k ∈ n.children, k ∈ n.preorder := fun k hk =>
        hmem k hk k k.mem_preorder_self
      intro m hm
      rcases mem_preorder.mp hm with rfl | hm
      · exact (h n n.mem_preorder_self).addComment hc hin (fun k hk => h k (hself k hk))
          fun k hk => hclear k (hself k hk)
      · obtain ⟨x, hx, hmx⟩ := mem_descendants.mp hm
        rw [children_addComment] at hx
        rcases mem_addCommentAmong hx with rfl | hx | ⟨k, hk, hin', rfl⟩
        · rw [List.mem_singleton.mp hmx]
          exact settled_leaf c.start c.stop
        · exact (h m (hmem x hx m hmx)).mono (Nat.le_of_lt hc)
        · exact ih k hk hin' (fun m hm => h m (hmem k hk m hm))
            (fun m hm => hclear m (hmem k hk m hm)) m hmx

/-- Adding a comment adds no ends but those of the comment. -/
theorem ends_addComment (h : m ∈ (addComment c n).preorder) :
    (m.start = c.start ∧ m.stop = c.stop) ∨
      ∃ k ∈ n.preorder, m.start = k.start ∧ m.stop = k.stop := by
  induction n using inductionOn with
  | node n ih =>
      rcases mem_preorder.mp h with rfl | hm
      · obtain ⟨-, -, hstart, hstop⟩ := outline_eq_iff.mp (outline_addComment c n)
        exact Or.inr ⟨n, n.mem_preorder_self, hstart, hstop⟩
      · obtain ⟨x, hx, hmx⟩ := mem_descendants.mp hm
        rw [children_addComment] at hx
        rcases mem_addCommentAmong hx with rfl | hx | ⟨k, hk, -, rfl⟩
        · rw [List.mem_singleton.mp hmx]
          exact Or.inl ⟨rfl, rfl⟩
        · exact Or.inr ⟨m, mem_preorder.mpr (Or.inr (mem_descendants_of_mem hx hmx)), rfl, rfl⟩
        · rcases ih k hk hmx with hends | ⟨k', hk', hends⟩
          · exact Or.inl hends
          · exact Or.inr ⟨k', mem_preorder.mpr (Or.inr (mem_descendants_of_mem hk hk')), hends⟩

/-- Adding a comment leaves arguments enclosed. -/
theorem enclosed_addComment {t : Text}
    (h : ∀ m ∈ n.preorder, m.kind = .arguments → m.Enclosed t) :
    ∀ m ∈ (addComment c n).preorder, m.kind = .arguments → m.Enclosed t := by
  induction n using inductionOn with
  | node n ih =>
      have hmem : ∀ k ∈ n.children, ∀ m ∈ k.preorder, m ∈ n.preorder := fun k hk m hm =>
        mem_preorder.mpr (Or.inr (mem_descendants_of_mem hk hm))
      intro m hm hkind
      rcases mem_preorder.mp hm with rfl | hm
      · rw [(outline_eq_iff.mp (outline_addComment c n)).1] at hkind
        exact (h n n.mem_preorder_self hkind).addComment c
      · obtain ⟨x, hx, hmx⟩ := mem_descendants.mp hm
        rw [children_addComment] at hx
        rcases mem_addCommentAmong hx with rfl | hx | ⟨k, hk, -, rfl⟩
        · rw [List.mem_singleton.mp hmx] at hkind
          exact absurd hkind (by simp [kind])
        · exact h m (hmem x hx m hmx) hkind
        · exact ih k hk (fun m hm => h m (hmem k hk m hm)) m hmx hkind

end Node

/-! ## All comments of a text -/

/-- The tree with comments added, the last one of the list first. -/
theorem ends_addComments {cs : List Span} {root m : Node}
    (h : m ∈ (cs.foldr Node.addComment root).preorder) :
    (∃ c ∈ cs, m.start = c.start ∧ m.stop = c.stop) ∨
      ∃ k ∈ root.preorder, m.start = k.start ∧ m.stop = k.stop := by
  induction cs generalizing m with
  | nil => exact Or.inr ⟨m, h, rfl, rfl⟩
  | cons c cs ih =>
      rcases Node.ends_addComment h with hends | ⟨k, hk, hstart, hstop⟩
      · exact Or.inl ⟨c, List.mem_cons_self, hends⟩
      · rw [hstart, hstop]
        rcases ih hk with ⟨c', hc', hends⟩ | hends
        · exact Or.inl ⟨c', List.mem_cons_of_mem c hc', hends⟩
        · exact Or.inr hends

theorem enclosed_addComments {t : Text} {root : Node}
    (h : ∀ m ∈ root.preorder, m.kind = .arguments → m.Enclosed t) (cs : List Span) :
    ∀ m ∈ (cs.foldr Node.addComment root).preorder, m.kind = .arguments → m.Enclosed t := by
  induction cs with
  | nil => exact h
  | cons c cs ih => exact Node.enclosed_addComment ih

theorem outline_addComments (cs : List Span) (root : Node) :
    (cs.foldr Node.addComment root).outline = root.outline := by
  induction cs with
  | nil => rfl
  | cons c cs ih => exact (Node.outline_addComment c _).trans ih

/-- **A tree with all its comments is settled** when no node starts or stops inside a comment. -/
theorem settled_addComments {t : Text} {cs : List Span} {root : Node} (htidy : Tidy t cs)
    (hroot : ∀ m ∈ root.preorder, m.Settled 0) (hclear : ∀ c ∈ cs, ∀ m ∈ root.preorder, m.Clear c)
    (hin : ∀ c ∈ cs, c.within root.span = true) {k : Nat} (hk : ∀ c ∈ cs, c.stop ≤ k) :
    ∀ m ∈ (cs.foldr Node.addComment root).preorder, m.Settled k := by
  induction cs generalizing k with
  | nil => exact fun m hm => (hroot m hm).mono (Nat.zero_le k)
  | cons c cs ih =>
      obtain ⟨hlast, hordered⟩ := List.pairwise_cons.mp htidy.ordered
      have htidy' : Tidy t cs := ⟨fun d hd => htidy.nonempty d (List.mem_cons_of_mem c hd),
        fun d hd => htidy.borders d (List.mem_cons_of_mem c hd), hordered⟩
      have hc := htidy.nonempty c List.mem_cons_self
      -- the comments before `c` are in the tree and end before it
      have hold : ∀ m ∈ (cs.foldr Node.addComment root).preorder, m.Settled c.start :=
        ih htidy' (fun d hd => hclear d (List.mem_cons_of_mem c hd))
          (fun d hd => hin d (List.mem_cons_of_mem c hd)) hlast
      have hspan : (cs.foldr Node.addComment root).span = root.span :=
        congrArg (fun o => o.2.2) (outline_addComments cs root)
      have hclear' : ∀ m ∈ (cs.foldr Node.addComment root).preorder, m.Clear c := by
        intro m hm
        unfold Node.Clear
        rcases ends_addComments hm with ⟨d, hd, hstart, hstop⟩ | ⟨n, hn, hstart, hstop⟩
        · have h₁ := hlast d hd
          have h₂ := htidy'.nonempty d hd
          rw [hstart, hstop]
          exact ⟨Or.inr (by omega), Or.inr h₁⟩
        · rw [hstart, hstop]
          exact hclear c List.mem_cons_self n hn
      have hin' : c.within (cs.foldr Node.addComment root).span = true := by
        rw [hspan]
        exact hin c List.mem_cons_self
      intro m hm
      exact (Node.settled_addComment hc hin' hold hclear' m hm).mono (hk c List.mem_cons_self)

end Promisify
