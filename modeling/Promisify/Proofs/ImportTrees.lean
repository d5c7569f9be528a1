import Promisify.ImportChange
import Promisify.Proofs.Programs

set_option autoImplicit false

/-! # Where imports stand in a file

An import is found in the tree by looking at the children of its node. Its parts are in order: what it
binds besides comes before the braces, and the names in the braces follow one another. `Importable`
collects what a file must be like for this; every parsed file is.
-/

namespace Promisify

namespace SourceFile

variable {f : SourceFile} {n b : Node} {d : ImportDecl}

/-! ## The parts of an import -/

theorem mem_of_lastOf {kinds : List Kind} {c : Node} (h : lastOf kinds n = some c) :
    c ∈ n.children ∧ c.kind ∈ kinds := by
  have hmem := List.mem_of_getLast? h
  rw [List.mem_filter, List.contains_iff_mem] at hmem
  exact hmem

theorem importedName?_eq_some {x : ImportedName} (h : f.importedName? n = some x) : x.node = n := by
  simp only [importedName?, Option.bind_eq_bind, Option.bind_eq_some_iff, Option.pure_def,
    Option.some.injEq] at h
  obtain ⟨-, -, name, -, rfl⟩ := h
  rfl

/-- What makes a node an import. -/
structure ImportAt (f : SourceFile) (n : Node) (d : ImportDecl) : Prop where
  kind : n.kind = .importStatement
  node : d.node = n
  source : n.child? .source = some d.source
  moduleName : d.moduleName = (f.textOf d.source).withoutQuotes
  typeOnly : d.typeOnly = n.children.any fun c => c.kind == .typeKeyword
  otherBinding : d.otherBinding =
    (lastOf [.importClause] n).bind (lastOf [.identifier, .namespaceImport])
  named : d.named = (lastOf [.importClause] n).bind (lastOf [.namedImports])
  names : d.names = (d.named.map fun b => b.children.filterMap f.importedName?).getD []

theorem importDecl?_eq_some (h : f.importDecl? n = some d) : f.ImportAt n d := by
  simp only [importDecl?, Option.bind_eq_bind, Option.bind_eq_some_iff, Option.pure_def,
    Option.guard_eq_some', Option.some.injEq] at h
  obtain ⟨-, hkind, source, hsource, rfl⟩ := h
  refine ⟨hkind, rfl, hsource, rfl, rfl, rfl, rfl, ?_⟩
  cases hnamed : (lastOf [.importClause] n).bind (lastOf [.namedImports]) with
  | none => rfl
  | some b => rfl

theorem mem_imports (h : d ∈ f.imports) : ∃ n ∈ f.root.children, f.ImportAt n d := by
  obtain ⟨n, hn, hd⟩ := List.mem_filterMap.mp h
  exact ⟨n, hn, importDecl?_eq_some hd⟩

/-- An import is a statement. -/
theorem ImportAt.mem_statements (h : f.ImportAt n d) (hn : n ∈ f.root.children) : n ∈ f.statements := by
  refine List.mem_filter.mpr ⟨hn, ?_⟩
  rw [h.kind]
  rfl

/-- Imports follow one another. -/
theorem imports_pairwise (h : f.root.WellFormed) :
    f.imports.Pairwise fun a b => a.node.stop ≤ b.node.start := by
  rw [imports, List.pairwise_filterMap]
  refine h.fits.ordered.imp ?_
  intro m n hmn a ha b hb
  rw [(importDecl?_eq_some ha).node, (importDecl?_eq_some hb).node]
  exact hmn

/-- The names in braces, as the nodes they stand at. -/
theorem ImportAt.names_eq (h : f.ImportAt n d) (hb : d.named = some b) :
    d.names = b.children.filterMap f.importedName? := by
  rw [h.names, hb]
  rfl

theorem ImportAt.exists_clause (h : f.ImportAt n d) (hb : d.named = some b) :
    ∃ c, lastOf [.importClause] n = some c ∧ c ∈ n.children ∧ c.kind = .importClause ∧
      b ∈ c.children ∧ b.kind = .namedImports := by
  rw [h.named] at hb
  obtain ⟨c, hc, hb⟩ := Option.bind_eq_some_iff.mp hb
  obtain ⟨hcn, hck⟩ := mem_of_lastOf hc
  obtain ⟨hbc, hbk⟩ := mem_of_lastOf hb
  exact ⟨c, hc, hcn, List.mem_singleton.mp hck, hbc, List.mem_singleton.mp hbk⟩

/-! ## The order of the parts -/

namespace ImportAt

theorem braces_within (h : f.ImportAt n d) (hwf : n.WellFormed) (hb : d.named = some b) :
    b ∈ n.preorder ∧ n.start ≤ b.start ∧ b.start < b.stop ∧ b.stop ≤ n.stop := by
  obtain ⟨c, -, hcn, -, hbc, -⟩ := h.exists_clause hb
  have hdesc := Node.mem_descendants_of_mem hcn
    (Node.mem_preorder.mpr (.inr (Node.mem_descendants_of_child hbc)))
  exact ⟨Node.mem_preorder.mpr (.inr hdesc), hwf.within hdesc⟩

theorem exists_braces (h : f.ImportAt n d) {x : ImportedName} (hx : x ∈ d.names) :
    ∃ b, d.named = some b ∧ x.node ∈ b.children := by
  cases hb : d.named with
  | none =>
      rw [h.names, hb] at hx
      cases hx
  | some b =>
      rw [h.names_eq hb] at hx
      obtain ⟨m, hm, hmx⟩ := List.mem_filterMap.mp hx
      exact ⟨b, rfl, importedName?_eq_some hmx ▸ hm⟩

theorem name_within (h : f.ImportAt n d) (hwf : n.WellFormed) {x : ImportedName}
    (hx : x ∈ d.names) : x.node ∈ n.preorder ∧
      ∀ b, d.named = some b → b.start ≤ x.node.start ∧ x.node.start < x.node.stop ∧
        x.node.stop ≤ b.stop := by
  obtain ⟨b, hb, hxb⟩ := h.exists_braces hx
  have hbn := (h.braces_within hwf hb).1
  have hdesc := Node.mem_descendants_of_child hxb
  refine ⟨Node.preorder_trans hbn (Node.mem_preorder.mpr (.inr hdesc)), ?_⟩
  intro b' hb'
  rw [hb, Option.some.injEq] at hb'
  subst hb'
  exact (hwf.of_mem_preorder hbn).within hdesc

theorem names_pairwise (h : f.ImportAt n d) (hwf : n.WellFormed) :
    d.names.Pairwise fun x y => x.node.stop ≤ y.node.start := by
  cases hb : d.named with
  | none =>
      rw [h.names, hb]
      exact List.Pairwise.nil
  | some b =>
      rw [h.names_eq hb, List.pairwise_filterMap]
      have hbw := hwf.of_mem_preorder (h.braces_within hwf hb).1
      refine hbw.fits.ordered.imp ?_
      intro m k hmk x hx y hy
      rw [importedName?_eq_some hx, importedName?_eq_some hy]
      exact hmk

end ImportAt

/-- A well-formed file in which the names in braces come last in what an import binds, and no import
begins with a line break. -/
structure Importable (f : SourceFile) : Prop where
  wellFormed : f.WellFormed
  trailing : ∀ m ∈ f.root.preorder, m.kind = .importClause →
    m.codeParts.Pairwise fun a _ => a.kind ≠ .namedImports
  solid : ∀ n ∈ f.statements, f.pastLineBreak n.start = n.start

/-- What an import binds besides comes before the braces. -/
theorem ImportAt.binding_before (h : f.ImportAt n d) (hn : n ∈ f.root.children)
    (hf : f.Importable) {o : Node} (hb : d.named = some b) (ho : d.otherBinding = some o) :
    o ∈ n.preorder ∧ n.start < o.stop ∧ o.stop ≤ b.start := by
  obtain ⟨c, hc, hcn, hck, hbc, hbk⟩ := h.exists_clause hb
  rw [h.otherBinding, hc, Option.bind_some] at ho
  obtain ⟨hoc, hok⟩ := mem_of_lastOf ho
  simp only [List.mem_cons, List.not_mem_nil, or_false] at hok
  have hroot := hf.wellFormed.tree
  have hcp := Node.mem_preorder.mpr (.inr (Node.mem_descendants_of_child hcn))
  have hcw := (hroot.child hn).of_mem_preorder hcp
  have hcroot := Node.preorder_trans
    (Node.mem_preorder.mpr (.inr (Node.mem_descendants_of_child hn))) hcp
  have hdesc := Node.mem_descendants_of_mem hcn
    (Node.mem_preorder.mpr (.inr (Node.mem_descendants_of_child hoc)))
  have hin := (hroot.child hn).within hdesc
  refine ⟨Node.mem_preorder.mpr (.inr hdesc), by omega, ?_⟩
  -- if the braces came first, a part would follow them
  have hcode : ∀ m ∈ c.children, m.kind = .identifier ∨ m.kind = .namespaceImport ∨
      m.kind = .namedImports → m ∈ c.codeParts := by
    rintro m hm (hk | hk | hk) <;> simp [Node.codeParts, Node.isMark, hm, hk]
  have hpart : o ∈ c.codeParts := hcode o hoc (hok.imp id .inl)
  have hbpart : b ∈ c.codeParts := hcode b hbc (.inr (.inr hbk))
  have hne : b ≠ o := by
    rintro rfl
    rcases hok with hk | hk <;> rw [hk] at hbk <;> cases hbk
  have hsymm : Std.Symm fun x y : Node =>
      (x.stop ≤ y.start ∧ x.kind ≠ .namedImports) ∨ (y.stop ≤ x.start ∧ y.kind ≠ .namedImports) :=
    ⟨fun _ _ => Or.symm⟩
  have hpair : c.codeParts.Pairwise fun x y =>
      (x.stop ≤ y.start ∧ x.kind ≠ .namedImports) ∨ (y.stop ≤ x.start ∧ y.kind ≠ .namedImports) :=
    ((hcw.fits.ordered.sublist List.filter_sublist).and (hf.trailing c hcroot hck)).imp Or.inl
  rcases hpair.forall hbpart hpart hne with hbo | hob
  · exact absurd hbk hbo.2
  · exact hob.1

/-! ## Line breaks -/

theorem pastLineBreak_cases (f : SourceFile) (k : Nat) :
    f.pastLineBreak k = k ∨
    (∃ v, f.text.splitAt? k = some v ∧ ∃ w, v.2 = '\n' :: w ∧ f.pastLineBreak k = k + 1) ∨
    (∃ v, f.text.splitAt? k = some v ∧ ∃ w, v.2 = '\r' :: '\n' :: w ∧ f.pastLineBreak k = k + 2) := by
  unfold pastLineBreak
  split
  · next u w h => exact Or.inr (Or.inr ⟨_, h, w, rfl, rfl⟩)
  · next u w h => exact Or.inr (Or.inl ⟨_, h, w, rfl, rfl⟩)
  · exact Or.inl rfl

theorem le_pastLineBreak (f : SourceFile) (k : Nat) : k ≤ f.pastLineBreak k := by
  rcases f.pastLineBreak_cases k with h | ⟨v, -, w, -, h⟩ | ⟨v, -, w, -, h⟩ <;> omega

theorem splitAt?_add {t u v w : Text} {k : Nat} (h : t.splitAt? k = some (u, v ++ w)) :
    t.splitAt? (k + v.size) = some (u ++ v, w) := by
  rw [Text.splitAt?_eq_some_iff] at h ⊢
  obtain ⟨rfl, rfl⟩ := h
  exact ⟨by rw [List.append_assoc], Text.size_append u v⟩

theorem isBorder_pastLineBreak {k : Nat} (h : f.text.IsBorder k) :
    f.text.IsBorder (f.pastLineBreak k) := by
  rcases f.pastLineBreak_cases k with hk | ⟨⟨u, v⟩, hv, w, rfl, hk⟩ | ⟨⟨u, v⟩, hv, w, rfl, hk⟩
  · rw [hk]
    exact h
  · rw [hk]
    exact Text.isBorder_iff.mpr ⟨_, _, Text.splitAt?_eq_some_iff.mp (splitAt?_add (v := ['\n']) hv)⟩
  · rw [hk]
    exact Text.isBorder_iff.mpr ⟨_, _, Text.splitAt?_eq_some_iff.mp (splitAt?_add (v := ['\r', '\n']) hv)⟩

/-- Behind a line break the offset that begins no line break is past it. -/
theorem pastLineBreak_le {k m : Nat} (hkm : k ≤ m) (hm : f.pastLineBreak m = m) :
    f.pastLineBreak k ≤ m := by
  rcases f.pastLineBreak_cases k with hk | ⟨⟨u, v⟩, hv, w, rfl, hk⟩ | ⟨⟨u, v⟩, hv, w, rfl, hk⟩
  · omega
  · by_cases hmk : m = k
    · subst hmk
      omega
    · omega
  · by_cases hmk : m = k
    · subst hmk
      omega
    · by_cases hmk' : m = k + 1
      · -- between the two characters of the line break another one begins
        have hsplit := splitAt?_add (v := ['\r']) hv
        rw [show k + Text.size ['\r'] = m from hmk'.symm] at hsplit
        unfold pastLineBreak at hm
        rw [hsplit] at hm
        simp at hm
      · omega

/-- **Every parsed file is importable.** -/
theorem parse?_importable {dialect : Dialect} {t : Text} (h : parse? dialect t = .ok f) :
    f.Importable where
  wellFormed := parse?_wellFormed h
  trailing := fun m hm => (parse?_edged h m hm).trailing
  solid := by
    intro n hn
    obtain ⟨x, v, rows, -, hrows, hshows⟩ := parse?_statements h
    obtain ⟨r, hr, hshow⟩ := exists_related hshows hn
    obtain ⟨hskipped, w, hstated⟩ := hrows.stated r hr
    have hstart : n.start = r.start t := hshow.start_eq hstated hskipped
    obtain ⟨u, hu, hsize⟩ := hshow.place
    have hsplit : f.text.splitAt? n.start = some (u, r.text) := by
      rw [Text.splitAt?_eq_some_iff, parse?_text h, hstart]
      exact ⟨hu, hsize⟩
    unfold pastLineBreak
    rw [hsplit]
    -- a statement starts with a token, and no token with white space
    have hspace : ∀ c s, r.text = c :: s → Lexer.isSpace c = false := by
      intro c s hcs
      rw [hcs, Lexer.triviaUnit] at hskipped
      by_contra hc
      rw [if_pos (by simpa using hc)] at hskipped
      cases hskipped
    split
    · next heq =>
        have := hspace _ _ (Prod.mk.inj (Option.some.inj heq)).2
        cases this
    · next heq =>
        have := hspace _ _ (Prod.mk.inj (Option.some.inj heq)).2
        cases this
    · rfl

end SourceFile

end Promisify
