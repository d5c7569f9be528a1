import Promisify.Proofs.ImportReading

set_option autoImplicit false

/-! # The imports of a file as they are written

A statement is read by itself, and then its tree is moved to its place in the file and gets the comments
inside it. The view of an import is moved with it and does not look at comments. So an import of a file
starts with the phrase that its view shows, at the place where it stands.
-/

namespace Promisify

open Lexer Lexeme

/-! ## Views further back -/

def NameView.shift (k : Nat) (v : NameView) : NameView := ⟨v.span.shift k, v.pair⟩

def BracesView.shift (k : Nat) (b : BracesView) : BracesView :=
  ⟨b.span.shift k, b.names.map (NameView.shift k), b.other.map (k + ·)⟩

def ImportView.shift (k : Nat) (v : ImportView) : ImportView :=
  ⟨v.moduleName, v.typeOnly, v.braces.map (BracesView.shift k)⟩

theorem Lexeme.spanOf_shift (k pos : Nat) (ls : List Lexeme) :
    (spanOf pos ls).shift k = spanOf (k + pos) ls := by
  simp [spanOf, Span.shift, Nat.add_assoc]

theorem Lexeme.view_shift (k pos : Nat) (ls : List Lexeme) :
    (view pos ls).shift k = view (k + pos) ls := by
  rw [view, NameView.shift, spanOf_shift]
  rfl

theorem NameList.moreViews_shift (k pos : Nat) (more : List (Lexeme × List Lexeme)) :
    (moreViews pos more).map (NameView.shift k) = moreViews (k + pos) more := by
  induction more generalizing pos with
  | nil => rfl
  | cons p more ih =>
      rw [moreViews, List.map_cons, ih, view_shift, moreViews]
      simp only [Nat.add_assoc]

theorem Braces.views_shift (k pos : Nat) (b : Braces) :
    (b.views pos).map (NameView.shift k) = b.views (k + pos) := by
  unfold views
  cases b.names with
  | none => rfl
  | some n =>
      simp only [Option.map_some, Option.getD_some, NameList.views, List.map_cons, view_shift,
        NameList.moreViews_shift, Nat.add_assoc]

theorem ImportGroup.view_shift (k pos : Nat) (other : Option Nat) (g : ImportGroup) :
    (g.view pos other).map (BracesView.shift k) = g.view (k + pos) (other.map (k + ·)) := by
  cases g with
  | whole => rfl
  | named b => simp only [view, Option.map_some, BracesView.shift, spanOf_shift, Braces.views_shift]

theorem ImportBinding.view_shift (k pos : Nat) (b : ImportBinding) :
    (b.view pos).map (BracesView.shift k) = b.view (k + pos) := by
  cases b with
  | only => rfl
  | group g => exact g.view_shift k pos none
  | both name comma g =>
      rw [view, ImportGroup.view_shift, view]
      simp only [Option.map_some, Nat.add_assoc]

theorem ImportPhrase.view_shift (k pos : Nat) (p : ImportPhrase) :
    (p.view pos).shift k = p.view (k + pos) := by
  simp only [view, ImportBody.view, ImportView.shift, ImportView.mk.injEq, true_and]
  cases p.body with
  | bare => rfl
  | bound mark b word source =>
      simp only [ImportBody.braces, ImportBinding.view_shift, Nat.add_assoc]

/-! ## The tree of a statement at its place -/

namespace SourceFile

variable {f : SourceFile} {k : Nat} {v : Text}

theorem lastOf_shift (kinds : List Kind) (k : Nat) (n : Node) :
    lastOf kinds (n.shift k) = (lastOf kinds n).map (Node.shift k) := by
  rw [lastOf, Node.children_shift, List.filter_map, List.getLast?_map]
  simp only [lastOf, Function.comp_def, Node.kind_shift]

theorem textOf_shift (h : f.text.From k v) (n root : Node) :
    f.textOf (n.shift k) = (SourceFile.mk v root).textOf n := by
  have hspan : (n.shift k).span = n.span.shift k := by simp [Node.span, Span.shift]
  rw [textOf, hspan, h.span?_shift]
  rfl

theorem importedName?_shift (h : f.text.From k v) (n root : Node) :
    (f.importedName? (n.shift k)).map ImportedName.view =
      ((SourceFile.mk v root).importedName? n).map fun x => x.view.shift k := by
  have hspan : (n.shift k).span = n.span.shift k := by simp [Node.span, Span.shift]
  by_cases hkind : n.kind = .importSpecifier
  · cases hname : n.child? .name with
    | none => simp [importedName?, hkind, Node.child?_shift, hname]
    | some name =>
        cases hlocal : n.child? .localName with
        | none =>
            simp [importedName?, hkind, Node.child?_shift, hname, hlocal, ImportedName.view,
              NameView.shift, hspan, textOf_shift h _ root]
        | some given =>
            simp [importedName?, hkind, Node.child?_shift, hname, hlocal, ImportedName.view,
              NameView.shift, hspan, textOf_shift h _ root]
  · simp [importedName?, hkind]

theorem bracesView_shift (h : f.text.From k v) (c root : Node) :
    f.bracesView (c.shift k) = ((SourceFile.mk v root).bracesView c).map (BracesView.shift k) := by
  rw [bracesView, bracesView, lastOf_shift, lastOf_shift]
  cases lastOf [.namedImports] c with
  | none => rfl
  | some b =>
      have hspan : (b.shift k).span = b.span.shift k := by simp [Node.span, Span.shift]
      have hnames : ((b.shift k).children.filterMap f.importedName?).map ImportedName.view =
          ((b.children.filterMap (SourceFile.mk v root).importedName?).map ImportedName.view).map
            (NameView.shift k) := by
        rw [Node.children_shift, List.filterMap_map, List.map_filterMap, List.map_filterMap,
          List.map_filterMap]
        congr 1
        funext n
        have hn := importedName?_shift h n root
        simpa [Function.comp_def] using hn
      have hother : ((lastOf [.identifier, .namespaceImport] c).map (Node.shift k)).map Node.stop =
          ((lastOf [.identifier, .namespaceImport] c).map Node.stop).map (k + ·) := by
        cases lastOf [.identifier, .namespaceImport] c with
        | none => rfl
        | some n => simp
      simp only [Option.map_some, BracesView.shift, hspan, hnames, hother]

end SourceFile

/-! ## Comments in a statement -/

namespace Node.Annotates

variable {f : SourceFile} {m n : Node}

theorem importedName?_view (h : Annotates m n) :
    (f.importedName? n).map ImportedName.view = (f.importedName? m).map ImportedName.view := by
  have htext : ∀ {a b : Node}, Annotates a b → f.textOf b = f.textOf a := by
    intro a b hab
    rw [SourceFile.textOf, SourceFile.textOf, hab.span_eq]
  by_cases hkind : m.kind = .importSpecifier
  · have hkind' : n.kind = .importSpecifier := h.kind_eq.trans hkind
    rcases h.child?_cases .name with ⟨hn, hm⟩ | ⟨a, b, hn, hm, hab⟩
    · simp [SourceFile.importedName?, hkind, hkind', hn, hm]
    · rcases h.child?_cases .localName with ⟨hn', hm'⟩ | ⟨a', b', hn', hm', hab'⟩
      · simp [SourceFile.importedName?, hkind, hkind', hn, hm, hn', hm', ImportedName.view, h.span_eq,
          htext hab]
      · simp [SourceFile.importedName?, hkind, hkind', hn, hm, hn', hm', ImportedName.view, h.span_eq,
          htext hab, htext hab']
  · have hkind' : ¬ n.kind = .importSpecifier := fun hn => hkind (h.kind_eq.symm.trans hn)
    simp [SourceFile.importedName?, hkind, hkind']

theorem names_view (h : Annotates m n) : (n.children.filterMap f.importedName?).map ImportedName.view =
    (m.children.filterMap f.importedName?).map ImportedName.view := by
  -- only the children that are names in braces count
  have hfilter : ∀ cs : List Node, (cs.filterMap f.importedName?).map ImportedName.view =
      ((cs.filter fun c => c.kind == .importSpecifier).filterMap f.importedName?).map
        ImportedName.view := by
    intro cs
    rw [List.filterMap_filter]
    congr 2
    funext c
    by_cases hc : c.kind = .importSpecifier
    · simp [hc]
    · simp [SourceFile.importedName?, hc]
  rw [hfilter n.children, hfilter m.children]
  have hall := h.children (q := fun k => k == .importSpecifier) rfl
  generalize (m.children.filter fun c => c.kind == .importSpecifier) = ms at hall ⊢
  generalize (n.children.filter fun c => c.kind == .importSpecifier) = ns at hall ⊢
  induction hall with
  | nil => rfl
  | cons hab _ ih =>
      have hview := hab.importedName?_view (f := f)
      rw [List.map_filterMap, List.map_filterMap] at ih ⊢
      rw [List.filterMap_cons, List.filterMap_cons, hview, ih]

theorem bracesView (h : Annotates m n) : f.bracesView n = f.bracesView m := by
  have hother : (SourceFile.lastOf [.identifier, .namespaceImport] n).map Node.stop =
      (SourceFile.lastOf [.identifier, .namespaceImport] m).map Node.stop := by
    rcases h.lastOf_cases [.identifier, .namespaceImport] rfl with
      ⟨hm, hn⟩ | ⟨a, b, hm, hn, hab⟩
    · rw [hm, hn]
    · rw [hm, hn, Option.map_some, Option.map_some, hab.stop_eq]
  unfold SourceFile.bracesView
  rcases h.lastOf_cases [.namedImports] rfl with ⟨hm, hn⟩ | ⟨a, b, hm, hn, hab⟩
  · rw [hm, hn]
    rfl
  · rw [hm, hn, Option.map_some, Option.map_some, hab.span_eq, hab.names_view, hother]

theorem any_kind (h : Annotates m n) {x : Kind} (hx : x ≠ .comment) :
    (n.children.any fun c => c.kind == x) = m.children.any fun c => c.kind == x := by
  have hall := h.children (q := fun k => k == x) (by simpa using Ne.symm hx)
  rw [Bool.eq_iff_iff]
  have hsome : ∀ cs : List Node, (cs.any fun c => c.kind == x) = true ↔
      (cs.filter fun c => c.kind == x) ≠ [] := by
    intro cs
    rw [Ne, List.filter_eq_nil_iff]
    simp
  rw [hsome, hsome, ← List.length_pos_iff, ← List.length_pos_iff, hall.length_eq]

end Node.Annotates

/-! ## Imports of a file -/

namespace SourceFile

variable {f : SourceFile} {n : Node} {r : Row}

/-- The view of the import at a node, and where the module ends that it names. -/
def importView? (f : SourceFile) (n : Node) : Option (ImportView × Nat) :=
  (f.importDecl? n).map fun d => (d.view, d.source.stop)

theorem importView?_eq (f : SourceFile) (n : Node) : f.importView? n =
    if n.kind = .importStatement then (n.child? .source).map fun source =>
      (⟨(f.textOf source).withoutQuotes, n.children.any fun c => c.kind == .typeKeyword,
        (lastOf [.importClause] n).bind f.bracesView⟩, source.stop)
    else none := by
  by_cases hn : n.kind = .importStatement
  · rw [if_pos hn]
    cases hsource : n.child? .source with
    | none => simp [importView?, importDecl?, hn, hsource]
    | some source =>
        obtain ⟨d, hd, -, hdsource, hview⟩ := importDecl?_view (f := f) hn hsource
        rw [importView?, hd, Option.map_some, Option.map_some, hview, hdsource]
  · simp [importView?, importDecl?, hn]

/-- **The import at a node is the one that its statement is read as**, moved to its place. -/
theorem importView?_of_shows (root : Node) (h : r.Shows f.text n) : f.importView? n =
    ((SourceFile.mk r.text root).importView? r.node).map fun p =>
      (p.1.shift (r.start f.text), r.start f.text + p.2) := by
  rw [importView?_eq, importView?_eq]
  have hkind : n.kind = r.node.kind := by rw [h.node.kind_eq, Row.placed, Node.kind_shift]
  by_cases hn : r.node.kind = .importStatement
  · rw [if_pos (hkind.trans hn), if_pos hn]
    have hclause : (lastOf [.importClause] n).bind f.bracesView =
        ((lastOf [.importClause] r.node).bind (SourceFile.mk r.text root).bracesView).map
          (BracesView.shift (r.start f.text)) := by
      have hshift := lastOf_shift [.importClause] (r.start f.text) r.node
      rcases h.node.lastOf_cases [.importClause] rfl with ⟨hm, hn⟩ | ⟨a, b, hm, hn, hab⟩
      · rw [Row.placed, hshift, Option.map_eq_none_iff] at hm
        rw [hn, hm]
        rfl
      · rw [Row.placed, hshift] at hm
        obtain ⟨c, hc, rfl⟩ := Option.map_eq_some_iff.mp hm
        rw [hn, hc, Option.bind_some, Option.bind_some, hab.bracesView, bracesView_shift h.place c root]
    have hmark : (n.children.any fun c => c.kind == .typeKeyword) =
        r.node.children.any fun c => c.kind == .typeKeyword := by
      rw [h.node.any_kind (by decide), Row.placed, Node.children_shift, List.any_map]
      simp only [Function.comp_def, Node.kind_shift]
    rw [hclause, hmark]
    have hshift := Node.child?_shift (r.start f.text) r.node .source
    rcases h.node.child?_cases .source with ⟨hn, hm⟩ | ⟨a, b, hn, hm, hab⟩
    · rw [Row.placed, hshift, Option.map_eq_none_iff] at hm
      rw [hn, hm]
      rfl
    · rw [Row.placed, hshift] at hm
      obtain ⟨c, hc, rfl⟩ := Option.map_eq_some_iff.mp hm
      have htext : f.textOf b = (SourceFile.mk r.text root).textOf c := by
        rw [← textOf_shift h.place c root, textOf, textOf, hab.span_eq]
      have hstop : b.stop = r.start f.text + c.stop := by
        rw [← Node.stop_shift]
        exact hab.stop_eq
      rw [hn, hc, Option.map_some, Option.map_some, Option.map_some, htext, hstop]
      rfl
  · rw [if_neg (fun hk => hn (hkind.symm.trans hk)), if_neg hn]
    rfl

end SourceFile

namespace Row.Shows

variable {d : Dialect} {f : SourceFile} {n : Node} {r : Row} {w : Text}

/-- **A statement of a file that starts like an import is this import.** -/
theorem importDecl? (h : r.Shows f.text n) (hstated : Stated d r.text r.node w) {p : ImportPhrase}
    {u : Text} (hp : p.Sound) (htext : r.text = join p.lexemes ++ u) :
    ∃ e, f.importDecl? n = some e ∧ e.view = p.view (r.start f.text) ∧
      e.source.stop = r.start f.text + Text.size (join p.lexemes) := by
  rw [htext] at hstated
  obtain ⟨-, -, e₀, he₀, -, hstop, hview⟩ := hp.importDecl? hstated r.node
  have hshows := SourceFile.importView?_of_shows (f := f) r.node h
  rw [htext, SourceFile.importView?, SourceFile.importView?, he₀, Option.map_some, Option.map_some,
    hview, hstop, ImportPhrase.view_shift] at hshows
  obtain ⟨e, he, heq⟩ := Option.map_eq_some_iff.mp hshows
  obtain ⟨hev, hes⟩ := Prod.mk.inj heq
  exact ⟨e, he, hev, hes⟩

/-- **An import of a file starts with a phrase** that can be read anywhere. -/
theorem exists_phrase (h : r.Shows f.text n) (hstated : Stated d r.text r.node w)
    (hunit : triviaUnit r.text = 0) {e : ImportDecl} (he : f.importDecl? n = some e) :
    ∃ (p : ImportPhrase) (u : Text), p.Sound ∧ r.text = join p.lexemes ++ u := by
  have hshows := SourceFile.importView?_of_shows (f := f) r.node h
  rw [SourceFile.importView?, he, Option.map_some] at hshows
  obtain ⟨v, hv, -⟩ := Option.map_eq_some_iff.mp hshows.symm
  rw [SourceFile.importView?_eq] at hv
  split at hv
  · next hkind =>
      refine hstated.exists_phrase hunit hkind ?_
      intro hnone
      rw [hnone] at hv
      cases hv
  · cases hv

end Row.Shows

end Promisify
