import Promisify.Import
import Promisify.Proofs.ImportPhrases

set_option autoImplicit false

/-! # Import statements written out

An import up to the module it names, as a phrase: `import`, what it binds, `from`, the module. Reading
takes an import apart into its phrase, and every phrase is read as an import. What the edits of imports
look at in the tree, the view of an import, is what is written in its phrase.
-/

namespace Promisify

open Lexer Lexeme Promisify.Parser

/-! ## What an import binds -/

/-- A name for the whole module, or names in braces. -/
inductive ImportGroup where
  | whole (star as name : Lexeme)
  | named (b : Braces)

namespace ImportGroup

def lexemes : ImportGroup → List Lexeme
  | whole star as name => [star, as, name]
  | named b => b.lexemes

/-- The first lexeme. -/
def head : ImportGroup → Lexeme
  | whole star _ _ => star
  | named b => b.opening

/-- The tokens are those of a group. -/
inductive Formed : ImportGroup → Prop
  | whole {star as name : Lexeme} {w : Word} (hstar : star.token = .punct .star)
      (has : as.token = .word .kAs) (hname : name.token = .word w) :
      Formed (.whole star as name)
  | named {b : Braces} (hb : b.Formed) : Formed (.named b)

/-- How many names come after the first one in braces. -/
def rank : ImportGroup → Nat
  | whole _ _ _ => 0
  | named b => (b.names.map fun n => n.more.length).getD 0

end ImportGroup

/-- What an import binds: a name for the default, a group, or both. -/
inductive ImportBinding where
  | only (name : Lexeme)
  | group (g : ImportGroup)
  | both (name comma : Lexeme) (g : ImportGroup)

namespace ImportBinding

def lexemes : ImportBinding → List Lexeme
  | only name => [name]
  | group g => g.lexemes
  | both name comma g => name :: comma :: g.lexemes

/-- The first lexeme. -/
def head : ImportBinding → Lexeme
  | only name => name
  | group g => g.head
  | both name _ _ => name

/-- The tokens are those of a binding. -/
inductive Formed : ImportBinding → Prop
  | only {name : Lexeme} {w : Word} (hname : name.token = .word w) : Formed (.only name)
  | group {g : ImportGroup} (hg : g.Formed) : Formed (.group g)
  | both {name comma : Lexeme} {w : Word} {g : ImportGroup} (hname : name.token = .word w)
      (hcomma : comma.token = .punct .comma) (hg : g.Formed) : Formed (.both name comma g)

/-- How many names come after the first one in braces. -/
def rank : ImportBinding → Nat
  | only _ => 0
  | group g => g.rank
  | both _ _ g => g.rank

end ImportBinding

theorem ImportGroup.lexemes_eq (g : ImportGroup) : ∃ ls, g.lexemes = g.head :: ls := by
  cases g with
  | whole star as name => exact ⟨_, rfl⟩
  | named b => exact ⟨_, rfl⟩

theorem ImportBinding.lexemes_eq (b : ImportBinding) : ∃ ls, b.lexemes = b.head :: ls := by
  cases b with
  | only name => exact ⟨_, rfl⟩
  | group g => exact g.lexemes_eq
  | both name comma g => exact ⟨_, rfl⟩

namespace Grammar

variable {t : Text} {s s' : State} {ns : List Node} {l : Lexeme} {ls ms ks : List Lexeme} {g : Grammar}

/-! ### Reading what is written -/

theorem accepts_importGroup {x : ImportGroup} (hx : x.Formed) (hfuel : x.rank ≤ g.fuel) :
    Accepts g.importGroup x.lexemes ms := by
  cases hx with
  | whole hstar has hname =>
      have hread : Accepts (node .namespaceImport (all [punct .star, word .kAs, name .identifier]))
          [_, _, _] ms :=
        .node (.first (.punct hstar) (.first (.word has) (.first (.name hname) .nil)))
      refine .look_eq ?_ hread
      intro t s v ho
      rw [if_pos (by simp [ho.tok, hstar])]
  | @named b hb =>
      have hread : Accepts (g.specifiers .namedImports .importSpecifier) b.lexemes ms := by
        refine accepts_braces hb ?_
        intro n hn
        simpa [ImportGroup.rank, Option.mem_def.mp hn] using hfuel
      refine .look_eq ?_ hread
      intro t s v ho
      rw [if_neg (by simp [show s.tok = .punct .lbrace from ho.tok.trans hb.opening])]

theorem accepts_importClause {b : ImportBinding} (hb : b.Formed) (hfuel : b.rank ≤ g.fuel)
    (hl : l.token = .word .kFrom) : Accepts g.importClause b.lexemes (l :: ms) := by
  refine .node ?_
  cases hb with
  | @only name w hname =>
      have hread : Accepts (all [Parser.name .identifier, opt (all [punct .comma, g.importGroup])])
          [name] (l :: ms) :=
        .first (.name hname) (.skip (.opt_of_refuses (.andThen (.token (by simp [hl])))) .nil)
      refine .look_eq ?_ hread
      intro t s v ho
      simp only [show s.tok = .word w from ho.tok.trans hname]
  | @group x hx =>
      refine .look_eq ?_ (accepts_importGroup hx hfuel)
      intro t s v ho
      cases hx with
      | whole hstar has hname => simp only [show s.tok = .punct .star from ho.tok.trans hstar]
      | named hb => simp only [show s.tok = .punct .lbrace from ho.tok.trans hb.opening]
  | @both name comma w x hname hcomma hx =>
      have hread : Accepts (all [Parser.name .identifier, opt (all [punct .comma, g.importGroup])])
          (name :: comma :: x.lexemes) (l :: ms) :=
        .first (.name hname) (.opt (.first (.punct hcomma) (accepts_importGroup hx hfuel)))
      refine .look_eq ?_ hread
      intro t s v ho
      simp only [show s.tok = .word w from ho.tok.trans hname]

theorem accepts_fromClause {a : Lexeme} (hl : l.token = .word .kFrom) (ha : a.token = .string) :
    Accepts fromClause [l, a] ms := by
  show Accepts _ ([l] ++ [a]) ms
  exact .andThen (.word hl) (.role (.tokenAs ha))

end Grammar

/-! ## Statements -/

/-- The mark `a` can stand in front of what an import binds: it is not itself read as a name there. -/
def ImportBinding.Follows (a : Lexeme) (b : ImportBinding) : Prop :=
  a.token = .word .kType ∧
      (∀ name comma g, b = .both name comma g → name.token ≠ .word .kFrom) ∨
    a.token = .word .kTypeof ∧ (b.head.token = .punct .lbrace ∨ b.head.token = .word .other)

/-- What stands between `import` and the semicolon: the module, after what is bound if anything is. -/
inductive ImportBody where
  | bare (source : Lexeme)
  | bound (mark : Option Lexeme) (b : ImportBinding) (word source : Lexeme)

namespace ImportBody

def lexemes : ImportBody → List Lexeme
  | bare source => [source]
  | bound mark b word source => mark.toList ++ (b.lexemes ++ [word, source])

/-- The lexeme that names the module. -/
def source : ImportBody → Lexeme
  | bare source => source
  | bound _ _ _ source => source

/-- The tokens are those of an import. -/
inductive Formed : ImportBody → Prop
  | bare {source : Lexeme} (hsource : source.token = .string) : Formed (.bare source)
  | bound {mark : Option Lexeme} {b : ImportBinding} {word source : Lexeme}
      (hmark : ∀ a ∈ mark, b.Follows a) (hb : b.Formed) (hword : word.token = .word .kFrom)
      (hsource : source.token = .string) : Formed (.bound mark b word source)

/-- How many names come after the first one in braces. -/
def rank : ImportBody → Nat
  | bare _ => 0
  | bound _ b _ _ => b.rank

end ImportBody

/-- An import up to the module it names. -/
structure ImportPhrase where
  opening : Lexeme
  body : ImportBody

namespace ImportPhrase

def lexemes (p : ImportPhrase) : List Lexeme := p.opening :: p.body.lexemes

/-- The tokens are those of an import. -/
structure Formed (p : ImportPhrase) : Prop where
  opening : p.opening.token = .word .kImport
  body : p.body.Formed

end ImportPhrase

namespace Grammar

variable {t : Text} {s s' : State} {ns : List Node} {l : Lexeme} {ls ms ks : List Lexeme} {g : Grammar}

/-- What is bound and the module it comes from. -/
def importBound (g : Grammar) : Parser := all [g.importClause, fromClause]

/-- The mark of an import of types. -/
def importMark : Parser := tokenAs .typeKeyword (.word .kType)

/-! ### How the tokens ahead settle what is read -/

theorem importBody_punct {p : Punct} (h : s.tok = .punct p) : g.importBody s = g.importBound := by
  unfold importBody
  split <;> simp_all [importBound]

theorem importBody_comma {w : Word} (h₁ : s.tok = .word w) (h₂ : s.advance.tok = .punct .comma) :
    g.importBody s = g.importBound := by
  unfold importBody
  split <;> simp_all [importBound]

theorem importBody_from {w : Word} (h₁ : s.tok = .word w) (h₂ : s.advance.tok = .word .kFrom)
    (h₃ : s.advance.advance.tok = .string) : g.importBody s = g.importBound := by
  unfold importBody
  split <;> simp_all [importBound]

theorem importBody_type_punct {p : Punct} (h₁ : s.tok = .word .kType)
    (h₂ : s.advance.tok = .punct p) (hp : p = .lbrace ∨ p = .star) :
    g.importBody s = all [importMark, g.importBound] := by
  unfold importBody
  rcases hp with rfl | rfl <;> split <;> simp_all [importBound, importMark]

theorem importBody_type_from {w : Word} (h₁ : s.tok = .word .kType) (h₂ : s.advance.tok = .word w)
    (h₃ : s.advance.advance.tok = .word .kFrom) :
    g.importBody s = all [importMark, g.importBound] := by
  unfold importBody
  by_cases hw : w = .kFrom
  · subst hw
    split <;> simp_all [importBound, importMark]
  · split <;> simp_all [importBound, importMark]

theorem importBody_type_comma {w : Word} (h₁ : s.tok = .word .kType) (h₂ : s.advance.tok = .word w)
    (hw : w ≠ .kFrom) (h₃ : s.advance.advance.tok = .punct .comma) :
    g.importBody s = all [importMark, g.importBound] := by
  unfold importBody
  split <;> simp_all [importBound, importMark]

theorem importBody_typeof (h₁ : s.tok = .word .kTypeof)
    (h₂ : s.advance.tok = .punct .lbrace ∨ s.advance.tok = .word .other) :
    g.importBody s = all [word .kTypeof, g.importBound] := by
  unfold importBody
  rcases h₂ with h₂ | h₂ <;> split <;> simp_all [importBound]

/-! ### Reading what is written -/

theorem accepts_importBound {b : ImportBinding} {a : Lexeme} (hb : b.Formed)
    (hfuel : b.rank ≤ g.fuel) (hl : l.token = .word .kFrom) (ha : a.token = .string) :
    Accepts g.importBound (b.lexemes ++ [l, a]) ms :=
  (accepts_importClause hb hfuel hl).andThen (accepts_fromClause hl ha)

section Marks

variable {b : ImportBinding} {word source : Lexeme}

/-- Without a mark what is bound comes first: a name, a comma behind it or a group. -/
theorem accepts_importBody_unmarked (hb : b.Formed) (hfuel : b.rank ≤ g.fuel)
    (hword : word.token = .word .kFrom) (hsource : source.token = .string) :
    Accepts (look g.importBody) (b.lexemes ++ [word, source]) ms := by
  refine .look_eq ?_ (accepts_importBound hb hfuel hword hsource)
  intro t s v ho
  cases hb with
  | only hname =>
      exact importBody_from (ho.tok.trans hname) (ho.advance.tok.trans hword)
        (ho.advance.advance.tok.trans hsource)
  | @group x hx =>
      cases hx with
      | whole hstar has hname => exact importBody_punct (ho.tok.trans hstar)
      | named hb => exact importBody_punct (ho.tok.trans hb.opening)
  | both hname hcomma hx =>
      exact importBody_comma (ho.tok.trans hname) (ho.advance.tok.trans hcomma)

/-- Behind the mark of an import of types a name that another one follows is not `from`. -/
theorem accepts_importBody_type (hb : b.Formed) (hfuel : b.rank ≤ g.fuel)
    (hword : word.token = .word .kFrom) (hsource : source.token = .string) (hl : l.token = .word .kType)
    (hfrom : ∀ name comma x, b = .both name comma x → name.token ≠ .word .kFrom) :
    Accepts (look g.importBody) (l :: (b.lexemes ++ [word, source])) ms := by
  have hread : Accepts (all [importMark, g.importBound]) (l :: (b.lexemes ++ [word, source])) ms :=
    .first (.tokenAs hl) (accepts_importBound hb hfuel hword hsource)
  refine .look_eq ?_ hread
  intro t s v ho
  cases hb with
  | only hname =>
      exact importBody_type_from (ho.tok.trans hl) (ho.advance.tok.trans hname)
        (ho.advance.advance.tok.trans hword)
  | @group x hx =>
      cases hx with
      | whole hstar has hname =>
          exact importBody_type_punct (ho.tok.trans hl) (ho.advance.tok.trans hstar) (Or.inr rfl)
      | named hb =>
          exact importBody_type_punct (ho.tok.trans hl) (ho.advance.tok.trans hb.opening) (Or.inl rfl)
  | @both name comma w x hname hcomma hx =>
      refine importBody_type_comma (ho.tok.trans hl) (ho.advance.tok.trans hname) ?_
        (ho.advance.advance.tok.trans hcomma)
      rintro rfl
      exact hfrom name comma x rfl hname

theorem accepts_importBody_typeof (hb : b.Formed) (hfuel : b.rank ≤ g.fuel)
    (hword : word.token = .word .kFrom) (hsource : source.token = .string) (hl : l.token = .word .kTypeof)
    (hhead : b.head.token = .punct .lbrace ∨ b.head.token = .word .other) :
    Accepts (look g.importBody) (l :: (b.lexemes ++ [word, source])) ms := by
  have hread : Accepts (all [Parser.word .kTypeof, g.importBound])
      (l :: (b.lexemes ++ [word, source])) ms :=
    .first (.word hl) (accepts_importBound hb hfuel hword hsource)
  refine .look_eq ?_ hread
  intro t s v ho
  obtain ⟨ls, hls⟩ := b.lexemes_eq
  rw [hls] at ho
  have hnext := ho.advance.tok
  exact importBody_typeof (ho.tok.trans hl) (hhead.imp hnext.trans hnext.trans)

end Marks

/-- **What an import is written as is read**, up to the end of the module. -/
theorem accepts_importBody {x : ImportBody} (hx : x.Formed) (hfuel : x.rank ≤ g.fuel) :
    Accepts (look g.importBody) x.lexemes ms := by
  cases hx with
  | @bare source hsource =>
      have hread : Accepts (role .source (leaf .string)) [source] ms := .role (.leaf .string)
      refine .look_eq ?_ hread
      intro t s v ho
      have htok : s.tok = .string := ho.tok.trans hsource
      unfold importBody
      split <;> simp_all
  | @bound mark b word source hmark hb hword hsource =>
      cases mark with
      | none => exact accepts_importBody_unmarked hb hfuel hword hsource
      | some a =>
          rcases hmark a rfl with ⟨ha, hfrom⟩ | ⟨ha, hhead⟩
          · exact accepts_importBody_type hb hfuel hword hsource ha hfrom
          · exact accepts_importBody_typeof hb hfuel hword hsource ha hhead

end Grammar

/-! ## What edits look at

The edits of imports look at the module of an import, at its mark, at its braces with the names in
them, and at where the name bound beside the braces ends. -/

/-- Names in braces: where the braces stand, the names, and where another name that is bound ends. -/
structure BracesView where
  span : Span
  names : List NameView
  other : Option Nat

/-- An import: the module, whether only types are imported, and the braces if there are any. -/
structure ImportView where
  moduleName : Text
  typeOnly : Bool
  braces : Option BracesView

/-- The braces in what an import binds. -/
def SourceFile.bracesView (f : SourceFile) (c : Node) : Option BracesView :=
  (SourceFile.lastOf [.namedImports] c).map fun b =>
    ⟨b.span, (b.children.filterMap f.importedName?).map ImportedName.view,
      (SourceFile.lastOf [.identifier, .namespaceImport] c).map Node.stop⟩

def ImportDecl.view (d : ImportDecl) : ImportView :=
  ⟨d.moduleName, d.typeOnly, d.named.map fun b =>
    ⟨b.span, d.names.map ImportedName.view, d.otherBinding.map Node.stop⟩⟩

/-- The braces of a group from the offset `pos` on. -/
def ImportGroup.view (pos : Nat) (other : Option Nat) : ImportGroup → Option BracesView
  | .whole _ _ _ => none
  | .named b => some ⟨spanOf pos b.lexemes, b.views pos, other⟩

/-- The braces in what is bound from the offset `pos` on. -/
def ImportBinding.view (pos : Nat) : ImportBinding → Option BracesView
  | .only _ => none
  | .group g => g.view pos none
  | .both name comma g =>
      g.view (pos + Text.size name.text + Text.size comma.text) (some (pos + Text.size name.text))

namespace ImportBody

/-- Whether only types are imported. -/
def typeOnly : ImportBody → Bool
  | .bare _ => false
  | .bound mark _ _ _ => mark.any fun a => a.token == .word .kType

/-- The braces from the offset `pos` on. -/
def braces (pos : Nat) : ImportBody → Option BracesView
  | .bare _ => none
  | .bound mark b _ _ => b.view (pos + Text.size (join mark.toList))

def view (pos : Nat) (x : ImportBody) : ImportView :=
  ⟨x.source.body.withoutQuotes, x.typeOnly, x.braces pos⟩

end ImportBody

/-- The import whose lexemes start at the offset `pos`. -/
def ImportPhrase.view (pos : Nat) (p : ImportPhrase) : ImportView :=
  p.body.view (pos + Text.size p.opening.text)

namespace SourceFile

/-- The view of the import at a node. -/
theorem importDecl?_view {f : SourceFile} {n source : Node} (hn : n.kind = .importStatement)
    (hsource : n.child? .source = some source) : ∃ d, f.importDecl? n = some d ∧ d.node = n ∧
      d.source = source ∧ d.view = ⟨(f.textOf source).withoutQuotes,
        n.children.any fun c => c.kind == .typeKeyword, (lastOf [.importClause] n).bind f.bracesView⟩ := by
  refine ⟨_, by simp only [importDecl?, hn, hsource]; rfl, rfl, rfl, ?_⟩
  cases hc : lastOf [.importClause] n with
  | none => rfl
  | some c =>
      simp only [ImportDecl.view, Option.bind_some, bracesView]
      cases hb : lastOf [.namedImports] c with
      | none => rfl
      | some b => rfl

theorem lastOf_singleton (kinds : List Kind) (k : Kind) (a b : Nat) (n : Node) :
    lastOf kinds (.mk k none a b [n]) = if kinds.contains n.kind then some n else none := by
  simp only [lastOf, Node.children, List.filter_cons, List.filter_nil]
  split <;> rfl

theorem lastOf_pair (kinds : List Kind) (k : Kind) (a b : Nat) (m n : Node) :
    lastOf kinds (.mk k none a b [m, n]) = if kinds.contains n.kind then some n
      else if kinds.contains m.kind then some m else none := by
  simp only [lastOf, Node.children, List.filter_cons, List.filter_nil]
  split <;> split <;> simp

end SourceFile

/-- The node for the module that an import names with the lexeme `a`. -/
structure Node.IsSource (t : Text) (stop : Nat) (a : Lexeme) (n : Node) : Prop where
  kind : n.kind = .string
  field : n.field = some .source
  stop : n.stop = stop
  text : t.span? n.span = some a.body

/-- The nodes of what stands between `import` and the end of the statement, from the offset `pos` to
`stop`. -/
structure ImportBody.Shown (t : Text) (pos stop : Nat) (x : ImportBody) (ns : List Node) : Prop where
  source : ∃ n, (ns.find? fun n => n.field == some .source) = some n ∧ n.stop = stop ∧
    t.span? n.span = some x.source.body
  mark : (ns.any fun c => c.kind == .typeKeyword) = x.typeOnly
  braces : ∀ root, (ns.filter fun n => [Kind.importClause].contains n.kind).getLast?.bind
    (SourceFile.mk t root).bracesView = x.braces pos

/-- The import at a node that shows what stands behind `import`, with attributes behind that. -/
theorem ImportBody.Shown.exists_decl {t : Text} {pos stop a b : Nat} {x : ImportBody} {ns ms : List Node}
    (h : x.Shown t pos stop ns) (hms : ∀ m ∈ ms, m.field = none ∧ m.kind = .importAttribute)
    (root : Node) : ∃ d,
      (SourceFile.mk t root).importDecl? (.mk .importStatement none a b (ns ++ ms)) = some d ∧
        d.node = .mk .importStatement none a b (ns ++ ms) ∧ d.source.stop = stop ∧
        d.view = x.view pos := by
  obtain ⟨n, hn, hstop, htext⟩ := h.source
  have hsource : Node.child? (.mk .importStatement none a b (ns ++ ms)) .source = some n := by
    rw [Node.child?, Node.children, List.find?_append, hn]
    rfl
  obtain ⟨d, hd, hnode, hdsource, hview⟩ := SourceFile.importDecl?_view (f := ⟨t, root⟩) rfl hsource
  refine ⟨d, hd, hnode, by rw [hdsource]; exact hstop, ?_⟩
  -- attributes have neither a mark nor anything that is bound
  have hmark : ((ns ++ ms).any fun c => c.kind == .typeKeyword) = x.typeOnly := by
    rw [List.any_append, h.mark, List.any_eq_false.mpr, Bool.or_false]
    intro m hm
    simp [(hms m hm).2]
  have hclause : (SourceFile.lastOf [.importClause] (.mk .importStatement none a b (ns ++ ms))).bind
      (SourceFile.mk t root).bracesView = x.braces pos := by
    rw [SourceFile.lastOf, Node.children, List.filter_append, List.filter_eq_nil_iff (l := ms) |>.mpr,
      List.append_nil, h.braces root]
    intro m hm
    simp [(hms m hm).2]
  rw [hview, hclause, Node.children, hmark, SourceFile.textOf, htext]
  rfl

namespace Grammar

variable {t : Text} {s s' : State} {ns : List Node} {g : Grammar}

/-! ### Writing out what was read -/

/-- What is read as a group is one node: a name for the module, or braces. -/
theorem passes_importGroup (hs : s.Sound t) (h : g.importGroup s = .ok ns s') :
    ∃ x : ImportGroup, x.Formed ∧ Passes t s x.lexemes s' ∧ ∃ n, ns = [n] ∧
      ((n.kind = .namespaceImport ∧ ∀ pos other, x.view pos other = none) ∨
        n.kind = .namedImports ∧ ∀ root other,
          some ⟨n.span, (n.children.filterMap (SourceFile.mk t root).importedName?).map
            ImportedName.view, other⟩ = x.view s.prevStop other) := by
  simp only [importGroup, look] at h
  split at h
  · obtain ⟨ms, hread, rfl⟩ := node_eq_ok h
    obtain ⟨ns₁, s₁, ns₂, hstar, hrest, rfl⟩ := andThen_eq_ok hread
    obtain ⟨a, ha, rfl, hpass₁⟩ := passes_punct hs hstar
    obtain ⟨ns₃, s₂, ns₄, has, hname, rfl⟩ := andThen_eq_ok hrest
    obtain ⟨c, hc, rfl, hpass₂⟩ := passes_word hpass₁.sound has
    obtain ⟨b, w, hb, rfl, hpass₃⟩ := passes_name hpass₂.sound hname
    exact ⟨.whole a c b, .whole ha hc hb, hpass₁.trans (hpass₂.trans hpass₃), _, rfl,
      Or.inl ⟨rfl, fun _ _ => rfl⟩⟩
  · obtain ⟨b, hpass, hb, n, rfl, hkind, hspan, hlisted⟩ := passes_braces hs h
    refine ⟨.named b, .named hb, hpass, _, rfl, Or.inr ⟨hkind, ?_⟩⟩
    intro root other
    rw [hspan, hlisted.views root]
    rfl

/-- What is read as what an import binds is one node that shows it. -/
theorem passes_importClause (hs : s.Sound t) (h : g.importClause s = .ok ns s') :
    ∃ x : ImportBinding, x.Formed ∧ Passes t s x.lexemes s' ∧
      ∃ c, ns = [c] ∧ c.kind = .importClause ∧ c.field = none ∧
        ∀ root, (SourceFile.mk t root).bracesView c = x.view s.prevStop := by
  obtain ⟨ms, hread, rfl⟩ := node_eq_ok h
  simp only [look] at hread
  by_cases hword : ∃ w, s.tok = .word w
  · obtain ⟨w, hw⟩ := hword
    simp only [hw] at hread
    obtain ⟨ns₁, s₁, ns₂, hname, hrest, rfl⟩ := andThen_eq_ok hread
    obtain ⟨a, w', ha, rfl, hpass₁⟩ := passes_name hs hname
    have hstop : s.stop = s.prevStop + Text.size a.text := hpass₁.offers.stop
    have hleaf : (Node.leaf .identifier s.start s.stop).kind = .identifier := rfl
    have hend : (Node.leaf .identifier s.start s.stop).stop = s.stop := rfl
    rcases opt_cases hrest with hboth | ⟨rfl, far, rfl⟩
    · obtain ⟨ns₃, s₂, ns₄, hcomma, hgroup, rfl⟩ := andThen_eq_ok hboth
      obtain ⟨c, hc, rfl, hpass₂⟩ := passes_punct hpass₁.sound hcomma
      obtain ⟨x, hx, hpass₃, n, rfl, hcases⟩ := passes_importGroup hpass₂.sound hgroup
      refine ⟨.both a c x, .both ha hc hx, hpass₁.trans (hpass₂.trans hpass₃), _, rfl, rfl, rfl, ?_⟩
      intro root
      have hprev : s₂.prevStop = s.prevStop + Text.size a.text + Text.size c.text := by
        rw [hpass₂.prev, hpass₁.prev]
        simp
      rw [List.nil_append, List.singleton_append, SourceFile.bracesView, SourceFile.lastOf_pair,
        SourceFile.lastOf_pair, ImportBinding.view, ← hprev, ← hstop]
      rcases hcases with ⟨hkind, hnone⟩ | ⟨hkind, hview⟩
      · simp [hkind, hleaf, hnone]
      · rw [← hview root]
        simp [hkind, hleaf, hend]
    · refine ⟨.only a, .only ha, hpass₁.trans (.refl hpass₁.sound far), _, rfl, rfl, rfl, ?_⟩
      intro root
      simp [SourceFile.bracesView, SourceFile.lastOf_singleton, hleaf, ImportBinding.view]
  · have hgroup : g.importGroup s = .ok ms s' := by
      cases htok : s.tok with
      | word w => exact absurd ⟨w, htok⟩ hword
      | _ => simpa only [htok] using hread
    obtain ⟨x, hx, hpass, n, rfl, hcases⟩ := passes_importGroup hs hgroup
    refine ⟨.group x, .group hx, hpass, _, rfl, rfl, rfl, ?_⟩
    intro root
    rw [SourceFile.bracesView, SourceFile.lastOf_singleton, SourceFile.lastOf_singleton,
      ImportBinding.view]
    rcases hcases with ⟨hkind, hnone⟩ | ⟨hkind, hview⟩
    · simp [hkind, hnone]
    · rw [← hview root]
      simp [hkind]

theorem passes_importBound (hs : s.Sound t) (h : g.importBound s = .ok ns s') :
    ∃ (x : ImportBinding) (l a : Lexeme), x.Formed ∧ l.token = .word .kFrom ∧ a.token = .string ∧
      Passes t s (x.lexemes ++ [l, a]) s' ∧ ∃ c n, ns = [c, n] ∧ c.kind = .importClause ∧
        c.field = none ∧ n.IsSource t s'.prevStop a ∧
        ∀ root, (SourceFile.mk t root).bracesView c = x.view s.prevStop := by
  obtain ⟨ns₁, s₁, ns₂, hclause, hfrom, rfl⟩ := andThen_eq_ok h
  obtain ⟨x, hx, hpass₁, c, rfl, hkind, hfield, hview⟩ := passes_importClause hs hclause
  obtain ⟨ns₃, s₂, ns₄, hword, hrole, rfl⟩ := andThen_eq_ok hfrom
  obtain ⟨l, hl, rfl, hpass₂⟩ := passes_word hpass₁.sound hword
  obtain ⟨ms, hsource, rfl⟩ := role_eq_ok hrole
  obtain ⟨a, ha, rfl, hpass₃⟩ := passes_tokenAs hpass₂.sound hsource (by simp)
  refine ⟨x, l, a, hx, hl, ha, hpass₁.trans (hpass₂.trans hpass₃), c, _, rfl, hkind, hfield,
    ⟨rfl, rfl, ?_, hpass₃.offers.span?⟩, hview⟩
  show s₂.stop = s'.prevStop
  rw [hpass₃.offers.stop, hpass₃.prev]
  simp

/-- What is bound after a mark or after none, which the nodes `ms` show. -/
theorem ImportBody.Shown.bound {pos stop : Nat} {mark : Option Lexeme} {x : ImportBinding}
    {l a : Lexeme} {c n : Node} (ms : List Node) (hms : ∀ m ∈ ms, m.field = none ∧ m.kind ≠ .importClause)
    (hmark : (ms.any fun m => m.kind == .typeKeyword) = mark.any fun a => a.token == .word .kType)
    (hc : c.kind = .importClause) (hfield : c.field = none) (hn : n.IsSource t stop a)
    (h : ∀ root, (SourceFile.mk t root).bracesView c = x.view (pos + Text.size (join mark.toList))) :
    (ImportBody.bound mark x l a).Shown t pos stop (ms ++ [c, n]) where
  source := by
    refine ⟨n, ?_, hn.stop, hn.text⟩
    rw [List.find?_append, List.find?_eq_none.mpr]
    · simp [hfield, hn.field]
    · intro m hm
      simp [(hms m hm).1]
  mark := by
    rw [List.any_append, hmark]
    simp [hc, hn.kind, ImportBody.typeOnly]
  braces := by
    intro root
    rw [List.filter_append, List.filter_eq_nil_iff.mpr]
    · simpa [hc, hn.kind, ImportBody.braces] using h root
    · intro m hm
      simp [(hms m hm).2]

theorem passes_unmarked (hs : s.Sound t) (h : g.importBound s = .ok ns s') :
    ∃ x : ImportBody, x.Formed ∧ Passes t s x.lexemes s' ∧ x.Shown t s.prevStop s'.prevStop ns := by
  obtain ⟨x, l, a, hx, hl, ha, hpass, c, n, rfl, hc, hfield, hn, hview⟩ := passes_importBound hs h
  refine ⟨.bound none x l a, .bound (by simp) hx hl ha, hpass, ?_⟩
  exact ImportBody.Shown.bound [] (by simp) rfl hc hfield hn hview

/-- What is bound after the mark `m`, given that the mark can stand in front of it. -/
theorem passes_marked {m : Lexeme} {s₁ : State} {ms : List Node} (hm : Passes t s [m] s₁)
    (hms : ∀ n ∈ ms, n.field = none ∧ n.kind ≠ .importClause)
    (hmark : (ms.any fun m => m.kind == .typeKeyword) = (m.token == .word .kType))
    (h : g.importBound s₁ = .ok ns s')
    (hfollows : ∀ x : ImportBinding, ∀ l, x.Formed → l.token = .word .kFrom →
      (∃ a, Passes t s (m :: (x.lexemes ++ [l, a])) s') → x.Follows m) :
    ∃ x : ImportBody, x.Formed ∧ Passes t s x.lexemes s' ∧
      x.Shown t s.prevStop s'.prevStop (ms ++ ns) := by
  obtain ⟨x, l, a, hx, hl, ha, hpass, c, n, rfl, hc, hfield, hn, hview⟩ :=
    passes_importBound hm.sound h
  have hall := hm.trans hpass
  refine ⟨.bound (some m) x l a, .bound ?_ hx hl ha, hall, ?_⟩
  · rintro k ⟨⟩
    exact hfollows x l hx hl ⟨a, hall⟩
  · rw [hm.prev] at hview
    exact ImportBody.Shown.bound ms hms hmark hc hfield hn hview

theorem passes_typeMark (hs : s.Sound t) (h : all [importMark, g.importBound] s = .ok ns s')
    (hfrom : s.advance.tok = .word .kFrom → s.advance.advance.tok = .word .kFrom) :
    ∃ x : ImportBody, x.Formed ∧ Passes t s x.lexemes s' ∧ x.Shown t s.prevStop s'.prevStop ns := by
  obtain ⟨ns₁, s₁, ns₂, hmark, hbound, rfl⟩ := andThen_eq_ok h
  obtain ⟨m, hm, rfl, hpass⟩ := passes_tokenAs hs hmark (by simp)
  refine passes_marked hpass (by simp [Node.leaf, Node.field, Node.kind])
    (by simp [Node.leaf, Node.kind, hm]) hbound ?_
  rintro x l hx hl ⟨a, hall⟩
  refine Or.inl ⟨hm, ?_⟩
  rintro name comma y rfl hname
  -- a comma comes after the name
  cases hx with
  | both _ hcomma _ =>
      have hnext := hfrom (hall.offers.advance.tok.trans hname)
      rw [hall.offers.advance.advance.tok, hcomma] at hnext
      cases hnext

theorem passes_typeofMark (hs : s.Sound t) (h : all [word .kTypeof, g.importBound] s = .ok ns s')
    (hnext : s.advance.tok = .punct .lbrace ∨ s.advance.tok = .word .other) :
    ∃ x : ImportBody, x.Formed ∧ Passes t s x.lexemes s' ∧ x.Shown t s.prevStop s'.prevStop ns := by
  obtain ⟨ns₁, s₁, ns₂, hmark, hbound, rfl⟩ := andThen_eq_ok h
  obtain ⟨m, hm, rfl, hpass⟩ := passes_word hs hmark
  refine passes_marked hpass (by simp) (by simp [hm]) hbound ?_
  rintro x l hx hl ⟨a, hall⟩
  refine Or.inr ⟨hm, ?_⟩
  obtain ⟨ls, hls⟩ := x.lexemes_eq
  have ho := hall.offers
  rw [hls] at ho
  rw [← ho.advance.tok]
  exact hnext

theorem passes_importEquals (h : g.importEquals s = .ok ns s') : ∀ n ∈ ns, n.field = none := by
  obtain ⟨ms, -, rfl⟩ := node_eq_ok h
  simp [Node.field]

/-- A name and then an equals sign come next, perhaps after a mark. -/
def StartsEquals (s : State) : Prop :=
  (∃ w, s.tok = .word w) ∧
    (s.advance.tok = .punct .assign ∨ s.advance.advance.tok = .punct .assign)

/-- **What is read between `import` and the end of the statement**: another name for something, or what
an import from a module is written as. -/
theorem passes_importBody (hs : s.Sound t) (h : look g.importBody s = .ok ns s') :
    (StartsEquals s ∧ ∀ n ∈ ns, n.field = none) ∨ ∃ x : ImportBody, x.Formed ∧ Passes t s x.lexemes s' ∧
      x.Shown t s.prevStop s'.prevStop ns := by
  simp only [look] at h
  generalize hp : g.importBody s = p at h
  unfold importBody at hp
  split at hp
  · next htok =>
      subst hp
      obtain ⟨ms, hleaf, rfl⟩ := role_eq_ok h
      cases hleaf
      obtain ⟨a, ha, hpass⟩ := hs.exists_lexeme (by simp [htok])
      exact Or.inr ⟨.bare a, .bare (ha.trans htok), hpass, ⟨_, rfl, rfl, hpass.offers.span?⟩, rfl,
        fun _ => rfl⟩
  · next w htok hnext =>
      subst hp
      exact Or.inl ⟨⟨⟨w, htok⟩, Or.inl hnext⟩, passes_importEquals h⟩
  · next htok hnext =>
      split at hp
      · next hthird =>
          subst hp
          exact Or.inr (passes_typeMark hs h fun _ => hthird)
      · subst hp
        exact Or.inr (passes_unmarked hs h)
  · subst hp
    exact Or.inr (passes_unmarked hs h)
  · next htok _ =>
      split at hp
      · next hassign =>
          subst hp
          obtain ⟨ns₁, s₁, ns₂, hmark, hequals, rfl⟩ := andThen_eq_ok h
          obtain ⟨m, -, rfl, -⟩ := passes_tokenAs hs hmark (by simp)
          refine Or.inl ⟨⟨⟨_, htok⟩, Or.inr (by simpa using hassign)⟩, ?_⟩
          intro n hn
          rcases List.mem_append.mp hn with hn | hn
          · rw [List.mem_singleton.mp hn]
            rfl
          · exact passes_importEquals hequals n hn
      · subst hp
        exact Or.inr (passes_typeMark hs h fun hw => by simp_all)
  · subst hp
    exact Or.inr (passes_typeMark hs h fun hw => by simp_all)
  · next htok hnext =>
      subst hp
      exact Or.inr (passes_typeofMark hs h (Or.inl hnext))
  · next htok hnext =>
      subst hp
      exact Or.inr (passes_typeofMark hs h (Or.inr hnext))
  · subst hp
    exact Or.inr (passes_unmarked hs h)

/-- Attributes are read on the line of the module. -/
theorem importAttribute_eq (g : Grammar) : ∃ p : State → Parser, g.importAttribute = look p ∧
    ∀ s, p s = pass [] ∨ atLineEnd .bare s = false ∧
      p s = node .importAttribute (andThen (token s.tok) g.object) := by
  refine ⟨_, rfl, ?_⟩
  intro s
  by_cases hline : atLineEnd .bare s = true
  · simp only [hline, if_true]
    split
    · exact Or.inl rfl
    · exact Or.inl rfl
    · exact Or.inl rfl
  · simp only [hline]
    split
    · exact Or.inr ⟨trivial, rfl⟩
    · exact Or.inr ⟨trivial, rfl⟩
    · exact Or.inl rfl

theorem importAttribute_of_atLineEnd (h : atLineEnd .bare s = true) :
    g.importAttribute s = .ok [] s := by
  obtain ⟨p, heq, hcases⟩ := g.importAttribute_eq
  rw [heq, look]
  rcases hcases s with hp | ⟨hline, -⟩
  · rw [hp]
    rfl
  · rw [h] at hline
    cases hline

theorem kind_importAttribute (h : g.importAttribute s = .ok ns s') :
    ∀ n ∈ ns, n.field = none ∧ n.kind = .importAttribute := by
  obtain ⟨p, heq, hcases⟩ := g.importAttribute_eq
  rw [heq, look] at h
  rcases hcases s with hp | ⟨-, hp⟩
  · rw [hp] at h
    cases h
    simp
  · rw [hp] at h
    obtain ⟨ms, -, rfl⟩ := node_eq_ok h
    simp [Node.field, Node.kind]

theorem semicolon_cases {b : Border} (h : semicolon b s = .ok ns s') :
    ns = [] ∧ (s.tok = .punct .semi → s' = s.advance) := by
  unfold semicolon at h
  split at h
  · cases h
    exact ⟨rfl, fun _ => rfl⟩
  · next hsemi =>
      split at h
      · cases h
        exact ⟨rfl, fun htok => absurd htok (by simpa using hsemi)⟩
      · cases h

/-- How an import without attributes is read. -/
theorem importStatement_eq_ok {s₁ s₂ : State} {ms : List Node} (htok : s.tok = .word .kImport)
    (hbody : look g.importBody s.advance = .ok ms s₁) (hnothing : g.importAttribute s₁ = .ok [] s₁)
    (hend : semicolon .bare s₁ = .ok [] s₂) :
    g.importStatement s = .ok [.mk .importStatement none s.start s₂.prevStop ms] s₂ := by
  simp [importStatement, node, all, andThen, word, Parser.token, htok, hbody, hnothing, hend]

/-- **What is read as an import** from a module starts with the phrase of one, and its node shows it. A
semicolon behind the phrase ends the statement. -/
theorem passes_importStatement (hs : s.Sound t) (h : g.importStatement s = .ok ns s') :
    ∃ n, ns = [n] ∧ n.kind = .importStatement ∧ n.start = s.start ∧ n.stop = s'.prevStop ∧
      ((StartsEquals s.advance ∧ n.child? .source = none) ∨
        ∃ (p : ImportPhrase) (ms : List Node) (s₁ : State), p.Formed ∧
        Passes t s p.lexemes s₁ ∧ look g.importBody s.advance = .ok ms s₁ ∧
        (s₁.tok = .punct .semi → s' = s₁.advance) ∧
        ∀ root, ∃ d, (SourceFile.mk t root).importDecl? n = some d ∧ d.node = n ∧
          d.source.stop = s₁.prevStop ∧ d.view = p.view s.prevStop) := by
  obtain ⟨ms, hread, rfl⟩ := node_eq_ok h
  refine ⟨_, rfl, rfl, rfl, rfl, ?_⟩
  obtain ⟨ns₁, s₁, ns₂, himport, hrest, rfl⟩ := andThen_eq_ok hread
  obtain ⟨htok, rfl, rfl⟩ := token_cases himport
  obtain ⟨l, hl, hpass₁⟩ := hs.exists_lexeme (by simp [htok])
  obtain ⟨ns₃, s₂, ns₄, hbody, hend, rfl⟩ := andThen_eq_ok hrest
  obtain ⟨ns₅, s₃, ns₆, hattribute, hclosing, rfl⟩ := andThen_eq_ok hend
  obtain ⟨rfl, hadvance⟩ := semicolon_cases hclosing
  have hattributes := kind_importAttribute hattribute
  rw [List.nil_append, List.append_nil]
  rcases passes_importBody hpass₁.sound hbody with ⟨hequals, hfields⟩ | ⟨x, hx, hpass₂, hshown⟩
  · refine Or.inl ⟨hequals, ?_⟩
    rw [Node.child?, Node.children, List.find?_eq_none]
    intro n hn
    rcases List.mem_append.mp hn with hn | hn
    · simp [hfields n hn]
    · simp [(hattributes n hn).1]
  · right
    refine ⟨⟨l, x⟩, ns₃, s₂, ⟨hl.trans htok, hx⟩, hpass₁.trans hpass₂, hbody, ?_, ?_⟩
    · intro hsemi
      have hnothing : g.importAttribute s₂ = .ok [] s₂ := by
        simp only [importAttribute, look, hsemi]
        rfl
      rw [hnothing] at hattribute
      cases hattribute
      exact hadvance hsemi
    · intro root
      have hprev : s.advance.prevStop = s.prevStop + Text.size l.text := by
        simp [hpass₁.prev]
      obtain ⟨d, hd, hnode, hstop, hview⟩ := hshown.exists_decl hattributes root
      exact ⟨d, hd, hnode, hstop, by rw [hview, hprev]; rfl⟩

end Grammar

end Promisify
