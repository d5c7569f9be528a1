import Promisify.Proofs.ImportViews
import Promisify.Proofs.NameEdits

set_option autoImplicit false

/-! # Edits of imports

An import with names in braces is taken apart around the braces. Other braces in their place make
another import, and so does leaving them out when a name for the default stays. Every edit of an import
is one of the two, a deletion of all of it apart; and the import that is put into a file is one that can
be read anywhere too.
-/

namespace Promisify

open Lexer Lexeme

/-! ## An import around its braces -/

/-- An import with names in braces: what stands in front of the braces, the braces and the module. -/
structure BracedImport where
  opening : Lexeme
  mark : Option Lexeme
  /-- A name for the default, with its comma. -/
  other : Option (Lexeme × Lexeme)
  braces : Braces
  word : Lexeme
  source : Lexeme

/-- Nothing runs on from a closing brace. -/
theorem Braces.Formed.clear_last {b : Braces} (h : b.Formed) :
    ∀ l ∈ b.lexemes.getLast?, ∀ v, l.token.Clear v := by
  intro l hl v
  have hlast : b.lexemes.getLast? = some b.closing := by
    rw [lexemes, List.getLast?_cons, List.getLast?_append]
    rfl
  rw [hlast] at hl
  cases hl
  rw [h.closing]
  trivial

namespace BracedImport

variable {x : BracedImport}

def binding (x : BracedImport) : ImportBinding :=
  match x.other with
  | none => .group (.named x.braces)
  | some (name, comma) => .both name comma (.named x.braces)

/-- The whole import. -/
def phrase (x : BracedImport) : ImportPhrase := ⟨x.opening, .bound x.mark x.binding x.word x.source⟩

/-- The lexemes in front of what is bound. -/
def head (x : BracedImport) : List Lexeme := x.opening :: x.mark.toList

/-- The lexemes in front of the braces. -/
def front (x : BracedImport) : List Lexeme :=
  x.head ++ (x.other.map fun o => [o.1, o.2]).getD []

/-- The offset of the braces in an import at the offset `pos`. -/
def place (pos : Nat) (x : BracedImport) : Nat := pos + Text.size (join x.front)

theorem lexemes_phrase (x : BracedImport) :
    x.phrase.lexemes = x.front ++ (x.braces.lexemes ++ [x.word, x.source]) := by
  obtain ⟨opening, mark, other, braces, word, source⟩ := x
  cases other with
  | none => simp [phrase, binding, front, head, ImportPhrase.lexemes, ImportBody.lexemes,
      ImportBinding.lexemes, ImportGroup.lexemes]
  | some o => simp [phrase, binding, front, head, ImportPhrase.lexemes, ImportBody.lexemes,
      ImportBinding.lexemes, ImportGroup.lexemes]

theorem join_lexemes_phrase (x : BracedImport) : join x.phrase.lexemes =
    join x.front ++ (join x.braces.lexemes ++ join [x.word, x.source]) := by
  rw [lexemes_phrase, join_append, join_append]

theorem view_phrase (pos : Nat) (x : BracedImport) : x.phrase.view pos =
    ⟨x.source.body.withoutQuotes, x.mark.any fun a => a.token == .word .kType,
      some ⟨spanOf (x.place pos) x.braces.lexemes, x.braces.views (x.place pos),
        x.other.map fun o => pos + Text.size (join x.head) + Text.size o.1.text⟩⟩ := by
  obtain ⟨opening, mark, other, braces, word, source⟩ := x
  cases other with
  | none =>
      simp [phrase, binding, place, front, head, ImportPhrase.view, ImportBody.view, ImportBody.source,
        ImportBody.typeOnly, ImportBody.braces, ImportBinding.view, ImportGroup.view, Nat.add_assoc]
  | some o =>
      simp [phrase, binding, place, front, head, ImportPhrase.view, ImportBody.view, ImportBody.source,
        ImportBody.typeOnly, ImportBody.braces, ImportBinding.view, ImportGroup.view, Nat.add_assoc]

/-- An import that shows braces is one around braces. -/
theorem exists_phrase_eq {p : ImportPhrase} {pos : Nat} {b : BracesView}
    (h : (p.view pos).braces = some b) : ∃ x : BracedImport, x.phrase = p := by
  obtain ⟨opening, body⟩ := p
  cases body with
  | bare source => cases h
  | bound mark binding word source =>
      cases binding with
      | only name => cases h
      | group g =>
          cases g with
          | whole => cases h
          | named b => exact ⟨⟨opening, mark, none, b, word, source⟩, rfl⟩
      | both name comma g =>
          cases g with
          | whole => cases h
          | named b => exact ⟨⟨opening, mark, some (name, comma), b, word, source⟩, rfl⟩

/-- The tokens of the import, part by part. -/
theorem formed_phrase (h : x.phrase.Formed) :
    x.opening.token = .word .kImport ∧ (∀ a ∈ x.mark, x.binding.Follows a) ∧ x.binding.Formed ∧
      x.braces.Formed ∧ x.word.token = .word .kFrom ∧ x.source.token = .string := by
  obtain ⟨hopening, hbody⟩ := h
  obtain ⟨opening, mark, other, braces, word, source⟩ := x
  cases hbody with
  | bound hmark hb hword hsource =>
      refine ⟨hopening, hmark, hb, ?_, hword, hsource⟩
      cases other with
      | none =>
          cases hb with
          | group hg =>
              cases hg with
              | named hb => exact hb
      | some o =>
          cases hb with
          | both _ _ hg =>
              cases hg with
              | named hb => exact hb

theorem sound_braces (hx : x.phrase.Sound) : x.braces.Sound := by
  have hstrung := hx.strung
  rw [lexemes_phrase, strung_append, strung_append] at hstrung
  exact Braces.sound_of_strung hstrung.2.1.1

/-- **Other braces in place of the braces make an import.** -/
theorem sound_withBraces (h : x.phrase.Sound) {b : Braces} (hform : b.Formed) (hsound : b.Sound)
    (hopening : b.opening = x.braces.opening) : { x with braces := b }.phrase.Sound := by
  obtain ⟨hopen, hmark, hbinding, hbraces, hword, hsource⟩ := formed_phrase h.formed
  refine ⟨⟨hopen, .bound ?_ ?_ hword hsource⟩, ?_, h.lead⟩
  · intro a ha
    rcases hmark a ha with ⟨htype, hdefault⟩ | ⟨htypeof, hhead⟩
    · refine Or.inl ⟨htype, ?_⟩
      intro name comma g heq
      obtain ⟨opening, mark, other, braces, word, source⟩ := x
      cases other with
      | none => cases heq
      | some o =>
          cases heq
          exact hdefault _ _ _ rfl
    · refine Or.inr ⟨htypeof, ?_⟩
      obtain ⟨opening, mark, other, braces, word, source⟩ := x
      cases other with
      | none => exact Or.inl hform.opening
      | some o => exact hhead
  · obtain ⟨opening, mark, other, braces, word, source⟩ := x
    cases other with
    | none => exact .group (.named hform)
    | some o =>
        cases hbinding with
        | both hname hcomma _ => exact .both hname hcomma (.named hform)
  · have hstrung := h.strung
    rw [lexemes_phrase, strung_append, strung_append] at hstrung
    obtain ⟨hfront, ⟨-, hend, -⟩, hlink⟩ := hstrung
    rw [lexemes_phrase]
    refine strung_append.mpr ⟨hfront, strung_append.mpr ⟨hsound.strung hform, hend, ?_⟩, ?_⟩
    · exact fun l hl m _ => hform.clear_last l hl _
    · intro l hl m hm
      refine hlink l hl m ?_
      simpa [Braces.lexemes, hopening] using hm

/-- The import without the braces and the comma in front of them. -/
def bare (x : BracedImport) (name : Lexeme) : ImportPhrase :=
  ⟨x.opening, .bound x.mark (.only name) x.word x.source⟩

/-- **Leaving the braces out makes an import** when a name for the default stays and the word behind the
braces stands apart from them. -/
theorem sound_bare (h : x.phrase.Sound) {name comma : Lexeme} (hother : x.other = some (name, comma))
    (hlead : x.word.lead ≠ []) : (x.bare name).Sound := by
  obtain ⟨hopen, hmark, hbinding, -, hword, hsource⟩ := formed_phrase h.formed
  have hstrung := h.strung
  rw [lexemes_phrase, front, hother, strung_append, strung_append, strung_append] at hstrung
  obtain ⟨⟨hhead, hname, hlink⟩, ⟨-, hend, -⟩, -⟩ := hstrung
  obtain ⟨opening, mark, other, braces, word, source⟩ := x
  cases hother
  refine ⟨⟨hopen, .bound ?_ ?_ hword hsource⟩, ?_, h.lead⟩
  · intro a ha
    rcases hmark a ha with ⟨htype, -⟩ | ⟨htypeof, hname⟩
    · refine Or.inl ⟨htype, ?_⟩
      intro name comma g heq
      cases heq
    · exact Or.inr ⟨htypeof, hname⟩
  · cases hbinding with
    | both hname _ _ => exact .only hname
  · have heq : (bare ⟨opening, mark, some (name, comma), braces, word, source⟩ name).lexemes =
        (opening :: mark.toList) ++ (name :: [word, source]) := rfl
    have hclear : name.token.Clear word.text := (hend.sound word (by simp)).clear (Or.inl hlead) _
    rw [heq]
    refine strung_append.mpr ⟨hhead, strung_cons.mpr ⟨hname.sound name (by simp), hend, ?_⟩, ?_⟩
    · rintro m ⟨⟩
      exact hclear
    · intro l hl m hm
      exact hlink l hl m hm

theorem join_lexemes_bare (x : BracedImport) (name : Lexeme) :
    join (x.bare name).lexemes = join x.head ++ name.text ++ join [x.word, x.source] := by
  simp [bare, head, ImportPhrase.lexemes, ImportBody.lexemes, ImportBinding.lexemes]

/-- Edits of the braces are edits of the import. -/
theorem patched_withBraces {pos : Nat} {b : Braces} {es : List Edit}
    (h : Patched (x.place pos) (join x.braces.lexemes) es (join b.lexemes)) :
    Patched pos (join x.phrase.lexemes) es (join { x with braces := b }.phrase.lexemes) := by
  rw [join_lexemes_phrase, join_lexemes_phrase]
  exact Patched.prepend _ (h.followed _)

/-- The deletion of the braces with the comma in front of them. -/
theorem patched_bare {pos : Nat} {name comma : Lexeme} (hother : x.other = some (name, comma)) :
    Patched pos (join x.phrase.lexemes) [.deletion ⟨pos + Text.size (join x.head) + Text.size name.text,
      (spanOf (x.place pos) x.braces.lexemes).stop⟩] (join (x.bare name).lexemes) := by
  have hfront : join x.front = join x.head ++ name.text ++ comma.text := by
    simp [front, hother]
  have hbefore : join x.phrase.lexemes = (join x.head ++ name.text) ++
      ((comma.text ++ join x.braces.lexemes) ++ join [x.word, x.source]) := by
    rw [join_lexemes_phrase, hfront]
    simp
  rw [hbefore, join_lexemes_bare]
  refine Patched.single (join x.head ++ name.text) _ _ _ ?_
  simp only [Edit.deletion, place, spanOf, hfront, Text.size_append, Nat.add_assoc]

end BracedImport

/-! ## Names that an import binds -/

/-- The names in braces, in the module and in the file. -/
def ImportView.pairs (v : ImportView) : List (Text × Text) :=
  (v.braces.map fun b => b.names.map NameView.pair).getD []

theorem ImportView.pairs_shift (k : Nat) (v : ImportView) : (v.shift k).pairs = v.pairs := by
  obtain ⟨moduleName, typeOnly, braces⟩ := v
  cases braces with
  | none => rfl
  | some b => simp [pairs, shift, BracesView.shift, NameView.shift]

/-- The import binds the name `x` of the module of the helpers as `y`, for types only or not. -/
structure ImportView.Binds (v : ImportView) (x y : Text) (typeOnly : Bool) : Prop where
  moduleName : v.moduleName = Vocabulary.streams
  typeOnly : v.typeOnly = typeOnly
  pair : (x, y) ∈ v.pairs

/-- The names in braces do not depend on where an import stands, and neither does the module. -/
theorem ImportPhrase.pairs_view (p : ImportPhrase) (k : Nat) :
    (p.view k).moduleName = (p.view 0).moduleName ∧ (p.view k).pairs = (p.view 0).pairs := by
  have hview : p.view k = (p.view 0).shift k := by rw [view_shift, Nat.add_zero]
  rw [hview, ImportView.pairs_shift]
  exact ⟨rfl, rfl⟩

/-- What an import binds does not depend on where it stands. -/
theorem ImportPhrase.binds_iff (p : ImportPhrase) (k : Nat) {x y : Text} {b : Bool} :
    (p.view k).Binds x y b ↔ (p.view 0).Binds x y b := by
  have hpairs := (p.pairs_view k).2
  constructor
  · rintro ⟨hmodule, htype, hpair⟩
    exact ⟨hmodule, htype, by rw [← hpairs]; exact hpair⟩
  · rintro ⟨hmodule, htype, hpair⟩
    exact ⟨hmodule, htype, by rw [hpairs]; exact hpair⟩

theorem BracedImport.pairs_phrase (pos : Nat) (x : BracedImport) :
    (x.phrase.view pos).pairs = x.braces.pairs := by
  rw [view_phrase, ← x.braces.map_pair_views (x.place pos)]
  rfl

/-! ## The edits of an import -/

namespace SourceFile

variable {f : SourceFile} {d : ImportDecl} {p : ImportPhrase} {pos : Nat} {b : Node} {es : List Edit}

/-- What an import shows that is written around braces. -/
theorem view_braced {x : BracedImport} (hview : d.view = x.phrase.view pos) :
    ∃ b, d.named = some b ∧ b.span = spanOf (x.place pos) x.braces.lexemes ∧
      d.names.map ImportedName.view = x.braces.views (x.place pos) ∧
      d.otherBinding.map Node.stop =
        x.other.map fun o => pos + Text.size (join x.head) + Text.size o.1.text := by
  rw [BracedImport.view_phrase] at hview
  obtain ⟨b, hb, hbraces⟩ := Option.map_eq_some_iff.mp (congrArg ImportView.braces hview)
  rw [BracesView.mk.injEq] at hbraces
  exact ⟨b, hb, hbraces⟩

/-- An import with braces is written around them. -/
theorem exists_braced (hview : d.view = p.view pos) (hb : d.named = some b) :
    ∃ x : BracedImport, x.phrase = p ∧ b.span = spanOf (x.place pos) x.braces.lexemes ∧
      d.names.map ImportedName.view = x.braces.views (x.place pos) ∧
      d.otherBinding.map Node.stop =
        x.other.map fun o => pos + Text.size (join x.head) + Text.size o.1.text := by
  have hbraces : (p.view pos).braces =
      some ⟨b.span, d.names.map ImportedName.view, d.otherBinding.map Node.stop⟩ := by
    rw [← hview, ImportDecl.view, hb]
    rfl
  obtain ⟨x, rfl⟩ := BracedImport.exists_phrase_eq hbraces
  obtain ⟨b', hb', hshown⟩ := view_braced hview
  cases hb.symm.trans hb'
  exact ⟨x, rfl, hshown⟩

theorem pairs_eq_map {x : BracedImport} (h : d.names.map ImportedName.view = x.braces.views (x.place pos)) :
    x.braces.pairs = d.names.map fun y => (y.imported, y.localName) := by
  rw [← x.braces.map_pair_views (x.place pos), ← h, List.map_map]
  rfl

/-- The names that an import shows are its names. -/
theorem ImportAt.pairs_view {n : Node} (h : f.ImportAt n d) :
    d.view.pairs = d.names.map fun y => (y.imported, y.localName) := by
  unfold ImportDecl.view ImportView.pairs
  cases hb : d.named with
  | none =>
      rw [h.names, hb]
      rfl
  | some b =>
      rw [Option.map_some, Option.map_some, Option.getD_some, List.map_map]
      rfl

/-- **Pruning an import makes an import or deletes all of it.** No unused name is left. Where only a name
for the default is left, the word behind the braces has to stand apart from them. -/
theorem patched_prune {unused : List Text} {n : Node} (hat : f.ImportAt n d) (hp : p.Sound)
    (hview : d.view = p.view pos) (hcase : PruneCase f unused d es)
    (hspaced : ∀ x : BracedImport, x.phrase = p → x.other ≠ none → x.word.lead ≠ []) :
    (∃ p' : ImportPhrase, p'.Sound ∧ Patched pos (join p.lexemes) es (join p'.lexemes) ∧
      ∀ q ∈ (p'.view 0).pairs, unused.contains q.1 = false) ∨
      es = [.deletion ⟨d.node.start, f.pastLineBreak d.node.stop⟩] := by
  cases hcase with
  | untouched hnone =>
      refine Or.inl ⟨p, hp, .done pos _, ?_⟩
      intro q hq
      rw [← (p.pairs_view pos).2, ← hview, hat.pairs_view] at hq
      obtain ⟨y, hy, rfl⟩ := List.mem_map.mp hq
      simpa using List.filter_eq_nil_iff.mp hnone y hy
  | names hsome hkept =>
      obtain ⟨y, hy, hstays⟩ := hkept
      obtain ⟨b, hb, -⟩ := hat.exists_braces hy
      obtain ⟨x, rfl, -, hnames, -⟩ := exists_braced hview hb
      have hpair : (y.imported, y.localName) ∈ x.braces.pairs := by
        rw [pairs_eq_map hnames]
        exact List.mem_map.mpr ⟨y, hy, rfl⟩
      obtain ⟨b', hform', hsound', hopening, hstay, hpatched⟩ := Braces.exists_cut
        (fun q => unused.contains q.1) (x.place pos)
        (BracedImport.formed_phrase hp.formed).2.2.2.1 (BracedImport.sound_braces hp) ⟨_, hpair, hstays⟩
      refine Or.inl ⟨_, BracedImport.sound_withBraces hp hform' hsound' hopening, ?_, ?_⟩
      · rw [cutNames_eq]
        rw [← hnames, List.map_map] at hpatched
        exact BracedImport.patched_withBraces hpatched
      · intro q hq
        rw [BracedImport.pairs_phrase] at hq
        exact hstay q hq
  | @braces b o _ hall hb ho =>
      obtain ⟨x, rfl, hspan, -, hother⟩ := exists_braced hview hb
      rw [ho, Option.map_some] at hother
      obtain ⟨⟨name, comma⟩, hx, hstop⟩ := Option.map_eq_some_iff.mp hother.symm
      refine Or.inl ⟨x.bare name, BracedImport.sound_bare hp hx (hspaced x rfl (by simp [hx])), ?_,
        fun q hq => by cases hq⟩
      have hdel : (⟨o.stop, b.stop⟩ : Span) = ⟨pos + Text.size (join x.head) + Text.size name.text,
          (spanOf (x.place pos) x.braces.lexemes).stop⟩ := by
        rw [← hstop, ← hspan]
        rfl
      rw [hdel]
      exact BracedImport.patched_bare hx
  | all => exact Or.inr rfl

/-- **Adding names to an import makes an import** of the same kind from the same module, which binds the
names it bound and the names that are added. -/
theorem patched_extension {y : Text} {names : List Text} (hp : p.Sound) (hview : d.view = p.view pos)
    (hb : d.named = some b) (hnames : ∀ z ∈ y :: names, IsWord z) :
    ∃ p' : ImportPhrase, p'.Sound ∧
      Patched pos (join p.lexemes) [extension d b (y :: names)] (join p'.lexemes) ∧
      ∀ k, (p'.view k).moduleName = d.moduleName ∧ (p'.view k).typeOnly = d.typeOnly ∧
        (p'.view k).pairs = d.view.pairs ++ (y :: names).map fun z => (z, z) := by
  obtain ⟨x, rfl, hspan, hviews, -⟩ := exists_braced hview hb
  have hform := (BracedImport.formed_phrase hp.formed).2.2.2.1
  have hsound := BracedImport.sound_braces hp
  have hkind : d.moduleName = x.source.body.withoutQuotes ∧
      d.typeOnly = x.mark.any fun a => a.token == .word .kType := by
    rw [BracedImport.view_phrase] at hview
    exact ⟨congrArg ImportView.moduleName hview, congrArg ImportView.typeOnly hview⟩
  have hpairs : d.view.pairs = x.braces.pairs := by rw [hview, BracedImport.pairs_phrase]
  -- the braces with the names added
  obtain ⟨b', hform', hsound', hopening, hbound, hpatched⟩ : ∃ b' : Braces, b'.Formed ∧ b'.Sound ∧
      b'.opening = x.braces.opening ∧ b'.pairs = x.braces.pairs ++ (y :: names).map (fun z => (z, z)) ∧
      Patched (x.place pos) (join x.braces.lexemes) [extension d b (y :: names)] (join b'.lexemes) := by
    unfold extension
    cases hlast : d.names.getLast? with
    | some last =>
        have hlast' : (x.braces.views (x.place pos)).getLast? = some last.view := by
          rw [← hviews, List.getLast?_map, hlast]
          rfl
        exact Braces.exists_extended hform hsound hlast' hnames
    | none =>
        rw [List.getLast?_eq_none_iff] at hlast
        obtain ⟨b', hform', hsound', hopening, hbound, hpatched⟩ :=
          Braces.exists_filled (x.place pos) hform hsound hnames
        refine ⟨b', hform', hsound', hopening, ?_, ?_⟩
        · rw [hbound, pairs_eq_map hviews, hlast]
          rfl
        · rw [hspan]
          exact hpatched
  refine ⟨_, BracedImport.sound_withBraces hp hform' hsound' hopening,
    BracedImport.patched_withBraces hpatched, ?_⟩
  intro k
  rw [BracedImport.pairs_phrase, BracedImport.view_phrase]
  exact ⟨hkind.1.symm, hkind.2.symm, hbound.trans (by rw [hpairs])⟩

end SourceFile

/-! ## A new import -/

/-- A new import of names from the module `moduleName` in the quotes of a layout. -/
def ImportLayout.braced (s : ImportLayout) (moduleName y : Text) (names : List Text) : BracedImport where
  opening := ⟨[], .word .kImport, "import".toList⟩
  mark := none
  other := none
  braces := ⟨⟨[' '], .punct .lbrace, ['\x7b']⟩, some (.fresh y names), ⟨[' '], .punct .rbrace, ['\x7d']⟩⟩
  word := ⟨[' '], .word .kFrom, "from".toList⟩
  source := ⟨[' '], .string, s.quote :: (moduleName ++ [s.quote])⟩

/-- What is put into a file is an import, a semicolon if the file has them, and a line break. -/
theorem ImportLayout.statement_eq (s : ImportLayout) (moduleName y : Text) (names : List Text) :
    s.statement moduleName (y :: names) = join (s.braced moduleName y names).phrase.lexemes ++
      ((if s.semicolon then [';'] else []) ++ s.lineBreak) := by
  have hfresh := NameList.join_fresh y names
  have hbraces : join (s.braced moduleName y names).braces.lexemes =
      " \x7b ".toList ++ Text.join ", ".toList (y :: names) ++ " \x7d".toList := by
    simp only [braced, Braces.lexemes, Braces.inner, Option.map_some, Option.getD_some, join_cons,
      join_append, join_nil, hfresh]
    simp [text]
  have hfront : join (s.braced moduleName y names).front = "import".toList := by
    simp [BracedImport.front, BracedImport.head, braced, text]
  have hend : join [(s.braced moduleName y names).word, (s.braced moduleName y names).source] =
      " from ".toList ++ s.quote :: (moduleName ++ [s.quote]) := by
    simp [braced, text]
  have hopening : "import \x7b ".toList = "import".toList ++ " \x7b ".toList := by decide
  have hclosing : " \x7d from ".toList = " \x7d".toList ++ " from ".toList := by decide
  rw [BracedImport.join_lexemes_phrase, hbraces, hfront, hend]
  unfold statement
  rw [hopening, hclosing]
  simp only [List.append_assoc, List.cons_append, List.nil_append]

/-- **A new import of helpers can be read anywhere**, and binds every name as it is. -/
theorem SourceFile.sound_importLayout (f : SourceFile) {y : Text} {names : List Text}
    (hnames : ∀ z ∈ y :: names, IsWord z) :
    (f.importLayout.braced Vocabulary.streams y names).phrase.Sound ∧
      ∀ k, ((f.importLayout.braced Vocabulary.streams y names).phrase.view k).moduleName =
          Vocabulary.streams ∧
        ((f.importLayout.braced Vocabulary.streams y names).phrase.view k).typeOnly = false ∧
        ((f.importLayout.braced Vocabulary.streams y names).phrase.view k).pairs =
          (y :: names).map fun z => (z, z) := by
  have hsource : (Token.string).Stands (f.importLayout.quote :: (Vocabulary.streams ++
      [f.importLayout.quote])) ∧ Text.withoutQuotes (f.importLayout.quote :: (Vocabulary.streams ++
      [f.importLayout.quote])) = Vocabulary.streams := by
    rcases f.importLayout_quote with hq | hq
    · rw [hq]
      exact ⟨stands_of_scan (v := []) rfl rfl, by decide⟩
    · rw [hq]
      exact ⟨stands_of_scan (v := []) rfl rfl, by decide⟩
  have himport : (Token.word .kImport).Stands "import".toList :=
    stands_word (y := "import".toList) (by decide)
  have hfrom : (Token.word .kFrom).Stands "from".toList := stands_word (y := "from".toList) (by decide)
  have hform : (f.importLayout.braced Vocabulary.streams y names).braces.Formed := by
    refine ⟨rfl, ?_, rfl⟩
    rintro n ⟨⟩
    exact NameList.formed_fresh y names
  have hsound : (f.importLayout.braced Vocabulary.streams y names).braces.Sound := by
    refine ⟨⟨filler_blank, stands_single (by simp)⟩, ?_, ⟨filler_blank, stands_single (by simp)⟩⟩
    rintro n ⟨⟩
    exact NameList.sound_fresh hnames
  constructor
  · refine ⟨⟨rfl, .bound ?_ (.group (.named hform)) rfl rfl⟩, ?_, rfl⟩
    · rintro a ⟨⟩
    · have hsound' : ∀ l ∈ [(f.importLayout.braced Vocabulary.streams y names).word,
          (f.importLayout.braced Vocabulary.streams y names).source], l.Sound ∧ l.lead ≠ [] := by
        intro l hl
        rcases List.mem_pair.mp hl with rfl | rfl
        · exact ⟨⟨filler_blank, hfrom⟩, by simp [ImportLayout.braced]⟩
        · exact ⟨⟨filler_blank, hsource.1⟩, by simp [ImportLayout.braced]⟩
      have hfront : Strung (f.importLayout.braced Vocabulary.streams y names).front :=
        strung_cons.mpr ⟨⟨.nil, himport⟩, strung_nil, by rintro m ⟨⟩⟩
      have hend : Strung [(f.importLayout.braced Vocabulary.streams y names).word,
          (f.importLayout.braced Vocabulary.streams y names).source] := by
        refine strung_cons.mpr ⟨(hsound' _ (by simp)).1,
          strung_cons.mpr ⟨(hsound' _ (by simp)).1, strung_nil, by simp⟩, ?_⟩
        rintro m ⟨⟩
        exact (hsound' _ (by simp)).1.clear (Or.inl (hsound' _ (by simp)).2) _
      rw [BracedImport.lexemes_phrase]
      refine strung_append.mpr ⟨hfront, strung_append.mpr ⟨hsound.strung hform, hend,
        fun l hl m _ => hform.clear_last l hl _⟩, ?_⟩
      rintro l - m ⟨⟩
      exact hsound.opening.clear (Or.inl (by simp [ImportLayout.braced])) _
  · intro k
    rw [BracedImport.pairs_phrase, BracedImport.view_phrase]
    exact ⟨hsource.2, rfl, NameList.pairs_fresh hnames⟩

end Promisify
