import Promisify.Proofs.Migrations
import Promisify.Proofs.Prefaces
import Promisify.Proofs.StatementEdits

set_option autoImplicit false

/-! # Imports that are made to fit

A file that starts with its imports is changed one import at a time when its imports are made to fit. So
what comes of it is a program again, with the same statements besides. Each of these imports is closed
by a semicolon, or it ends with its line and the lines behind the imports resume. In other places neither
holds: a statement in front of a deleted import can run on into the one behind it.
-/

namespace Promisify

open Lexer Lexeme

variable {d : Dialect} {t v w : Text}

/-! ## Files that start with their imports -/

/-- The text from an offset on. -/
def Text.restAt? (t : Text) (k : Nat) : Option Text := (t.splitAt? k).map Prod.snd

/-- The character at an offset. -/
def Text.charAt? (t : Text) (k : Nat) : Option Char := (t.restAt? k).bind List.head?

theorem Text.From.restAt?_eq {k : Nat} (h : t.From k v) : t.restAt? k = some v := by
  obtain ⟨u, rfl, rfl⟩ := h
  rw [Text.restAt?, Text.splitAt?_append]
  rfl

theorem Text.From.charAt?_eq {k : Nat} (h : t.From k v) : t.charAt? k = v.head? := by
  rw [Text.charAt?, h.restAt?_eq]
  rfl

namespace SourceFile

/-- Whether an import ends right behind its module: with a semicolon or, if lines count, with its line in
front of one that resumes. -/
def endsAtModule (f : SourceFile) (lined : Bool) (d : ImportDecl) : Bool :=
  f.text.charAt? d.source.stop == some ';' ||
    (lined && (f.text.restAt? d.source.stop).any fun v => lineIsOver v && resumes v)

/-- Whether a node is an import that ends right behind its module. -/
def isFrontImport (f : SourceFile) (lined : Bool) (n : Node) : Bool :=
  (f.importDecl? n).any (f.endsAtModule lined)

/-- The imports from the two modules come first in the file, and each ends right behind its module. A new
one gets a semicolon, or lines count; then the text resumes behind each import in front. Where one of
operators binds a name for the default, no name stands right behind its braces. -/
structure Fronted (f : SourceFile) (lined : Bool) : Prop where
  front : ∀ n ∈ f.statements.dropWhile (f.isFrontImport lined), ∀ d ∈ f.importDecl? n,
    d.moduleName ≠ Vocabulary.streams ∧ d.moduleName ≠ Vocabulary.operators
  semicolon : f.importLayout.semicolon = true ∨ lined = true
  lines : lined = true → ∀ n ∈ f.statements.takeWhile (f.isFrontImport lined),
    ∀ v ∈ f.text.restAt? n.stop, resumes v = true
  next : lined = true → ∀ n ∈ (f.statements.dropWhile (f.isFrontImport lined)).head?,
    ∀ v ∈ f.text.restAt? n.start, resumes v = true
  spaced : ∀ d ∈ f.importsFrom Vocabulary.operators, ∀ _ ∈ d.otherBinding, ∀ b ∈ d.named,
    ∀ c ∈ f.text.charAt? b.stop, isNamePart c = false
  nonempty : f.statements ≠ []

/-- Whether a file starts with its imports. -/
def isFronted (f : SourceFile) (lined : Bool) : Bool :=
  ((f.statements.dropWhile (f.isFrontImport lined)).all fun n => (f.importDecl? n).all fun d =>
      d.moduleName != Vocabulary.streams && d.moduleName != Vocabulary.operators) &&
    (f.importLayout.semicolon || lined) &&
    (!lined || (f.statements.takeWhile (f.isFrontImport lined)).all fun n =>
      (f.text.restAt? n.stop).all resumes) &&
    (!lined || (f.statements.dropWhile (f.isFrontImport lined)).head?.all fun n =>
      (f.text.restAt? n.start).all resumes) &&
    ((f.importsFrom Vocabulary.operators).all fun d => d.otherBinding.all fun _ => d.named.all fun b =>
      (f.text.charAt? b.stop).all fun c => !isNamePart c) &&
    !f.statements.isEmpty

theorem isFronted_iff {f : SourceFile} {lined : Bool} : f.isFronted lined = true ↔ f.Fronted lined := by
  have hlines : ∀ b : Bool, ((!lined || b) = true ↔ (lined = true → b = true)) := by
    intro b
    cases lined <;> simp
  have hfields : f.Fronted lined ↔
      (∀ n ∈ f.statements.dropWhile (f.isFrontImport lined), ∀ d ∈ f.importDecl? n,
        d.moduleName ≠ Vocabulary.streams ∧ d.moduleName ≠ Vocabulary.operators) ∧
      (f.importLayout.semicolon = true ∨ lined = true) ∧
      (lined = true → ∀ n ∈ f.statements.takeWhile (f.isFrontImport lined),
        ∀ v ∈ f.text.restAt? n.stop, resumes v = true) ∧
      (lined = true → ∀ n ∈ (f.statements.dropWhile (f.isFrontImport lined)).head?,
        ∀ v ∈ f.text.restAt? n.start, resumes v = true) ∧
      (∀ d ∈ f.importsFrom Vocabulary.operators, ∀ _ ∈ d.otherBinding, ∀ b ∈ d.named,
        ∀ c ∈ f.text.charAt? b.stop, isNamePart c = false) ∧
      f.statements ≠ [] :=
    ⟨fun ⟨h₁, h₂, h₃, h₄, h₅, h₆⟩ => ⟨h₁, h₂, h₃, h₄, h₅, h₆⟩,
      fun ⟨h₁, h₂, h₃, h₄, h₅, h₆⟩ => ⟨h₁, h₂, h₃, h₄, h₅, h₆⟩⟩
  rw [hfields]
  simp only [isFronted, Bool.and_eq_true, hlines]
  simp [Option.all_eq_true, and_assoc]

/-- The file starts with its imports: with their semicolons, or line by line. -/
def Prefaced (f : SourceFile) : Prop := ∃ lined, f.Fronted lined

instance (f : SourceFile) : Decidable f.Prefaced :=
  decidable_of_iff (f.isFronted false = true ∨ f.isFronted true = true) (by
    rw [isFronted_iff, isFronted_iff, Prefaced, Bool.exists_bool])

theorem Prefaced.nonempty {f : SourceFile} (hf : f.Prefaced) : f.statements ≠ [] := by
  obtain ⟨lined, hfront⟩ := hf
  exact hfront.nonempty

/-! ### An import in front -/

variable {f : SourceFile} {lined : Bool} {n : Node} {r : Row} {required : NameSet}

theorem isFrontImport_iff : f.isFrontImport lined n = true ↔
    ∃ e, f.importDecl? n = some e ∧ f.endsAtModule lined e = true := by
  unfold isFrontImport
  cases f.importDecl? n with
  | none => simp
  | some e => simp

/-- The import `e` at a node is written out as `p` up to its end `m`, and `w` is behind it. -/
structure Closed (f : SourceFile) (lined : Bool) (n : Node) (e : ImportDecl) (p : ImportPhrase) (m w : Text) :
    Prop where
  decl : f.importDecl? n = some e
  sound : p.Sound
  view : e.view = p.view n.start
  ends : Ends lined m w
  place : f.text.From n.start (join p.lexemes ++ (m ++ w))
  stop : n.stop = n.start + Text.size (join p.lexemes ++ m)

/-- How the statement of an import ends, as the text behind its module shows. -/
theorem exists_end {p : ImportPhrase} {e : ImportDecl} {u : Text} (hp : p.Sound)
    (hfrom : f.text.From e.source.stop u) (he : f.endsAtModule lined e = true) (d : Dialect) :
    ∃ m w k, u = m ++ w ∧ Ends lined m w ∧ Stated d (join p.lexemes ++ u) k w ∧
      k.stop = Text.size (join p.lexemes ++ m) ∧ k.Callless := by
  rw [endsAtModule, hfrom.charAt?_eq, hfrom.restAt?_eq, Bool.or_eq_true, Bool.and_eq_true,
    beq_iff_eq] at he
  rcases he with hsemi | ⟨hlined, hline⟩
  · obtain ⟨w, rfl⟩ := List.head?_eq_some_iff.mp hsemi
    obtain ⟨k, hk, hstop, hcalls⟩ := hp.stated_closed d w
    exact ⟨[';'], w, k, rfl, .semicolon w, hk, by rw [hstop, Text.size_append]; rfl, hcalls⟩
  · rw [Option.any_some, Bool.and_eq_true] at hline
    obtain ⟨k, hk, hstop, hcalls⟩ := hp.stated_open d hline.1 hline.2
    exact ⟨[], u, k, rfl, .line hlined hline.1, hk, by rw [hstop, List.append_nil], hcalls⟩

theorem exists_closed (hfront : f.isFrontImport lined n = true) (hshow : r.Shows f.text n)
    (hunit : triviaUnit r.text = 0) (hstated : Stated d r.text r.node w) :
    ∃ e p m, r.text = join p.lexemes ++ (m ++ w) ∧ r.Opens p ∧ f.Closed lined n e p m w := by
  obtain ⟨e, he, hends⟩ := isFrontImport_iff.mp hfront
  obtain ⟨p, u, hp, htext⟩ := hshow.exists_phrase hstated hunit he
  obtain ⟨e', he', hview, hstop⟩ := hshow.importDecl? hstated hp htext
  cases he.symm.trans he'
  have hstart := hshow.start_eq hstated hunit
  have hplace := hshow.place
  rw [htext] at hplace
  -- what is behind the module is the end of the statement and what follows it
  have hbehind := hplace.append
  rw [← hstop] at hbehind
  obtain ⟨m, w', k, rfl, hm, hk, hkstop, hcalls⟩ := exists_end hp hbehind hends d
  rw [htext] at hstated
  obtain ⟨hnode, rfl⟩ := hstated.unique hk
  rw [← hstart] at hview hplace
  have hkind := (importDecl?_eq_some he).kind
  rw [hshow.node.kind_eq, Row.placed, Node.kind_shift] at hkind
  refine ⟨e, p, m, htext, ⟨hp, hkind, ⟨m ++ w, htext⟩, by rw [hnode]; exact hcalls⟩,
    he, hp, hview, hm, hplace, ?_⟩
  rw [hshow.node.stop_eq, Row.placed, Node.stop_shift, hnode, hkstop, hstart]

/-- The line break behind an import is skipped in front of what follows. -/
theorem exists_pastLineBreak {k : Nat} (h : f.text.From k w) :
    ∃ x w', w = x ++ w' ∧ (∀ c ∈ x, isBlank c = true) ∧ f.pastLineBreak k = k + Text.size x := by
  obtain ⟨u, hu, hsize⟩ := h
  have hsplit : f.text.splitAt? k = some (u, w) := Text.splitAt?_eq_some_iff.mpr ⟨hu, hsize⟩
  unfold pastLineBreak
  rw [hsplit]
  split
  · next x w' heq =>
      cases heq
      exact ⟨['\r', '\n'], w', rfl, by simp [isBlank], rfl⟩
  · next x w' heq =>
      cases heq
      exact ⟨['\n'], w', rfl, by simp [isBlank], rfl⟩
  · exact ⟨[], w, rfl, by simp, rfl⟩

/-- A word right behind braces continues a name in front of them. -/
theorem lead_ne_nil {x : BracedImport} (hx : x.phrase.Sound) {k : Nat}
    (h : f.text.From k (x.word.text ++ v)) (hspaced : ∀ c ∈ f.text.charAt? k, isNamePart c = false) :
    x.word.lead ≠ [] := by
  intro hlead
  have hsound : x.word.Sound := hx.strung.sound x.word (by rw [BracedImport.lexemes_phrase]; simp)
  have hscan := hsound.body.scan []
  rw [(BracedImport.formed_phrase hx.formed).2.2.2.2.1] at hscan
  have hbody : x.word.body = "from".toList :=
    Word.eq_of_ofText (by decide) (by decide) (name_of_scan (hscan (by rintro c ⟨⟩))).1.symm
  rw [Lexeme.text, hlead, hbody] at h
  have hpart := hspaced 'f' (by rw [h.charAt?_eq]; rfl)
  exact absurd hpart (by decide)

/-! ### What becomes of an import -/

/-- If the import `p` is one of operators, the file uses the names in its braces. -/
def Uses (f : SourceFile) (p : ImportPhrase) : Prop :=
  (p.view 0).moduleName = Vocabulary.operators →
    ∀ q ∈ (p.view 0).pairs, f.unusedOperators.contains q.1 = false

theorem uses_of_ne {p : ImportPhrase} (h : (p.view 0).moduleName ≠ Vocabulary.operators) : f.Uses p :=
  fun hm => absurd hm h

/-- An import of missing names is none of operators. -/
theorem uses_of_missing {p : ImportPhrase} (hne : f.missing required ≠ [])
    (h : ∀ x ∈ f.missing required, (p.view 0).Binds x x false) : f.Uses p := by
  obtain ⟨x, hx⟩ := List.exists_mem_of_ne_nil _ hne
  refine uses_of_ne ?_
  rw [(h x hx).moduleName]
  decide

namespace Closed

variable {e : ImportDecl} {p : ImportPhrase} {m : Text}

/-- The text behind an import. -/
theorem behind (h : f.Closed lined n e p m w) : f.text.From n.stop w := by
  have hplace := h.place
  rw [← List.append_assoc] at hplace
  rw [h.stop]
  exact hplace.append

/-- The word behind the braces of an import of operators that binds a name for the default. -/
theorem spaced (h : f.Closed lined n e p m w) (hf : f.Fronted lined)
    (he : e ∈ f.importsFrom Vocabulary.operators) {x : BracedImport} (hx : x.phrase = p) (hother : x.other ≠ none) : x.word.lead ≠ [] := by
  subst hx
  obtain ⟨b, hb, hspan, -, hbinding⟩ := view_braced h.view
  obtain ⟨o, ho⟩ : ∃ o, e.otherBinding = some o := by
    rw [← Option.isSome_iff_exists, ← Option.isSome_map (f := Node.stop), hbinding, Option.isSome_map,
      Option.isSome_iff_ne_none]
    exact hother
  have hplace := h.place
  rw [BracedImport.join_lexemes_phrase, List.append_assoc, List.append_assoc] at hplace
  have hbehind := hplace.append.append
  have hstop : b.stop = n.start + Text.size (join x.front) + Text.size (join x.braces.lexemes) :=
    congrArg Span.stop hspan
  rw [← hstop, join_cons, List.append_assoc] at hbehind
  exact lead_ne_nil h.sound hbehind (hf.spaced e he o ho b hb)

/-- **What pruning makes of an import in front**: one without unused operators, or nothing. -/
theorem exists_pruned (h : f.Closed lined n e p m w) (hf : f.Fronted lined) (hn : n ∈ f.statements) :
    ∃ ps, Altered lined n.start (join p.lexemes ++ (m ++ w)) w (f.pruningAt n) ps ∧
      (∀ x y b, e.view.Binds x y b → ∃ q ∈ ps, (q.view 0).Binds x y b) ∧ ∀ q ∈ ps, f.Uses q := by
  have hat := importDecl?_eq_some h.decl
  by_cases hm : e.moduleName = Vocabulary.operators
  · have hnone : ∀ x y b, ¬ e.view.Binds x y b := by
      intro x y b hbinds
      have hne : Vocabulary.operators ≠ Vocabulary.streams := by decide
      exact hne (hm.symm.trans hbinds.moduleName)
    have hmem : e ∈ f.importsFrom Vocabulary.operators := by
      refine List.mem_filter.mpr ⟨List.mem_filterMap.mpr ⟨n, (List.mem_filter.mp hn).1, h.decl⟩, ?_⟩
      simpa using hm
    rw [pruningAt_of_operators h.decl hm]
    rcases patched_prune hat h.sound h.view (pruneDecl_cases f.unusedOperators hat).1
      (fun x => h.spaced hf hmem) with ⟨p', hp', hpatched, hused⟩ | hdeleted
    · refine ⟨[p'], .patched rfl h.ends hp' hpatched, fun x y b hb => absurd hb (hnone x y b), ?_⟩
      intro q hq
      rw [List.mem_singleton.mp hq]
      exact fun _ => hused
    · obtain ⟨x, w', hw, hx, hpast⟩ := exists_pastLineBreak h.behind
      refine ⟨[], ?_, fun x y b hb => absurd hb (hnone x y b), by simp⟩
      have hspan : f.pastLineBreak n.stop = n.start + Text.size ((join p.lexemes ++ m) ++ x) := by
        rw [hpast, h.stop, Text.size_append _ x, Nat.add_assoc]
      rw [hdeleted, hat.node, hspan]
      exact .deleted (by simp) hw hx
  · refine ⟨[p], ?_, ?_, ?_⟩
    · rw [pruningAt_eq_nil (fun c hc => by cases h.decl.symm.trans hc; exact hm)]
      exact .patched rfl h.ends h.sound (.done _ _)
    · intro x y b hbinds
      rw [h.view, p.binds_iff] at hbinds
      exact ⟨p, List.mem_singleton_self p, hbinds⟩
    · intro q hq
      rw [List.mem_singleton.mp hq]
      refine uses_of_ne ?_
      rw [← (p.pairs_view n.start).1, ← h.view]
      exact hm

end Closed

/-- A line break is made of blanks and ends a line. -/
theorem lineBreak_cases (t : Text) : t.lineBreak = ['\n'] ∨ t.lineBreak = ['\r', '\n'] := by
  have hall : ∀ previous, t.lineBreakFrom previous = ['\n'] ∨ t.lineBreakFrom previous = ['\r', '\n'] := by
    induction t with
    | nil => exact fun _ => Or.inl rfl
    | cons c t ih =>
        intro previous
        rw [Text.lineBreakFrom]
        split
        · split
          · exact Or.inr rfl
          · exact Or.inl rfl
        · exact ih _
  exact hall none

theorem isBlank_lineBreak (t : Text) : ∀ c ∈ t.lineBreak, isBlank c = true := by
  rcases lineBreak_cases t with h | h
  · simp [h, isBlank]
  · simp [h, isBlank]

/-- How a new import ends. -/
theorem Fronted.ends_statement (hf : f.Fronted lined) (z : Text) :
    Ends lined (if f.importLayout.semicolon then [';'] else []) (f.text.lineBreak ++ z) := by
  cases hsemi : f.importLayout.semicolon with
  | true => exact .semicolon _
  | false =>
      refine .line (hf.semicolon.resolve_left (by simp [hsemi])) ?_
      rcases lineBreak_cases f.text with h | h
      · rw [h]
        rfl
      · rw [h]
        rfl

theorem exists_missing (hwords : ∀ x ∈ required.names, IsWord x) (hne : f.missing required ≠ []) :
    ∃ y names, f.missing required = y :: names ∧ ∀ z ∈ y :: names, IsWord z := by
  obtain ⟨y, names, hmissing⟩ := List.exists_cons_of_ne_nil hne
  refine ⟨y, names, hmissing, ?_⟩
  intro z hz
  rw [← hmissing] at hz
  exact hwords z (List.mem_filter.mp hz).1

/-- The import that is put into a file. -/
theorem exists_statement (hwords : ∀ x ∈ required.names, IsWord x) (hne : f.missing required ≠ []) :
    ∃ q : ImportPhrase, q.Sound ∧
      f.importLayout.statement Vocabulary.streams (f.missing required) = join q.lexemes ++
        ((if f.importLayout.semicolon then [';'] else []) ++ f.text.lineBreak) ∧
      ∀ y ∈ f.missing required, (q.view 0).Binds y y false := by
  obtain ⟨y, names, hmissing, hnames⟩ := exists_missing hwords hne
  obtain ⟨hsound, hview⟩ := f.sound_importLayout hnames
  refine ⟨_, hsound, by rw [hmissing, ImportLayout.statement_eq, importLayout_lineBreak], ?_⟩
  intro z hz
  rw [hmissing] at hz
  obtain ⟨hmodule, htype, hpairs⟩ := hview 0
  exact ⟨hmodule, htype, by rw [hpairs]; exact List.mem_map.mpr ⟨z, hz, rfl⟩⟩

/-- The import that an import becomes when the missing names are added to it. -/
theorem exists_extended {e : ImportDecl} {b : Node} {p : ImportPhrase} {k : Nat}
    (hwords : ∀ x ∈ required.names, IsWord x) (hne : f.missing required ≠ []) (hp : p.Sound)
    (hview : e.view = p.view k) (hm : e.moduleName = Vocabulary.streams) (htype : e.typeOnly = false)
    (hb : e.named = some b) : ∃ q : ImportPhrase, q.Sound ∧
      Patched k (join p.lexemes) [extension e b (f.missing required)] (join q.lexemes) ∧
      (∀ x y c, e.view.Binds x y c → (q.view 0).Binds x y c) ∧
      ∀ x ∈ f.missing required, (q.view 0).Binds x x false := by
  obtain ⟨y, names, hmissing, hnames⟩ := exists_missing hwords hne
  obtain ⟨q, hq, hpatched, hshown⟩ := patched_extension hp hview hb hnames
  obtain ⟨hmodule, hmark, hpairs⟩ := hshown 0
  refine ⟨q, hq, by rw [hmissing]; exact hpatched, ?_, ?_⟩
  · intro x z c hbinds
    refine ⟨hmodule.trans hbinds.moduleName, hmark.trans hbinds.typeOnly, ?_⟩
    rw [hpairs]
    exact List.mem_append_left _ hbinds.pair
  · intro z hz
    refine ⟨hmodule.trans hm, hmark.trans htype, ?_⟩
    rw [hmissing] at hz
    rw [hpairs]
    exact List.mem_append_right _ (List.mem_map.mpr ⟨z, hz, rfl⟩)

/-- An import of the module of the helpers is not pruned. -/
theorem pruningAt_of_streams {e : ImportDecl} (he : f.importDecl? n = some e)
    (hm : e.moduleName = Vocabulary.streams) : f.pruningAt n = [] := by
  refine pruningAt_eq_nil fun c hc => ?_
  cases he.symm.trans hc
  rw [hm]
  decide

/-- The imports `ps` in place of a statement bind what it bound and the missing names where they are
added, and no operators that are unused. -/
structure Yields (f : SourceFile) (required : NameSet) (n : Node) (ps : List ImportPhrase) : Prop where
  keeps : ∀ e x y b, f.importDecl? n = some e → e.view.Binds x y b → ∃ p ∈ ps, (p.view 0).Binds x y b
  adds : n.start = f.additionPlace → ∀ x ∈ f.missing required, ∃ p ∈ ps, (p.view 0).Binds x x false
  uses : ∀ p ∈ ps, f.Uses p

/-- **What all edits make of an import in front.** -/
theorem Closed.exists_edited {e : ImportDecl} {p : ImportPhrase} {m : Text} (h : f.Closed lined n e p m w)
    (hf : f.Fronted lined) (himport : f.Importable) (hn : n ∈ f.statements)
    (hwords : ∀ x ∈ required.names, IsWord x) :
    ∃ ps, Altered lined n.start (join p.lexemes ++ (m ++ w)) w (f.editsAt required n) ps ∧
      f.Yields required n ps := by
  obtain ⟨ps, haltered, hkeeps, huses⟩ := h.exists_pruned hf hn
  have hkeeps' : ∀ c x y b, f.importDecl? n = some c → c.view.Binds x y b →
      ∃ q ∈ ps, (q.view 0).Binds x y b := by
    intro c x y b hc
    cases h.decl.symm.trans hc
    exact hkeeps x y b
  rw [editsAt]
  rcases additionsAt_cases required himport hn with ⟨hplace, hnone⟩ | ⟨hplace, hadds⟩
  · rw [hnone, List.nil_append]
    exact ⟨ps, haltered, hkeeps', fun hp => absurd hp hplace, huses⟩
  · generalize f.additionsAt required n = es at hadds
    cases hadds with
    | nothing hmissing => exact ⟨ps, haltered, hkeeps', fun _ => by rw [hmissing]; simp, huses⟩
    | @extended c b hmissing _ hd hm htype hb =>
        cases h.decl.symm.trans hd
        obtain ⟨q, hq, hpatched, hkept, hadded⟩ := exists_extended hwords hmissing h.sound h.view hm htype hb
        rw [pruningAt_of_streams h.decl hm, List.append_nil]
        refine ⟨[q], .patched rfl h.ends hq hpatched, ?_, ?_, ?_⟩
        · intro c x z k hc hbinds
          cases h.decl.symm.trans hc
          exact ⟨q, List.mem_singleton_self q, hkept x z k hbinds⟩
        · exact fun _ z hz => ⟨q, List.mem_singleton_self q, hadded z hz⟩
        · intro p' hp'
          rw [List.mem_singleton.mp hp']
          exact uses_of_missing hmissing hadded
    | inserted hmissing =>
        obtain ⟨q, hq, heq, hbinds⟩ := exists_statement hwords hmissing
        rw [heq]
        refine ⟨q :: ps, .inserted hq hf.ends_statement (isBlank_lineBreak f.text) haltered, ?_, ?_, ?_⟩
        · intro c x y b hc hcb
          obtain ⟨p', hp', hpb⟩ := hkeeps' c x y b hc hcb
          exact ⟨p', List.mem_cons_of_mem q hp', hpb⟩
        · exact fun _ y hy => ⟨q, List.mem_cons_self, hbinds y hy⟩
        · intro p' hp'
          rcases List.mem_cons.mp hp' with rfl | hp'
          · exact uses_of_missing hmissing hbinds
          · exact huses p' hp'

/-! ### The whole file -/

/-- Behind the imports in front, no import is changed; a new import may be put in. -/
theorem Fronted.behind (hf : f.Fronted lined) (himport : f.Importable) (required : NameSet)
    (hn : n ∈ f.statements.dropWhile (f.isFrontImport lined)) :
    (∀ e x y b, f.importDecl? n = some e → ¬ e.view.Binds x y b) ∧
      ((f.editsAt required n = [] ∧ (n.start = f.additionPlace → f.missing required = [])) ∨
        n.start = f.anchor ∧ f.missing required ≠ [] ∧ f.editsAt required n =
          [.insertion n.start (f.importLayout.statement Vocabulary.streams (f.missing required))]) := by
  have hmem : n ∈ f.statements := (List.dropWhile_sublist _).mem hn
  have hmodule := hf.front n hn
  have hpruning : f.pruningAt n = [] := pruningAt_eq_nil fun e he => (hmodule e he).2
  refine ⟨fun e x y b he hbinds => (hmodule e he).1 hbinds.moduleName, ?_⟩
  rw [editsAt, hpruning, List.append_nil]
  rcases additionsAt_cases required himport hmem with ⟨hplace, hnone⟩ | ⟨hplace, hadds⟩
  · exact Or.inl ⟨hnone, fun hp => absurd hp hplace⟩
  · generalize f.additionsAt required n = es at hadds
    cases hadds with
    | nothing hmissing => exact Or.inl ⟨rfl, fun _ => hmissing⟩
    | extended _ _ hd hm => exact absurd hm (hmodule _ hd).1
    | inserted hmissing ht =>
        rw [additionPlace, ht] at hplace
        exact Or.inr ⟨hplace, hmissing, rfl⟩

/-- A new import comes in front of no statement but the first one, unless that is one of the imports in
front. -/
theorem Fronted.start_ne_anchor (hf : f.Fronted lined) (himport : f.Importable)
    (hn : n ∈ (f.statements.dropWhile (f.isFrontImport lined)).tail) : n.start ≠ f.anchor := by
  intro hplace
  have hdrop := List.mem_of_mem_tail hn
  have hmem : n ∈ f.statements := (List.dropWhile_sublist _).mem hdrop
  obtain ⟨m, hm, hanchor, hcases⟩ := exists_anchor hf.nonempty
  have heq : m = n := eq_of_start himport hm hmem (hanchor.trans hplace.symm)
  subst heq
  rcases hcases with ⟨e, he, hops⟩ | hhead
  · exact (hf.front m hdrop e he).2 hops
  · obtain ⟨ns, hns⟩ := List.head?_eq_some_iff.mp hhead
    have htail : m ∈ f.statements.tail := (List.dropWhile_sublist (f.isFrontImport lined)).tail.mem hn
    have hpair := statements_pairwise himport
    rw [hns] at hpair htail
    have := (List.pairwise_cons.mp hpair).1 m htail
    omega

/-- **The edits of a file that starts with its imports** change these imports one by one. -/
theorem Fronted.preface (hf : f.Fronted lined) (himport : f.Importable)
    (hwords : ∀ x ∈ required.names, IsWord x) :
    Preface lined d f.text (f.isFrontImport lined) (f.editsAt required) (f.Yields required) f.statements where
  front := by
    intro n hn
    have hfront := List.mem_takeWhile_imp hn
    have hmem : n ∈ f.statements := (List.takeWhile_sublist _).mem hn
    intro r w hshow hunit hstated
    obtain ⟨c, p, m, htext, hopens, hc⟩ := exists_closed hfront hshow hunit hstated
    refine ⟨⟨p, hopens⟩, fun hlined => ?_, ?_⟩
    · exact (resumes_iff.mp (hf.lines hlined n hn w hc.behind.restAt?_eq)).1
    · rw [htext]
      exact hc.exists_edited hf himport hmem hwords
  next := by
    intro n hn
    refine ⟨fun hlined v hv => hf.next hlined n hn v hv.restAt?_eq, ?_⟩
    obtain ⟨hnone, ⟨hedits, hmissing⟩ | ⟨-, hmissing, hedits⟩⟩ :=
      hf.behind himport required (List.mem_of_mem_head? hn)
    · refine Or.inl ⟨hedits, ⟨fun e x y b he hb => absurd hb (hnone e x y b he), ?_, by simp⟩⟩
      intro hplace x hx
      rw [hmissing hplace] at hx
      cases hx
    · obtain ⟨q, hq, heq, hbinds⟩ := exists_statement hwords hmissing
      rw [heq] at hedits
      refine Or.inr ⟨q, _, f.text.lineBreak, hq, hf.ends_statement, isBlank_lineBreak f.text, hedits,
        ⟨fun e x y b he hb => absurd hb (hnone e x y b he), ?_, ?_⟩⟩
      · exact fun _ y hy => ⟨q, List.mem_singleton_self q, hbinds y hy⟩
      · intro p' hp'
        rw [List.mem_singleton.mp hp']
        exact uses_of_missing hmissing hbinds
  back := by
    intro n hn
    obtain ⟨hnone, ⟨hedits, hmissing⟩ | ⟨hplace, -⟩⟩ :=
      hf.behind himport required (List.mem_of_mem_tail hn)
    · refine ⟨hedits, ⟨fun e x y b he hb => absurd hb (hnone e x y b he), ?_, by simp⟩⟩
      intro hplace x hx
      rw [hmissing hplace] at hx
      cases hx
    · exact absurd hplace (hf.start_ne_anchor himport hn)

/-- The file `g` is the file `f` with other imports `us` in place of those in front, `front`, and the
statements behind them stay. -/
structure Refitted (d : Dialect) (required : NameSet) (f g : SourceFile) (lined : Bool)
    (front us back : List Row) : Prop where
  before : f.MadeOf d (front ++ back)
  after : g.MadeOf d (us ++ back)
  reworked : Reworked f.text (f.isFrontImport lined) (f.Yields required) f.statements front us back

/-- **Making the imports fit leaves a program.** When a file starts with its imports, the edits can be
applied, and what comes of them is a program with other imports in front of the same statements. -/
theorem Fronted.exists_refitted (hf : f.Fronted lined) (h : parse? d t = .ok f)
    (hwords : ∀ x ∈ required.names, IsWord x) :
    ∃ o g front us back, (f.importChange required).edits.applied? f.text = some o ∧ parse? d o = .ok g ∧
      Refitted d required f g lined front us back := by
  have hne := hf.nonempty
  have himport := parse?_importable h
  obtain ⟨rows, hmade⟩ := parse?_madeOf h
  obtain ⟨x, v, hopen, hrows⟩ := hmade.read
  have hbody : (trivia v).2 ≠ [] := by
    cases hrows with
    | done => exact absurd (List.forall₂_nil_left_iff.mp hmade.shown) hne
    | next hstated =>
        obtain ⟨u, hu, hne⟩ := hstated.exists_append
        rw [hu]
        exact List.append_ne_nil_of_left_ne_nil hne _
  have hfrom : f.text.From (Text.size x) v := ⟨x, hopen.append_eq, rfl⟩
  obtain ⟨y, front, us, back, hpatched, hrows', -, -, rfl, hreworked⟩ :=
    (hf.preface himport hwords).refits hrows hfrom hmade.shown
  -- the text in front of the statements stays
  have hwhole : Patched 0 f.text (f.statements.flatMap (f.editsAt required))
      (x ++ ((trivia v).1 ++ y)) := by
    have hgap : Patched (0 + Text.size x) v (f.statements.flatMap (f.editsAt required))
        ((trivia v).1 ++ y) := by
      rw [Nat.zero_add]
      have hprepend := Patched.prepend (trivia v).1 hpatched
      rwa [trivia_append_eq] at hprepend
    rw [hopen.append_eq]
    exact Patched.prepend x hgap
  obtain ⟨g, hg, hmade'⟩ := exists_file (hopen.replace hbody hrows') hrows'
  exact ⟨_, g, front, us, back, applied?_of_patched himport hne hwhole, hg, hmade, hmade', hreworked⟩

/-- The statements other than imports are the same, and there is an import in place of each statement as
it should be. -/
theorem Prefaced.exists_fitted (hf : f.Prefaced) (h : parse? d t = .ok f)
    (hwords : ∀ x ∈ required.names, IsWord x) :
    ∃ o g, (f.importChange required).edits.applied? f.text = some o ∧ parse? d o = .ok g ∧
      g.otherStatements = f.otherStatements ∧
      ∀ n ∈ f.statements, ∃ ps, f.Yields required n ps ∧
        ∀ p ∈ ps, ∃ e ∈ g.imports, ∃ k, e.view = p.view k := by
  obtain ⟨lined, hfront⟩ := hf
  obtain ⟨o, g, front, us, back, ho, hg, hmade, hmade', hreworked⟩ := hfront.exists_refitted h hwords
  refine ⟨o, g, ho, hg, ?_, ?_⟩
  · have hothers : Row.others (us ++ back) = Row.others (front ++ back) := by
      rw [Row.others_append hreworked.opens, Row.others_append hreworked.front]
    rw [otherStatements, otherStatements, otherStatements_eq hmade'.shown, otherStatements_eq hmade.shown]
    exact congrArg (List.map Row.words) hothers
  · intro n hn
    obtain ⟨ps, hps, hall⟩ := hreworked.fills n hn
    refine ⟨ps, hps, ?_⟩
    intro p hp
    obtain ⟨r, hr, hopens⟩ := hall p hp
    exact hmade'.exists_import (List.mem_append_left _ hr) hopens

/-! ## Other statements are left alone -/

/-- **Making the imports fit leaves the other statements alone**, for every file in which no edit is made
or that starts with its imports: what comes of it is a program, and its statements other than
imports are, in order, those of the file. -/
theorem fitting_keeps_other_statements {dialect : Dialect} (h : parse? dialect t = .ok f)
    (required : NameSet) (hwords : ∀ x ∈ required.names, IsWord x)
    (hf : (f.importChange required).edits ≠ [] → f.Prefaced) :
    ∃ o g, (f.importChange required).edits.applied? f.text = some o ∧ parse? dialect o = .ok g ∧
      g.otherStatements = f.otherStatements := by
  by_cases hnone : (f.importChange required).edits = []
  · refine ⟨f.text, f, ?_, ?_, rfl⟩
    · rw [hnone, Edits.applied?_nil]
    · rw [parse?_text h]
      exact h
  · obtain ⟨o, g, ho, hg, hsame, -⟩ := (hf hnone).exists_fitted h hwords
    exact ⟨o, g, ho, hg, hsame⟩

set_option maxRecDepth 100000 in
/-- An import is deleted and another one put in, in front of statements without semicolons. -/
theorem fitting_replaces_closed_import :
    ∃ f, parse? .typeScript "import { take } from 'rxjs/operators';\nlet a = b\n(c)\n".toList = .ok f ∧
      f.Prefaced ∧ (f.importChange (.ofList [Vocabulary.lastValueFrom])).edits.applied? f.text =
        some "import { lastValueFrom } from 'rxjs';\nlet a = b\n(c)\n".toList ∧
      ∃ g, parse? .typeScript "import { lastValueFrom } from 'rxjs';\nlet a = b\n(c)\n".toList = .ok g ∧
        g.otherStatements = f.otherStatements := by
  obtain ⟨f, hf, hpre, hout⟩ : ∃ f, parse? .typeScript
        "import { take } from 'rxjs/operators';\nlet a = b\n(c)\n".toList = .ok f ∧
      f.Prefaced ∧ (f.importChange (.ofList [Vocabulary.lastValueFrom])).edits.applied? f.text =
        some "import { lastValueFrom } from 'rxjs';\nlet a = b\n(c)\n".toList :=
    exists_of_parse _ (by decide +kernel) fun _ h => h
  obtain ⟨o, g, ho, hg, hsame⟩ := fitting_keeps_other_statements hf
    (.ofList [Vocabulary.lastValueFrom]) (by decide) fun _ => hpre
  cases hout.symm.trans ho
  exact ⟨f, hf, hpre, hout, g, hg, hsame⟩

set_option maxRecDepth 100000 in
/-- A statement in front of a deleted import runs on into the one behind it. -/
theorem fitting_joins_statements :
    ∃ f g, parse? .typeScript "const a = b\nimport { take } from \"rxjs/operators\"\n(c)\n".toList = .ok f ∧
      (f.importChange .empty).edits.applied? f.text = some "const a = b\n(c)\n".toList ∧
      parse? .typeScript "const a = b\n(c)\n".toList = .ok g ∧
      f.otherStatements = ["const a = b".toList, "(c)".toList] ∧
      g.otherStatements = ["const a = b\n(c)".toList] := by
  obtain ⟨f, hf, hout, hbefore⟩ : ∃ f, parse? .typeScript
        "const a = b\nimport { take } from \"rxjs/operators\"\n(c)\n".toList = .ok f ∧
      (f.importChange .empty).edits.applied? f.text = some "const a = b\n(c)\n".toList ∧
      f.otherStatements = ["const a = b".toList, "(c)".toList] :=
    exists_of_parse _ (by decide +kernel) fun _ h => h
  obtain ⟨g, hg, hafter⟩ : ∃ g, parse? .typeScript "const a = b\n(c)\n".toList = .ok g ∧
      g.otherStatements = ["const a = b\n(c)".toList] :=
    exists_of_parse _ (by decide +kernel) fun _ h => h
  exact ⟨f, g, hf, hout, hg, hbefore, hafter⟩

end SourceFile

/-! ## What comes of a migration is a program -/

variable {p : Path} {source : Text} {f g : SourceFile} {r : Conversion}

/-- The names a conversion requires are words. -/
theorem isWord_required (r : Conversion) : ∀ x ∈ r.required.names, IsWord x := by
  intro x hx
  rcases Conversion.mem_required hx with rfl | ⟨helper, rfl⟩
  · decide
  · cases helper <;> decide

/-- The text that comes of a migration is the converted text with the edits of its imports applied. -/
theorem applied?_of_migrate {o : Text} {counts : MigrationCounts}
    (hm : migrate p source = .ok (.converted o counts)) (hf : parse? p.dialect source = .ok f)
    (hr : f.conversion? = some r) (hg : parse? p.dialect r.text = .ok g) :
    (g.importChange r.required).edits.applied? g.text = some o := by
  obtain ⟨f', r', g', o', hf', hr', hg', ho', hout⟩ := migrate_eq_ok_iff.mp hm
  cases hf.symm.trans hf'
  cases hr.symm.trans hr'
  cases hg.symm.trans hg'
  rw [Migration.ofOutput] at hout
  split at hout
  · cases hout
  · rw [ho', (Migration.converted.inj hout).1]

/-- **What comes of a migration is a program** whenever the imports of the converted text are left as they
are or come first in it. -/
theorem migration_output_parses {o : Text} {counts : MigrationCounts}
    (hm : migrate p source = .ok (.converted o counts)) (hf : parse? p.dialect source = .ok f)
    (hr : f.conversion? = some r) (hg : parse? p.dialect r.text = .ok g)
    (hpre : (g.importChange r.required).edits ≠ [] → g.Prefaced) :
    ∃ h, parse? p.dialect o = .ok h := by
  have happlied := applied?_of_migrate hm hf hr hg
  by_cases hnone : (g.importChange r.required).edits = []
  · rw [hnone, Edits.applied?_nil, parse?_text hg] at happlied
    cases happlied
    exact ⟨g, hg⟩
  · obtain ⟨o', h, ho', hparse, -⟩ := (hpre hnone).exists_fitted hg (isWord_required r)
    cases happlied.symm.trans ho'
    exact ⟨h, hparse⟩

/-- A file without semicolons that starts with an import of operators. -/
def openFile : Text := "import { first } from 'rxjs/operators'\na.pipe(first()).toPromise()\n".toList

/-- The same file once its site is converted. -/
def openFileConverted : Text := "import { first } from 'rxjs/operators'\nfirstValueFrom(a)\n".toList

/-- What comes of migrating it. -/
def openFileMigrated : Text := "import { firstValueFrom } from 'rxjs'\nfirstValueFrom(a)\n".toList

set_option maxRecDepth 100000 in
/-- A file that starts with an import of operators gets an import in its place. -/
theorem migration_with_new_import_parses :
    ∃ f r g, parse? Path.inline.dialect openFile = .ok f ∧ f.conversion? = some r ∧
      parse? Path.inline.dialect r.text = .ok g ∧ g.Prefaced ∧
      migrate Path.inline openFile = .ok (.converted openFileMigrated ⟨⟨1, 1, 0⟩, ⟨1, 1, 1⟩⟩) ∧
      ∃ h, parse? Path.inline.dialect openFileMigrated = .ok h := by
  have hm : migrate Path.inline openFile =
      .ok (.converted openFileMigrated ⟨⟨1, 1, 0⟩, ⟨1, 1, 1⟩⟩) := by decide +kernel
  obtain ⟨f, hf, hconverted⟩ : ∃ f, parse? Path.inline.dialect openFile = .ok f ∧
      f.conversion?.map Conversion.text = some openFileConverted :=
    exists_of_parse _ (by decide +kernel) fun _ h => h
  obtain ⟨r, hr, htext⟩ := Option.map_eq_some_iff.mp hconverted
  obtain ⟨g, hg, hpre⟩ : ∃ g, parse? Path.inline.dialect openFileConverted = .ok g ∧ g.Prefaced :=
    exists_of_parse _ (by decide +kernel) fun _ h => h
  rw [← htext] at hg
  exact ⟨f, r, g, hf, hr, hg, hpre, hm, migration_output_parses hm hf hr hg fun _ => hpre⟩

set_option maxRecDepth 100000 in
/-- The name in front of deleted braces runs on into the word behind them. -/
theorem migration_joins_name_and_word :
    migrate Path.inline "import ops,\x7btake\x7dfrom\"rxjs/operators\";\n".toList =
        .ok (.converted "import opsfrom\"rxjs/operators\";\n".toList ⟨⟨0, 0, 0⟩, ⟨0, 1, 0⟩⟩) ∧
      ∀ h, parse? Path.inline.dialect "import opsfrom\"rxjs/operators\";\n".toList ≠ .ok h := by
  refine ⟨by decide +kernel, ?_⟩
  have hnone : (parse? Path.inline.dialect
      "import opsfrom\"rxjs/operators\";\n".toList).toOption.isNone = true := by decide +kernel
  intro h hparse
  rw [hparse] at hnone
  cases hnone

end Promisify
