import Promisify.Proofs.Fitting

set_option autoImplicit false

/-! # Helpers are imported

A helper that a migration puts into a file is named by an import of the file: one that was there before,
whatever it calls the helper and even if it imports types only, or one that the migration
writes. Such an import is found again in the text that comes of the migration.
-/

namespace Promisify

open Lexer Lexeme

variable {d : Dialect} {t v w : Text} {f : SourceFile} {n : Node} {required : NameSet}

/-! ## Names that a file binds -/

/-- The import binds the name `x` of the module of the helpers as `y`, for types only or not. -/
def ImportDecl.Binds (e : ImportDecl) (x y : Text) (typeOnly : Bool) : Prop :=
  e.moduleName = Vocabulary.streams ∧ e.typeOnly = typeOnly ∧
    ∃ a ∈ e.names, a.imported = x ∧ a.localName = y

/-- An import of the file binds the name `x` of the module of the helpers as `y`. -/
def SourceFile.Binds (f : SourceFile) (x y : Text) (typeOnly : Bool) : Prop :=
  ∃ e ∈ f.imports, e.Binds x y typeOnly

/-- An import that names `x` binds it. -/
theorem ImportDecl.imports_iff {e : ImportDecl} {x : Text} (hm : e.moduleName = Vocabulary.streams) :
    e.imports x = true ↔ ∃ y b, e.Binds x y b := by
  constructor
  · intro himports
    obtain ⟨a, ha, hax⟩ := List.any_eq_true.mp himports
    exact ⟨a.localName, e.typeOnly, hm, rfl, a, ha, by simpa using hax, rfl⟩
  · rintro ⟨y, b, -, -, a, ha, hax, -⟩
    exact List.any_eq_true.mpr ⟨a, ha, by simpa using hax⟩

theorem SourceFile.ImportAt.binds_iff {e : ImportDecl} (h : f.ImportAt n e) {x y : Text} {b : Bool} :
    e.Binds x y b ↔ e.view.Binds x y b := by
  constructor
  · rintro ⟨hmodule, htype, a, ha, rfl, rfl⟩
    refine ⟨hmodule, htype, ?_⟩
    rw [h.pairs_view]
    exact List.mem_map.mpr ⟨a, ha, rfl⟩
  · rintro ⟨hmodule, htype, hpair⟩
    rw [h.pairs_view] at hpair
    obtain ⟨a, ha, heq⟩ := List.mem_map.mp hpair
    obtain ⟨rfl, rfl⟩ := Prod.mk.inj heq
    exact ⟨hmodule, htype, a, ha, rfl, rfl⟩

/-! ## An import in a text -/

/-- An import of a file with the names of the import `p` binds what `p` binds. -/
theorem SourceFile.binds_of_view {p : ImportPhrase} {e : ImportDecl} {x y : Text} {b : Bool} {k : Nat}
    (he : e ∈ f.imports) (hview : e.view = p.view k) (hbinds : (p.view 0).Binds x y b) : f.Binds x y b := by
  obtain ⟨n, -, hdecl⟩ := List.mem_filterMap.mp he
  refine ⟨e, he, (importDecl?_eq_some hdecl).binds_iff.mpr ?_⟩
  rw [hview, p.binds_iff]
  exact hbinds

/-- **A statement that starts where an import is written is this import.** -/
theorem exists_import_of_start {p : ImportPhrase} {u o : Text} (hp : p.Sound)
    (ho : o = u ++ join p.lexemes ++ v) (h : parse? d o = .ok f) (hn : n ∈ f.statements)
    (hstart : n.start = Text.size u) : ∃ e ∈ f.imports, e.view = p.view (Text.size u) := by
  obtain ⟨x, w, rows, -, hrows, hshows⟩ := parse?_statements h
  rw [← parse?_text h] at hshows
  obtain ⟨r, hr, hshow⟩ := exists_related hshows hn
  obtain ⟨hunit, w', hstated⟩ := hrows.stated r hr
  have hplace : r.start f.text = Text.size u := (hshow.start_eq hstated hunit).symm.trans hstart
  have hfrom : f.text.From (Text.size u) (join p.lexemes ++ v) :=
    ⟨u, by rw [parse?_text h, ho, List.append_assoc], rfl⟩
  have htext : r.text = join p.lexemes ++ v := by
    rw [← hplace] at hfrom
    exact hshow.place.unique hfrom
  obtain ⟨e, he, hview, -⟩ := Row.Shows.importDecl? hshow hstated hp htext
  rw [hplace] at hview
  exact ⟨e, List.mem_filterMap.mpr ⟨n, (List.mem_filter.mp hn).1, he⟩, hview⟩

/-- **An import is a program of its own.** -/
theorem ImportPhrase.Sound.exists_parse {p : ImportPhrase} (hp : p.Sound) (d : Dialect) :
    ∃ f, parse? d (join p.lexemes) = .ok f ∧ ∃ e ∈ f.imports, ∃ k, e.view = p.view k := by
  obtain ⟨r, hopens, hrows⟩ := hp.statements_last d
  obtain ⟨f, hf, hmade⟩ := exists_file (.plain hrows.startsHashBang) hrows
  exact ⟨f, hf, hmade.exists_import (List.mem_singleton_self r) hopens⟩

/-! ## What stands in front of an import -/

namespace SourceFile

variable {o : Text}

/-- What making the imports fit leaves of the text in front of an offset. -/
def ahead? (f : SourceFile) (required : NameSet) (k : Nat) : Option Text :=
  (f.text.slice? 0 k).bind
    (Edits.applied? ((f.importChange required).edits.sorted.filter fun e => e.span.stop ≤ k))

/-- What stands in front of the import that the missing names are added to, or of the new import. -/
def aheadOfAddition? (f : SourceFile) (required : NameSet) : Option Text :=
  match f.target? with
  | some (e, _) => f.ahead? required e.node.start
  | none => f.text.slice? 0 f.anchor

/-- A stretch of the text at the offset `k`, inside the statement `n`, is turned into `z'` and comes to
stand behind `u`. -/
structure InPlace (f : SourceFile) (required : NameSet) (n : Node) (k : Nat) (o u z' : Text)
    (fore : List Edit) : Prop where
  output : ∃ v, o = u ++ z' ++ v
  front : ∃ ms ns a, f.statements = ms ++ n :: ns ∧ f.text.slice? 0 k = some a ∧
    Patched 0 a (ms.flatMap (f.editsAt required) ++ fore) u

/-- **What edits make of a stretch inside a statement is found in the result.** -/
theorem exists_in_place (hf : f.Importable)
    (h : Patched 0 f.text (f.statements.flatMap (f.editsAt required)) o) (hn : n ∈ f.statements) {k : Nat}
    {z z' : Text} {fore mid aft : List Edit} (hedits : f.editsAt required n = fore ++ (mid ++ aft))
    (hfrom : f.text.From k (z ++ w)) (hstart : n.start ≤ k) (hstop : k + Text.size z ≤ n.stop)
    (hfore : ∀ e ∈ fore, e.span.stop ≤ k) (hmid : Patched k z mid z')
    (haft : ∀ e ∈ aft, k + Text.size z ≤ e.span.start) : ∃ u, InPlace f required n k o u z' fore := by
  obtain ⟨ms, ns, hns⟩ := List.append_of_mem hn
  have hpair := statements_pairwise hf
  rw [hns, List.pairwise_append, List.pairwise_cons] at hpair
  obtain ⟨-, ⟨hbehind, -⟩, hfront⟩ := hpair
  -- the edits in front of the stretch and those behind it
  have hfore' : ∀ e ∈ ms.flatMap (f.editsAt required) ++ fore, e.span.stop ≤ k := by
    intro e he
    rcases List.mem_append.mp he with he | he
    · obtain ⟨m, hm, he⟩ := List.mem_flatMap.mp he
      have hmem : m ∈ f.statements := by rw [hns]; exact List.mem_append_left _ hm
      calc e.span.stop
        _ ≤ f.pastLineBreak m.stop := ((editsAt_staysAt required hf hmem).2 e he).stop
        _ ≤ n.start := pastLineBreak_le (hfront m hm n List.mem_cons_self).2 (hf.solid n hn)
        _ ≤ k := hstart
    · exact hfore e he
  have haft' : ∀ e ∈ aft ++ ns.flatMap (f.editsAt required), k + Text.size z ≤ e.span.start := by
    intro e he
    rcases List.mem_append.mp he with he | he
    · exact haft e he
    · obtain ⟨m, hm, he⟩ := List.mem_flatMap.mp he
      have hmem : m ∈ f.statements := by
        rw [hns]
        exact List.mem_append_right _ (List.mem_cons_of_mem n hm)
      calc k + Text.size z
        _ ≤ n.stop := hstop
        _ ≤ m.start := (hbehind m hm).2
        _ ≤ e.span.start := ((editsAt_staysAt required hf hmem).2 e he).start
  have hall : f.statements.flatMap (f.editsAt required) =
      (ms.flatMap (f.editsAt required) ++ fore) ++ (mid ++ (aft ++ ns.flatMap (f.editsAt required))) := by
    rw [hns, List.flatMap_append, List.flatMap_cons, hedits]
    simp
  obtain ⟨a, ha, hk⟩ := hfrom
  rw [hall, ha] at h
  obtain ⟨r₁, r₂, rfl, h₁, h₂⟩ := h.split (by rw [Nat.zero_add, hk]; exact hfore') (by
    rw [Nat.zero_add, hk]
    intro e he
    rcases List.mem_append.mp he with he | he
    · exact (hmid.bounds e he).1
    · have := haft' e he
      omega)
  rw [Nat.zero_add, hk] at h₂
  obtain ⟨r₃, r₄, rfl, h₃, -⟩ := h₂.split (fun e he => (hmid.bounds e he).2.2) haft'
  have heq : r₃ = z' := h₃.unique (t := a ++ z) hmid ⟨a, rfl, hk⟩
  refine ⟨r₁, ⟨r₄, by rw [heq, List.append_assoc]⟩, ms, ns, a, hns, ?_, h₁⟩
  exact Text.slice?_eq_some_iff.mpr ⟨[], z ++ w, by simpa using ha, rfl, by rw [Nat.zero_add, hk]⟩

/-- What stands in front of a statement comes of the edits that are made in front of it. -/
theorem InPlace.ahead?_eq {u z' : Text} {fore aft : List Edit} (h : InPlace f required n n.start o u z' fore)
    (hf : f.Importable) (hedits : f.editsAt required n = fore ++ aft)
    (haft : ∀ e ∈ aft, n.start < e.span.stop) :
    f.ahead? required n.start = some u := by
  obtain ⟨ms, ns, a, hns, hslice, hpatched⟩ := h.front
  have hne : f.statements ≠ [] := by rw [hns]; simp
  have hpair := statements_pairwise hf
  rw [hns, List.pairwise_append, List.pairwise_cons] at hpair
  obtain ⟨-, ⟨hbehind, -⟩, -⟩ := hpair
  have hsize : Text.size a = n.start := by
    obtain ⟨b, c, -, hb, hsize⟩ := Text.slice?_eq_some_iff.mp hslice
    omega
  have hfront : ∀ e ∈ ms.flatMap (f.editsAt required) ++ fore, e.span.stop ≤ n.start := by
    intro e he
    have := (hpatched.bounds e he).2.2
    omega
  have hrest : ∀ e ∈ aft ++ ns.flatMap (f.editsAt required), n.start < e.span.stop := by
    intro e he
    rcases List.mem_append.mp he with he | he
    · exact haft e he
    · obtain ⟨m, hm, he⟩ := List.mem_flatMap.mp he
      have hmem : m ∈ f.statements := by
        rw [hns]
        exact List.mem_append_right _ (List.mem_cons_of_mem n hm)
      have hstays := (editsAt_staysAt required hf hmem).2 e he
      calc n.start
        _ < n.stop := (hbehind m hm).1
        _ ≤ m.start := (hbehind m hm).2
        _ ≤ e.span.start := hstays.start
        _ ≤ e.span.stop := hstays.ordered
  have hall : f.statements.flatMap (f.editsAt required) =
      (ms.flatMap (f.editsAt required) ++ fore) ++ (aft ++ ns.flatMap (f.editsAt required)) := by
    rw [hns, List.flatMap_append, List.flatMap_cons, hedits]
    simp
  rw [ahead?, hslice, Option.bind_some, sorted_importChange required hf hne, hall, List.filter_append,
    List.filter_eq_self.mpr (by simpa using hfront), List.filter_eq_nil_iff.mpr (by simpa using hrest),
    List.append_nil]
  exact hpatched.applied?_eq

/-- No import of operators stands in front of the place for a new import. -/
theorem anchor_le (hf : f.Importable) {e : ImportDecl} (he : f.importDecl? n = some e)
    (hn : n ∈ f.statements) (hm : e.moduleName = Vocabulary.operators) : f.anchor ≤ n.start := by
  have hmem : e ∈ f.importsFrom Vocabulary.operators := by
    refine List.mem_filter.mpr ⟨List.mem_filterMap.mpr ⟨n, (List.mem_filter.mp hn).1, he⟩, ?_⟩
    simpa using hm
  have hnode := (importDecl?_eq_some he).node
  have hpair := importsFrom_pairwise hf Vocabulary.operators
  unfold anchor
  cases hops : f.importsFrom Vocabulary.operators with
  | nil =>
      rw [hops] at hmem
      cases hmem
  | cons c cs =>
      obtain ⟨m, hm, -, hnode', -⟩ := mem_statements_of_mem_importsFrom
        (show c ∈ f.importsFrom Vocabulary.operators by rw [hops]; exact List.mem_cons_self)
      rw [hops] at hmem hpair
      show c.node.start ≤ n.start
      rcases List.mem_cons.mp hmem with rfl | hmem
      · rw [hnode]
      · have hlt := hf.wellFormed.tree.fits.nonempty m (List.mem_filter.mp hm).1
        have hpast := f.le_pastLineBreak c.node.stop
        have hbehind := (List.pairwise_cons.mp hpair).1 e hmem
        rw [hnode] at hbehind
        rw [hnode'] at hpast hbehind ⊢
        omega

/-- In front of a new import nothing is changed. -/
theorem InPlace.slice?_eq {u z' : Text} (h : InPlace f required n n.start o u z' []) (hf : f.Importable)
    (ht : f.target? = none) (hplace : n.start = f.anchor) : f.text.slice? 0 f.anchor = some u := by
  obtain ⟨ms, ns, a, hns, hslice, hpatched⟩ := h.front
  have hpair := statements_pairwise hf
  rw [hns, List.pairwise_append] at hpair
  have hnone : ms.flatMap (f.editsAt required) = [] := by
    refine List.flatMap_eq_nil_iff.mpr fun m hm => ?_
    have hmem : m ∈ f.statements := by
      rw [hns]
      exact List.mem_append_left _ hm
    obtain ⟨hlt, hle⟩ := hpair.2.2 m hm n List.mem_cons_self
    have hadds : f.additionsAt required m = [] := by
      refine if_neg ?_
      rw [additionPlace, ht]
      show m.start ≠ f.anchor
      omega
    rw [editsAt, hadds, List.nil_append]
    refine pruningAt_eq_nil fun e he hoperators => ?_
    have := anchor_le hf he hmem hoperators
    omega
  rw [hnone] at hpatched
  cases hpatched
  rw [← hplace]
  exact hslice

/-! ## Imports in the result -/

/-- An import of a file with the place where it stands. -/
theorem exists_import_place (h : parse? d t = .ok f) {e : ImportDecl} (hn : n ∈ f.statements)
    (he : f.importDecl? n = some e) : ∃ (p : ImportPhrase) (w : Text), p.Sound ∧
      e.view = p.view n.start ∧ f.text.From n.start (join p.lexemes ++ w) ∧
      n.start + Text.size (join p.lexemes) ≤ n.stop := by
  obtain ⟨x, v, rows, -, hrows, hshows⟩ := parse?_statements h
  rw [← parse?_text h] at hshows
  obtain ⟨r, hr, hshow⟩ := exists_related hshows hn
  obtain ⟨hunit, w, hstated⟩ := hrows.stated r hr
  obtain ⟨p, u, hp, htext⟩ := hshow.exists_phrase hstated hunit he
  obtain ⟨e', he', hview, hstop⟩ := hshow.importDecl? hstated hp htext
  cases he.symm.trans he'
  have hstart := hshow.start_eq hstated hunit
  have hplace := hshow.place
  rw [htext] at hplace
  rw [← hstart] at hview hplace hstop
  refine ⟨p, u, hp, hview, hplace, ?_⟩
  -- the module is inside the statement
  have hwf := (parse?_wellFormed h).tree.child (List.mem_filter.mp hn).1
  have hsource := (hwf.within (Node.mem_descendants_of_child
    (Node.mem_children_of_child? (importDecl?_eq_some he).source))).2.2
  omega

end SourceFile

/-- An import that binds the name `x` as `y` is written behind `u` in the text. -/
def Text.Writes (o u x y : Text) (b : Bool) : Prop :=
  ∃ (q : ImportPhrase) (v : Text),
    q.Sound ∧ o = u ++ Lexeme.join q.lexemes ++ v ∧ (q.view 0).Binds x y b

/-- Behind `u` the text has an import that is a program of its own and binds the name `x` as `y`; and the
whole text binds the name so if one of its statements starts there. -/
def Text.ImportsAt (o : Text) (d : Dialect) (u x y : Text) (b : Bool) : Prop :=
  ∃ s v, o = u ++ s ++ v ∧ (∃ f, parse? d s = .ok f ∧ f.Binds x y b) ∧
    ∀ f, parse? d o = .ok f → (∃ n ∈ f.statements, n.start = Text.size u) → f.Binds x y b

/-- **An import that is written in a text is an import of it** wherever a statement starts. -/
theorem Text.Writes.importsAt {o u x y : Text} {b : Bool} (h : o.Writes u x y b) (d : Dialect) :
    o.ImportsAt d u x y b := by
  obtain ⟨q, v, hq, ho, hbinds⟩ := h
  refine ⟨Lexeme.join q.lexemes, v, ho, ?_, ?_⟩
  · obtain ⟨f, hf, e, he, k, hview⟩ := hq.exists_parse d
    exact ⟨f, hf, SourceFile.binds_of_view he hview hbinds⟩
  · rintro f hf ⟨n, hn, hstart⟩
    obtain ⟨e, he, hview⟩ := exists_import_of_start hq ho hf hn hstart
    exact SourceFile.binds_of_view he hview hbinds

namespace SourceFile

variable {o : Text}

/-- **An import that binds a name is written in the result**, behind what is left of the text in front
of it. -/
theorem writes_kept (h : parse? d t = .ok f) (hwords : ∀ x ∈ required.names, IsWord x)
    (hpatched : Patched 0 f.text (f.statements.flatMap (f.editsAt required)) o) {e : ImportDecl}
    {x y : Text} {b : Bool} (he : e ∈ f.imports) (hbinds : e.Binds x y b) :
    ∃ u, f.ahead? required e.node.start = some u ∧ o.Writes u x y b := by
  have hf := parse?_importable h
  obtain ⟨n, hchild, hdecl⟩ := List.mem_filterMap.mp he
  have hat := importDecl?_eq_some hdecl
  have hn := hat.mem_statements hchild
  rw [hat.binds_iff] at hbinds
  rw [hat.node]
  obtain ⟨p, w, hp, hview, hfrom, hstop⟩ := exists_import_place h hn hdecl
  have hedits : f.editsAt required n = f.additionsAt required n := by
    rw [editsAt, pruningAt_of_streams hdecl hbinds.moduleName, List.append_nil]
  -- the import `q` comes of `p` by the edits `mid`
  have hwrites : ∀ (fore mid : List Edit) (q : ImportPhrase), f.additionsAt required n = fore ++ mid →
      (∀ c ∈ fore, c.span.stop ≤ n.start) → (∀ c ∈ mid, n.start < c.span.stop) → q.Sound →
      Patched n.start (join p.lexemes) mid (join q.lexemes) → (q.view 0).Binds x y b →
      ∃ u, f.ahead? required n.start = some u ∧ o.Writes u x y b := by
    intro fore mid q heq hfore hbehind hq hmid hqb
    have hall : f.editsAt required n = fore ++ (mid ++ []) := by rw [hedits, heq, List.append_nil]
    obtain ⟨u, hplace⟩ :=
      exists_in_place hf hpatched hn hall hfrom (Nat.le_refl _) hstop hfore hmid (by simp)
    obtain ⟨v, ho⟩ := hplace.output
    exact ⟨u, hplace.ahead?_eq hf hall (by simpa using hbehind), q, v, hq, ho, hqb⟩
  have hsame : (p.view 0).Binds x y b := by
    rw [hview, p.binds_iff] at hbinds
    exact hbinds
  rcases additionsAt_cases required hf hn with ⟨-, hnone⟩ | ⟨-, hadds⟩
  · exact hwrites [] [] p hnone (by simp) (by simp) hp (.done _ _) hsame
  · generalize f.additionsAt required n = es at hadds hwrites
    cases hadds with
    | nothing => exact hwrites [] [] p rfl (by simp) (by simp) hp (.done _ _) hsame
    | extended hmissing _ hd hm htype hb =>
        cases hdecl.symm.trans hd
        obtain ⟨q, hq, hmid, hkept, -⟩ := exists_extended hwords hmissing hp hview hm htype hb
        refine hwrites [] _ q rfl (by simp) ?_ hq hmid (hkept x y b hbinds)
        intro c hc
        rw [List.mem_singleton.mp hc]
        exact start_lt_extension hf hn hdecl hb _
    | inserted =>
        refine hwrites _ [] p (List.append_nil _).symm ?_ (by simp) hp (.done _ _) hsame
        intro c hc
        rw [List.mem_singleton.mp hc]
        exact Nat.le_refl _

/-- **A missing name is written in the result**, in an import that binds it as it is: the one it is added
to, or a new one. -/
theorem writes_added (h : parse? d t = .ok f) (hwords : ∀ x ∈ required.names, IsWord x)
    (hne : f.statements ≠ [])
    (hpatched : Patched 0 f.text (f.statements.flatMap (f.editsAt required)) o) {x : Text}
    (hx : x ∈ f.missing required) : ∃ u, f.aheadOfAddition? required = some u ∧ o.Writes u x x false := by
  have hf := parse?_importable h
  obtain ⟨n, hn, hplace, hadds⟩ := exists_addsAt required hne
  have hedits : f.editsAt required n = [] ++ ((f.additions required).edits ++ f.pruningAt n) := by
    rw [List.nil_append, editsAt, additionsAt, if_pos hplace]
  generalize (f.additions required).edits = es at hadds hedits
  cases hadds with
  | nothing hmissing =>
      rw [hmissing] at hx
      cases hx
  | @extended e b hmissing ht hd hm htype hb =>
      obtain ⟨p, w, hp, hview, hfrom, hstop⟩ := exists_import_place h hn hd
      obtain ⟨q, hq, hmid, -, hadded⟩ := exists_extended hwords hmissing hp hview hm htype hb
      rw [pruningAt_of_streams hd hm] at hedits
      obtain ⟨u, hin⟩ := exists_in_place hf hpatched hn hedits hfrom (Nat.le_refl _) hstop (by simp)
        hmid (by simp)
      obtain ⟨v, ho⟩ := hin.output
      refine ⟨u, ?_, q, v, hq, ho, hadded x hx⟩
      rw [aheadOfAddition?, ht]
      show f.ahead? required e.node.start = some u
      rw [(importDecl?_eq_some hd).node]
      refine hin.ahead?_eq hf hedits ?_
      intro c hc
      rw [List.append_nil, List.mem_singleton] at hc
      rw [hc]
      exact start_lt_extension hf hn hd hb _
  | inserted hmissing ht =>
      obtain ⟨q, hq, heq, hbinds⟩ := exists_statement hwords hmissing
      have hchild := (List.mem_filter.mp hn).1
      have hborder := (hf.wellFormed.borders n
        (Node.mem_preorder.mpr (.inr (Node.mem_descendants_of_child hchild)))).1
      obtain ⟨a, w, hw, hsize⟩ := Text.isBorder_iff.mp hborder
      have hlt := hf.wellFormed.tree.fits.nonempty n hchild
      have haft : ∀ c ∈ f.pruningAt n, n.start ≤ c.span.start := fun c hc =>
        ((pruningAt_staysAt hf hn).2 c hc).1.start
      -- the new import takes no text away
      obtain ⟨u, hin⟩ := exists_in_place hf hpatched hn hedits (z := []) ⟨a, hw, hsize⟩
        (Nat.le_refl _) (Nat.le_of_lt hlt) (by simp) ((Patched.done n.start []).insert _) haft
      obtain ⟨v, ho⟩ := hin.output
      rw [additionPlace, ht] at hplace
      refine ⟨u, ?_, q, ((if f.importLayout.semicolon then [';'] else []) ++ f.text.lineBreak) ++ v, hq, ?_,
        hbinds x hx⟩
      · rw [aheadOfAddition?, ht]
        exact hin.slice?_eq hf ht hplace
      · rw [ho, List.append_nil, heq]
        simp only [List.append_assoc]

/-- A file without statements gets an import in front of everything. -/
theorem writes_first (hwords : ∀ x ∈ required.names, IsWord x) (hnone : f.statements = [])
    (happlied : (f.importChange required).edits.applied? f.text = some o) {x : Text}
    (hx : x ∈ f.missing required) : ∃ u, f.aheadOfAddition? required = some u ∧ o.Writes u x x false := by
  have himports : ∀ m, f.importsFrom m = [] := by
    intro m
    refine List.eq_nil_iff_forall_not_mem.mpr fun e he => ?_
    obtain ⟨n, hn, -⟩ := mem_statements_of_mem_importsFrom he
    rw [hnone] at hn
    cases hn
  have hanchor : f.anchor = 0 := by
    have hfirst : f.firstStatement? = none := by
      rw [firstStatement?, List.find?_eq_none.mpr, Option.map_none]
      exact List.filter_eq_nil_iff.mp hnone
    rw [anchor, himports, hfirst]
    rfl
  have ht : f.target? = none := by
    rw [target?, himports]
    rfl
  have hmissing : f.missing required ≠ [] := List.ne_nil_of_mem hx
  obtain ⟨q, hq, heq, hbinds⟩ := exists_statement hwords hmissing
  have hedits : (f.importChange required).edits =
      [.insertion 0 (f.importLayout.statement Vocabulary.streams (f.missing required))] := by
    have hcase := (f.additions_cases required).1
    rw [importChange_edits, prunings_edits, himports, List.flatMap_nil, List.append_nil]
    generalize (f.additions required).edits = es at hcase
    cases hcase with
    | nothing h => exact absurd h hmissing
    | extended _ ht' => cases ht.symm.trans ht'
    | inserted => rw [hanchor]
  have hpatched := (Patched.done 0 f.text).insert
    (f.importLayout.statement Vocabulary.streams (f.missing required))
  rw [hedits, hpatched.applied?_eq] at happlied
  refine ⟨[], ?_, q, ((if f.importLayout.semicolon then [';'] else []) ++ f.text.lineBreak) ++ f.text, hq,
    ?_, hbinds x hx⟩
  · rw [aheadOfAddition?, ht, hanchor]
    exact Text.slice?_eq_some_iff.mpr ⟨[], f.text, rfl, rfl, rfl⟩
  · rw [← Option.some.inj happlied, heq, List.nil_append, List.append_assoc]

/-! ## Names that are provided -/

/-- A required name is missing when no import binds it. -/
theorem mem_missing {x : Text} (hx : x ∈ required.names)
    (h : ∀ e ∈ f.imports, ∀ y b, ¬ e.Binds x y b) : x ∈ f.missing required := by
  refine List.mem_filter.mpr ⟨hx, ?_⟩
  rw [Bool.not_eq_true', List.any_eq_false]
  intro e he himports
  obtain ⟨hmem, hm⟩ := List.mem_filter.mp he
  obtain ⟨y, b, hbinds⟩ := (ImportDecl.imports_iff (by simpa using hm)).mp himports
  exact h e hmem y b hbinds

/-- **An import that binds a name is found in the result.** -/
theorem importsAt_kept (hf : parse? d t = .ok f) (hwords : ∀ x ∈ required.names, IsWord x)
    (happlied : (f.importChange required).edits.applied? f.text = some o) {e : ImportDecl} {x y : Text}
    {b : Bool} (he : e ∈ f.imports) (hbinds : e.Binds x y b) :
    ∃ u, f.ahead? required e.node.start = some u ∧ o.ImportsAt d u x y b := by
  have himport := parse?_importable hf
  obtain ⟨n, hn, hdecl⟩ := List.mem_filterMap.mp he
  have hmem := (importDecl?_eq_some hdecl).mem_statements hn
  obtain ⟨o', hpatched⟩ := exists_patched_editsAt required himport
  cases happlied.symm.trans (applied?_of_patched himport (List.ne_nil_of_mem hmem) hpatched)
  obtain ⟨u, hu, hwrites⟩ := writes_kept hf hwords hpatched he hbinds
  exact ⟨u, hu, hwrites.importsAt d⟩

/-- **A missing name is found in the result.** -/
theorem importsAt_added (hf : parse? d t = .ok f) (hwords : ∀ x ∈ required.names, IsWord x)
    (happlied : (f.importChange required).edits.applied? f.text = some o) {x : Text}
    (hx : x ∈ f.missing required) :
    ∃ u, f.aheadOfAddition? required = some u ∧ o.ImportsAt d u x x false := by
  have himport := parse?_importable hf
  by_cases hnone : f.statements = []
  · obtain ⟨u, hu, hwrites⟩ := writes_first hwords hnone happlied hx
    exact ⟨u, hu, hwrites.importsAt d⟩
  · obtain ⟨o', hpatched⟩ := exists_patched_editsAt required himport
    cases happlied.symm.trans (applied?_of_patched himport hnone hpatched)
    obtain ⟨u, hu, hwrites⟩ := writes_added hf hwords hnone hpatched hx
    exact ⟨u, hu, hwrites.importsAt d⟩

/-- **A file that starts with its imports binds what it bound** once they are made to fit, **and the names
that were missing.** -/
theorem Prefaced.exists_bound (hpre : f.Prefaced) (hf : parse? d t = .ok f)
    (hwords : ∀ x ∈ required.names, IsWord x) :
    ∃ o g, (f.importChange required).edits.applied? f.text = some o ∧ parse? d o = .ok g ∧
      (∀ x y b, f.Binds x y b → g.Binds x y b) ∧ ∀ x ∈ f.missing required, g.Binds x x false := by
  obtain ⟨o, g, ho, hg, -, hall⟩ := hpre.exists_fitted hf hwords
  refine ⟨o, g, ho, hg, ?_, ?_⟩
  · rintro x y b ⟨e, he, hbinds⟩
    obtain ⟨n, hn, hdecl⟩ := List.mem_filterMap.mp he
    have hat := importDecl?_eq_some hdecl
    obtain ⟨ps, hyields, hps⟩ := hall n (hat.mem_statements hn)
    obtain ⟨q, hq, hqb⟩ := hyields.keeps e x y b hdecl (hat.binds_iff.mp hbinds)
    obtain ⟨e', he', k, hview⟩ := hps q hq
    exact binds_of_view he' hview hqb
  · intro x hx
    obtain ⟨n, hn, hplace, -⟩ := exists_addsAt required hpre.nonempty
    obtain ⟨ps, hyields, hps⟩ := hall n hn
    obtain ⟨q, hq, hqb⟩ := hyields.adds hplace x hx
    obtain ⟨e', he', k, hview⟩ := hps q hq
    exact binds_of_view he' hview hqb

/-- Without edits no name is missing. -/
theorem missing_eq_nil (hnone : (f.importChange required).edits = []) : f.missing required = [] := by
  by_contra hmissing
  have hcase := (f.additions_cases required).1
  rw [importChange_edits, List.append_eq_nil_iff] at hnone
  rw [hnone.1] at hcase
  cases hcase with
  | nothing h => exact hmissing h

/-- **A file whose imports are left as they are or come first binds what it bound and what was missing**
once they are made to fit. -/
theorem exists_bound (hf : parse? d t = .ok f) (hwords : ∀ x ∈ required.names, IsWord x)
    (happlied : (f.importChange required).edits.applied? f.text = some o)
    (hpre : (f.importChange required).edits ≠ [] → f.Prefaced) :
    ∃ g, parse? d o = .ok g ∧ (∀ x y b, f.Binds x y b → g.Binds x y b) ∧
      ∀ x ∈ f.missing required, g.Binds x x false := by
  by_cases hnone : (f.importChange required).edits = []
  · rw [hnone, Edits.applied?_nil, parse?_text hf] at happlied
    cases happlied
    refine ⟨f, hf, fun x y b h => h, ?_⟩
    rw [missing_eq_nil hnone]
    simp
  · obtain ⟨o', g, ho', hg, hall⟩ := (hpre hnone).exists_bound hf hwords
    cases happlied.symm.trans ho'
    exact ⟨g, hg, hall⟩

end SourceFile

/-! ## Helpers of a migration -/

theorem helper_mem_required {r : Conversion} {q : Plan} (hq : q ∈ r.rendering.done) :
    q.helper.name ∈ r.required.names := by
  rw [Conversion.required, NameSet.names_ofList, List.mem_eraseDups]
  refine List.mem_flatMap.mpr ⟨q, hq, ?_⟩
  rw [q.names_eq]
  exact List.mem_append_right _ (List.mem_singleton_self _)

/-- **Every helper that a migration puts in is imported.** An import that names the helper is kept, whatever
it calls it and even if it is for types only; when there is none, the helper is imported under its own
name for values, by an import that is there already or by a new one. The import stands in the text that
comes of the migration behind what is left of the text that was in front of it, and the text binds the
helper by it whenever a statement starts there: so in every text in which the imports are left as they are
or come first. -/
theorem migration_imports_helpers {p : Path} {source o : Text} {counts : MigrationCounts} {g : SourceFile}
    {r : Conversion} (hm : migrate p source = .ok (.converted o counts))
    (hf : parse? p.dialect source = .ok f) (hr : f.conversion? = some r)
    (hg : parse? p.dialect r.text = .ok g) :
    ∀ q ∈ r.rendering.done,
      (∀ e ∈ g.imports, ∀ y b, e.Binds q.helper.name y b →
        (∃ u, g.ahead? r.required e.node.start = some u ∧
          o.ImportsAt p.dialect u q.helper.name y b) ∧
        (((g.importChange r.required).edits ≠ [] → g.Prefaced) →
          ∃ h, parse? p.dialect o = .ok h ∧ h.Binds q.helper.name y b)) ∧
      ((∀ e ∈ g.imports, ∀ y b, ¬ e.Binds q.helper.name y b) →
        (∃ u, g.aheadOfAddition? r.required = some u ∧
          o.ImportsAt p.dialect u q.helper.name q.helper.name false) ∧
        (((g.importChange r.required).edits ≠ [] → g.Prefaced) →
          ∃ h, parse? p.dialect o = .ok h ∧ h.Binds q.helper.name q.helper.name false)) := by
  intro q hq
  have happlied := applied?_of_migrate hm hf hr hg
  have hwords := isWord_required r
  constructor
  · intro e he y b hbinds
    refine ⟨SourceFile.importsAt_kept hg hwords happlied he hbinds, fun hpre => ?_⟩
    obtain ⟨h, hh, hkept, -⟩ := SourceFile.exists_bound hg hwords happlied hpre
    exact ⟨h, hh, hkept _ y b ⟨e, he, hbinds⟩⟩
  · intro hfree
    have hmissing := SourceFile.mem_missing (helper_mem_required hq) hfree
    refine ⟨SourceFile.importsAt_added hg hwords happlied hmissing, fun hpre => ?_⟩
    obtain ⟨h, hh, -, hadded⟩ := SourceFile.exists_bound hg hwords happlied hpre
    exact ⟨h, hh, hadded _ hmissing⟩

/-- A file without semicolons that imports from the module of the helpers behind another import. -/
def extendedFile : Text := "import x from 'y'\nimport { of } from 'rxjs'\na.toPromise()\n".toList

/-- The same file once its site is converted. -/
def extendedFileConverted : Text := "import x from 'y'\nimport { of } from 'rxjs'\nlastValueFrom(a)\n".toList

/-- What comes of migrating it. -/
def extendedFileMigrated : Text :=
  "import x from 'y'\nimport { of, lastValueFrom } from 'rxjs'\nlastValueFrom(a)\n".toList

set_option maxRecDepth 100000 in
/-- A helper that no import names is added to the import of its module. -/
theorem migration_imports_last :
    migrate Path.inline extendedFile = .ok (.converted extendedFileMigrated ⟨⟨1, 1, 0⟩, ⟨1, 0, 0⟩⟩) ∧
      extendedFileMigrated.ImportsAt Path.inline.dialect "import x from 'y'\n".toList
        Vocabulary.lastValueFrom Vocabulary.lastValueFrom false ∧
      ∃ h, parse? Path.inline.dialect extendedFileMigrated = .ok h ∧
        h.Binds Vocabulary.lastValueFrom Vocabulary.lastValueFrom false := by
  have hm : migrate Path.inline extendedFile =
      .ok (.converted extendedFileMigrated ⟨⟨1, 1, 0⟩, ⟨1, 0, 0⟩⟩) := by decide +kernel
  obtain ⟨f, hf, hconverted⟩ : ∃ f, parse? Path.inline.dialect extendedFile = .ok f ∧
      f.conversion?.map (fun r => (r.text, r.rendering.done.map Plan.helper, r.required.names)) =
        some (extendedFileConverted, [.lastValue], [Vocabulary.lastValueFrom]) :=
    exists_of_parse _ (by decide +kernel) fun _ h => h
  obtain ⟨r, hr, heq⟩ := Option.map_eq_some_iff.mp hconverted
  obtain ⟨htext, heq⟩ := Prod.mk.inj heq
  obtain ⟨hhelpers, hrequired⟩ := Prod.mk.inj heq
  obtain ⟨q, hq, hhelper⟩ : ∃ q ∈ r.rendering.done, q.helper = .lastValue :=
    List.mem_map.mp (by rw [hhelpers]; exact List.mem_singleton_self _)
  obtain ⟨g, hg, hpre, hfree, hahead⟩ : ∃ g, parse? Path.inline.dialect extendedFileConverted = .ok g ∧
      g.Prefaced ∧
      (∀ e ∈ g.importsFrom Vocabulary.streams, e.imports Vocabulary.lastValueFrom = false) ∧
      g.aheadOfAddition? (.ofList [Vocabulary.lastValueFrom]) = some "import x from 'y'\n".toList :=
    exists_of_parse _ (by decide +kernel) fun _ h => h
  rw [← htext] at hg
  have himported := (migration_imports_helpers hm hf hr hg q hq).2
  rw [hhelper] at himported
  obtain ⟨⟨u, hu, hat⟩, hbound⟩ := himported (by
    intro e he y b hbinds
    have hnone := hfree e (List.mem_filter.mpr ⟨he, by simpa using hbinds.1⟩)
    cases hnone.symm.trans ((ImportDecl.imports_iff hbinds.1).mpr ⟨y, b, hbinds⟩))
  have hset : r.required = .ofList [Vocabulary.lastValueFrom] := by
    cases hnames : r.required
    rw [hnames] at hrequired
    cases hrequired
    rfl
  rw [hset, hahead] at hu
  cases hu
  exact ⟨hm, hat, hbound fun _ => hpre⟩

set_option maxRecDepth 100000 in
/-- A helper that is imported for types only is not imported again. -/
theorem migration_keeps_import_of_type :
    migrate Path.inline "import type { lastValueFrom } from \"rxjs\";\na.toPromise();\n".toList =
        .ok (.converted "import type { lastValueFrom } from \"rxjs\";\nlastValueFrom(a);\n".toList
          ⟨⟨1, 1, 0⟩, ⟨0, 0, 0⟩⟩) ∧
      ∃ h, parse? Path.inline.dialect
          "import type { lastValueFrom } from \"rxjs\";\nlastValueFrom(a);\n".toList = .ok h ∧
        ∀ e ∈ h.importsFrom Vocabulary.streams, e.typeOnly = true := by
  refine ⟨by decide +kernel, ?_⟩
  exact exists_of_parse _ (by decide +kernel) fun _ h => h

end Promisify
