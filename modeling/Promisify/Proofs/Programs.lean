import Mathlib.Data.List.Forall2
import Mathlib.Data.List.TakeWhile
import Promisify.Proofs.Calls
import Promisify.Proofs.Parsing

set_option autoImplicit false

/-! # Programs, statement by statement

A program is read one statement after another, each from the text where it starts. Which statements a
text has is therefore said without offsets (`Statements`): a text can be read exactly when it is made
of statements, and the tree of a file lists their nodes, moved to where they start and with comments
added to them.
-/

namespace Promisify

open Lexer Promisify.Parser

/-! ## One statement is one node -/

/-- Whether a node of the kind is a statement other than an import. -/
def Kind.isOther (k : Kind) : Bool := !([Kind.importStatement, .comment, .hashBangLine].contains k)

namespace Parser

/-- What the parser reads is one node, for a statement other than an import, which starts where the
parser does. -/
def Other (p : Parser) : Prop :=
  ∀ s ns s', p s = .ok ns s' → ∃ n, ns = [n] ∧ n.kind.isOther = true ∧ n.start = s.start

variable {p q : Parser}

theorem Other.node {k : Kind} (hk : k.isOther = true) : Other (node k p) := by
  intro s ns s' h
  obtain ⟨ms, -, rfl⟩ := node_eq_ok h
  exact ⟨_, rfl, hk, rfl⟩

theorem Other.orElse (hp : Other p) (hq : Other q) : Other (orElse p q) := by
  intro s ns s' h
  rcases orElse_eq_ok h with h | ⟨far, h⟩
  · exact hp s ns s' h
  · exact hq { s with far := far } ns s' h

end Parser

namespace Grammar

variable {g : Grammar} {s s' : State} {ns : List Node}

theorem other_expressionStatement : Other g.expressionStatement := .node rfl

theorem other_forStatement : Other g.forStatement := by
  intro s ns s' h
  unfold forStatement at h
  dsimp only at h
  split at h
  · split at h
    · split at h
      · cases h
        exact ⟨_, rfl, rfl, rfl⟩
      · cases h
    · split at h
      · cases h
        exact ⟨_, rfl, rfl, rfl⟩
      · cases h
  · cases h

theorem other_plainDeclaration (w : Word) (next : Token) : Other (g.plainDeclaration w next) := by
  unfold plainDeclaration
  split
  · split
    · exact other_expressionStatement
    · exact .node rfl
  · split
    · exact other_expressionStatement
    · exact .node rfl
  · exact .node rfl
  · exact .node rfl
  · split
    · exact .node rfl
    · exact .node rfl
  · exact .node rfl
  · exact .node rfl
  · exact .node rfl
  · exact .node rfl
  · exact .node rfl
  · exact .node rfl

theorem other_declaration (w : Word) (next : Token) : Other (g.declaration w next) := by
  unfold declaration
  split
  · exact .orElse (.node rfl) other_expressionStatement
  · exact other_plainDeclaration w next

theorem other_exportStatement : Other g.exportStatement := .node rfl

theorem other_decorated : Other g.decorated := by
  intro s ns s' h
  unfold decorated at h
  split at h
  · split at h
    · exact other_exportStatement s ns s' h
    · exact Other.node rfl s ns s' h
  · cases h

theorem wordStatement_cases {w : Word} {next : Token} (h : g.wordStatement w next s = .ok ns s') :
    (g.importStatement s = .ok ns s' ∧ w = .kImport ∧ next ≠ .punct .lparen ∧ next ≠ .punct .dot) ∨
      ∃ n, ns = [n] ∧ n.kind.isOther = true ∧ n.start = s.start := by
  generalize hp : g.wordStatement w next = p at h
  unfold wordStatement at hp
  split at hp
  case h_13 =>
    split at hp
    · subst hp
      exact Or.inr (other_expressionStatement s ns s' h)
    · next hnext =>
        subst hp
        simp only [Bool.or_eq_true, beq_iff_eq, not_or] at hnext
        exact Or.inl ⟨h, rfl, hnext.1, hnext.2⟩
  case h_14 =>
    refine Or.inr ?_
    split at hp
    · subst hp
      exact other_exportStatement s ns s' h
    · subst hp
      exact other_expressionStatement s ns s' h
  case h_15 =>
    refine Or.inr ?_
    split at hp
    · subst hp
      exact other_declaration _ _ s ns s' h
    · subst hp
      exact other_expressionStatement s ns s' h
  case h_2 =>
    subst hp
    exact Or.inr (other_forStatement s ns s' h)
  all_goals
    subst hp
    exact Or.inr (Other.node rfl s ns s' h)

/-- How the next token settles which statement is read. -/
theorem statementRule_eq (g : Grammar) : ∃ p : State → Parser, g.statementRule = look p ∧
    ∀ s, Other (p s) ∨ ∃ w, p s = g.wordStatement w s.advance.tok := by
  refine ⟨_, rfl, ?_⟩
  intro s
  dsimp only
  split
  · exact Or.inl (.orElse (.node rfl) other_expressionStatement)
  · exact Or.inl (.node rfl)
  · exact Or.inl other_decorated
  · next w _ =>
      split
      · exact Or.inl (.node rfl)
      · exact Or.inr ⟨w, rfl⟩
  · exact Or.inl other_expressionStatement

/-- **A statement is an import or one node of another kind.** -/
theorem statementRule_cases (h : g.statementRule s = .ok ns s') :
    g.importStatement s = .ok ns s' ∨ ∃ n, ns = [n] ∧ n.kind.isOther = true ∧ n.start = s.start := by
  obtain ⟨p, heq, hcases⟩ := g.statementRule_eq
  rw [heq, look] at h
  rcases hcases s with hother | ⟨w, hw⟩
  · exact Or.inr (hother s ns s' h)
  · rw [hw] at h
    exact (wordStatement_cases h).imp And.left id

end Grammar

/-! ## Statements of a text -/

variable {d : Dialect} {t v w : Text}

/-- The grammar by whose rules the statements of a text are read. -/
def Grammar.within (d : Dialect) (t : Text) : Grammar :=
  ⟨4 * t.length + 15, d, Grammar.reader d (4 * t.length + 15)⟩

theorem Grammar.statement_forText (d : Dialect) (t : Text) :
    (Grammar.forText d t).statement = (Grammar.within d t).statementRule := rfl

theorem Grammar.expr_within (d : Dialect) (t : Text) (c : Operand) :
    (Grammar.within d t).expr c =
      Grammar.expressionRule ⟨4 * t.length + 14, d, Grammar.reader d (4 * t.length + 14)⟩ c := rfl

/-- The text `v` starts with a statement, which has the node `n`; the text `w` is behind it. -/
def Stated (d : Dialect) (v : Text) (n : Node) (w : Text) : Prop :=
  ∃ s, (Grammar.forText d v).statement (State.initial v) = .ok [n] s ∧ s.gap = w

/-- A statement is not empty. -/
theorem Stated.exists_append {n : Node} (h : Stated d v n w) : ∃ x, v = x ++ w ∧ x ≠ [] := by
  obtain ⟨s, hs, rfl⟩ := h
  obtain ⟨hstep, hlt⟩ := (Grammar.reader_sound d _ _).statement _ _ s (State.initial_sound v) hs
  obtain ⟨x, hx, hsize⟩ := hstep.sound.gap
  refine ⟨x, hx, ?_⟩
  rintro rfl
  simp only [Text.size_nil] at hsize
  omega

theorem Stated.unique {n n' : Node} {w' : Text} (h : Stated d v n w) (h' : Stated d v n' w') :
    n = n' ∧ w = w' := by
  obtain ⟨s, hs, rfl⟩ := h
  obtain ⟨s', hs', rfl⟩ := h'
  rw [hs] at hs'
  cases hs'
  exact ⟨rfl, rfl⟩

theorem Stated.kind_cases {n : Node} (h : Stated d v n w) :
    n.kind = .importStatement ∨ n.kind.isOther = true := by
  obtain ⟨s, hread, -⟩ := h
  rcases Grammar.statementRule_cases hread with himport | ⟨m, hm, hother, -⟩
  · obtain ⟨ms, -, hn⟩ := node_eq_ok himport
    cases hn
    exact Or.inl rfl
  · cases hm
    exact Or.inr hother

/-- A statement starts where it is read from. -/
theorem Stated.start_eq {n : Node} (h : Stated d v n w) (hv : triviaUnit v = 0) : n.start = 0 := by
  have hinitial : (State.initial v).start = 0 := by
    show 0 + Text.size (trivia v).1 = 0
    rw [trivia, Text.munch_of_width_eq_zero hv]
    rfl
  obtain ⟨s, hread, -⟩ := h
  rcases Grammar.statementRule_cases hread with himport | ⟨m, hm, -, hstart⟩
  · obtain ⟨ms, -, hnode⟩ := node_eq_ok himport
    cases hnode
    exact hinitial
  · cases hm
    exact hstart.trans hinitial

/-- A statement: its node, and the text from it on, from whose start the node counts. -/
structure Row where
  text : Text
  node : Node

/-- The text is made of statements. -/
inductive Statements (d : Dialect) : Text → List Row → Prop
  | done {v : Text} (h : (trivia v).2 = []) : Statements d v []
  | next {v w : Text} {n : Node} {rows : List Row} (h : Stated d (trivia v).2 n w)
      (hrest : Statements d w rows) : Statements d v (⟨(trivia v).2, n⟩ :: rows)

namespace Statements

variable {rows : List Row}

theorem unique {rows' : List Row} (h : Statements d v rows) (h' : Statements d v rows') :
    rows = rows' := by
  induction h generalizing rows' with
  | done hnone =>
      cases h' with
      | done => rfl
      | next hstated _ =>
          obtain ⟨x, hx, hne⟩ := hstated.exists_append
          rw [hnone] at hx
          exact absurd (List.append_eq_nil_iff.mp hx.symm).1 hne
  | next hstated _ ih =>
      cases h' with
      | done hnone =>
          obtain ⟨x, hx, hne⟩ := hstated.exists_append
          rw [hnone] at hx
          exact absurd (List.append_eq_nil_iff.mp hx.symm).1 hne
      | next hstated' hrest' =>
          obtain ⟨rfl, rfl⟩ := hstated.unique hstated'
          rw [ih hrest']

/-- Each statement takes at least one character. -/
theorem length_le (h : Statements d v rows) : rows.length ≤ v.length := by
  induction h with
  | done => exact Nat.zero_le _
  | @next v w n rows hstated _ ih =>
      obtain ⟨x, hx, hne⟩ := hstated.exists_append
      have hv := congrArg List.length (Text.munch_append triviaUnit 0 v)
      have hlen := congrArg List.length hx
      have hpos := List.length_pos_iff.mpr hne
      rw [← trivia] at hv
      simp only [List.length_append, List.length_cons] at hv hlen ⊢
      omega

/-- Each statement is read from where nothing is left to skip. -/
theorem stated (h : Statements d v rows) :
    ∀ r ∈ rows, triviaUnit r.text = 0 ∧ ∃ w, Stated d r.text r.node w := by
  induction h with
  | done => simp
  | @next v w n rows hstated _ ih =>
      intro r hr
      rcases List.mem_cons.mp hr with rfl | hr
      · exact ⟨(trivia_skips v 0).2, w, hstated⟩
      · exact ih r hr

theorem kind_cases (h : Statements d v rows) :
    ∀ r ∈ rows, r.node.kind = .importStatement ∨ r.node.kind.isOther = true := by
  induction h with
  | done => simp
  | next hstated _ ih =>
      intro r hr
      rcases List.mem_cons.mp hr with rfl | hr
      · exact hstated.kind_cases
      · exact ih r hr

end Statements

/-! ## Reading statements -/

variable {s s' : State} {ns : List Node}

theorem State.Sound.trivia_gap (hs : s.Sound t) : (trivia s.gap).2 = s.here := by
  obtain ⟨u, cs, old, hgap, -, hskips, -⟩ := hs.skips
  rw [hgap, hskips.trivia_eq hs.unskipped]

theorem Lexer.scan_eof {u r : Text} (h : scan v = ⟨.eof, u, r⟩) : v = [] := by
  unfold scan at h
  split at h
  · rfl
  · split at h
    · split at h <;> cases h
    · split at h
      · cases h
      · split at h
        · split at h <;> cases h
        · split at h
          · split at h <;> cases h
          · split at h
            · split at h <;> cases h
            · cases h
            · cases h

/-- Only the end of the text is read as its end. -/
theorem State.Sound.tok_eq_eof_iff (hs : s.Sound t) : s.tok = .eof ↔ s.here = [] := by
  obtain ⟨u, hscan, -⟩ := hs.scanned
  constructor
  · intro htok
    rw [htok] at hscan
    exact scan_eof hscan
  · intro hhere
    rw [hhere] at hscan
    exact (Scanned.mk.inj hscan).1.symm

/-- Where a row stands in a text that ends with its text. -/
def Row.start (t : Text) (r : Row) : Nat := Text.size t - Text.size r.text

/-- The node of a row at its place in the text. -/
def Row.placed (t : Text) (r : Row) : Node := r.node.shift (r.start t)

theorem Text.From.start_eq {k : Nat} (h : t.From k v) : k = Text.size t - Text.size v := by
  obtain ⟨u, rfl, rfl⟩ := h
  rw [Text.size_append]
  omega

theorem topStatement_eq_ok (h : topStatement d s = .ok ns s') :
    ∃ n, Stated d s.here n s'.gap ∧ ns = [n.shift s.start] := by
  obtain ⟨ms, s₁, hread, rfl, rfl⟩ := afresh_eq_ok h
  have hsingle : ∃ n, ms = [n] := by
    rw [Grammar.statement_forText] at hread
    rcases Grammar.statementRule_cases hread with himport | ⟨n, rfl, -⟩
    · obtain ⟨ms', -, rfl⟩ := node_eq_ok himport
      exact ⟨_, rfl⟩
    · exact ⟨n, rfl⟩
  obtain ⟨n, rfl⟩ := hsingle
  exact ⟨n, ⟨s₁, hread, rfl⟩, rfl⟩

theorem topStatement_of_stated {n : Node} (h : Stated d s.here n w) :
    ∃ ns s', topStatement d s = .ok ns s' ∧ s'.gap = w := by
  obtain ⟨s₁, hread, rfl⟩ := h
  exact ⟨Node.shiftAll s.start [n], s.onward s₁, by simp only [topStatement, afresh, hread], rfl⟩

/-- Nothing more is read at the end of a text. -/
theorem topStatement_stuck (hhere : s.here = []) :
    ∃ far, topStatement d s = .stuck far := by
  cases h : topStatement d s with
  | stuck far => exact ⟨far, rfl⟩
  | ok ns s' =>
      obtain ⟨n, hstated, -⟩ := topStatement_eq_ok h
      obtain ⟨x, hx, hne⟩ := hstated.exists_append
      rw [hhere] at hx
      exact absurd (List.append_eq_nil_iff.mp hx.symm).1 hne

/-- A statement is always a step forward. -/
theorem topStatement_advances (hs : s.Sound t) (h : topStatement d s = .ok ns s') :
    s'.Sound t ∧ ¬ (s'.start ≤ s.start && s'.prevStop ≤ s.prevStop) = true := by
  obtain ⟨hstep, hlt⟩ := takes_topStatement d s ns s' hs h
  have hle := hs.prevStop_le
  have hle' := hstep.sound.prevStop_le
  refine ⟨hstep.sound, ?_⟩
  simp only [Bool.and_eq_true, decide_eq_true_eq]
  omega

/-- **Statements are read one after another** up to the end of the text. -/
theorem many_of_statements {rows : List Row} {fuel : Nat} (hs : s.Sound t)
    (h : Statements d v rows) (hv : s.gap = v) (hfuel : rows.length ≤ fuel) :
    ∃ ns s', many (topStatement d) fuel s = .ok ns s' ∧ s'.tok = .eof := by
  induction h generalizing s fuel with
  | done hnone =>
      rw [← hv, hs.trivia_gap] at hnone
      cases fuel with
      | zero => exact ⟨[], s, rfl, hs.tok_eq_eof_iff.mpr hnone⟩
      | succ fuel =>
          obtain ⟨far, hstuck⟩ := topStatement_stuck (d := d) hnone
          exact ⟨[], { s with far := far }, by simp only [many, hstuck],
            hs.tok_eq_eof_iff.mpr hnone⟩
  | next hstated _ ih =>
      cases fuel with
      | zero => simp at hfuel
      | succ fuel =>
          rw [← hv, hs.trivia_gap] at hstated
          obtain ⟨ns₁, s₁, hread, hgap⟩ := topStatement_of_stated hstated
          obtain ⟨hs₁, hforward⟩ := topStatement_advances hs hread
          obtain ⟨ns₂, s₂, hmany, heof⟩ := ih hs₁ hgap (by simpa using hfuel)
          refine ⟨ns₁ ++ ns₂, s₂, ?_, heof⟩
          simp only [many, hread, hmany]
          rw [if_neg hforward]

/-- **What is read up to the end of the text are its statements.** -/
theorem statements_of_many {fuel : Nat} (hs : s.Sound t)
    (h : many (topStatement d) fuel s = .ok ns s') (heof : s'.tok = .eof) :
    ∃ rows, Statements d s.gap rows ∧ ns = rows.map (Row.placed t) ∧
      ∀ r ∈ rows, t.From (r.start t) r.text := by
  have hend : ∀ s : State, s.Sound t → s.tok = .eof → Statements d s.gap [] := by
    intro s hs htok
    exact .done (by rw [hs.trivia_gap, hs.tok_eq_eof_iff.mp htok])
  induction fuel generalizing s ns with
  | zero =>
      cases h
      exact ⟨[], hend _ hs heof, rfl, by simp⟩
  | succ fuel ih =>
      simp only [many] at h
      split at h
      · next ns₁ s₁ hread =>
          obtain ⟨n, hstated, rfl⟩ := topStatement_eq_ok hread
          obtain ⟨hs₁, hforward⟩ := topStatement_advances hs hread
          rw [if_neg hforward] at h
          split at h
          · next ns₂ s₂ hmany =>
              cases h
              obtain ⟨rows, hrows, rfl, hfrom⟩ := ih hs₁ hmany
              have hstart := hs.here.start_eq
              rw [← hs.trivia_gap] at hstated hstart
              refine ⟨_, .next hstated hrows, ?_, ?_⟩
              · rw [List.map_cons, Row.placed, Row.start, ← hstart]
                rfl
              · intro r hr
                rcases List.mem_cons.mp hr with rfl | hr
                · rw [Row.start, ← hstart, hs.trivia_gap]
                  exact hs.here
                · exact hfrom r hr
          · cases h
      · next far hstuck =>
          cases h
          exact ⟨[], hend _ hs heof, rfl, by simp⟩

/-! ## The first line -/

/-- Whether a text starts with the mark of an interpreter line. -/
def Text.startsHashBang : Text → Bool
  | '#' :: '!' :: _ => true
  | _ => false

/-- The statements of the text `t` are those of `v`, which comes behind `x`: nothing, or a line that
names an interpreter. -/
inductive Opening (t : Text) : Text → Text → Prop
  | plain (h : (trivia t).2.startsHashBang = false) : Opening t [] t
  | interpreter {u line v : Text} (hu : trivia t = (u, line ++ v)) (h : line.startsHashBang = true)
      (hline : '\n' ∉ line) (hv : ∀ c ∈ v.head?, c = '\n') : Opening t (u ++ line) v

theorem Text.exists_of_startsHashBang (h : v.startsHashBang = true) : ∃ r, v = '#' :: '!' :: r := by
  unfold Text.startsHashBang at h
  split at h
  · exact ⟨_, rfl⟩
  · cases h

/-- A text that starts like an interpreter line is no statement. -/
theorem not_stated_of_startsHashBang {n : Node} (h : v.startsHashBang = true) : ¬ Stated d v n w := by
  obtain ⟨r, rfl⟩ := Text.exists_of_startsHashBang h
  rintro ⟨s, hread, -⟩
  have htok : (State.initial ('#' :: '!' :: r)).tok = .unknown := rfl
  have hexpr : ∀ c, ∃ far, (Grammar.within d ('#' :: '!' :: r)).expr c (State.initial ('#' :: '!' :: r)) =
      .stuck far := by
    intro c
    refine ⟨(State.initial ('#' :: '!' :: r)).blocked false, ?_⟩
    simp only [Grammar.expr_within, Grammar.expressionRule, withNode, Grammar.head, look, htok, Grammar.primary, fail]
  obtain ⟨far, hstuck⟩ := hexpr .last
  rw [Grammar.statement_forText] at hread
  simp only [Grammar.statementRule, look, htok, Grammar.expressionStatement, node, all, andThen,
    Grammar.sequence, withNode, hstuck] at hread
  cases hread

theorem Statements.startsHashBang {rows : List Row} (h : Statements d v rows) :
    (trivia v).2.startsHashBang = false := by
  cases h with
  | done hnone =>
      rw [hnone]
      rfl
  | next hstated _ =>
      by_contra hstarts
      exact not_stated_of_startsHashBang (by simpa using hstarts) hstated

/-- A line up to its end. -/
theorem span_line {line : Text} (hline : '\n' ∉ line) (hv : ∀ c ∈ v.head?, c = '\n') :
    (line ++ v).span (· != '\n') = (line, v) := by
  have hall : ∀ c ∈ line, (c != '\n') = true := by
    intro c hc
    rw [bne_iff_ne]
    rintro rfl
    exact hline hc
  have hnone : v.takeWhile (· != '\n') = [] ∧ v.dropWhile (· != '\n') = v := by
    cases v with
    | nil => exact ⟨rfl, rfl⟩
    | cons c v =>
        have hc : c = '\n' := hv c rfl
        subst hc
        exact ⟨rfl, rfl⟩
  rw [List.span_eq_takeWhile_dropWhile, List.takeWhile_append_of_pos hall,
    List.dropWhile_append_of_pos hall, hnone.1, hnone.2, List.append_nil]

/-- **What opens a program is passed over**, and the statements are read from there. -/
theorem hashBang_of_opening {x : Text} (hs : s.Sound t) (h : Opening s.gap x v) :
    ∃ ns s', hashBang s = .ok ns s' ∧ s'.gap = v := by
  have hhere := hs.trivia_gap
  cases h with
  | plain hstarts =>
      rw [hhere] at hstarts
      refine ⟨[], s, ?_, rfl⟩
      unfold hashBang
      split
      · next hmark =>
          rw [hmark] at hstarts
          cases hstarts
      · rfl
  | @interpreter u line v hu hstarts hline hv =>
      rw [hu] at hhere
      refine ⟨[.leaf .hashBangLine s.start (s.start + Text.size line)], s.retake line v, ?_, rfl⟩
      unfold hashBang
      split
      · rw [← hhere, span_line hline hv]
      · next hmark =>
          unfold Text.startsHashBang at hstarts
          split at hstarts
          · next r =>
              exact absurd hhere.symm (hmark (r ++ v))
          · cases hstarts

theorem opening_of_hashBang (hs : s.Sound t) (h : hashBang s = .ok ns s') :
    ∃ x, Opening s.gap x s'.gap ∧ (∀ n ∈ ns, n.kind = .hashBangLine) ∧
      ∀ n ∈ ns, n.Callless := by
  have hhere := hs.trivia_gap
  unfold hashBang at h
  split at h
  · next r hmark =>
      rw [List.span_eq_takeWhile_dropWhile] at h
      cases h
      have hsplit := List.takeWhile_append_dropWhile (p := (· != '\n')) (l := s.here)
      have hgap : trivia s.gap =
          ((trivia s.gap).1, s.here.takeWhile (· != '\n') ++ s.here.dropWhile (· != '\n')) := by
        rw [hsplit, ← hhere]
      refine ⟨_, .interpreter hgap ?_ ?_ ?_, by simp [Node.leaf, Node.kind], ?_⟩
      · rw [hmark]
        rfl
      · intro hmem
        simpa using List.mem_takeWhile_imp hmem
      · intro c hc
        have hdrop := List.head?_dropWhile_not (· != '\n') s.here
        rw [show (s.here.dropWhile (· != '\n')).head? = some c from hc] at hdrop
        simpa using hdrop
      · intro n hn
        rw [List.mem_singleton.mp hn]
        exact Node.callless_leaf (by decide) _ _
  · next hmark =>
      cases h
      refine ⟨[], .plain ?_, by simp, by simp⟩
      rw [hhere]
      unfold Text.startsHashBang
      split
      · next r hr => exact absurd hr (hmark r)
      · rfl

theorem Opening.append_eq {x : Text} (h : Opening t x v) : t = x ++ v := by
  cases h with
  | plain => rfl
  | @interpreter u line v hu =>
      have hsplit := Text.munch_append triviaUnit 0 t
      rw [← trivia, hu] at hsplit
      rw [List.append_assoc]
      exact hsplit.symm

/-! ## Comments -/

namespace Node

/-- The node `n` is the node `m` with comments added to it. -/
def Annotates (m n : Node) : Prop := ∃ cs : List Span, n = cs.foldr addComment m

namespace Annotates

variable {m n : Node}

theorem refl (m : Node) : Annotates m m := ⟨[], rfl⟩

theorem addComment (h : Annotates m n) (c : Span) : Annotates m (addComment c n) := by
  obtain ⟨cs, rfl⟩ := h
  exact ⟨c :: cs, rfl⟩

theorem outline_eq (h : Annotates m n) : n.outline = m.outline := by
  obtain ⟨cs, rfl⟩ := h
  induction cs with
  | nil => rfl
  | cons c cs ih => rw [List.foldr_cons, outline_addComment, ih]

theorem kind_eq (h : Annotates m n) : n.kind = m.kind := (outline_eq_iff.mp h.outline_eq).1

theorem start_eq (h : Annotates m n) : n.start = m.start := (outline_eq_iff.mp h.outline_eq).2.2.1

theorem stop_eq (h : Annotates m n) : n.stop = m.stop := (outline_eq_iff.mp h.outline_eq).2.2.2

theorem span_eq (h : Annotates m n) : n.span = m.span := by
  rw [span, span, h.start_eq, h.stop_eq]

theorem child?_cases (h : Annotates m n) (f : Field) :
    (n.child? f = none ∧ m.child? f = none) ∨
      ∃ a b, n.child? f = some b ∧ m.child? f = some a ∧ Annotates a b := by
  obtain ⟨cs, rfl⟩ := h
  induction cs with
  | nil =>
      cases hm : m.child? f with
      | none => exact Or.inl ⟨hm, rfl⟩
      | some a => exact Or.inr ⟨a, a, hm, rfl, refl a⟩
  | cons c cs ih =>
      rw [List.foldr_cons]
      rcases child?_addComment_cases c (cs.foldr Node.addComment m) f with hsame | ⟨b, hb, hadded⟩
      · rw [hsame]
        exact ih
      · rcases ih with ⟨hnone, -⟩ | ⟨a, b', hb', ha, hab⟩
        · rw [hnone] at hb
          cases hb
        · cases hb.symm.trans hb'
          exact Or.inr ⟨a, Node.addComment c b, hadded, ha, hab.addComment c⟩

/-- A node of the tree with comments is a comment or comes of a node of the tree. -/
theorem exists_original (h : Annotates m n) {x : Node} (hx : x ∈ n.preorder) (hk : x.kind ≠ .comment) :
    ∃ y ∈ m.preorder, Annotates y x := by
  obtain ⟨cs, rfl⟩ := h
  induction cs generalizing x with
  | nil => exact ⟨x, hx, refl x⟩
  | cons c cs ih =>
      obtain ⟨y, hy, rfl | rfl⟩ := exists_of_mem_preorder_addComment hx hk
      · exact ih hk hy
      · rw [((refl y).addComment c).kind_eq] at hk
        obtain ⟨z, hz, hzy⟩ := ih hk hy
        exact ⟨z, hz, hzy.addComment c⟩

/-- Each node of the tree is there with comments. -/
theorem exists_annotated (h : Annotates m n) {y : Node} (hy : y ∈ m.preorder) :
    ∃ x ∈ n.preorder, Annotates y x := by
  obtain ⟨cs, rfl⟩ := h
  induction cs with
  | nil => exact ⟨y, hy, refl y⟩
  | cons c cs ih =>
      obtain ⟨x, hx, hyx⟩ := ih
      obtain ⟨z, hz, rfl | rfl⟩ := exists_mem_preorder_addComment (c := c) hx
      · exact ⟨z, hz, hyx⟩
      · exact ⟨Node.addComment c x, hz, hyx.addComment c⟩

/-- Among the children of some kinds a new comment only shows inside them. -/
theorem addCommentAmong {q : Kind → Bool} (hq : q .comment = false) (c : Span) {ms cs : List Node}
    (h : List.Forall₂ Annotates ms (cs.filter fun n => q n.kind)) :
    List.Forall₂ Annotates ms ((addCommentAmong c cs).filter fun n => q n.kind) := by
  induction cs generalizing ms with
  | nil => simpa [Node.addCommentAmong, leaf, kind, hq] using h
  | cons n ns ih =>
      have hleaf : q (leaf .comment c.start c.stop).kind = false := hq
      have hsame : (Node.addComment c n).kind = n.kind := ((refl n).addComment c).kind_eq
      rw [Node.addCommentAmong]
      by_cases hn : q n.kind = true
      · simp only [List.filter_cons, hn, if_true] at h
        obtain ⟨m, ms, hm, hms, rfl⟩ := List.forall₂_cons_right_iff.mp h
        split
        · simp only [List.filter_cons, hsame, hn, if_true]
          exact .cons (hm.addComment c) hms
        · split
          · simpa [List.filter_cons, hleaf, hn] using ⟨hm, hms⟩
          · simp only [List.filter_cons, hn, if_true]
            exact .cons hm (ih hms)
      · have hn' : q n.kind = false := by simpa using hn
        simp only [List.filter_cons, hn', Bool.false_eq_true, if_false] at h
        split
        · simpa [List.filter_cons, hsame, hn'] using h
        · split
          · simpa [List.filter_cons, hleaf, hn'] using h
          · simpa [List.filter_cons, hn'] using ih h

/-- The children of some kinds are those of the node without the comments, with comments added. -/
theorem children (h : Annotates m n) {q : Kind → Bool} (hq : q .comment = false) :
    List.Forall₂ Annotates (m.children.filter fun c => q c.kind)
      (n.children.filter fun c => q c.kind) := by
  obtain ⟨cs, rfl⟩ := h
  induction cs with
  | nil => exact List.forall₂_same.mpr fun a _ => refl a
  | cons c cs ih =>
      rw [List.foldr_cons, children_addComment]
      exact addCommentAmong hq c ih

/-- The last child of some kinds is that of the node without the comments, with comments added. -/
theorem lastOf_cases (h : Annotates m n) (kinds : List Kind) (hkinds : kinds.contains .comment = false) :
    (SourceFile.lastOf kinds m = none ∧ SourceFile.lastOf kinds n = none) ∨
      ∃ a b, SourceFile.lastOf kinds m = some a ∧ SourceFile.lastOf kinds n = some b ∧ Annotates a b := by
  have hall := List.forall₂_reverse_iff.mpr (h.children hkinds)
  unfold SourceFile.lastOf
  rw [List.getLast?_eq_head?_reverse, List.getLast?_eq_head?_reverse]
  generalize (m.children.filter fun c => kinds.contains c.kind).reverse = ms at hall ⊢
  generalize (n.children.filter fun c => kinds.contains c.kind).reverse = ns at hall ⊢
  cases hall with
  | nil => exact Or.inl ⟨rfl, rfl⟩
  | cons hab _ => exact Or.inr ⟨_, _, rfl, rfl, hab⟩

end Annotates

end Node

/-! ## Files -/

/-- Whether a node of the kind is a statement. -/
def Kind.isStatement (k : Kind) : Bool := !(k == .comment || k == .hashBangLine)

theorem Kind.isStatement_of_cases {k : Kind} (h : k = .importStatement ∨ k.isOther = true) :
    k.isStatement = true := by
  rcases h with rfl | h
  · rfl
  · simp only [isOther, Bool.not_eq_true', List.contains_eq_mem, decide_eq_false_iff_not,
      List.mem_cons, List.not_mem_nil, or_false, not_or] at h
    simp [isStatement, h]

/-- The statements of a file that are not part of another one. -/
def SourceFile.statements (f : SourceFile) : List Node :=
  f.root.children.filter fun n => n.kind.isStatement

/-- The node `n` of the text `t` is that of the row, at its place and with comments. -/
structure Row.Shows (t : Text) (r : Row) (n : Node) : Prop where
  place : t.From (r.start t) r.text
  node : Node.Annotates (r.placed t) n

theorem Row.Shows.start_eq {r : Row} {n : Node} (h : r.Shows t n) (hstated : Stated d r.text r.node w)
    (hunit : triviaUnit r.text = 0) : n.start = r.start t := by
  rw [h.node.start_eq, Row.placed, Node.start_shift, hstated.start_eq hunit, Nat.add_zero]

/-- What a member of the second list is related to. -/
theorem exists_related {α β : Type} {R : α → β → Prop} {as : List α} {bs : List β} {b : β}
    (h : List.Forall₂ R as bs) (hb : b ∈ bs) : ∃ a ∈ as, R a b := by
  induction h with
  | nil => cases hb
  | @cons a c as bs hac _ ih =>
      rcases List.mem_cons.mp hb with rfl | hb
      · exact ⟨a, List.mem_cons_self, hac⟩
      · obtain ⟨a', ha', hab⟩ := ih hb
        exact ⟨a', List.mem_cons_of_mem a ha', hab⟩

variable {f : SourceFile} {rows : List Row}

/-- **A text made of statements is read.** -/
theorem exists_parse_of_statements {x : Text} (hopen : Opening t x v) (h : Statements d v rows) :
    ∃ f, parse? d t = .ok f := by
  have hs := State.initial_sound t
  obtain ⟨ns₁, s₁, hbang, hgap⟩ := hashBang_of_opening hs hopen
  have hs₁ := (reads_hashBang _ ns₁ s₁ hs hbang).sound
  have hfuel : rows.length ≤ Grammar.depth t.length := by
    have hrows := h.length_le
    have hlen := congrArg List.length hopen.append_eq
    rw [List.length_append] at hlen
    unfold Grammar.depth
    omega
  obtain ⟨ns₂, s₂, hmany, heof⟩ := many_of_statements hs₁ h hgap hfuel
  have hprogram : program d t (State.initial t) = .ok (ns₁ ++ (ns₂ ++ [])) s₂.advance := by
    simp [program, all, andThen, hbang, hmany, token, heof]
  unfold parse?
  rw [hprogram]
  exact ⟨_, rfl⟩

/-- The file is made of the statements `rows`: its text is, its tree lists them, and its calls are in
them. -/
structure SourceFile.MadeOf (d : Dialect) (f : SourceFile) (rows : List Row) : Prop where
  read : ∃ x v, Opening f.text x v ∧ Statements d v rows
  shown : List.Forall₂ (Row.Shows f.text) rows f.statements
  calls : ∀ n ∈ f.root.preorder, n.kind = .callExpression →
    ∃ r ∈ rows, ∃ m ∈ (r.placed f.text).preorder, m.Annotates n

/-- The calls of a program are in its rows when nothing else in it has calls. -/
theorem Node.Annotates.exists_row {ns : List Node} {root : Node}
    (h : Node.Annotates (.mk .program none 0 (Text.size t) (ns ++ (rows.map (Row.placed t) ++ []))) root)
    (hns : ∀ n ∈ ns, n.Callless) : ∀ n ∈ root.preorder, n.kind = .callExpression →
      ∃ r ∈ rows, ∃ m ∈ (r.placed t).preorder, m.Annotates n := by
  intro n hn hcall
  obtain ⟨m, hm, hmn⟩ := h.exists_original hn (by rw [hcall]; decide)
  have hmcall := hmn.kind_eq.symm.trans hcall
  rcases Node.mem_preorder.mp hm with rfl | hm
  · cases hmcall
  · obtain ⟨c, hc, hmc⟩ := Node.mem_descendants.mp hm
    rw [Node.children, List.append_nil] at hc
    rcases List.mem_append.mp hc with hc | hc
    · exact absurd hmcall (hns c hc m hmc)
    · obtain ⟨r, hr, rfl⟩ := List.mem_map.mp hc
      exact ⟨r, hr, m, hmc, hmn⟩

/-- **A file that was read is made of statements.** -/
theorem parse?_madeOf (h : parse? d t = .ok f) : ∃ rows, f.MadeOf d rows := by
  unfold parse? at h
  split at h
  · next ns s hprogram =>
      cases h
      have hs := State.initial_sound t
      obtain ⟨ns₁, s₁, ns₂, hbang, hrest, rfl⟩ := andThen_eq_ok hprogram
      obtain ⟨ns₃, s₂, ns₄, hmany, hend, rfl⟩ := andThen_eq_ok hrest
      obtain ⟨heof, rfl, -⟩ := token_cases hend
      have hs₁ := (reads_hashBang _ ns₁ s₁ hs hbang).sound
      obtain ⟨x, hopen, hlines, hquiet⟩ := opening_of_hashBang hs hbang
      obtain ⟨rows, hrows, rfl, hfrom⟩ := statements_of_many hs₁ hmany heof
      have hroot : Node.Annotates (.mk .program none 0 (Text.size t)
          (ns₁ ++ (rows.map (Row.placed t) ++ []))) _ := ⟨s.comments, rfl⟩
      refine ⟨rows, ⟨x, s₁.gap, hopen, hrows⟩, ?_, hroot.exists_row hquiet⟩
      have hall := hroot.children (q := Kind.isStatement) rfl
      have hfilter : ((ns₁ ++ (rows.map (Row.placed t) ++ [])).filter
          fun n => n.kind.isStatement) = rows.map (Row.placed t) := by
        rw [List.append_nil, List.filter_append, List.filter_eq_nil_iff.mpr, List.nil_append]
        · apply List.filter_eq_self.mpr
          intro n hn
          obtain ⟨r, hr, rfl⟩ := List.mem_map.mp hn
          rw [Row.placed, Node.kind_shift]
          exact Kind.isStatement_of_cases (hrows.kind_cases r hr)
        · intro n hn
          rw [hlines n hn]
          decide
      rw [Node.children, hfilter, List.forall₂_map_left_iff] at hall
      refine List.Forall₂.imp ?_ ((List.forall₂_and_left _ _).mpr ⟨hfrom, hall⟩)
      exact fun r n hrn => ⟨hrn.1, hrn.2⟩
  · cases h

/-- The statements of a text, and the nodes by which the tree of the file lists them. -/
theorem parse?_statements (h : parse? d t = .ok f) :
    ∃ x v rows, Opening t x v ∧ Statements d v rows ∧
      List.Forall₂ (Row.Shows t) rows f.statements := by
  obtain ⟨rows, ⟨x, v, hopen, hrows⟩, hshows, -⟩ := parse?_madeOf h
  rw [parse?_text h] at hopen hshows
  exact ⟨x, v, rows, hopen, hrows, hshows⟩

/-- The text of the statement of a row. -/
def Row.words (r : Row) : Text := (r.text.span? r.node.span).getD []

theorem Row.Shows.textOf {r : Row} {n : Node} (h : r.Shows f.text n) : f.textOf n = r.words := by
  have hspan : n.span = r.node.span.shift (r.start f.text) := by
    rw [h.node.span_eq, Row.placed]
    simp [Node.span, Span.shift]
  rw [SourceFile.textOf, hspan, h.place.span?_shift]
  rfl

/-- The texts of the statements that are no imports, in order. -/
def SourceFile.otherStatements (f : SourceFile) : List Text :=
  (f.statements.filter fun n => n.kind != .importStatement).map f.textOf

theorem SourceFile.otherStatements_eq {ns : List Node} (h : List.Forall₂ (Row.Shows f.text) rows ns) :
    (ns.filter fun n => n.kind != .importStatement).map f.textOf =
      (rows.filter fun r => r.node.kind != .importStatement).map Row.words := by
  induction h with
  | nil => rfl
  | @cons r n rows ns hrn _ ih =>
      have hkind : n.kind = r.node.kind := by
        rw [hrn.node.kind_eq, Row.placed, Node.kind_shift]
      rw [List.filter_cons, List.filter_cons, hkind]
      split
      · rw [List.map_cons, List.map_cons, hrn.textOf, ih]
      · exact ih

end Promisify
