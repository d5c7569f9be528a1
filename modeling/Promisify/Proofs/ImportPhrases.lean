import Mathlib.Data.Option.Basic
import Promisify.Import
import Promisify.Proofs.Lexemes

set_option autoImplicit false

/-! # Imports written out

An import statement as it is written: its lexemes, grouped the way the grammar reads them. Reading
takes an import apart into such a phrase, and every phrase is read as an import again, whatever text
follows its semicolon.
-/

namespace Promisify

open Lexer Lexeme

/-! ## Parsers on lexemes -/

namespace Parser

variable {t : Text} {p q : Parser} {ps : List Parser} {s s' : State} {ns : List Node}
  {l : Lexeme} {ls ms ks : List Lexeme}

/-- Offered the lexemes `ls` and then `ms`, the parser reads `ls`. -/
def Accepts (p : Parser) (ls ms : List Lexeme) : Prop :=
  ∀ (t : Text) (s : State) (v : Text), Offers t s (ls ++ ms) v →
    ∃ ns s', p s = .ok ns s' ∧ Offers t s' ms v

/-- Offered the lexemes `ms`, the parser is stuck. -/
def Refuses (p : Parser) (ms : List Lexeme) : Prop :=
  ∀ (t : Text) (s : State) (v : Text), Offers t s ms v → ∃ far, p s = .stuck far

namespace Accepts

theorem pass (ns : List Node) : Accepts (pass ns) [] ms := fun _ s _ h => ⟨ns, s, rfl, h⟩

theorem andThen (hp : Accepts p ls (ms ++ ks)) (hq : Accepts q ms ks) :
    Accepts (andThen p q) (ls ++ ms) ks := by
  intro t s v h
  rw [List.append_assoc] at h
  obtain ⟨ns₁, s₁, h₁, ho₁⟩ := hp t s v h
  obtain ⟨ns₂, s₂, h₂, ho₂⟩ := hq t s₁ v ho₁
  exact ⟨ns₁ ++ ns₂, s₂, by simp only [Parser.andThen, h₁, h₂], ho₂⟩

theorem cons (hp : Accepts p ls (ms ++ ks)) (hps : Accepts (all ps) ms ks) :
    Accepts (all (p :: ps)) (ls ++ ms) ks := by
  cases ps with
  | cons q qs => exact hp.andThen hps
  | nil =>
      intro t s v h
      rw [List.append_assoc] at h
      obtain ⟨ns₁, s₁, h₁, ho₁⟩ := hp t s v h
      obtain ⟨ns₂, s₂, h₂, ho₂⟩ := hps t s₁ v ho₁
      cases h₂
      exact ⟨ns₁, s₁, h₁, ho₂⟩

theorem nil : Accepts (all []) [] ms := .pass []

/-- A parser that reads one lexeme, and the parsers after it. -/
theorem first (hp : Accepts p [l] (ms ++ ks)) (hps : Accepts (all ps) ms ks) :
    Accepts (all (p :: ps)) (l :: ms) ks := hp.cons hps

/-- A parser that reads nothing, and the parsers after it. -/
theorem skip (hp : Accepts p [] (ms ++ ks)) (hps : Accepts (all ps) ms ks) :
    Accepts (all (p :: ps)) ms ks := hp.cons hps

/-- A choice that is settled by the lexemes ahead. -/
theorem look_eq {f : State → Parser}
    (h : ∀ (t : Text) (s : State) (v : Text), Offers t s (ls ++ ms) v → f s = p)
    (hp : Accepts p ls ms) : Accepts (Parser.look f) ls ms := by
  intro t s v ho
  obtain ⟨ns, s', hp', ho'⟩ := hp t s v ho
  exact ⟨ns, s', by rw [← hp', ← h t s v ho]; rfl, ho'⟩

theorem look {f : State → Parser}
    (h : ∀ (t : Text) (s : State) (v : Text), Offers t s (ls ++ ms) v → Accepts (f s) ls ms) :
    Accepts (look f) ls ms := fun t s v ho => h t s v ho t s v ho

theorem node {k : Kind} (hp : Accepts p ls ms) : Accepts (node k p) ls ms := by
  intro t s v h
  obtain ⟨ns, s', hp', ho⟩ := hp t s v h
  exact ⟨[.mk k none s.start s'.prevStop ns], s', by simp only [Parser.node, hp'], ho⟩

theorem role {f : Field} (hp : Accepts p ls ms) : Accepts (role f p) ls ms := by
  intro t s v h
  obtain ⟨ns, s', hp', ho⟩ := hp t s v h
  exact ⟨ns.map (Node.withField (some f)), s', by simp only [Parser.role, hp'], ho⟩

theorem orElse (hp : Accepts p ls ms) : Accepts (orElse p q) ls ms := by
  intro t s v h
  obtain ⟨ns, s', hp', ho⟩ := hp t s v h
  exact ⟨ns, s', by simp only [Parser.orElse, hp'], ho⟩

theorem orElse_of_refuses (hp : Refuses p (ls ++ ms)) (hq : Accepts q ls ms) :
    Accepts (Parser.orElse p q) ls ms := by
  intro t s v h
  obtain ⟨far, hp'⟩ := hp t s v h
  obtain ⟨ns, s', hq', ho⟩ := hq t _ v (h.withFar far)
  exact ⟨ns, s', by simp only [Parser.orElse, hp', hq'], ho⟩

theorem opt (hp : Accepts p ls ms) : Accepts (opt p) ls ms := hp.orElse

/-- An option is passed over where it cannot be read. -/
theorem opt_of_refuses (hp : Refuses p ms) : Accepts (Parser.opt p) [] ms :=
  orElse_of_refuses hp (.pass [])

theorem leaf (k : Kind) : Accepts (leaf k) [l] ms := fun _ s _ h => ⟨_, s.advance, rfl, h.advance⟩

theorem token {tok : Token} (h : l.token = tok) : Accepts (token tok) [l] ms := by
  intro t s v ho
  exact ⟨[], s.advance, by simp [Parser.token, ho.tok, h], ho.advance⟩

theorem punct {x : Punct} (h : l.token = .punct x) : Accepts (punct x) [l] ms := .token h

theorem word {w : Word} (h : l.token = .word w) : Accepts (word w) [l] ms := .token h

theorem tokenAs {k : Kind} {tok : Token} (h : l.token = tok) : Accepts (tokenAs k tok) [l] ms := by
  refine .look fun t s v ho => ?_
  rw [if_pos (by simp [ho.tok, h])]
  exact .leaf k

theorem name {k : Kind} {w : Word} (h : l.token = .word w) : Accepts (name k) [l] ms := by
  refine .look fun t s v ho => ?_
  simp only [show s.tok = Token.word w from ho.tok.trans h]
  exact .leaf k

theorem oneWord {ws : List Word} {w : Word} (h : l.token = .word w) (hw : ws.contains w = true) :
    Accepts (oneWord ws) [l] ms := by
  refine .look fun t s v ho => ?_
  simp only [show s.tok = Token.word w from ho.tok.trans h, hw, if_true]
  exact .token h

end Accepts

namespace Refuses

theorem token {tok : Token} (h : l.token ≠ tok) : Refuses (token tok) (l :: ms) := by
  intro t s v ho
  have hne : ¬ (s.tok == tok) = true := by simpa [ho.tok] using h
  exact ⟨_, by rw [Parser.token, if_neg hne]⟩

theorem andThen (hp : Refuses p ms) : Refuses (andThen p q) ms := by
  intro t s v ho
  obtain ⟨far, hp'⟩ := hp t s v ho
  exact ⟨far, by simp only [Parser.andThen, hp']⟩

theorem andThen_right (hp : Accepts p ls ms) (hq : Refuses q ms) :
    Refuses (Parser.andThen p q) (ls ++ ms) := by
  intro t s v ho
  obtain ⟨ns, s', hp', ho'⟩ := hp t s v ho
  obtain ⟨far, hq'⟩ := hq t s' v ho'
  exact ⟨far, by simp only [Parser.andThen, hp', hq']⟩

end Refuses

/-! ## What was read -/

theorem opt_cases (h : opt p s = .ok ns s') :
    p s = .ok ns s' ∨ ns = [] ∧ ∃ far, s' = { s with far := far } := by
  rcases orElse_eq_ok h with h | ⟨far, h⟩
  · exact Or.inl h
  · cases h
    exact Or.inr ⟨rfl, far, rfl⟩

theorem token_cases {tok : Token} (h : token tok s = .ok ns s') :
    s.tok = tok ∧ ns = [] ∧ s' = s.advance := by
  unfold token at h
  split at h
  · next heq =>
      cases h
      exact ⟨beq_iff_eq.mp heq, rfl, rfl⟩
  · cases h

theorem passes_token {tok : Token} (hs : s.Sound t) (h : token tok s = .ok ns s')
    (htok : tok ≠ .eof) : ∃ l, l.token = tok ∧ ns = [] ∧ Passes t s [l] s' := by
  obtain ⟨rfl, rfl, rfl⟩ := token_cases h
  obtain ⟨l, hl, hpass⟩ := hs.exists_lexeme htok
  exact ⟨l, hl, rfl, hpass⟩

theorem passes_punct {x : Punct} (hs : s.Sound t) (h : punct x s = .ok ns s') :
    ∃ l, l.token = .punct x ∧ ns = [] ∧ Passes t s [l] s' := passes_token hs h (by simp)

theorem passes_word {w : Word} (hs : s.Sound t) (h : word w s = .ok ns s') :
    ∃ l, l.token = .word w ∧ ns = [] ∧ Passes t s [l] s' := passes_token hs h (by simp)

theorem passes_name {k : Kind} (hs : s.Sound t) (h : name k s = .ok ns s') :
    ∃ l w, l.token = .word w ∧ ns = [.leaf k s.start s.stop] ∧ Passes t s [l] s' := by
  cases heq : s.tok with
  | word w =>
      simp only [name, look, heq] at h
      cases h
      obtain ⟨l, hl, hpass⟩ := hs.exists_lexeme (by simp [heq])
      exact ⟨l, w, hl.trans heq, rfl, hpass⟩
  | _ =>
      simp only [name, look, heq] at h
      cases h

theorem passes_tokenAs {k : Kind} {tok : Token} (hs : s.Sound t) (h : tokenAs k tok s = .ok ns s')
    (htok : tok ≠ .eof) :
    ∃ l, l.token = tok ∧ ns = [.leaf k s.start s.stop] ∧ Passes t s [l] s' := by
  simp only [tokenAs, look] at h
  split at h
  · next heq =>
      cases h
      rw [beq_iff_eq] at heq
      obtain ⟨l, hl, hpass⟩ := hs.exists_lexeme (by simpa [heq] using htok)
      exact ⟨l, hl.trans heq, rfl, hpass⟩
  · cases h

theorem passes_oneWord {ws : List Word} (hs : s.Sound t) (h : oneWord ws s = .ok ns s') :
    ∃ l w, w ∈ ws ∧ l.token = .word w ∧ ns = [] ∧ Passes t s [l] s' := by
  cases heq : s.tok with
  | word w =>
      simp only [oneWord, look, heq] at h
      split at h
      · next hw =>
          obtain ⟨l, hl, hns, hpass⟩ := passes_token hs h (by simp)
          exact ⟨l, w, by simpa using hw, hl, hns, hpass⟩
      · cases h
  | _ =>
      simp only [oneWord, look, heq] at h
      cases h

end Parser

/-! ## One name in braces -/

open Promisify.Parser

/-- The tokens of one name in the braces of an import. -/
inductive SpecifierForm : List Token → Prop
  | name (w : Word) : SpecifierForm [.word w]
  | renamed (w w' : Word) (h : w ≠ .kTypeof) :
      SpecifierForm [.word w, .word .kAs, .word w']
  | quoted (w' : Word) : SpecifierForm [.string, .word .kAs, .word w']
  | marked (m w : Word) (h : m = .kType ∨ m = .kTypeof) : SpecifierForm [.word m, .word w]
  | markedRenamed (m w w' : Word) (h : m = .kType ∨ m = .kTypeof) :
      SpecifierForm [.word m, .word w, .word .kAs, .word w']
  | markedQuoted (w' : Word) : SpecifierForm [.word .kType, .string, .word .kAs, .word w']

theorem SpecifierForm.ne_nil {ls : List Lexeme} (h : SpecifierForm (ls.map Lexeme.token)) : ls ≠ [] := by
  rintro rfl
  rw [List.map_nil] at h
  cases h

namespace Grammar

variable {t : Text} {s s' : State} {ns : List Node} {l : Lexeme} {ls ms : List Lexeme}

theorem startsMarked_of_punct {p : Punct} (h : s.advance.tok = .punct p) :
    startsMarked s = false := by
  unfold startsMarked
  split <;> simp_all

theorem startsMarked_of_string (h : s.tok = .string) : startsMarked s = false := by
  unfold startsMarked
  split <;> simp_all

theorem startsMarked_typeof (h : s.tok = .word .kTypeof) :
    startsMarked s = true ↔ ∃ w, s.advance.tok = .word w := by
  unfold startsMarked
  split <;> simp_all

/-- A name that is renamed to the last word has no mark. -/
theorem startsMarked_renamed {w w' : Word} {p : Punct} (h₁ : s.tok = .word w) (hw : w ≠ .kTypeof)
    (h₂ : s.advance.tok = .word .kAs) (h₃ : s.advance.advance.tok = .word w')
    (h₄ : s.advance.advance.advance.tok = .punct p) : startsMarked s = false := by
  unfold startsMarked
  split
  · split
    · split <;> simp_all
    · rfl
    · simp_all
  · simp_all
  · simp_all
  · simp_all
  · rfl

theorem startsMarked_marked {m w : Word} {p : Punct} (hm : m = .kType ∨ m = .kTypeof)
    (h₁ : s.tok = .word m) (h₂ : s.advance.tok = .word w)
    (h₃ : s.advance.advance.tok = .punct p) : startsMarked s = true := by
  unfold startsMarked
  split
  · split
    · simp_all
    · simp_all
    · rfl
  · rfl
  · rfl
  · rfl
  · rcases hm with rfl | rfl <;> simp_all

theorem startsMarked_markedRenamed {m w w' : Word} (hm : m = .kType ∨ m = .kTypeof)
    (h₁ : s.tok = .word m) (h₂ : s.advance.tok = .word w)
    (h₃ : s.advance.advance.tok = .word .kAs)
    (h₄ : s.advance.advance.advance.tok = .word w') : startsMarked s = true := by
  unfold startsMarked
  split
  · split
    · split <;> simp_all
    · simp_all
    · simp_all
  · rfl
  · rfl
  · rfl
  · rcases hm with rfl | rfl <;> simp_all

theorem startsMarked_markedQuoted (h₁ : s.tok = .word .kType) (h₂ : s.advance.tok = .string) :
    startsMarked s = true := by
  unfold startsMarked
  split <;> simp_all

/-! ### Reading what is written -/

/-- The name that an import is given here. -/
def givenName : Parser := role .localName (name .identifier)

theorem specifierNames_import : specifierNames .importSpecifier = look fun s =>
    match s.tok with
    | .string => andThen (role .name exportedName) (all [word .kAs, givenName])
    | _ => all [role .name (name .identifier), opt (all [word .kAs, givenName])] := rfl

theorem accepts_given {w : Word} {c b : Lexeme} (hc : c.token = .word .kAs)
    (hb : b.token = .word w) : Accepts (all [word .kAs, givenName]) [c, b] ms :=
  .first (.word hc) (.first (Accepts.name hb).role .nil)

theorem accepts_name {w : Word} {a : Lexeme} (ha : a.token = .word w)
    (hl : l.token ≠ .word .kAs) :
    Accepts (specifierNames .importSpecifier) [a] (l :: ms) := by
  rw [specifierNames_import]
  refine .look_eq (p := all [role .name (name .identifier), opt (all [word .kAs, givenName])]) ?_
    (.first (Accepts.name ha).role (.skip (.opt_of_refuses (.andThen (.token hl))) .nil))
  intro t s v ho
  simp only [show s.tok = .word w from ho.tok.trans ha]

theorem accepts_renamed {w w' : Word} {a c b : Lexeme} (ha : a.token = .word w)
    (hc : c.token = .word .kAs) (hb : b.token = .word w') :
    Accepts (specifierNames .importSpecifier) [a, c, b] ms := by
  rw [specifierNames_import]
  refine .look_eq (p := all [role .name (name .identifier), opt (all [word .kAs, givenName])]) ?_
    (.first (Accepts.name ha).role (accepts_given hc hb).opt)
  intro t s v ho
  simp only [show s.tok = .word w from ho.tok.trans ha]

theorem accepts_quoted {w' : Word} {a c b : Lexeme} (ha : a.token = .string)
    (hc : c.token = .word .kAs) (hb : b.token = .word w') :
    Accepts (specifierNames .importSpecifier) [a, c, b] ms := by
  have hname : Refuses (name .identifier) ([a] ++ ([c, b] ++ ms)) := by
    intro t s v ho
    exact ⟨s.blocked false,
      by simp only [name, look, show s.tok = .string from ho.tok.trans ha, fail]⟩
  have hquoted : Accepts (role .name exportedName) [a] ([c, b] ++ ms) :=
    (Accepts.orElse_of_refuses hname (.tokenAs ha)).role
  rw [specifierNames_import]
  refine .look_eq (p := andThen (role .name exportedName) (all [word .kAs, givenName])) ?_
    (hquoted.andThen (accepts_given hc hb))
  intro t s v ho
  simp only [show s.tok = .string from ho.tok.trans ha]

/-- The choice between a name with and one without a mark. -/
theorem accepts_unmarked (hp : Accepts (specifierNames .importSpecifier) ls ms)
    (h : ∀ (t : Text) (s : State) (v : Text), Offers t s (ls ++ ms) v → startsMarked s = false) :
    Accepts (specifier .importSpecifier) ls ms := by
  refine .node (.look_eq ?_ hp)
  intro t s v ho
  rw [if_neg (by simp [h t s v ho])]

theorem accepts_marked {m : Word} {a : Lexeme} (ha : a.token = .word m)
    (hm : m = .kType ∨ m = .kTypeof) (hp : Accepts (specifierNames .importSpecifier) ls ms)
    (h : ∀ (t : Text) (s : State) (v : Text), Offers t s (a :: ls ++ ms) v →
      startsMarked s = true) : Accepts (specifier .importSpecifier) (a :: ls) ms := by
  have hword : Accepts (oneWord [.kType, .kTypeof]) [a] (ls ++ ms) :=
    .oneWord ha (by rcases hm with rfl | rfl <;> decide)
  refine .node (.look_eq ?_ (.first hword hp : Accepts (all [oneWord [.kType, .kTypeof],
    specifierNames .importSpecifier]) (a :: ls) ms))
  intro t s v ho
  rw [if_pos (h t s v ho)]

/-- **A name in braces is read up to the comma or the brace behind it.** -/
theorem accepts_specifier {p : Punct} (h : SpecifierForm (ls.map Lexeme.token))
    (hl : l.token = .punct p) : Accepts (specifier .importSpecifier) ls (l :: ms) := by
  generalize htoks : ls.map Lexeme.token = toks at h
  cases h with
  | name w =>
      obtain ⟨a, rfl, ha⟩ := List.map_eq_singleton_iff.mp htoks
      refine accepts_unmarked (accepts_name ha (by simp [hl])) ?_
      intro t s v ho
      exact startsMarked_of_punct (ho.advance.tok.trans hl)
  | renamed w w' hw =>
      obtain ⟨a, ls, rfl, ha, htoks⟩ := List.map_eq_cons_iff.mp htoks
      obtain ⟨c, ls, rfl, hc, htoks⟩ := List.map_eq_cons_iff.mp htoks
      obtain ⟨b, rfl, hb⟩ := List.map_eq_singleton_iff.mp htoks
      refine accepts_unmarked (accepts_renamed ha hc hb) ?_
      intro t s v ho
      exact startsMarked_renamed (ho.tok.trans ha) hw (ho.advance.tok.trans hc)
        (ho.advance.advance.tok.trans hb) (ho.advance.advance.advance.tok.trans hl)
  | quoted w' =>
      obtain ⟨a, ls, rfl, ha, htoks⟩ := List.map_eq_cons_iff.mp htoks
      obtain ⟨c, ls, rfl, hc, htoks⟩ := List.map_eq_cons_iff.mp htoks
      obtain ⟨b, rfl, hb⟩ := List.map_eq_singleton_iff.mp htoks
      refine accepts_unmarked (accepts_quoted ha hc hb) ?_
      intro t s v ho
      exact startsMarked_of_string (ho.tok.trans ha)
  | marked m w hm =>
      obtain ⟨a, ls, rfl, ha, htoks⟩ := List.map_eq_cons_iff.mp htoks
      obtain ⟨b, rfl, hb⟩ := List.map_eq_singleton_iff.mp htoks
      refine accepts_marked ha hm (accepts_name hb (by simp [hl])) ?_
      intro t s v ho
      exact startsMarked_marked hm (ho.tok.trans ha) (ho.advance.tok.trans hb)
        (ho.advance.advance.tok.trans hl)
  | markedRenamed m w w' hm =>
      obtain ⟨a, ls, rfl, ha, htoks⟩ := List.map_eq_cons_iff.mp htoks
      obtain ⟨b, ls, rfl, hb, htoks⟩ := List.map_eq_cons_iff.mp htoks
      obtain ⟨c, ls, rfl, hc, htoks⟩ := List.map_eq_cons_iff.mp htoks
      obtain ⟨d, rfl, hd⟩ := List.map_eq_singleton_iff.mp htoks
      refine accepts_marked ha hm (accepts_renamed hb hc hd) ?_
      intro t s v ho
      exact startsMarked_markedRenamed hm (ho.tok.trans ha) (ho.advance.tok.trans hb)
        (ho.advance.advance.tok.trans hc) (ho.advance.advance.advance.tok.trans hd)
  | markedQuoted w' =>
      obtain ⟨a, ls, rfl, ha, htoks⟩ := List.map_eq_cons_iff.mp htoks
      obtain ⟨b, ls, rfl, hb, htoks⟩ := List.map_eq_cons_iff.mp htoks
      obtain ⟨c, ls, rfl, hc, htoks⟩ := List.map_eq_cons_iff.mp htoks
      obtain ⟨d, rfl, hd⟩ := List.map_eq_singleton_iff.mp htoks
      refine accepts_marked ha (Or.inl rfl) (accepts_quoted hb hc hd) ?_
      intro t s v ho
      exact startsMarked_markedQuoted (ho.tok.trans ha) (ho.advance.tok.trans hb)

/-! ### Writing out what was read -/

theorem passes_given (hs : s.Sound t) (h : all [word .kAs, givenName] s = .ok ns s') :
    ∃ c b w n, c.token = .word .kAs ∧ b.token = .word w ∧ Passes t s [c, b] s' ∧
      ns = [n] ∧ n.field = some .localName ∧ t.span? n.span = some b.body := by
  obtain ⟨ns₁, s₁, ns₂, h₁, h₂, rfl⟩ := andThen_eq_ok h
  obtain ⟨c, hc, rfl, hpass₁⟩ := passes_word hs h₁
  obtain ⟨ms, hname, rfl⟩ := role_eq_ok h₂
  obtain ⟨b, w, hb, rfl, hpass₂⟩ := passes_name hpass₁.sound hname
  exact ⟨c, b, w, _, hc, hb, hpass₁.trans hpass₂, rfl, rfl, hpass₂.offers.span?⟩

theorem passes_quotedName (hs : s.Sound t) (hstring : s.tok = .string)
    (h : exportedName s = .ok ns s') :
    ∃ a, a.token = .string ∧ ns = [.leaf .string s.start s.stop] ∧ Passes t s [a] s' := by
  rcases orElse_eq_ok h with h' | ⟨far, h'⟩
  · simp only [name, look, hstring, fail] at h'
    cases h'
  · obtain ⟨a, ha, hns, hpass⟩ := passes_tokenAs (hs.withFar far) h' (by simp)
    exact ⟨a, ha, hns, hpass.ofFar hs⟩

/-- The nodes `ns` show the names that are written with the lexemes `ls`: the name in the module, and
the name in the file if another one is given. -/
inductive NamesShown (t : Text) : List Lexeme → List Node → Prop
  | plain {a : Lexeme} {n : Node} {w : Word} (ha : a.token = .word w) (hn : n.field = some .name)
      (htext : t.span? n.span = some a.body) : NamesShown t [a] [n]
  | given {a c b : Lexeme} {n m : Node} {w : Word} (ha : a.token = .string ∨ ∃ w, a.token = .word w)
      (hc : c.token = .word .kAs) (hb : b.token = .word w) (hn : n.field = some .name)
      (htext : t.span? n.span = some a.body) (hm : m.field = some .localName)
      (htext' : t.span? m.span = some b.body) : NamesShown t [a, c, b] [n, m]

/-- What is read as the names of an import. -/
theorem passes_specifierNames (hs : s.Sound t)
    (h : specifierNames .importSpecifier s = .ok ns s') :
    ∃ ls, Passes t s ls s' ∧ NamesShown t ls ns := by
  rw [specifierNames_import] at h
  by_cases hstring : s.tok = .string
  · simp only [look, hstring] at h
    obtain ⟨ns₁, s₁, ns₂, hrole, hgiven, rfl⟩ := andThen_eq_ok h
    obtain ⟨ns₀, hname, rfl⟩ := role_eq_ok hrole
    obtain ⟨a, ha, rfl, hpass₁⟩ := passes_quotedName hs hstring hname
    obtain ⟨c, b, w, m, hc, hb, hpass₂, rfl, hm, htext⟩ := passes_given hpass₁.sound hgiven
    exact ⟨_, hpass₁.trans hpass₂, .given (Or.inl ha) hc hb rfl hpass₁.offers.span? hm htext⟩
  · have h' : all [role .name (name .identifier), opt (all [word .kAs, givenName])] s = .ok ns s' := by
      rw [← h]
      simp only [look]
    obtain ⟨ns₁, s₁, ns₂, hrole, hgiven, rfl⟩ := andThen_eq_ok h'
    obtain ⟨ns₀, hname, rfl⟩ := role_eq_ok hrole
    obtain ⟨a, w, ha, rfl, hpass₁⟩ := passes_name hs hname
    rcases opt_cases hgiven with hgiven | ⟨rfl, far, rfl⟩
    · obtain ⟨c, b, w', m, hc, hb, hpass₂, rfl, hm, htext⟩ := passes_given hpass₁.sound hgiven
      exact ⟨_, hpass₁.trans hpass₂,
        .given (Or.inr ⟨w, ha⟩) hc hb rfl hpass₁.offers.span? hm htext⟩
    · exact ⟨_, hpass₁.trans (.refl hpass₁.sound far), .plain ha rfl hpass₁.offers.span?⟩

end Grammar

/-- The name in the module and the name in the file, of one name in braces: a mark comes first, and
`as` comes before another name. -/
def Lexeme.pair : List Lexeme → Text × Text
  | [a] => (a.body.withoutQuotes, a.body.withoutQuotes)
  | [_, a] => (a.body.withoutQuotes, a.body.withoutQuotes)
  | [a, _, b] => (a.body.withoutQuotes, b.body)
  | [_, a, _, b] => (a.body.withoutQuotes, b.body)
  | _ => ([], [])

namespace Grammar

variable {t : Text} {s s' : State} {ns : List Node} {l : Lexeme} {ls ms : List Lexeme}

/-- The name in braces at a node is the one that the nodes in it show. -/
theorem NamesShown.importedName?_eq (h : NamesShown t ls ns) (root : Node) (a b : Nat) :
    (SourceFile.mk t root).importedName? (.mk .importSpecifier none a b ns) =
      some ⟨.mk .importSpecifier none a b ns, (Lexeme.pair ls).1, (Lexeme.pair ls).2⟩ := by
  cases h with
  | plain ha hn htext =>
      simp [SourceFile.importedName?, Node.kind, Node.child?, Node.children, hn, SourceFile.textOf,
        htext, Lexeme.pair]
  | given ha hc hb hn htext hm htext' =>
      simp [SourceFile.importedName?, Node.kind, Node.child?, Node.children, hn, hm,
        SourceFile.textOf, htext, htext', Lexeme.pair]

/-- **What is read as one name in braces is written as one**, and its node shows it. -/
theorem passes_specifier (hs : s.Sound t) (h : specifier .importSpecifier s = .ok ns s') :
    ∃ ls, Passes t s ls s' ∧ SpecifierForm (ls.map Lexeme.token) ∧
      ∃ n, ns = [n] ∧ n.start = s.start ∧ n.stop = s'.prevStop ∧
        ∀ root, (SourceFile.mk t root).importedName? n =
          some ⟨n, (Lexeme.pair ls).1, (Lexeme.pair ls).2⟩ := by
  obtain ⟨ms, hread, rfl⟩ := node_eq_ok h
  simp only [look] at hread
  split at hread
  · next hmarked =>
      obtain ⟨ns₁, s₁, ns₂, hmark, hplain, rfl⟩ := andThen_eq_ok hread
      obtain ⟨a, m, hm, ha, rfl, hpass₁⟩ := passes_oneWord hs hmark
      obtain ⟨ls, hpass₂, hshown⟩ := passes_specifierNames hpass₁.sound hplain
      have hpass := hpass₁.trans hpass₂
      have hm' : m = .kType ∨ m = .kTypeof := by simpa using hm
      have hpair : Lexeme.pair ([a] ++ ls) = Lexeme.pair ls := by
        cases hshown with
        | plain => rfl
        | given => rfl
      refine ⟨_, hpass, ?_, _, rfl, rfl, rfl, ?_⟩
      · cases hshown with
        | @plain b _ w hb =>
            simpa [ha, hb] using SpecifierForm.marked m w hm'
        | @given b c d _ _ w' hb hc hd =>
            rcases hb with hb | ⟨w, hb⟩
            · rcases hm' with rfl | rfl
              · simpa [ha, hb, hc, hd] using SpecifierForm.markedQuoted w'
              · -- a string after `typeof` is no mark
                obtain ⟨w, hw⟩ := (startsMarked_typeof (hpass.offers.tok.trans ha)).mp hmarked
                rw [hpass.offers.advance.tok, hb] at hw
                cases hw
            · simpa [ha, hb, hc, hd] using SpecifierForm.markedRenamed m w w' hm'
      · intro root
        rw [hpair]
        exact hshown.importedName?_eq root _ _
  · next hunmarked =>
      obtain ⟨ls, hpass, hshown⟩ := passes_specifierNames hs hread
      refine ⟨ls, hpass, ?_, _, rfl, rfl, rfl, fun root => hshown.importedName?_eq root _ _⟩
      cases hshown with
      | @plain a _ w ha =>
          simpa [ha] using SpecifierForm.name w
      | @given a c b _ _ w' ha hc hb =>
          rcases ha with ha | ⟨w, ha⟩
          · simpa [ha, hb, hc] using SpecifierForm.quoted w'
          · have hw : w ≠ .kTypeof := by
              rintro rfl
              exact hunmarked ((startsMarked_typeof (hpass.offers.tok.trans ha)).mpr
                ⟨_, hpass.offers.advance.tok.trans hc⟩)
            simpa [ha, hb, hc] using SpecifierForm.renamed w w' hw

end Grammar

/-! ## Names in braces -/

/-- The bytes of lexemes that start at the offset `pos`, without what is skipped in front. -/
def Lexeme.spanOf (pos : Nat) (ls : List Lexeme) : Span :=
  ⟨pos + Text.size ((ls.head?.map lead).getD []), pos + Text.size (join ls)⟩

/-- A name in braces: where it stands, its name in the module and its name in the file. -/
structure NameView where
  span : Span
  pair : Text × Text

/-- What a name in braces is, as far as edits look at it. -/
def ImportedName.view (x : ImportedName) : NameView := ⟨x.node.span, x.imported, x.localName⟩

/-- One name in braces whose lexemes start at the offset `pos`. -/
def Lexeme.view (pos : Nat) (ls : List Lexeme) : NameView := ⟨spanOf pos ls, pair ls⟩

/-- Names with the commas between them. -/
structure NameList where
  first : List Lexeme
  more : List (Lexeme × List Lexeme)
  trail : Option Lexeme

namespace NameList

/-- The lexemes of names, each after its comma. -/
def moreLexemes (more : List (Lexeme × List Lexeme)) : List Lexeme := more.flatMap fun p => p.1 :: p.2

/-- The names that come each after its comma, from the offset `pos` on. -/
def moreViews (pos : Nat) : List (Lexeme × List Lexeme) → List NameView
  | [] => []
  | (c, ls) :: more => view (pos + Text.size c.text) ls ::
      moreViews (pos + Text.size c.text + Text.size (join ls)) more

/-- The lexemes of the list. -/
def lexemes (n : NameList) : List Lexeme := n.first ++ (moreLexemes n.more ++ n.trail.toList)

/-- The names in the list, from the offset `pos` on. -/
def views (pos : Nat) (n : NameList) : List NameView :=
  view pos n.first :: moreViews (pos + Text.size (join n.first)) n.more

/-- The tokens are those of names and commas. -/
structure Formed (n : NameList) : Prop where
  first : SpecifierForm (n.first.map Lexeme.token)
  more : ∀ p ∈ n.more, p.1.token = .punct .comma ∧ SpecifierForm (p.2.map Lexeme.token)
  trail : ∀ c ∈ n.trail, c.token = .punct .comma

end NameList

/-- Names in braces. -/
structure Braces where
  opening : Lexeme
  names : Option NameList
  closing : Lexeme

namespace Braces

/-- The lexemes of the names. -/
def inner (b : Braces) : List Lexeme := (b.names.map NameList.lexemes).getD []

/-- The lexemes of the braces and the names. -/
def lexemes (b : Braces) : List Lexeme := b.opening :: (b.inner ++ [b.closing])

/-- The names between the braces, in the module and in the file. -/
def pairs (b : Braces) : List (Text × Text) :=
  (b.names.map fun n => pair n.first :: n.more.map fun p => pair p.2).getD []

/-- The names between the braces, from the offset `pos` on. -/
def views (pos : Nat) (b : Braces) : List NameView :=
  (b.names.map (NameList.views (pos + Text.size b.opening.text))).getD []

/-- The tokens are those of names in braces. -/
structure Formed (b : Braces) : Prop where
  opening : b.opening.token = .punct .lbrace
  names : ∀ n ∈ b.names, n.Formed
  closing : b.closing.token = .punct .rbrace

end Braces

namespace Grammar

open NameList

variable {t : Text} {s s' : State} {ns : List Node} {l : Lexeme} {ls ms ks : List Lexeme} {g : Grammar}

/-! ### Writing out what was read -/

/-- The nodes `ns` of a text show the names `vs` in braces. -/
structure Listed (t : Text) (ns : List Node) (vs : List NameView) : Prop where
  views : ∀ root, (ns.filterMap (SourceFile.mk t root).importedName?).map ImportedName.view = vs

theorem Listed.nil (t : Text) : Listed t [] [] := ⟨fun _ => rfl⟩

theorem Listed.append {ms : List Node} {vs us : List NameView} (h : Listed t ns vs) (h' : Listed t ms us) :
    Listed t (ns ++ ms) (vs ++ us) :=
  ⟨fun root => by rw [List.filterMap_append, List.map_append, h.views, h'.views]⟩

theorem passes_one (hs : s.Sound t) (h : specifier .importSpecifier s = .ok ns s') :
    ∃ ls, Passes t s ls s' ∧ SpecifierForm (ls.map Lexeme.token) ∧ Listed t ns [view s.prevStop ls] := by
  obtain ⟨ls, hpass, hform, n, rfl, hstart, hstop, hname⟩ := passes_specifier hs h
  refine ⟨ls, hpass, hform, ⟨fun root => ?_⟩⟩
  have hspan : n.span = spanOf s.prevStop ls := by
    obtain ⟨l, ls, rfl⟩ := List.exists_cons_of_ne_nil hform.ne_nil
    rw [Node.span, hstart, hstop, hpass.prev, hpass.offers.here.1]
    rfl
  simp [hname root, ImportedName.view, view, hspan]

theorem passes_more (fuel : Nat) (hs : s.Sound t)
    (h : many (andThen (punct .comma) (specifier .importSpecifier)) fuel s = .ok ns s') :
    ∃ more, Passes t s (moreLexemes more) s' ∧
      (∀ p ∈ more, p.1.token = .punct .comma ∧ SpecifierForm (p.2.map Lexeme.token)) ∧
      Listed t ns (moreViews s.prevStop more) := by
  induction fuel generalizing s ns with
  | zero =>
      cases h
      exact ⟨[], .refl hs _, by simp, .nil t⟩
  | succ fuel ih =>
      simp only [many] at h
      split at h
      · next ns₁ s₁ hone =>
          obtain ⟨ns₂, s₂, ns₃, hcomma, hname, rfl⟩ := andThen_eq_ok hone
          obtain ⟨c, hc, rfl, hpass₁⟩ := passes_punct hs hcomma
          obtain ⟨ls, hpass₂, hform, hlisted⟩ := passes_one hpass₁.sound hname
          have hpass := hpass₁.trans hpass₂
          have hprev : s₂.prevStop = s.prevStop + Text.size c.text := by
            simp [hpass₁.prev]
          rw [hprev] at hlisted
          split at h
          · cases h
            exact ⟨[(c, ls)], by simpa [moreLexemes] using hpass, by simp [hc, hform], hlisted⟩
          · split at h
            · next ns₄ s₄ hmany =>
                cases h
                obtain ⟨more, hpass₃, hforms, hmore⟩ := ih hpass₂.sound hmany
                refine ⟨(c, ls) :: more, ?_, ?_, ?_⟩
                · simpa [moreLexemes] using hpass.trans hpass₃
                · intro p hp
                  rcases List.mem_cons.mp hp with rfl | hp
                  · exact ⟨hc, hform⟩
                  · exact hforms p hp
                · rw [hpass₂.prev, hprev] at hmore
                  exact hlisted.append hmore
            · cases h
      · next far hstuck =>
          cases h
          exact ⟨[], .refl hs far, by simp, .nil t⟩

/-- **What is read between braces is written as names with commas between them.** -/
theorem passes_names (fuel : Nat) (hs : s.Sound t)
    (h : commaList (specifier .importSpecifier) fuel s = .ok ns s') :
    ∃ names : Option NameList, Passes t s ((names.map lexemes).getD []) s' ∧
      (∀ n ∈ names, n.Formed) ∧ Listed t ns ((names.map (views s.prevStop)).getD []) := by
  rcases opt_cases h with h | ⟨rfl, far, rfl⟩
  · obtain ⟨ns₁, s₁, ns₂, hnames, htrail, rfl⟩ := andThen_eq_ok h
    obtain ⟨ns₃, s₂, ns₄, hfirst, hmore, rfl⟩ := andThen_eq_ok hnames
    obtain ⟨ls, hpass₁, hform, hlisted⟩ := passes_one hs hfirst
    obtain ⟨more, hpass₂, hforms, hlisted'⟩ := passes_more fuel hpass₁.sound hmore
    rw [hpass₁.prev] at hlisted'
    obtain ⟨trail, hpass₃, hcomma, rfl⟩ : ∃ trail : Option Lexeme, Passes t s₁ trail.toList s' ∧
        (∀ c ∈ trail, c.token = .punct .comma) ∧ ns₂ = [] := by
      rcases opt_cases htrail with htrail | ⟨rfl, far, rfl⟩
      · obtain ⟨c, hc, rfl, hpass₃⟩ := passes_punct hpass₂.sound htrail
        exact ⟨some c, hpass₃, by simp [hc], rfl⟩
      · exact ⟨none, .refl hpass₂.sound far, by simp, rfl⟩
    refine ⟨some ⟨ls, more, trail⟩, hpass₁.trans (hpass₂.trans hpass₃), ?_, ?_⟩
    · rintro n ⟨⟩
      exact ⟨hform, hforms, hcomma⟩
    · rw [List.append_nil]
      exact hlisted.append hlisted'
  · exact ⟨none, .refl hs far, by simp, .nil t⟩

theorem passes_braces (hs : s.Sound t)
    (h : g.specifiers .namedImports .importSpecifier s = .ok ns s') :
    ∃ b : Braces, Passes t s b.lexemes s' ∧ b.Formed ∧
      ∃ n, ns = [n] ∧ n.kind = .namedImports ∧ n.span = spanOf s.prevStop b.lexemes ∧
        Listed t n.children (b.views s.prevStop) := by
  obtain ⟨ms, hread, rfl⟩ := node_eq_ok h
  obtain ⟨ns₁, s₁, ns₂, hopen, hrest, rfl⟩ := andThen_eq_ok hread
  obtain ⟨a, ha, rfl, hpass₁⟩ := passes_punct hs hopen
  obtain ⟨ns₃, s₂, ns₄, hnames, hclose, rfl⟩ := andThen_eq_ok hrest
  obtain ⟨names, hpass₂, hforms, hlisted⟩ := passes_names g.fuel hpass₁.sound hnames
  obtain ⟨b, hb, rfl, hpass₃⟩ := passes_punct hpass₂.sound hclose
  have hpass := hpass₁.trans (hpass₂.trans hpass₃)
  refine ⟨⟨a, names, b⟩, hpass, ⟨ha, hforms, hb⟩, _, rfl, rfl, ?_, ?_⟩
  · have hstart := hpass.offers.here.1
    simp [Node.span, Node.start, Node.stop, spanOf, hstart, hpass.prev, Braces.lexemes, Braces.inner]
  · have hprev : s₁.prevStop = s.prevStop + Text.size a.text := by
      simp [hpass₁.prev]
    rw [hprev] at hlisted
    rw [Node.children, List.nil_append, List.append_nil]
    exact hlisted

/-! ### Reading what is written -/

theorem refuses_specifier {p : Punct} (hl : l.token = .punct p) :
    Refuses (specifier .importSpecifier) (l :: ms) := by
  intro t s v ho
  have htok : s.tok = .punct p := ho.tok.trans hl
  have hmark : startsMarked s = false := by
    unfold startsMarked
    split <;> simp_all
  exact ⟨s.blocked false, by simp [specifier, specifierNames_import, node, look, hmark, htok, all,
    andThen, role, name, fail]⟩

/-- Behind a name comes a comma or a closing brace. -/
theorem exists_separator {more : List (Lexeme × List Lexeme)} {trail : Option Lexeme}
    (hmore : ∀ p ∈ more, p.1.token = .punct .comma ∧ SpecifierForm (p.2.map Lexeme.token))
    (htrail : ∀ c ∈ trail, c.token = .punct .comma) (hl : l.token = .punct .rbrace)
    (ms : List Lexeme) : ∃ a ks p, moreLexemes more ++ (trail.toList ++ l :: ms) = a :: ks ∧ a.token = .punct p := by
  cases more with
  | cons p more => exact ⟨p.1, _, .comma, rfl, (hmore p (by simp)).1⟩
  | nil =>
      cases trail with
      | some c => exact ⟨c, _, .comma, rfl, htrail c rfl⟩
      | none => exact ⟨l, _, .rbrace, rfl, hl⟩

theorem accepts_more {more : List (Lexeme × List Lexeme)} {trail : Option Lexeme} {fuel : Nat}
    (hmore : ∀ p ∈ more, p.1.token = .punct .comma ∧ SpecifierForm (p.2.map Lexeme.token))
    (htrail : ∀ c ∈ trail, c.token = .punct .comma) (hl : l.token = .punct .rbrace)
    (hfuel : more.length ≤ fuel) :
    Accepts (many (andThen (punct .comma) (specifier .importSpecifier)) fuel) (moreLexemes more)
      (trail.toList ++ l :: ms) := by
  induction fuel generalizing more with
  | zero =>
      rw [List.length_eq_zero_iff.mp (Nat.le_zero.mp hfuel)]
      exact .pass []
  | succ fuel ih =>
      intro t s v ho
      cases more with
      | nil =>
          -- a last comma is no comma in front of a name
          have hrefuses : Refuses (andThen (punct .comma) (specifier .importSpecifier))
              (trail.toList ++ l :: ms) := by
            cases trail with
            | none => exact .andThen (.token (by simp [hl]))
            | some c =>
                show Refuses _ ([c] ++ l :: ms)
                exact .andThen_right (.punct (htrail c rfl)) (refuses_specifier hl)
          obtain ⟨far, hstuck⟩ := hrefuses t s v ho
          exact ⟨[], { s with far := far }, by simp only [many, hstuck], ho.withFar far⟩
      | cons p more =>
          obtain ⟨hcomma, hform⟩ := hmore p (by simp)
          have hmore' := fun q hq => hmore q (List.mem_cons_of_mem p hq)
          obtain ⟨a, ks, x, hks, ha⟩ := exists_separator hmore' htrail hl ms
          have hone : Accepts (andThen (punct .comma) (specifier .importSpecifier)) (p.1 :: p.2)
              (moreLexemes more ++ (trail.toList ++ l :: ms)) := by
            rw [hks]
            show Accepts _ ([p.1] ++ p.2) _
            exact .andThen (.punct hcomma) (accepts_specifier hform ha)
          have ho' : Offers t s (p.1 :: p.2 ++ (moreLexemes more ++ (trail.toList ++ l :: ms))) v := by
            simpa [moreLexemes] using ho
          obtain ⟨ns₁, s₁, h₁, ho₁⟩ := hone t s v ho'
          obtain ⟨ns₂, s₂, h₂, ho₂⟩ := ih hmore' (by simpa using hfuel) t s₁ v ho₁
          have hlt : s.prevStop < s₁.prevStop := ho'.prevStop_lt ho₁
          refine ⟨ns₁ ++ ns₂, s₂, ?_, ho₂⟩
          simp only [many, h₁, h₂]
          rw [if_neg (by simp; omega)]

theorem accepts_names {n : NameList} {fuel : Nat} (hn : n.Formed) (hl : l.token = .punct .rbrace)
    (hfuel : n.more.length ≤ fuel) :
    Accepts (commaList (specifier .importSpecifier) fuel) n.lexemes (l :: ms) := by
  obtain ⟨a, ks, p, hks, ha⟩ := exists_separator hn.more hn.trail hl ms
  have hfirst : Accepts (specifier .importSpecifier) n.first
      (moreLexemes n.more ++ (n.trail.toList ++ l :: ms)) := by
    rw [hks]
    exact accepts_specifier hn.first ha
  have htrail : Accepts (opt (punct .comma)) n.trail.toList (l :: ms) := by
    cases hc : n.trail with
    | none => exact .opt_of_refuses (.token (by simp [hl]))
    | some c => exact .opt (.punct (hn.trail c hc))
  have hnames := hfirst.andThen (accepts_more hn.more hn.trail hl hfuel)
  rw [lexemes, ← List.append_assoc]
  exact .opt (hnames.andThen htrail)

/-- **Names in braces are read as such**, whatever follows. -/
theorem accepts_braces {b : Braces} (hb : b.Formed)
    (hfuel : ∀ n ∈ b.names, n.more.length ≤ g.fuel) :
    Accepts (g.specifiers .namedImports .importSpecifier) b.lexemes ms := by
  refine .node (.first (.punct hb.opening) (.cons ?_ (.first (.punct hb.closing) .nil)))
  show Accepts _ b.inner (b.closing :: ms)
  unfold Braces.inner
  cases hn : b.names with
  | some n => exact accepts_names (hb.names n hn) hb.closing (hfuel n hn)
  | none =>
      exact .opt_of_refuses (.andThen (.andThen (refuses_specifier hb.closing)))

end Grammar

end Promisify
