import Promisify.Proofs.ImportStatements
import Promisify.Proofs.Lines
import Promisify.Proofs.Programs

set_option autoImplicit false

/-! # Reading imports

The lexemes of an import can be grouped into a phrase in one way only. So a text that starts with the
lexemes of a phrase is read as the import that the phrase shows, whatever follows: the module it names
ends it, and nothing runs on from a string.
-/

namespace Promisify

open Lexer Lexeme Promisify.Parser

/-! ## The tokens of a phrase -/

/-- A name in braces is written with words and strings. -/
theorem SpecifierForm.cases_mem {toks : List Token} (h : SpecifierForm toks) :
    ∀ tok ∈ toks, (∃ w, tok = .word w) ∨ tok = .string := by
  cases h <;> simp

theorem SpecifierForm.isOfImport {ls : List Lexeme} (h : SpecifierForm (ls.map Lexeme.token)) :
    ∀ l ∈ ls, l.token.isOfImport = true := by
  intro l hl
  rcases h.cases_mem _ (List.mem_map_of_mem hl) with ⟨w, hw⟩ | hstring
  · rw [hw]
    rfl
  · rw [hstring]
    rfl

theorem NameList.Formed.isOfImport {n : NameList} (h : n.Formed) :
    ∀ l ∈ n.lexemes, l.token.isOfImport = true := by
  intro l hl
  simp only [lexemes, moreLexemes, List.mem_append, List.mem_flatMap, List.mem_cons,
    Option.mem_toList] at hl
  rcases hl with hl | ⟨p, hp, rfl | hl⟩ | hl
  · exact h.first.isOfImport l hl
  · rw [(h.more p hp).1]
    rfl
  · exact (h.more p hp).2.isOfImport l hl
  · rw [h.trail l hl]
    rfl

theorem Braces.Formed.isOfImport {b : Braces} (h : b.Formed) :
    ∀ l ∈ b.lexemes, l.token.isOfImport = true := by
  intro l hl
  rcases List.mem_cons.mp hl with rfl | hl
  · rw [h.opening]
    rfl
  · rcases List.mem_append.mp hl with hl | hl
    · cases hn : b.names with
      | none => simp [Braces.inner, hn] at hl
      | some n =>
          rw [Braces.inner, hn] at hl
          exact (h.names n hn).isOfImport l hl
    · rw [List.mem_singleton.mp hl, h.closing]
      rfl

theorem ImportGroup.Formed.isOfImport {g : ImportGroup} (h : g.Formed) :
    ∀ l ∈ g.lexemes, l.token.isOfImport = true := by
  cases h with
  | whole hstar has hname => simp [lexemes, hstar, has, hname, Token.isOfImport]
  | named hb => exact hb.isOfImport

theorem ImportBinding.Formed.isOfImport {b : ImportBinding} (h : b.Formed) :
    ∀ l ∈ b.lexemes, l.token.isOfImport = true := by
  cases h with
  | only hname => simp [lexemes, hname, Token.isOfImport]
  | group hg => exact hg.isOfImport
  | both hname hcomma hg =>
      intro l hl
      rcases List.mem_cons.mp hl with rfl | hl
      · rw [hname]
        rfl
      · rcases List.mem_cons.mp hl with rfl | hl
        · rw [hcomma]
          rfl
        · exact hg.isOfImport l hl

theorem ImportBody.Formed.isOfImport {x : ImportBody} (h : x.Formed) :
    ∀ l ∈ x.lexemes, l.token.isOfImport = true := by
  cases h with
  | bare hsource => simp [lexemes, hsource, Token.isOfImport]
  | @bound mark b word source hmark hb hword hsource =>
      intro l hl
      simp only [lexemes, List.mem_append, Option.mem_toList, List.mem_cons, List.not_mem_nil,
        or_false] at hl
      rcases hl with hl | hl | rfl | rfl
      · rcases hmark l hl with ⟨ha, -⟩ | ⟨ha, -⟩
        · rw [ha]
          rfl
        · rw [ha]
          rfl
      · exact hb.isOfImport l hl
      · rw [hword]
        rfl
      · rw [hsource]
        rfl

theorem ImportPhrase.Formed.isOfImport {p : ImportPhrase} (h : p.Formed) :
    ∀ l ∈ p.lexemes, l.token.isOfImport = true := by
  intro l hl
  rcases List.mem_cons.mp hl with rfl | hl
  · rw [h.opening]
    rfl
  · exact h.body.isOfImport l hl

/-! ## One grouping only -/

/-- A list is split in one way into what comes before the first separator and what comes from it on. -/
theorem split_unique {α : Type} {sep : α → Prop} {xs ys as bs : List α} (hxs : ∀ x ∈ xs, ¬ sep x)
    (hys : ∀ y ∈ ys, ¬ sep y) (has : ∀ a ∈ as.head?, sep a) (hbs : ∀ b ∈ bs.head?, sep b)
    (h : xs ++ as = ys ++ bs) : xs = ys ∧ as = bs := by
  induction xs generalizing ys with
  | nil =>
      cases ys with
      | nil => exact ⟨rfl, h⟩
      | cons y ys =>
          refine absurd (has y ?_) (hys y List.mem_cons_self)
          rw [show as = y :: ys ++ bs from h]
          rfl
  | cons x xs ih =>
      cases ys with
      | nil =>
          refine absurd (hbs x ?_) (hxs x List.mem_cons_self)
          rw [show bs = x :: xs ++ as from h.symm]
          rfl
      | cons y ys =>
          rw [List.cons_append, List.cons_append, List.cons.injEq] at h
          obtain ⟨hrest, htail⟩ := ih (fun z hz => hxs z (List.mem_cons_of_mem x hz))
            (fun z hz => hys z (List.mem_cons_of_mem y hz)) h.2
          exact ⟨by rw [h.1, hrest], htail⟩

theorem SpecifierForm.not_comma {ls : List Lexeme} (h : SpecifierForm (ls.map Lexeme.token)) :
    ∀ l ∈ ls, ¬ l.token = .punct .comma := by
  intro l hl hcomma
  rcases h.cases_mem _ (List.mem_map_of_mem hl) with ⟨w, hw⟩ | hstring
  · rw [hcomma] at hw
    cases hw
  · rw [hcomma] at hstring
    cases hstring

namespace NameList

/-- What comes behind a name in braces starts with a comma. -/
def IsTail (more : List (Lexeme × List Lexeme)) (trail : Option Lexeme) : Prop :=
  (∀ p ∈ more, p.1.token = .punct .comma ∧ SpecifierForm (p.2.map Lexeme.token)) ∧
    ∀ c ∈ trail, c.token = .punct .comma

theorem IsTail.head {more : List (Lexeme × List Lexeme)} {trail : Option Lexeme} (h : IsTail more trail) :
    ∀ c ∈ (moreLexemes more ++ trail.toList).head?, c.token = .punct .comma := by
  intro c hc
  cases more with
  | cons p more =>
      cases hc
      exact (h.1 p List.mem_cons_self).1
  | nil =>
      cases htrail : trail with
      | none =>
          rw [htrail] at hc
          cases hc
      | some d =>
          rw [htrail] at hc
          cases hc
          exact h.2 c htrail

theorem IsTail.unique {more more' : List (Lexeme × List Lexeme)} {trail trail' : Option Lexeme}
    (h : IsTail more trail) (h' : IsTail more' trail')
    (heq : moreLexemes more ++ trail.toList = moreLexemes more' ++ trail'.toList) :
    more = more' ∧ trail = trail' := by
  -- a comma alone comes last, and behind any other comma there is a name
  have hlong : ∀ {p : Lexeme × List Lexeme} {more : List (Lexeme × List Lexeme)} {c trail : Option Lexeme},
      SpecifierForm (p.2.map Lexeme.token) → c.toList ≠ moreLexemes (p :: more) ++ trail.toList := by
    intro p more c trail hform hc
    have hpos := List.length_pos_iff.mpr hform.ne_nil
    have hlen := congrArg List.length hc
    have hone : c.toList.length ≤ 1 := by cases c <;> simp
    simp only [moreLexemes, List.flatMap_cons, List.length_append, List.length_cons] at hlen
    omega
  induction more generalizing more' with
  | nil =>
      cases more' with
      | nil => exact ⟨rfl, by cases trail <;> cases trail' <;> simp_all [moreLexemes]⟩
      | cons p more' => exact absurd heq (hlong (h'.1 p List.mem_cons_self).2)
  | cons p more ih =>
      cases more' with
      | nil => exact absurd heq.symm (hlong (h.1 p List.mem_cons_self).2)
      | cons q more' =>
          obtain ⟨c, ls⟩ := p
          obtain ⟨c', ls'⟩ := q
          have hrest : IsTail more trail := ⟨fun p hp => h.1 p (List.mem_cons_of_mem _ hp), h.2⟩
          have hrest' : IsTail more' trail' := ⟨fun p hp => h'.1 p (List.mem_cons_of_mem _ hp), h'.2⟩
          simp only [moreLexemes, List.flatMap_cons, List.cons_append, List.append_assoc,
            List.cons.injEq] at heq
          obtain ⟨rfl, heq⟩ := heq
          obtain ⟨rfl, htail⟩ := split_unique (h.1 _ List.mem_cons_self).2.not_comma
            (h'.1 _ List.mem_cons_self).2.not_comma hrest.head hrest'.head heq
          obtain ⟨rfl, rfl⟩ := ih hrest hrest' htail
          exact ⟨rfl, rfl⟩

theorem Formed.unique {n m : NameList} (hn : n.Formed) (hm : m.Formed) (h : n.lexemes = m.lexemes) :
    n = m := by
  obtain ⟨first, more, trail⟩ := n
  obtain ⟨first', more', trail'⟩ := m
  have htail : IsTail more trail := ⟨hn.more, hn.trail⟩
  have htail' : IsTail more' trail' := ⟨hm.more, hm.trail⟩
  obtain ⟨rfl, hrest⟩ := split_unique hn.first.not_comma hm.first.not_comma htail.head htail'.head h
  obtain ⟨rfl, rfl⟩ := htail.unique htail' hrest
  rfl

end NameList

theorem Braces.Formed.unique {b c : Braces} (hb : b.Formed) (hc : c.Formed) (h : b.lexemes = c.lexemes) :
    b = c := by
  obtain ⟨opening, names, closing⟩ := b
  obtain ⟨opening', names', closing'⟩ := c
  obtain ⟨rfl, hrest⟩ := List.cons.inj h
  obtain ⟨hinner, hlast⟩ := List.append_inj' hrest rfl
  cases hlast
  have hne : ∀ n : NameList, n.Formed → n.lexemes ≠ [] := by
    intro n hn
    exact List.append_ne_nil_of_left_ne_nil hn.first.ne_nil _
  cases names with
  | none =>
      cases names' with
      | none => rfl
      | some m => exact absurd hinner.symm (hne m (hc.names m rfl))
  | some n =>
      cases names' with
      | none => exact absurd hinner (hne n (hb.names n rfl))
      | some m => rw [(hb.names n rfl).unique (hc.names m rfl) hinner]

theorem ImportGroup.Formed.unique {g k : ImportGroup} (hg : g.Formed) (hk : k.Formed)
    (h : g.lexemes = k.lexemes) : g = k := by
  cases hg with
  | whole hstar has hname =>
      cases hk with
      | whole => cases h; rfl
      | named hb =>
          have htok := hb.opening
          rw [← (List.cons.inj h).1, hstar] at htok
          cases htok
  | named hb =>
      cases hk with
      | whole hstar has hname =>
          have htok := hb.opening
          rw [(List.cons.inj h).1, hstar] at htok
          cases htok
      | named hc => rw [hb.unique hc h]

/-- The first token of a group is no word. -/
theorem ImportGroup.Formed.head {g : ImportGroup} (hg : g.Formed) :
    g.head.token = .punct .star ∨ g.head.token = .punct .lbrace := by
  cases hg with
  | whole hstar => exact Or.inl hstar
  | named hb => exact Or.inr hb.opening

theorem ImportBinding.Formed.unique {b c : ImportBinding} (hb : b.Formed) (hc : c.Formed)
    (h : b.lexemes = c.lexemes) : b = c := by
  have hword : ∀ {name : Lexeme} {w : Word} {ls : List Lexeme} {g : ImportGroup},
      name.token = .word w → g.Formed → name :: ls ≠ g.lexemes := by
    intro name w ls g hname hg heq
    obtain ⟨ms, hms⟩ := g.lexemes_eq
    rw [hms] at heq
    rw [(List.cons.inj heq).1] at hname
    rcases hg.head with hhead | hhead
    · rw [hhead] at hname
      cases hname
    · rw [hhead] at hname
      cases hname
  cases hb with
  | only hname =>
      cases hc with
      | only => cases h; rfl
      | group hg => exact absurd h (hword hname hg)
      | both => cases h
  | group hg =>
      cases hc with
      | only hname => exact absurd h.symm (hword hname hg)
      | group hk => rw [hg.unique hk h]
      | both hname => exact absurd h.symm (hword hname hg)
  | both hname _ hg =>
      cases hc with
      | only => cases h
      | group hk => exact absurd h (hword hname hk)
      | both _ _ hk =>
          obtain ⟨rfl, hrest⟩ := List.cons.inj h
          obtain ⟨rfl, hgroup⟩ := List.cons.inj hrest
          rw [hg.unique hk hgroup]

/-- Where a mark stands in front of one, no binding starts. -/
theorem ImportBinding.Formed.no_mark {b c : ImportBinding} {m l a l' a' : Lexeme} (hb : b.Formed)
    (hc : c.Formed) (h : b.lexemes ++ [l, a] = m :: (c.lexemes ++ [l', a'])) (hm : ∃ w, m.token = .word w) :
    False := by
  obtain ⟨w, hw⟩ := hm
  obtain ⟨ms, hms⟩ := c.lexemes_eq
  cases hb with
  | only =>
      have hlen := congrArg List.length h
      rw [hms] at hlen
      simp [lexemes] at hlen
  | @group g hg =>
      obtain ⟨ls, hls⟩ := g.lexemes_eq
      rw [lexemes, hls, List.cons_append, List.cons.injEq] at h
      rw [← h.1] at hw
      rcases hg.head with hhead | hhead
      · rw [hhead] at hw
        cases hw
      · rw [hhead] at hw
        cases hw
  | both _ hcomma _ =>
      rw [hms, lexemes, List.cons_append, List.cons_append, List.cons.injEq, List.cons_append,
        List.cons.injEq] at h
      have hhead := h.2.1
      cases hc with
      | only hname =>
          rw [hhead] at hcomma
          exact absurd (hname.symm.trans hcomma) (by simp)
      | group hg =>
          rw [hhead] at hcomma
          rcases hg.head with hstar | hbrace
          · exact absurd (hstar.symm.trans hcomma) (by simp)
          · exact absurd (hbrace.symm.trans hcomma) (by simp)
      | both hname =>
          rw [hhead] at hcomma
          exact absurd (hname.symm.trans hcomma) (by simp)

/-- **The lexemes of an import are grouped in one way.** -/
theorem ImportBody.Formed.unique {x y : ImportBody} (hx : x.Formed) (hy : y.Formed)
    (h : x.lexemes = y.lexemes) : x = y := by
  have hword : ∀ {a : Lexeme} {b : ImportBinding}, b.Follows a → ∃ w, a.token = .word w := by
    rintro a b (⟨ha, -⟩ | ⟨ha, -⟩)
    · exact ⟨_, ha⟩
    · exact ⟨_, ha⟩
  have hshort : ∀ {a : Lexeme} {mark : Option Lexeme} {b : ImportBinding} {l s : Lexeme},
      [a] ≠ mark.toList ++ (b.lexemes ++ [l, s]) := by
    intro a mark b l s heq
    have hlen := congrArg List.length heq
    simp only [List.length_append, List.length_cons, List.length_nil] at hlen
    omega
  have hinner : ∀ {b c : ImportBinding} {l s l' s' : Lexeme}, b.Formed → c.Formed →
      b.lexemes ++ [l, s] = c.lexemes ++ [l', s'] → b = c ∧ l = l' ∧ s = s' := by
    intro b c l s l' s' hb hc heq
    obtain ⟨hlexemes, hend⟩ := List.append_inj' heq rfl
    cases hend
    exact ⟨hb.unique hc hlexemes, rfl, rfl⟩
  cases hx with
  | bare =>
      cases hy with
      | bare => cases h; rfl
      | bound => exact absurd h hshort
  | @bound mark b word source hmark hb =>
      cases hy with
      | bare => exact absurd h.symm hshort
      | @bound mark' c word' source' hmark' hc =>
          cases mark with
          | none =>
              cases mark' with
              | none =>
                  obtain ⟨rfl, rfl, rfl⟩ := hinner hb hc h
                  rfl
              | some m => exact (hb.no_mark hc h (hword (hmark' m rfl))).elim
          | some m =>
              cases mark' with
              | none => exact (hc.no_mark hb h.symm (hword (hmark m rfl))).elim
              | some m' =>
                  obtain ⟨rfl, hrest⟩ := List.cons.inj h
                  obtain ⟨rfl, rfl, rfl⟩ := hinner hb hc hrest
                  rfl

theorem ImportPhrase.Formed.unique {p q : ImportPhrase} (hp : p.Formed) (hq : q.Formed)
    (h : p.lexemes = q.lexemes) : p = q := by
  obtain ⟨opening, body⟩ := p
  obtain ⟨opening', body'⟩ := q
  obtain ⟨rfl, hrest⟩ := List.cons.inj h
  exact congrArg (ImportPhrase.mk opening) (hp.body.unique hq.body hrest)

/-- A word of the language is spelt in one way. -/
theorem Word.eq_of_ofText {x y : Text} {w : Word} (hall : ∀ e ∈ Word.table, e.2 = w → e.1 = x)
    (hw : w ≠ .other) (h : Word.ofText y = w) : y = x := by
  unfold Word.ofText at h
  cases hy : Word.table.lookup y with
  | none =>
      rw [hy] at h
      exact absurd h.symm hw
  | some v =>
      rw [hy, Option.getD_some] at h
      obtain ⟨l₁, l₂, htable, -⟩ := List.lookup_eq_some_iff.mp hy
      exact hall (y, v) (by rw [htable]; simp) h

/-! ## Imports as statements -/

theorem Lexeme.length_le_join {ls : List Lexeme} (h : ∀ l ∈ ls, l.Sound) : ls.length ≤ (join ls).length := by
  induction ls with
  | nil => exact Nat.zero_le _
  | cons l ls ih =>
      have hpos : 0 < l.body.length := List.length_pos_iff.mpr (h l List.mem_cons_self).body.ne_nil
      have hrest := ih fun m hm => h m (List.mem_cons_of_mem l hm)
      simp only [join_cons, text, List.length_append, List.length_cons]
      omega

theorem Braces.rank_le (b : Braces) : (b.names.map fun n => n.more.length).getD 0 ≤ b.lexemes.length := by
  cases hn : b.names with
  | none => exact Nat.zero_le _
  | some n =>
      have hmore : n.more.length ≤ (NameList.moreLexemes n.more).length := by
        unfold NameList.moreLexemes
        induction n.more with
        | nil => exact Nat.zero_le _
        | cons p more ih =>
            simp only [List.flatMap_cons, List.length_append, List.length_cons] at ih ⊢
            omega
      simp only [Option.map_some, Option.getD_some, lexemes, inner, hn, NameList.lexemes,
        List.length_cons, List.length_append]
      omega

theorem ImportGroup.rank_le (g : ImportGroup) : g.rank ≤ g.lexemes.length := by
  cases g with
  | whole => exact Nat.zero_le _
  | named b => exact b.rank_le

theorem ImportBinding.rank_le (b : ImportBinding) : b.rank ≤ b.lexemes.length := by
  cases b with
  | only => exact Nat.zero_le _
  | group g => exact g.rank_le
  | both name comma g =>
      have := g.rank_le
      simp only [rank, lexemes, List.length_cons]
      omega

theorem ImportPhrase.rank_le (p : ImportPhrase) : p.body.rank ≤ p.lexemes.length := by
  cases hbody : p.body with
  | bare => exact Nat.zero_le _
  | bound mark b word source =>
      have := b.rank_le
      simp only [ImportBody.rank, lexemes, hbody, ImportBody.lexemes, List.length_cons,
        List.length_append]
      omega

/-- What comes after `import` makes it no expression and no label. -/
theorem ImportBody.Formed.head_cases {x : ImportBody} (h : x.Formed) : ∃ l ls, x.lexemes = l :: ls ∧
    l.token ≠ .punct .colon ∧ l.token ≠ .punct .lparen ∧ l.token ≠ .punct .dot := by
  cases h with
  | bare hsource => exact ⟨_, _, rfl, by simp [hsource]⟩
  | @bound mark b word source hmark hb hword hsource =>
      cases mark with
      | some a =>
          rcases hmark a rfl with ⟨ha, -⟩ | ⟨ha, -⟩
          · exact ⟨a, _, rfl, by simp [ha]⟩
          · exact ⟨a, _, rfl, by simp [ha]⟩
      | none =>
          cases hb with
          | only hname => exact ⟨_, _, rfl, by simp [hname]⟩
          | group hg =>
              cases hg with
              | whole hstar => exact ⟨_, _, rfl, by simp [hstar]⟩
              | named hb => exact ⟨_, _, rfl, by simp [hb.opening]⟩
          | both hname => exact ⟨_, _, rfl, by simp [hname]⟩

theorem ImportBody.getLast?_lexemes (x : ImportBody) : x.lexemes.getLast? = some x.source := by
  cases x with
  | bare => rfl
  | bound mark b word source => simp [lexemes, ImportBody.source]

theorem ImportBody.Formed.source {x : ImportBody} (h : x.Formed) : x.source.token = .string := by
  cases h with
  | bare hsource => exact hsource
  | bound _ _ _ hsource => exact hsource

/-- There is no equals sign among the tokens of an import. -/
theorem ImportBody.Formed.not_startsEquals {x : ImportBody} {t v : Text} {s : State} (hx : x.Formed)
    (ho : Offers t s x.lexemes v) : ¬ Grammar.StartsEquals s := by
  rintro ⟨⟨w, hw⟩, hequals⟩
  have hassign : ∀ l ∈ x.lexemes, l.token ≠ .punct .assign := by
    intro l hl htok
    have himport := hx.isOfImport l hl
    rw [htok] at himport
    cases himport
  cases x with
  | bare source =>
      have htok : s.tok = .string := ho.tok.trans hx.source
      rw [hw] at htok
      cases htok
  | bound mark b word source =>
      obtain ⟨ls, hls⟩ := b.lexemes_eq
      obtain ⟨l₁, l₂, l₃, ms, hms⟩ : ∃ l₁ l₂ l₃ ms,
          (ImportBody.bound mark b word source).lexemes = l₁ :: l₂ :: l₃ :: ms := by
        rw [lexemes, hls]
        cases mark with
        | none =>
            cases ls with
            | nil => exact ⟨_, _, _, _, rfl⟩
            | cons l ls => cases ls <;> exact ⟨_, _, _, _, rfl⟩
        | some m =>
            cases ls with
            | nil => exact ⟨_, _, _, _, rfl⟩
            | cons l ls => exact ⟨_, _, _, _, rfl⟩
      rw [hms] at ho hassign
      rcases hequals with hequals | hequals
      · exact hassign l₂ (by simp) (ho.advance.tok.symm.trans hequals)
      · exact hassign l₃ (by simp) (ho.advance.advance.tok.symm.trans hequals)

/-- An import that can be read anywhere. -/
structure ImportPhrase.Sound (p : ImportPhrase) : Prop where
  formed : p.Formed
  strung : Strung p.lexemes
  lead : p.opening.lead = []

namespace ImportPhrase.Sound

variable {p : ImportPhrase} {d : Dialect} {n : Node} {v w : Text}

/-- The lexemes of an import are read in front of any text. -/
theorem offers (hp : p.Sound) (v : Text) :
    Offers (join p.lexemes ++ v) (State.initial (join p.lexemes ++ v)) p.lexemes v := by
  refine ⟨State.initial_sound _, rfl, hp.strung.spelt ?_⟩
  intro l hl
  have hlast : p.lexemes.getLast? = some p.body.source := by
    rw [lexemes, List.getLast?_cons, p.body.getLast?_lexemes]
    rfl
  rw [hlast] at hl
  cases hl
  rw [hp.formed.body.source]
  trivial

/-- The first two tokens show that a statement is an import. -/
theorem statement_eq (hp : p.Sound) (d : Dialect) (v : Text) :
    (Grammar.forText d (join p.lexemes ++ v)).statement (State.initial (join p.lexemes ++ v)) =
      (Grammar.within d (join p.lexemes ++ v)).importStatement
        (State.initial (join p.lexemes ++ v)) := by
  obtain ⟨l, ls, hls, hcolon, hparen, hdot⟩ := hp.formed.body.head_cases
  have ho := hp.offers v
  rw [lexemes, hls] at ho
  rw [Grammar.statement_forText, lexemes, hls]
  simp only [Grammar.statementRule, look, ho.tok.trans hp.formed.opening, Grammar.wordStatement,
    ho.advance.tok]
  rw [if_neg (by simpa using hcolon), if_neg (by simp [hparen, hdot])]

/-- The import is read up to the module it names. -/
theorem exists_body (hp : p.Sound) (d : Dialect) (v : Text) : ∃ ms s,
    look (Grammar.within d (join p.lexemes ++ v)).importBody
      (State.initial (join p.lexemes ++ v)).advance = .ok ms s ∧
    Offers (join p.lexemes ++ v) s [] v := by
  have hfuel : p.body.rank ≤ (Grammar.within d (join p.lexemes ++ v)).fuel := by
    have hrank := p.rank_le
    have hlen := length_le_join hp.strung.sound
    simp only [Grammar.within, List.length_append]
    omega
  have hread : Accepts (look (Grammar.within d (join p.lexemes ++ v)).importBody) p.body.lexemes [] :=
    Grammar.accepts_importBody hp.formed.body hfuel
  exact hread _ _ v (by rw [List.append_nil]; exact (hp.offers v).advance)

/-- **A statement that starts like an import is this import**, whatever comes behind the module. -/
theorem importDecl? (hp : p.Sound) (h : Stated d (join p.lexemes ++ v) n w) (root : Node) :
    n.kind = .importStatement ∧ n.start = 0 ∧
      ∃ e, (SourceFile.mk (join p.lexemes ++ v) root).importDecl? n = some e ∧ e.node = n ∧
        e.source.stop = Text.size (join p.lexemes) ∧ e.view = p.view 0 := by
  obtain ⟨s, hread, -⟩ := h
  rw [hp.statement_eq] at hread
  obtain ⟨ms, s₁, hbody, ho⟩ := hp.exists_body d v
  have hstart := (hp.offers v).here.1
  obtain ⟨n', hn, hkind, hnstart, -, hcases⟩ :=
    Grammar.passes_importStatement (State.initial_sound _) hread
  cases hn
  refine ⟨hkind, by rw [hnstart, hstart, hp.lead]; rfl, ?_⟩
  rcases hcases with ⟨hequals, -⟩ | ⟨q, ms', s₂, hq, hpass, hbody', -, hdecl⟩
  · exact absurd hequals (hp.formed.body.not_startsEquals (hp.offers v).advance)
  · rw [hbody] at hbody'
    cases hbody'
    have hgap : s₁.gap = v := ho.gap
    have hoffers := hpass.offers
    rw [hgap] at hoffers
    have hjoin : join p.lexemes = join q.lexemes :=
      List.append_cancel_right ((hp.offers v).gap.symm.trans hoffers.gap)
    have heq : q = p := hq.unique hp.formed
      (Spelt.unique hoffers.spelt (hp.offers v).spelt hjoin.symm)
    subst heq
    obtain ⟨e, he, hnode, hstop, hview⟩ := hdecl root
    refine ⟨e, he, hnode, ?_, hview⟩
    rw [hstop, hpass.prev]
    exact Nat.zero_add _

/-- An import without attributes has no calls. -/
theorem callless_importStatement {g : Grammar} {s s' : State} {ms : List Node}
    (h : look g.importBody s = .ok ms s') (a b : Nat) : (Node.mk .importStatement none a b ms).Callless :=
  Node.callless_of_children (by simp [Node.kind]) (Grammar.quiet_importBody s s ms s' h)

/-- **An import with a semicolon right behind it is a statement**, whatever follows. -/
theorem stated_closed (hp : p.Sound) (d : Dialect) (v : Text) :
    ∃ n, Stated d (join p.lexemes ++ ';' :: v) n v ∧ n.stop = Text.size (join p.lexemes) + 1 ∧
      n.Callless := by
  obtain ⟨ms, s, hbody, ho⟩ := hp.exists_body d (';' :: v)
  have hoffers := hp.offers (';' :: v)
  have hsemi : (Token.punct .semi).Stands [';'] := stands_single (by simp)
  have hclosing : Offers (join p.lexemes ++ ';' :: v) s [⟨[], .punct .semi, [';']⟩] v :=
    ⟨ho.sound, ho.gap, .nil, by simp, hsemi.unskipped _, hsemi.scan _ trivial, trivial⟩
  have htok : s.tok = .punct .semi := hclosing.tok
  have hnothing : (Grammar.within d (join p.lexemes ++ ';' :: v)).importAttribute s = .ok [] s := by
    simp only [Grammar.importAttribute, look, htok]
    rfl
  have hend : semicolon .bare s = .ok [] s.advance := by
    simp [semicolon, htok]
  have hread := Grammar.importStatement_eq_ok (hoffers.tok.trans hp.formed.opening) hbody hnothing hend
  refine ⟨_, ⟨s.advance, by rw [hp.statement_eq]; exact hread, hclosing.advance.gap⟩, ?_,
    callless_importStatement hbody _ _⟩
  have hmodule : s.prevStop = Text.size (join p.lexemes) := by
    have hwhole : Offers (join p.lexemes ++ ';' :: v) (State.initial (join p.lexemes ++ ';' :: v))
        (p.lexemes ++ []) (';' :: v) := by
      rw [List.append_nil]
      exact hoffers
    rw [hwhole.prevStop_eq ho]
    exact Nat.zero_add _
  have hlast : s.advance.prevStop = s.prevStop + 1 :=
    (show Offers _ s ([⟨[], .punct .semi, [';']⟩] ++ []) v from hclosing).prevStop_eq hclosing.advance
  show s.advance.prevStop = _
  rw [hlast, hmodule]

/-- **An import that ends with its line is a statement** when the next line resumes. -/
theorem stated_open (hp : p.Sound) (d : Dialect) (hover : lineIsOver w = true) (hw : resumes w = true) :
    ∃ n, Stated d (join p.lexemes ++ w) n w ∧ n.stop = Text.size (join p.lexemes) ∧ n.Callless := by
  obtain ⟨ms, s, hbody, ho⟩ := hp.exists_body d w
  have hoffers := hp.offers w
  have hgap : s.gap = w := ho.gap
  have hline : lineEnd? .bare s.prevStop s.gap = some (s.prevStop, s.gap) := by
    rw [hgap]
    exact lineEnd?_of_resumes hover hw _
  -- the next line starts with no semicolon
  have hsemi : s.tok ≠ .punct .semi := by
    intro htok
    obtain ⟨u, hscan, -⟩ := ho.sound.scanned
    have happ := (scan_cases s.here).1
    rw [htok] at hscan
    rw [hscan] at happ
    have hu : u = [';'] := spelling_unique (scan_punct hscan) (by decide)
    have hstarts := (resumes_iff.mp hw).2
    rw [← hgap, ho.sound.trivia_gap, happ, hu] at hstarts
    cases hstarts
  have hnothing : (Grammar.within d (join p.lexemes ++ w)).importAttribute s = .ok [] s :=
    Grammar.importAttribute_of_atLineEnd (by rw [atLineEnd, hline]; rfl)
  have hend : semicolon .bare s = .ok [] s := by
    unfold semicolon
    rw [if_neg (by simpa using hsemi), hline]
  have hread := Grammar.importStatement_eq_ok (hoffers.tok.trans hp.formed.opening) hbody hnothing hend
  refine ⟨_, ⟨s, by rw [hp.statement_eq]; exact hread, hgap⟩, ?_, callless_importStatement hbody _ _⟩
  have hwhole : Offers (join p.lexemes ++ w) (State.initial (join p.lexemes ++ w)) (p.lexemes ++ []) w := by
    rw [List.append_nil]
    exact hoffers
  show s.prevStop = _
  rw [hwhole.prevStop_eq ho]
  exact Nat.zero_add _

/-- An import starts with its word. -/
theorem exists_append (hp : p.Sound) : ∃ v, join p.lexemes = "import".toList ++ v := by
  have hscan := (hp.strung.sound p.opening List.mem_cons_self).body.scan []
  rw [hp.formed.opening] at hscan
  have hbody : p.opening.body = "import".toList :=
    Word.eq_of_ofText (by decide) (by decide) (name_of_scan (hscan (by rintro c ⟨⟩))).1.symm
  refine ⟨join p.body.lexemes, ?_⟩
  rw [ImportPhrase.lexemes, join_cons, Lexeme.text, hp.lead, hbody]
  rfl

/-- Nothing is skipped in front of an import. -/
theorem trivia_eq (hp : p.Sound) (v : Text) :
    (trivia (join p.lexemes ++ v)).2 = join p.lexemes ++ v := by
  obtain ⟨u, hu⟩ := hp.exists_append
  have hunit : triviaUnit (join p.lexemes ++ v) = 0 := by
    rw [hu]
    exact triviaUnit_of_head (by decide) (by decide) _
  rw [trivia, Text.munch_of_width_eq_zero hunit]

/-- An import resumes. -/
theorem resuming (hp : p.Sound) (v : Text) : resumes (join p.lexemes ++ v) = true := by
  rw [resumes_iff, hp.trivia_eq]
  obtain ⟨u, hu⟩ := hp.exists_append
  rw [hu]
  exact ⟨nextLineHead_other (by decide) (by decide) _, rfl⟩

end ImportPhrase.Sound

/-- **An import from a module starts with a phrase** that can be read anywhere. -/
theorem Stated.exists_phrase {d : Dialect} {n : Node} {v w : Text} (h : Stated d v n w)
    (hv : triviaUnit v = 0) (hn : n.kind = .importStatement) (hsource : n.child? .source ≠ none) :
    ∃ (p : ImportPhrase) (u : Text), p.Sound ∧ v = join p.lexemes ++ u := by
  obtain ⟨s, hread, -⟩ := h
  rcases Grammar.statementRule_cases hread with himport | ⟨m, hm, hother, -⟩
  · obtain ⟨n', hn', -, -, -, hcases⟩ :=
      Grammar.passes_importStatement (State.initial_sound v) himport
    cases hn'
    rcases hcases with ⟨-, hnone⟩ | ⟨p, ms, s₁, hp, hpass, -⟩
    · exact absurd hnone hsource
    · refine ⟨p, s₁.gap, ⟨hp, hpass.offers.spelt.strung hp.isOfImport, ?_⟩, hpass.offers.gap⟩
      -- nothing is skipped where the statement starts
      have hgap : v = p.opening.lead ++ (p.opening.body ++ (join p.body.lexemes ++ s₁.gap)) := by
        have hgap : v = join p.lexemes ++ s₁.gap := hpass.offers.gap
        simpa [ImportPhrase.lexemes, text] using hgap
      obtain ⟨hlead, -, hunit, -⟩ := hpass.offers.spelt
      have htrivia := hlead.trivia_eq hunit
      rw [← hgap, trivia, Text.munch_of_width_eq_zero hv] at htrivia
      exact (Prod.mk.inj htrivia).1.symm
  · cases hm
    rw [hn] at hother
    cases hother

end Promisify
