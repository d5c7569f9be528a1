import Promisify.Proofs.ImportPhrases
import Promisify.Proofs.Pruning

set_option autoImplicit false

/-! # Edits of the names in braces

Two edits change the names in the braces of an import: unused names are cut out, and missing names are
added behind the last one. Both turn braces into braces, and these are read again: a name that is cut
takes one separator with it, the one in front of it once a name before it is kept.
-/

namespace Promisify

open Lexer Lexeme

/-! ## Lexemes side by side -/

theorem strung_nil : Strung [] := ⟨by simp, List.isChain_nil⟩

theorem strung_append {ls ms : List Lexeme} : Strung (ls ++ ms) ↔
    Strung ls ∧ Strung ms ∧ ∀ l ∈ ls.getLast?, ∀ m ∈ ms.head?, l.token.Clear m.text := by
  constructor
  · rintro ⟨hsound, hlinked⟩
    obtain ⟨h₁, h₂, h₃⟩ := List.isChain_append.mp hlinked
    exact ⟨⟨fun l hl => hsound l (List.mem_append_left _ hl), h₁⟩,
      ⟨fun l hl => hsound l (List.mem_append_right _ hl), h₂⟩, h₃⟩
  · rintro ⟨⟨hs₁, h₁⟩, ⟨hs₂, h₂⟩, h₃⟩
    refine ⟨fun l hl => ?_, List.isChain_append.mpr ⟨h₁, h₂, h₃⟩⟩
    rcases List.mem_append.mp hl with hl | hl
    · exact hs₁ l hl
    · exact hs₂ l hl

theorem strung_cons {l : Lexeme} {ls : List Lexeme} : Strung (l :: ls) ↔
    l.Sound ∧ Strung ls ∧ ∀ m ∈ ls.head?, l.token.Clear m.text := by
  rw [show l :: ls = [l] ++ ls from rfl, strung_append]
  constructor
  · rintro ⟨h₁, h₂, h₃⟩
    exact ⟨h₁.sound l (by simp), h₂, h₃ l rfl⟩
  · rintro ⟨h₁, h₂, h₃⟩
    refine ⟨⟨by simpa using h₁, List.isChain_singleton l⟩, h₂, ?_⟩
    rintro k ⟨⟩
    exact h₃

/-- Lexemes that can be read in a row, the first of which is a comma or a closing brace. -/
structure Separated (ls : List Lexeme) : Prop where
  strung : Strung ls
  head : ∀ l ∈ ls.head?, l.isSeparator = true

/-- Names run on into no comma and into no closing brace. -/
theorem Strung.append_separated {ls ms : List Lexeme} (hls : Strung ls) (hms : Separated ms) :
    Strung (ls ++ ms) := by
  refine strung_append.mpr ⟨hls, hms.strung, ?_⟩
  intro l _ m hm
  exact (hms.strung.sound m (List.mem_of_mem_head? hm)).clear (Or.inr (hms.head m hm)) _

theorem separated_comma {c : Lexeme} {ls : List Lexeme} (hc : c.Sound)
    (htok : c.token = .punct .comma) (hls : Strung ls) : Separated (c :: ls) where
  strung := strung_cons.mpr ⟨hc, hls, fun m _ => by rw [htok]; trivial⟩
  head := by
    rintro l ⟨⟩
    exact isSeparator_iff.mpr (Or.inl htok)

/-! ## Soundness of names in braces -/

namespace NameList

/-- Each name can be read, and so can the commas. -/
structure Sound (n : NameList) : Prop where
  first : Strung n.first
  more : ∀ p ∈ n.more, p.1.Sound ∧ Strung p.2
  trail : ∀ c ∈ n.trail, c.Sound

theorem separated_more {more : List (Lexeme × List Lexeme)} {ls : List Lexeme}
    (hform : ∀ p ∈ more, p.1.token = .punct .comma) (hmore : ∀ p ∈ more, p.1.Sound ∧ Strung p.2)
    (hls : Separated ls) : Separated (moreLexemes more ++ ls) := by
  induction more with
  | nil => exact hls
  | cons p more ih =>
      have hrest := ih (fun q hq => hform q (List.mem_cons_of_mem p hq))
        (fun q hq => hmore q (List.mem_cons_of_mem p hq))
      obtain ⟨hcomma, hname⟩ := hmore p List.mem_cons_self
      rw [show moreLexemes (p :: more) ++ ls = p.1 :: (p.2 ++ (moreLexemes more ++ ls)) by
        simp [moreLexemes]]
      exact separated_comma hcomma (hform p List.mem_cons_self) (hname.append_separated hrest)

theorem sound_of_strung_more {more : List (Lexeme × List Lexeme)} {ls : List Lexeme}
    (h : Strung (moreLexemes more ++ ls)) :
    (∀ p ∈ more, p.1.Sound ∧ Strung p.2) ∧ Strung ls := by
  induction more with
  | nil => exact ⟨by simp, h⟩
  | cons p more ih =>
      rw [show moreLexemes (p :: more) ++ ls = p.1 :: (p.2 ++ (moreLexemes more ++ ls)) by
        simp [moreLexemes]] at h
      obtain ⟨hcomma, hrest, -⟩ := strung_cons.mp h
      obtain ⟨hname, hmore, -⟩ := strung_append.mp hrest
      obtain ⟨hall, hls⟩ := ih hmore
      refine ⟨?_, hls⟩
      intro q hq
      rcases List.mem_cons.mp hq with rfl | hq
      · exact ⟨hcomma, hname⟩
      · exact hall q hq

end NameList

namespace Braces

/-- The braces, the names and the commas can be read. -/
structure Sound (b : Braces) : Prop where
  opening : b.opening.Sound
  names : ∀ n ∈ b.names, n.Sound
  closing : b.closing.Sound

/-- **Names in braces can be read in a row** when each of them can be read. -/
theorem Sound.strung {b : Braces} (h : b.Sound) (hb : b.Formed) : Strung b.lexemes := by
  have hclosing : Separated [b.closing] := by
    refine ⟨strung_cons.mpr ⟨h.closing, strung_nil, by simp⟩, ?_⟩
    rintro l ⟨⟩
    exact isSeparator_iff.mpr (Or.inr hb.closing)
  have hinner : Strung (b.inner ++ [b.closing]) := by
    unfold inner
    cases hn : b.names with
    | none => exact hclosing.strung
    | some n =>
        have hsound := h.names n hn
        have hform := hb.names n hn
        have htrail : Separated (n.trail.toList ++ [b.closing]) := by
          cases hc : n.trail with
          | none => exact hclosing
          | some c => exact separated_comma (hsound.trail c hc) (hform.trail c hc) hclosing.strung
        have hmore := NameList.separated_more (fun p hp => (hform.more p hp).1) hsound.more htrail
        have hall := hsound.first.append_separated hmore
        simpa [NameList.lexemes] using hall
  exact strung_cons.mpr ⟨h.opening, hinner, fun m _ => by rw [hb.opening]; trivial⟩

theorem sound_of_strung {b : Braces} (h : Strung b.lexemes) : b.Sound := by
  obtain ⟨hopening, hrest, -⟩ := strung_cons.mp h
  obtain ⟨hinner, hclosing, -⟩ := strung_append.mp hrest
  refine ⟨hopening, ?_, (strung_cons.mp hclosing).1⟩
  intro n hn
  rw [inner, Option.mem_def.mp hn] at hinner
  obtain ⟨hfirst, htail, -⟩ := strung_append.mp hinner
  obtain ⟨hmore, htrail⟩ := NameList.sound_of_strung_more htail
  refine ⟨hfirst, hmore, ?_⟩
  intro c hc
  rw [Option.mem_def.mp hc] at htrail
  exact (strung_cons.mp htrail).1

end Braces

/-! ## Cutting names out -/

namespace Lexeme

/-- What is skipped in front of lexemes. -/
def leadOf (ls : List Lexeme) : Text := (ls.head?.map lead).getD []

/-- The lexemes with something else skipped in front of them. -/
def relead (u : Text) : List Lexeme → List Lexeme
  | [] => []
  | l :: ls => ⟨u, l.token, l.body⟩ :: ls

/-- The text of lexemes without what is skipped in front of them. -/
def bodyOf (ls : List Lexeme) : Text := join (relead [] ls)

theorem join_eq_leadOf_append (ls : List Lexeme) : join ls = leadOf ls ++ bodyOf ls := by
  cases ls with
  | nil => rfl
  | cons l ls => simp [leadOf, bodyOf, relead, text]

theorem map_token_relead (u : Text) (ls : List Lexeme) :
    (relead u ls).map token = ls.map token := by
  cases ls with
  | nil => rfl
  | cons l ls => rfl

theorem pair_relead (u : Text) (ls : List Lexeme) : pair (relead u ls) = pair ls := by
  rcases ls with _ | ⟨_, _ | ⟨_, _ | ⟨_, _ | ⟨_, _ | _⟩⟩⟩⟩ <;> rfl

theorem spanOf_eq (pos : Nat) (ls : List Lexeme) : spanOf pos ls =
    ⟨pos + Text.size (leadOf ls), pos + Text.size (leadOf ls) + Text.size (bodyOf ls)⟩ := by
  rw [spanOf, join_eq_leadOf_append, Text.size_append, ← Nat.add_assoc]
  rfl

end Lexeme

theorem Strung.relead {u : Text} {ls : List Lexeme} (h : Strung ls) (hu : Filler u) :
    Strung (relead u ls) := by
  cases ls with
  | nil => exact h
  | cons l ls =>
      obtain ⟨hl, hls, hlink⟩ := strung_cons.mp h
      exact strung_cons.mpr ⟨⟨hu, hl.body⟩, hls, hlink⟩

theorem Strung.filler_leadOf {ls : List Lexeme} (h : Strung ls) : Filler (leadOf ls) := by
  cases ls with
  | nil => exact .nil
  | cons l ls => exact (h.sound l (by simp)).lead

/-- A name in braces as it is cut out or kept. -/
def NameView.item (gone : Text × Text → Bool) (v : NameView) : Span × Bool := (v.span, gone v.pair)

namespace NameList

variable {gone : Text × Text → Bool}

/-- Behind a name that stays, a name goes with the comma in front of it. -/
theorem patched_more (more : List (Lexeme × List Lexeme)) {pos : Nat} {p : Span} (hp : p.stop = pos) :
    Patched pos (join (moreLexemes more))
      (Edits.cuts (some p) true ((moreViews pos more).map (NameView.item gone)))
      (join (moreLexemes (more.filter fun q => !gone (pair q.2)))) := by
  induction more generalizing pos p with
  | nil => exact .done pos []
  | cons q more ih =>
      obtain ⟨c, ls⟩ := q
      have htext : ∀ more, join (moreLexemes ((c, ls) :: more)) =
          c.text ++ join ls ++ join (moreLexemes more) := by
        intro more
        simp [moreLexemes]
      have hrest := ih (p := spanOf (pos + Text.size c.text) ls) rfl
      rw [htext, moreViews, List.map_cons]
      cases hgone : gone (pair ls) with
      | false =>
          have hitem : NameView.item gone (view (pos + Text.size c.text) ls) =
              (spanOf (pos + Text.size c.text) ls, false) := Prod.ext rfl hgone
          rw [List.filter_cons_of_pos (by simp [hgone]), htext, hitem, Edits.cuts_kept]
          refine Patched.prepend _ ?_
          rw [Text.size_append, ← Nat.add_assoc]
          exact hrest
      | true =>
          have hitem : NameView.item gone (view (pos + Text.size c.text) ls) =
              (spanOf (pos + Text.size c.text) ls, true) := Prod.ext rfl hgone
          rw [List.filter_cons_of_neg (by simp [hgone]), hitem, Edits.cuts_behind]
          have hstop : (spanOf (pos + Text.size c.text) ls).stop =
              pos + Text.size (c.text ++ join ls) := by
            rw [Text.size_append, ← Nat.add_assoc]
            rfl
          rw [hp, hstop]
          refine Patched.cut _ ?_
          rw [Text.size_append, ← Nat.add_assoc]
          exact hrest

/-- In front of the first name that stays, a name goes with the comma behind it. -/
theorem patched_front (ls : List Lexeme) (more : List (Lexeme × List Lexeme)) (start : Nat)
    (previous : Option Span) (hkept : gone (pair ls) = false ∨ ∃ q ∈ more, gone (pair q.2) = false) :
    ∃ ls' more', (ls' = ls ∨ ∃ p ∈ more, ls' = p.2) ∧ gone (pair ls') = false ∧
      (∀ p ∈ more', p ∈ more ∧ gone (pair p.2) = false) ∧
      Patched start (bodyOf ls ++ join (moreLexemes more))
        (Edits.cuts previous false ((⟨start, start + Text.size (bodyOf ls)⟩, gone (pair ls)) ::
          (moreViews (start + Text.size (bodyOf ls)) more).map (NameView.item gone)))
        (bodyOf ls' ++ join (moreLexemes more')) := by
  induction more generalizing ls start previous with
  | nil =>
      have hgone : gone (pair ls) = false := by simpa using hkept
      refine ⟨ls, [], Or.inl rfl, hgone, by simp, ?_⟩
      rw [hgone, Edits.cuts_kept]
      exact .done start _
  | cons q more ih =>
      obtain ⟨c, ks⟩ := q
      cases hgone : gone (pair ls) with
      | false =>
          refine ⟨ls, ((c, ks) :: more).filter fun q => !gone (pair q.2), Or.inl rfl, hgone,
            fun p hp => ⟨List.mem_of_mem_filter hp, by simpa using (List.mem_filter.mp hp).2⟩, ?_⟩
          rw [Edits.cuts_kept]
          exact Patched.prepend _ (patched_more _ rfl)
      | true =>
          have hkept' : gone (pair ks) = false ∨ ∃ q ∈ more, gone (pair q.2) = false := by
            simpa [hgone] using hkept
          -- the text up to the next name
          have htext : bodyOf ls ++ join (moreLexemes ((c, ks) :: more)) =
              bodyOf ls ++ c.text ++ leadOf ks ++ (bodyOf ks ++ join (moreLexemes more)) := by
            simp [moreLexemes, join_eq_leadOf_append ks]
          have hnext : view (start + Text.size (bodyOf ls) + Text.size c.text) ks =
              ⟨⟨start + Text.size (bodyOf ls ++ c.text ++ leadOf ks),
                start + Text.size (bodyOf ls ++ c.text ++ leadOf ks) + Text.size (bodyOf ks)⟩, pair ks⟩ := by
            rw [view, spanOf_eq]
            simp only [Text.size_append, NameView.mk.injEq, Span.mk.injEq, and_true]
            constructor <;> omega
          have hstop : start + Text.size (bodyOf ls) + Text.size c.text + Text.size (join ks) =
              start + Text.size (bodyOf ls ++ c.text ++ leadOf ks) + Text.size (bodyOf ks) := by
            rw [join_eq_leadOf_append ks]
            simp only [Text.size_append]
            omega
          obtain ⟨ls', more', hls', hstays, hmore', hpatched⟩ := ih ks
            (start + Text.size (bodyOf ls ++ c.text ++ leadOf ks))
            (some ⟨start, start + Text.size (bodyOf ls)⟩) hkept'
          refine ⟨ls', more', ?_, hstays,
            fun p hp => ⟨List.mem_cons_of_mem _ (hmore' p hp).1, (hmore' p hp).2⟩, ?_⟩
          · rcases hls' with rfl | ⟨p, hp, rfl⟩
            · exact Or.inr ⟨(c, ls'), List.mem_cons_self, rfl⟩
            · exact Or.inr ⟨p, List.mem_cons_of_mem _ hp, rfl⟩
          · rw [htext, moreViews, List.map_cons, hnext, hstop, NameView.item, Edits.cuts_front]
            exact Patched.cut _ hpatched

theorem map_pair_moreViews (pos : Nat) (more : List (Lexeme × List Lexeme)) :
    (moreViews pos more).map NameView.pair = more.map fun p => pair p.2 := by
  induction more generalizing pos with
  | nil => rfl
  | cons p more ih => rw [moreViews, List.map_cons, ih, List.map_cons, view]

end NameList

/-- The names between braces do not depend on where the braces stand. -/
theorem Braces.map_pair_views (pos : Nat) (b : Braces) : (b.views pos).map NameView.pair = b.pairs := by
  unfold views pairs
  cases b.names with
  | none => rfl
  | some n =>
      simp only [Option.map_some, Option.getD_some, NameList.views, List.map_cons,
        NameList.map_pair_moreViews]
      rfl

/-- The text of braces around names. -/
theorem Braces.join_lexemes (opening closing : Lexeme) (n : NameList) :
    join (Braces.mk opening (some n) closing).lexemes = opening.text ++ (leadOf n.first ++
      (bodyOf n.first ++ join (NameList.moreLexemes n.more) ++ (join n.trail.toList ++ closing.text))) := by
  simp [Braces.lexemes, Braces.inner, NameList.lexemes, join_eq_leadOf_append n.first]

namespace Braces

/-- **Cutting names out of braces leaves braces** around names that stay, when there is one. -/
theorem exists_cut {b : Braces} (gone : Text × Text → Bool) (pos : Nat) (hform : b.Formed)
    (hsound : b.Sound) (hkept : ∃ p ∈ b.pairs, gone p = false) :
    ∃ b' : Braces, b'.Formed ∧ b'.Sound ∧ b'.opening = b.opening ∧ (∀ p ∈ b'.pairs, gone p = false) ∧
      Patched pos (join b.lexemes) (Edits.cuts none false ((b.views pos).map (NameView.item gone)))
        (join b'.lexemes) := by
  obtain ⟨opening, names, closing⟩ := b
  cases names with
  | none =>
      obtain ⟨p, hp, -⟩ := hkept
      cases hp
  | some n =>
      obtain ⟨first, more, trail⟩ := n
      have hf := hform.names _ rfl
      have hs := hsound.names _ rfl
      have hkept' : gone (pair first) = false ∨ ∃ q ∈ more, gone (pair q.2) = false := by
        simpa [pairs] using hkept
      obtain ⟨ls, more', hls, hstays, hmore', hpatched⟩ := NameList.patched_front first more
        (pos + Text.size opening.text + Text.size (leadOf first)) none hkept'
      have hls' : SpecifierForm (ls.map Lexeme.token) ∧ Strung ls := by
        rcases hls with rfl | ⟨p, hp, rfl⟩
        · exact ⟨hf.first, hs.first⟩
        · exact ⟨(hf.more p hp).2, (hs.more p hp).2⟩
      have hlead : leadOf (relead (leadOf first) ls) = leadOf first ∧
          bodyOf (relead (leadOf first) ls) = bodyOf ls := by
        obtain ⟨l, ls, rfl⟩ := List.exists_cons_of_ne_nil hls'.1.ne_nil
        exact ⟨rfl, rfl⟩
      refine ⟨⟨opening, some ⟨relead (leadOf first) ls, more', trail⟩, closing⟩, ?_, ?_, rfl, ?_, ?_⟩
      · refine ⟨hform.opening, ?_, hform.closing⟩
        rintro n ⟨⟩
        exact ⟨by rw [map_token_relead]; exact hls'.1, fun p hp => hf.more p (hmore' p hp).1, hf.trail⟩
      · refine ⟨hsound.opening, ?_, hsound.closing⟩
        rintro n ⟨⟩
        exact ⟨hls'.2.relead hs.first.filler_leadOf, fun p hp => hs.more p (hmore' p hp).1, hs.trail⟩
      · intro p hp
        rcases List.mem_cons.mp hp with rfl | hp
        · rw [pair_relead]
          exact hstays
        · obtain ⟨q, hq, rfl⟩ := List.mem_map.mp hp
          exact (hmore' q hq).2
      · rw [join_lexemes, join_lexemes, hlead.1, hlead.2]
        refine Patched.prepend _ (Patched.prepend _ (Patched.followed ?_ _))
        have hviews : views pos ⟨opening, some ⟨first, more, trail⟩, closing⟩ =
            view (pos + Text.size opening.text) first ::
              NameList.moreViews (pos + Text.size opening.text + Text.size (join first)) more := rfl
        rw [hviews, List.map_cons, NameView.item, view, spanOf_eq, join_eq_leadOf_append first,
          Text.size_append, ← Nat.add_assoc]
        exact hpatched

end Braces

/-! ## Adding names -/

/-- A word as a lexeme. -/
def Lexeme.ofWord (lead y : Text) : Lexeme := ⟨lead, .word (Word.ofText y), y⟩

theorem Lexeme.sound_ofWord {lead y : Text} (hlead : Filler lead) (hy : IsWord y) :
    (ofWord lead y).Sound := ⟨hlead, stands_word hy⟩

theorem filler_blank : Filler [' '] := .space (by decide) .nil

/-- A comma and a blank, then a word. -/
def NameList.added (y : Text) : Lexeme × List Lexeme :=
  (⟨[], .punct .comma, [',']⟩, [ofWord [' '] y])

namespace NameList

theorem join_added (names : List Text) :
    join (moreLexemes (names.map added)) = names.flatMap fun y => ", ".toList ++ y := by
  induction names with
  | nil => rfl
  | cons y names ih =>
      rw [List.flatMap_cons, ← ih]
      simp [moreLexemes, added, ofWord, text]

theorem formed_added {y : Text} : (added y).1.token = .punct .comma ∧
    SpecifierForm ((added y).2.map Lexeme.token) := ⟨rfl, .name _⟩

theorem sound_added {y : Text} (hy : IsWord y) : (added y).1.Sound ∧ Strung (added y).2 :=
  ⟨⟨.nil, stands_single (by simp)⟩,
    strung_cons.mpr ⟨sound_ofWord filler_blank hy, strung_nil, by simp⟩⟩

/-- A word has no quotes around it. -/
theorem withoutQuotes_word {y : Text} (hy : IsWord y) : y.withoutQuotes = y := by
  obtain ⟨c, cs, rfl, hc⟩ := hy.head
  have hquote : (c == '"' || c == '\'') = false := by
    by_contra hquote
    have hcases : c = '"' ∨ c = '\'' := by
      simpa only [Bool.not_eq_false, Bool.or_eq_true, beq_iff_eq] using hquote
    rcases hcases with rfl | rfl
    · exact absurd hc (by decide)
    · exact absurd hc (by decide)
  simp [Text.withoutQuotes, hquote]

theorem pairs_added {names : List Text} (h : ∀ y ∈ names, IsWord y) :
    (names.map added).map (fun p => pair p.2) = names.map fun y => (y, y) := by
  rw [List.map_map]
  refine List.map_congr_left fun y hy => ?_
  simp [added, pair, ofWord, withoutQuotes_word (h y hy)]

/-- Names as they are written between new braces. -/
def fresh (y : Text) (names : List Text) : NameList := ⟨[ofWord [' '] y], names.map added, none⟩

theorem formed_fresh (y : Text) (names : List Text) : (fresh y names).Formed where
  first := .name _
  more := by
    intro p hp
    obtain ⟨z, -, rfl⟩ := List.mem_map.mp hp
    exact formed_added
  trail := by simp [fresh]

theorem sound_fresh {y : Text} {names : List Text} (h : ∀ z ∈ y :: names, IsWord z) :
    (fresh y names).Sound where
  first := strung_cons.mpr ⟨sound_ofWord filler_blank (h y List.mem_cons_self), strung_nil, by simp⟩
  more := by
    intro p hp
    obtain ⟨z, hz, rfl⟩ := List.mem_map.mp hp
    exact sound_added (h z (List.mem_cons_of_mem y hz))
  trail := by simp [fresh]

theorem pairs_fresh {opening closing : Lexeme} {y : Text} {names : List Text}
    (h : ∀ z ∈ y :: names, IsWord z) :
    (Braces.mk opening (some (fresh y names)) closing).pairs = (y :: names).map fun z => (z, z) := by
  have hrest := pairs_added fun z hz => h z (List.mem_cons_of_mem y hz)
  simp only [Braces.pairs, fresh, Option.map_some, Option.getD_some, hrest, List.map_cons]
  simp [pair, ofWord, withoutQuotes_word (h y List.mem_cons_self)]

theorem join_fresh (y : Text) (names : List Text) :
    join (fresh y names).lexemes = ' ' :: Text.join ", ".toList (y :: names) := by
  have hjoin : ∀ y, Text.join ", ".toList (y :: names) =
      y ++ names.flatMap fun z => ", ".toList ++ z := by
    induction names with
    | nil => simp [Text.join]
    | cons z names ih =>
        intro y
        rw [Text.join, ih z, List.flatMap_cons, List.append_assoc, List.append_assoc]
  rw [hjoin, ← join_added]
  simp [fresh, lexemes, ofWord, text]

/-- The end of the last name. -/
theorem stop_getLast?_views (n : NameList) (pos : Nat) : ∃ v, (n.views pos).getLast? = some v ∧
    v.span.stop = pos + Text.size (join n.first ++ join (moreLexemes n.more)) := by
  obtain ⟨first, more, trail⟩ := n
  have hmore : ∀ k v, v.span.stop = k → ∃ v', (v :: moreViews k more).getLast? = some v' ∧
      v'.span.stop = k + Text.size (join (moreLexemes more)) := by
    induction more with
    | nil => exact fun k v hv => ⟨v, rfl, hv⟩
    | cons p more ih =>
        intro k v hv
        obtain ⟨v', hlast, hstop⟩ := ih (k + Text.size p.1.text + Text.size (join p.2))
          (view (k + Text.size p.1.text) p.2) rfl
        refine ⟨v', ?_, ?_⟩
        · rw [moreViews, List.getLast?_cons_cons]
          exact hlast
        · rw [hstop]
          simp [moreLexemes]
          omega
  obtain ⟨v, hlast, hstop⟩ := hmore (pos + Text.size (join first)) (view pos first) rfl
  refine ⟨v, hlast, ?_⟩
  rw [hstop, Text.size_append, Nat.add_assoc]

end NameList

namespace Braces

/-- **Adding words behind the last name in braces leaves braces**, with these names too. -/
theorem exists_extended {b : Braces} {pos : Nat} {v : NameView} {names : List Text} (hform : b.Formed)
    (hsound : b.Sound) (hlast : (b.views pos).getLast? = some v) (hnames : ∀ y ∈ names, IsWord y) :
    ∃ b' : Braces, b'.Formed ∧ b'.Sound ∧ b'.opening = b.opening ∧
      b'.pairs = b.pairs ++ names.map (fun y => (y, y)) ∧
      Patched pos (join b.lexemes) [.insertion v.span.stop (names.flatMap fun y => ", ".toList ++ y)]
        (join b'.lexemes) := by
  obtain ⟨opening, known, closing⟩ := b
  cases known with
  | none => cases hlast
  | some n =>
      have hf := hform.names _ rfl
      have hs := hsound.names _ rfl
      obtain ⟨v', hlast', hstop⟩ := n.stop_getLast?_views (pos + Text.size opening.text)
      have heq : v = v' := Option.some.inj (hlast.symm.trans hlast')
      subst heq
      refine ⟨⟨opening, some ⟨n.first, n.more ++ names.map NameList.added, n.trail⟩, closing⟩,
        ?_, ?_, rfl, ?_, ?_⟩
      · refine ⟨hform.opening, ?_, hform.closing⟩
        rintro m ⟨⟩
        refine ⟨hf.first, ?_, hf.trail⟩
        intro p hp
        rcases List.mem_append.mp hp with hp | hp
        · exact hf.more p hp
        · obtain ⟨y, -, rfl⟩ := List.mem_map.mp hp
          exact NameList.formed_added
      · refine ⟨hsound.opening, ?_, hsound.closing⟩
        rintro m ⟨⟩
        refine ⟨hs.first, ?_, hs.trail⟩
        intro p hp
        rcases List.mem_append.mp hp with hp | hp
        · exact hs.more p hp
        · obtain ⟨y, hy, rfl⟩ := List.mem_map.mp hp
          exact NameList.sound_added (hnames y hy)
      · simp only [pairs, Option.map_some, Option.getD_some, List.map_append, List.cons_append,
          NameList.pairs_added hnames]
      · have hbefore : join (Braces.mk opening (some n) closing).lexemes =
            opening.text ++ (join n.first ++ join (NameList.moreLexemes n.more)) ++
              ([] ++ (join n.trail.toList ++ closing.text)) := by
          simp [Braces.lexemes, Braces.inner, NameList.lexemes]
        have hafter : join (Braces.mk opening (some ⟨n.first,
            n.more ++ names.map NameList.added, n.trail⟩) closing).lexemes =
            opening.text ++ (join n.first ++ join (NameList.moreLexemes n.more)) ++
              ((names.flatMap fun y => ", ".toList ++ y) ++ (join n.trail.toList ++ closing.text)) := by
          rw [← NameList.join_added]
          simp [Braces.lexemes, Braces.inner, NameList.lexemes, NameList.moreLexemes]
        rw [hbefore, hafter]
        refine Patched.single _ [] _ _ ?_
        simp only [Edit.insertion, hstop, Text.size_append, Text.size_nil, Nat.add_zero, Nat.add_assoc]

/-- **Putting words between braces leaves braces** around these words. -/
theorem exists_filled {b : Braces} {y : Text} {names : List Text} (pos : Nat) (hform : b.Formed)
    (hsound : b.Sound) (hnames : ∀ z ∈ y :: names, IsWord z) :
    ∃ b' : Braces, b'.Formed ∧ b'.Sound ∧ b'.opening = b.opening ∧
      b'.pairs = (y :: names).map (fun z => (z, z)) ∧
      Patched pos (join b.lexemes) [⟨spanOf pos b.lexemes,
        "\x7b ".toList ++ Text.join ", ".toList (y :: names) ++ " \x7d".toList⟩] (join b'.lexemes) := by
  have hopening : b.opening.body = ['\x7b'] := by
    have hscan := hsound.opening.body.scan []
    rw [hform.opening] at hscan
    have hmem := scan_punct (hscan trivial)
    have hall : ∀ e ∈ Punct.table, e.2 = .lbrace → e.1 = ['\x7b'] := by decide
    exact hall _ hmem rfl
  refine ⟨⟨b.opening, some (.fresh y names), ⟨[' '], .punct .rbrace, ['\x7d']⟩⟩,
    ⟨hform.opening, ?_, rfl⟩, ⟨hsound.opening, ?_, ⟨filler_blank, stands_single (by simp)⟩⟩, rfl, ?_, ?_⟩
  · rintro n ⟨⟩
    exact NameList.formed_fresh y names
  · rintro n ⟨⟩
    exact NameList.sound_fresh hnames
  · exact NameList.pairs_fresh hnames
  · have hbefore : join b.lexemes = b.opening.lead ++
        (b.opening.body ++ join (b.inner ++ [b.closing]) ++ []) := by
      simp [Braces.lexemes, text]
    have hafter : join (Braces.mk b.opening (some (.fresh y names))
        ⟨[' '], .punct .rbrace, ['\x7d']⟩).lexemes = b.opening.lead ++
          (("\x7b ".toList ++ Text.join ", ".toList (y :: names) ++ " \x7d".toList) ++ []) := by
      have hfresh := NameList.join_fresh y names
      simp only [Braces.lexemes, Braces.inner, Option.map_some, Option.getD_some, join_cons, join_append,
        hfresh, join_nil, text, hopening]
      simp
    rw [hafter, hbefore]
    refine Patched.single _ _ _ _ ?_
    show spanOf pos b.lexemes = _
    rw [spanOf_eq]
    simp [Braces.lexemes, leadOf, bodyOf, relead, text]

end Braces

end Promisify
