import Mathlib.Data.List.Chain
import Promisify.Proofs.Shifting

set_option autoImplicit false

/-! # Tokens with their layout

A lexeme is a token together with its spelling and with what is skipped in front of it. Words,
strings and the punctuation of an import are read by what they are spelled like and by the one
character that follows (`Token.Clear`). So a text that is strung together from such lexemes is read
as these lexemes wherever it stands (`Strung`), and reading can be followed from lexeme to lexeme
(`Spelt`).
-/

namespace Promisify

namespace Lexer

open Text

/-! ## Skipped text -/

/-- The two kinds of comment: one up to the end of its line, and one up to its close. -/
theorem comment_cases {w v : Text} (hw : w ≠ []) (h : commentWidth (w ++ v) = w.length) :
    (∃ x, w = '/' :: '/' :: x ∧ (∀ c ∈ x, endsLine c = false) ∧ ∀ c ∈ v.head?, endsLine c = true) ∨
      ∃ x, w = '/' :: '*' :: x ∧ x ≠ [] ∧ blockRest (x ++ v) = x.length := by
  have hpos : w.length ≠ 0 := fun hzero => hw (List.length_eq_zero_iff.mp hzero)
  have htwo := two_le_commentWidth (h ▸ hpos)
  obtain ⟨b, y, hy, hb⟩ := commentWidth_cases (h ▸ hpos)
  obtain ⟨a, b', x, rfl⟩ : ∃ a b' x, w = a :: b' :: x := by
    match w, h, htwo with
    | a :: b' :: x, _, _ => exact ⟨a, b', x, rfl⟩
    | [a], h, htwo =>
        rw [h] at htwo
        exact absurd htwo (by simp)
  simp only [List.cons_append, List.cons.injEq] at hy
  obtain ⟨rfl, rfl, -⟩ := hy
  simp only [List.cons_append, List.length_cons] at h
  rcases hb with rfl | rfl
  · left
    rw [commentWidth_line, List.takeWhile_append] at h
    by_cases hall : (x.takeWhile fun c => !endsLine c).length = x.length
    · rw [if_pos hall, List.length_append] at h
      refine ⟨x, rfl, ?_, ?_⟩
      · intro c hc
        have htake : x.takeWhile (fun c => !endsLine c) = x :=
          (List.takeWhile_prefix _).eq_of_length hall
        have := List.all_takeWhile (p := fun c => !endsLine c) (l := x)
        rw [htake, List.all_eq_true] at this
        simpa using this c hc
      · intro c hc
        obtain ⟨v, rfl⟩ := List.head?_eq_some_iff.mp hc
        by_cases hend : endsLine c = true
        · exact hend
        · rw [List.takeWhile_cons_of_pos (by simpa using hend), List.length_cons] at h
          omega
    · rw [if_neg hall] at h
      omega
  · right
    rw [commentWidth_block] at h
    have hrest : blockRest (x ++ v) = x.length := by
      split at h <;> omega
    refine ⟨x, rfl, ?_, hrest⟩
    rintro rfl
    rw [if_pos (show blockRest ([] ++ v) = 0 from hrest)] at h
    simp at h

theorem commentWidth_of_line {x v : Text} (hx : ∀ c ∈ x, endsLine c = false)
    (hv : ∀ c ∈ v.head?, endsLine c = true) :
    commentWidth ('/' :: '/' :: x ++ v) = ('/' :: '/' :: x).length := by
  have htake : (x ++ v).takeWhile (fun c => !endsLine c) = x := by
    rw [List.takeWhile_append_of_pos (by simpa using hx)]
    cases v with
    | nil => simp
    | cons c v => rw [List.takeWhile_cons_of_neg (by simp [hv c rfl]), List.append_nil]
  simp only [List.cons_append, commentWidth_line, htake, List.length_cons]
  omega

theorem commentWidth_of_block {x v : Text} (hx : x ≠ []) (h : blockRest (x ++ v) = x.length)
    (v' : Text) : commentWidth ('/' :: '*' :: x ++ v') = ('/' :: '*' :: x).length := by
  have hne : x.length ≠ 0 := fun hzero => hx (List.length_eq_zero_iff.mp hzero)
  simp only [List.cons_append, commentWidth_block, blockRest_append h hx, if_neg hne,
    List.length_cons]

/-- White space and comments that are skipped whatever follows. -/
inductive Filler : Text → Prop
  | nil : Filler []
  | space {c : Char} {u : Text} (hc : isSpace c = true) (h : Filler u) : Filler (c :: u)
  | comment {w u : Text} (hw : w ≠ []) (hc : ∀ v, commentWidth (w ++ (u ++ v)) = w.length)
      (h : Filler u) : Filler (w ++ u)

/-- What is skipped in front of a token is skipped whatever follows: a line comment there ends with
its line. -/
theorem Skips.filler {v u : Text} {pos : Nat} {cs : List Span} (h : Skips v pos u cs)
    (hv : triviaUnit v = 0) (hne : v ≠ []) : Filler u := by
  induction h with
  | done pos => exact .nil
  | space hc h ih => exact .space hc ih
  | @comment pos w u cs hw hc h ih =>
      refine .comment hw ?_ ih
      intro v'
      rcases comment_cases hw hc with ⟨x, rfl, hx, hhead⟩ | ⟨x, rfl, hx, hrest⟩
      · refine commentWidth_of_line hx ?_
        cases u with
        | cons c u => exact hhead
        | nil =>
            -- otherwise the comment would run on into the token
            obtain ⟨c, v, rfl⟩ := List.exists_cons_of_ne_nil hne
            rw [triviaUnit_space (isSpace_of_endsLine (hhead c rfl))] at hv
            exact absurd hv Nat.one_ne_zero
      · exact commentWidth_of_block hx hrest _

namespace Filler

variable {u v : Text}

theorem trivia_append (hu : Filler u) (v : Text) :
    trivia (u ++ v) = (u ++ (trivia v).1, (trivia v).2) := by
  induction hu with
  | nil => rfl
  | space hc h ih => rw [List.cons_append, trivia_space hc, ih, List.cons_append]
  | comment hw hc h ih =>
      rw [List.append_assoc, trivia_comment hw (hc v), ih, List.append_assoc]

theorem trivia_eq (hu : Filler u) (hv : triviaUnit v = 0) : trivia (u ++ v) = (u, v) := by
  rw [hu.trivia_append, trivia, munch_of_width_eq_zero hv, List.append_nil]

/-- Skipped text starts neither with a character of a name nor with one of an operator other than a
slash. -/
theorem head?_cases (hu : Filler u) : ∀ c ∈ u.head?, isSpace c = true ∨ c = '/' := by
  cases hu with
  | nil => simp
  | space hc h =>
      intro c hmem
      rw [List.head?_cons, Option.mem_def, Option.some.injEq] at hmem
      exact Or.inl (hmem ▸ hc)
  | @comment w u hw hc h =>
      have hlen := hc []
      rw [List.append_nil] at hlen
      intro c hmem
      rcases comment_cases hw hlen with ⟨x, rfl, -⟩ | ⟨x, rfl, -⟩
      · exact Or.inr (Option.some.inj hmem).symm
      · exact Or.inr (Option.some.inj hmem).symm

end Filler

theorem triviaUnit_of_head {c : Char} (hspace : isSpace c = false) (hslash : c ≠ '/') (t : Text) :
    triviaUnit (c :: t) = 0 := by
  rw [triviaUnit, if_neg (by simp [hspace])]
  by_cases h : commentWidth (c :: t) = 0
  · exact h
  · obtain ⟨b, u, heq, -⟩ := commentWidth_cases h
    exact absurd (List.cons.inj heq).1 hslash

/-! ## Units of a text -/

/-- What `munch` leaves starts with no unit. -/
theorem width_munch (width : Text → Nat) (hnil : width [] = 0) (k : Nat) (t : Text) :
    width (munch width k t).2 = 0 := by
  induction t generalizing k with
  | nil => exact hnil
  | cons c t ih =>
      cases k with
      | succ k => exact ih k
      | zero =>
          cases hw : width (c :: t) with
          | zero => simp [munch, hw]
          | succ k => simpa [munch, hw] using ih k

/-- What a unit looks like does not depend on the text behind it, among texts that are the `same`. -/
def Repeats (width : Text → Nat) (same : Text → Text → Prop) : Prop :=
  ∀ t, width t ≠ 0 → ∃ u r, t = u ++ r ∧ u ≠ [] ∧ width t = u.length ∧
    ∀ r', same r r' → width (u ++ r') = u.length

/-- **What `munch` takes it takes again in front of another text.** -/
theorem munch_again {width : Text → Nat} {same : Text → Text → Prop} (hwidth : Repeats width same)
    {t y v v' : Text} (h : munch width 0 t = (y, v)) (hv' : width v' = 0)
    (hsame : ∀ x, same (x ++ v) (x ++ v')) : munch width 0 (y ++ v') = (y, v') := by
  induction hn : t.length using Nat.strongRecOn generalizing t y with
  | _ n ih =>
      by_cases hzero : width t = 0
      · rw [munch_of_width_eq_zero hzero] at h
        cases h
        exact munch_of_width_eq_zero hv'
      · obtain ⟨u, r, rfl, hne, hu, hagain⟩ := hwidth t hzero
        rw [munch_unit hne hu] at h
        obtain ⟨rfl, rfl⟩ := Prod.mk.inj h
        have hlt : r.length < n := by
          have := List.length_pos_iff.mpr hne
          rw [← hn, List.length_append]
          omega
        have hr := munch_append width 0 r
        have hunit : width (u ++ ((munch width 0 r).1 ++ v')) = u.length := by
          apply hagain
          have hlast := hsame (munch width 0 r).1
          rwa [hr] at hlast
        rw [List.append_assoc, munch_unit hne hunit, ih r.length hlt rfl rfl]

theorem unicodeEscapeWidth_braces {ds : Text} (hne : ds ≠ []) (hds : ∀ c ∈ ds, isHex c = true)
    (r : Text) : unicodeEscapeWidth ('u' :: '\x7b' :: (ds ++ '\x7d' :: r)) = ds.length + 3 := by
  have htake : (ds ++ '\x7d' :: r).takeWhile isHex = ds := by
    rw [List.takeWhile_append_of_pos hds, List.takeWhile_cons_of_neg (by decide), List.append_nil]
  simp [unicodeEscapeWidth, htake, hne]

theorem unicodeEscapeWidth_four {a b c d : Char}
    (h : (isHex a && isHex b && isHex c && isHex d) = true) (r : Text) :
    unicodeEscapeWidth ('u' :: a :: b :: c :: d :: r) = 5 := by
  unfold unicodeEscapeWidth
  split
  · next heq =>
      cases heq
      simp [show isHex '\x7b' = false by decide] at h
  · next heq =>
      cases heq
      rw [if_pos h]
  · next hnot => exact absurd rfl (hnot a b c d r)

theorem repeats_unicodeEscape : Repeats unicodeEscapeWidth fun _ _ => True := by
  have hrest : ∀ t, unicodeEscapeWidth t ≠ 0 →
      ∃ u r, t = u ++ r ∧ u ≠ [] ∧ ∀ r', unicodeEscapeWidth (u ++ r') = u.length := by
    intro t h
    unfold unicodeEscapeWidth at h
    split at h
    · next cs =>
        dsimp only at h
        split at h
        · exact absurd rfl h
        · next hne =>
            split at h
            · next hclose =>
                have hsplit := List.takeWhile_append_dropWhile (p := isHex) (l := cs)
                have hall : ∀ c ∈ cs.takeWhile isHex, isHex c = true :=
                  List.all_eq_true.mp List.all_takeWhile
                generalize cs.takeWhile isHex = ds at hsplit hall hne hclose
                generalize cs.dropWhile isHex = rest at hsplit
                subst hsplit
                rw [List.getElem?_append_right (Nat.le_refl _), Nat.sub_self] at hclose
                obtain ⟨r, rfl⟩ : ∃ r, rest = '\x7d' :: r := by
                  cases rest with
                  | nil => cases hclose
                  | cons c r =>
                      cases hclose
                      exact ⟨r, rfl⟩
                refine ⟨'u' :: '\x7b' :: (ds ++ ['\x7d']), r, by simp, by simp, ?_⟩
                intro r'
                have hbraces := unicodeEscapeWidth_braces
                  (fun hnil => hne (by rw [hnil]; rfl)) hall r'
                simpa using hbraces
            · exact absurd rfl h
    · next a b c d r _ =>
        split at h
        · next hhex => exact ⟨['u', a, b, c, d], r, rfl, by simp, unicodeEscapeWidth_four hhex⟩
        · exact absurd rfl h
    · exact absurd rfl h
  intro t h
  obtain ⟨u, r, rfl, hne, hagain⟩ := hrest t h
  exact ⟨u, r, rfl, hne, hagain r, fun r' _ => hagain r'⟩

/-- A unit that is an escape after a backslash or else one character. -/
structure EscapeUnit (width escape : Text → Nat) (ok : Char → Bool) : Prop where
  nil : width [] = 0
  escaped : ∀ t, width ('\\' :: t) = if escape t = 0 then 0 else escape t + 1
  plain : ∀ c t, c ≠ '\\' → width (c :: t) = if ok c then 1 else 0

theorem EscapeUnit.repeats {width escape : Text → Nat} {ok : Char → Bool} {same : Text → Text → Prop}
    (h : EscapeUnit width escape ok) (hescape : Repeats escape same) : Repeats width same := by
  intro t ht
  cases t with
  | nil => exact absurd h.nil ht
  | cons c t =>
      by_cases hback : c = '\\'
      · subst hback
        have hne : escape t ≠ 0 := by
          intro hzero
          rw [h.escaped, if_pos hzero] at ht
          exact ht rfl
        obtain ⟨u, r, rfl, hu, hlen, hagain⟩ := hescape t hne
        have hpos := List.length_pos_iff.mpr hu
        refine ⟨'\\' :: u, r, rfl, by simp, by rw [h.escaped, if_neg hne, hlen]; rfl, ?_⟩
        intro r' hr'
        rw [List.cons_append, h.escaped, hagain r' hr', if_neg (by omega)]
        rfl
      · have hc : ok c = true := by
          by_contra hc
          rw [h.plain c t hback, if_neg hc] at ht
          exact ht rfl
        have hone : ∀ r, width (c :: r) = 1 := fun r => by rw [h.plain c r hback, if_pos hc]
        exact ⟨[c], t, rfl, by simp, hone t, fun r' _ => hone r'⟩

theorem escapeUnit_name (ok : Char → Bool) : EscapeUnit (nameUnit ok) unicodeEscapeWidth ok where
  nil := rfl
  escaped := by
    intro t
    simp only [nameUnit]
    split <;> simp_all
  plain := by
    intro c t hback
    unfold nameUnit
    split
    · next heq => exact absurd (List.cons.inj heq).1 hback
    · next heq => rw [(List.cons.inj heq).1]
    · next heq => cases heq

/-- A carriage return takes a line break behind it into the escape. -/
theorem repeats_escape : Repeats escapeWidth fun r r' => r.head? = r'.head? := by
  intro t h
  unfold escapeWidth at h
  split at h
  · exact absurd rfl h
  · next a b r =>
      split at h
      · next hhex => exact ⟨['x', a, b], r, rfl, by simp, by simp [escapeWidth, hhex], by simp [escapeWidth, hhex]⟩
      · exact absurd rfl h
  · exact absurd rfl h
  · next cs =>
      obtain ⟨u, r, hur, hne, hu, hagain⟩ := repeats_unicodeEscape ('u' :: cs) h
      obtain ⟨c, u, rfl⟩ := List.exists_cons_of_ne_nil hne
      rw [List.cons_append, List.cons.injEq] at hur
      obtain ⟨rfl, rfl⟩ := hur
      refine ⟨'u' :: u, r, rfl, hne, hu, ?_⟩
      intro r' _
      exact hagain r' trivial
  · next r => exact ⟨['\r', '\n'], r, rfl, by simp, rfl, fun r' _ => rfl⟩
  · next c r hx hxr hu hr =>
      have hunit : ∀ r', r.head? = r'.head? → escapeWidth (c :: r') = 1 := by
        intro r' hhead
        unfold escapeWidth
        split
        · next heq => cases heq
        · next heq =>
            cases heq
            exact absurd rfl hxr
        · next heq =>
            cases heq
            exact absurd rfl hxr
        · next heq =>
            cases heq
            exact absurd rfl hu
        · next heq =>
            cases heq
            obtain ⟨r, rfl⟩ := List.head?_eq_some_iff.mp hhead
            exact absurd rfl (hr r rfl)
        · rfl
      exact ⟨[c], r, rfl, by simp, hunit r rfl, hunit⟩

theorem escapeUnit_string (quote : Char) : EscapeUnit (stringUnit quote) escapeWidth
    fun c => !(c == quote || c == '\r' || c == '\n') where
  nil := rfl
  escaped := by
    intro t
    simp only [stringUnit]
    split <;> simp_all
  plain := by
    intro c t hback
    unfold stringUnit
    split
    · next heq => cases heq
    · next heq => exact absurd (List.cons.inj heq).1 hback
    · next heq =>
        rw [← (List.cons.inj heq).1]
        cases c == quote || c == '\r' || c == '\n' <;> rfl

/-! ## Words -/

/-- A word that is spelled without escapes. -/
structure IsWord (y : Text) : Prop where
  head : ∃ c cs, y = c :: cs ∧ isNameStart c = true
  all : ∀ c ∈ y, isNamePart c = true

instance (y : Text) : Decidable (IsWord y) :=
  decidable_of_iff ((y.head?.any isNameStart && y.all isNamePart) = true) <| by
    rw [Bool.and_eq_true, Option.any_eq_true, List.all_eq_true]
    constructor
    · rintro ⟨⟨c, hc, hstart⟩, hall⟩
      obtain ⟨cs, rfl⟩ := List.head?_eq_some_iff.mp hc
      exact ⟨⟨c, cs, rfl, hstart⟩, hall⟩
    · rintro ⟨⟨c, cs, rfl, hstart⟩, hall⟩
      exact ⟨⟨c, rfl, hstart⟩, hall⟩

theorem isNamePart_ne_backslash {c : Char} (h : isNamePart c = true) : c ≠ '\\' := by
  rintro rfl
  exact absurd h (by decide)

theorem nameUnit_eq_one {ok : Char → Bool} {c : Char} (hc : ok c = true) (hne : c ≠ '\\')
    (t : Text) : nameUnit ok (c :: t) = 1 := by
  unfold nameUnit
  split
  · next heq => exact absurd (List.cons.inj heq).1 hne
  · next heq =>
      rw [← (List.cons.inj heq).1, if_pos hc]
  · next heq => simp at heq

theorem nameUnit_eq_zero {ok : Char → Bool} {t : Text}
    (h : ∀ c ∈ t.head?, ok c = false ∧ c ≠ '\\') : nameUnit ok t = 0 := by
  unfold nameUnit
  split
  · exact absurd rfl (h _ rfl).2
  · next c _ _ => simp [(h c rfl).1]
  · rfl

theorem munch_name {ok : Char → Bool} {y v : Text} (hy : ∀ c ∈ y, ok c = true ∧ c ≠ '\\')
    (hv : nameUnit ok v = 0) : munch (nameUnit ok) 0 (y ++ v) = (y, v) := by
  induction y with
  | nil => exact munch_of_width_eq_zero hv
  | cons c y ih =>
      have hc := hy c (by simp)
      have := @munch_unit (nameUnit ok) [c] (y ++ v) (by simp)
        (nameUnit_eq_one hc.1 hc.2 _)
      rw [List.singleton_append] at this
      rw [List.cons_append, this, ih fun d hd => hy d (by simp [hd])]
      rfl

/-- What is spelled like a name is a word. -/
theorem scan_of_name {y v : Text} (hhead : ∃ c ∈ y.head?, (isNameStart c || c == '\\') = true)
    (hstart : nameUnit isNameStart (y ++ v) ≠ 0)
    (h : munch (nameUnit isNamePart) 0 (y ++ v) = (y, v)) :
    scan (y ++ v) = ⟨.word (Word.ofText y), y, v⟩ := by
  obtain ⟨c, hc, hname⟩ := hhead
  obtain ⟨cs, rfl⟩ := List.head?_eq_some_iff.mp hc
  have hscan : scanName (c :: cs ++ v) = (c :: cs, v) := by
    unfold scanName
    split
    · next hzero => exact absurd hzero hstart
    · exact h
  rw [List.cons_append] at hscan ⊢
  simp only [scan, hname, if_true, hscan]

/-- A word without escapes is read as far as its characters go. -/
theorem scan_word {y v : Text} (hy : IsWord y)
    (hv : ∀ c ∈ v.head?, isNamePart c = false ∧ c ≠ '\\') :
    scan (y ++ v) = ⟨.word (Word.ofText y), y, v⟩ := by
  have hall : ∀ d ∈ y, isNamePart d = true ∧ d ≠ '\\' :=
    fun d hd => ⟨hy.all d hd, isNamePart_ne_backslash (hy.all d hd)⟩
  obtain ⟨c, cs, rfl, hstart⟩ := hy.head
  have hback := (hall c (by simp)).2
  refine scan_of_name ⟨c, rfl, by rw [hstart]; rfl⟩ ?_ (munch_name hall (nameUnit_eq_zero hv))
  rw [List.cons_append, nameUnit_eq_one hstart hback]
  exact Nat.one_ne_zero

/-- How a word was read. -/
theorem name_of_scan {w : Word} {y v : Text} (h : scan (y ++ v) = ⟨.word w, y, v⟩) :
    w = Word.ofText y ∧ (∃ c ∈ y.head?, (isNameStart c || c == '\\') = true) ∧
      nameUnit isNameStart (y ++ v) ≠ 0 ∧ munch (nameUnit isNamePart) 0 (y ++ v) = (y, v) := by
  generalize ht : y ++ v = t at h
  unfold scan at h
  split at h
  · cases h
  · next c cs =>
      split at h
      · next hstart =>
          split at h
          · cases h
          · next name rest hne hname =>
              cases h
              unfold scanName at hname
              split at hname
              · exact absurd (Prod.mk.inj hname).1.symm hne
              · next hunit =>
                  refine ⟨rfl, ?_, by rw [hunit]; exact Nat.succ_ne_zero _, hname⟩
                  obtain ⟨d, ds, rfl⟩ := List.exists_cons_of_ne_nil (fun hnil => hne hnil)
                  rw [List.cons_append, List.cons.injEq] at ht
                  exact ⟨d, rfl, by rw [ht.1]; exact hstart⟩
      · split at h
        · cases h
        · split at h
          · split at h <;> cases h
          · split at h
            · split at h <;> cases h
            · split at h
              · split at h <;> cases h
              · cases h
              · cases h

/-- **A word that was read once is read wherever what follows does not run on.** -/
theorem scan_name_again {w : Word} {y v v' : Text} (h : scan (y ++ v) = ⟨.word w, y, v⟩)
    (hv' : nameUnit isNamePart v' = 0) : scan (y ++ v') = ⟨.word w, y, v'⟩ := by
  obtain ⟨rfl, ⟨c, hc, hname⟩, hstart, hmunch⟩ := name_of_scan h
  have hagain := munch_again ((escapeUnit_name isNamePart).repeats repeats_unicodeEscape) hmunch hv'
    fun _ => trivial
  refine scan_of_name ⟨c, hc, hname⟩ ?_ hagain
  obtain ⟨cs, rfl⟩ := List.head?_eq_some_iff.mp hc
  by_cases hback : c = '\\'
  · subst hback
    -- an escape may start a name wherever it may continue one
    intro hzero
    rw [munch_of_width_eq_zero (show nameUnit isNamePart ('\\' :: cs ++ v') = 0 from hzero)] at hagain
    cases hagain
  · have hok : isNameStart c = true := by simpa [hback] using hname
    rw [List.cons_append, nameUnit_eq_one hok hback]
    exact Nat.one_ne_zero

/-! ## Strings -/

/-- A string ends at its quote, whatever follows. -/
theorem scanString?_again {quote : Char} (hquote : quote = '"' ∨ quote = '\'') {t body v : Text}
    (h : scanString? quote t = some (body, v)) (v' : Text) :
    scanString? quote (body ++ v') = some (body, v') := by
  unfold scanString? at h
  split at h
  · next inner c rest hmunch =>
      split at h
      · next hclose =>
          rw [beq_iff_eq] at hclose
          cases h
          subst hclose
          have hback : c ≠ '\\' := by
            rintro rfl
            simp at hquote
          have hend : stringUnit c (c :: v') = 0 := by
            rw [(escapeUnit_string c).plain c v' hback]
            simp
          have hagain := munch_again ((escapeUnit_string c).repeats repeats_escape) hmunch hend
            (by intro x; cases x <;> rfl)
          rw [scanString?, List.append_assoc, List.singleton_append, hagain]
          simp
      · cases h
  · cases h

/-- **A string that was read once is read anywhere.** -/
theorem scan_string {y v : Text} (h : scan (y ++ v) = ⟨.string, y, v⟩) :
    ∃ c cs, y = c :: cs ∧ (c = '"' ∨ c = '\'') ∧ ∀ v', scan (y ++ v') = ⟨.string, y, v'⟩ := by
  generalize ht : y ++ v = t at h
  unfold scan at h
  split at h
  · cases h
  · next c cs =>
      split at h
      · split at h <;> cases h
      · next hname =>
          split at h
          · cases h
          · next hdigit =>
              split at h
              · next hquote =>
                  split at h
                  · next body rest hbody =>
                      cases h
                      have hcases : c = '"' ∨ c = '\'' := by simpa using hquote
                      refine ⟨c, body, rfl, hcases, ?_⟩
                      intro v'
                      have hbody' := scanString?_again hcases hbody v'
                      rcases hcases with rfl | rfl
                      · rw [List.cons_append]
                        simp only [scan, hbody']
                        rfl
                      · rw [List.cons_append]
                        simp only [scan, hbody']
                        rfl
                  · cases h
              · split at h
                · split at h <;> cases h
                · split at h
                  · split at h <;> cases h
                  · cases h
                  · cases h

/-! ## Punctuation -/

theorem scan_of_scanPunct {c : Char} {v : Text} {p : Punct}
    (hname : (isNameStart c || c == '\\') = false) (hdigit : c.isDigit = false) (hdot : c ≠ '.')
    (hquote : (c == '"' || c == '\'') = false) (hhash : c ≠ '#') (hp : p ≠ .questionDot)
    (h : scanPunct Punct.table (c :: v) = some (p, v)) : scan (c :: v) = ⟨.punct p, [c], v⟩ := by
  have htake : (c :: v).take ((c :: v).length - v.length) = [c] := by
    rw [List.length_cons, Nat.add_sub_cancel_left]
    rfl
  unfold scan
  simp only [hname, hdigit, hquote, Bool.false_eq_true, if_false, Bool.false_or]
  rw [if_neg (by simp [hdot]), if_neg (by simpa using hhash)]
  split
  · next heq =>
      rw [h] at heq
      exact absurd (Prod.mk.inj (Option.some.inj heq)).1 hp
  · next heq =>
      rw [h] at heq
      cases heq
      rw [htake]
  · next heq =>
      rw [h] at heq
      cases heq

theorem scan_star {v : Text} (hv : ∀ c ∈ v.head?, c ≠ '*' ∧ c ≠ '=') :
    scan ('*' :: v) = ⟨.punct .star, ['*'], v⟩ := by
  refine scan_of_scanPunct (by decide) (by decide) (by decide) (by decide) (by decide) (by decide) ?_
  cases v with
  | nil => rfl
  | cons c v =>
      obtain ⟨h₁, h₂⟩ := hv c rfl
      simp [scanPunct, Punct.table, after?, Ne.symm h₁, Ne.symm h₂]

/-! ## Tokens of an import -/

end Lexer

namespace Token

open Lexer

/-- The tokens an import is made of. -/
def isOfImport : Token → Bool
  | .word _ | .string | .punct .lbrace | .punct .rbrace | .punct .comma | .punct .semi
  | .punct .star => true
  | _ => false

/-- The text `v` does not run on from the token in front of it. -/
def Clear : Token → Text → Prop
  | .word _, v => ∀ c ∈ v.head?, isNamePart c = false ∧ c ≠ '\\'
  | .punct .star, v => ∀ c ∈ v.head?, c ≠ '*' ∧ c ≠ '='
  | _, _ => True

/-- The text `y` is read as the token wherever the text behind it does not run on. -/
structure Stands (tok : Token) (y : Text) : Prop where
  head : ∃ c cs, y = c :: cs ∧ isSpace c = false ∧ c ≠ '/'
  scan : ∀ v, tok.Clear v → scan (y ++ v) = ⟨tok, y, v⟩

theorem Stands.unskipped {tok : Token} {y : Text} (h : tok.Stands y) (v : Text) :
    triviaUnit (y ++ v) = 0 := by
  obtain ⟨c, cs, rfl, hspace, hslash⟩ := h.head
  exact triviaUnit_of_head hspace hslash _

theorem Stands.ne_nil {tok : Token} {y : Text} (h : tok.Stands y) : y ≠ [] := by
  obtain ⟨c, cs, rfl, -⟩ := h.head
  simp

end Token

namespace Lexer

open Text

theorem isSpace_of_isNameStart {c : Char} (h : isNameStart c = true) : isSpace c = false ∧ c ≠ '/' := by
  have hpart : isNamePart c = true := by
    rw [isNameStart, Bool.and_eq_true] at h
    exact h.1
  constructor
  · cases hspace : isSpace c with
    | false => rfl
    | true =>
        rw [isNamePart_of_isSpace hspace] at hpart
        exact absurd hpart (by simp)
  · rintro rfl
    exact absurd hpart (by decide)

theorem stands_word {y : Text} (hy : IsWord y) : (Token.word (Word.ofText y)).Stands y where
  head := by
    obtain ⟨c, cs, rfl, hstart⟩ := hy.head
    exact ⟨c, cs, rfl, isSpace_of_isNameStart hstart⟩
  scan := fun _ hv => scan_word hy hv

theorem stands_single {c : Char} {p : Punct}
    (hc : (c, p) ∈ [('\x7b', Punct.lbrace), ('\x7d', .rbrace), (',', .comma), (';', .semi)]) :
    (Token.punct p).Stands [c] where
  head := by
    refine ⟨c, [], rfl, ?_⟩
    simp only [List.mem_cons, Prod.mk.injEq, List.not_mem_nil, or_false] at hc
    rcases hc with ⟨rfl, -⟩ | ⟨rfl, -⟩ | ⟨rfl, -⟩ | ⟨rfl, -⟩ <;> decide
  scan := by
    intro v _
    simp only [List.mem_cons, Prod.mk.injEq, List.not_mem_nil, or_false] at hc
    rcases hc with ⟨rfl, rfl⟩ | ⟨rfl, rfl⟩ | ⟨rfl, rfl⟩ | ⟨rfl, rfl⟩ <;>
      exact scan_of_scanPunct (by decide) (by decide) (by decide) (by decide) (by decide)
        (by decide) rfl

/-- The spellings of the punctuation of an import. -/
theorem spelling_of_import {y : Text} {p : Punct} (h : (y, p) ∈ Punct.table)
    (hp : (Token.punct p).isOfImport = true) :
    (∃ c, y = [c] ∧
      (c, p) ∈ [('\x7b', Punct.lbrace), ('\x7d', .rbrace), (',', .comma), (';', .semi)]) ∨
      y = ['*'] ∧ p = .star := by
  have hall : ∀ e ∈ Punct.table, (Token.punct e.2).isOfImport = true →
      (e.1 = ['\x7b'] ∧ e.2 = .lbrace) ∨ (e.1 = ['\x7d'] ∧ e.2 = .rbrace) ∨
        (e.1 = [','] ∧ e.2 = .comma) ∨ (e.1 = [';'] ∧ e.2 = .semi) ∨ (e.1 = ['*'] ∧ e.2 = .star) := by
    decide
  rcases hall (y, p) h hp with ⟨rfl, rfl⟩ | ⟨rfl, rfl⟩ | ⟨rfl, rfl⟩ | ⟨rfl, rfl⟩ | ⟨rfl, rfl⟩
  · exact Or.inl ⟨_, rfl, by simp⟩
  · exact Or.inl ⟨_, rfl, by simp⟩
  · exact Or.inl ⟨_, rfl, by simp⟩
  · exact Or.inl ⟨_, rfl, by simp⟩
  · exact Or.inr ⟨rfl, rfl⟩

/-- **A token of an import stands by itself**: where it was read once it is read anywhere. -/
theorem stands_of_scan {tok : Token} {y v : Text} (h : scan (y ++ v) = ⟨tok, y, v⟩)
    (htok : tok.isOfImport = true) : tok.Stands y := by
  cases tok with
  | word w =>
      obtain ⟨-, ⟨c, hc, hname⟩, -⟩ := name_of_scan h
      obtain ⟨cs, rfl⟩ := List.head?_eq_some_iff.mp hc
      refine ⟨⟨c, cs, rfl, ?_⟩, fun v' hv' => scan_name_again h (nameUnit_eq_zero hv')⟩
      rw [Bool.or_eq_true, beq_iff_eq] at hname
      rcases hname with hstart | rfl
      · exact isSpace_of_isNameStart hstart
      · decide
  | string =>
      obtain ⟨c, cs, rfl, hc, hscan⟩ := scan_string h
      refine ⟨⟨c, cs, rfl, ?_⟩, fun v' _ => hscan v'⟩
      rcases hc with rfl | rfl <;> decide
  | punct p =>
      rcases spelling_of_import (scan_punct h) htok with ⟨c, rfl, hc⟩ | ⟨rfl, rfl⟩
      · exact stands_single hc
      · exact ⟨⟨'*', [], rfl, by decide⟩, fun v' hv' => scan_star hv'⟩
  | privateName => exact absurd htok (by decide)
  | number => exact absurd htok (by decide)
  | eof => exact absurd htok (by decide)
  | unknown => exact absurd htok (by decide)

/-- A token of an import does not run on into what follows it, unless that is an escape. -/
theorem clear_of_scan {tok : Token} {y v : Text} (h : scan (y ++ v) = ⟨tok, y, v⟩)
    (htok : tok.isOfImport = true) (hv : v.head? = some '\\' → nameUnit isNamePart v ≠ 0) :
    tok.Clear v := by
  cases tok with
  | word w =>
      have hunit : nameUnit isNamePart v = 0 := by
        have hrest := width_munch (nameUnit isNamePart) rfl 0 (y ++ v)
        rwa [(name_of_scan h).2.2.2] at hrest
      intro c hc
      obtain ⟨v, rfl⟩ := List.head?_eq_some_iff.mp hc
      have hback : c ≠ '\\' := by
        rintro rfl
        exact hv rfl hunit
      refine ⟨?_, hback⟩
      by_cases hpart : isNamePart c = true
      · rw [nameUnit_eq_one hpart hback] at hunit
        exact absurd hunit Nat.one_ne_zero
      · simpa using hpart
  | punct p =>
      rcases spelling_of_import (scan_punct h) htok with ⟨c, rfl, hc⟩ | ⟨rfl, rfl⟩
      · simp only [List.mem_cons, Prod.mk.injEq, List.not_mem_nil, or_false] at hc
        rcases hc with ⟨-, rfl⟩ | ⟨-, rfl⟩ | ⟨-, rfl⟩ | ⟨-, rfl⟩ <;> trivial
      · intro c hc
        obtain ⟨v, rfl⟩ := List.head?_eq_some_iff.mp hc
        -- the longer spellings come first in the table
        constructor
        · rintro rfl
          cases v with
          | nil => cases h
          | cons d v =>
              by_cases hd : d = '='
              · subst hd
                cases h
              · simp [scan, scanPunct, Punct.table, after?, Ne.symm hd, isNameStart, isNamePart] at h
        · rintro rfl
          cases h
  | string => trivial
  | privateName => trivial
  | number => trivial
  | eof => trivial
  | unknown => trivial

end Lexer

/-! ## Lexemes -/

open Lexer

/-- A token with its spelling and with what is skipped in front of it. -/
structure Lexeme where
  lead : Text
  token : Token
  body : Text

namespace Lexeme

/-- The text of a lexeme. -/
def text (l : Lexeme) : Text := l.lead ++ l.body

/-- The text of lexemes in a row. -/
def join (ls : List Lexeme) : Text := ls.flatMap text

@[simp] theorem join_nil : join [] = [] := rfl

@[simp] theorem join_cons (l : Lexeme) (ls : List Lexeme) : join (l :: ls) = l.text ++ join ls := rfl

@[simp] theorem join_append (ls ms : List Lexeme) : join (ls ++ ms) = join ls ++ join ms :=
  List.flatMap_append

/-- A lexeme that is read wherever what follows does not run on. -/
structure Sound (l : Lexeme) : Prop where
  lead : Filler l.lead
  body : l.token.Stands l.body

/-- Whether a token separates or closes the names in braces. -/
def isSeparator (l : Lexeme) : Bool := l.token == .punct .comma || l.token == .punct .rbrace

theorem isSeparator_iff {l : Lexeme} :
    l.isSeparator = true ↔ l.token = .punct .comma ∨ l.token = .punct .rbrace := by
  simp [isSeparator]

theorem Sound.body_of_isSeparator {l : Lexeme} (h : l.Sound) (hl : l.isSeparator = true) :
    l.body = [','] ∨ l.body = ['\x7d'] := by
  have hall : ∀ e ∈ Punct.table, e.2 = .comma ∨ e.2 = .rbrace → e.1 = [','] ∨ e.1 = ['\x7d'] := by
    decide
  have hscan := h.body.scan []
  rcases isSeparator_iff.mp hl with hl | hl
  · rw [hl] at hscan
    exact hall (l.body, .comma) (scan_punct (hscan trivial)) (Or.inl rfl)
  · rw [hl] at hscan
    exact hall (l.body, .rbrace) (scan_punct (hscan trivial)) (Or.inr rfl)

/-- Nothing runs on into a lexeme that has skipped text in front or is a comma or a closing brace. -/
theorem Sound.clear {l : Lexeme} (h : l.Sound) (hl : l.lead ≠ [] ∨ l.isSeparator = true)
    (tok : Token) : tok.Clear l.text := by
  have hhead : ∀ c ∈ l.text.head?, isSpace c = true ∨ c = '/' ∨ c = ',' ∨ c = '\x7d' := by
    intro c hc
    by_cases hlead : l.lead = []
    · rw [text, hlead, List.nil_append] at hc
      rcases h.body_of_isSeparator (hl.resolve_left (by simp [hlead])) with hbody | hbody
      · rw [hbody] at hc
        exact Or.inr (Or.inr (Or.inl (Option.some.inj hc).symm))
      · rw [hbody] at hc
        exact Or.inr (Or.inr (Or.inr (Option.some.inj hc).symm))
    · obtain ⟨d, ds, hd⟩ := List.exists_cons_of_ne_nil hlead
      rw [text, hd] at hc
      have hfirst := h.lead.head?_cases c (by rw [hd]; exact hc)
      exact hfirst.imp id Or.inl
  unfold Token.Clear
  split
  · intro c hc
    rcases hhead c hc with hspace | rfl | rfl | rfl
    · refine ⟨isNamePart_of_isSpace hspace, ?_⟩
      rintro rfl
      exact absurd hspace (by decide)
    · decide
    · decide
    · decide
  · intro c hc
    rcases hhead c hc with hspace | rfl | rfl | rfl
    · constructor <;>
      · rintro rfl
        exact absurd hspace (by decide)
    · decide
    · decide
    · decide
  · trivial

end Lexeme

open Lexeme

/-- Lexemes that can be read in a row. -/
structure Strung (ls : List Lexeme) : Prop where
  sound : ∀ l ∈ ls, l.Sound
  linked : ls.IsChain fun l l' => l.token.Clear l'.text

/-- The lexemes are read one after another in front of the text `v`. -/
def Spelt : List Lexeme → Text → Prop
  | [], _ => True
  | l :: ls, v => Filler l.lead ∧ l.body ≠ [] ∧ triviaUnit (l.body ++ (join ls ++ v)) = 0 ∧
      scan (l.body ++ (join ls ++ v)) = ⟨l.token, l.body, join ls ++ v⟩ ∧ Spelt ls v

theorem spelt_append {ls ms : List Lexeme} {v : Text} :
    Spelt (ls ++ ms) v ↔ Spelt ls (join ms ++ v) ∧ Spelt ms v := by
  induction ls with
  | nil => simp [Spelt]
  | cons l ls ih =>
      simp only [List.cons_append, Spelt, join_append, List.append_assoc, ih, and_assoc]

/-- The text of a lexeme is not empty. -/
theorem Token.Stands.head?_append {tok : Token} {y : Text} (h : tok.Stands y) (lead v : Text) :
    (lead ++ y ++ v).head? = (lead ++ y).head? := by
  obtain ⟨c, cs, heq⟩ := List.exists_cons_of_ne_nil
    (List.append_ne_nil_of_right_ne_nil lead h.ne_nil)
  rw [heq]
  rfl

theorem Token.clear_congr {tok : Token} {v w : Text} (h : v.head? = w.head?) :
    tok.Clear v ↔ tok.Clear w := by
  unfold Token.Clear
  split <;> simp only [h]

/-- **Lexemes that can be read in a row are read in a row**, unless what follows runs on from the last
one. -/
theorem Strung.spelt {ls : List Lexeme} {v : Text} (h : Strung ls)
    (hv : ∀ l ∈ ls.getLast?, l.token.Clear v) : Spelt ls v := by
  obtain ⟨hsound, hlinked⟩ := h
  induction ls with
  | nil => trivial
  | cons l ls ih =>
      have hl := hsound l (by simp)
      have hclear : l.token.Clear (join ls ++ v) := by
        cases ls with
        | nil => exact hv l (by simp)
        | cons l' ls =>
            have hl' := hsound l' (by simp)
            have hhead : (join (l' :: ls) ++ v).head? = l'.text.head? := by
              rw [join_cons, List.append_assoc]
              exact hl'.body.head?_append _ _
            exact (Token.clear_congr hhead).mpr (List.isChain_cons_cons.mp hlinked).1
      refine ⟨hl.lead, hl.body.ne_nil, hl.body.unskipped _, hl.body.scan _ hclear, ?_⟩
      refine ih ?_ (fun m hm => hsound m (by simp [hm])) hlinked.tail
      intro m hm
      refine hv m ?_
      cases ls with
      | nil => simp at hm
      | cons l' ls =>
          rw [List.getLast?_cons_cons]
          exact hm

/-- A text is read as the same lexemes each time. -/
theorem Spelt.unique {ls ms : List Lexeme} {v : Text} (h : Spelt ls v) (h' : Spelt ms v)
    (heq : join ls = join ms) : ls = ms := by
  have hnil : ∀ {l : Lexeme} {ls : List Lexeme}, Spelt (l :: ls) v → join (l :: ls) ≠ [] := by
    intro l ls h hnone
    rw [join_cons, text, List.append_eq_nil_iff, List.append_eq_nil_iff] at hnone
    exact h.2.1 hnone.1.2
  induction ls generalizing ms with
  | nil =>
      cases ms with
      | nil => rfl
      | cons m ms => exact absurd heq.symm (hnil h')
  | cons l ls ih =>
      cases ms with
      | nil => exact absurd heq (hnil h)
      | cons m ms =>
          obtain ⟨hlead, -, hunit, hscan, hrest⟩ := h
          obtain ⟨hlead', -, hunit', hscan', hrest'⟩ := h'
          have htext : l.lead ++ (l.body ++ (join ls ++ v)) = m.lead ++ (m.body ++ (join ms ++ v)) := by
            have := congrArg (· ++ v) heq
            simpa [text] using this
          have htrivia := hlead.trivia_eq hunit
          rw [htext, hlead'.trivia_eq hunit'] at htrivia
          obtain ⟨hleads, hbodies⟩ := Prod.mk.inj htrivia
          rw [← hbodies, hscan'] at hscan
          obtain ⟨htok, hbody, hgap⟩ := Scanned.mk.inj hscan
          have hls : ls = ms := ih hrest hrest' (List.append_cancel_right hgap.symm)
          obtain ⟨lead, tok, body⟩ := l
          obtain ⟨lead', tok', body'⟩ := m
          cases hleads
          cases htok
          cases hbody
          rw [hls]

/-- A token of an import that starts with an escape is a word. -/
theorem nameUnit_of_scan {tok : Token} {y v : Text} (h : scan (y ++ v) = ⟨tok, y, v⟩)
    (htok : tok.isOfImport = true) (hy : y.head? = some '\\') : nameUnit isNamePart (y ++ v) ≠ 0 := by
  obtain ⟨cs, rfl⟩ := List.head?_eq_some_iff.mp hy
  cases tok with
  | word w => exact (name_of_scan h).2.2.1
  | string =>
      obtain ⟨c, cs, heq, hc, -⟩ := scan_string h
      cases heq
      simp at hc
  | punct p =>
      rcases spelling_of_import (scan_punct h) htok with ⟨c, heq, hc⟩ | ⟨heq, -⟩
      · cases heq
        simp at hc
      · cases heq
  | privateName => exact absurd htok (by decide)
  | number => exact absurd htok (by decide)
  | eof => exact absurd htok (by decide)
  | unknown => exact absurd htok (by decide)

/-- **Lexemes of an import that were read in a row can be read in a row.** -/
theorem Spelt.strung {ls : List Lexeme} {v : Text} (h : Spelt ls v)
    (htok : ∀ l ∈ ls, l.token.isOfImport = true) : Strung ls := by
  induction ls with
  | nil => exact ⟨by simp, List.isChain_nil⟩
  | cons l ls ih =>
      obtain ⟨hlead, hne, hunit, hscan, hrest⟩ := h
      have hstands := stands_of_scan hscan (htok l (by simp))
      obtain ⟨hsound, hlinked⟩ := ih hrest fun m hm => htok m (by simp [hm])
      refine ⟨?_, ?_⟩
      · intro m hm
        rcases List.mem_cons.mp hm with rfl | hm
        · exact ⟨hlead, hstands⟩
        · exact hsound m hm
      · cases ls with
        | nil => exact List.isChain_singleton _
        | cons l' ls =>
            refine List.isChain_cons_cons.mpr ⟨?_, hlinked⟩
            have hl' := hsound l' (by simp)
            have hhead : (join (l' :: ls) ++ v).head? = l'.text.head? := by
              rw [join_cons, List.append_assoc]
              exact hl'.body.head?_append _ _
            refine (Token.clear_congr hhead).mp (clear_of_scan hscan (htok l (by simp)) ?_)
            intro hback
            rw [hhead, text] at hback
            by_cases hlead' : l'.lead = []
            · -- an escape behind a word would be part of it
              rw [hlead', List.nil_append] at hback
              rw [join_cons, text, hlead', List.nil_append, List.append_assoc]
              exact nameUnit_of_scan hrest.2.2.2.1 (htok l' (by simp)) hback
            · obtain ⟨c, cs, hcs⟩ := List.exists_cons_of_ne_nil hlead'
              rw [hcs] at hback
              rcases hl'.lead.head?_cases c (by rw [hcs]; rfl) with hspace | rfl
              · cases hback
                exact absurd hspace (by decide)
              · cases hback

/-! ## Places and lexemes -/

section Places

variable {t : Text} {s s' s'' : State} {l : Lexeme} {ls ms : List Lexeme} {v : Text}

/-- The lexemes `ls` are read from the place `s` on, and then the text `v` follows. -/
structure Offers (t : Text) (s : State) (ls : List Lexeme) (v : Text) : Prop where
  sound : s.Sound t
  gap : s.gap = join ls ++ v
  spelt : Spelt ls v

namespace Offers

theorem here (h : Offers t s (l :: ls) v) :
    s.start = s.prevStop + Text.size l.lead ∧ s.here = l.body ++ (join ls ++ v) := by
  obtain ⟨hlead, -, hunit, -, -⟩ := h.spelt
  obtain ⟨u, cs, old, hgap, hstart, hskips, -⟩ := h.sound.skips
  have h₁ := hskips.trivia_eq h.sound.unskipped
  have h₂ := hlead.trivia_eq hunit
  rw [← hgap, h.gap, join_cons, text, List.append_assoc, List.append_assoc, h₂] at h₁
  obtain ⟨rfl, hhere⟩ := Prod.mk.inj h₁
  exact ⟨hstart, hhere.symm⟩

theorem tok (h : Offers t s (l :: ls) v) : s.tok = l.token := by
  obtain ⟨u, hscan, -⟩ := h.sound.scanned
  obtain ⟨-, -, -, hscan', -⟩ := h.spelt
  rw [h.here.2, hscan'] at hscan
  exact (Scanned.mk.inj hscan).1.symm

theorem stop (h : Offers t s (l :: ls) v) : s.stop = s.prevStop + Text.size l.text := by
  obtain ⟨u, hscan, hstop⟩ := h.sound.scanned
  obtain ⟨-, -, -, hscan', -⟩ := h.spelt
  rw [h.here.2, hscan'] at hscan
  obtain ⟨-, rfl, -⟩ := Scanned.mk.inj hscan
  rw [hstop, h.here.1, text, Text.size_append, Nat.add_assoc]

/-- The text of the next token is that of the lexeme. -/
theorem span? (h : Offers t s (l :: ls) v) : t.span? ⟨s.start, s.stop⟩ = some l.body := by
  obtain ⟨hstart, hhere⟩ := h.here
  obtain ⟨x, hx, hsize⟩ := h.sound.here
  have hstop := h.stop
  refine Text.slice?_eq_some_iff.mpr ⟨x, join ls ++ v, ?_, hsize, ?_⟩
  · rw [hx, hhere, List.append_assoc]
  · dsimp only
    rw [hstop, text, Text.size_append, hstart]
    omega

/-- The lexemes after the first are read from the next place on. -/
theorem advance (h : Offers t s (l :: ls) v) : Offers t s.advance ls v where
  sound := (Parser.step_advance h.sound s.start).sound
  gap := by
    obtain ⟨u, hscan, -⟩ := h.sound.scanned
    obtain ⟨-, -, -, hscan', -⟩ := h.spelt
    rw [h.here.2, hscan'] at hscan
    exact (Scanned.mk.inj hscan).2.2.symm
  spelt := h.spelt.2.2.2.2

theorem withFar (h : Offers t s ls v) (far : Blocked) : Offers t { s with far := far } ls v :=
  ⟨h.sound.withFar far, h.gap, h.spelt⟩

/-- How far a place is that has passed some of the lexemes. -/
theorem prevStop_eq (h : Offers t s (ls ++ ms) v) (h' : Offers t s' ms v) :
    s'.prevStop = s.prevStop + Text.size (join ls) := by
  obtain ⟨u, hu, hsize⟩ := h.sound.gap
  obtain ⟨u', hu', hsize'⟩ := h'.sound.gap
  have hlen := congrArg Text.size (hu.symm.trans hu')
  rw [h.gap, h'.gap] at hlen
  simp only [join_append, Text.size_append] at hlen
  omega

/-- A lexeme takes up some bytes. -/
theorem prevStop_lt (h : Offers t s (l :: ls ++ ms) v) (h' : Offers t s' ms v) :
    s.prevStop < s'.prevStop := by
  have hpos : 0 < Text.size l.text := by
    apply Text.size_pos
    have hne := h.spelt.2.1
    simp [text, hne]
  rw [prevStop_eq h h', join_cons, Text.size_append]
  omega

end Offers

/-- The place `s'` comes behind the lexemes `ls`, which are read from the place `s` on. -/
structure Passes (t : Text) (s : State) (ls : List Lexeme) (s' : State) : Prop where
  offers : Offers t s ls s'.gap
  sound : s'.Sound t
  prev : s'.prevStop = s.prevStop + Text.size (join ls)

namespace Passes

theorem refl (hs : s.Sound t) (far : Blocked) : Passes t s [] { s with far := far } :=
  ⟨⟨hs, rfl, trivial⟩, hs.withFar far, rfl⟩

/-- It does not matter which tokens could not be read before. -/
theorem ofFar {far : Blocked} (hs : s.Sound t) (h : Passes t { s with far := far } ls s') :
    Passes t s ls s' :=
  ⟨⟨hs, h.offers.gap, h.offers.spelt⟩, h.sound, h.prev⟩

theorem trans (h₁ : Passes t s ls s') (h₂ : Passes t s' ms s'') : Passes t s (ls ++ ms) s'' where
  offers := by
    refine ⟨h₁.offers.sound, ?_, spelt_append.mpr ⟨?_, h₂.offers.spelt⟩⟩
    · rw [h₁.offers.gap, h₂.offers.gap, join_append, List.append_assoc]
    · rw [← h₂.offers.gap]
      exact h₁.offers.spelt
  sound := h₂.sound
  prev := by
    rw [h₂.prev, h₁.prev, join_append, Text.size_append, Nat.add_assoc]

end Passes

/-- The next token with its layout. -/
theorem State.Sound.exists_lexeme (hs : s.Sound t) (htok : s.tok ≠ .eof) :
    ∃ l, l.token = s.tok ∧ Passes t s [l] s.advance := by
  obtain ⟨u, cs, old, hgap, hstart, hskips, -⟩ := hs.skips
  obtain ⟨y, hscan, hstop⟩ := hs.scanned
  obtain ⟨happ, hne⟩ := scan_cases s.here
  rw [hscan] at happ hne
  have hhere : s.here ≠ [] := by
    rw [happ]
    simp [hne htok]
  refine ⟨⟨u, s.tok, y⟩, rfl, ⟨hs, ?_, ?_⟩, (Parser.step_advance hs s.start).sound, ?_⟩
  · show s.gap = join [⟨u, s.tok, y⟩] ++ s.rest
    rw [hgap, happ]
    simp [text]
  · refine ⟨hskips.filler hs.unskipped hhere, hne htok, ?_, ?_, trivial⟩
    · show triviaUnit (y ++ s.rest) = 0
      rw [← happ]
      exact hs.unskipped
    · show scan (y ++ s.rest) = ⟨s.tok, y, s.rest⟩
      rw [← happ]
      exact hscan
  · show s.stop = _
    rw [hstop, hstart]
    simp [text, Nat.add_assoc]

end Places

end Promisify
