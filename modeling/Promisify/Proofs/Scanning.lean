import Promisify.Proofs.Slices
import Promisify.Syntax.Lexer

set_option autoImplicit false

/-! # What scanning leaves

Every scanner cuts its text in two: what it takes and what is left. A token takes at least one
character unless the text is at its end.

In front of a token white space and comments are skipped; `Skips` lists the comments of a skipped
text. A statement without a semicolon ends in skipped text, but never inside a comment (`Cut`).
-/

namespace Promisify

namespace Text

/-- `v` is the text from the offset `k` on. -/
def From (t : Text) (k : Nat) (v : Text) : Prop := ∃ u, t = u ++ v ∧ size u = k

theorem from_zero (t : Text) : t.From 0 t := ⟨[], rfl, rfl⟩

theorem From.isBorder {t v : Text} {k : Nat} (h : t.From k v) : t.IsBorder k := by
  obtain ⟨u, hu, hk⟩ := h
  exact isBorder_iff.mpr ⟨u, v, hu, hk⟩

theorem From.append {t u v : Text} {k : Nat} (h : t.From k (u ++ v)) :
    t.From (k + size u) v := by
  obtain ⟨w, rfl, rfl⟩ := h
  exact ⟨w ++ u, by rw [List.append_assoc], size_append w u⟩

theorem size_pos {t : Text} (h : t ≠ []) : 0 < size t := by
  cases t with
  | nil => exact absurd rfl h
  | cons c t =>
      have := c.utf8Size_pos
      rw [size_cons]
      omega

/-! ## Names in front of an offset -/

/-- Whether a text ends in a character that can stand in a name. -/
def endsInName (t : Text) : Bool := t.getLast?.any Lexer.isNamePart

/-- Whether a character that can stand in a name stands right in front of the offset `k`. -/
def nameBefore (t : Text) (k : Nat) : Bool := (t.splitAt? k).any fun p => endsInName p.1

theorem endsInName_append (u : Text) {v : Text} (hv : v ≠ []) :
    endsInName (u ++ v) = endsInName v := by
  rw [endsInName, endsInName, List.getLast?_append, List.getLast?_eq_some_getLast hv,
    Option.some_or]

theorem nameBefore_append (u v : Text) : nameBefore (u ++ v) (size u) = endsInName u := by
  rw [nameBefore, splitAt?_append]
  rfl

theorem nameBefore_zero (t : Text) : nameBefore t 0 = false := nameBefore_append [] t

/-- What stands in front of an offset is the end of any text that leads up to it. -/
theorem From.nameBefore {t u v : Text} {k : Nat} (h : t.From k (u ++ v)) (hu : u ≠ []) :
    t.nameBefore (k + size u) = endsInName u := by
  obtain ⟨w, rfl, rfl⟩ := h
  rw [← List.append_assoc, ← size_append, nameBefore_append, endsInName_append w hu]

/-- Whether a text starts with a character that can stand in a name. -/
def startsInName (t : Text) : Bool := t.head?.any Lexer.isNamePart

/-- Whether a character that can stand in a name stands right behind the offset `k`. -/
def nameBehind (t : Text) (k : Nat) : Bool := (t.splitAt? k).any fun p => startsInName p.2

theorem startsInName_append {u : Text} (hu : u ≠ []) (v : Text) :
    startsInName (u ++ v) = startsInName u := by
  obtain ⟨c, u, rfl⟩ := List.exists_cons_of_ne_nil hu
  rfl

theorem From.nameBehind_eq {t v : Text} {k : Nat} (h : t.From k v) : t.nameBehind k = startsInName v := by
  obtain ⟨w, rfl, rfl⟩ := h
  rw [nameBehind, splitAt?_append]
  rfl

/-! ## Units -/

theorem munch_append (width : Text → Nat) (k : Nat) (t : Text) :
    (munch width k t).1 ++ (munch width k t).2 = t := by
  induction t generalizing k with
  | nil => rfl
  | cons c t ih =>
      cases k with
      | succ k => simp [munch, ih]
      | zero =>
          cases hw : width (c :: t) with
          | zero => simp [munch, hw]
          | succ k => simp [munch, hw, ih]

/-- The characters still to come are taken whatever they are. -/
theorem munch_pending (width : Text → Nat) (u v : Text) :
    munch width u.length (u ++ v) = (u ++ (munch width 0 v).1, (munch width 0 v).2) := by
  induction u with
  | nil => rfl
  | cons c u ih =>
      rw [List.cons_append, List.length_cons, munch, ih]
      rfl

theorem munch_of_width_eq_zero {width : Text → Nat} {t : Text} (h : width t = 0) :
    munch width 0 t = ([], t) := by
  cases t with
  | nil => rfl
  | cons c t => rw [munch, h]

theorem munch_unit {width : Text → Nat} {u v : Text} (hu : u ≠ [])
    (h : width (u ++ v) = u.length) :
    munch width 0 (u ++ v) = (u ++ (munch width 0 v).1, (munch width 0 v).2) := by
  cases u with
  | nil => exact absurd rfl hu
  | cons c u =>
      rw [List.cons_append] at h ⊢
      rw [munch, h, List.length_cons]
      simp only [munch_pending, List.cons_append]

theorem after?_eq_some {lead t rest : Text} (h : after? lead t = some rest) : t = lead ++ rest := by
  induction lead generalizing t with
  | nil =>
      rw [after?, Option.some.injEq] at h
      exact h
  | cons l lead ih =>
      cases t with
      | nil => simp [after?] at h
      | cons c t =>
          rw [after?] at h
          split at h
          · next hlc => rw [hlc, ih h, List.cons_append]
          · simp at h

end Text

namespace Lexer

open Text

/-! ## Tokens -/

theorem scanName_append (t : Text) : (scanName t).1 ++ (scanName t).2 = t := by
  unfold scanName
  split
  · rfl
  · exact munch_append _ _ t

theorem scanString?_eq_some {quote : Char} {t body rest : Text}
    (h : scanString? quote t = some (body, rest)) : t = body ++ rest := by
  have happ := munch_append (stringUnit quote) 0 t
  unfold scanString? at h
  split at h
  · next body' c rest' hm =>
      rw [hm] at happ
      split at h
      · simp only [Option.some.injEq, Prod.mk.injEq] at h
        obtain ⟨rfl, rfl⟩ := h
        rw [← happ, List.append_assoc, List.singleton_append]
      · simp at h
  · simp at h

theorem scanRegex?_eq_some {t taken rest : Text} (h : scanRegex? t = some (taken, rest)) :
    t = taken ++ rest ∧ taken ≠ [] := by
  unfold scanRegex? at h
  split at h
  · next cs =>
      have happ := munch_append regexUnit 0 cs
      split at h
      · simp at h
      · next body rest' _ hm =>
          rw [hm] at happ
          simp only [Option.some.injEq, Prod.mk.injEq] at h
          obtain ⟨rfl, rfl⟩ := h
          refine ⟨?_, by simp⟩
          rw [← happ]
          simp [List.takeWhile_append_dropWhile]
      · simp at h
  · simp at h

theorem digitsWidth_pos {ok : Char → Bool} {c : Char} (cs : Text) (hc : ok c = true)
    (hne : c ≠ '_') : 0 < digitsWidth ok false (c :: cs) := by
  unfold digitsWidth
  split
  · next heq => simp at heq
  · next heq =>
      rw [List.cons.injEq] at heq
      exact absurd heq.1 hne
  · next heq =>
      rw [List.cons.injEq] at heq
      obtain ⟨rfl, rfl⟩ := heq
      rw [if_pos hc]
      omega

/-- A number has at least one character. -/
theorem numberWidth_pos {c : Char} {cs : Text}
    (h : (c.isDigit || (c == '.' && (cs.head?.map Char.isDigit).getD false)) = true) :
    0 < numberWidth (c :: cs) := by
  have hwidth : ∀ (suffix : Bool) (whole decimal : Nat), 0 < whole ∨ 0 < decimal →
      0 < if suffix then whole + 1 else max whole decimal := by
    intro suffix whole decimal hpos
    split <;> omega
  rw [Bool.or_eq_true, Bool.and_eq_true, beq_iff_eq] at h
  unfold numberWidth
  apply hwidth
  rcases h with hc | ⟨rfl, hd⟩
  · left
    cases prefixedWidth (c :: cs) with
    | zero =>
        refine digitsWidth_pos cs hc ?_
        rintro rfl
        exact absurd hc (by decide)
    | succ n => exact Nat.succ_pos n
  · -- a fraction without an integer part
    right
    cases cs with
    | nil => simp at hd
    | cons d cs =>
        have hd' : d.isDigit = true := by simpa using hd
        have hdigits : 0 < digitsWidth Char.isDigit false (d :: cs) := by
          refine digitsWidth_pos cs hd' ?_
          rintro rfl
          exact absurd hd' (by decide)
        obtain ⟨n, hn⟩ := Nat.exists_eq_succ_of_ne_zero (Nat.ne_of_gt hdigits)
        simp only [decimalWidth, hn]
        omega

theorem scanPunct_eq_some {table : List (Text × Punct)} {t rest : Text} {p : Punct}
    (h : scanPunct table t = some (p, rest)) :
    ∃ spelling, (spelling, p) ∈ table ∧ t = spelling ++ rest := by
  induction table with
  | nil => simp [scanPunct] at h
  | cons entry table ih =>
      obtain ⟨spelling, q⟩ := entry
      rw [scanPunct] at h
      split at h
      · next rest' hafter =>
          simp only [Option.some.injEq, Prod.mk.injEq] at h
          obtain ⟨rfl, rfl⟩ := h
          exact ⟨spelling, by simp, after?_eq_some hafter⟩
      · obtain ⟨spelling', hmem, heq⟩ := ih h
        exact ⟨spelling', by simp [hmem], heq⟩

theorem spelling_ne_nil {spelling : Text} {p : Punct} (h : (spelling, p) ∈ Punct.table) :
    spelling ≠ [] := by
  have hall : ∀ e ∈ Punct.table, e.1 ≠ [] := by decide
  exact hall _ h

/-- Punctuation is spelled in one way. -/
theorem spelling_unique {u v : Text} {p : Punct} (hu : (u, p) ∈ Punct.table)
    (hv : (v, p) ∈ Punct.table) : u = v := by
  have hall : ∀ e ∈ Punct.table, ∀ e' ∈ Punct.table, e.2 = e'.2 → e.1 = e'.1 := by
    decide +kernel
  exact hall _ hu _ hv rfl

theorem spelling_questionDot {spelling : Text} (h : (spelling, Punct.questionDot) ∈ Punct.table) :
    spelling = ['?', '.'] := spelling_unique h (by decide)

/-- **A token and what follows it make up the text**, and only the end of the text takes
nothing. -/
theorem scan_cases (t : Text) :
    t = (scan t).taken ++ (scan t).rest ∧ ((scan t).token ≠ .eof → (scan t).taken ≠ []) := by
  unfold scan
  split
  · exact ⟨rfl, fun h => absurd rfl h⟩
  · next c cs =>
      split
      · have happ := scanName_append (c :: cs)
        split
        · exact ⟨rfl, fun _ => by simp⟩
        · next name rest hne hname =>
            rw [hname] at happ
            exact ⟨happ.symm, fun _ => hne⟩
      · split
        · next hnum =>
            have hpos := numberWidth_pos hnum
            refine ⟨(List.take_append_drop _ _).symm, fun _ hnil => ?_⟩
            rw [List.take_eq_nil_iff] at hnil
            rcases hnil with hzero | hnil
            · omega
            · simp at hnil
        · split
          · split
            · next body rest hstring =>
                exact ⟨by rw [scanString?_eq_some hstring, List.cons_append], fun _ => by simp⟩
            · exact ⟨rfl, fun _ => by simp⟩
          · split
            · have happ := scanName_append cs
              split
              · exact ⟨rfl, fun _ => by simp⟩
              · next name rest hne hname =>
                  rw [hname] at happ
                  exact ⟨by rw [← happ, List.cons_append], fun _ => by simp⟩
            · split
              · next d rest hpunct =>
                  obtain ⟨spelling, hmem, heq⟩ := scanPunct_eq_some hpunct
                  split
                  · exact ⟨rfl, fun _ => by simp⟩
                  · rw [spelling_questionDot hmem] at heq
                    exact ⟨heq, fun _ => by simp⟩
              · next p rest _ hpunct =>
                  obtain ⟨spelling, hmem, heq⟩ := scanPunct_eq_some hpunct
                  have htake : (c :: cs).take ((c :: cs).length - rest.length) = spelling := by
                    rw [heq, List.length_append, Nat.add_sub_cancel, List.take_left]
                  exact ⟨by rw [htake, heq], fun _ => by rw [htake]; exact spelling_ne_nil hmem⟩
              · exact ⟨rfl, fun _ => by simp⟩

/-- Punctuation is read as it is spelled. -/
theorem scan_punct {t u rest : Text} {p : Punct} (h : scan t = ⟨.punct p, u, rest⟩) :
    (u, p) ∈ Punct.table := by
  unfold scan at h
  split at h
  · cases h
  · next c cs =>
      split at h
      · split at h <;> cases h
      · split at h
        · cases h
        · split at h
          · split at h <;> cases h
          · split at h
            · split at h <;> cases h
            · split at h
              · next d rest' hpunct =>
                  obtain ⟨spelling, hmem, heq⟩ := scanPunct_eq_some hpunct
                  rw [spelling_questionDot hmem] at heq hmem
                  split at h
                  · rw [(List.cons.inj heq).1] at h
                    cases h
                    decide
                  · cases h
                    exact hmem
              · next q rest' _ hpunct =>
                  obtain ⟨spelling, hmem, heq⟩ := scanPunct_eq_some hpunct
                  have htake : (c :: cs).take ((c :: cs).length - rest'.length) = spelling := by
                    rw [heq, List.length_append, Nat.add_sub_cancel, List.take_left]
                  rw [htake] at h
                  cases h
                  exact hmem
              · cases h

/-- No punctuation ends in a character of a name. -/
theorem endsInName_spelling {spelling : Text} {p : Punct} (h : (spelling, p) ∈ Punct.table) :
    endsInName spelling = false := by
  have hall : ∀ e ∈ Punct.table, endsInName e.1 = false := by decide
  exact hall _ h

/-- No punctuation starts with a character of a name. -/
theorem startsInName_spelling {spelling : Text} {p : Punct} (h : (spelling, p) ∈ Punct.table) :
    startsInName spelling = false := by
  have hall : ∀ e ∈ Punct.table, startsInName e.1 = false := by decide
  exact hall _ h

/-! ## Comments -/

/-- Away from a close a block comment goes on. -/
theorem blockRest_cons {c : Char} {t : Text} (h : ¬ (c = '*' ∧ t.head? = some '/')) :
    blockRest (c :: t) = if blockRest t = 0 then 0 else blockRest t + 1 := by
  rw [blockRest]
  · cases blockRest t with
    | zero => rfl
    | succ n => rfl
  · rintro cs rfl rfl
    exact h ⟨rfl, rfl⟩

theorem blockRest_le_length (t : Text) : blockRest t ≤ t.length := by
  induction t with
  | nil => exact Nat.le_refl _
  | cons c t ih =>
      by_cases hclose : c = '*' ∧ t.head? = some '/'
      · obtain ⟨rfl, hslash⟩ := hclose
        obtain ⟨ds, rfl⟩ := List.head?_eq_some_iff.mp hslash
        simp [blockRest]
      · rw [blockRest_cons hclose, List.length_cons]
        split <;> omega

/-- A block comment ends at its close, whatever follows. -/
theorem blockRest_append {u v : Text} (h : blockRest (u ++ v) = u.length) (hu : u ≠ [])
    (w : Text) : blockRest (u ++ w) = u.length := by
  induction u with
  | nil => exact absurd rfl hu
  | cons c u ih =>
      rw [List.cons_append, List.length_cons] at h ⊢
      by_cases hclose : c = '*' ∧ (u ++ v).head? = some '/'
      · obtain ⟨rfl, hslash⟩ := hclose
        obtain ⟨ds, hds⟩ := List.head?_eq_some_iff.mp hslash
        rw [hds, blockRest] at h
        obtain ⟨d, rfl⟩ := List.length_eq_one_iff.mp (show u.length = 1 by omega)
        simp only [List.singleton_append, List.cons.injEq] at hds
        rw [hds.1, List.singleton_append, blockRest]
        rfl
      · rw [blockRest_cons hclose] at h
        have hrest : blockRest (u ++ v) = u.length := by
          split at h <;> omega
        have hne : u ≠ [] := by
          rintro rfl
          rw [if_pos (show blockRest ([] ++ v) = 0 from hrest)] at h
          simp at h
        have hlen : u.length ≠ 0 := fun hzero => hne (List.length_eq_zero_iff.mp hzero)
        have hopen : ¬ (c = '*' ∧ (u ++ w).head? = some '/') := by
          obtain ⟨d, u, rfl⟩ := List.exists_cons_of_ne_nil hne
          exact hclose
        rw [blockRest_cons hopen, ih hrest hne, if_neg hlen]

/-- A block comment ends with a slash. -/
theorem getLast?_of_blockRest {u v : Text} (h : blockRest (u ++ v) = u.length) (hu : u ≠ []) :
    u.getLast? = some '/' := by
  induction u with
  | nil => exact absurd rfl hu
  | cons c u ih =>
      rw [List.cons_append, List.length_cons] at h
      by_cases hclose : c = '*' ∧ (u ++ v).head? = some '/'
      · obtain ⟨rfl, hslash⟩ := hclose
        obtain ⟨ds, hds⟩ := List.head?_eq_some_iff.mp hslash
        rw [hds, blockRest] at h
        obtain ⟨d, rfl⟩ := List.length_eq_one_iff.mp (show u.length = 1 by omega)
        simp only [List.singleton_append, List.cons.injEq] at hds
        rw [hds.1]
        rfl
      · rw [blockRest_cons hclose] at h
        have hrest : blockRest (u ++ v) = u.length := by
          split at h <;> omega
        have hne : u ≠ [] := by
          rintro rfl
          rw [if_pos (show blockRest ([] ++ v) = 0 from hrest)] at h
          simp at h
        rw [List.getLast?_cons, ih hrest hne]
        rfl

theorem commentWidth_le_length (t : Text) : commentWidth t ≤ t.length := by
  unfold commentWidth
  split
  · next cs =>
      have := (List.takeWhile_prefix fun c => !endsLine c : _ <+: cs).length_le
      simp only [List.length_cons]
      omega
  · next cs =>
      have := blockRest_le_length cs
      simp only [List.length_cons]
      split <;> omega
  · exact Nat.zero_le _

theorem commentWidth_line (t : Text) :
    commentWidth ('/' :: '/' :: t) = 2 + (t.takeWhile fun c => !endsLine c).length := by
  rw [commentWidth]

theorem commentWidth_block (t : Text) :
    commentWidth ('/' :: '*' :: t) = if blockRest t = 0 then 0 else blockRest t + 2 := by
  rw [commentWidth]
  cases blockRest t with
  | zero => rfl
  | succ n => rfl

/-- The two ways a comment starts. -/
theorem commentWidth_cases {t : Text} (h : commentWidth t ≠ 0) :
    ∃ b u, t = '/' :: b :: u ∧ (b = '/' ∨ b = '*') := by
  unfold commentWidth at h
  split at h
  · next cs => exact ⟨'/', cs, rfl, Or.inl rfl⟩
  · next cs => exact ⟨'*', cs, rfl, Or.inr rfl⟩
  · exact absurd rfl h

theorem two_le_commentWidth {t : Text} (h : commentWidth t ≠ 0) : 2 ≤ commentWidth t := by
  obtain ⟨b, u, rfl, rfl | rfl⟩ := commentWidth_cases h
  · rw [commentWidth_line]
    omega
  · rw [commentWidth_block] at h ⊢
    split at h
    · exact absurd rfl h
    · next hne =>
        rw [if_neg hne]
        omega

/-- A comment stays the same when the text is cut somewhere behind it. -/
theorem commentWidth_append {w u v : Text} (hw : w ≠ [])
    (h : commentWidth (w ++ (u ++ v)) = w.length) : commentWidth (w ++ u) = w.length := by
  have hpos : w.length ≠ 0 := fun hzero => hw (List.length_eq_zero_iff.mp hzero)
  have htwo := two_le_commentWidth (h ▸ hpos)
  obtain ⟨b, x, hx, hb⟩ := commentWidth_cases (h ▸ hpos)
  obtain ⟨a, b', w, rfl⟩ : ∃ a b' w', w = a :: b' :: w' := by
    match w, h, htwo with
    | a :: b' :: w', _, _ => exact ⟨a, b', w', rfl⟩
    | [a], h, htwo =>
        rw [h] at htwo
        exact absurd htwo (by simp)
  simp only [List.cons_append, List.cons.injEq] at hx
  obtain ⟨rfl, rfl, -⟩ := hx
  simp only [List.cons_append, List.length_cons] at h ⊢
  rcases hb with rfl | rfl
  · rw [commentWidth_line, List.takeWhile_append] at h ⊢
    have hall : (w.takeWhile fun c => !endsLine c).length = w.length := by
      by_cases hall : (w.takeWhile fun c => !endsLine c).length = w.length
      · exact hall
      · rw [if_neg hall] at h
        omega
    rw [if_pos hall, List.takeWhile_append, List.length_append] at h
    rw [if_pos hall, List.length_append]
    split at h
    · next hu =>
        rw [List.length_append] at h
        omega
    · omega
  · rw [commentWidth_block] at h ⊢
    have hrest : blockRest (w ++ (u ++ v)) = w.length := by
      split at h <;> omega
    have hne : w ≠ [] := by
      rintro rfl
      rw [if_pos (show blockRest ([] ++ (u ++ v)) = 0 from hrest)] at h
      simp at h
    rw [blockRest_append hrest hne, if_neg]
    exact fun hzero => hne (List.length_eq_zero_iff.mp hzero)

/-! ## White space and comments -/

/-- `u` at the offset `pos` is white space and comments in front of `v`, and `cs` are the
comments. -/
inductive Skips (v : Text) : Nat → Text → List Span → Prop
  | done (pos : Nat) : Skips v pos [] []
  | space {pos : Nat} {c : Char} {u : Text} {cs : List Span} (hc : isSpace c = true)
      (h : Skips v (pos + c.utf8Size) u cs) : Skips v pos (c :: u) cs
  | comment {pos : Nat} {w u : Text} {cs : List Span} (hw : w ≠ [])
      (hc : commentWidth (w ++ (u ++ v)) = w.length) (h : Skips v (pos + size w) u cs) :
      Skips v pos (w ++ u) (⟨pos, pos + size w⟩ :: cs)

theorem triviaUnit_space {c : Char} (hc : isSpace c = true) (t : Text) :
    triviaUnit (c :: t) = 1 := by
  rw [triviaUnit, if_pos hc]

theorem triviaUnit_comment {t : Text} (h : commentWidth t ≠ 0) :
    triviaUnit t = commentWidth t := by
  obtain ⟨b, u, rfl, -⟩ := commentWidth_cases h
  rw [triviaUnit, if_neg (by decide)]

theorem commentWidth_space {c : Char} (hc : isSpace c = true) (t : Text) :
    commentWidth (c :: t) = 0 := by
  by_cases h : commentWidth (c :: t) = 0
  · exact h
  · obtain ⟨b, u, heq, -⟩ := commentWidth_cases h
    rw [List.cons.injEq] at heq
    rw [heq.1] at hc
    exact absurd hc (by decide)

theorem commentSpans_space {c : Char} (hc : isSpace c = true) (pos : Nat) (u : Text) :
    commentSpans pos 0 0 (c :: u) = commentSpans (pos + c.utf8Size) 0 0 u := by
  rw [commentSpans, commentWidth_space hc]

theorem commentSpans_pending (pos opened : Nat) {x : Text} (hx : x ≠ []) (u : Text) :
    commentSpans pos x.length opened (x ++ u) =
      ⟨opened, pos + size x⟩ :: commentSpans (pos + size x) 0 0 u := by
  induction x generalizing pos with
  | nil => exact absurd rfl hx
  | cons c x ih =>
      cases x with
      | nil => simp [commentSpans]
      | cons d x =>
          have := ih (pos + c.utf8Size) (by simp)
          rw [List.cons_append, List.length_cons, List.length_cons, commentSpans]
          rw [List.length_cons] at this
          rw [this, size_cons c, Nat.add_assoc]

theorem commentSpans_comment {w u : Text} (hw : w ≠ []) (h : commentWidth (w ++ u) = w.length)
    (pos : Nat) :
    commentSpans pos 0 0 (w ++ u) =
      ⟨pos, pos + size w⟩ :: commentSpans (pos + size w) 0 0 u := by
  have hpos : w.length ≠ 0 := fun hzero => hw (List.length_eq_zero_iff.mp hzero)
  have htwo := two_le_commentWidth (h ▸ hpos)
  rw [h] at htwo
  cases w with
  | nil => exact absurd rfl hw
  | cons c x =>
      have hx : x ≠ [] := by
        rintro rfl
        simp at htwo
      rw [List.cons_append] at h ⊢
      rw [commentSpans, h, List.length_cons]
      simp only [commentSpans_pending _ _ hx, size_cons, Nat.add_assoc]

/-- The first comment of a text and what follows it. -/
theorem exists_comment {t : Text} (h : commentWidth t ≠ 0) :
    ∃ w r, t = w ++ r ∧ w ≠ [] ∧ commentWidth (w ++ r) = w.length := by
  have hle := commentWidth_le_length t
  have happ := List.take_append_drop (commentWidth t) t
  have hlen := List.length_take_of_le hle
  refine ⟨t.take (commentWidth t), t.drop (commentWidth t), happ.symm, ?_, by rw [happ, hlen]⟩
  intro hnil
  rw [hnil] at hlen
  exact h hlen.symm

theorem trivia_space {c : Char} (hc : isSpace c = true) (t : Text) :
    trivia (c :: t) = (c :: (trivia t).1, (trivia t).2) :=
  munch_unit (v := t) (List.cons_ne_nil c []) (triviaUnit_space hc t)

theorem trivia_comment {w r : Text} (hw : w ≠ []) (h : commentWidth (w ++ r) = w.length) :
    trivia (w ++ r) = (w ++ (trivia r).1, (trivia r).2) := by
  refine munch_unit hw ((triviaUnit_comment ?_).trans h)
  rw [h]
  exact fun hzero => hw (List.length_eq_zero_iff.mp hzero)

theorem isNamePart_of_isSpace {c : Char} (h : isSpace c = true) : isNamePart c = false := by
  unfold isNamePart
  dsimp only
  split
  · next hlt =>
      simp only [isSpace, Bool.or_eq_true, Bool.and_eq_true, decide_eq_true_eq, beq_iff_eq] at h
      simp only [Bool.or_eq_false_iff, Bool.and_eq_false_iff, decide_eq_false_iff_not,
        beq_eq_false_iff_ne]
      omega
  · rw [h]
    rfl

theorem isSpace_of_endsLine {c : Char} (h : endsLine c = true) : isSpace c = true := by
  simp only [endsLine, Bool.or_eq_true, beq_iff_eq] at h
  rcases h with ((rfl | rfl) | h) | h
  · decide
  · decide
  · simp [isSpace, h]
  · simp [isSpace, h]

/-- A comment in front of a token does not end in a name: a line comment is followed by the end of
its line. -/
theorem endsInName_comment {w v : Text} (hw : w ≠ [])
    (h : commentWidth (w ++ ([] ++ v)) = w.length) (hv : triviaUnit v = 0) (hne : v ≠ []) :
    endsInName w = false := by
  rw [List.nil_append] at h
  have hpos : w.length ≠ 0 := fun hzero => hw (List.length_eq_zero_iff.mp hzero)
  have htwo := two_le_commentWidth (h ▸ hpos)
  obtain ⟨b, x, hx, hb⟩ := commentWidth_cases (h ▸ hpos)
  obtain ⟨a, b', w, rfl⟩ : ∃ a b' w', w = a :: b' :: w' := by
    match w, h, htwo with
    | a :: b' :: w', _, _ => exact ⟨a, b', w', rfl⟩
    | [a], h, htwo =>
        rw [h] at htwo
        exact absurd htwo (by simp)
  simp only [List.cons_append, List.cons.injEq] at hx
  obtain ⟨rfl, rfl, -⟩ := hx
  simp only [List.cons_append, List.length_cons] at h
  rcases hb with rfl | rfl
  · -- the comment runs up to the first character that ends a line
    obtain ⟨c, v, rfl⟩ := List.exists_cons_of_ne_nil hne
    have hspace : isSpace c = true := by
      rw [commentWidth_line, List.takeWhile_append] at h
      by_cases hall : (w.takeWhile fun c => !endsLine c).length = w.length
      · rw [if_pos hall, List.length_append] at h
        by_cases hc : endsLine c = true
        · exact isSpace_of_endsLine hc
        · rw [List.takeWhile_cons_of_pos (by simpa using hc), List.length_cons] at h
          omega
      · rw [if_neg hall] at h
        omega
    rw [triviaUnit_space hspace] at hv
    exact absurd hv Nat.one_ne_zero
  · rw [commentWidth_block] at h
    have hrest : blockRest (w ++ v) = w.length := by
      split at h <;> omega
    have hne : w ≠ [] := by
      rintro rfl
      rw [if_pos (show blockRest ([] ++ v) = 0 from hrest)] at h
      simp at h
    rw [show '/' :: '*' :: w = ['/', '*'] ++ w from rfl, endsInName_append _ hne, endsInName,
      getLast?_of_blockRest hrest hne]
    rfl

/-- **What is skipped before a token**, and that no more could be. -/
theorem trivia_skips (t : Text) (pos : Nat) :
    Skips (trivia t).2 pos (trivia t).1 (commentSpans pos 0 0 (trivia t).1) ∧
      triviaUnit (trivia t).2 = 0 := by
  induction hn : t.length using Nat.strongRecOn generalizing t pos with
  | _ n ih =>
      by_cases hzero : triviaUnit t = 0
      · rw [trivia, munch_of_width_eq_zero hzero]
        exact ⟨.done pos, hzero⟩
      · -- the first unit is a white space character or a comment
        cases t with
        | nil => exact absurd rfl hzero
        | cons c t =>
            by_cases hc : isSpace c = true
            · obtain ⟨hskip, hstop⟩ := ih t.length (by simp [← hn]) t (pos + c.utf8Size) rfl
              rw [trivia_space hc]
              refine ⟨?_, hstop⟩
              rw [commentSpans_space hc]
              exact .space hc hskip
            · have hwidth : commentWidth (c :: t) ≠ 0 := by
                rw [triviaUnit, if_neg hc] at hzero
                exact hzero
              obtain ⟨w, r, heq, hw, hcomment⟩ := exists_comment hwidth
              have hlt : r.length < n := by
                have := List.length_pos_iff.mpr hw
                rw [← hn, heq, List.length_append]
                omega
              obtain ⟨hskip, hstop⟩ := ih r.length hlt r (pos + size w) rfl
              have hr : (trivia r).1 ++ (trivia r).2 = r := munch_append _ _ r
              rw [heq, trivia_comment hw hcomment]
              rw [← hr] at hcomment
              refine ⟨?_, hstop⟩
              rw [commentSpans_comment hw (commentWidth_append hw hcomment)]
              exact .comment hw hcomment hskip

namespace Skips

variable {v u : Text} {pos : Nat} {cs : List Span}

/-- The comments lie in what is skipped, in order and apart. -/
theorem bounds (h : Skips v pos u cs) :
    (∀ c ∈ cs, pos ≤ c.start ∧ c.start < c.stop ∧ c.stop ≤ pos + size u) ∧
      cs.Pairwise fun a b => a.stop ≤ b.start := by
  induction h with
  | done pos => exact ⟨by simp, List.Pairwise.nil⟩
  | space hc h ih =>
      refine ⟨?_, ih.2⟩
      intro c hmem
      have := ih.1 c hmem
      rw [size_cons]
      omega
  | @comment pos w u cs hw hc h ih =>
      have hsize := size_pos hw
      rw [List.pairwise_cons]
      refine ⟨?_, ?_, ih.2⟩
      · intro c hmem
        rw [size_append]
        rcases List.mem_cons.mp hmem with rfl | hmem
        · simp only
          omega
        · have := ih.1 c hmem
          omega
      · intro c hmem
        exact (ih.1 c hmem).1

/-- Comments start and stop between characters. -/
theorem isBorder {t : Text} (h : Skips v pos u cs) (ht : t.From pos (u ++ v)) :
    ∀ c ∈ cs, t.IsBorder c.start ∧ t.IsBorder c.stop := by
  induction h with
  | done pos => simp
  | @space pos c u cs hc h ih =>
      exact ih (ht.append (u := [c]))
  | @comment pos w u cs hw hc h ih =>
      rw [List.append_assoc] at ht
      intro c hmem
      rcases List.mem_cons.mp hmem with rfl | hmem
      · exact ⟨ht.isBorder, ht.append.isBorder⟩
      · exact ih ht.append c hmem

theorem trivia_eq (h : Skips v pos u cs) (hv : triviaUnit v = 0) : trivia (u ++ v) = (u, v) := by
  induction h with
  | done pos => exact munch_of_width_eq_zero hv
  | space hc h ih => rw [List.cons_append, trivia_space hc, ih]
  | comment hw hc h ih => rw [List.append_assoc, trivia_comment hw hc, ih]

/-- **Skipped text in front of a token does not end in a name.** -/
theorem endsInName_eq (h : Skips v pos u cs) (hv : triviaUnit v = 0) (hne : v ≠ []) :
    endsInName u = false := by
  induction h with
  | done pos => rfl
  | @space pos c u cs hc h ih =>
      by_cases hu : u = []
      · subst hu
        exact isNamePart_of_isSpace hc
      · rw [← List.singleton_append, endsInName_append [c] hu]
        exact ih
  | @comment pos w u cs hw hc h ih =>
      by_cases hu : u = []
      · subst hu
        rw [List.append_nil]
        exact endsInName_comment hw hc hv hne
      · rw [endsInName_append w hu]
        exact ih

/-- Skipped text does not start with a name. -/
theorem startsInName_eq (h : Skips v pos u cs) : startsInName u = false := by
  cases h with
  | done => rfl
  | space hc h => exact isNamePart_of_isSpace hc
  | @comment _ w u _ hw hc h =>
      have hne : commentWidth (w ++ (u ++ v)) ≠ 0 := by
        rw [hc]
        exact fun hzero => hw (List.length_eq_zero_iff.mp hzero)
      obtain ⟨b, y, hy, -⟩ := commentWidth_cases hne
      obtain ⟨c, w, rfl⟩ := List.exists_cons_of_ne_nil hw
      rw [List.cons_append, List.cons.injEq] at hy
      rw [hy.1]
      rfl

theorem of_space {c : Char} (hc : isSpace c = true) (h : Skips v pos (c :: u) cs) :
    Skips v (pos + c.utf8Size) u cs := by
  generalize hx : c :: u = x at h
  cases h with
  | done => simp at hx
  | space _ h =>
      rw [List.cons.injEq] at hx
      obtain ⟨rfl, rfl⟩ := hx
      exact h
  | comment hw hwidth h =>
      have hhead := commentWidth_space hc (u ++ v)
      rw [← List.cons_append, hx, List.append_assoc, hwidth] at hhead
      exact absurd (List.length_eq_zero_iff.mp hhead) hw

/-- The first comment, after the white space in front of it. -/
theorem exists_first (h : Skips v pos u cs)
    (hc : commentWidth (u.drop (u.takeWhile isSpace).length) ≠ 0) :
    ∃ w u' cs', u = u.takeWhile isSpace ++ (w ++ u') ∧
      commentWidth (u.drop (u.takeWhile isSpace).length) = w.length ∧
      (∃ c, cs = c :: cs' ∧ c.stop = pos + size (u.takeWhile isSpace ++ w)) ∧
      Skips v (pos + size (u.takeWhile isSpace ++ w)) u' cs' := by
  induction h with
  | done pos => simp [commentWidth] at hc
  | @space pos c u cs hspace h ih =>
      rw [List.takeWhile_cons_of_pos hspace] at hc ⊢
      obtain ⟨w, u', cs', hu, hlen, ⟨d, rfl, hd⟩, hrest⟩ := ih hc
      refine ⟨w, u', cs', ?_, hlen, ⟨d, rfl, ?_⟩, ?_⟩
      · rw [List.cons_append, ← hu]
      · rw [hd, List.cons_append, size_cons, Nat.add_assoc]
      · rw [List.cons_append, size_cons, ← Nat.add_assoc]
        exact hrest
  | @comment pos w u cs hw hwidth h ih =>
      have hcut := commentWidth_append hw hwidth
      have hne : commentWidth (w ++ u) ≠ 0 := by
        rw [hcut]
        exact fun hzero => hw (List.length_eq_zero_iff.mp hzero)
      obtain ⟨b, y, hy, -⟩ := commentWidth_cases hne
      have hnone : (w ++ u).takeWhile isSpace = [] := by
        rw [hy]
        exact List.takeWhile_cons_of_neg (by decide)
      rw [hnone]
      exact ⟨w, u, cs, rfl, hcut, ⟨_, rfl, rfl⟩, h⟩

end Skips

/-! ## The end of a line -/

/-- A place in skipped text between two of its comments: `x` lies before it and `cs₁` are the
comments in `x`. -/
structure Cut (v : Text) (pos : Nat) (u : Text) (cs : List Span) (r : Nat × Text) : Prop where
  exists_skips : ∃ x u' cs₁ cs₂, u = x ++ u' ∧ cs = cs₁ ++ cs₂ ∧ r = (pos + size x, u' ++ v) ∧
    (∀ c ∈ cs₁, c.stop ≤ pos + size x) ∧ Skips v (pos + size x) u' cs₂

theorem Cut.here {v : Text} {pos : Nat} {u : Text} {cs : List Span} (h : Skips v pos u cs) :
    Cut v pos u cs (pos, u ++ v) :=
  ⟨[], u, [], cs, rfl, rfl, rfl, by simp, h⟩

theorem Cut.append (x : Text) (cs₁ : List Span) {v u : Text} {pos : Nat} {cs : List Span}
    {r : Nat × Text} (h : Cut v (pos + size x) u cs r)
    (hcs : ∀ c ∈ cs₁, c.stop ≤ pos + size x) : Cut v pos (x ++ u) (cs₁ ++ cs) r := by
  obtain ⟨y, u', cs₂, cs₃, rfl, rfl, rfl, hcs₂, hskips⟩ := h.exists_skips
  rw [Nat.add_assoc, ← size_append] at hcs₂ hskips ⊢
  refine ⟨x ++ y, u', cs₁ ++ cs₂, cs₃, by simp, by simp, rfl, ?_, hskips⟩
  intro c hc
  rcases List.mem_append.mp hc with hc | hc
  · have := hcs c hc
    rw [size_append]
    omega
  · exact hcs₂ c hc

-- the search looks ahead with `trivia`, which is kept folded here
seal trivia commentWidth munch in
/-- One step of the search for the end of a line. -/
theorem lineEndFrom_cons (b : Border) (pos : Nat) (stop : Nat × Text) (c : Char) (t : Text) :
    lineEndFrom b pos 0 stop (c :: t) =
      if c == '\n' then
        match nextLineHead 0 t with
        | some next => if startsStatement b next then some stop else none
        | none => none
      else if isBlank c then lineEndFrom b (pos + c.utf8Size) 0 stop t
      else if c == '\x7d' then if endsBeforeBrace b t then some stop else none
      else
        match commentWidth ((trivia (c :: t)).1.drop
          ((trivia (c :: t)).1.takeWhile isSpace).length) with
        | 0 => none
        | n + 1 => lineEndFrom b (pos + c.utf8Size)
            (((trivia (c :: t)).1.takeWhile isSpace).length + n) stop t := rfl

theorem lineEndFrom_pending (b : Border) (pos : Nat) (stop : Nat × Text) {x : Text} (hx : x ≠ [])
    (t : Text) :
    lineEndFrom b pos x.length stop (x ++ t) =
      lineEndFrom b (pos + size x) 0 (pos + size x, t) t := by
  induction x generalizing pos with
  | nil => exact absurd rfl hx
  | cons c x ih =>
      cases x with
      | nil => rfl
      | cons d x =>
          have hstep := ih (pos + c.utf8Size) (by simp)
          rw [Nat.add_assoc, ← size_cons c (d :: x)] at hstep
          exact hstep

/-- A comment is passed over with the white space in front of it. -/
theorem lineEndFrom_comment (b : Border) (pos : Nat) (stop : Nat × Text) {c : Char}
    {t spaces w r : Text} {n : Nat} (ht : c :: t = spaces ++ (w ++ r)) (hw : w.length = n + 1)
    (hn : n ≠ 0) :
    lineEndFrom b (pos + c.utf8Size) (spaces.length + n) stop t =
      lineEndFrom b (pos + size (spaces ++ w)) 0 (pos + size (spaces ++ w), r) r := by
  have hlen : (spaces ++ w).length = spaces.length + n + 1 := by
    rw [List.length_append, hw]
    omega
  cases hx : spaces ++ w with
  | nil =>
      rw [hx] at hlen
      simp at hlen
  | cons c' y =>
      rw [hx, List.length_cons] at hlen
      rw [← List.append_assoc, hx, List.cons_append, List.cons.injEq] at ht
      obtain ⟨rfl, rfl⟩ := ht
      have hy : y ≠ [] := by
        rintro rfl
        simp at hlen
        omega
      rw [← Nat.succ.inj hlen, lineEndFrom_pending b _ stop hy, size_cons, Nat.add_assoc]

theorem isSpace_of_isBlank {c : Char} (h : isBlank c = true) : isSpace c = true := by
  simp only [isBlank, Bool.or_eq_true, Bool.and_eq_true, decide_eq_true_eq, beq_iff_eq] at h
  simp only [isSpace, Bool.or_eq_true, Bool.and_eq_true, decide_eq_true_eq, beq_iff_eq]
  rcases h with h | rfl
  · simp [h]
  · decide

/-- **What a step of the search can do**: it is over with what was found before, or it goes on behind a
blank, or behind white space and a comment. -/
theorem lineEndFrom_cases {b : Border} {pos : Nat} {stop r : Nat × Text} {c : Char} {t : Text}
    (h : lineEndFrom b pos 0 stop (c :: t) = some r) :
    r = stop ∨ (isBlank c = true ∧ lineEndFrom b (pos + c.utf8Size) 0 stop t = some r) ∨
      ∃ n, commentWidth ((trivia (c :: t)).1.drop
          ((trivia (c :: t)).1.takeWhile isSpace).length) = n + 1 ∧
        lineEndFrom b (pos + c.utf8Size)
          (((trivia (c :: t)).1.takeWhile isSpace).length + n) stop t = some r := by
  rw [lineEndFrom_cons] at h
  split at h
  · -- at a line feed the next line decides
    split at h
    · split at h
      · exact Or.inl (Option.some.inj h).symm
      · simp at h
    · simp at h
  · split at h
    · next hblank => exact Or.inr (Or.inl ⟨hblank, h⟩)
    · split at h
      · split at h
        · exact Or.inl (Option.some.inj h).symm
        · simp at h
      · split at h
        · simp at h
        · next n hwidth => exact Or.inr (Or.inr ⟨n, hwidth, h⟩)

/-- **A line ends where the search started or after one of the comments.** -/
theorem lineEndFrom_cut (b : Border) {v : Text} (hv : triviaUnit v = 0) {pos : Nat} {u : Text}
    {cs : List Span} (h : Skips v pos u cs) {stop r : Nat × Text}
    (hr : lineEndFrom b pos 0 stop (u ++ v) = some r) : r = stop ∨ Cut v pos u cs r := by
  -- the text that is skipped gets shorter, by a blank or by all up to the end of a comment
  induction hn : u.length using Nat.strongRecOn generalizing u pos cs stop with
  | _ n ih =>
      have htrivia := h.trivia_eq hv
      cases htext : u ++ v with
      | nil =>
          rw [htext] at hr
          exact Or.inl (Option.some.inj hr).symm
      | cons c t =>
          rw [htext] at hr htrivia
          rcases lineEndFrom_cases hr with rfl | ⟨hblank, hr⟩ | ⟨n', hwidth, hr⟩
          · exact Or.inl rfl
          · have hspace := isSpace_of_isBlank hblank
            cases u with
            | nil =>
                rw [List.nil_append] at htext
                rw [htext, triviaUnit_space hspace] at hv
                exact absurd hv (by decide)
            | cons c' u =>
                rw [List.cons_append, List.cons.injEq] at htext
                obtain ⟨rfl, rfl⟩ := htext
                rcases ih u.length (by simp [← hn]) (h.of_space hspace) hr rfl with heq | hcut
                · exact Or.inl heq
                · exact Or.inr (hcut.append [c'] [] (by simp))
          · rw [htrivia] at hwidth hr
            obtain ⟨w, u', cs', hu, hlen, ⟨d, rfl, hd⟩, hskips⟩ :=
              h.exists_first (by simp only [hwidth]; omega)
            have htwo := two_le_commentWidth (t := u.drop (u.takeWhile isSpace).length)
              (by simp only [hwidth]; omega)
            rw [hlen] at hwidth htwo
            rw [hu, List.append_assoc, List.append_assoc] at htext
            rw [lineEndFrom_comment b pos stop htext.symm hwidth (by omega)] at hr
            have hlt : u'.length < n := by
              have := congrArg List.length hu
              rw [List.length_append, List.length_append] at this
              omega
            rw [hu, ← List.append_assoc]
            right
            apply Cut.append _ [d] _ (by simp [hd])
            rcases ih u'.length hlt hskips hr rfl with rfl | hcut
            · exact Cut.here hskips
            · exact hcut

/-- **A statement that ends without a semicolon ends between the comments after it.** -/
theorem lineEnd?_cut {b : Border} {v : Text} (hv : triviaUnit v = 0) {pos : Nat} {u : Text}
    {cs : List Span} (h : Skips v pos u cs) {r : Nat × Text}
    (hr : lineEnd? b pos (u ++ v) = some r) : Cut v pos u cs r := by
  unfold lineEnd? at hr
  split at hr
  · simp at hr
  · rcases lineEndFrom_cut b hv h hr with rfl | hcut
    · exact Cut.here h
    · exact hcut

end Lexer

end Promisify
