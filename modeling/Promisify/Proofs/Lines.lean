import Mathlib.Data.List.TakeWhile
import Promisify.Proofs.Lexemes

set_option autoImplicit false

/-! # Lines

A statement without a semicolon ends with its line when the next line does not carry it on. Which token
comes first on the next line is looked up by a search of its own (`nextLineHead`), which knows fewer
characters as white space than the reader does. A text *resumes* when both agree on that token and it
starts a statement. What is skipped in front of a text that resumes can stand in front of any other.
-/

namespace Promisify

namespace Lexer

variable {c : Char} {t u w x y z : Text}

/-! ## The head of the next line -/

-- the search looks ahead in comments, which are kept folded here
seal blockRest in
/-- One step of the search for the next line. -/
theorem nextLineHead_cons (c : Char) (t : Text) :
    nextLineHead 0 (c :: t) =
      if isBlank c then nextLineHead 0 t
      else if c == '/' then
        match t with
        | '/' :: ds => nextLineHead (1 + (ds.takeWhile (· != '\n')).length) t
        | '*' :: ds =>
            match blockRest ds with
            | 0 => nextLineHead (ds.length + 1) t
            | k + 1 => nextLineHead (k + 2) t
        | _ => none
      else some (c :: t) := rfl

theorem nextLineHead_blank (hc : isBlank c = true) (t : Text) :
    nextLineHead 0 (c :: t) = nextLineHead 0 t := by
  rw [nextLineHead_cons, if_pos hc]

theorem nextLineHead_other (hblank : isBlank c = false) (hslash : c ≠ '/') (t : Text) :
    nextLineHead 0 (c :: t) = some (c :: t) := by
  rw [nextLineHead_cons, if_neg (by simp [hblank]), if_neg (by simpa using hslash)]

/-- Characters of a comment behind its first two, of which `d` is the second. -/
def commentRest (d : Char) (ds : Text) : Nat :=
  if d = '/' then (ds.takeWhile (· != '\n')).length
  else if blockRest ds = 0 then ds.length else blockRest ds

/-- A comment is skipped by its length. -/
theorem nextLineHead_comment {d : Char} (hd : d = '/' ∨ d = '*') (ds : Text) :
    nextLineHead 0 ('/' :: d :: ds) = nextLineHead (commentRest d ds + 1) (d :: ds) := by
  rw [nextLineHead_cons, if_neg (by decide), if_pos (by decide)]
  rcases hd with rfl | rfl
  · rw [commentRest, if_pos rfl, Nat.add_comm]
    rfl
  · rw [commentRest, if_neg (by decide)]
    show (match blockRest ds with
      | 0 => nextLineHead (ds.length + 1) ('*' :: ds)
      | k + 1 => nextLineHead (k + 2) ('*' :: ds)) = _
    cases blockRest ds with
    | zero => rfl
    | succ k => rfl

/-- **What a slash can do**: it opens a comment, or there is nothing to find. -/
theorem nextLineHead_slash {r : Text} (h : nextLineHead 0 ('/' :: t) = some r) :
    ∃ d ds, t = d :: ds ∧ (d = '/' ∨ d = '*') := by
  rw [nextLineHead_cons, if_neg (by decide), if_pos (by decide)] at h
  split at h
  · exact ⟨_, _, rfl, Or.inl rfl⟩
  · exact ⟨_, _, rfl, Or.inr rfl⟩
  · cases h

/-- What is found is what is left of the text once the characters in front are skipped. -/
theorem length_of_nextLineHead {k : Nat} {r : Text} (h : nextLineHead k t = some r) :
    r.length ≤ t.length - k := by
  induction t generalizing k with
  | nil =>
      rw [nextLineHead] at h
      cases h
      exact Nat.zero_le _
  | cons c t ih =>
      cases k with
      | succ k =>
          have := ih (k := k) h
          rw [List.length_cons]
          omega
      | zero =>
          by_cases hblank : isBlank c = true
          · rw [nextLineHead_blank hblank] at h
            have := ih h
            rw [List.length_cons]
            omega
          · by_cases hslash : c = '/'
            · subst hslash
              obtain ⟨d, ds, rfl, hd⟩ := nextLineHead_slash h
              rw [nextLineHead_comment hd] at h
              have := ih h
              rw [List.length_cons]
              omega
            · rw [nextLineHead_other (by simpa using hblank) hslash] at h
              cases h
              exact Nat.le_refl _

/-- What is found starts with neither a blank nor a slash. -/
theorem head_of_nextLineHead {k : Nat} {r : Text} (h : nextLineHead k t = some (c :: r)) :
    isBlank c = false ∧ c ≠ '/' := by
  induction t generalizing k with
  | nil => cases h
  | cons d t ih =>
      cases k with
      | succ k => exact ih (k := k) h
      | zero =>
          by_cases hblank : isBlank d = true
          · rw [nextLineHead_blank hblank] at h
            exact ih h
          · by_cases hslash : d = '/'
            · subst hslash
              obtain ⟨d, ds, rfl, hd⟩ := nextLineHead_slash h
              rw [nextLineHead_comment hd] at h
              exact ih h
            · rw [nextLineHead_other (by simpa using hblank) hslash] at h
              cases h
              exact ⟨by simpa using hblank, hslash⟩

/-! ## Text in front of the next line -/

/-- The text is skipped in the search for the next line, whatever follows. -/
def Leading (x : Text) : Prop := ∀ z, nextLineHead 0 (x ++ z) = nextLineHead 0 z

/-- A comment that ends in front of some text ends there whatever follows. -/
theorem commentRest_append {d e : Char} (he : e ≠ '\n') (h : commentRest d (x ++ e :: y) ≤ x.length)
    (z : Text) : commentRest d (x ++ z) = commentRest d (x ++ e :: y) := by
  unfold commentRest at h ⊢
  by_cases hline : d = '/'
  · rw [if_pos hline] at h ⊢
    rw [if_pos hline]
    have hbreak : '\n' ∈ x := by
      by_contra hnone
      have hall : ∀ c ∈ x, (c != '\n') = true := by
        intro c hc
        rw [bne_iff_ne]
        rintro rfl
        exact hnone hc
      rw [List.takeWhile_append_of_pos hall, List.takeWhile_cons_of_pos (by simpa using he),
        List.length_append, List.length_cons] at h
      omega
    have hsame : ∀ v : Text, (x ++ v).takeWhile (· != '\n') = x.takeWhile (· != '\n') := by
      intro v
      rw [List.takeWhile_append, if_neg]
      intro hlen
      have hwhole := (List.takeWhile_prefix (· != '\n')).eq_of_length hlen
      have hmem : '\n' ∈ x.takeWhile (· != '\n') := by rwa [hwhole]
      simpa using List.mem_takeWhile_imp hmem
    rw [hsame, hsame]
  · rw [if_neg hline] at h ⊢
    rw [if_neg hline]
    have hopened : blockRest (x ++ e :: y) ≠ 0 := by
      intro hzero
      rw [if_pos hzero, List.length_append, List.length_cons] at h
      omega
    rw [if_neg hopened] at h ⊢
    generalize hn : blockRest (x ++ e :: y) = n at h hopened ⊢
    have hlen : (x.take n).length = n := List.length_take_of_le h
    have hne : x.take n ≠ [] := by
      intro hnil
      rw [hnil] at hlen
      exact hopened hlen.symm
    rw [← List.take_append_drop n x, List.append_assoc] at hn ⊢
    rw [blockRest_append (hn.trans hlen.symm) hne, hlen, if_neg hopened]

/-- **What is skipped once is skipped whatever follows**, when it is followed by some text. -/
theorem leading_of_nextLineHead {k : Nat} (hk : k ≤ x.length) (hy : y ≠ [])
    (h : nextLineHead k (x ++ y) = some y) (z : Text) : nextLineHead k (x ++ z) = nextLineHead 0 z := by
  obtain ⟨e, y, rfl⟩ := List.exists_cons_of_ne_nil hy
  have hblank := (head_of_nextLineHead h).1
  have he : e ≠ '\n' := by
    rintro rfl
    exact absurd hblank (by decide)
  -- a search that goes past the start of what is found leaves too little
  have hshort : ∀ {u : Text} {k : Nat}, nextLineHead k (u ++ e :: y) = some (e :: y) → k ≤ u.length := by
    intro u k heq
    have hlen := length_of_nextLineHead heq
    rw [List.length_append, List.length_cons] at hlen
    omega
  induction x generalizing k with
  | nil =>
      rw [Nat.le_zero.mp hk]
      rfl
  | cons c x ih =>
      cases k with
      | succ k => exact ih (Nat.le_of_succ_le_succ hk) h
      | zero =>
          rw [List.cons_append] at h ⊢
          by_cases hc : isBlank c = true
          · rw [nextLineHead_blank hc] at h ⊢
            exact ih (Nat.zero_le _) h
          · by_cases hopen : c = '/'
            · subst hopen
              obtain ⟨d, ds, hds, hd⟩ := nextLineHead_slash h
              cases x with
              | nil =>
                  -- the comment would start with what is found
                  rw [hds, nextLineHead_comment hd, ← hds] at h
                  exact absurd (hshort h) (Nat.not_succ_le_zero _)
              | cons d' x =>
                  rw [List.cons_append, List.cons.injEq] at hds
                  obtain ⟨rfl, rfl⟩ := hds
                  rw [List.cons_append, nextLineHead_comment hd] at h ⊢
                  have hle := hshort (u := d' :: x) h
                  rw [commentRest_append he (Nat.le_of_succ_le_succ hle)]
                  exact ih hle h
            · rw [nextLineHead_other (by simpa using hc) hopen] at h
              have hlen := congrArg List.length (Option.some.inj h)
              rw [List.length_cons, List.length_append] at hlen
              omega

/-! ## Texts that resume -/

/-- Whether the next token is found by the search for the next line and starts a statement. -/
def resumes (t : Text) : Bool :=
  nextLineHead 0 t == some (trivia t).2 && startsStatement .bare (trivia t).2

theorem resumes_iff : resumes t = true ↔
    nextLineHead 0 t = some (trivia t).2 ∧ startsStatement .bare (trivia t).2 = true := by
  rw [resumes, Bool.and_eq_true, beq_iff_eq]

/-- What is skipped in front of a text does not matter. -/
theorem resumes_append (hfiller : Filler x) (hx : Leading x) (z : Text) : resumes (x ++ z) = resumes z := by
  rw [resumes, resumes, hx, hfiller.trivia_append]

theorem filler_blanks (hu : ∀ c ∈ u, isBlank c = true) : Filler u := by
  induction u with
  | nil => exact .nil
  | cons c u ih =>
      exact .space (isSpace_of_isBlank (hu c List.mem_cons_self))
        (ih fun d hd => hu d (List.mem_cons_of_mem c hd))

theorem leading_blanks (hu : ∀ c ∈ u, isBlank c = true) : Leading u := by
  induction u with
  | nil => exact fun _ => rfl
  | cons c u ih =>
      intro z
      rw [List.cons_append, nextLineHead_blank (hu c List.mem_cons_self)]
      exact ih (fun d hd => hu d (List.mem_cons_of_mem c hd)) z

/-- **Other text behind what is skipped** resumes where it does so by itself. -/
theorem resumes_replace (hw : nextLineHead 0 w = some (trivia w).2) (hy : resumes y = true)
    (hend : (trivia w).2 = [] → y = []) : resumes ((trivia w).1 ++ y) = true := by
  have hsplit : (trivia w).1 ++ (trivia w).2 = w := Text.munch_append triviaUnit 0 w
  by_cases hnone : (trivia w).2 = []
  · have hwhole : (trivia w).1 = w := by
      rw [hnone, List.append_nil] at hsplit
      exact hsplit
    rw [hend hnone, List.append_nil, hwhole, resumes_iff, hw, hnone]
    exact ⟨rfl, rfl⟩
  · obtain ⟨hskips, hunit⟩ := trivia_skips w 0
    have hleading : Leading (trivia w).1 := by
      refine leading_of_nextLineHead (Nat.zero_le _) hnone ?_
      rw [hsplit]
      exact hw
    rw [resumes_append (hskips.filler hunit hnone) hleading]
    exact hy

/-! ## The end of a line -/

/-- Whether nothing but blanks comes up to the end of the line. -/
def lineIsOver : Text → Bool
  | [] => true
  | c :: cs => c == '\n' || (isBlank c && lineIsOver cs)

theorem isBlank_of_lineIsOver (h : lineIsOver (c :: t) = true) : isBlank c = true := by
  rw [lineIsOver, Bool.or_eq_true, Bool.and_eq_true, beq_iff_eq] at h
  rcases h with rfl | ⟨hblank, -⟩
  · decide
  · exact hblank

/-- A line is over whatever comes on the next one. -/
theorem lineIsOver_replace (hz : triviaUnit z = 0) (h : lineIsOver (x ++ z) = true)
    (hend : z = [] → y = []) : lineIsOver (x ++ y) = true := by
  induction x with
  | nil =>
      cases z with
      | nil => rw [hend rfl]; rfl
      | cons c z =>
          rw [triviaUnit_space (isSpace_of_isBlank (isBlank_of_lineIsOver h))] at hz
          cases hz
  | cons c x ih =>
      rw [List.cons_append, lineIsOver, Bool.or_eq_true, Bool.and_eq_true] at h ⊢
      rcases h with hbreak | ⟨hblank, hrest⟩
      · exact Or.inl hbreak
      · exact Or.inr ⟨hblank, ih hrest⟩

/-- **A statement ends with its line** when the next line resumes. -/
theorem lineEnd?_of_resumes (hover : lineIsOver w = true) (h : resumes w = true) (pos : Nat) :
    lineEnd? .bare pos w = some (pos, w) := by
  have hall : ∀ (t : Text) (k : Nat) (stop : Nat × Text), lineIsOver t = true → resumes t = true →
      lineEndFrom .bare k 0 stop t = some stop := by
    intro t
    induction t with
    | nil => exact fun _ _ _ _ => rfl
    | cons c t ih =>
        intro k stop hover h
        have hblank := isBlank_of_lineIsOver hover
        rw [lineEndFrom_cons]
        split
        · obtain ⟨hnext, hstarts⟩ := resumes_iff.mp h
          rw [nextLineHead_blank hblank] at hnext
          rw [hnext]
          exact if_pos hstarts
        · next hbreak =>
            have hone : ∀ d ∈ [c], isBlank d = true := by
              intro d hd
              rw [List.mem_singleton.mp hd]
              exact hblank
            have hrest : resumes t = true :=
              (resumes_append (filler_blanks hone) (leading_blanks hone) t).symm.trans h
            have hover' : lineIsOver t = true := by
              rw [lineIsOver, Bool.or_eq_true, Bool.and_eq_true] at hover
              exact (hover.resolve_left hbreak).2
            exact ih _ _ hover' hrest
  exact hall w pos (pos, w) hover h

end Lexer

end Promisify
