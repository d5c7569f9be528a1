import Promisify.Proofs.Edits

set_option autoImplicit false

/-! # Sets of edits

What applying a set of edits comes to, whatever the edits are. They are put in order by a stable sort
(`Edits.sorted_eq_mergeSort`), and one pass with a cursor picks those that are taken.

* For edits that run forward and stand on borders of the text, the pass does the same as replacing
  one span after the other, from the last to the first (`Patched.foldrM_splice`).
* For any edits at all, the pass fails exactly at an offset that is no border of the text
  (`Edits.applyFrom_eq_none_iff`). The cursor may move back behind an edit whose span is reversed, but nothing
  is ever copied backwards.
-/

namespace Promisify

/-! ## The order of a set -/

namespace Edit

theorem before_iff {a b : Edit} : a.before b = true ↔ a.span.start < b.span.start ∨
    a.span.start = b.span.start ∧ a.span.stop ≤ b.span.stop := by
  simp [before]

theorem before_trans (a b c : Edit) (hab : a.before b = true) (hbc : b.before c = true) :
    a.before c = true := by
  rw [before_iff] at hab hbc ⊢
  omega

theorem before_total (a b : Edit) : (a.before b || b.before a) = true := by
  rw [Bool.or_eq_true, before_iff, before_iff]
  omega

end Edit

/-- **The order in which edits are taken is that of a stable sort.** -/
theorem Edits.sorted_eq_mergeSort (es : Edits) : es.sorted = es.mergeSort Edit.before :=
  sortedBy_eq_mergeSort Edit.before_trans Edit.before_total es

/-! ## The edits that are taken -/

namespace Edits

variable {t : Text} {cursor : Nat} {e : Edit} {es : List Edit}

/-- The edits of a set that are taken. -/
def kept (es : Edits) : List Edit := taken 0 (es.mergeSort Edit.before)

/-- Where the text behind edits starts that are all carried out. -/
def rest (cursor : Nat) (es : List Edit) : Nat := (es.getLast?.map fun e => e.span.stop).getD cursor

theorem rest_cons (cursor : Nat) (e : Edit) (es : List Edit) :
    rest cursor (e :: es) = rest e.span.stop es := by
  rw [rest, rest, List.getLast?_cons]
  cases es.getLast? with
  | none => rfl
  | some d => rfl

theorem taken_of_lt (h : e.span.start < cursor) : taken cursor (e :: es) = taken cursor es := by
  rw [taken, if_pos h]

theorem taken_of_le (h : cursor ≤ e.span.start) :
    taken cursor (e :: es) = e :: taken e.span.stop es := by
  rw [taken, if_neg (by omega)]

theorem taken_sublist (cursor : Nat) (es : List Edit) : (taken cursor es).Sublist es := by
  induction es generalizing cursor with
  | nil => exact List.Sublist.refl _
  | cons e es ih =>
      rw [taken]
      split
      · exact (ih cursor).cons e
      · exact (ih e.span.stop).cons_cons e

/-- The last edit of a list is taken unless it starts before the end of the last one taken. -/
theorem taken_concat (cursor : Nat) (es : List Edit) (e : Edit) : taken cursor (es ++ [e]) =
    taken cursor es ++ if e.span.start < rest cursor (taken cursor es) then [] else [e] := by
  induction es generalizing cursor with
  | nil => rfl
  | cons d es ih =>
      rw [List.cons_append]
      by_cases hd : d.span.start < cursor
      · rw [taken_of_lt hd, taken_of_lt hd, ih]
      · rw [taken_of_le (by omega), taken_of_le (by omega), ih, rest_cons]
        rfl

/-- Edits that run forward are taken behind the cursor, and each behind the ones before it. -/
theorem taken_apart (cursor : Nat) (hord : ∀ e ∈ es, e.span.start ≤ e.span.stop) :
    (∀ e ∈ taken cursor es, cursor ≤ e.span.start) ∧
      (taken cursor es).Pairwise fun a b => a.span.stop ≤ b.span.start := by
  -- for every cursor, since an edit that is taken moves it to its end
  induction es generalizing cursor with
  | nil => exact ⟨by simp [taken], List.Pairwise.nil⟩
  | cons e es ih =>
      have hord' : ∀ a ∈ es, a.span.start ≤ a.span.stop := fun a ha => hord a (List.mem_cons_of_mem e ha)
      by_cases he : e.span.start < cursor
      · rw [taken_of_lt he]
        exact ih cursor hord'
      · obtain ⟨hbehind, hpair⟩ := ih e.span.stop hord'
        have hle := hord e List.mem_cons_self
        rw [taken_of_le (by omega)]
        refine ⟨?_, List.pairwise_cons.mpr ⟨hbehind, hpair⟩⟩
        intro a ha
        rcases List.mem_cons.mp ha with rfl | ha
        · omega
        · have := hbehind a ha
          omega

/-- An offset lies below the end of one of the edits in a list. -/
def Covers (es : List Edit) (n : Nat) : Prop := ∃ e ∈ es, n < e.span.stop

instance (es : List Edit) (n : Nat) : Decidable (Covers es n) := List.decidableBEx _ _

/-- Of edits that run forward, the last one taken reaches furthest. -/
theorem lt_rest_iff (hord : ∀ e ∈ es, e.span.start ≤ e.span.stop) (n : Nat) :
    n < rest cursor (taken cursor es) ↔ n < cursor ∨ Covers (taken cursor es) n := by
  induction es generalizing cursor with
  | nil => simp [taken, rest, Covers]
  | cons e es ih =>
      have hord' : ∀ a ∈ es, a.span.start ≤ a.span.stop := fun a ha => hord a (List.mem_cons_of_mem e ha)
      by_cases he : e.span.start < cursor
      · rw [taken_of_lt he]
        exact ih hord'
      · have hle := hord e List.mem_cons_self
        rw [taken_of_le (by omega), rest_cons, ih hord']
        simp only [Covers, List.mem_cons, exists_eq_or_imp]
        -- an edit that is taken reaches past the cursor, so the cursor itself adds nothing
        constructor
        · exact Or.inr
        · rintro (hn | hn)
          · exact Or.inl (by omega)
          · exact hn

/-! ## What the pass copies -/

theorem applyFrom_of_lt (h : e.span.start < cursor) :
    applyFrom t cursor (e :: es) = applyFrom t cursor es := by
  rw [applyFrom, if_pos h]

theorem applyFrom_of_le (h : cursor ≤ e.span.start) : applyFrom t cursor (e :: es) =
    (t.slice? cursor e.span.start).bind fun u =>
      (applyFrom t e.span.stop es).map fun v => u ++ e.text ++ v := by
  rw [applyFrom, if_neg (by omega)]
  cases t.slice? cursor e.span.start with
  | none => rfl
  | some u => cases applyFrom t e.span.stop es <;> rfl

/-- Edits that are not taken leave no trace. -/
theorem applyFrom_taken (t : Text) (cursor : Nat) (es : List Edit) :
    applyFrom t cursor (taken cursor es) = applyFrom t cursor es := by
  induction es generalizing cursor with
  | nil => rfl
  | cons e es ih =>
      by_cases he : e.span.start < cursor
      · rw [taken_of_lt he, applyFrom_of_lt he, ih]
      · rw [taken_of_le (by omega), applyFrom_of_le (by omega), applyFrom_of_le (by omega), ih]

theorem applied?_eq_kept (es : Edits) (t : Text) : es.applied? t = applyFrom t 0 es.kept := by
  rw [applied?, sorted_eq_mergeSort, kept, applyFrom_taken]

/-- The spans that are copied in front of edits that are all carried out. -/
def gaps (cursor : Nat) : List Edit → List Span
  | [] => []
  | e :: es => ⟨cursor, e.span.start⟩ :: gaps e.span.stop es

/-- The text made of the texts of edits, of the spans in front of them and of what is behind the last
one. -/
def woven? (t : Text) (cursor : Nat) (es : List Edit) : Option Text := do
  let copied ← (gaps cursor es).mapM t.span?
  let back ← t.splitAt? (rest cursor es)
  return ((copied.zip es).flatMap fun p => p.1 ++ p.2.text) ++ back.2

theorem woven?_nil (t : Text) (cursor : Nat) : woven? t cursor [] = (t.splitAt? cursor).map Prod.snd := by
  show ((t.splitAt? cursor).bind fun back => some back.2) = _
  cases t.splitAt? cursor <;> rfl

theorem woven?_cons (t : Text) (cursor : Nat) (e : Edit) (es : List Edit) :
    woven? t cursor (e :: es) = (t.slice? cursor e.span.start).bind fun u =>
      (woven? t e.span.stop es).map fun v => u ++ e.text ++ v := by
  -- both sides fail at the same slices, from the first to the last
  unfold woven?
  rw [gaps, List.mapM_cons, rest_cons, Text.span?]
  cases t.slice? cursor e.span.start with
  | none => rfl
  | some u =>
      cases (gaps e.span.stop es).mapM t.span? with
      | none => rfl
      | some copied =>
          cases t.splitAt? (rest e.span.stop es) with
          | none => rfl
          | some back => simp

/-- **What the pass copies**: the spans between the edits that are taken. -/
theorem applyFrom_eq_woven? (t : Text) (cursor : Nat) (es : List Edit) :
    applyFrom t cursor es = woven? t cursor (taken cursor es) := by
  induction es generalizing cursor with
  | nil => rw [applyFrom, taken, woven?_nil]
  | cons e es ih =>
      by_cases he : e.span.start < cursor
      · rw [applyFrom_of_lt he, taken_of_lt he, ih]
      · rw [applyFrom_of_le (by omega), taken_of_le (by omega), ih, woven?_cons]

/-- Nothing is copied backwards. -/
theorem gaps_forward (cursor : Nat) (es : List Edit) :
    ∀ s ∈ gaps cursor (taken cursor es), s.start ≤ s.stop := by
  induction es generalizing cursor with
  | nil => simp [taken, gaps]
  | cons e es ih =>
      by_cases he : e.span.start < cursor
      · rw [taken_of_lt he]
        exact ih cursor
      · rw [taken_of_le (by omega), gaps]
        intro s hs
        rcases List.mem_cons.mp hs with rfl | hs
        · exact Nat.le_of_not_lt he
        · exact ih e.span.stop s hs

end Edits

/-! ## When the pass fails -/

/-- An offset past the end of a text or inside one of its characters. -/
def Text.Misses (t : Text) (n : Nat) : Prop :=
  t.size < n ∨ ∃ u c v, t = u ++ c :: v ∧ Text.size u < n ∧ n < Text.size u + c.utf8Size

/-- An offset that is no border lies past the end or inside a character. -/
theorem Text.misses_iff {t : Text} {n : Nat} : t.Misses n ↔ ¬ t.IsBorder n := by
  constructor
  · rintro (hlt | ⟨u, c, v, rfl, hu, hc⟩) hborder
    · have := hborder.le_size
      omega
    · -- a border behind `u` is behind all of the next character
      obtain ⟨x, y, hxy, rfl⟩ := isBorder_iff.mp hborder
      obtain ⟨m, rfl, hm⟩ := exists_append_of_size_le hxy (Nat.le_of_lt hu)
      cases m with
      | nil => simp at hu
      | cons d m =>
          obtain ⟨rfl, -⟩ := List.cons.inj hm
          rw [size_append, size_cons] at hc
          omega
  · intro hborder
    induction t generalizing n with
    | nil =>
        refine Or.inl (Nat.pos_of_ne_zero ?_)
        rintro rfl
        exact hborder (isBorder_zero [])
    | cons c t ih =>
        have hpos : 0 < n := by
          refine Nat.pos_of_ne_zero ?_
          rintro rfl
          exact hborder (isBorder_zero _)
        by_cases hc : n < c.utf8Size
        · exact Or.inr ⟨[], c, t, rfl, hpos, by simpa using hc⟩
        · have hrest : ¬ IsBorder t (n - c.utf8Size) := by
            intro hrest
            obtain ⟨x, y, rfl, hx⟩ := isBorder_iff.mp hrest
            exact hborder (isBorder_iff.mpr ⟨c :: x, y, rfl, by rw [size_cons]; omega⟩)
          rcases ih hrest with hlt | ⟨u, d, v, rfl, hu, hd⟩
          · refine Or.inl ?_
            rw [size_cons]
            omega
          · refine Or.inr ⟨c :: u, d, v, rfl, ?_, ?_⟩
            · rw [size_cons]
              omega
            · rw [size_cons]
              omega

namespace Edits

variable {t : Text} {cursor : Nat} {es : List Edit}

/-- The pass fails exactly where the cursor or an end of an edit that is taken is no border. -/
theorem applyFrom_eq_none_iff : applyFrom t cursor es = none ↔ ¬ t.IsBorder cursor ∨
    ∃ e ∈ taken cursor es, ¬ t.IsBorder e.span.start ∨ ¬ t.IsBorder e.span.stop := by
  induction es generalizing cursor with
  | nil => simp [applyFrom, taken, Text.IsBorder]
  | cons e es ih =>
      by_cases he : e.span.start < cursor
      · rw [applyFrom_of_lt he, taken_of_lt he]
        exact ih
      · have hslice : t.slice? cursor e.span.start = none ↔
            ¬ t.IsBorder cursor ∨ ¬ t.IsBorder e.span.start := by
          rw [← Option.not_isSome_iff_eq_none, Text.slice?_isSome_iff]
          have hle : cursor ≤ e.span.start := by omega
          simp only [hle, true_and, not_and_or]
        have hnone : applyFrom t cursor (e :: es) = none ↔
            t.slice? cursor e.span.start = none ∨ applyFrom t e.span.stop es = none := by
          rw [applyFrom_of_le (by omega)]
          cases t.slice? cursor e.span.start with
          | none => simp
          | some u => simp
        rw [hnone, hslice, ih, taken_of_le (by omega)]
        simp only [List.mem_cons, exists_eq_or_imp, or_assoc]

/-- **When applying edits fails**: exactly when an edit that is taken starts or stops past the end of the
text or inside a character. Whatever the edits are, what is copied lies between two of them in order, or
behind the last one. -/
theorem applying_fails_iff (t : Text) (es : Edits) :
    (es.applied? t = none ↔
      ∃ e ∈ es.kept, t.Misses e.span.start ∨ t.Misses e.span.stop) ∧
    es.applied? t = woven? t 0 es.kept ∧
    ∀ s ∈ gaps 0 es.kept, s.start ≤ s.stop := by
  refine ⟨?_, ?_, gaps_forward 0 _⟩
  · have hzero : ¬ ¬ t.IsBorder 0 := not_not.mpr t.isBorder_zero
    rw [applied?, sorted_eq_mergeSort, applyFrom_eq_none_iff, or_iff_right hzero]
    simp only [Text.misses_iff]
    rfl
  · rw [applied?, sorted_eq_mergeSort, applyFrom_eq_woven?]
    rfl

-- behind a reversed span the text in it is copied once more
example : Edits.applied? [⟨⟨3, 1⟩, "A".toList⟩, ⟨⟨3, 4⟩, "B".toList⟩] "01234".toList =
    some "012A12B4".toList := by decide

end Edits

/-! ## Replacing one span after the other -/

/-- The text with the bytes of one span replaced. -/
def Edit.splice? (e : Edit) (t : Text) : Option Text := do
  let front ← t.splitAt? e.span.start
  let back ← t.splitAt? e.span.stop
  return front.1 ++ e.text ++ back.2

theorem Edit.splice?_eq {e : Edit} (u m v : Text)
    (he : e.span = ⟨Text.size u, Text.size u + Text.size m⟩) :
    e.splice? (u ++ (m ++ v)) = some (u ++ (e.text ++ v)) := by
  have hback : Text.splitAt? (Text.size u + Text.size m) (u ++ (m ++ v)) = some (u ++ m, v) := by
    rw [← List.append_assoc, ← Text.size_append]
    exact Text.splitAt?_append _ _
  rw [splice?, he]
  simp only [Text.splitAt?_append, hback]
  simp

/-- Edits that lie apart are replacements one at a time, from the last to the first. -/
theorem Patched.foldrM_splice {pos : Nat} {v r : Text} {es : List Edit} (h : Patched pos v es r)
    (u : Text) (hu : Text.size u = pos) : es.foldrM Edit.splice? (u ++ v) = some (u ++ r) := by
  induction h generalizing u with
  | done => rfl
  | @edit pos x m w r e es he _ ih =>
      -- the edits behind this one leave the text up to the end of its span as it is
      have hrest := ih (u ++ x ++ m) (by simp only [Text.size_append]; omega)
      have hsplice := Edit.splice?_eq (u ++ x) m r (e := e)
        (by rw [he, Text.size_append, hu])
      simp only [List.append_assoc] at hrest hsplice ⊢
      rw [List.foldrM_cons, hrest]
      exact hsplice

namespace Edits

variable {t : Text} {cursor : Nat} {es : List Edit}

/-- All edits run forward and stand on borders of the text. -/
def Fit (t : Text) (es : List Edit) : Prop := ∀ e ∈ es,
  e.span.start ≤ e.span.stop ∧ t.IsBorder e.span.start ∧ t.IsBorder e.span.stop

instance (t : Text) (es : List Edit) : Decidable (Fit t es) := List.decidableBAll _ _

/-- The last edit of a list is dropped when it starts before the end of the last one taken. -/
theorem droppedFrom_concat (hcursor : t.IsBorder cursor) (hes : Fit t es) (e : Edit) :
    droppedFrom t cursor (es ++ [e]) = droppedFrom t cursor es ++
      if e.span.start < rest cursor (taken cursor es) then [e] else [] := by
  induction es generalizing cursor with
  | nil =>
      show (if e.span.start < cursor then e :: [] else
        if (t.slice? cursor e.span.start).isSome then [] else []) = _
      rw [ite_self]
      rfl
  | cons d es ih =>
      have hes' : Fit t es := fun a ha => hes a (List.mem_cons_of_mem d ha)
      obtain ⟨-, hstart, hstop⟩ := hes d List.mem_cons_self
      rw [List.cons_append, droppedFrom, droppedFrom]
      by_cases hd : d.span.start < cursor
      · rw [if_pos hd, if_pos hd, ih hcursor hes', taken_of_lt hd, List.cons_append]
      · -- the pass goes on behind `d`, since the slice in front of it exists
        have hslice := Text.slice?_isSome_iff.mpr ⟨Nat.le_of_not_lt hd, hcursor, hstart⟩
        rw [if_neg hd, if_neg hd, if_pos hslice, if_pos hslice, ih hstop hes', taken_of_le (by omega),
          rest_cons]

/-- Edits that fit can all be carried out once those are left out that are not taken. -/
theorem exists_patched_kept (h : Fit t es) : ∃ r, Patched 0 t (kept es) r := by
  have hmem : ∀ e ∈ kept es, e ∈ es := fun e he =>
    List.mem_mergeSort.mp ((taken_sublist 0 _).mem he)
  have hord : ∀ e ∈ es.mergeSort Edit.before, e.span.start ≤ e.span.stop := fun e he =>
    (h e (List.mem_mergeSort.mp he)).1
  refine exists_patched t.from_zero ?_ (taken_apart 0 hord).2
  intro e he
  exact ⟨Nat.zero_le _, h e (hmem e he)⟩

/-- **Applying edits is splicing.** Where edits fit the text, applying them gives what replacing the spans
of those that are kept gives, one at a time from the last to the first. Those that are kept do not
overlap, and of the edits in order one is dropped exactly when it starts below the end of an earlier
one that is kept. -/
theorem applying_is_splicing (t : Text) (es : Edits) (h : Fit t es) :
    (∃ o, es.applied? t = some o ∧ es.kept.foldrM Edit.splice? t = some o) ∧
    es.kept.Pairwise (fun a b => a.span.stop ≤ b.span.start) ∧
    es.dropped t = droppedFrom t 0 (es.mergeSort Edit.before) ∧
    ∀ earlier e, earlier ++ [e] <+: es.mergeSort Edit.before →
      taken 0 (earlier ++ [e]) = taken 0 earlier ++
        (if Covers (taken 0 earlier) e.span.start then [] else [e]) ∧
      droppedFrom t 0 (earlier ++ [e]) = droppedFrom t 0 earlier ++
        (if Covers (taken 0 earlier) e.span.start then [e] else []) := by
  have hfit : Fit t (es.mergeSort Edit.before) := fun e he => h e (List.mem_mergeSort.mp he)
  refine ⟨?_, (taken_apart 0 fun e he => (hfit e he).1).2, by rw [dropped, sorted_eq_mergeSort], ?_⟩
  · obtain ⟨o, ho⟩ := exists_patched_kept h
    refine ⟨o, ?_, ho.foldrM_splice [] rfl⟩
    rw [applied?_eq_kept]
    exact ho.applyFrom_eq t.from_zero
  · intro earlier e hlead
    have hearlier : Fit t earlier := fun d hd =>
      hfit d (hlead.subset (List.mem_append_left [e] hd))
    have hcovers : e.span.start < rest 0 (taken 0 earlier) ↔ Covers (taken 0 earlier) e.span.start := by
      rw [lt_rest_iff fun d hd => (hearlier d hd).1]
      exact or_iff_right (Nat.not_lt_zero _)
    rw [taken_concat, droppedFrom_concat t.isBorder_zero hearlier]
    simp only [hcovers, and_self]

/-- An edit that begins inside the one in front of it is dropped, and insertions at one place keep their
order. -/
theorem overlapping_edit_is_dropped :
    ∃ (t : Text) (es : Edits), t = "0é3456789".toList ∧
      es = [⟨⟨3, 7⟩, "B".toList⟩, ⟨⟨1, 5⟩, "A".toList⟩, .insertion 1 "x".toList, .insertion 1 "y".toList,
        .deletion ⟨7, 8⟩] ∧
      Fit t es ∧ es.applied? t = some "0xyA5689".toList ∧
      es.kept.foldrM Edit.splice? t = some "0xyA5689".toList ∧
      droppedFrom t 0 (es.mergeSort Edit.before) = [⟨⟨3, 7⟩, "B".toList⟩] := by
  obtain ⟨⟨o, ho, hspliced⟩, -, hdropped, -⟩ := applying_is_splicing "0é3456789".toList
    [⟨⟨3, 7⟩, "B".toList⟩, ⟨⟨1, 5⟩, "A".toList⟩, .insertion 1 "x".toList, .insertion 1 "y".toList,
      .deletion ⟨7, 8⟩] (by decide)
  have hout : some o = some "0xyA5689".toList := ho.symm.trans (by decide)
  exact ⟨_, _, rfl, rfl, by decide, by decide, hspliced.trans hout, hdropped.symm.trans (by decide)⟩

end Edits

/-! ## Edits that lie apart -/

namespace Patched

variable {pos : Nat} {t u m v w r : Text} {es before inside behind : List Edit}

/-- Edits that lie apart are all taken. -/
theorem taken_eq (h : Patched pos v es r) : Edits.taken pos es = es := by
  induction h with
  | done => rfl
  | @edit pos u m w r e es he _ ih =>
      rw [Edits.taken_of_le (by rw [he]; exact Nat.le_add_right _ _), he, ih]

/-- Edits that lie apart are dropped nowhere. -/
theorem droppedFrom_eq (h : Patched pos v es r) (hv : t.From pos v) :
    Edits.droppedFrom t pos es = [] := by
  induction h with
  | done => rfl
  | @edit pos u m w r e es he _ ih =>
      have hslice := Text.slice?_isSome_iff.mpr
        ⟨Nat.le_add_right pos (Text.size u), hv.isBorder, hv.append.isBorder⟩
      rw [Edits.droppedFrom, he]
      dsimp only
      rw [if_neg (by omega), if_pos hslice]
      exact ih hv.append.append

/-- **Three stretches**, where no edit reaches across a border. -/
theorem around (h : Patched pos (u ++ (m ++ w)) (before ++ (inside ++ behind)) r)
    (hbefore : ∀ e ∈ before, e.span.stop ≤ pos + Text.size u)
    (hinside : ∀ e ∈ inside, pos + Text.size u ≤ e.span.start ∧
      e.span.stop ≤ pos + Text.size u + Text.size m)
    (hbehind : ∀ e ∈ behind, pos + Text.size u + Text.size m ≤ e.span.start) :
    ∃ x y z, r = x ++ (y ++ z) ∧ Patched pos u before x ∧ Patched (pos + Text.size u) m inside y ∧
      Patched (pos + Text.size u + Text.size m) w behind z := by
  have hrest : ∀ e ∈ inside ++ behind, pos + Text.size u ≤ e.span.start := by
    intro e he
    rcases List.mem_append.mp he with he | he
    · exact (hinside e he).1
    · exact Nat.le_trans (Nat.le_add_right _ _) (hbehind e he)
  obtain ⟨x, r', rfl, hx, hr⟩ := h.split hbefore hrest
  obtain ⟨y, z, rfl, hy, hz⟩ := hr.split (fun e he => (hinside e he).2) hbehind
  exact ⟨x, y, z, rfl, hx, hy, hz⟩

end Patched

end Promisify
