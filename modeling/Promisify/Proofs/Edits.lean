import Mathlib.Algebra.GroupWithZero.Nat
import Promisify.Edit
import Promisify.Proofs.Scanning
import Promisify.Proofs.Sorting

set_option autoImplicit false

/-! # Applying edits

Edits that come in order and do not overlap are all taken, and the text between them is copied. What
they do to a stretch of text is said without a cursor (`Patched`), so edits of neighbouring stretches
can be put side by side.
-/

namespace Promisify

/-! ## The order of edits -/

namespace Edits

variable {e : Edit} {as bs es : List Edit}

theorem before_of_apart {a b : Edit} (ha : a.span.start ≤ a.span.stop) (hb : b.span.start ≤ b.span.stop)
    (h : a.span.stop ≤ b.span.start) : a.before b = true := by
  unfold Edit.before
  simp only [Bool.or_eq_true, Bool.and_eq_true, decide_eq_true_eq, beq_iff_eq]
  omega

/-- Edits that lie apart in order are taken in that order. -/
theorem sorted_of_apart (hord : ∀ e ∈ es, e.span.start ≤ e.span.stop)
    (hpair : es.Pairwise fun a b => a.span.stop ≤ b.span.start) : sorted es = es := by
  apply sortedBy_of_pairwise
  refine hpair.imp_of_mem ?_
  intro a b ha hb hab
  exact before_of_apart (hord a ha) (hord b hb) hab

/-- An edit that is recorded first is taken where it belongs: behind all edits that change a text before
it. -/
theorem sorted_cons_append (hord : ∀ b ∈ as ++ e :: bs, b.span.start ≤ b.span.stop)
    (hne : ∀ a ∈ as, a.span.start < a.span.stop)
    (hpair : (as ++ e :: bs).Pairwise fun a b => a.span.stop ≤ b.span.start) :
    sorted (e :: (as ++ bs)) = as ++ e :: bs := by
  have hsub : (as ++ bs).Sublist (as ++ e :: bs) :=
    (List.Sublist.refl as).append (List.sublist_cons_self e bs)
  rw [sorted, sortedBy]
  change insertSorted Edit.before e (sorted (as ++ bs)) = _
  rw [sorted_of_apart (fun b hb => hord b (hsub.mem hb)) (hpair.sublist hsub)]
  obtain ⟨-, hrest, hacross⟩ := List.pairwise_append.mp hpair
  apply insertSorted_append
  · intro a ha
    have hlt := hne a ha
    have hstop := hacross a ha e List.mem_cons_self
    unfold Edit.before
    simp only [Bool.or_eq_false_iff, Bool.and_eq_false_iff, decide_eq_false_iff_not, beq_eq_false_iff_ne]
    omega
  · intro b hb
    have hmem := List.mem_of_mem_head? hb
    exact before_of_apart (hord e (by simp)) (hord b (by simp [hmem]))
      ((List.pairwise_cons.mp hrest).1 b hmem)

end Edits

/-- The edits turn the stretch `v` of a text, which starts at the offset `pos`, into `r`. -/
inductive Patched : Nat → Text → List Edit → Text → Prop
  | done (pos : Nat) (v : Text) : Patched pos v [] v
  | edit {pos : Nat} (u m : Text) {w r : Text} {e : Edit} {es : List Edit}
      (he : e.span = ⟨pos + Text.size u, pos + Text.size u + Text.size m⟩)
      (h : Patched (pos + Text.size u + Text.size m) w es r) :
      Patched pos (u ++ (m ++ w)) (e :: es) (u ++ (e.text ++ r))

namespace Patched

variable {pos : Nat} {t u v w r r' : Text} {es es' : List Edit}

/-- Text in front of the edits is copied. -/
theorem prepend (u : Text) (h : Patched (pos + Text.size u) v es r) :
    Patched pos (u ++ v) es (u ++ r) := by
  generalize hk : pos + Text.size u = k at h
  cases h with
  | done => exact .done pos _
  | @edit _ x m w r e es he h =>
      subst hk
      have hsize : pos + Text.size u + Text.size x = pos + Text.size (u ++ x) := by
        rw [Text.size_append, Nat.add_assoc]
      rw [hsize] at he h
      have hedit := edit (u ++ x) m he h
      rw [List.append_assoc, List.append_assoc] at hedit
      exact hedit

/-- **Edits of neighbouring stretches**, side by side. -/
theorem append (h : Patched pos v es r) (h' : Patched (pos + Text.size v) w es' r') :
    Patched pos (v ++ w) (es ++ es') (r ++ r') := by
  induction h with
  | done pos v => exact h'.prepend v
  | @edit pos u m v r e es he _ ih =>
      rw [List.append_assoc, List.append_assoc, List.append_assoc, List.append_assoc]
      refine edit u m he (ih ?_)
      rw [Text.size_append, Text.size_append] at h'
      rw [show pos + Text.size u + Text.size m + Text.size v =
        pos + (Text.size u + (Text.size m + Text.size v)) by omega]
      exact h'

/-- Text behind the edits is copied. -/
theorem followed (h : Patched pos v es r) (w : Text) : Patched pos (v ++ w) es (r ++ w) := by
  have happ := h.append (.done (pos + Text.size v) w)
  rw [List.append_nil] at happ
  exact happ

theorem single (u m w : Text) (e : Edit)
    (he : e.span = ⟨pos + Text.size u, pos + Text.size u + Text.size m⟩) :
    Patched pos (u ++ (m ++ w)) [e] (u ++ (e.text ++ w)) := .edit u m he (.done _ w)

/-- A deletion at the start of the stretch. -/
theorem cut (m : Text) (h : Patched (pos + Text.size m) w es r) :
    Patched pos (m ++ w) (.deletion ⟨pos, pos + Text.size m⟩ :: es) r := by
  have hspan : (Edit.deletion ⟨pos, pos + Text.size m⟩).span =
      ⟨pos + Text.size [], pos + Text.size [] + Text.size m⟩ := rfl
  exact edit [] m hspan h

theorem bounds (h : Patched pos v es r) : ∀ e ∈ es,
    pos ≤ e.span.start ∧ e.span.start ≤ e.span.stop ∧ e.span.stop ≤ pos + Text.size v := by
  induction h with
  | done => simp
  | @edit pos u m w r e es he _ ih =>
      intro a ha
      simp only [Text.size_append]
      rcases List.mem_cons.mp ha with rfl | ha
      · rw [he]
        dsimp only
        omega
      · have := ih a ha
        omega

/-- The edits come in order. -/
theorem sorted_eq (h : Patched pos v es r) : Edits.sorted es = es := by
  refine Edits.sorted_of_apart (fun e he => (h.bounds e he).2.1) ?_
  induction h with
  | done => exact List.Pairwise.nil
  | @edit pos u m w r e es he hrest ih =>
      refine List.pairwise_cons.mpr ⟨?_, ih⟩
      intro a ha
      rw [he]
      exact (hrest.bounds a ha).1

/-- **All edits of a stretch are taken.** -/
theorem applyFrom_eq (h : Patched pos v es r) (hv : t.From pos v) :
    Edits.applyFrom t pos es = some r := by
  induction h with
  | done pos v =>
      obtain ⟨x, rfl, rfl⟩ := hv
      rw [Edits.applyFrom, Text.splitAt?_append]
      rfl
  | @edit pos u m w r e es he _ ih =>
      have hw : t.From (pos + Text.size u + Text.size m) w := hv.append.append
      have hslice : t.slice? pos (pos + Text.size u) = some u := by
        obtain ⟨x, rfl, rfl⟩ := hv
        exact Text.slice?_eq_some_iff.mpr ⟨x, m ++ w, by simp, rfl, rfl⟩
      rw [Edits.applyFrom, he]
      dsimp only
      rw [if_neg (by omega), hslice, ih hw]
      simp

/-- What edits make of a stretch of a text is settled. -/
theorem unique (h : Patched pos v es r) (h' : Patched pos v es r') (hv : t.From pos v) : r = r' :=
  Option.some.inj ((h.applyFrom_eq hv).symm.trans (h'.applyFrom_eq hv))

/-- **A stretch in two**, where no edit reaches across the border. -/
theorem split {v₁ v₂ : Text} {es₁ es₂ : List Edit} (h : Patched pos (v₁ ++ v₂) (es₁ ++ es₂) r)
    (hes₁ : ∀ e ∈ es₁, e.span.stop ≤ pos + Text.size v₁)
    (hes₂ : ∀ e ∈ es₂, pos + Text.size v₁ ≤ e.span.start) :
    ∃ r₁ r₂, r = r₁ ++ r₂ ∧ Patched pos v₁ es₁ r₁ ∧ Patched (pos + Text.size v₁) v₂ es₂ r₂ := by
  generalize hv : v₁ ++ v₂ = v at h
  generalize hes : es₁ ++ es₂ = es at h
  induction h generalizing v₁ es₁ with
  | done pos v =>
      obtain ⟨rfl, rfl⟩ := List.append_eq_nil_iff.mp hes
      exact ⟨v₁, v₂, hv.symm, .done _ _, .done _ _⟩
  | @edit pos u m w r e es he hrest ih =>
      cases es₁ with
      | nil =>
          -- the first edit is behind the border
          cases hes
          have hstart := hes₂ e List.mem_cons_self
          rw [he] at hstart
          obtain ⟨u', rfl, rfl⟩ := Text.exists_append_of_size_le hv (by simp only at hstart; omega)
          refine ⟨v₁, u' ++ (e.text ++ r), by rw [List.append_assoc], .done _ _, ?_⟩
          rw [Text.size_append, ← Nat.add_assoc] at he hrest
          exact .edit u' m he hrest
      | cons a es₁ =>
          -- the first edit is in front of it
          obtain ⟨rfl, rfl⟩ := List.cons.inj hes
          have hstop := hes₁ a List.mem_cons_self
          rw [he] at hstop
          rw [← List.append_assoc] at hv
          obtain ⟨v', rfl, rfl⟩ := Text.exists_append_of_size_le hv.symm
            (by simp only [Text.size_append] at hstop ⊢; omega)
          have hplace : pos + Text.size (u ++ m ++ v') =
              pos + Text.size u + Text.size m + Text.size v' := by
            simp only [Text.size_append]
            omega
          rw [hplace] at hes₁ hes₂ ⊢
          obtain ⟨r₁, r₂, rfl, h₁, h₂⟩ := ih
            (fun b hb => hes₁ b (List.mem_cons_of_mem a hb)) hes₂ rfl rfl
          refine ⟨u ++ (a.text ++ r₁), r₂, by simp, ?_, h₂⟩
          rw [List.append_assoc]
          exact .edit u m he h₁

/-- **Edits of the whole text.** -/
theorem applied?_eq (h : Patched 0 t es r) : Edits.applied? es t = some r := by
  rw [Edits.applied?, h.sorted_eq]
  exact h.applyFrom_eq t.from_zero

/-- Where only text is deleted, what is left is left in its order. -/
theorem sublist (h : Patched pos v es r) (hdel : ∀ e ∈ es, e.text = []) : r.Sublist v := by
  induction h with
  | done => exact List.Sublist.refl _
  | @edit pos u m w r e es he _ ih =>
      rw [hdel e List.mem_cons_self, List.nil_append]
      have hrest := ih fun a ha => hdel a (List.mem_cons_of_mem e ha)
      exact (List.Sublist.refl u).append (hrest.trans (List.sublist_append_right m w))

/-- The sizes of a text and of what comes of deletions differ by what is deleted. -/
theorem size_add (h : Patched pos v es r) (hdel : ∀ e ∈ es, e.text = []) :
    Text.size r + (es.map fun e => e.span.stop - e.span.start).sum = Text.size v := by
  induction h with
  | done => rfl
  | @edit pos u m w r e es he _ ih =>
      have hrest := ih fun a ha => hdel a (List.mem_cons_of_mem e ha)
      rw [hdel e List.mem_cons_self, List.map_cons, List.sum_cons, he]
      simp only [Text.size_append, Text.size_nil]
      omega

end Patched

theorem Edits.applied?_nil (t : Text) : Edits.applied? [] t = some t := Patched.applied?_eq (.done 0 t)

/-- **Edits in order, on borders and apart can all be applied.** -/
theorem exists_patched {t v : Text} {pos : Nat} {es : List Edit} (hv : t.From pos v)
    (hes : ∀ e ∈ es, pos ≤ e.span.start ∧ e.span.start ≤ e.span.stop ∧
      t.IsBorder e.span.start ∧ t.IsBorder e.span.stop)
    (hord : es.Pairwise fun a b => a.span.stop ≤ b.span.start) : ∃ r, Patched pos v es r := by
  induction es generalizing pos v with
  | nil => exact ⟨v, .done pos v⟩
  | cons e es ih =>
      obtain ⟨hpos, hle, hstart, hstop⟩ := hes e List.mem_cons_self
      obtain ⟨hfirst, hrest⟩ := List.pairwise_cons.mp hord
      obtain ⟨x, rfl, hx⟩ := hv
      -- the text up to the edit, the edited text and the text behind it
      obtain ⟨a, c, hac, ha⟩ := Text.isBorder_iff.mp hstart
      obtain ⟨a', c', hac', ha'⟩ := Text.isBorder_iff.mp hstop
      obtain ⟨u, rfl, rfl⟩ := Text.exists_append_of_size_le hac (by omega)
      obtain ⟨m, rfl, rfl⟩ := Text.exists_append_of_size_le (hac.symm.trans hac') (by omega)
      rw [Text.size_append] at ha
      rw [Text.size_append, Text.size_append] at ha'
      have hfrom : Text.From (x ++ (u ++ (m ++ c'))) (pos + Text.size u + Text.size m) c' :=
        ⟨x ++ u ++ m, by simp, by simp only [Text.size_append]; omega⟩
      have hes' : ∀ b ∈ es, pos + Text.size u + Text.size m ≤ b.span.start ∧
          b.span.start ≤ b.span.stop ∧ Text.IsBorder (x ++ (u ++ (m ++ c'))) b.span.start ∧
          Text.IsBorder (x ++ (u ++ (m ++ c'))) b.span.stop := by
        intro b hb
        have hb' := hes b (List.mem_cons_of_mem e hb)
        have hafter := hfirst b hb
        exact ⟨by omega, hb'.2⟩
      obtain ⟨r, hr⟩ := ih hfrom hes' hrest
      have hspan : e.span = ⟨pos + Text.size u, pos + Text.size u + Text.size m⟩ := by
        cases hspan : e.span
        rw [hspan] at ha ha'
        simp only [Span.mk.injEq] at ha ha' ⊢
        omega
      exact ⟨_, .edit u m hspan hr⟩

end Promisify
