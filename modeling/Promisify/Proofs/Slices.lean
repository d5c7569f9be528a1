import Promisify.Text

set_option autoImplicit false

/-! # Cutting texts

`splitAt?` and `slice?` said without offsets: a cut exists exactly where a text is the concatenation
of two texts of the right sizes. From this follow where a slice exists (`slice?_isSome_iff`) and
that a slice of a slice is a slice (`slice?_slice?`).
-/

namespace Promisify

namespace Text

/-- An offset between two characters of a text, or at one of its ends. -/
def IsBorder (t : Text) (n : Nat) : Prop := (splitAt? n t).isSome = true

instance (t : Text) (n : Nat) : Decidable (t.IsBorder n) :=
  inferInstanceAs (Decidable ((splitAt? n t).isSome = true))

@[simp] theorem size_nil : size [] = 0 := rfl

@[simp] theorem size_cons (c : Char) (t : Text) : size (c :: t) = c.utf8Size + size t := rfl

@[simp] theorem size_append (t u : Text) : size (t ++ u) = size t + size u := by
  induction t with
  | nil => simp
  | cons c t ih =>
      rw [List.cons_append, size_cons, size_cons, ih]
      omega

/-- Only the empty text has no bytes. -/
theorem eq_nil_of_size_eq_zero {t : Text} (h : size t = 0) : t = [] := by
  cases t with
  | nil => rfl
  | cons c t =>
      have := c.utf8Size_pos
      rw [size_cons] at h
      omega

/-- Of two ways to cut a text the later one cuts what the earlier one leaves. -/
theorem exists_append_of_size_le {t u t' u' : Text} (h : t ++ u = t' ++ u')
    (hs : size t ≤ size t') : ∃ m, t' = t ++ m ∧ u = m ++ u' := by
  rcases List.append_eq_append_iff.mp h with ⟨m, rfl, rfl⟩ | ⟨m, rfl, rfl⟩
  · exact ⟨m, rfl, rfl⟩
  · rw [size_append] at hs
    have : m = [] := eq_nil_of_size_eq_zero (by omega)
    subst this
    exact ⟨[], by simp, by simp⟩

theorem splitAt?_append (t u : Text) : splitAt? (size t) (t ++ u) = some (t, u) := by
  induction t with
  | nil => simp [splitAt?]
  | cons c t ih =>
      have hpos := c.utf8Size_pos
      rw [size_cons, List.cons_append,
        show c.utf8Size + size t = (c.utf8Size + size t - 1) + 1 by omega, splitAt?,
        if_pos (by omega),
        show c.utf8Size + size t - 1 + 1 - c.utf8Size = size t by omega, ih]
      rfl

theorem eq_append_of_splitAt? {n : Nat} {t u v : Text} (h : splitAt? n t = some (u, v)) :
    t = u ++ v ∧ size u = n := by
  induction t generalizing n u v with
  | nil =>
      cases n with
      | zero =>
          simp only [splitAt?, Option.some.injEq, Prod.mk.injEq] at h
          obtain ⟨rfl, rfl⟩ := h
          exact ⟨rfl, rfl⟩
      | succ n => simp [splitAt?] at h
  | cons c t ih =>
      cases n with
      | zero =>
          simp only [splitAt?, Option.some.injEq, Prod.mk.injEq] at h
          obtain ⟨rfl, rfl⟩ := h
          exact ⟨rfl, rfl⟩
      | succ n =>
          rw [splitAt?] at h
          split at h
          · obtain ⟨⟨u', v'⟩, hsplit, heq⟩ := Option.map_eq_some_iff.mp h
            simp only [Prod.mk.injEq] at heq
            obtain ⟨rfl, rfl⟩ := heq
            obtain ⟨rfl, hsize⟩ := ih hsplit
            refine ⟨rfl, ?_⟩
            rw [size_cons]
            omega
          · simp at h

/-- **A cut, without offsets.** -/
theorem splitAt?_eq_some_iff {n : Nat} {t u v : Text} :
    splitAt? n t = some (u, v) ↔ t = u ++ v ∧ size u = n := by
  constructor
  · exact eq_append_of_splitAt?
  · rintro ⟨rfl, rfl⟩
    exact splitAt?_append u v

theorem isBorder_iff {t : Text} {n : Nat} : t.IsBorder n ↔ ∃ u v, t = u ++ v ∧ size u = n := by
  unfold IsBorder
  rw [Option.isSome_iff_exists]
  constructor
  · rintro ⟨⟨u, v⟩, h⟩
    exact ⟨u, v, splitAt?_eq_some_iff.mp h⟩
  · rintro ⟨u, v, h⟩
    exact ⟨(u, v), splitAt?_eq_some_iff.mpr h⟩

theorem isBorder_zero (t : Text) : t.IsBorder 0 := isBorder_iff.mpr ⟨[], t, rfl, rfl⟩

theorem isBorder_size (t : Text) : t.IsBorder t.size :=
  isBorder_iff.mpr ⟨t, [], (List.append_nil t).symm, rfl⟩

theorem IsBorder.le_size {t : Text} {n : Nat} (h : t.IsBorder n) : n ≤ t.size := by
  obtain ⟨u, v, rfl, rfl⟩ := isBorder_iff.mp h
  rw [size_append]
  omega

/-- **A slice, without offsets.** -/
theorem slice?_eq_some_iff {t m : Text} {a b : Nat} :
    t.slice? a b = some m ↔ ∃ u v, t = u ++ m ++ v ∧ size u = a ∧ a + size m = b := by
  unfold slice?
  constructor
  · intro h
    split at h
    · rename_i hab
      obtain ⟨⟨u, w⟩, hu, hw⟩ := Option.bind_eq_some_iff.mp h
      obtain ⟨⟨m', v⟩, hm, rfl⟩ := Option.map_eq_some_iff.mp hw
      obtain ⟨rfl, rfl⟩ := splitAt?_eq_some_iff.mp hu
      obtain ⟨rfl, hsize⟩ := splitAt?_eq_some_iff.mp hm
      refine ⟨u, v, (List.append_assoc u m' v).symm, rfl, ?_⟩
      show size u + size m' = b
      omega
    · simp at h
  · rintro ⟨u, v, rfl, rfl, rfl⟩
    rw [if_pos (by omega), List.append_assoc, splitAt?_append, Option.bind_some,
      Nat.add_sub_cancel_left, splitAt?_append]
    rfl

/-- A slice exists between two borders in order. -/
theorem slice?_isSome_iff {t : Text} {a b : Nat} :
    (t.slice? a b).isSome = true ↔ a ≤ b ∧ t.IsBorder a ∧ t.IsBorder b := by
  rw [Option.isSome_iff_exists]
  constructor
  · rintro ⟨m, h⟩
    obtain ⟨u, v, rfl, rfl, rfl⟩ := slice?_eq_some_iff.mp h
    refine ⟨by omega, isBorder_iff.mpr ⟨u, m ++ v, List.append_assoc u m v, rfl⟩,
      isBorder_iff.mpr ⟨u ++ m, v, rfl, size_append u m⟩⟩
  · rintro ⟨hab, ha, hb⟩
    obtain ⟨u, w, rfl, rfl⟩ := isBorder_iff.mp ha
    obtain ⟨x, v, hxv, rfl⟩ := isBorder_iff.mp hb
    obtain ⟨m, rfl, rfl⟩ := exists_append_of_size_le hxv hab
    exact ⟨m, slice?_eq_some_iff.mpr ⟨u, v, (List.append_assoc u m v).symm, rfl, by simp⟩⟩

theorem slice?_whole (t : Text) : t.slice? 0 t.size = some t :=
  slice?_eq_some_iff.mpr ⟨[], [], by simp, rfl, by simp⟩

/-- Slices that meet make up one slice. -/
theorem slice?_append {t u v : Text} {a b c : Nat} (hu : t.slice? a b = some u)
    (hv : t.slice? b c = some v) : t.slice? a c = some (u ++ v) := by
  obtain ⟨x, w, rfl, rfl, rfl⟩ := slice?_eq_some_iff.mp hu
  obtain ⟨y, z, heq, hy, rfl⟩ := slice?_eq_some_iff.mp hv
  rw [List.append_assoc y] at heq
  obtain ⟨m, rfl, rfl⟩ := exists_append_of_size_le heq (by rw [size_append]; omega)
  rw [size_append, size_append] at hy
  have hm : m = [] := eq_nil_of_size_eq_zero (by omega)
  subst hm
  exact slice?_eq_some_iff.mpr ⟨x, z, by simp, rfl, by rw [size_append]; omega⟩

/-- The two parts of a slice are slices. -/
theorem slice?_of_append {t u v : Text} {a b c : Nat} (h : t.slice? a c = some (u ++ v))
    (hb : b = a + size u) : t.slice? a b = some u ∧ t.slice? b c = some v := by
  obtain ⟨x, z, rfl, rfl, rfl⟩ := slice?_eq_some_iff.mp h
  subst hb
  constructor
  · exact slice?_eq_some_iff.mpr ⟨x, v ++ z, by simp, rfl, rfl⟩
  · exact slice?_eq_some_iff.mpr ⟨x ++ u, z, by simp, by simp, by rw [size_append]; omega⟩

/-- A slice is cut in two at any border inside it. -/
theorem exists_slice?_split {t m : Text} {a b c : Nat} (h : t.slice? a c = some m) (hab : a ≤ b)
    (hbc : b ≤ c) (hb : t.IsBorder b) :
    ∃ u v, t.slice? a b = some u ∧ t.slice? b c = some v ∧ m = u ++ v := by
  obtain ⟨-, ha, hc⟩ := slice?_isSome_iff.mp (Option.isSome_of_eq_some h)
  obtain ⟨u, hu⟩ := Option.isSome_iff_exists.mp (slice?_isSome_iff.mpr ⟨hab, ha, hb⟩)
  obtain ⟨v, hv⟩ := Option.isSome_iff_exists.mp (slice?_isSome_iff.mpr ⟨hbc, hb, hc⟩)
  exact ⟨u, v, hu, hv, Option.some.inj (h.symm.trans (slice?_append hu hv))⟩

/-- A slice of a slice is a slice. -/
theorem slice?_slice? {t m : Text} {a b c d : Nat} (h : t.slice? a b = some m) (hac : a ≤ c)
    (hcd : c ≤ d) (hdb : d ≤ b) : t.slice? c d = m.slice? (c - a) (d - a) := by
  obtain ⟨u, v, rfl, rfl, rfl⟩ := slice?_eq_some_iff.mp h
  apply Option.ext
  intro x
  rw [slice?_eq_some_iff, slice?_eq_some_iff]
  constructor
  · rintro ⟨u', v', heq, rfl, rfl⟩
    rw [List.append_assoc, List.append_assoc] at heq
    obtain ⟨w, rfl, hw⟩ := exists_append_of_size_le heq hac
    rw [← List.append_assoc] at hw
    simp only [size_append] at hdb
    obtain ⟨z, rfl, -⟩ := exists_append_of_size_le hw.symm (by rw [size_append]; omega)
    refine ⟨w, z, rfl, by simp, ?_⟩
    rw [size_append]
    omega
  · rintro ⟨u', v', rfl, hu', hd⟩
    refine ⟨u ++ u', v' ++ v, by simp, by simp; omega, by omega⟩

end Text

end Promisify
