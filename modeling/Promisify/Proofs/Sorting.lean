import Mathlib.Data.List.Basic
import Promisify.Sorting

set_option autoImplicit false

/-! # Sorting

What comes out in order is what went in. For a comparison that is transitive and total the sort is
the stable one of the standard library (`sortedBy_eq_mergeSort`).
-/

namespace Promisify

variable {α : Type} {before : α → α → Bool} {a : α} {as bs : List α}

theorem insertSorted_append (has : ∀ b ∈ as, before a b = false)
    (hbs : ∀ b ∈ bs.head?, before a b = true) : insertSorted before a (as ++ bs) = as ++ a :: bs := by
  induction as with
  | nil =>
      cases bs with
      | nil => rfl
      | cons b bs =>
          show insertSorted before a (b :: bs) = a :: b :: bs
          rw [insertSorted, if_pos (hbs b rfl)]
  | cons b as ih =>
      have hb := has b List.mem_cons_self
      rw [List.cons_append, insertSorted, if_neg (by simp [hb]),
        ih fun c hc => has c (List.mem_cons_of_mem b hc)]
      rfl

theorem mem_insertSorted {b : α} : b ∈ insertSorted before a as ↔ b = a ∨ b ∈ as := by
  induction as with
  | nil => simp [insertSorted]
  | cons c as ih =>
      rw [insertSorted]
      split
      · simp
      · rw [List.mem_cons, ih, List.mem_cons, or_left_comm]

/-- Sorting neither adds items nor loses any. -/
theorem mem_sortedBy : a ∈ sortedBy before as ↔ a ∈ as := by
  induction as with
  | nil => simp [sortedBy]
  | cons b as ih => rw [sortedBy, mem_insertSorted, ih, List.mem_cons]

/-- Items that come in order stay as they are. -/
theorem sortedBy_of_pairwise (h : as.Pairwise fun a b => before a b = true) :
    sortedBy before as = as := by
  induction h with
  | nil => rfl
  | @cons a as ha _ ih =>
      rw [sortedBy, ih]
      show insertSorted before a ([] ++ as) = [] ++ a :: as
      exact insertSorted_append (by simp) fun b hb => ha b (List.mem_of_mem_head? hb)

/-- **The sort is the stable one.** -/
theorem sortedBy_eq_mergeSort
    (htrans : ∀ a b c, before a b = true → before b c = true → before a c = true)
    (htotal : ∀ a b, (before a b || before b a) = true) (as : List α) :
    sortedBy before as = as.mergeSort before := by
  induction as with
  | nil => simp [sortedBy]
  | cons a as ih =>
      -- the stable sort puts an item in front of the first one that it may stand before
      obtain ⟨us, vs, hcons, htail, hfront⟩ := List.mergeSort_cons htrans htotal a as
      have hpair : (us ++ a :: vs).Pairwise fun a b => before a b = true := by
        rw [← hcons]
        exact List.pairwise_mergeSort htrans htotal _
      rw [sortedBy, ih, htail, hcons]
      refine insertSorted_append (fun b hb => by simpa using hfront b hb) ?_
      intro b hb
      have hrest := (List.pairwise_append.mp hpair).2.1
      exact (List.pairwise_cons.mp hrest).1 b (List.mem_of_mem_head? hb)

/-- Sorting puts items in order. -/
theorem sortedBy_pairwise
    (htrans : ∀ a b c, before a b = true → before b c = true → before a c = true)
    (htotal : ∀ a b, (before a b || before b a) = true) (as : List α) :
    (sortedBy before as).Pairwise fun a b => before a b = true := by
  rw [sortedBy_eq_mergeSort htrans htotal]
  exact List.pairwise_mergeSort htrans htotal as

end Promisify
