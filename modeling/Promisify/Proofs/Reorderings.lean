import Mathlib.Data.Fin.VecNotation
import Mathlib.Data.List.Sort
import Promisify.Proofs.EditSets

set_option autoImplicit false

/-! # Edits recorded in another order

Edits are taken by the order of their spans. Only edits of one span are told apart by when they were
recorded, so edits can be recorded in any order that keeps those of each span as they are
(`Edits.Reordered`): what a stable sort makes of them is settled by the edits of each span
(`Edits.eq_of_ofSpan`), whether they overlap or not.
-/

namespace Promisify

theorem Edit.span_eq_of_before {a b : Edit} (hab : a.before b = true) (hba : b.before a = true) :
    a.span = b.span := by
  rw [before_iff] at hab hba
  cases ha : a.span
  cases hb : b.span
  rw [ha, hb] at hab hba
  simp only [Span.mk.injEq] at hab hba ⊢
  omega

namespace Edits

variable {es fs as bs : List Edit} {e : Edit} {s : Span}

/-! ## The edits of one span -/

/-- The edits of one span, in their order. -/
def ofSpan (s : Span) (es : List Edit) : List Edit := es.filter fun e => e.span = s

theorem mem_ofSpan : e ∈ ofSpan s es ↔ e ∈ es ∧ e.span = s := by simp [ofSpan]

theorem ofSpan_cons_self (e : Edit) (es : List Edit) :
    ofSpan e.span (e :: es) = e :: ofSpan e.span es := by simp [ofSpan]

theorem ofSpan_cons_of_ne (h : e.span ≠ s) (es : List Edit) :
    ofSpan s (e :: es) = ofSpan s es := by simp [ofSpan, h]

theorem ofSpan_pairwise (s : Span) (es : List Edit) :
    (ofSpan s es).Pairwise fun a b => a.before b = true := by
  refine List.pairwise_iff_forall_sublist.mpr ?_
  intro a b hab
  have ha := (mem_ofSpan.mp (hab.subset List.mem_cons_self)).2
  have hb := (mem_ofSpan.mp (hab.subset (List.mem_cons_of_mem a List.mem_cons_self))).2
  rw [Edit.before_iff, ha, hb]
  omega

/-- Sorting keeps the edits of one span in their order. -/
theorem ofSpan_sorted (s : Span) (es : Edits) : ofSpan s es.sorted = ofSpan s es := by
  rw [sorted_eq_mergeSort]
  -- a stable sort leaves what is in order already as a sublist, and here it has nothing to add
  have hsub : (ofSpan s es).Sublist (es.mergeSort Edit.before) :=
    List.sublist_mergeSort Edit.before_trans Edit.before_total (ofSpan_pairwise s es)
      List.filter_sublist
  have hsub' : (ofSpan s es).Sublist (ofSpan s (es.mergeSort Edit.before)) := by
    have hfilter := hsub.filter fun e => decide (e.span = s)
    simpa only [ofSpan, List.filter_filter, Bool.and_self] using hfilter
  have hperm : (ofSpan s (es.mergeSort Edit.before)).Perm (ofSpan s es) :=
    (List.mergeSort_perm es Edit.before).filter _
  exact (hsub'.eq_of_length hperm.length_eq.symm).symm

/-- **Edits in order are settled by those of each span.** -/
theorem eq_of_ofSpan (has : as.Pairwise fun a b => a.before b = true)
    (hbs : bs.Pairwise fun a b => a.before b = true) (h : ∀ s, ofSpan s as = ofSpan s bs) :
    as = bs := by
  induction has generalizing bs with
  | nil =>
      cases bs with
      | nil => rfl
      | cons b bs =>
          have hb := h b.span
          rw [ofSpan_cons_self] at hb
          cases hb
  | @cons a as hfirst _ ih =>
      cases hbs with
      | nil =>
          have ha := h a.span
          rw [ofSpan_cons_self] at ha
          cases ha
      | @cons b bs hfirst' hrest =>
          -- each of the two heads is on the other side too, so neither comes before the other
          have hmem : a ∈ b :: bs :=
            (mem_ofSpan.mp (h a.span ▸ mem_ofSpan.mpr ⟨List.mem_cons_self, rfl⟩)).1
          have hmem' : b ∈ a :: as :=
            (mem_ofSpan.mp (h b.span ▸ mem_ofSpan.mpr ⟨List.mem_cons_self, rfl⟩)).1
          have hspan : a.span = b.span := by
            rcases List.mem_cons.mp hmem with rfl | hmem
            · rfl
            · rcases List.mem_cons.mp hmem' with rfl | hmem'
              · rfl
              · exact Edit.span_eq_of_before (hfirst b hmem') (hfirst' a hmem)
          have hheads := h a.span
          rw [ofSpan_cons_self, hspan, ofSpan_cons_self] at hheads
          obtain ⟨rfl, -⟩ := List.cons.inj hheads
          rw [ih hrest]
          -- what follows the common head has the same edits of each span
          intro s
          have hs := h s
          by_cases ha : a.span = s
          · rw [← ha] at hs ⊢
            rw [ofSpan_cons_self, ofSpan_cons_self] at hs
            exact (List.cons.inj hs).2
          · rwa [ofSpan_cons_of_ne ha, ofSpan_cons_of_ne ha] at hs

theorem sorted_pairwise (es : Edits) : es.sorted.Pairwise fun a b => a.before b = true :=
  sortedBy_pairwise Edit.before_trans Edit.before_total es

/-! ## Other orders -/

/-- `fs` has the edits of `es` in another order, in which edits of one span keep theirs. -/
def Reordered (es fs : Edits) : Prop :=
  ∃ σ : Fin es.length ≃ Fin fs.length, (∀ i, fs.get (σ i) = es.get i) ∧
    ∀ i j, i < j → (es.get i).span = (es.get j).span → σ i < σ j

/-- The places of the edits of one span. -/
def places (s : Span) (es : List Edit) : List (Fin es.length) :=
  (List.finRange es.length).filter fun i => (es.get i).span = s

theorem mem_places {i : Fin es.length} : i ∈ places s es ↔ (es.get i).span = s := by
  simp [places]

theorem places_pairwise (s : Span) (es : List Edit) : (places s es).Pairwise (· < ·) :=
  (List.pairwise_lt_finRange es.length).filter _

theorem map_get_places (s : Span) (es : List Edit) : (places s es).map es.get = ofSpan s es := by
  conv_rhs => rw [ofSpan, ← List.map_get_finRange es, List.filter_map]
  rfl

/-- Another order moves the places of one span and keeps them in order. -/
theorem Reordered.ofSpan_eq (h : Reordered es fs) (s : Span) : ofSpan s es = ofSpan s fs := by
  obtain ⟨σ, hget, hmono⟩ := h
  have hplaces : (places s es).map σ = places s fs := by
    refine List.Pairwise.eq_of_mem_iff (r := (· < ·)) ?_ (places_pairwise s fs) ?_
    · rw [List.pairwise_map]
      refine (places_pairwise s es).imp_of_mem ?_
      intro i j hi hj hij
      exact hmono i j hij ((mem_places.mp hi).trans (mem_places.mp hj).symm)
    · intro j
      rw [List.mem_map, mem_places]
      constructor
      · rintro ⟨i, hi, rfl⟩
        rw [hget, mem_places.mp hi]
      · intro hj
        refine ⟨σ.symm j, mem_places.mpr ?_, σ.apply_symm_apply j⟩
        rw [← hget, σ.apply_symm_apply, hj]
  calc ofSpan s es = (places s es).map es.get := (map_get_places s es).symm
    _ = (places s es).map (fs.get ∘ σ) := List.map_congr_left fun i _ => (hget i).symm
    _ = (places s fs).map fs.get := by rw [← hplaces, List.map_map]
    _ = ofSpan s fs := map_get_places s fs

/-- Edits in another order are taken in the same order. -/
theorem Reordered.sorted_eq (h : Reordered es fs) : sorted es = sorted fs := by
  refine eq_of_ofSpan (sorted_pairwise es) (sorted_pairwise fs) ?_
  intro s
  rw [ofSpan_sorted, ofSpan_sorted, h.ofSpan_eq]

/-- **The order of recording does not matter.** Edits recorded in another order, in which those of one
span keep theirs, give the same text or fail alike. The same edits are kept, and the same are reported as
dropped. -/
theorem applying_ignores_recording_order (t : Text) (es fs : Edits) (h : Reordered es fs) :
    es.applied? t = fs.applied? t ∧ es.kept = fs.kept ∧ es.events t = fs.events t := by
  have hsorted : es.sorted = fs.sorted := h.sorted_eq
  refine ⟨?_, ?_, ?_⟩
  · rw [applied?, applied?, hsorted]
  · rw [kept, kept, ← sorted_eq_mergeSort, ← sorted_eq_mergeSort, hsorted]
  · rw [events, events, dropped, dropped, hsorted]

/-- Two insertions at one place, a deletion and two edits that overlap. One order gives the text of the
other, and in a text that is too short both fail. -/
theorem overlapping_edits_in_two_orders :
    ∃ es fs : Edits, es = [⟨⟨3, 7⟩, "B".toList⟩, ⟨⟨1, 5⟩, "A".toList⟩, .insertion 1 "x".toList,
        .insertion 1 "y".toList, .deletion ⟨7, 8⟩] ∧
      fs = [.insertion 1 "x".toList, .deletion ⟨7, 8⟩, ⟨⟨1, 5⟩, "A".toList⟩, .insertion 1 "y".toList,
        ⟨⟨3, 7⟩, "B".toList⟩] ∧
      Reordered es fs ∧ fs.applied? "0é3456789".toList = some "0xyA5689".toList ∧
      fs.applied? "0é".toList = none := by
  have hreordered : Reordered
      [⟨⟨3, 7⟩, "B".toList⟩, ⟨⟨1, 5⟩, "A".toList⟩, .insertion 1 "x".toList, .insertion 1 "y".toList,
        .deletion ⟨7, 8⟩]
      [.insertion 1 "x".toList, .deletion ⟨7, 8⟩, ⟨⟨1, 5⟩, "A".toList⟩, .insertion 1 "y".toList,
        ⟨⟨3, 7⟩, "B".toList⟩] :=
    ⟨⟨![4, 2, 0, 3, 1], ![2, 4, 1, 3, 0], by unfold Function.LeftInverse; decide,
      by unfold Function.RightInverse Function.LeftInverse; decide⟩, by decide, by decide⟩
  refine ⟨_, _, rfl, rfl, hreordered, ?_, ?_⟩
  · rw [← (applying_ignores_recording_order _ _ _ hreordered).1]
    decide
  · rw [← (applying_ignores_recording_order _ _ _ hreordered).1]
    decide

end Edits

end Promisify
