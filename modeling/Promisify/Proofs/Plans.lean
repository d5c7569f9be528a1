import Promisify.Proofs.Pieces
import Promisify.Proofs.Slices
import Promisify.Proofs.Sorting
import Promisify.Render

set_option autoImplicit false

/-! # The plans of a file

The plans of a file nest as its sites do, and no plan lies across the border of a span that another
plan copies. `Plan.Nested` says this of a list of plans in the order in which they are taken; it is
all that carrying out plans needs to know about them.
-/

namespace Promisify

namespace Plan

/-! ## Nested plans -/

/-- `p` comes before `q`: it starts earlier, or at the same place and is longer. -/
def precedes (p q : Plan) : Prop :=
  p.span.start < q.span.start ∨ p.span.start = q.span.start ∧ q.span.stop < p.span.stop

instance : Std.Irrefl precedes := ⟨fun p h => by
  unfold precedes at h
  omega⟩

instance : Std.Antisymm precedes := ⟨fun p q hpq hqp => by
  unfold precedes at hpq hqp
  omega⟩

theorem precedes_of_inside {p q : Plan} (h : q.span.inside p.span) : p.precedes q := by
  have hw := Span.within_iff.mp h.1
  have hne := h.2
  unfold precedes
  cases hp : p.span
  cases hq : q.span
  rw [hp, hq] at hw hne
  simp only [ne_eq, Span.mk.injEq] at hw hne ⊢
  omega

/-- `q` lies strictly inside `p`, and either inside a span that `p` copies or outside all of
them. -/
structure Holds (p q : Plan) : Prop where
  inside : q.span.inside p.span
  clear : ∀ a ∈ p.sources, q.span.within a = true ∨ q.span.apart a

/-- Plans in the order in which they are taken: of any two the later one lies inside the earlier
one or behind it. -/
structure Nested (ps : List Plan) : Prop where
  nonempty : ∀ p ∈ ps, p.span.start < p.span.stop
  fits : ∀ p ∈ ps, p.Fits
  ordered : ps.Pairwise fun p q => p.Holds q ∨ p.span.stop ≤ q.span.start

namespace Nested

variable {ps : List Plan} {p q : Plan}

theorem tail (h : Nested (p :: ps)) : Nested ps where
  nonempty := fun q hq => h.nonempty q (by simp [hq])
  fits := fun q hq => h.fits q (by simp [hq])
  ordered := h.ordered.of_cons

theorem filter (h : Nested ps) (keep : Plan → Bool) : Nested (ps.filter keep) where
  nonempty := fun q hq => h.nonempty q (List.mem_filter.mp hq).1
  fits := fun q hq => h.fits q (List.mem_filter.mp hq).1
  ordered := h.ordered.sublist List.filter_sublist

theorem precedes_pairwise (h : Nested ps) : ps.Pairwise precedes := by
  refine h.ordered.imp_of_mem ?_
  intro p q hp hq hpq
  rcases hpq with hin | hafter
  · exact precedes_of_inside hin.inside
  · have := h.nonempty p hp
    exact Or.inl (by omega)

/-- Any two plans are the same, one holds the other, or they are apart. -/
theorem trichotomy (h : Nested ps) (hp : p ∈ ps) (hq : q ∈ ps) :
    p = q ∨ p.Holds q ∨ q.Holds p ∨ p.span.apart q.span := by
  have hsymm : Std.Symm fun a b : Plan => a.Holds b ∨ b.Holds a ∨ a.span.apart b.span := by
    refine ⟨fun a b hab => ?_⟩
    rcases hab with hab | hab | hab
    · exact Or.inr (Or.inl hab)
    · exact Or.inl hab
    · exact Or.inr (Or.inr (Or.symm hab))
  have hpair : ps.Pairwise fun a b : Plan => a.Holds b ∨ b.Holds a ∨ a.span.apart b.span := by
    refine h.ordered.imp ?_
    intro a b hab
    rcases hab with hab | hab
    · exact Or.inl hab
    · exact Or.inr (Or.inr (Or.inl hab))
  by_cases hpq : p = q
  · exact Or.inl hpq
  · exact Or.inr (hpair.forall hp hq hpq)

end Nested

/-! ## Sorting -/

theorem before_of_precedes {p q : Plan} (h : p.precedes q) : p.before q = true := by
  unfold precedes at h
  simp only [before, Bool.or_eq_true, Bool.and_eq_true, decide_eq_true_eq, beq_iff_eq]
  omega

/-- Plans that are in order stay as they are. -/
theorem sorted_of_pairwise {ps : List Plan} (h : ps.Pairwise precedes) : sorted ps = ps :=
  sortedBy_of_pairwise (h.imp before_of_precedes)

/-- Every place where the plan cuts the text lies between two characters. -/
structure OnBorders (t : Text) (p : Plan) : Prop where
  start : t.IsBorder p.span.start
  stop : t.IsBorder p.span.stop
  sources : ∀ a ∈ p.sources, t.IsBorder a.start ∧ t.IsBorder a.stop

end Plan

/-! ## The plans of a well-formed file -/

/-- A well-formed tree whose nodes start and stop between characters of the text. Every parsed file
has one. -/
structure SourceFile.WellFormed (f : SourceFile) : Prop where
  tree : f.root.WellFormed
  borders : ∀ n ∈ f.root.preorder, f.text.IsBorder n.start ∧ f.text.IsBorder n.stop

instance (f : SourceFile) : Decidable f.WellFormed :=
  decidable_of_iff
    (f.root.WellFormed ∧
      ∀ n ∈ f.root.preorder, f.text.IsBorder n.start ∧ f.text.IsBorder n.stop)
    ⟨fun ⟨h₁, h₂⟩ => ⟨h₁, h₂⟩, fun ⟨h₁, h₂⟩ => ⟨h₁, h₂⟩⟩

namespace SourceFile

variable {f : SourceFile}

theorem plans_eq_sorted (f : SourceFile) :
    f.plans = Plan.sorted (f.sites.filterMap fun s => (f.plan s).toOption) := by
  unfold plans decisions
  rw [List.filterMap_map]
  rfl

theorem toOption_eq_some {s : Site} {p : Plan} (h : (f.plan s).toOption = some p) :
    f.plan s = .ok p := by
  cases hp : f.plan s with
  | error e => simp [hp, Except.toOption] at h
  | ok q =>
      rw [hp] at h
      simp only [Except.toOption, Option.some.injEq] at h
      rw [h]

theorem unsorted_nested (h : f.root.WellFormed) :
    Plan.Nested (f.sites.filterMap fun s => (f.plan s).toOption) where
  nonempty := by
    intro p hp
    obtain ⟨s, hs, hsp⟩ := List.mem_filterMap.mp hp
    rw [(plan_sources (toOption_eq_some hsp)).1]
    exact span_nonempty h hs
  fits := by
    intro p hp
    obtain ⟨s, hs, hsp⟩ := List.mem_filterMap.mp hp
    obtain ⟨n, hn, hns⟩ := mem_sites.mp hs
    exact plan_fits (siteAt?_eq_some hns) (h.of_mem_preorder hn) (toOption_eq_some hsp)
  ordered := by
    rw [List.pairwise_filterMap]
    refine (sites_pairwise h).imp_of_mem ?_
    intro s t hs ht hst p hp q hq
    have hp' := toOption_eq_some hp
    have hq' := toOption_eq_some hq
    have hps := (plan_sources hp').1
    have hqt := (plan_sources hq').1
    obtain ⟨n, hn, hns⟩ := mem_sites.mp hs
    obtain ⟨m, hm, hmt⟩ := mem_sites.mp ht
    have hsn := siteAt?_eq_some hns
    have htm := siteAt?_eq_some hmt
    rcases hst with ⟨hbelow, hin⟩ | ⟨-, hafter⟩
    · left
      rw [hsn.call, htm.call] at hbelow
      refine ⟨by rw [hps, hqt]; exact hin, ?_⟩
      rw [hqt]
      exact plan_clear hsn (h.of_mem_preorder hn) hp' hbelow htm
    · right
      rw [hps, hqt]
      exact hafter

/-- Document order is the order in which plans are taken. -/
theorem plans_eq (h : f.root.WellFormed) :
    f.plans = f.sites.filterMap fun s => (f.plan s).toOption := by
  rw [plans_eq_sorted, Plan.sorted_of_pairwise (unsorted_nested h).precedes_pairwise]

/-- **The plans of a file nest.** -/
theorem plans_nested (h : f.root.WellFormed) : Plan.Nested f.plans := by
  rw [plans_eq h]
  exact unsorted_nested h

theorem mem_plans (h : f.root.WellFormed) {p : Plan} (hp : p ∈ f.plans) :
    ∃ n ∈ f.root.preorder, ∃ s, Site.At f n s ∧ f.plan s = .ok p := by
  rw [plans_eq h] at hp
  obtain ⟨s, hs, hsp⟩ := List.mem_filterMap.mp hp
  obtain ⟨n, hn, hns⟩ := mem_sites.mp hs
  exact ⟨n, hn, s, siteAt?_eq_some hns, toOption_eq_some hsp⟩

theorem WellFormed.isBorder (h : f.WellFormed) {k : Nat} (hk : f.root.HasBorder k) :
    f.text.IsBorder k := by
  obtain ⟨n, hn, rfl | rfl⟩ := hk
  · exact (h.borders n hn).1
  · exact (h.borders n hn).2

/-- The plans of a file cut its text only between characters. -/
theorem plans_onBorders (h : f.WellFormed) {p : Plan} (hp : p ∈ f.plans) :
    p.OnBorders f.text := by
  obtain ⟨n, hn, s, hs, hsp⟩ := mem_plans h.tree hp
  obtain ⟨⟨hstart, hstop⟩, hsources⟩ := plan_borders hs (h.tree.of_mem_preorder hn) hsp
  refine ⟨h.isBorder (hstart.of_mem_preorder hn), h.isBorder (hstop.of_mem_preorder hn), ?_⟩
  intro a ha
  exact ⟨h.isBorder ((hsources a ha).1.of_mem_preorder hn),
    h.isBorder ((hsources a ha).2.of_mem_preorder hn)⟩

end SourceFile

end Promisify
