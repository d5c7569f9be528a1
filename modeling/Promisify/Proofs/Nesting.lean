import Mathlib.Data.Option.Basic
import Promisify.Proofs.Chain

set_option autoImplicit false

/-! # How sites nest

A site covers the bytes from the start of its chain to the end of its call. Two sites are apart, or
one lies strictly inside the other; in document order the outer one comes first.
-/

namespace Promisify

/-- `s` lies inside `t` and is not all of it. -/
def Span.inside (s t : Span) : Prop := s.within t = true ∧ s ≠ t

instance (s t : Span) : Decidable (s.inside t) := inferInstanceAs (Decidable (_ ∧ _))

/-- `s` and `t` have no byte in common. -/
def Span.apart (s t : Span) : Prop := s.stop ≤ t.start ∨ t.stop ≤ s.start

instance (s t : Span) : Decidable (s.apart t) := inferInstanceAs (Decidable (_ ∨ _))

/-- `s` starts before `t`, or where `t` does and reaches as far at least. -/
def Span.leads (s t : Span) : Prop :=
  s.start < t.start ∨ s.start = t.start ∧ t.stop ≤ s.stop

theorem Span.inside_asymm {s t : Span} (h : s.inside t) : ¬ t.inside s := by
  intro h'
  have h₁ := Span.within_iff.mp h.1
  have h₂ := Span.within_iff.mp h'.1
  apply h.2
  cases s
  cases t
  simp only [Span.mk.injEq] at h₁ h₂ ⊢
  omega

/-! ## Callees and receivers -/

namespace Node

variable {n k r b : Node}

theorem kind_ne_of_eq {m : Node} {j : Kind} (hm : m.kind = j) (hj : j ≠ .callExpression)
    (hb : b.kind = .callExpression) : b ≠ m := by
  rintro rfl
  exact hj (hm.symm.trans hb)

/-- A call calls its function, or the operand of the prefix folded into it. -/
theorem callee?_cases (h : n.callee? = some k) :
    n.prefixedOperand? = some k ∨ n.prefixedOperand? = none ∧ n.child? .function = some k := by
  unfold callee? at h
  cases hp : n.prefixedOperand? with
  | some o =>
      rw [hp] at h
      exact Or.inl h
  | none =>
      rw [hp] at h
      exact Or.inr ⟨rfl, h⟩

namespace WellFormed

theorem function_start (h : n.WellFormed) (hn : n.kind = .callExpression)
    (hk : n.child? .function = some k) : k.start = n.start := by
  have := h.fits.function hn
  rw [hk] at this
  exact Option.some.inj this

theorem object_start (h : k.WellFormed) (hk : k.kind = .memberExpression)
    (hr : k.child? .object = some r) : r.start = k.start := by
  have := h.fits.object (Or.inl hk)
  rw [hr] at this
  exact Option.some.inj this

theorem exists_object (h : k.WellFormed) (hk : k.kind = .memberExpression) :
    ∃ r, k.child? .object = some r := by
  have := h.fits.object (Or.inl hk)
  obtain ⟨r, hr, -⟩ := Option.map_eq_some_iff.mp this
  exact ⟨r, hr⟩

theorem callee_mem (h : n.WellFormed) (hk : n.callee? = some k) : k ∈ n.descendants := by
  rcases callee?_cases hk with hp | ⟨-, hf⟩
  · exact (h.prefixed hp).1
  · exact mem_descendants_of_child (mem_children_of_child? hf)

/-- A call below a call is below its callee, before it or after it. -/
theorem callee_or_apart (h : n.WellFormed) (hk : n.callee? = some k) (hb : b ∈ n.descendants)
    (hbk : b.kind = .callExpression) : b ∈ k.preorder ∨ b.stop ≤ k.start ∨ k.stop ≤ b.start := by
  rcases callee?_cases hk with hp | ⟨-, hf⟩
  · -- the callee is the operand of the function, which is no call itself
    obtain ⟨-, -, f, hf, hfo⟩ := prefixedOperand?_eq_some hp
    have hfc := mem_children_of_child? hf
    have hkc := mem_children_of_operand? hfo
    have hkf := (h.child hfc).fits.inside k hkc
    rcases h.mem_preorder_or_apart hfc hb with hbf | hbefore | hafter
    · rcases mem_preorder.mp hbf with rfl | hbf'
      · rcases kind_of_operand? hfo with hk' | hk' <;> simp [hk'] at hbk
      · exact (h.child hfc).mem_preorder_or_apart hkc hbf'
    · exact Or.inr (Or.inl (by omega))
    · exact Or.inr (Or.inr (by omega))
  · exact h.mem_preorder_or_apart (mem_children_of_child? hf) hb

/-- A call below a member access is below its object or after it. -/
theorem object_or_after (h : k.WellFormed) (hk : k.kind = .memberExpression)
    (hr : k.child? .object = some r) (hb : b ∈ k.preorder) (hbk : b.kind = .callExpression) :
    b ∈ r.preorder ∨ r.stop ≤ b.start := by
  rcases mem_preorder.mp hb with hbk' | hbd
  · exact absurd hbk' (kind_ne_of_eq hk (by decide) hbk)
  · exact h.mem_preorder_or_after (mem_children_of_child? hr) (h.object_start hk hr) hbd

/-- A call below a method call is below the receiver, before it or after it. -/
theorem receiver_or_apart (h : n.WellFormed) (hk : n.callee? = some k)
    (hm : k.kind = .memberExpression) (hr : k.child? .object = some r) (hb : b ∈ n.descendants)
    (hbk : b.kind = .callExpression) : b ∈ r.preorder ∨ b.stop ≤ r.start ∨ r.stop ≤ b.start := by
  have hkw := h.of_mem_descendants (h.callee_mem hk)
  have hrs := hkw.object_start hm hr
  have hrk := hkw.fits.inside r (mem_children_of_child? hr)
  rcases h.callee_or_apart hk hb hbk with hbk' | hbefore | hafter
  · rcases hkw.object_or_after hm hr hbk' hbk with hbr | hafter
    · exact Or.inl hbr
    · exact Or.inr (Or.inr hafter)
  · exact Or.inr (Or.inl (by omega))
  · exact Or.inr (Or.inr (by omega))

/-- The chain of a method call starts where the receiver or the receiver's own chain does. -/
theorem callStart_receiver (h : n.WellFormed) (hn : n.kind = .callExpression)
    (hk : n.callee? = some k) (hm : k.kind = .memberExpression)
    (hr : k.child? .object = some r) :
    n.callStart = r.start ∨ n.prefixedOperand? = none ∧ n.callStart = r.callStart := by
  have hkw := h.of_mem_descendants (h.callee_mem hk)
  have hrs := hkw.object_start hm hr
  rcases callee?_cases hk with hp | ⟨hp, hf⟩
  · left
    rw [callStart_of_prefixed hp, hrs]
  · right
    have hl : n.leftward? = some k := by
      unfold leftward?
      rw [hn]
      exact hf
    have hkp : k.prefixedOperand? = none := by
      unfold prefixedOperand?
      simp [hm]
    have hkl : k.leftward? = some r := by
      unfold leftward?
      rw [hm]
      exact hr
    rw [callStart_of_leftward hp hl (h.function_start hn hf),
      callStart_of_leftward hkp hkl hrs]
    exact ⟨hp, rfl⟩

/-- The chain of a method call starts inside the receiver. -/
theorem callStart_mem_receiver (h : n.WellFormed) (hn : n.kind = .callExpression)
    (hk : n.callee? = some k) (hm : k.kind = .memberExpression)
    (hr : k.child? .object = some r) : r.start ≤ n.callStart ∧ n.callStart < r.stop := by
  have hkw := h.of_mem_descendants (h.callee_mem hk)
  have hrc := mem_children_of_child? hr
  have hrne := hkw.fits.nonempty r hrc
  have hb := (hkw.child hrc).callStart_bounds hrne
  rcases h.callStart_receiver hn hk hm hr with heq | ⟨-, heq⟩
  · omega
  · omega

/-- The property of a member access comes after the object. -/
theorem object_before_property {p : Node} (h : k.WellFormed) (hm : k.kind = .memberExpression)
    (hr : k.child? .object = some r) (hp : k.child? .property = some p) :
    r.stop ≤ p.start ∧ p.start < p.stop ∧ p.stop ≤ k.stop := by
  have hrc := mem_children_of_child? hr
  have hpc := mem_children_of_child? hp
  have hpw := h.within (mem_descendants_of_child hpc)
  have hrs := h.object_start hm hr
  have hne := ne_of_fields hr hp (by decide)
  rcases h.eq_or_apart hrc hpc with heq | hrp | hpr
  · exact absurd heq hne
  · exact ⟨hrp, hpw.2⟩
  · omega

end WellFormed

end Node

/-! ## What a site is -/

namespace Site

/-- What makes a call a site: the chain it starts with, its callee, which is a member access, and the
property that names the terminal. -/
structure At (f : SourceFile) (n : Node) (s : Site) : Prop where
  kind : n.kind = .callExpression
  call : s.call = n
  start : s.start = n.callStart
  callee : n.callee? = some s.callee
  member : s.callee.kind = .memberExpression
  property : ∃ p, s.callee.child? .property = some p ∧
    Terminal.ofMember? (f.textOf p) = some s.terminal

end Site

theorem SourceFile.siteAt?_eq_some {f : SourceFile} {n : Node} {s : Site}
    (h : f.siteAt? n = some s) : Site.At f n s := by
  unfold SourceFile.siteAt? at h
  split at h
  · rename_i hk
    simp only [Option.bind_eq_bind, Option.bind_eq_some_iff, Option.pure_def, Option.some.injEq,
      Option.guard_eq_some'] at h
    obtain ⟨callee, hcallee, -, hmember, property, hproperty, -, -, terminal, hterminal, rfl⟩ := h
    exact ⟨hk, rfl, rfl, hcallee, hmember, property, hproperty, hterminal⟩
  · simp at h

namespace Site

namespace At

variable {f : SourceFile} {n m : Node} {s t : Site}

theorem callee_mem (h : At f n s) (hwf : n.WellFormed) : s.callee ∈ n.descendants :=
  hwf.callee_mem h.callee

theorem callee_wellFormed (h : At f n s) (hwf : n.WellFormed) : s.callee.WellFormed :=
  hwf.of_mem_descendants (h.callee_mem hwf)

theorem nonempty (h : At f n s) (hwf : n.WellFormed) : n.start < n.stop := by
  have := hwf.within (h.callee_mem hwf)
  omega

theorem span_eq (h : At f n s) : s.span = ⟨n.callStart, n.stop⟩ := by
  rw [Site.span, h.start, h.call]

theorem span_bounds (h : At f n s) (hwf : n.WellFormed) :
    n.start ≤ s.span.start ∧ s.span.start < s.span.stop ∧ s.span.stop = n.stop := by
  have hb := hwf.callStart_bounds (h.nonempty hwf)
  rw [h.span_eq]
  exact ⟨hb.1, hb.2, rfl⟩

/-- A site at a call below another site's call lies strictly inside that site. -/
theorem inside (h : At f n s) (ht : At f m t) (hwf : n.WellFormed) (hm : m ∈ n.descendants) :
    t.span.inside s.span := by
  have hne := h.nonempty hwf
  have hmw := hwf.within hm
  have hms := ((hwf.of_mem_descendants hm).callStart_bounds hmw.2.1).1
  have hle := hwf.callStart_le hne (Node.mem_preorder.mpr (Or.inr hm)) ht.kind
  have hkw := h.callee_wellFormed hwf
  have hkn := hwf.within (h.callee_mem hwf)
  obtain ⟨r, hr⟩ := hkw.exists_object h.member
  obtain ⟨p, hp, -⟩ := h.property
  have hrp := hkw.object_before_property h.member hr hp
  have hcr := hwf.callStart_mem_receiver h.kind h.callee h.member hr
  -- below the receiver it ends earlier, behind the receiver it starts later
  have hstrict : m.stop < n.stop ∨ n.callStart < m.callStart := by
    rcases hwf.receiver_or_apart h.callee h.member hr hm ht.kind with hmr | hbefore | hafter
    · have := ((hkw.child (Node.mem_children_of_child? hr)).within_of_mem_preorder hmr).2
      exact Or.inl (by omega)
    · exact Or.inl (by omega)
    · exact Or.inr (by omega)
  rw [h.span_eq, ht.span_eq]
  refine ⟨Span.within_iff.mpr ⟨hle, hmw.2.2⟩, ?_⟩
  intro heq
  simp only [Span.mk.injEq] at heq
  omega

end At

end Site

/-! ## Sites in document order -/

namespace SourceFile

variable {f : SourceFile}

theorem mem_sites {s : Site} :
    s ∈ f.sites ↔ ∃ n ∈ f.root.preorder, f.siteAt? n = some s := List.mem_filterMap

/-- A site further on in document order is at a call below the earlier one's call, or behind
it. -/
theorem sites_pairwise (h : f.root.WellFormed) :
    f.sites.Pairwise fun s t =>
      t.call ∈ s.call.descendants ∧ t.span.inside s.span ∨
        s.span.stop ≤ t.call.start ∧ s.span.stop ≤ t.span.start := by
  unfold sites
  rw [List.pairwise_filterMap]
  refine h.preorder_pairwise.imp_of_mem ?_
  intro n m hn hm hnm s hs t ht
  have hs' := siteAt?_eq_some hs
  have ht' := siteAt?_eq_some ht
  have hnw := h.of_mem_preorder hn
  have hmw := h.of_mem_preorder hm
  have hsb := hs'.span_bounds hnw
  have htb := ht'.span_bounds hmw
  rw [hs'.call, ht'.call]
  rcases hnm with hbelow | hafter
  · exact Or.inl ⟨hbelow, hs'.inside ht' hnw hbelow⟩
  · exact Or.inr ⟨by omega, by omega⟩

theorem span_nonempty (h : f.root.WellFormed) {s : Site} (hs : s ∈ f.sites) :
    s.span.start < s.span.stop := by
  obtain ⟨n, hn, hns⟩ := mem_sites.mp hs
  exact ((siteAt?_eq_some hns).span_bounds (h.of_mem_preorder hn)).2.1

/-- Of two sites in document order the later one lies strictly inside the earlier one or behind
it. -/
theorem span_inside_or_after (h : f.root.WellFormed) :
    f.sites.Pairwise fun s t => t.span.inside s.span ∨ s.span.stop ≤ t.span.start :=
  (sites_pairwise h).imp fun hst => hst.imp And.right And.right

theorem span_ne (h : f.root.WellFormed) :
    f.sites.Pairwise fun s t => s.span ≠ t.span := by
  refine (span_inside_or_after h).imp_of_mem ?_
  intro s t hs ht hst heq
  rcases hst with hin | hafter
  · exact hin.2 heq.symm
  · have := span_nonempty h hs
    rw [heq] at hafter this
    omega

theorem span_leads (h : f.root.WellFormed) :
    f.sites.Pairwise fun s t => s.span.leads t.span := by
  refine (span_inside_or_after h).imp_of_mem ?_
  intro s t hs ht hst
  have hs' := span_nonempty h hs
  rcases hst with hin | hafter
  · have := Span.within_iff.mp hin.1
    unfold Span.leads
    omega
  · exact Or.inl (by omega)

/-- **Sites nest, and document order is their order.** Of two sites the later one in document
order lies strictly inside the earlier one or behind it. So any two sites are apart or one lies
strictly inside the other, no two cover the same bytes, and the sites come by their start, of two
with the same start the longer one first. -/
theorem sites_nest_in_document_order (f : SourceFile) (h : f.root.WellFormed) :
    (f.sites.Pairwise fun s t => t.span.inside s.span ∨ s.span.stop ≤ t.span.start) ∧
    (∀ s ∈ f.sites, ∀ t ∈ f.sites, s.span ≠ t.span →
      s.span.inside t.span ∨ t.span.inside s.span ∨ s.span.apart t.span) ∧
    (f.sites.map Site.span).Nodup ∧
    f.sites.Pairwise fun s t => s.span.leads t.span := by
  refine ⟨span_inside_or_after h, ?_, ?_, span_leads h⟩
  · intro s hs t ht hne
    have hsymm : Std.Symm fun s t : Site =>
        s.span.inside t.span ∨ t.span.inside s.span ∨ s.span.apart t.span := by
      refine ⟨fun a b hab => ?_⟩
      rcases hab with hab | hab | hab
      · exact Or.inr (Or.inl hab)
      · exact Or.inl hab
      · exact Or.inr (Or.inr (Or.symm hab))
    have hpair : f.sites.Pairwise fun s t =>
        s.span.inside t.span ∨ t.span.inside s.span ∨ s.span.apart t.span := by
      refine (span_inside_or_after h).imp ?_
      intro a b hab
      exact Or.inr (hab.imp id Or.inl)
    refine hpair.forall hs ht ?_
    rintro rfl
    exact hne rfl
  · rw [List.Nodup, List.pairwise_map]
    exact span_ne h

set_option maxRecDepth 100000 in
/-- Two sites inside a third one, which starts behind the prefix folded into its chain. -/
theorem sites_behind_folded_prefix :
    ∃ f, parse? .typeScript
        "x = await a.f<T>(() => c.subscribe(d)).pipe(take(1), () => b.toPromise()).toPromise();".toList
          = .ok f ∧
      f.root.WellFormed ∧ f.sites.map Site.span = [⟨10, 85⟩, ⟨23, 37⟩, ⟨59, 72⟩] ∧
      (f.sites.Pairwise fun s t => t.span.inside s.span ∨ s.span.stop ≤ t.span.start) ∧
      (∀ s ∈ f.sites, ∀ t ∈ f.sites, s.span ≠ t.span →
        s.span.inside t.span ∨ t.span.inside s.span ∨ s.span.apart t.span) ∧
      (f.sites.map Site.span).Nodup ∧
      f.sites.Pairwise fun s t => s.span.leads t.span := by
  refine exists_of_parse
    (fun f => f.root.WellFormed ∧ f.sites.map Site.span = [⟨10, 85⟩, ⟨23, 37⟩, ⟨59, 72⟩])
    (by decide +kernel) ?_
  rintro f ⟨hwf, hspans⟩
  exact ⟨hwf, hspans, sites_nest_in_document_order f hwf⟩

end SourceFile

end Promisify
