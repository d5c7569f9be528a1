import Promisify.Plan
import Promisify.Proofs.ImportViews

set_option autoImplicit false

/-! # Calls at another place

The tree of a statement is read at the start of a text and stands somewhere in a file, moved to its place
and with the comments inside it. Whether a call there is a site, whether the site has a plan and which
bare name the call calls is settled by the tree as it was read (`helperAt?_eq`, `callsName_eq`): spans are
moved with the text, and nothing looks at comments.
-/

namespace Promisify

/-! ## Options side by side -/

section

variable {α β γ δ : Type} {R : α → β → Prop} {S : γ → δ → Prop} {a : Option α} {b : Option β}

theorem rel_bind {F : α → Option γ} {G : β → Option δ} (h : Option.Rel R a b)
    (hFG : ∀ x y, R x y → Option.Rel S (F x) (G y)) : Option.Rel S (a.bind F) (b.bind G) := by
  cases h with
  | none => exact .none
  | some h => exact hFG _ _ h

/-- A check that passes on one side passes on the other. -/
theorem rel_guard {p q : Prop} [Decidable p] [Decidable q] {F : Option γ} {G : Option δ} (hpq : p ↔ q)
    (h : Option.Rel S F G) :
    Option.Rel S ((guard p : Option Unit).bind fun _ => F) ((guard q : Option Unit).bind fun _ => G) := by
  by_cases hp : p
  · rw [guard, if_pos hp, guard, if_pos (hpq.mp hp)]
    exact h
  · rw [guard, if_neg hp, guard, if_neg fun hq => hp (hpq.mpr hq)]
    exact .none

theorem isSome_eq_of_rel (h : Option.Rel R a b) : b.isSome = a.isSome := by
  cases h with
  | none => rfl
  | some => rfl

theorem eq_of_rel {x y : Option γ} (h : Option.Rel Eq x y) : x = y := by
  cases h with
  | none => rfl
  | some h => rw [h]

end

/-! ## Nodes -/

/-- The node `n` is the node `m` moved back by `k` bytes, with comments added to it. -/
def Node.Copies (k : Nat) (m n : Node) : Prop := (m.shift k).Annotates n

namespace Node.Copies

variable {k : Nat} {m n : Node} {e f : SourceFile}

theorem kind_eq (h : Copies k m n) : n.kind = m.kind := (Annotates.kind_eq h).trans (kind_shift k m)

theorem child? (h : Copies k m n) (x : Field) :
    Option.Rel (Copies k) (m.child? x) (n.child? x) := by
  rcases Annotates.child?_cases h x with ⟨hn, hm⟩ | ⟨a, b, hn, hm, hab⟩
  · rw [child?_shift, Option.map_eq_none_iff] at hm
    rw [hn, hm]
    exact .none
  · rw [child?_shift] at hm
    obtain ⟨c, hc, rfl⟩ := Option.map_eq_some_iff.mp hm
    rw [hn, hc]
    exact .some hab

theorem codeParts (h : Copies k m n) : List.Forall₂ (Copies k) m.codeParts n.codeParts := by
  have hcode : List.Forall₂ Annotates (m.shift k).codeParts n.codeParts :=
    Annotates.children h
      (q := fun x => !(x == .comment) && !(x == .optionalChain || x == .typeKeyword)) rfl
  rw [codeParts_shift, List.forall₂_map_left_iff] at hcode
  exact hcode

theorem head?_codeParts (h : Copies k m n) :
    Option.Rel (Copies k) m.codeParts.head? n.codeParts.head? := by
  have hall := h.codeParts
  generalize m.codeParts = ms at hall ⊢
  generalize n.codeParts = ns at hall ⊢
  cases hall with
  | nil => exact .none
  | cons hab => exact .some hab

theorem isOptional_eq (h : Copies k m n) : n.isOptional = m.isOptional := by
  rw [isOptional, Annotates.any_kind h (by decide), children_shift, List.any_map]
  simp only [Function.comp_def, kind_shift]
  rfl

theorem callee? (h : Copies k m n) : Option.Rel (Copies k) m.callee? n.callee? := by
  have hprefix : Option.Rel (Copies k) m.prefixedOperand? n.prefixedOperand? := by
    unfold prefixedOperand?
    rw [h.kind_eq, isSome_eq_of_rel (h.child? .typeArguments)]
    split
    · refine rel_bind (h.child? .function) ?_
      intro a b hab
      rw [hab.kind_eq]
      split
      · exact hab.head?_codeParts
      · exact hab.child? .argument
      · exact .none
    · exact .none
  unfold Node.callee?
  generalize m.prefixedOperand? = a at hprefix ⊢
  generalize n.prefixedOperand? = b at hprefix ⊢
  cases hprefix with
  | none => exact h.child? .function
  | some hab => exact .some hab

theorem textOf (h : Copies k m n) (hv : f.text.From k e.text) : f.textOf n = e.textOf m := by
  rw [SourceFile.textOf, Annotates.span_eq h]
  exact SourceFile.textOf_shift hv m e.root

end Node.Copies

/-! ## Calls of bare names -/

namespace SourceFile

variable {k : Nat} {m n : Node} {e f : SourceFile}

/-- **Which bare name a call calls** does not depend on its place. -/
theorem callsName_eq (h : m.Copies k n) (hv : f.text.From k e.text) (name : Text) :
    f.callsName name n = e.callsName name m := by
  unfold callsName
  rw [h.kind_eq]
  have hfunction := h.child? .function
  generalize m.child? .function = a at hfunction ⊢
  generalize n.child? .function = b at hfunction ⊢
  cases hfunction with
  | none => rfl
  | some hab => simp only [hab.kind_eq, hab.textOf hv]

/-! ## Pipelines -/

theorem limit?_eq (h : m.Copies k n) (hv : f.text.From k e.text) : f.limit? n = e.limit? m := by
  refine (eq_of_rel ?_).symm
  unfold limit?
  refine rel_guard (by rw [h.kind_eq]) (rel_bind (h.child? .function) fun a b hab => ?_)
  refine rel_guard (by rw [hab.kind_eq]) (rel_bind (h.child? .arguments) fun c d hcd => ?_)
  refine rel_guard (by rw [hcd.kind_eq]) ?_
  have hparts := hcd.codeParts
  have hsame : ∀ x : Option Limit, Option.Rel Eq x x := by
    intro x
    cases x with
    | none => exact .none
    | some l => exact .some rfl
  rw [hab.textOf hv]
  generalize c.codeParts = cs at hparts ⊢
  generalize d.codeParts = ds at hparts ⊢
  cases hparts with
  | nil => exact hsame _
  | @cons c d cs ds hcd hrest =>
      cases hrest with
      | nil =>
          simp only [hcd.kind_eq, hcd.textOf hv]
          exact hsame _
      | cons => exact hsame _

theorem firstLimit?_isSome {ms ns : List Node} (h : List.Forall₂ (Node.Copies k) ms ns)
    (hv : f.text.From k e.text) (i : Nat) : (f.firstLimit? i ns).isSome = (e.firstLimit? i ms).isSome := by
  induction h generalizing i with
  | nil => rfl
  | @cons m n ms ns hmn _ ih =>
      rw [firstLimit?, firstLimit?, limit?_eq hmn hv]
      split
      · rfl
      · exact ih (i + 1)

/-- Both nodes are pipelines or none is, and both or none can be limited. -/
theorem pipeline?_rel (h : m.Copies k n) (hv : f.text.From k e.text) :
    Option.Rel (fun p q : Pipeline => q.limiting.isSome = p.limiting.isSome) (e.pipeline? m)
      (f.pipeline? n) := by
  unfold pipeline?
  refine rel_guard (by rw [h.kind_eq, h.isOptional_eq]) (rel_bind h.callee? fun a b hab => ?_)
  refine rel_guard (by rw [hab.kind_eq, hab.isOptional_eq]) (rel_bind (hab.child? .property) fun c d hcd => ?_)
  refine rel_guard (by rw [hcd.textOf hv]) (rel_bind (hab.child? .object) fun _ _ _ => ?_)
  refine rel_bind (h.child? .arguments) fun c d hcd => ?_
  exact rel_guard (by rw [hcd.kind_eq]) (.some (firstLimit?_isSome hcd.codeParts hv 0))

end SourceFile

/-! ## Sites -/

/-- The helper that a shape is converted with. -/
def Shape.helper? (s : Shape) : Option Helper := s.argument.toOption.map Prod.fst

theorem Shape.helper?_pipeline (p : Pipeline) :
    (Shape.pipeline p).helper? = some (if p.limiting.isSome then .firstValue else .lastValue) := by
  cases hlimiting : p.limiting with
  | none => simp [helper?, argument, Pipeline.trim, hlimiting, Except.toOption]
  | some l =>
      have htrim : p.trim ≠ .unchanged := by
        unfold Pipeline.trim
        rw [hlimiting]
        dsimp only
        split
        · exact Trim.noConfusion
        · split
          · split <;> exact Trim.noConfusion
          · split <;> exact Trim.noConfusion
      unfold helper? argument
      cases hcase : p.trim with
      | unchanged => exact absurd hcase htrim
      | collapse => simp [hcase, Except.toOption]
      | cut c => simp [hcase, Except.toOption]

/-- The site `s'` is the site `s` moved back by `k` bytes, with comments added to it. -/
structure Site.Copies (k : Nat) (s s' : Site) : Prop where
  call : s.call.Copies k s'.call
  callee : s.callee.Copies k s'.callee
  terminal : s'.terminal = s.terminal

namespace SourceFile

variable {k : Nat} {m n : Node} {e f : SourceFile} {s s' : Site}

theorem siteAt?_rel (h : m.Copies k n) (hv : f.text.From k e.text) :
    Option.Rel (Site.Copies k) (e.siteAt? m) (f.siteAt? n) := by
  unfold siteAt?
  rw [h.kind_eq]
  split
  · refine rel_bind h.callee? fun a b hab => ?_
    refine rel_guard (by rw [hab.kind_eq]) (rel_bind (hab.child? .property) fun c d hcd => ?_)
    refine rel_guard (by rw [hcd.kind_eq]) ?_
    rw [hcd.textOf hv]
    cases Terminal.ofMember? (e.textOf c) with
    | none => exact .none
    | some terminal => exact .some ⟨h, hab, rfl⟩
  · exact .none

theorem helper?_shape_eq (h : s.Copies k s') (hv : f.text.From k e.text) :
    (f.shape s').helper? = (e.shape s).helper? := by
  unfold shape
  rw [h.callee.isOptional_eq, h.call.isOptional_eq]
  split
  · rfl
  · have harguments : Option.Rel (Node.Copies k) s.arguments? s'.arguments? := h.call.child? .arguments
    have hreceiver : Option.Rel (Node.Copies k) s.receiver? s'.receiver? := h.callee.child? .object
    generalize s.arguments? = a at harguments ⊢
    generalize s'.arguments? = a' at harguments ⊢
    generalize s.receiver? = r at hreceiver ⊢
    generalize s'.receiver? = r' at hreceiver ⊢
    cases harguments with
    | none => rfl
    | some ha =>
        simp only [ha.kind_eq]
        split
        · rfl
        · cases hreceiver with
          | none => rfl
          | @some r r' hr =>
              simp only [hr.kind_eq]
              split
              · rfl
              · have hpipeline := pipeline?_rel hr hv
                generalize e.pipeline? r = p at hpipeline ⊢
                generalize f.pipeline? r' = q at hpipeline ⊢
                cases hpipeline with
                | none => rfl
                | some hpq =>
                    simp only [Shape.helper?_pipeline, hpq]

/-- The helper of a plan is that of the shape, if the terminal can be taken off. -/
theorem helper_plan (f : SourceFile) (s : Site) : (f.plan s).toOption.map Plan.helper =
    (f.shape s).helper?.filter fun h =>
      s.terminal == .toPromise || h == .firstValue && s.arguments?.isSome := by
  unfold plan Shape.helper?
  cases (f.shape s).argument with
  | error => rfl
  | ok a =>
      obtain ⟨helper, spans⟩ := a
      unfold closing
      cases s.terminal with
      | toPromise =>
          cases s.typeArguments? with
          | none => rfl
          | some types => rfl
      | subscribe =>
          cases helper with
          | lastValue => rfl
          | firstValue =>
              cases s.arguments? with
              | none => rfl
              | some arguments => rfl

/-- The helper that a node is converted with, if it is a site that has a plan. -/
def helperAt? (f : SourceFile) (n : Node) : Option Helper :=
  (f.siteAt? n).bind fun s => (f.plan s).toOption.map Plan.helper

/-- **Whether and how a site is converted** does not depend on its place. -/
theorem helperAt?_eq (h : m.Copies k n) (hv : f.text.From k e.text) : f.helperAt? n = e.helperAt? m := by
  unfold helperAt?
  have hsite := siteAt?_rel h hv
  generalize e.siteAt? m = a at hsite ⊢
  generalize f.siteAt? n = b at hsite ⊢
  cases hsite with
  | none => rfl
  | @some s s' hs =>
      have harguments : s'.arguments?.isSome = s.arguments?.isSome :=
        isSome_eq_of_rel (hs.call.child? .arguments)
      rw [Option.bind_some, Option.bind_some, helper_plan, helper_plan, helper?_shape_eq hs hv,
        hs.terminal, harguments]

end SourceFile

end Promisify
