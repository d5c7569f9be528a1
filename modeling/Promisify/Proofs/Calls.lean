import Promisify.Proofs.ImportStatements

set_option autoImplicit false

/-! # Trees without calls

What stands between the word `import` and the end of an import has no calls in it. So a file has the same
calls when other imports are put in front of its statements.
-/

namespace Promisify

open Promisify.Parser

namespace Node

/-- There is no call in the tree. -/
def Callless (n : Node) : Prop := ∀ m ∈ n.preorder, m.kind ≠ .callExpression

theorem callless_of_children {n : Node} (hk : n.kind ≠ .callExpression)
    (h : ∀ c ∈ n.children, c.Callless) : n.Callless := by
  intro m hm
  rcases mem_preorder.mp hm with rfl | hm
  · exact hk
  · obtain ⟨c, hc, hmc⟩ := mem_descendants.mp hm
    exact h c hc m hmc

theorem callless_leaf {k : Kind} (hk : k ≠ .callExpression) (a b : Nat) : (leaf k a b).Callless :=
  callless_of_children hk fun c hc => by cases hc

theorem Callless.withField {n : Node} (h : n.Callless) (f : Option Field) : (n.withField f).Callless := by
  obtain ⟨k, g, a, b, cs⟩ := n
  intro m hm
  rcases mem_preorder.mp hm with rfl | hm
  · exact h (mk k g a b cs) (mem_preorder_self _)
  · exact h m (mem_preorder.mpr (.inr hm))

end Node

/-! ## Parsers that read no calls -/

namespace Parser

/-- The parser reads no calls. -/
def Quiet (p : Parser) : Prop := ∀ s ns s', p s = .ok ns s' → ∀ n ∈ ns, n.Callless

variable {p q : Parser}

namespace Quiet

theorem pass : Quiet (pass []) := by
  rintro s ns s' ⟨⟩ n hn
  cases hn

theorem fail : Quiet fail := by
  rintro s ns s' ⟨⟩

theorem token (tok : Token) : Quiet (token tok) := by
  intro s ns s' h n hn
  rw [token_eq_ok h] at hn
  cases hn

theorem leaf {k : Kind} (hk : k ≠ .callExpression) : Quiet (leaf k) := by
  rintro s ns s' ⟨⟩ n hn
  rw [List.mem_singleton.mp hn]
  exact Node.callless_leaf hk _ _

theorem andThen (hp : Quiet p) (hq : Quiet q) : Quiet (andThen p q) := by
  intro s ns s' h n hn
  obtain ⟨ns₁, s₁, ns₂, h₁, h₂, rfl⟩ := andThen_eq_ok h
  rcases List.mem_append.mp hn with hn | hn
  · exact hp s ns₁ s₁ h₁ n hn
  · exact hq s₁ ns₂ s' h₂ n hn

theorem orElse (hp : Quiet p) (hq : Quiet q) : Quiet (orElse p q) := by
  intro s ns s' h
  rcases orElse_eq_ok h with h | ⟨far, h⟩
  · exact hp s ns s' h
  · exact hq { s with far := far } ns s' h

theorem opt (hp : Quiet p) : Quiet (opt p) := hp.orElse .pass

theorem look {f : State → Parser} (h : ∀ s, Quiet (f s)) : Quiet (look f) := fun s => h s s

theorem node {k : Kind} (hk : k ≠ .callExpression) (hp : Quiet p) : Quiet (node k p) := by
  intro s ns s' h n hn
  obtain ⟨ms, hms, rfl⟩ := node_eq_ok h
  rw [List.mem_singleton.mp hn]
  exact Node.callless_of_children hk (hp s ms s' hms)

theorem role {f : Field} (hp : Quiet p) : Quiet (role f p) := by
  intro s ns s' h n hn
  obtain ⟨ms, hms, rfl⟩ := role_eq_ok h
  obtain ⟨m, hm, rfl⟩ := List.mem_map.mp hn
  exact (hp s ms s' hms m hm).withField (some f)

theorem many (hp : Quiet p) (fuel : Nat) : Quiet (many p fuel) := by
  induction fuel with
  | zero => exact pass
  | succ fuel ih =>
      intro s ns s' h n hn
      simp only [Parser.many] at h
      split at h
      · next ns₁ s₁ h₁ =>
          split at h
          · cases h
            exact hp s ns s' h₁ n hn
          · split at h
            · next ns₂ s₂ h₂ =>
                cases h
                rcases List.mem_append.mp hn with hn | hn
                · exact hp s ns₁ s₁ h₁ n hn
                · exact ih s₁ ns₂ s' h₂ n hn
            · cases h
      · cases h
        cases hn

theorem name {k : Kind} (hk : k ≠ .callExpression) : Quiet (name k) := by
  refine look fun s => ?_
  split
  · exact leaf hk
  · exact fail

theorem tokenAs {k : Kind} (hk : k ≠ .callExpression) (tok : Token) : Quiet (tokenAs k tok) := by
  refine look fun s => ?_
  split
  · exact leaf hk
  · exact fail

theorem oneWord (ws : List Word) : Quiet (oneWord ws) := by
  refine look fun s => ?_
  split
  · split
    · exact token _
    · exact fail
  · exact fail

theorem commaList (hp : Quiet p) (fuel : Nat) : Quiet (commaList p fuel) :=
  ((hp.andThen ((Quiet.andThen (token _) hp).many fuel)).andThen (opt (token _))).opt

end Quiet

end Parser

/-! ## Imports -/

namespace Grammar

variable {g : Grammar}

theorem quiet_exportedName : Quiet exportedName := (Quiet.name (by decide)).orElse (.tokenAs (by decide) _)

theorem quiet_specifierNames : Quiet (specifierNames .importSpecifier) := by
  have hname : ∀ f, Quiet (role f (Parser.name .identifier)) := fun f => .role (.name (by decide))
  have hrest := Quiet.andThen (.token (.word .kAs)) (hname .localName)
  rw [specifierNames_import]
  refine .look fun s => ?_
  split
  · exact Quiet.andThen (.role quiet_exportedName) hrest
  · exact (hname .name).andThen hrest.opt

theorem quiet_importGroup : Quiet g.importGroup := by
  have hspecifier : Quiet (specifier .importSpecifier) := by
    refine .node (by decide) (.look fun s => ?_)
    split
    · exact (Quiet.oneWord _).andThen quiet_specifierNames
    · exact quiet_specifierNames
  refine .look fun s => ?_
  split
  · exact .node (by decide) ((Quiet.token _).andThen ((Quiet.token _).andThen (.name (by decide))))
  · exact .node (by decide) ((Quiet.token _).andThen ((hspecifier.commaList _).andThen (.token _)))

theorem quiet_importBound : Quiet g.importBound := by
  refine .andThen (.node (by decide) (.look fun s => ?_)) ((Quiet.token _).andThen (.role (.tokenAs (by decide) _)))
  split
  · exact (Quiet.name (by decide)).andThen (.opt ((Quiet.token _).andThen quiet_importGroup))
  · exact quiet_importGroup

theorem quiet_importEquals : Quiet g.importEquals := by
  have hname : Quiet (Parser.name .identifier) := .name (by decide)
  refine .node (by decide) (hname.andThen ((Quiet.token _).andThen (.look fun s => ?_)))
  split
  · exact (Quiet.token _).andThen ((Quiet.token _).andThen ((Quiet.tokenAs (by decide) _).andThen (.token _)))
  · exact hname.andThen (Quiet.many ((Quiet.token _).andThen hname) _)

/-- **What an import imports has no calls.** -/
theorem quiet_importBody (s : State) : Quiet (g.importBody s) := by
  have hmark : Quiet importMark := .tokenAs (by decide) _
  have hbound := quiet_importBound (g := g)
  unfold importBody
  dsimp only
  split
  · exact .role (.leaf (by decide))
  · exact quiet_importEquals
  · split
    · exact hmark.andThen hbound
    · exact hbound
  · exact hbound
  · split
    · exact hmark.andThen quiet_importEquals
    · exact hmark.andThen hbound
  · exact hmark.andThen hbound
  · exact (Quiet.token _).andThen hbound
  · exact (Quiet.token _).andThen hbound
  · exact hbound

end Grammar

end Promisify
