import Promisify.Proofs.Elements
import Promisify.Syntax.Grammar.Statements

set_option autoImplicit false

/-! # Statements take tokens

The rules of patterns, statements, declarations and modules, each with the proof that it takes
something.
-/

namespace Promisify

open Promisify.Parser

namespace Grammar.Sound

variable {t : Text} {g : Grammar} {s : State}

/-! ## Patterns and variables -/

theorem restOrBinding (hg : g.Sound t) (s : State) : TakesAt t (match s.tok with
    | .punct .ellipsis => Parser.node .restPattern (Parser.andThen (punct .ellipsis) g.binding)
    | _ => g.binding) s := by
  split
  · exact Takes.node rfl (.andThen (.punct _) hg.binding.reads) s
  · exact hg.binding s

theorem bindingElement (hg : g.Sound t) : Takes t g.bindingElement :=
  .node rfl (.first (.look hg.restOrBinding) (.cons (.opt (hg.initializer _).reads) .nil))

theorem propertyPattern (hg : g.Sound t) : Takes t g.propertyPattern := by
  refine .look fun s => ?_
  split
  · exact Takes.node rfl (.andThen (.punct _) hg.binding.reads) s
  · refine Takes.node rfl (.first hg.propertyName (.cons (.look fun s => ?_) .nil)) s
    split
    · exact Reads.andThen (.punct _) hg.bindingElement.reads s
    · exact (hg.initializer _).reads s
    · exact Reads.nil s

theorem bindingRule (hg : g.Sound t) : Takes t g.bindingRule := by
  refine .look fun s => ?_
  split
  · next h => exact .leaf rfl (by simp [h])
  · exact Takes.node rfl (.first (.punct _) (.cons (.commaHoles hg.propertyPattern.reads _)
      (.cons (.punct _) .nil))) s
  · exact Takes.node rfl (.first (.punct _) (.cons (.commaHoles hg.bindingElement.reads _)
      (.cons (.punct _) .nil))) s
  · exact Takes.fail s

theorem declarator (hg : g.Sound t) : Takes t g.declarator :=
  .node rfl (.first hg.binding (.cons (.opt (.punct _)) (.cons (.opt (hg.typeMark _).reads)
    (.cons (.opt (hg.initializer _).reads) .nil))))

theorem variableList (hg : g.Sound t) : Takes t g.variableList :=
  .node rfl (.first (.oneWord _) (.cons (hg.declarator.commaSep _).reads
    (.cons (.orElse (.semicolon _) (.semicolon _)) .nil)))

/-! ## Control -/

theorem ifStatement (hg : g.Sound t) : Takes t g.ifStatement := by
  refine .node rfl (.first (.word _) (.cons hg.condition.reads (.cons hg.statement.reads
    (.cons (.look fun s => ?_) .nil))))
  split
  · exact Reads.cons (.word _) (.cons hg.statement.reads .nil) s
  · exact Reads.nil s

theorem forInTarget (hg : g.Sound t) : Takes t g.forInTarget := by
  have hdeclared : Takes t (all [oneWord [.kVar, .kLet, .kConst], g.binding]) :=
    .first (.oneWord _) (.cons hg.binding.reads .nil)
  refine .first (.look fun s => ?_) (.cons (Takes.oneWord _).reads .nil)
  split
  · exact hdeclared s
  · exact hdeclared s
  · exact hg.expr _ s
  · exact hg.expr _ s
  · exact hdeclared s
  · exact hg.expr _ s

theorem forHeader (hg : g.Sound t) : Takes t g.forHeader := by
  have hpart : Reads t (Parser.opt (g.sequence .whole)) := .opt (hg.sequence _).reads
  have hlist : Reads t (Parser.node .variableDeclaration (all [oneWord [.kVar, .kLet, .kConst],
      commaSep (Parser.node .variableDeclarator (all [g.binding,
        Parser.opt (g.typeMark .inner), Parser.opt (g.initializer .whole)])) g.fuel])) :=
    (Takes.node rfl (.first (.oneWord _) (.cons (Takes.commaSep (.node rfl (.first hg.binding
      (.cons (.opt (hg.typeMark _).reads) (.cons (.opt (hg.initializer _).reads) .nil)))) _).reads
      .nil))).reads
  refine .later (.look fun s => ?_) (.first (.punct _) (.cons hpart (.cons (.punct _)
    (.cons hpart .nil))))
  split
  · exact hlist s
  · exact hlist s
  · exact hlist s
  · exact hpart s

/-- A node that starts with tokens which contribute nothing. -/
theorem step_nodeAfter {k : Kind} (hk : k.isPlain = true) {ns ms : List Node} {s₁ s' : State}
    (hs : s.Sound t) (h₁ : Step t s.start s.place ns s₁ ∧ s.start < s₁.prevStop)
    (h₂ : Step t s₁.start s₁.place ms s') :
    Step t s.start s.place [.mk k none s.start s'.prevStop ms] s' ∧ s.start < s'.prevStop := by
  obtain ⟨hstep, hlt⟩ := h₁
  have hnone : Step t s.start s.place [] s₁ := hstep.withNodes Laid.nil
  have hlt' : s.start < s'.prevStop := Nat.lt_of_lt_of_le hlt h₂.prev_le
  exact ⟨(hnone.andThen h₂ (Nat.le_refl _)).node hs hlt' (Node.headed_of_isPlain hk _ _ _), hlt'⟩

theorem forStatement (hg : g.Sound t) : Takes t g.forStatement := by
  have hopening : Takes t (all [word .kFor, Parser.opt (word .kAwait), punct .lparen]) :=
    .first (.word _) (.cons (.opt (.word _)) (.cons (.punct _) .nil))
  have hclose : Reads t (all [punct .rparen, g.statement]) :=
    .cons (.punct _) (.cons hg.statement.reads .nil)
  have hvalues : Reads t (all [g.sequence .whole, all [punct .rparen, g.statement]]) :=
    .cons (hg.sequence _).reads (.cons hclose .nil)
  have hcounting : Reads t (all [g.forHeader, all [punct .rparen, g.statement]]) :=
    .cons hg.forHeader.reads (.cons hclose .nil)
  intro s ns s' hs h
  unfold Grammar.forStatement at h
  dsimp only at h
  split at h
  · next ns₁ s₁ h₁ =>
      have hhead := hopening s ns₁ s₁ hs h₁
      have hs₁ := hhead.1.sound
      split at h
      · next ns₂ s₂ h₂ =>
          have htarget := hg.forInTarget.reads s₁ ns₂ s₂ hs₁ h₂
          split at h
          · next ms s₃ h₃ =>
              cases h
              have hbody := hvalues s₂ ms s' htarget.sound h₃
              exact step_nodeAfter rfl hs hhead (htarget.andThen hbody (Nat.le_refl _))
          · cases h
      · next far _ =>
          split at h
          · next ms s₃ h₃ =>
              cases h
              have hbody := hcounting { s₁ with far := far } ms s' (hs₁.withFar far) h₃
              exact step_nodeAfter rfl hs hhead hbody
          · cases h
  · cases h

theorem whileStatement (hg : g.Sound t) : Takes t g.whileStatement :=
  .node rfl (.first (.word _) (.cons hg.condition.reads (.cons hg.statement.reads .nil)))

theorem doStatement (hg : g.Sound t) : Takes t g.doStatement :=
  .node rfl (.first (.word _) (.cons hg.statement.reads (.cons (.word _)
    (.cons hg.condition.reads (.cons (.opt (.semicolon _)) .nil)))))

/-- The statements of a case. -/
theorem caseBody (hg : g.Sound t) : Reads t (g.star (Parser.look fun s => match s.tok with
    | .word .kCase | .word .kDefault => Parser.fail
    | _ => g.statement)) := by
  refine star (.look fun s => ?_)
  split
  · exact Takes.fail.reads s
  · exact Takes.fail.reads s
  · exact hg.statement.reads s

theorem switchStatement (hg : g.Sound t) : Takes t g.switchStatement := by
  refine .node rfl (.first (.word _) (.cons hg.condition.reads (.cons (.punct _)
    (.cons (star (Takes.node rfl (.look fun s => ?_)).reads) (.cons (.punct _) .nil)))))
  split
  · exact Takes.first (.word _) (.cons (hg.sequence _).reads (.cons (.punct _)
      (.cons hg.caseBody .nil))) s
  · exact Takes.first (.word _) (.cons (.punct _) (.cons hg.caseBody .nil)) s
  · exact Takes.fail s

theorem tryStatement (hg : g.Sound t) : Takes t g.tryStatement := by
  refine .node rfl (.first (.word _) (.cons hg.block.reads (.cons (.look fun s => ?_)
    (.cons (.look fun s => ?_) .nil))))
  · split
    · refine Takes.reads (.node rfl (.first (.word _) (.cons (.opt ?_) (.cons hg.block.reads .nil))))
        s
      exact .cons (.punct _) (.cons hg.binding.reads (.cons (.opt (hg.typeMark _).reads)
        (.cons (.punct _) .nil)))
    · exact Reads.nil s
  · split
    · exact Reads.cons (.word _) (.cons hg.block.reads .nil) s
    · exact Reads.nil s

theorem jump {k : Kind} (hk : k.isPlain = true) (w : Word) : Takes t (Grammar.jump k w) := by
  refine .node hk (.first (.word _) (.cons (.look fun s => ?_) (.cons (.semicolon _) .nil)))
  split
  · split
    · exact Reads.nil s
    · exact Reads.name rfl s
  · exact Reads.nil s

theorem returnStatement (hg : g.Sound t) : Takes t g.returnStatement := by
  refine .node rfl (.first (.word _) (.cons (.look fun s => ?_) .nil))
  split
  · exact Reads.andThen (hg.sequence _).reads (.semicolon _) s
  · exact Reads.semicolon _ s

theorem expressionStatement (hg : g.Sound t) : Takes t g.expressionStatement :=
  .node rfl (.first (hg.sequence _) (.cons (.semicolon _) .nil))

/-! ## Declarations -/

theorem interfaceDeclaration (hg : g.Sound t) : Takes t g.interfaceDeclaration :=
  .node rfl (.first (.word _) (.cons (.name rfl) (.cons (.opt hg.typeParameters.reads)
    (.cons (.opt (.cons (.word _) (.cons (hg.type.commaSep _).reads .nil)))
      (.cons hg.objectType.reads .nil)))))

theorem typeAlias (hg : g.Sound t) : Takes t g.typeAlias :=
  .node rfl (.first (.word _) (.cons (.name rfl) (.cons (.opt hg.typeParameters.reads)
    (.cons (.punct _) (.cons (hg.takes _).reads (.cons (.semicolon _) .nil))))))

theorem enumDeclaration (hg : g.Sound t) : Takes t g.enumDeclaration :=
  .node rfl (.later (.opt (.word _)) (.first (.word _) (.cons (.name rfl) (.cons (.punct _)
    (.cons (.commaList (.node rfl (.first hg.propertyName
      (.cons (.opt (hg.initializer _).reads) .nil))) _) (.cons (.punct _) .nil))))))

theorem moduleDeclaration (hg : g.Sound t) : Takes t g.moduleDeclaration := by
  refine .node rfl (.first (.oneWord _) (.cons (.orElse ?_ (.cons (.name rfl)
    (.cons dottedNames .nil))) (.cons (.look fun s => ?_) .nil)))
  · exact (Takes.tokenAs (.inl rfl) (by simp)).reads
  · split
    · exact hg.block.reads s
    · exact Reads.opt (.semicolon _) s

theorem classDeclaration (hg : g.Sound t) : Takes t g.classDeclaration := hg.classRule rfl

theorem plainDeclaration (hg : g.Sound t) (w : Word) (next : Token) :
    Takes t (g.plainDeclaration w next) := by
  unfold Grammar.plainDeclaration
  split
  · split
    · exact hg.expressionStatement
    · exact hg.functionDeclaration
  · split
    · exact hg.expressionStatement
    · exact hg.functionDeclaration
  · exact hg.classDeclaration
  · exact hg.classDeclaration
  · split
    · exact hg.enumDeclaration
    · exact hg.variableList
  · exact hg.enumDeclaration
  · exact hg.typeAlias
  · exact hg.interfaceDeclaration
  · exact hg.moduleDeclaration
  · exact hg.moduleDeclaration
  · exact hg.variableList

theorem declared (hg : g.Sound t) : Takes t g.declared := by
  refine .look fun s => ?_
  split
  · exact Takes.first (.word _) (.cons hg.block.reads .nil) s
  · split
    · exact hg.plainDeclaration _ _ s
    · exact Takes.fail s
  · exact Takes.fail s

theorem declaration (hg : g.Sound t) (w : Word) (next : Token) :
    Takes t (g.declaration w next) := by
  unfold Grammar.declaration
  split
  · exact .orElse (.node rfl (.andThen (.word _) hg.declared.reads)) hg.expressionStatement
  · exact hg.plainDeclaration _ _

/-! ## Modules -/

theorem string : Takes t (tokenAs .string .string) := .tokenAs (.inl rfl) (by simp)

theorem exportedName : Takes t Grammar.exportedName := .orElse (.name rfl) string

/-- What an import or export is called here. -/
theorem givenName (k : Kind) : Takes t (Parser.role .localName
    (if k == .importSpecifier then name .identifier else Grammar.exportedName)) := by
  refine .role ?_
  split
  · exact .name rfl
  · exact exportedName

/-- What an import or export is called there and here. -/
theorem specifierNames (k : Kind) : Takes t (Grammar.specifierNames k) := by
  have hgiven := givenName (t := t) k
  unfold Grammar.specifierNames
  generalize Parser.role .localName
    (if k == .importSpecifier then name .identifier else Grammar.exportedName) = given at hgiven ⊢
  have hrest : Reads t (all [word .kAs, given]) := .cons (.word _) (.cons hgiven.reads .nil)
  refine .look fun s => ?_
  split
  · refine Takes.andThen exportedName.role ?_ s
    split
    · exact hrest
    · exact hrest.opt
  · exact Takes.first (.role (.name rfl)) (.cons hrest.opt .nil) s

theorem specifier {k : Kind} (hk : k.isPlain = true) : Takes t (Grammar.specifier k) := by
  refine .node hk (.look fun s => ?_)
  split
  · exact (Takes.oneWord [.kType, .kTypeof]).andThen (specifierNames k).reads s
  · exact specifierNames k s

theorem specifiers {k one : Kind} (hk : k.isPlain = true) (hone : one.isPlain = true) :
    Takes t (g.specifiers k one) :=
  .node hk (.first (.punct _) (.cons (.commaList (specifier hone) _) (.cons (.punct _) .nil)))

theorem importGroup : Takes t g.importGroup := by
  refine .look fun s => ?_
  split
  · exact Takes.node rfl (.first (.punct _) (.cons (.word _) (.cons (.name rfl) .nil))) s
  · exact specifiers rfl rfl s

theorem single_importGroup {s s' : State} {ns : List Node} (h : g.importGroup s = .ok ns s') :
    ∃ n, ns = [n] := by
  simp only [Grammar.importGroup, Parser.look] at h
  split at h
  · obtain ⟨ms, -, rfl⟩ := node_eq_ok h
    exact ⟨_, rfl⟩
  · obtain ⟨ms, -, rfl⟩ := node_eq_ok h
    exact ⟨_, rfl⟩

/-- In what an import binds the names in braces come last. -/
theorem trailing_importClause {s s' : State} {ns : List Node}
    (h : all [name .identifier, Parser.opt (all [punct .comma, g.importGroup])] s = .ok ns s') :
    ns.Pairwise fun m _ => m.kind ≠ .namedImports := by
  obtain ⟨ns₁, s₁, ns₂, h₁, h₂, rfl⟩ := andThen_eq_ok h
  have hfirst : ∀ m ∈ ns₁, m.kind ≠ .namedImports := by
    cases htok : s.tok with
    | word w =>
        simp only [name, Parser.look, htok] at h₁
        cases h₁
        simp [Node.leaf, Node.kind]
    | _ =>
        simp only [name, Parser.look, htok] at h₁
        cases h₁
  have hrest : ns₂.Pairwise fun m _ => m.kind ≠ .namedImports := by
    rcases orElse_eq_ok h₂ with h₂ | ⟨far, h₂⟩
    · obtain ⟨ns₃, s₂, ns₄, h₃, h₄, rfl⟩ := andThen_eq_ok h₂
      obtain ⟨n, rfl⟩ := single_importGroup h₄
      rw [token_eq_ok h₃]
      exact List.pairwise_singleton _ _
    · cases h₂
      exact List.Pairwise.nil
  rw [List.pairwise_append]
  refine ⟨?_, hrest, fun a ha b _ => hfirst a ha⟩
  exact List.Pairwise.imp_of_mem (fun ha _ _ => hfirst _ ha)
    (List.pairwise_of_forall fun _ _ => trivial)

theorem importClause : Takes t g.importClause := by
  intro s
  refine TakesAt.headed ?_ ?_
  · refine Takes.look (fun s => ?_) s
    split
    · exact Takes.first (.name rfl)
        (.cons (.opt (.cons (.punct _) (.cons importGroup.reads .nil))) .nil) s
    · exact importGroup s
  · intro ms s' hs h
    apply Node.headed_importClause
    simp only [Parser.look] at h
    cases htok : s.tok with
    | word w =>
        simp only [htok] at h
        exact trailing_importClause h
    | _ =>
        simp only [htok] at h
        obtain ⟨n, rfl⟩ := single_importGroup h
        exact List.pairwise_singleton _ _

theorem importAttribute (hg : g.Sound t) : Reads t g.importAttribute := by
  have hobject : Reads t g.object := fun s => (hg.object s).takes.reads
  refine .look fun s => ?_
  split
  · next h _ =>
      split
      · exact Reads.nil s
      · exact (Takes.node rfl (.andThen (.token (by simp [h])) hobject)).reads s
  · next h _ =>
      split
      · exact Reads.nil s
      · exact (Takes.node rfl (.andThen (.token (by simp [h])) hobject)).reads s
  · exact Reads.nil s

theorem fromClause : Takes t Grammar.fromClause := .andThen (.word _) string.role.reads

theorem importEquals : Takes t g.importEquals := by
  refine .node rfl (.first (.name rfl) (.cons (.punct _) (.cons (.look fun s => ?_) .nil)))
  split
  · exact Reads.cons (.word _) (.cons (.punct _) (.cons string.reads (.cons (.punct _) .nil))) s
  · exact Reads.cons (.name rfl) (.cons dottedNames .nil) s

theorem importBody (s : State) : ReadsAt t (g.importBody s) s := by
  have hmark : Reads t (tokenAs .typeKeyword (.word .kType)) :=
    (Takes.tokenAs (.inr (.inr rfl)) (by simp)).reads
  have hbound : Reads t (all [g.importClause, Grammar.fromClause]) :=
    .cons importClause.reads (.cons fromClause.reads .nil)
  have hmarked := hmark.andThen hbound
  unfold Grammar.importBody
  split
  · next h => exact (TakesAt.leaf rfl (by simp [h])).role.reads
  · exact importEquals.reads s
  · split
    · exact hmarked s
    · exact hbound s
  · exact hbound s
  · split
    · exact Reads.cons hmark (.cons importEquals.reads .nil) s
    · exact hmarked s
  · exact hmarked s
  · exact Reads.cons (.word _) (.cons hbound .nil) s
  · exact Reads.cons (.word _) (.cons hbound .nil) s
  · exact hbound s

theorem importStatement (hg : g.Sound t) : Takes t g.importStatement :=
  .node rfl (.first (.word _) (.cons (.look importBody) (.cons hg.importAttribute
    (.cons (.semicolon _) .nil))))

theorem defaultExport (hg : g.Sound t) : Takes t (Parser.look fun s =>
    match s.tok, s.advance.tok with
    | .word .kClass, .word .kExtends | .word .kClass, .word .kImplements => g.classDeclaration
    | .word .kClass, .word _ | .word .kAbstract, .word .kClass | .punct .atSign, _ =>
        g.classDeclaration
    | .word .kClass, _ => g.classDeclaration
    | .word .kFunction, .word _ => g.functionDeclaration
    | .word .kAsync, .word .kFunction =>
        Parser.orElse g.functionDeclaration (all [g.expr .last, semicolon .value])
    | .word .kInterface, .word _ => g.interfaceDeclaration
    | .word .kEnum, .word _ => g.enumDeclaration
    | _, _ => all [g.expr .last, semicolon .value]) := by
  have hvalue : Takes t (all [g.expr .last, semicolon .value]) :=
    .first (hg.expr _) (.cons (.semicolon _) .nil)
  refine .look fun s => ?_
  split
  · exact hg.classDeclaration s
  · exact hg.classDeclaration s
  · exact hg.classDeclaration s
  · exact hg.classDeclaration s
  · exact hg.classDeclaration s
  · exact hg.classDeclaration s
  · exact hg.functionDeclaration s
  · exact hg.functionDeclaration.orElse hvalue s
  · exact hg.interfaceDeclaration s
  · exact hg.enumDeclaration s
  · exact hvalue s

theorem exportStatement (hg : g.Sound t) : Takes t g.exportStatement := by
  have hclause : Reads t (g.specifiers .exportClause .exportSpecifier) := (specifiers rfl rfl).reads
  have hsource : Reads t (Parser.look fun s =>
      if s.tok == .word .kFrom then Grammar.fromClause else Parser.pass []) := by
    refine .look fun s => ?_
    split
    · exact fromClause.reads s
    · exact Reads.nil s
  have heverything : Reads t (all [punct .star, Parser.opt (Parser.node .namespaceExport
      (all [word .kAs, Grammar.exportedName])), Grammar.fromClause]) :=
    .cons (.punct _) (.cons (.opt (Takes.node rfl (.first (.word _)
      (.cons exportedName.reads .nil))).reads) (.cons fromClause.reads .nil))
  have hend : Reads t (all [g.importAttribute, semicolon .bare]) :=
    .cons hg.importAttribute (.cons (.semicolon _) .nil)
  refine .node rfl (.later (star hg.decorator.reads) (.first (.word _)
    (.cons (.look fun s => ?_) .nil)))
  split
  · exact Reads.cons heverything hend s
  · exact Reads.cons hclause (.cons hsource hend) s
  · exact Reads.cons (.word _) (.cons hclause (.cons hsource hend)) s
  · exact Reads.cons (.word _) (.cons importEquals.reads (.cons (.semicolon _) .nil)) s
  · exact Reads.cons (.punct _) (.cons (hg.expr _).reads (.cons (.semicolon _) .nil)) s
  · exact Reads.cons (.word _) (.cons (.word _) (.cons (.name rfl) (.cons (.semicolon _) .nil))) s
  · exact Reads.cons (.word _) (.cons hg.defaultExport.reads .nil) s
  · exact hg.classDeclaration.reads s
  · split
    · exact (hg.declaration _ _).reads s
    · exact Takes.fail.reads s
  · exact Takes.fail.reads s

/-! ## Statements -/

theorem decorated (hg : g.Sound t) : Takes t g.decorated := by
  intro s ns s' hs h
  unfold Grammar.decorated at h
  split at h
  · split at h
    · exact hg.exportStatement s ns s' hs h
    · exact hg.classDeclaration s ns s' hs h
  · cases h

theorem wordStatement (hg : g.Sound t) (w : Word) (next : Token) :
    Takes t (g.wordStatement w next) := by
  unfold Grammar.wordStatement
  split
  · exact hg.ifStatement
  · exact hg.forStatement
  · exact hg.whileStatement
  · exact hg.doStatement
  · exact hg.switchStatement
  · exact hg.tryStatement
  · exact .node rfl (.first (.word _) (.cons hg.condition.reads (.cons hg.statement.reads .nil)))
  · exact jump rfl _
  · exact jump rfl _
  · exact hg.returnStatement
  · exact .node rfl (.first (.word _) (.cons (hg.sequence _).reads (.cons (.semicolon _) .nil)))
  · exact .node rfl (.first (.word _) (.cons (.semicolon _) .nil))
  · split
    · exact hg.expressionStatement
    · exact hg.importStatement
  · split
    · exact hg.exportStatement
    · exact hg.expressionStatement
  · split
    · exact hg.declaration _ _
    · exact hg.expressionStatement

theorem statementRule (hg : g.Sound t) : Takes t g.statementRule := by
  refine .look fun s => ?_
  split
  · exact hg.block.orElse hg.expressionStatement s
  · exact Takes.node rfl (.punct _) s
  · exact hg.decorated s
  · dsimp only
    split
    · exact Takes.node rfl (.first (.name rfl) (.cons (.punct _)
        (.cons hg.statement.reads .nil))) s
    · exact hg.wordStatement _ _ s
  · exact hg.expressionStatement s

end Grammar.Sound

end Promisify
