import Promisify.Proofs.Phrases
import Promisify.Syntax.Grammar.Expressions

set_option autoImplicit false

/-! # Expressions are single nodes

The head of an expression takes one node of code (`YieldsAt`), and whatever continues it puts one
node of code in its place (`Grows`). A prefix operation is built around an operand that starts behind
its operator, a postfix or binary operation around the node it continues; this is what `Node.Edged`
asks of operations.
-/

namespace Promisify

open Promisify.Parser

namespace Grammar.Sound

variable {t : Text} {g : Grammar} {s : State}

/-! ## Prefix operations -/

/-- What is read after a token starts behind it. -/
theorem afterToken_eq_ok {q : Parser} {tok : Token} {ms : List Node} {s' : State}
    (hq : Takes t q) (htok : tok ≠ .eof) (hs : s.Sound t)
    (h : andThen (Parser.token tok) q s = .ok ms s') :
    ∃ s₁, q s₁ = .ok ms s' ∧ ∀ n ∈ ms, s.start < n.start ∧ n.start < n.stop := by
  obtain ⟨ns₁, s₁, ns₂, h₁, h₂, rfl⟩ := andThen_eq_ok h
  obtain ⟨hstep, hlt⟩ := Takes.token htok s ns₁ s₁ hs h₁
  have hprev := hstep.sound.prevStop_le
  obtain ⟨hstep₂, -⟩ := hq s₁ ns₂ s' hstep.sound h₂
  rw [token_eq_ok h₁, List.nil_append]
  refine ⟨s₁, h₂, ?_⟩
  intro n hn
  have hin := hstep₂.laid.inside n hn
  exact ⟨by omega, (hstep₂.laid.sound n hn).nonempty⟩

theorem unary (hg : g.Sound t) (c : Operand) (htok : s.tok ≠ .eof) :
    YieldsAt t (g.unary c) s := by
  have htakes : TakesAt t (g.unary c) s := by
    refine TakesAt.headed ?_ ?_
    · exact Takes.later (.token _) (.first (hg.expr _).role .nil) s
    · intro ms s' hs h
      obtain ⟨s₁, h₁, hafter⟩ := afterToken_eq_ok (hg.expr _).role htok hs h
      obtain ⟨os, ho, rfl⟩ := role_eq_ok h₁
      obtain ⟨o, rfl, -, -⟩ := hg.single _ s₁ os s' ho
      obtain ⟨hlt, hne⟩ := hafter (o.withField (some .argument)) (by simp)
      exact Node.headed_unary (Node.field_withField o _) hlt hne _
  refine ⟨htakes, ?_⟩
  intro ns s' h
  obtain ⟨ms, -, rfl⟩ := node_eq_ok h
  exact ⟨_, rfl, rfl, rfl, rfl⟩

theorem awaiting (hg : g.Sound t) (c : Operand) : YieldsAt t (g.awaiting c) s := by
  have htakes : TakesAt t (g.awaiting c) s := by
    refine TakesAt.headed ?_ ?_
    · exact Takes.first (.word _) (.cons (hg.expr _).reads .nil) s
    · intro ms s' hs h
      obtain ⟨s₁, h₁, hafter⟩ := afterToken_eq_ok (hg.expr _) (by simp) hs h
      obtain ⟨o, rfl, ho, -⟩ := hg.single _ s₁ ms s' h₁
      obtain ⟨hlt, hne⟩ := hafter o (by simp)
      exact Node.headed_await ho hlt hne _
  refine ⟨htakes, ?_⟩
  intro ns s' h
  obtain ⟨ms, -, rfl⟩ := node_eq_ok h
  exact ⟨_, rfl, rfl, rfl, rfl⟩

theorem leadingUpdate (hg : g.Sound t) (c : Operand) : YieldsAt t (g.leadingUpdate c) s :=
  .look (.around rfl (.later (.token _) (.first (hg.expr _).role .nil)))

theorem yielding (hg : g.Sound t) (c : Operand) : YieldsAt t (g.yielding c) s := by
  refine .around rfl (.andThen (.word _) (.look fun s => ?_))
  split
  · exact Reads.andThen (.punct _) (hg.expr _).reads s
  · split
    · exact (hg.expr _).reads s
    · exact Reads.nil s

/-! ## Arrow functions -/

theorem arrowBody (hg : g.Sound t) (c : Operand) : Takes t (g.arrowBody c) := by
  refine .look fun s => ?_
  dsimp only
  split
  · exact hg.block.orElse (hg.expr _) s
  · exact hg.expr _ s

theorem arrowHead (hg : g.Sound t) (c : Operand) : Takes t (g.arrowHead c) := by
  refine .later (.opt hg.typeParameters.reads) (.first hg.parameters
    (.cons ?_ (.cons (.punct _) .nil)))
  split
  · exact .opt (Takes.node rfl (.andThen (.punct _) (hg.returnType _).reads)).reads
  · exact .nil

theorem nameHead : Takes t Grammar.nameHead := .andThen (.name rfl) (.punct _)

theorem arrowOr_eq_ok {c : Operand} {head other : Parser} {ns : List Node} {s' : State}
    (h : g.arrowOr c head other s = .ok ns s') :
    node .arrowFunction (andThen head (g.arrowBody c)) s = .ok ns s' ∨
      ∃ far, other { s with far := far } = .ok ns s' := by
  unfold Grammar.arrowOr at h
  split at h
  · next ns₁ s₁ h₁ =>
      refine Or.inl ?_
      split at h
      · next ms s₂ h₂ =>
          cases h
          simp only [node, andThen, h₁, h₂]
      · cases h
  · next far _ => exact Or.inr ⟨far, h⟩

theorem arrowOr (hg : g.Sound t) {c : Operand} {head other : Parser} (hhead : Takes t head)
    (hother : ∀ far, YieldsAt t other { s with far := far }) :
    YieldsAt t (g.arrowOr c head other) s := by
  have harrow : YieldsAt t (node .arrowFunction (andThen head (g.arrowBody c))) s :=
    .around rfl (hhead.andThen (hg.arrowBody c).reads)
  refine ⟨?_, ?_⟩
  · intro ns s' hs h
    rcases arrowOr_eq_ok h with h | ⟨far, h⟩
    · exact harrow.takes ns s' hs h
    · exact (hother far).takes ns s' (hs.withFar far) h
  · intro ns s' h
    rcases arrowOr_eq_ok h with h | ⟨far, h⟩
    · exact harrow.single ns s' h
    · exact (hother far).single ns s' h

theorem asyncHead (hg : g.Sound t) (c : Operand) (htok : s.tok ≠ .eof) :
    YieldsAt t (g.asyncHead c) s := by
  refine .look ?_
  split
  · exact .node rfl (hg.functionExpression s)
  · exact hg.arrowOr nameHead fun far => .fail
  · exact hg.arrowOr (.andThen (.word _) nameHead.reads) fun far => .leaf rfl htok
  · exact hg.arrowOr (.andThen (.word _) (hg.arrowHead c).reads) fun far => .leaf rfl htok
  · exact hg.arrowOr (.andThen (.word _) (hg.arrowHead c).reads) fun far => .leaf rfl htok
  · exact .leaf rfl htok

/-! ## Heads -/

theorem parenthesized (hg : g.Sound t) : YieldsAt t g.parenthesized s :=
  .around rfl (.first (.punct _) (.cons (hg.sequence _).reads
    (.cons (.opt (hg.typeMark _).reads) (.cons (.punct _) .nil))))

theorem regex : YieldsAt t Grammar.regex s := by
  refine ⟨?_, ?_⟩
  · intro ns s' hs h
    unfold Grammar.regex at h
    split at h
    · next taken rest hscan =>
        cases h
        obtain ⟨happ, hne⟩ := Lexer.scanRegex?_eq_some hscan
        have hfrom := hs.here
        rw [happ] at hfrom
        have hlt : s.start < s.start + Text.size taken :=
          Nat.lt_add_of_pos_right (Text.size_pos hne)
        exact ⟨step_leaf (.inl rfl) hs hfrom.append hlt, hlt⟩
    · cases h
  · intro ns s' h
    unfold Grammar.regex at h
    split at h
    · cases h
      exact ⟨_, rfl, rfl, rfl, rfl⟩
    · cases h

theorem assertion (hg : g.Sound t) (c : Operand) : YieldsAt t (g.assertion c) s :=
  .around rfl (.first hg.typeArguments (.cons (hg.expr _).reads .nil))

theorem angleHead (hg : g.Sound t) (c : Operand) : YieldsAt t (g.angleHead c) s := by
  refine hg.arrowOr (hg.arrowHead c) fun far => ?_
  split
  · exact hg.assertion c
  · exact ⟨hg.takes _ _, hg.element _⟩

theorem importHead (htok : s.tok ≠ .eof) : YieldsAt t Grammar.importHead s := by
  refine .look ?_
  split
  · exact .around rfl (.first (.word _) (.cons (.punct _)
      (.cons (.name rfl) .nil)))
  · exact .leaf rfl htok
  · exact .fail

theorem primary (hg : g.Sound t) (c : Operand) : YieldsAt t (g.primary c) s := by
  refine .look ?_
  split
  · next h => exact .leaf rfl (by simp [h])
  · next h => exact .leaf rfl (by simp [h])
  · next h => exact .leaf rfl (by simp [h])
  · next h => exact .leaf rfl (by simp [h])
  · next h => exact .leaf rfl (by simp [h])
  · next h => exact .leaf rfl (by simp [h])
  · exact .node rfl (hg.functionExpression s)
  · exact .node rfl (hg.classRule rfl s)
  · next h => exact importHead (by simp [h])
  · next h => exact hg.asyncHead c (by simp [h])
  · next h => exact hg.arrowOr nameHead fun far => .leaf rfl (by simp [h])
  · next h =>
      split
      · exact .leaf rfl (by simp [h])
      · exact .fail
  · next h => exact .leaf rfl (by simp [h])
  · next h => exact .leaf rfl (by simp [h])
  · exact hg.arrowOr (hg.arrowHead c) fun far => hg.parenthesized
  · exact .around rfl (.first (.punct _) (.cons (.commaHoles hg.argument.reads _)
      (.cons (.punct _) .nil)))
  · exact hg.object s
  · exact .node rfl (hg.templateString s)
  · exact regex
  · exact regex
  · exact hg.angleHead c
  · exact .node rfl (hg.classRule rfl s)
  · exact .fail

/-! ## What continues an expression -/

variable {n : Node}

theorem subscript (hg : g.Sound t) : Grows t n (g.subscript n) s :=
  .withField (.extend (fun _ => Node.field_withField n _)
    (.cons (.punct _) (.cons (hg.sequence _).reads (.cons (.punct _) .nil))))

theorem taggedTemplate (hg : g.Sound t) : Grows t n (g.taggedTemplate n) s :=
  .withField (.call (Node.field_withField n _) hg.templateString.role.reads .role)

theorem optionalAccess (hg : g.Sound t) : Grows t n (g.optionalAccess n) s := by
  refine .look ?_
  dsimp only
  split
  · exact .withField (.call (Node.field_withField n _)
      (.cons optionalMark (.cons hg.arguments.role.reads .nil)) (.andThen .tokenAs .role))
  · exact .withField (.call (Node.field_withField n _)
      (.cons optionalMark (.cons hg.typeArguments.role.reads (.cons hg.arguments.role.reads .nil)))
      (.andThen .tokenAs (.andThen (.role (by decide)) .role)))
  · exact .withField (.extend (fun _ => Node.field_withField n _)
      (.cons optionalMark (.cons (.punct _) (.cons (hg.sequence _).reads (.cons (.punct _) .nil)))))
  · exact .withField (.extend (fun _ => Node.field_withField n _)
      (.cons optionalMark (.cons property.role.reads .nil)))

theorem constructorTail (hg : g.Sound t) (fuel : Nat) (n : Node) (s : State) :
    Grows t n (g.constructorTail fuel n) s := by
  induction fuel generalizing n s with
  | zero => exact .pass
  | succ fuel ih =>
      refine .look ?_
      split
      · exact .withNode memberAccess ih
      · exact .withNode hg.subscript ih
      · exact .withNode hg.taggedTemplate ih
      · split
        · exact .pass
        · exact .pass
        · exact .withNode hg.optionalAccess ih
      · exact .pass

theorem construction (hg : g.Sound t) (c : Operand) (htok : s.tok ≠ .eof) :
    YieldsAt t (g.construction c) s := by
  refine .look ?_
  split
  · exact .around rfl (.first (.word _) (.cons (.punct _)
      (.cons (.name rfl) .nil)))
  split
  · exact .leaf rfl htok
  · refine .around rfl (.first (.word _) (.cons ?_ (.cons (.look fun s => ?_)
      (.cons (.look fun s => ?_) .nil))))
    · intro s
      exact (YieldsAt.withNode (hg.primary _) (hg.constructorTail _)).takes.reads
    · split
      · intro ns s' hs h
        dsimp only at h
        -- the type arguments are given up where they could be operands
        split at h
        · next h₁ =>
            split at h
            · cases h
              exact hg.typeArguments.reads s _ _ hs h₁
            · cases h
              exact (Step.refl hs _).withFar _
        · cases h
          exact (Step.refl hs _).withFar _
      · exact Reads.nil s
    · split
      · exact hg.arguments.role.reads s
      · exact Reads.nil s

theorem head (hg : g.Sound t) (c : Operand) : YieldsAt t (g.head c) s := by
  refine .look ?_
  split
  · next h => exact hg.unary c (by simp [h])
  · next h => exact hg.unary c (by simp [h])
  · next h => exact hg.unary c (by simp [h])
  · next h => exact hg.unary c (by simp [h])
  · next h => exact hg.unary c (by simp [h])
  · next h => exact hg.unary c (by simp [h])
  · next h => exact hg.unary c (by simp [h])
  · exact hg.leadingUpdate c
  · exact hg.leadingUpdate c
  · exact hg.awaiting c
  · exact hg.yielding c
  · next h => exact hg.construction c (by simp [h])
  · exact hg.primary c

theorem branches (hg : g.Sound t) (c : Operand) : Reads t (g.branches c) := by
  refine .andThen (.punct _) fun s => ?_
  intro ns s' hs h
  dsimp only at h
  have hcolon : ∀ a : Bool, Reads t (andThen (g.expr { Operand.whole with annotated := a })
      (andThen (punct .colon) (g.expr { c.rest with level := .ternary }))) :=
    fun a => .andThen (hg.expr _).reads (.andThen (.punct _) (hg.expr _).reads)
  split at h
  · next ns₁ s₁ h₁ =>
      split at h
      · rw [andThen_pass h₁] at h
        exact hcolon true s ns s' hs h
      · exact hcolon false { s with far := s₁.blocked false } ns s' (hs.withFar _) h
  · cases h

/-- Wherever `p` succeeds, another parser succeeds at the same place that continues the node. -/
theorem grows_of_ok {p : Parser} (h : ∀ ns s', p s = .ok ns s' →
      ∃ q far, Grows t n q { s with far := far } ∧ q { s with far := far } = .ok ns s') :
    Grows t n p s := by
  intro hn hstop
  refine ⟨?_, ?_⟩
  · intro lo ns s' hs hlaid hp
    obtain ⟨q, far, hq, heq⟩ := h ns s' hp
    exact (hq hn hstop).1 lo ns s' (hs.withFar far) hlaid heq
  · intro ns s' hp
    obtain ⟨q, far, hq, heq⟩ := h ns s' hp
    exact (hq hn hstop).2 ns s' heq

theorem genericTail (hg : g.Sound t) (c : Operand) {f : Node → Parser} {binary : Parser}
    (hf : ∀ m s₁, Grows t m (f m) s₁) (hbinary : ∀ s₁, Grows t n binary s₁) :
    Grows t n (g.genericTail c n (fun p => withNode p f) binary) s := by
  refine grows_of_ok ?_
  intro ns s' h
  unfold Grammar.genericTail at h
  split at h
  · next ns₁ s₁ h₁ =>
      -- the type arguments read before and what is read now are one continuation of the node
      have htypes : role .typeArguments g.typeArguments s =
          .ok (ns₁.map (Node.withField (some .typeArguments))) s₁ := by
        simp only [Parser.role, h₁]
      dsimp only at h
      split at h
      · refine ⟨withNode (extend .callExpression (n.withField (some .function))
          (andThen (role .typeArguments g.typeArguments) (role .arguments g.arguments))) f,
          s.far, ?_, ?_⟩
        · exact .withNode (.withField (.call (Node.field_withField n _)
            (.andThen hg.typeArguments.role.reads hg.arguments.role.reads)
            (.andThen (.role (by decide)) .role))) hf
        · rw [← h]
          simp only [withNode, extend, andThen_pass htypes]
      split at h
      · exact ⟨Parser.pass [n], s₁.far, .pass, h⟩
      split at h
      · exact ⟨binary, s₁.far, hbinary _, h⟩
      · refine ⟨withNode (extend .instantiationExpression n
          (role .typeArguments g.typeArguments)) f, s.far, ?_, ?_⟩
        · exact .withNode (.extend (fun _ => rfl) hg.typeArguments.role.reads) hf
        · rw [← h]
          simp only [withNode, extend, htypes, Parser.pass]
  · next far _ => exact ⟨binary, far, hbinary _, h⟩

/-- A binary operation, where the operator binds strong enough. -/
theorem binaryTail (hg : g.Sound t) (c : Operand) (tok : Token) {f : Node → Parser}
    (hf : ∀ m s₁, Grows t m (f m) s₁) (s : State) :
    Grows t n (match Grammar.binaryLevel? tok with
      | some l =>
          if c.level ≤ l then
            withNode (extend .binaryExpression n
              (andThen (Parser.token tok) (g.expr (c.afterBinary l)))) f
          else Parser.pass [n]
      | none => Parser.pass [n]) s := by
  split
  · split
    · exact .withNode (.extend id (.andThen (.token _) (hg.expr _).reads)) hf
    · exact .pass
  · exact .pass

/-- **An expression goes on with one node.** -/
theorem tail (hg : g.Sound t) (c : Operand) (fuel : Nat) (n : Node) (s : State) :
    Grows t n (g.tail c fuel n) s := by
  induction fuel generalizing n s with
  | zero => exact .pass
  | succ fuel ih =>
      have hbinary := fun tok => hg.binaryTail c tok ih (n := n)
      refine .look ?_
      dsimp only
      split
      · exact .pass
      split
      · exact .withNode memberAccess ih
      · exact .withNode hg.optionalAccess ih
      · exact .withNode hg.subscript ih
      · exact .withNode hg.call ih
      · exact .withNode hg.taggedTemplate ih
      · split
        · exact .withNode (.extend id (.punct _)) ih
        · exact .pass
      · exact .withNode (.extend (fun _ => rfl) (.token _)) ih
      · exact .withNode (.extend (fun _ => rfl) (.token _)) ih
      · split
        · exact hg.genericTail c ih (hbinary _)
        · exact hbinary _ s
      · split
        · exact .extend (fun _ => rfl) (.andThen (.punct _) (hg.expr _).reads)
        · exact .pass
      · split
        · exact .withNode (.extend (fun _ => rfl) (hg.branches c)) ih
        · exact .pass
      · split
        · exact .withNode (.extend (fun _ => rfl) (.andThen (.word _) (hg.takes _).reads)) ih
        · exact .pass
      · split
        · exact .withNode (.extend (fun _ => rfl) (.andThen (.word _) (hg.takes _).reads)) ih
        · exact .pass
      · split
        · split
          · exact .extend (fun _ => rfl) (.andThen (.token _) (hg.expr _).reads)
          · exact .pass
        · exact hbinary _ s

theorem expressionRule (hg : g.Sound t) (c : Operand) (s : State) :
    YieldsAt t (g.expressionRule c) s :=
  .withNode (hg.head c) (hg.tail c _)

end Grammar.Sound

end Promisify
