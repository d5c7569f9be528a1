import Promisify.Proofs.Parsers
import Promisify.Syntax.Grammar.Members

set_option autoImplicit false

/-! # Phrases take tokens

A grammar is sound when the phrases it gives access to take something and an expression is one node
of code. Each rule then takes something too: its proof follows the rule from combinator to
combinator.
-/

namespace Promisify

open Promisify.Parser

/-- The phrases inside a phrase make steps. -/
structure Grammar.Sound (t : Text) (g : Grammar) : Prop where
  takes : ∀ goal, Takes t (g.read goal)
  single : ∀ c, Single (g.expr c)
  element : Single (g.read .element)

namespace Grammar.Sound

variable {t : Text} {g : Grammar}

/-! ## Parts of many phrases -/

theorem expr (hg : g.Sound t) (c : Operand) : Takes t (g.expr c) := hg.takes _

theorem inner (hg : g.Sound t) : Takes t g.inner := hg.takes _

theorem type (hg : g.Sound t) : Takes t g.type := hg.takes _

theorem statement (hg : g.Sound t) : Takes t g.statement := hg.takes _

theorem binding (hg : g.Sound t) : Takes t g.binding := hg.takes _

theorem star {p : Parser} (h : Reads t p) : Reads t (g.star p) := h.many _

theorem sequence (hg : g.Sound t) (c : Operand) : Takes t (g.sequence c) := by
  refine .withNode (hg.expr c) fun n s => .look ?_
  split
  · exact .extend rfl (.andThen (.punct _) (.andThen (hg.expr c).reads
      (star (.andThen (.punct _) (hg.expr c).reads))))
  · exact .pass

theorem condition (hg : g.Sound t) : Takes t g.condition :=
  .node rfl (.first (.punct _) (.cons (hg.sequence _).reads (.cons (.punct _) .nil)))

theorem block (hg : g.Sound t) : Takes t g.block :=
  .node rfl (.first (.punct _) (.cons (star hg.statement.reads)
    (.cons (.punct _) .nil)))

theorem typeMark (hg : g.Sound t) (b : Lexer.Border) : Takes t (g.typeMark b) :=
  .node rfl (.andThen (.punct _) (hg.takes _).reads)

theorem initializer (hg : g.Sound t) (c : Operand) : Takes t (g.initializer c) :=
  .andThen (.punct _) (hg.expr c).reads

theorem typeArguments (hg : g.Sound t) : Takes t g.typeArguments :=
  .node rfl (.first (.punct _) (.cons (hg.type.commaSep _).reads
    (.cons (.opt (.punct _)) (.cons Takes.closeAngle.reads .nil))))

theorem typeParameters (hg : g.Sound t) : Takes t g.typeParameters := by
  refine .node rfl (.first (.punct _) (.cons (Takes.commaSep (.node rfl (.later ?_
    (.first (.name rfl) (.cons (.opt ?_) (.cons (.opt ?_) .nil))))) _).reads
    (.cons (.opt (.punct _)) (.cons Takes.closeAngle.reads .nil))))
  · refine .look fun s => ?_
    split
    · exact Reads.word _ s
    · exact Reads.nil s
  · exact .cons (.word _) (.cons hg.type.reads .nil)
  · exact .cons (.punct _) (.cons hg.type.reads .nil)

theorem argument (hg : g.Sound t) : Takes t g.argument := by
  refine .look fun s => ?_
  split
  · exact Takes.node rfl (.andThen (.punct _) hg.inner.reads) s
  · exact hg.inner s

theorem single_argument (hg : g.Sound t) : Single g.argument := by
  intro s ns s' h
  simp only [Grammar.argument, Parser.look] at h
  split at h
  · obtain ⟨ms, -, rfl⟩ := node_eq_ok h
    exact ⟨_, rfl, rfl, rfl, rfl⟩
  · exact hg.single _ s ns s' h

/-- Arguments stand between parentheses and commas. -/
theorem arguments (hg : g.Sound t) : Takes t g.arguments := by
  intro s
  refine TakesAt.headed ?_ ?_
  · exact Takes.first (.punct _) (.cons (.commaHoles hg.argument.reads _) (.cons (.punct _) .nil)) s
  · intro ms s' hs h
    obtain ⟨ns₁, s₁, _, h₁, htail, rfl⟩ := andThen_eq_ok h
    obtain ⟨ns₂, s₂, ns₃, h₂, h₃, rfl⟩ := andThen_eq_ok htail
    obtain ⟨hstep₁, hlt₁⟩ := Takes.punct (t := t) _ s ns₁ s₁ hs h₁
    have hstep₂ := Reads.commaHoles hg.argument.reads _ s₁ ns₂ s₂ hstep₁.sound h₂
    obtain ⟨-, hlt₃⟩ := Takes.punct (t := t) _ s₂ ns₃ s' hstep₂.sound h₃
    have hapart := setApart_commaHoles hg.argument hg.single_argument hstep₁.sound
      (nameBefore_punct hs h₁) h₂
    have hprev₁ := hstep₁.sound.prevStop_le
    have hprev₂ := hstep₂.sound.prevStop_le
    obtain ⟨rfl, htok₁, rfl⟩ := punct_eq_ok h₁
    obtain ⟨rfl, htok₃, rfl⟩ := punct_eq_ok h₃
    rw [List.append_nil, List.nil_append]
    have hnext := hstep₂.sound.nameBehind_prevStop htok₃
    refine Node.headed_arguments ⟨?_, fun n hn => Or.inl (hapart.code n hn), ?_, ?_,
      hapart.apart.sublist List.filter_sublist, nameBefore_punct hstep₂.sound h₃⟩
    · -- what stands between the parentheses is a slice of its own
      have hopen := hs.slice?_punct (u := ['(']) htok₁ (by decide)
      have hclose := hstep₂.sound.slice?_punct (u := [')']) htok₃ (by decide)
      obtain ⟨u, hu⟩ := Option.isSome_iff_exists.mp (Text.slice?_isSome_iff.mpr
        ⟨Nat.le_trans hprev₁ hstep₂.pos_le, hs.rest.isBorder, hstep₂.sound.here.isBorder⟩)
      exact ⟨u, Text.slice?_append (Text.slice?_append hopen hu) hclose⟩
    · intro n hn
      have hmem : n ∈ ns₂ := (List.mem_filter.mp hn).1
      have hin := hstep₂.laid.inside n hmem
      exact ⟨Nat.lt_of_lt_of_le hlt₁ (Nat.le_trans hprev₁ hin.1),
        Nat.lt_of_le_of_lt (Nat.le_trans hin.2 hprev₂) hlt₃, hapart.before n hmem⟩
    · intro n hn
      rcases hapart.behind n (List.mem_filter.mp hn).1 with hstop | hbehind
      · rw [hstop]
        exact hnext
      · exact hbehind

/-! ## Templates -/

theorem templateRest {inside : Parser} (h : Reads t inside) (fuel : Nat) :
    Raw t (Grammar.templateRest inside fuel) := by
  induction fuel with
  | zero =>
      intro pos raw s ns s' hraw htidy hold hp
      cases hp
  | succ fuel ih =>
      intro pos raw s ns s' hraw htidy hold hp
      have hchars := Text.munch_append Lexer.templateUnit 0 raw
      simp only [Grammar.templateRest] at hp
      rw [← hchars] at hraw
      have hafter := hraw.append
      -- the characters end at `here`, with the closing quote or a substitution
      generalize hpos : pos + Text.size (Text.munch Lexer.templateUnit 0 raw).1 = here at hp hafter
      have hle : pos ≤ here := by omega
      have hold' : ∀ c ∈ s.comments, c.stop ≤ here := fun c hc => Nat.le_trans (hold c hc) hle
      suffices hhere : Step t here (.raw here s.comments) ns s' from hhere.earlier rfl hle hle hle
      split at hp
      · next rest heq =>
          cases hp
          rw [heq] at hafter
          exact State.resume_step rfl htidy (fun c hc => Nat.le_succ_of_le (hold' c hc))
            (hafter.append (u := ['`'])) (Nat.le_succ here) (Nat.le_succ here)
      · next rest heq =>
          rw [heq] at hafter
          have hstep : Step t here (.raw here s.comments) [] (s.resume (here + 2) rest) :=
            State.resume_step rfl htidy (fun c hc => Nat.le_add_right_of_le (hold' c hc))
              (hafter.append (u := ['$', '\x7b'])) (Nat.le_add_right here 2)
              (Nat.le_add_right here 2)
          split at hp
          · next ns₁ s₁ hin =>
              have hread := hstep.andThen (h _ ns₁ s₁ hstep.sound hin) (Nat.le_refl _)
              split at hp
              · split at hp
                · next ms s₂ hrest =>
                    cases hp
                    have hprev : here + 2 ≤ s₁.prevStop := (h _ ns₁ s₁ hstep.sound hin).prev_le
                    have hprev' := hread.sound.prevStop_le
                    have hstop := hread.sound.start_le
                    refine hread.closed (ih.afterToken hread.sound hrest) rfl (by omega)
                      ⟨hafter.isBorder, ?_⟩ (Nat.le_refl _)
                    intro c hc
                    exact (hread.mem_comments c hc).imp (hold' c) id
                · cases hp
              · cases hp
          · cases hp
      · cases hp

theorem template {k : Kind} {inside : Parser} (hk : k.isPlain = true) (h : Reads t inside) :
    Takes t (g.template k inside) := by
  refine .node hk (.look fun s => ?_)
  split
  · next htok =>
      rw [beq_iff_eq] at htok
      exact (templateRest h g.fuel).takesAt (by simp [htok])
  · exact Takes.fail s

theorem templateString (hg : g.Sound t) : Takes t g.templateString :=
  template rfl (hg.sequence _).reads

/-! ## Names, decorators and parameters -/

theorem propertyName (hg : g.Sound t) : Takes t g.propertyName := by
  refine .look fun s => ?_
  split
  · next h => exact .leaf rfl (by simp [h])
  · next h => exact .leaf rfl (by simp [h])
  · next h => exact .leaf rfl (by simp [h])
  · next h => exact .leaf rfl (by simp [h])
  · exact Takes.node rfl (.first (.punct _) (.cons hg.inner.reads (.cons (.punct _) .nil))) s
  · exact Takes.fail s

theorem property : Takes t Grammar.property :=
  .orElse (.name rfl) (.tokenAs (.inl rfl) (by simp))

theorem memberAccess {n : Node} {s : State} : Grows t n (Grammar.memberAccess n) s :=
  .withField (.extend (fun _ => Node.field_withField n _)
    (.cons (.punct _) (.cons property.role.reads .nil)))

theorem call (hg : g.Sound t) {n : Node} {s : State} : Grows t n (g.call n) s :=
  .withField (.call (Node.field_withField n _) hg.arguments.role.reads .role)

theorem memberNames (fuel : Nat) (n : Node) (s : State) :
    Goes t n (Grammar.memberNames fuel n) s := by
  induction fuel generalizing n s with
  | zero => exact .pass
  | succ fuel ih =>
      refine .look ?_
      split
      · refine .withNode (.withField (.extend ?_ ?_)) fun m s₁ _ => ih m s₁
        · exact Node.field_withField n _
        · exact .cons (.punct _) (.cons (Takes.role (.name rfl)).reads .nil)
      · exact .pass

theorem decoratorCall (hg : g.Sound t) (n : Node) (s : State) :
    Goes t n (extend .callExpression (n.withField (some .function))
      (all [opt (role .typeArguments g.typeArguments), role .arguments g.arguments])) s :=
  .withField (.call (Node.field_withField n _)
    (.cons (.opt hg.typeArguments.role.reads) (.cons hg.arguments.role.reads .nil))
    (.andThen (.opt (.role (by decide))) .role))

theorem decorator (hg : g.Sound t) : Takes t g.decorator := by
  refine .node rfl (.first (.punct _) (.cons (Takes.reads (.look fun s => ?_)) .nil))
  split
  · exact hg.condition s
  · refine Takes.withNode (.withNode (.name rfl) (memberNames _)) (fun n s => .look ?_) s
    split
    · exact hg.decoratorCall n s
    · exact .orElse (hg.decoratorCall n s) fun _ => .pass
    · exact .pass

theorem parameter (hg : g.Sound t) : Takes t g.parameter := by
  refine .node rfl (.later (star hg.decorator.reads) (.later (star (.look fun s => ?_))
    (.first (.look fun s => ?_) (.cons (.opt (.punct _)) (.cons (.opt (hg.typeMark _).reads)
      (.cons (.opt (hg.initializer _).reads) .nil))))))
  · split
    · split
      · exact Reads.token _ s
      · exact Takes.fail.reads s
    · split
      · exact Reads.token _ s
      · exact Takes.fail.reads s
    · split
      · exact Reads.token _ s
      · exact Takes.fail.reads s
    · exact Takes.fail.reads s
  · split
    · exact Takes.node rfl (.andThen (.punct _) hg.binding.reads) s
    · exact hg.binding s

theorem parameters (hg : g.Sound t) : Takes t g.parameters :=
  .node rfl (.first (.punct _) (.cons (.commaList hg.parameter _) (.cons (.punct _) .nil)))

theorem returnType (hg : g.Sound t) (b : Lexer.Border) : Takes t (g.returnType b) := by
  have hpredicate : Takes t (Parser.node .typeReference
      (all [name .identifier, word .kIs, g.read (.type b)])) :=
    .node rfl (.first (.name rfl) (.cons (.word _) (.cons (hg.takes _).reads .nil)))
  refine .look fun s => ?_
  split
  · split
    · exact hpredicate s
    · exact Takes.node rfl (.first (.word _) (.cons (.name rfl)
        (.cons (.opt (.cons (.word _) (.cons (hg.takes _).reads .nil))) .nil))) s
  · exact hpredicate s
  · exact hg.takes _ s

theorem signature (hg : g.Sound t) (b : Lexer.Border) : Takes t (g.signature b) :=
  .later (.opt hg.typeParameters.reads) (.first hg.parameters (.cons
    (.opt (Takes.node rfl (.andThen (.punct _) (hg.returnType b).reads)).reads) .nil))

/-! ## Types -/

/-- Names after dots. -/
theorem dottedNames : Reads t (g.star (all [punct .dot, name .identifier])) :=
  star (.cons (.punct _) (.cons (.name rfl) .nil))

theorem typeReference (hg : g.Sound t) : Takes t g.typeReference :=
  .node rfl (.first (.name rfl) (.cons dottedNames (.cons (.opt hg.typeArguments.reads) .nil)))

/-- The callee of an import is the word itself, with which the call starts. -/
theorem importCall (hg : g.Sound t) : Takes t g.importCall := by
  intro s
  refine TakesAt.headed ?_ ?_
  · exact Takes.first (.role (.tokenAs (.inl rfl) (by simp)))
      (.cons hg.arguments.role.reads .nil) s
  · intro ms s' hs h
    obtain ⟨ns₁, s₁, ns₂, h₁, h₂, rfl⟩ := andThen_eq_ok h
    obtain ⟨callee, hcallee, rfl⟩ := role_eq_ok h₁
    rw [tokenAs_eq_ok hcallee]
    have hfield : ((Node.leaf .importCallee s.start s.stop).withField (some .function)).field =
        some .function := rfl
    exact Node.headed_call hfield (Closes.role s₁ ns₂ s' h₂)

theorem yields_importCall (hg : g.Sound t) {s : State} : YieldsAt t g.importCall s := by
  refine ⟨hg.importCall s, ?_⟩
  intro ns s' h
  obtain ⟨ms, -, rfl⟩ := node_eq_ok h
  exact ⟨_, rfl, rfl, rfl, rfl⟩

/-- The mark of a member that is only there if what it belongs to is. -/
theorem optionalMark : Reads t (tokenAs .optionalChain (.punct .questionDot)) :=
  (Takes.tokenAs (.inr (.inl rfl)) (by simp)).reads

theorem optionalMember {n : Node} {s : State} : Grows t n (Grammar.optionalMember n) s := by
  have hindex : Reads t (Parser.orElse (tokenAs .string .string) (tokenAs .number .number)) :=
    (Takes.orElse (.tokenAs (.inl rfl) (by simp)) (.tokenAs (.inl rfl) (by simp))).reads
  refine .look ?_
  dsimp only
  split
  · exact .withField (.extend (fun _ => Node.field_withField n _)
      (.cons optionalMark (.cons (.punct _) (.cons hindex (.cons (.punct _) .nil)))))
  · exact .withField (.extend (fun _ => Node.field_withField n _)
      (.cons optionalMark (.cons property.role.reads .nil)))

theorem queryTail (hg : g.Sound t) (b : Lexer.Border) (chained : Bool) (fuel : Nat) (n : Node)
    (s : State) : Grows t n (g.queryTail b chained fuel n) s := by
  induction fuel generalizing n s with
  | zero => exact .pass
  | succ fuel ih =>
      refine .look ?_
      dsimp only
      split
      · exact .withNode memberAccess ih
      · split
        · exact .withNode optionalMember ih
        · exact .pass
      · split
        · exact .pass
        · exact .withNode hg.call ih
      · exact .pass

theorem importType (hg : g.Sound t) (b : Lexer.Border) : Takes t (g.importType b) := by
  refine .node rfl (.first (fun s => ?_) (.cons (.opt hg.typeArguments.reads) .nil))
  exact (YieldsAt.withNode hg.yields_importCall (hg.queryTail b false _)).takes

theorem typeQuery (hg : g.Sound t) (b : Lexer.Border) : Takes t (g.typeQuery b) := by
  refine .node rfl (.first (.word _) (.cons (fun s => ?_) (.cons (.opt hg.typeArguments.reads) .nil)))
  refine (YieldsAt.withNode (.look ?_) (hg.queryTail b true _)).takes.reads
  split
  · exact hg.yields_importCall
  · next h => exact .leaf rfl (by simp [h])
  · refine .look ?_
    split
    · next h => exact .leaf rfl (by simp [h])
    · exact .fail

theorem memberModifiers : Reads t g.memberModifiers := by
  refine star (.look fun s => ?_)
  split
  · split
    · split
      · exact Reads.token _ s
      · exact Reads.token _ s
      · exact Reads.token _ s
      · exact Reads.token _ s
      · exact Reads.token _ s
      · exact Takes.fail.reads s
    · exact Takes.fail.reads s
  · refine Reads.look (fun s => ?_) s
    split
    · exact Reads.cons (.token _) (.cons (.word _) .nil) s
    · exact Reads.cons (.token _) (.cons (.word _) .nil) s
    · exact Takes.fail.reads s

theorem indexKey (hg : g.Sound t) : Takes t g.indexKey := by
  refine .first (.punct _) (.cons (.name rfl) (.cons (.look fun s => ?_) (.cons (.punct _) .nil)))
  split
  · exact Reads.andThen (.punct _) hg.type.reads s
  · exact Reads.cons (.word _) (.cons hg.type.reads
      (.cons (.opt (.cons (.word _) (.cons hg.type.reads .nil))) .nil)) s

theorem mappedTypeMark (hg : g.Sound t) (b : Lexer.Border) : Takes t (g.mappedTypeMark b) :=
  .later (.opt (.cons (.opt (.orElse (.punct _) (.punct _))) (.cons (.punct _) .nil)))
    (.first (hg.typeMark b) .nil)

/-- A member of an object type from its name on. -/
theorem namedTypeMember (hg : g.Sound t) (b : Lexer.Border) :
    Takes t (all [g.propertyName, Parser.opt (punct .question), Parser.look fun s =>
      match s.tok with
      | .punct .lparen | .punct .lt =>
          if atLineEnd b s then Parser.pass [] else g.signature b
      | .punct .colon => g.typeMark b
      | _ => Parser.pass []]) := by
  refine .first hg.propertyName (.cons (.opt (.punct _)) (.cons (.look fun s => ?_) .nil))
  split
  · split
    · exact Reads.nil s
    · exact (hg.signature _).reads s
  · split
    · exact Reads.nil s
    · exact (hg.signature _).reads s
  · exact (hg.typeMark _).reads s
  · exact Reads.nil s

theorem typeMember (hg : g.Sound t) : Takes t g.typeMember := by
  refine .node rfl (.look fun s => ?_)
  split
  · exact hg.signature _ s
  · exact hg.signature _ s
  · exact Takes.first (.word _) (.cons (hg.signature _).reads .nil) s
  · exact Takes.first (.word _) (.cons (hg.signature _).reads .nil) s
  · exact hg.statement s
  · refine Takes.later memberModifiers (.first (.look fun s => ?_) .nil) s
    split
    · exact Takes.orElse (.first hg.indexKey (.cons (hg.mappedTypeMark _).reads .nil))
        (hg.namedTypeMember _) s
    · exact hg.namedTypeMember _ s

theorem objectType (hg : g.Sound t) : Takes t g.objectType := by
  have hseparator : Reads t (Parser.orElse (punct .comma) (semicolon .bare)) :=
    .orElse (.punct _) (.semicolon _)
  refine .node rfl (.first (.punct _) (.cons (.opt (.orElse (.punct _) (.punct _)))
    (.cons (.opt ?_) (.cons (.punct _) .nil))))
  exact .cons hg.typeMember.reads (.cons (star (.cons hseparator (.cons hg.typeMember.reads .nil)))
    (.cons (.opt hseparator) .nil))

theorem tupleMember (hg : g.Sound t) : Takes t g.tupleMember := by
  have hlabelled : Takes t (all [name .identifier, Parser.opt (punct .question),
      g.typeMark .inner]) :=
    .first (.name rfl) (.cons (.opt (.punct _)) (.cons (hg.typeMark _).reads .nil))
  have hplain : Takes t (all [g.type, Parser.opt (punct .question)]) :=
    .first hg.type (.cons (.opt (.punct _)) .nil)
  refine .later (.opt (.punct _)) (.first (.look fun s => ?_) .nil)
  split
  · exact hlabelled.orElse hplain s
  · exact hlabelled.orElse hplain s
  · exact hplain s

theorem tupleType (hg : g.Sound t) : Takes t g.tupleType :=
  .node rfl (.first (.punct _) (.cons (.commaList hg.tupleMember _) (.cons (.punct _) .nil)))

theorem functionType (hg : g.Sound t) (b : Lexer.Border) : Takes t (g.functionType b) :=
  .node rfl (.later (.opt (.word _)) (.later (.opt (.word _)) (.later (.opt hg.typeParameters.reads)
    (.first hg.parameters (.cons (.punct _) (.cons (hg.returnType b).reads .nil))))))

theorem parenthesizedType (hg : g.Sound t) : Takes t g.parenthesizedType :=
  .first (.punct _) (.cons hg.type.reads (.cons (.punct _) .nil))

theorem primaryType (hg : g.Sound t) (b : Lexer.Border) : Takes t (g.primaryType b) := by
  have hnumber : Reads t (tokenAs .number .number) := (Takes.tokenAs (.inl rfl) (by simp)).reads
  refine .look fun s => ?_
  split
  · exact hg.typeQuery b s
  · exact hg.importType b s
  · exact hg.functionType b s
  · exact (hg.functionType b).orElse hg.typeReference s
  · exact hg.typeReference s
  · next h => exact .leaf rfl (by simp [h])
  · next h => exact .leaf rfl (by simp [h])
  · exact Takes.first (.punct _) (.cons hnumber .nil) s
  · exact Takes.first (.punct _) (.cons hnumber .nil) s
  · exact Takes.punct _ s
  · exact hg.functionType b s
  · exact (hg.functionType b).orElse hg.parenthesizedType s
  · exact hg.objectType s
  · exact hg.tupleType s
  · exact template rfl hg.type.reads s
  · exact Takes.fail s

theorem typeIndex (hg : g.Sound t) (b : Lexer.Border) : Reads t (g.typeIndex b) := by
  refine .look fun s => ?_
  split
  · exact Reads.cons (.punct _) (.cons (.opt hg.type.reads) (.cons (.punct _) .nil)) s
  · exact Takes.fail.reads s

theorem typeOperand (hg : g.Sound t) (b : Lexer.Border) (fuel : Nat) :
    Takes t (g.typeOperand b fuel) := by
  induction fuel with
  | zero => exact .fail
  | succ fuel ih =>
      have hplain : Takes t (all [g.primaryType b, g.star (g.typeIndex b)]) :=
        .first (hg.primaryType b) (.cons (star (hg.typeIndex b)) .nil)
      have hafter : ∀ tok : Token, Takes t (all [Parser.token tok, g.typeOperand b fuel]) :=
        fun tok => .later (.token tok) ih
      refine .look fun s => ?_
      dsimp only
      split
      · exact (hafter _).orElse hplain s
      · exact (hafter _).orElse hplain s
      · exact (hafter _).orElse hplain s
      · refine Takes.orElse (.first (.word _) (.cons (.name rfl) (.cons (.opt (.cons (.word _)
          (.cons ih.reads (.cons (.look fun s => ?_) .nil)))) .nil))) hplain s
        split
        · exact Takes.fail.reads s
        · exact Reads.nil s
      · exact hafter _ s
      · exact hplain s

theorem compoundType (hg : g.Sound t) (b : Lexer.Border) : Takes t (g.compoundType b) := by
  have hoperator : Reads t (Parser.orElse (punct .bar) (punct .amp)) :=
    .orElse (.punct _) (.punct _)
  refine .node rfl (.later (.opt hoperator) (.first (hg.typeOperand b _) (.cons (star ?_) .nil)))
  exact .cons hoperator (.cons (hg.typeOperand b _).reads .nil)

theorem typeRule (hg : g.Sound t) (b : Lexer.Border) : Takes t (g.typeRule b) := by
  refine .withNode (hg.compoundType b) fun n s => .look ?_
  split
  · refine .orElse (.extend rfl ?_) fun far => .pass
    exact .cons (.word _) (.cons hg.type.reads (.cons (.punct _) (.cons hg.type.reads
      (.cons (.punct _) (.cons (hg.takes _).reads .nil)))))
  · exact .pass

/-! ## Functions, classes and members -/

theorem functionExpression (hg : g.Sound t) : Takes t g.functionExpression :=
  .node rfl (.later (.opt (.word _)) (.first (.word _) (.cons (.opt (.punct _))
    (.cons (.opt (.name rfl)) (.cons (hg.signature _).reads (.cons hg.block.reads .nil))))))

theorem functionDeclaration (hg : g.Sound t) : Takes t g.functionDeclaration := by
  refine .node rfl (.later (.opt (.word _)) (.first (.word _) (.cons (.opt (.punct _))
    (.cons (.name rfl) (.cons (hg.signature _).reads (.cons (.look fun s => ?_) .nil))))))
  split
  · exact hg.block.reads s
  · exact Reads.semicolon _ s

theorem modifier (ws : List Word) : Reads t (Grammar.modifier ws) := by
  refine .look fun s => ?_
  split
  · dsimp only
    split
    · exact Reads.token _ s
    · exact Takes.fail.reads s
  · exact Takes.fail.reads s

theorem objectMember (hg : g.Sound t) : Takes t g.objectMember := by
  have hsignature : Reads t (all [Parser.opt (punct .question), g.signature .inner, g.block]) :=
    .cons (.opt (.punct _)) (.cons (hg.signature _).reads (.cons hg.block.reads .nil))
  dsimp only [Grammar.objectMember]
  refine .look fun s => ?_
  split
  · exact Takes.node rfl (.andThen (.punct _) hg.inner.reads) s
  split
  · exact Takes.node rfl (.later (star (modifier _)) (.later (.opt (.punct _))
      (.first hg.propertyName (.cons hsignature .nil)))) s
  · refine Takes.withNode hg.propertyName (fun key s => .look ?_) s
    split
    · exact .extend rfl hsignature
    · exact .extend rfl hsignature
    · exact .extend rfl hsignature
    · exact .extend rfl (.andThen (.punct _) hg.inner.reads)
    · split
      · exact .extend rfl (.andThen (.punct _) hg.inner.reads)
      · exact .fail
    · split
      · exact .extend rfl .nil
      · exact .fail

theorem object (hg : g.Sound t) (s : State) : YieldsAt t g.object s := by
  refine .withNode (.around rfl (.first (.punct _)
    (.cons (.commaHoles hg.objectMember.reads _) (.cons (.punct _) .nil))))
    fun n s => .look ?_
  split
  · split
    · exact .pass
    · exact .pass
    · exact .pass
    · exact .pass
    · exact .pass
    · exact .pass
    · exact .fail
  · exact .pass

theorem methodEnd (hg : g.Sound t) : Reads t g.methodEnd := by
  refine .look fun s => ?_
  split
  · exact Reads.andThen hg.block.reads (.opt (.semicolon _)) s
  · exact Reads.orElse (.punct _) (.semicolon _) s

theorem fieldEnd (hg : g.Sound t) : Reads t g.fieldEnd := by
  refine .andThen (.opt (hg.typeMark _).reads) (.look fun s => ?_)
  split
  · exact Reads.andThen (hg.initializer _).reads (.orElse (.punct _) (.semicolon _)) s
  · exact Reads.orElse (.punct _) (.semicolon _) s

theorem classMethod (hg : g.Sound t) : Reads t (all [g.signature .signature, g.methodEnd]) :=
  .cons (hg.signature _).reads (.cons hg.methodEnd .nil)

/-- A method or field of a class from the modifiers of methods on. -/
theorem namedClassMember (hg : g.Sound t) :
    Takes t (Parser.look fun s => if marksMethod s.tok s.advance.tok
      then all [g.star (Grammar.modifier [.kAsync, .kGet, .kSet]), Parser.opt (punct .star),
        g.propertyName, Parser.opt (punct .question), all [g.signature .signature, g.methodEnd]]
      else all [g.propertyName, Parser.opt (Parser.orElse (punct .question) (punct .bang)),
        Parser.look fun s => match s.tok with
          | .punct .lparen | .punct .lt =>
              if atLineEnd .bare s then g.fieldEnd else all [g.signature .signature, g.methodEnd]
          | _ => g.fieldEnd]) := by
  refine .look fun s => ?_
  split
  · exact Takes.later (star (modifier _)) (.later (.opt (.punct _)) (.first hg.propertyName
      (.cons (.opt (.punct _)) (.cons hg.classMethod .nil)))) s
  · refine Takes.first hg.propertyName (.cons (.opt (.orElse (.punct _) (.punct _)))
      (.cons (.look fun s => ?_) .nil)) s
    split
    · split
      · exact hg.fieldEnd s
      · exact hg.classMethod s
    · split
      · exact hg.fieldEnd s
      · exact hg.classMethod s
    · exact hg.fieldEnd s

theorem classMember (hg : g.Sound t) : Takes t g.classMember := by
  dsimp only [Grammar.classMember]
  refine .look fun s => ?_
  split
  · exact Takes.punct _ s
  · exact Takes.node rfl (.first (.word _) (.cons hg.block.reads .nil)) s
  · refine Takes.node rfl (.later (star hg.decorator.reads) (.later (star (modifier _))
      (.first (.look fun s => ?_) .nil))) s
    split
    · exact Takes.orElse (.first hg.indexKey (.cons (hg.mappedTypeMark _).reads
        (.cons (.orElse (.punct _) (.semicolon _)) .nil))) hg.namedClassMember s
    · exact hg.namedClassMember s

theorem classBody (hg : g.Sound t) : Takes t g.classBody :=
  .node rfl (.first (.punct _) (.cons (star hg.classMember.reads) (.cons (.punct _) .nil)))

theorem heritage (hg : g.Sound t) : Reads t g.heritage := by
  have hbase : Takes t (Parser.andThen (g.expr { Operand.whole with extended := true })
      (Parser.opt g.typeArguments)) := .andThen (hg.expr _) (.opt hg.typeArguments.reads)
  exact .andThen (.opt (.andThen (.word _) (hbase.commaSep _).reads))
    (.opt (.andThen (.word _) (hg.type.commaSep _).reads))

theorem classRule (hg : g.Sound t) {k : Kind} (hk : k.isPlain = true) :
    Takes t (g.classRule k) := by
  refine .node hk (.later (star hg.decorator.reads) (.later (.opt (.word _)) (.first (.word _)
    (.cons (.look fun s => ?_) (.cons (.opt hg.typeParameters.reads) (.cons hg.heritage
      (.cons hg.classBody.reads .nil)))))))
  split
  · exact Reads.nil s
  · exact Reads.nil s
  · exact Reads.name rfl s
  · exact Reads.nil s

end Grammar.Sound

end Promisify
