import Mathlib.Data.List.TakeDrop
import Promisify.Proofs.Expressions
import Promisify.Syntax.Grammar.Elements

set_option autoImplicit false

/-! # Elements are single nodes

Between tags the text is not made of tokens, so the children of an element are read from an offset on
(`Raw`). After a child the parser may already have skipped comments that are text here; they are
dropped again (`Step.reread`).
-/

namespace Promisify

open Promisify.Parser

/-- A step that goes on right after the last token, without the comments skipped behind it. -/
theorem Step.reread {t : Text} {lo : Nat} {a : Place} {ns ms : List Node} {s' s'' : State}
    (h₁ : Step t lo a ns s')
    (h₂ : Step t s'.prevStop (.raw s'.prevStop s'.atGap.comments) ms s'')
    (ha : ∀ c ∈ a.comments, c.stop ≤ s'.prevStop) (hlo : lo ≤ s'.prevStop)
    (hpos : a.pos ≤ s'.prevStop) : Step t lo a (ns ++ ms) s'' := by
  have hprev : s'.prevStop ≤ s''.prevStop := h₂.prev_le
  refine ⟨h₂.sound, Nat.le_trans hpos h₂.pos_le, Nat.le_trans h₁.prev_le hprev, ?_, ?_⟩
  · obtain ⟨new₁, hnew₁, hle₁⟩ := h₁.comments
    obtain ⟨new₂, hnew₂, hle₂⟩ := h₂.comments
    refine ⟨new₂ ++ new₁.filter fun c => c.stop ≤ s'.prevStop, ?_, ?_⟩
    · have hkept : (a.comments.filter fun c => c.stop ≤ s'.prevStop) = a.comments :=
        List.filter_eq_self.mpr fun c hc => decide_eq_true (ha c hc)
      rw [hnew₂]
      show new₂ ++ (s'.comments.filter fun c => c.stop ≤ s'.prevStop) = _
      rw [hnew₁, List.filter_append, hkept, List.append_assoc]
    · intro c hc
      rcases List.mem_append.mp hc with hc | hc
      · exact Nat.le_trans hpos (hle₂ c hc)
      · exact hle₁ c (List.mem_filter.mp hc).1
  · refine (h₁.laid.mono ?_ (Nat.le_refl _) (Nat.le_refl _)).append h₂.laid (Nat.le_refl _) hlo hprev
    intro c hc
    exact (h₂.mem_comments c hc).imp (fun hc => (List.mem_filter.mp hc).1) id

/-- The text up to a character. -/
theorem Text.span_ne {cs body rest : Text} {q c : Char}
    (h : cs.span (· != q) = (body, c :: rest)) : cs = body ++ q :: rest := by
  rw [List.span_eq_takeWhile_dropWhile, Prod.mk.injEq] at h
  obtain ⟨hbody, hrest⟩ := h
  have hc := List.head?_dropWhile_not (· != q) cs
  rw [hrest] at hc
  have hc' : c = q := by simpa using hc
  calc cs = cs.takeWhile (· != q) ++ cs.dropWhile (· != q) :=
        List.takeWhile_append_dropWhile.symm
    _ = body ++ q :: rest := by rw [hbody, hrest, hc']

namespace Grammar.Sound

variable {t : Text} {g : Grammar} {s : State}

/-! ## Tags -/

theorem tagName : Takes t Grammar.tagName := by
  refine .look fun s => ?_
  split
  · next htok =>
      intro ns s' hs h
      dsimp only at h
      have happ := Text.munch_append Grammar.tagNameUnit 0 s.here
      have hfrom := hs.here
      rw [← happ] at hfrom
      have hlt := hs.token (by simp [htok])
      split at h
      · exact TakesAt.leaf rfl (by simp [htok]) ns s' hs h
      · next hstop =>
          cases h
          have hlt' : s.start <
              s.start + Text.size (Text.munch Grammar.tagNameUnit 0 s.here).1 := by omega
          exact ⟨step_leaf (.inl rfl) hs hfrom.append hlt', hlt'⟩
  · exact Takes.fail s

theorem elementName : Takes t g.elementName :=
  .first tagName (.cons (.opt (.cons (.punct _) (.cons tagName.reads .nil)))
    (.cons (star (.cons (.punct _) (.cons tagName.reads .nil))) .nil))

theorem attributeString : Takes t Grammar.attributeString := by
  intro s ns s' hs h
  unfold Grammar.attributeString at h
  split at h
  · next q cs hhere =>
      split at h
      · split at h
        · next body q' rest hspan =>
            cases h
            have hfrom := hs.here
            rw [hhere, Text.span_ne hspan, ← List.cons_append, List.append_cons] at hfrom
            have hlt : s.start < s.start + Text.size (q :: body ++ [q]) :=
              Nat.lt_add_of_pos_right (Text.size_pos (by simp))
            exact ⟨step_leaf (.inl rfl) hs hfrom.append hlt, hlt⟩
        · cases h
      · cases h
  · cases h

/-- What stands in braces, up to the closing one. -/
theorem braceBody (hg : g.Sound t) : Takes t (all [punct .lbrace, Parser.look fun s =>
    match s.tok with
    | .punct .rbrace => Parser.pass []
    | .punct .ellipsis => Parser.node .spread (Parser.andThen (punct .ellipsis) g.inner)
    | _ => g.sequence .whole]) := by
  refine .first (.punct _) (.cons (.look fun s => ?_) .nil)
  split
  · exact Reads.nil s
  · exact (Takes.node rfl (.andThen (.punct _) hg.inner.reads)).reads s
  · exact (hg.sequence _).reads s

theorem braces (hg : g.Sound t) {after : Nat → Text → Parser} (hafter : Raw t after) :
    Takes t (g.braces after) := by
  intro s ns s' hs h
  unfold Grammar.braces at h
  dsimp only at h
  split at h
  · next ns₁ s₁ h₁ =>
      obtain ⟨hstep, hlt⟩ := hg.braceBody s ns₁ s₁ hs h₁
      have hprev := hstep.sound.prevStop_le
      have hstop := hstep.sound.start_le
      split at h
      · split at h
        · next ms s₂ h₂ =>
            cases h
            have hrest := hafter.afterToken hstep.sound h₂
            have hprev' : s₁.stop ≤ s'.prevStop := hrest.prev_le
            refine ⟨hstep.closed hrest rfl (by omega) ?_ (Nat.le_refl _), by omega⟩
            exact hs.free_start.mono hstep.mem_comments
        · cases h
      · cases h
  · cases h

theorem tokensFrom : Raw t Grammar.tokensFrom := by
  intro pos raw s ns s' hraw htidy hold h
  cases h
  exact State.resume_step rfl htidy hold hraw (Nat.le_refl _) (Nat.le_refl _)

theorem elementAttribute (hg : g.Sound t) : Takes t g.elementAttribute := by
  refine .look fun s => ?_
  split
  · exact hg.braces tokensFrom s
  · refine Takes.node rfl (.first tagName (.cons (.opt (.cons (.punct _) (.cons tagName.reads .nil)))
      (.cons (.opt (.cons (.punct _) (.cons (.look fun s => ?_) .nil))) .nil))) s
    split
    · exact (hg.braces tokensFrom).reads s
    · exact (hg.takes _).reads s
    · exact attributeString.reads s

/-! ## Children -/

/-- Text between tags. -/
theorem step_text {pos : Nat} {chars after : Text} (hraw : t.From pos (chars ++ after))
    (htidy : Tidy t s.comments) (hold : ∀ c ∈ s.comments, c.stop ≤ pos) :
    Step t pos (.raw pos s.comments)
      (if chars.isEmpty then [] else [Node.leaf .jsxText pos (pos + Text.size chars)])
      (s.resume (pos + Text.size chars) after) := by
  have hle := Nat.le_add_right pos (Text.size chars)
  have hstep : Step t pos (.raw pos s.comments) [] (s.resume (pos + Text.size chars) after) :=
    State.resume_step rfl htidy (fun c hc => Nat.le_trans (hold c hc) hle) hraw.append hle hle
  split
  · exact hstep
  · next hne =>
      have hlt : pos < pos + Text.size chars :=
        Nat.lt_add_of_pos_right (Text.size_pos (by simpa using hne))
      refine hstep.withNodes (Laid.singleton ?_ (Nat.le_refl _) (Nat.le_refl _))
      refine hstep.laid.node hlt ⟨hraw.isBorder, ?_⟩ hstep.sound.free_prevStop
        (Node.headed_leaf (.inl rfl) _ _)
      intro c hc
      exact (hstep.mem_comments c hc).imp (hold c) id

/-- A child that is an element, and the children after it. -/
theorem childElement (hg : g.Sound t) {rest : Nat → Text → Parser} (hrest : Raw t rest) :
    Reads t fun s => match g.read .element s with
      | .ok ns s' => andThen (pass ns) (rest s'.prevStop s'.gap) s'.atGap
      | .stuck far => .stuck far := by
  intro s ns s' hs h
  dsimp only at h
  split at h
  · next ns₁ s₁ h₁ =>
      obtain ⟨hstep, hlt⟩ := hg.takes .element s ns₁ s₁ hs h₁
      obtain ⟨ns₂, s₂, ms, hpass, h₂, rfl⟩ := andThen_eq_ok h
      cases hpass
      -- what was skipped behind the element is text of its parent
      have hkept : ∀ c ∈ s₁.atGap.comments, c.stop ≤ s₁.prevStop := fun c hc =>
        of_decide_eq_true (List.mem_filter.mp hc).2
      have hstep₂ := hrest _ _ _ ms s' hstep.sound.gap (hstep.sound.tidy.filter _) hkept h₂
      refine hstep.reread hstep₂ ?_ (Nat.le_of_lt hlt) (Nat.le_of_lt hlt)
      intro c hc
      exact Nat.le_trans (hs.comments_le c hc) (Nat.le_of_lt hlt)
  · cases h

theorem elementChildren (hg : g.Sound t) (fuel : Nat) : Raw t (g.elementChildren fuel) := by
  induction fuel with
  | zero =>
      intro pos raw s ns s' hraw htidy hold h
      cases h
  | succ fuel ih =>
      have hclosing : Reads t (all [punct .lt, punct .slash, Parser.opt g.elementName,
          Parser.look fun s => if s.tok == .punct .gt then Parser.pass [] else Parser.fail]) := by
        refine .cons (.punct _) (.cons (.punct _) (.cons (.opt elementName.reads)
          (.cons (.look fun s => ?_) .nil)))
        split
        · exact Reads.nil s
        · exact Takes.fail.reads s
      intro pos raw s ns s' hraw htidy hold h
      rw [← Text.munch_append Grammar.textUnit 0 raw] at hraw
      have htext := step_text hraw htidy hold
      simp only [Grammar.elementChildren] at h
      obtain ⟨ns₁, s₁, ms, hpass, hrest, rfl⟩ := andThen_eq_ok h
      cases hpass
      refine htext.andThen ((?_ : ReadsAt t _ _) ms s' htext.sound hrest) (Nat.le_refl _)
      split
      · exact (hg.braces ih).reads _
      · refine Reads.look (fun s => ?_) _
        split
        · exact hclosing s
        · exact hg.childElement ih s
      · exact Takes.fail.reads _

/-- The children of an element after the last character of its tag. -/
theorem stepChildren (hg : g.Sound t) {rest : Text} {fuel : Nat} {ms : List Node} {s' : State}
    (hs : s.Sound t) (hhere : s.here = '>' :: rest)
    (h : g.elementChildren fuel (s.start + 1) rest s = .ok ms s') :
    Step t s.start s.place ms s' := by
  have hfrom := hs.here
  rw [hhere] at hfrom
  have hold : ∀ c ∈ s.comments, c.stop ≤ s.start + 1 := fun c hc =>
    Nat.le_succ_of_le (hs.comments_le c hc)
  have hstep := hg.elementChildren fuel (s.start + 1) rest s ms s' (hfrom.append (u := ['>']))
    hs.tidy hold h
  have hle := Nat.le_succ s.start
  exact hstep.earlier rfl hle (Nat.le_trans hs.prevStop_le hle) hle

/-! ## Elements -/

/-- The last character of a tag. -/
theorem step_angle {rest : Text} (hs : s.Sound t) (h : s.here = '>' :: rest) :
    Step t s.start s.place [] (s.retake ['>'] rest) := by
  have hfrom := hs.here
  rw [h] at hfrom
  exact hs.resume (hfrom.append (u := ['>'])) (Nat.le_add_right _ _)

theorem opening (hg : g.Sound t) : Takes t (all [punct .lt, Parser.look fun s =>
    match s.tok with
    | .punct _ => Parser.pass []
    | _ => all [g.elementName, Parser.opt g.typeArguments, g.star g.elementAttribute]]) := by
  refine .first (.punct _) (.cons (.look fun s => ?_) .nil)
  split
  · exact Reads.nil s
  · exact Reads.cons elementName.reads (.cons (.opt hg.typeArguments.reads)
      (.cons (star hg.elementAttribute.reads) .nil)) s

/-- An element is one node, and it ends with the character after what was read of it. -/
theorem elementRule_eq_ok (hg : g.Sound t) {ns : List Node} {s' : State}
    (h : g.elementRule s = .ok ns s') :
    ∃ ms s₁ rest, s₁.here = '>' :: rest ∧ s' = s₁.retake ['>'] rest ∧
      ns = [.mk .jsxElement none s.start (s₁.start + 1) ms] ∧
      (s.Sound t → Step t s.start s.place ms s₁) := by
  unfold Grammar.elementRule at h
  dsimp only at h
  split at h
  · next ns₁ s₁ h₁ =>
      split at h
      · split at h
        · next rest hhere =>
            cases h
            refine ⟨ns₁, s₁.advance, rest, hhere, rfl, rfl, fun hs => ?_⟩
            obtain ⟨hstep, -⟩ := hg.opening s ns₁ s₁ hs h₁
            have hadvance := hstep.andThen (step_advance hstep.sound _) (Nat.le_refl _)
            rw [List.append_nil] at hadvance
            exact hadvance
        · cases h
      · next hhere =>
          split at h
          · next ms s₂ h₂ =>
              split at h
              · next rest' hhere' =>
                  cases h
                  refine ⟨ns₁ ++ ms, s₂, rest', hhere', rfl, rfl, fun hs => ?_⟩
                  obtain ⟨hstep, -⟩ := hg.opening s ns₁ s₁ hs h₁
                  exact hstep.andThen (hg.stepChildren hstep.sound hhere h₂) (Nat.le_refl _)
              · cases h
          · cases h
      · cases h
  · cases h

theorem elementRule (hg : g.Sound t) (s : State) : YieldsAt t g.elementRule s := by
  refine ⟨?_, ?_⟩
  · intro ns s' hs h
    obtain ⟨ms, s₁, rest, hhere, rfl, rfl, hms⟩ := hg.elementRule_eq_ok h
    have hstep := hms hs
    have hstep' := hstep.andThen (step_angle hstep.sound hhere) (Nat.le_refl _)
    rw [List.append_nil] at hstep'
    have hlt : s.start < s₁.start + 1 := Nat.lt_succ_of_le hstep.pos_le
    exact ⟨hstep'.node hs hlt (Node.headed_of_isPlain rfl _ _ _), hlt⟩
  · intro ns s' h
    obtain ⟨ms, s₁, rest, -, rfl, rfl, -⟩ := hg.elementRule_eq_ok h
    exact ⟨_, rfl, rfl, rfl, rfl⟩

end Grammar.Sound

end Promisify
