import Promisify.Proofs.Comments
import Promisify.Proofs.Plans
import Promisify.Proofs.Shifting
import Promisify.Proofs.Statements

set_option autoImplicit false

/-! # Parsed files are well-formed

The grammar is sound at every depth, by induction on the depth: the rules are sound when the phrases
inside them are. A program is read statement by statement, each afresh, in one step from the start of
the text to its end; so its tree is well-formed, first without its comments and then with them.
-/

namespace Promisify

open Promisify.Parser

variable {t : Text} {d : Dialect}

/-! ## Programs -/

namespace Grammar

theorem Sound.rule {g : Grammar} (hg : g.Sound t) (goal : Goal) : Takes t (g.rule goal) := by
  cases goal with
  | expression c => exact fun s => (hg.expressionRule c s).takes
  | type b => exact hg.typeRule b
  | statement => exact hg.statementRule
  | binding => exact hg.bindingRule
  | element => exact fun s => (hg.elementRule s).takes

/-- **The grammar is sound at every depth.** -/
theorem reader_sound (d : Dialect) (depth fuel : Nat) :
    Grammar.Sound t ⟨fuel, d, Grammar.reader d depth⟩ := by
  induction depth generalizing fuel with
  | zero =>
      have hfail : Single Parser.fail := fun _ => (YieldsAt.fail (t := t)).single
      exact ⟨fun _ => .fail, fun _ => hfail, hfail⟩
  | succ depth ih =>
      have hg := ih depth
      exact ⟨hg.rule, fun c s => (hg.expressionRule c s).single,
        fun s => (hg.elementRule s).single⟩

end Grammar

theorem reads_hashBang : Reads t hashBang := by
  intro s ns s' hs h
  unfold hashBang at h
  split at h
  · next rest hhere =>
      rw [List.span_eq_takeWhile_dropWhile] at h
      cases h
      have hfrom := hs.here
      rw [← List.takeWhile_append_dropWhile (p := (· != '\n')) (l := s.here)] at hfrom
      have hne : s.here.takeWhile (· != '\n') ≠ [] := by
        rw [hhere]
        simp
      have hlt : s.start < s.start + Text.size (s.here.takeWhile (· != '\n')) :=
        Nat.lt_add_of_pos_right (Text.size_pos hne)
      exact step_leaf (.inl rfl) hs hfrom.append hlt
  · cases h
    exact Step.refl hs _

theorem takes_topStatement (d : Dialect) : Takes t (topStatement d) :=
  .afresh fun _ => (Grammar.reader_sound d _ _).statement

theorem reads_program (d : Dialect) (v : Text) : Reads t (program d v) :=
  .cons reads_hashBang (.cons ((takes_topStatement d).reads.many _) (.cons (.token _) .nil))

/-! ## Trees -/

theorem Node.Placed.settled {cs : List Span} {n : Node} (h : n.Placed t cs) : n.Settled 0 where
  fits := h.fits
  edged := h.edged
  comment := fun hn => absurd hn h.code
  front := fun o ho c hc hle => absurd hle (Nat.not_le_of_lt (h.front o ho c hc))

/-- The root over the statements of a program. -/
theorem placed_root {cs : List Span} {lo hi : Nat} {ns : List Node} (h : Laid t cs lo ns hi)
    (hhi : hi ≤ Text.size t) (hcs : ∀ c ∈ cs, c.stop ≤ Text.size t) :
    ∀ m ∈ (Node.mk .program none 0 (Text.size t) ns).preorder, m.Placed t cs := by
  have hlaid : Laid t cs 0 ns (Text.size t) :=
    h.mono (fun c hc => Or.inl hc) (Nat.zero_le lo) hhi
  intro m hm
  rcases Node.mem_preorder.mp hm with rfl | hm
  · exact hlaid.placed ⟨t.isBorder_zero, fun c _ => Or.inr (Nat.zero_le c.start)⟩
      ⟨t.isBorder_size, fun c hc => Or.inl (hcs c hc)⟩ (Node.headed_of_isPlain rfl _ _ _)
  · obtain ⟨n, hn, hmn⟩ := Node.mem_descendants.mp hm
    exact (hlaid.sound n hn).placed m hmn

/-- What reading a text comes to: the text is read in one step, and the comments met are added to the
tree. -/
theorem parse?_eq_ok {f : SourceFile} (h : parse? d t = .ok f) :
    ∃ lo ns s, Step t lo (State.initial t).place ns s ∧
      f = ⟨t, s.comments.foldr Node.addComment (.mk .program none 0 (Text.size t) ns)⟩ := by
  unfold parse? at h
  split at h
  · next ns s hs =>
      cases h
      have hstep := reads_program d t _ ns s (State.initial_sound t) hs
      exact ⟨_, ns, s, hstep, rfl⟩
  · cases h

/-- A parsed file has the text that was read. -/
theorem parse?_text {f : SourceFile} (h : parse? d t = .ok f) : f.text = t := by
  obtain ⟨lo, ns, s, -, rfl⟩ := parse?_eq_ok h
  rfl

/-- **Every node of a parsed file is settled** and stands between characters of the text. -/
theorem parse?_settled {f : SourceFile} (h : parse? d t = .ok f) :
    ∀ m ∈ f.root.preorder,
      m.Settled (Text.size t) ∧ t.IsBorder m.start ∧ t.IsBorder m.stop := by
  obtain ⟨lo, ns, s, hstep, rfl⟩ := parse?_eq_ok h
  have htidy := hstep.sound.tidy
  have hcs : ∀ c ∈ s.comments, c.stop ≤ Text.size t := fun c hc =>
    (htidy.borders c hc).2.le_size
  have hplaced := placed_root hstep.laid hstep.sound.gap.isBorder.le_size hcs
  have hsettled := settled_addComments htidy (fun m hm => (hplaced m hm).settled)
    (fun c hc m hm => ⟨(hplaced m hm).start.2 c hc, (hplaced m hm).stop.2 c hc⟩)
    (fun c hc => Node.within_iff.mpr ⟨Nat.zero_le _, hcs c hc⟩) hcs
  intro m hm
  refine ⟨hsettled m hm, ?_⟩
  rcases ends_addComments hm with ⟨c, hc, hstart, hstop⟩ | ⟨n, hn, hstart, hstop⟩
  · rw [hstart, hstop]
    exact htidy.borders c hc
  · rw [hstart, hstop]
    exact ⟨(hplaced n hn).start.1, (hplaced n hn).stop.1⟩

/-- **A parsed file is well-formed.** -/
theorem parse?_wellFormed {f : SourceFile} (h : parse? d t = .ok f) : f.WellFormed where
  tree := fun m hm => (parse?_settled h m hm).1.fits
  borders := by
    intro m hm
    rw [parse?_text h]
    exact (parse?_settled h m hm).2

/-- **The operations of a parsed file** start with their operand or in front of it. -/
theorem parse?_edged {f : SourceFile} (h : parse? d t = .ok f) :
    ∀ m ∈ f.root.preorder, m.Edged := fun m hm => (parse?_settled h m hm).1.edged

/-- **The arguments of a parsed file** are enclosed. -/
theorem parse?_enclosed {f : SourceFile} (h : parse? d t = .ok f) :
    ∀ m ∈ f.root.preorder, m.kind = .arguments → m.Enclosed t := by
  obtain ⟨lo, ns, s, hstep, rfl⟩ := parse?_eq_ok h
  have hcs : ∀ c ∈ s.comments, c.stop ≤ Text.size t := fun c hc =>
    (hstep.sound.tidy.borders c hc).2.le_size
  have hplaced := placed_root hstep.laid hstep.sound.gap.isBorder.le_size hcs
  exact enclosed_addComments (fun m hm => (hplaced m hm).enclosed) _

end Promisify
