import Promisify.Proofs.ImportEdits

set_option autoImplicit false

/-! # Imports in front of a program

A program that starts with imports stays a program when its imports are changed one by one: an import may
become another import or go away with its line break, and a new one may be put in front of it. Each is
written out up to its semicolon or ends with its line, and then what comes behind it has to resume. The
statements behind the imports are read as before, because they are read from the same text.
-/

namespace Promisify

open Lexer Lexeme Promisify.Parser

variable {d : Dialect} {t v w z : Text} {rows : List Row} {es es' : List Edit} {ps : List ImportPhrase}

/-! ## Statements behind skipped text -/

theorem trivia_append_eq (v : Text) : (trivia v).1 ++ (trivia v).2 = v := Text.munch_append triviaUnit 0 v

/-- What is skipped whatever follows does not matter for the statements. -/
theorem Lexer.Filler.statements_iff {x : Text} (hx : Filler x) :
    Statements d (x ++ z) rows ↔ Statements d z rows := by
  have htrivia : (trivia (x ++ z)).2 = (trivia z).2 := by rw [hx.trivia_append]
  constructor
  · intro h
    generalize hv : x ++ z = v at h
    cases h with
    | done hnone =>
        subst hv
        exact .done (htrivia.symm.trans hnone)
    | next hstated hrest =>
        subst hv
        rw [htrivia] at hstated ⊢
        exact .next hstated hrest
  · intro h
    cases h with
    | done hnone => exact .done (htrivia.trans hnone)
    | next hstated hrest =>
        rw [← htrivia] at hstated ⊢
        exact .next hstated hrest

/-- The row is the statement of the import `p`. -/
structure Row.Opens (r : Row) (p : ImportPhrase) : Prop where
  sound : p.Sound
  kind : r.node.kind = .importStatement
  text : ∃ u, r.text = join p.lexemes ++ u
  callless : r.node.Callless

/-- How an import ends with `w` behind it: with a semicolon, or with its line if lines count. -/
inductive Ends (lined : Bool) : Text → Text → Prop
  | semicolon (w : Text) : Ends lined [';'] w
  | line {w : Text} (h : lined = true) (hover : lineIsOver w = true) : Ends lined [] w

/-- Other text on the next line leaves the end of an import as it is. -/
theorem Ends.replace {lined : Bool} {m y : Text} (h : Ends lined m w) (hend : (trivia w).2 = [] → y = []) :
    Ends lined m ((trivia w).1 ++ y) := by
  cases h with
  | semicolon => exact .semicolon _
  | line h hover =>
      refine .line h (lineIsOver_replace (trivia_skips w 0).2 ?_ hend)
      rw [trivia_append_eq]
      exact hover

/-- **An import in front of statements is one more statement.** -/
theorem ImportPhrase.Sound.statements {lined : Bool} {m : Text} {p : ImportPhrase} (hp : p.Sound)
    (hm : Ends lined m w) (hw : lined = true → resumes w = true) (h : Statements d w rows) :
    ∃ r, Row.Opens r p ∧ Statements d (join p.lexemes ++ (m ++ w)) (r :: rows) := by
  have htrivia := hp.trivia_eq (m ++ w)
  have hread : ∃ n, Stated d (join p.lexemes ++ (m ++ w)) n w ∧ n.Callless := by
    cases hm with
    | semicolon =>
        obtain ⟨n, hstated, -, hcalls⟩ := hp.stated_closed d w
        exact ⟨n, hstated, hcalls⟩
    | line hlined hover =>
        obtain ⟨n, hstated, -, hcalls⟩ := hp.stated_open d hover (hw hlined)
        exact ⟨n, hstated, hcalls⟩
  obtain ⟨n, hstated, hcalls⟩ := hread
  have hkind := (hp.importDecl? hstated n).1
  refine ⟨⟨(trivia (join p.lexemes ++ (m ++ w))).2, n⟩, ⟨hp, hkind, ⟨m ++ w, htrivia⟩, hcalls⟩,
    .next ?_ h⟩
  rw [htrivia]
  exact hstated

/-- An import is a statement at the end of a text. -/
theorem ImportPhrase.Sound.statements_last {p : ImportPhrase} (hp : p.Sound) (d : Dialect) :
    ∃ r, Row.Opens r p ∧ Statements d (join p.lexemes) [r] := by
  have hends : Ends true [] [] := .line rfl rfl
  obtain ⟨r, hr, h⟩ := hp.statements hends (fun _ => rfl) (.done (d := d) (v := []) rfl)
  rw [List.append_nil, List.append_nil] at h
  exact ⟨r, hr, h⟩

/-! ## One statement changed -/

/-- How edits change a statement at the offset `pos`, from which on the text is `b`, with `w` behind the
statement. The imports `ps` stand in its place. -/
inductive Altered (lined : Bool) (pos : Nat) (b w : Text) : List Edit → List ImportPhrase → Prop
  | patched {p p' : ImportPhrase} {m : Text} {es : List Edit} (hb : b = join p.lexemes ++ (m ++ w))
      (hm : Ends lined m w) (hp : p'.Sound) (h : Patched pos (join p.lexemes) es (join p'.lexemes)) :
      Altered lined pos b w es [p']
  | deleted {u x w' : Text} (hb : b = u ++ w) (hw : w = x ++ w') (hx : ∀ c ∈ x, isBlank c = true) :
      Altered lined pos b w [.deletion ⟨pos, pos + Text.size (u ++ x)⟩] []
  | inserted {p : ImportPhrase} {m x : Text} {es : List Edit} {ps : List ImportPhrase} (hp : p.Sound)
      (hm : ∀ z, Ends lined m (x ++ z)) (hx : ∀ c ∈ x, isBlank c = true) (h : Altered lined pos b w es ps) :
      Altered lined pos b w (.insertion pos (join p.lexemes ++ (m ++ x)) :: es) (p :: ps)

/-- An insertion at the start of a stretch. -/
theorem Patched.insert {pos : Nat} {r : Text} (x : Text) (h : Patched pos v es r) :
    Patched pos v (.insertion pos x :: es) (x ++ r) := .edit [] [] rfl h

/-- Blanks in front do not matter for the statements. -/
theorem statements_blanks {x : Text} (hx : ∀ c ∈ x, isBlank c = true) (h : Statements d z rows) :
    Statements d (x ++ z) rows ∧ resumes (x ++ z) = resumes z :=
  ⟨(filler_blanks hx).statements_iff.mpr h, resumes_append (filler_blanks hx) (leading_blanks hx) z⟩

/-- **A changed statement in front of statements** is as many statements as there are imports in its
place. -/
theorem Altered.exists_statements {lined : Bool} {pos : Nat} {b u y : Text}
    (h : Altered lined pos b w es ps) (hb : b = u ++ w)
    (hpatched : Patched (pos + Text.size u + Text.size (trivia w).1) (trivia w).2 es' y)
    (hrest : Statements d ((trivia w).1 ++ y) rows)
    (hlined : lined = true → resumes ((trivia w).1 ++ y) = true) (hend : (trivia w).2 = [] → y = []) :
    ∃ z us, Patched pos b (es ++ es') z ∧ Statements d z (us ++ rows) ∧
      List.Forall₂ Row.Opens us ps ∧ (lined = true → resumes z = true) := by
  have hbehind : Patched (pos + Text.size u) w es' ((trivia w).1 ++ y) := by
    have hprepend := Patched.prepend (trivia w).1 hpatched
    rwa [trivia_append_eq] at hprepend
  induction h with
  | @patched p p' m es hbp hm hp hes =>
      subst hb
      have hu : u = join p.lexemes ++ m := by
        have hsame : u ++ w = (join p.lexemes ++ m) ++ w := by rw [hbp, List.append_assoc]
        exact List.append_cancel_right hsame
      subst hu
      obtain ⟨r, hopens, hstatements⟩ := hp.statements (hm.replace hend) hlined hrest
      refine ⟨join p'.lexemes ++ (m ++ ((trivia w).1 ++ y)), [r], ?_, hstatements, .cons hopens .nil,
        fun _ => hp.resuming _⟩
      rw [hbp]
      refine hes.append (Patched.prepend m ?_)
      rw [Nat.add_assoc, ← Text.size_append]
      exact hbehind
  | @deleted u' x w' hbu hw hx =>
      have hu : u' = u := List.append_cancel_right (hbu.symm.trans hb)
      subst hu
      subst hw
      have htrivia := (filler_blanks hx).trivia_append w'
      rw [htrivia] at hpatched hrest hlined
      rw [List.append_assoc] at hrest hlined
      have hstatements := (filler_blanks hx).statements_iff.mp hrest
      rw [(statements_blanks hx hstatements).2] at hlined
      refine ⟨(trivia w').1 ++ y, [], ?_, hstatements, .nil, hlined⟩
      rw [hb, ← List.append_assoc]
      refine Patched.cut (u' ++ x) ?_
      have hprepend : Patched (pos + Text.size (u' ++ x)) ((trivia w').1 ++ (trivia w').2) es'
          ((trivia w').1 ++ y) := by
        refine Patched.prepend _ ?_
        simp only [Text.size_append, Nat.add_assoc] at hpatched ⊢
        exact hpatched
      rwa [trivia_append_eq] at hprepend
  | @inserted p m x es ps hp hm hx _ ih =>
      obtain ⟨z, us, hz, hstatements, hopens, hresumes⟩ := ih
      obtain ⟨hspaced, hsame⟩ := statements_blanks hx hstatements
      obtain ⟨r, hr, hall⟩ := hp.statements (hm z) (by rw [hsame]; exact hresumes) hspaced
      refine ⟨join p.lexemes ++ (m ++ (x ++ z)), r :: us, ?_, hall, .cons hr hopens, fun _ => hp.resuming _⟩
      have hinsert := hz.insert (join p.lexemes ++ (m ++ x))
      simpa using hinsert

/-! ## The imports in front changed -/

/-- The rows of statements other than imports. -/
def Row.others (rows : List Row) : List Row := rows.filter fun r => r.node.kind != .importStatement

theorem Row.others_append {us : List Row} (h : ∀ r ∈ us, ∃ p, r.Opens p) (rows : List Row) :
    others (us ++ rows) = others rows := by
  have hnone : others us = [] := by
    refine List.filter_eq_nil_iff.mpr ?_
    intro r hr
    obtain ⟨p, hopens⟩ := h r hr
    simp [hopens.kind]
  rw [others, List.filter_append, ← others, hnone, List.nil_append, others]

/-- The edits `E` change imports in front of the statements `ns` and may put an import in front of the
first statement behind these. What stands in place of a statement satisfies `Q`. -/
structure Preface (lined : Bool) (d : Dialect) (t : Text) (leads : Node → Bool) (E : Node → List Edit)
    (Q : Node → List ImportPhrase → Prop) (ns : List Node) : Prop where
  front : ∀ n ∈ ns.takeWhile leads, ∀ (r : Row) (w : Text), r.Shows t n →
    triviaUnit r.text = 0 → Stated d r.text r.node w → (∃ p, r.Opens p) ∧
      (lined = true → nextLineHead 0 w = some (trivia w).2) ∧
      ∃ ps, Altered lined n.start r.text w (E n) ps ∧ Q n ps
  next : ∀ n ∈ (ns.dropWhile leads).head?, (lined = true → ∀ v, t.From n.start v → resumes v = true) ∧
    ((E n = [] ∧ Q n []) ∨ ∃ p m x, p.Sound ∧ (∀ z, Ends lined m (x ++ z)) ∧
      (∀ c ∈ x, isBlank c = true) ∧ E n = [.insertion n.start (join p.lexemes ++ (m ++ x))] ∧ Q n [p])
  back : ∀ n ∈ (ns.dropWhile leads).tail, E n = [] ∧ Q n []

/-- The imports `us` stand in place of the imports `front` of the statements `ns`, and the rows `back` of
those behind them stay. What stands in place of a statement satisfies `Q`. -/
structure Reworked (t : Text) (leads : Node → Bool) (Q : Node → List ImportPhrase → Prop)
    (ns : List Node) (front us back : List Row) : Prop where
  front : ∀ r ∈ front, ∃ p, r.Opens p
  back : List.Forall₂ (Row.Shows t) back (ns.dropWhile leads)
  fills : ∀ n ∈ ns, ∃ ps, Q n ps ∧ ∀ p ∈ ps, ∃ r ∈ us, r.Opens p
  comes : ∀ r ∈ us, ∃ n ∈ ns, ∃ ps, Q n ps ∧ ∃ p ∈ ps, r.Opens p

theorem Reworked.opens {leads : Node → Bool} {Q : Node → List ImportPhrase → Prop} {ns : List Node}
    {front us back : List Row} (h : Reworked t leads Q ns front us back) : ∀ r ∈ us, ∃ p, r.Opens p := by
  intro r hr
  obtain ⟨n, -, ps, -, p, -, hopens⟩ := h.comes r hr
  exact ⟨p, hopens⟩

/-- The edits `E` of the statements `ns` turn the text `b` at the offset `pos`, with `x` skipped in front of
it, into statements again: other imports stand in front of those of `rows` that stay. -/
def Refits (lined : Bool) (d : Dialect) (t : Text) (leads : Node → Bool) (E : Node → List Edit)
    (Q : Node → List ImportPhrase → Prop) (x : Text) (pos : Nat) (b : Text) (ns : List Node)
    (rows : List Row) : Prop :=
  ∃ y front us back, Patched pos b (ns.flatMap E) y ∧ Statements d (x ++ y) (us ++ back) ∧
    (lined = true → resumes y = true) ∧ (b = [] → y = []) ∧ rows = front ++ back ∧
    Reworked t leads Q ns front us back

namespace Preface

variable {lined : Bool} {leads : Node → Bool} {E : Node → List Edit}
  {Q : Node → List ImportPhrase → Prop} {m n : Node} {ns : List Node} {pos : Nat}

theorem tail (h : Preface lined d t leads E Q (m :: ns)) (hm : leads m = true) :
    Preface lined d t leads E Q ns := by
  obtain ⟨hfront, hnext, hback⟩ := h
  rw [List.takeWhile_cons_of_pos hm] at hfront
  rw [List.dropWhile_cons_of_pos hm] at hnext hback
  exact ⟨fun n hn => hfront n (List.mem_cons_of_mem m hn), hnext, hback⟩

/-- A changed import, then the statements behind it. -/
theorem refits_front {u : Text} {r : Row} (hm : leads m = true) (hr : ∃ p, r.Opens p) (hu : u ≠ [])
    (halter : Altered lined pos (u ++ w) w (E m) ps) (hQ : Q m ps)
    (hw : lined = true → nextLineHead 0 w = some (trivia w).2)
    (h : Refits lined d t leads E Q (trivia w).1 (pos + Text.size u + Text.size (trivia w).1) (trivia w).2
      ns rows) :
    Refits lined d t leads E Q [] pos (u ++ w) (m :: ns) (r :: rows) := by
  obtain ⟨y, front, us', back, hy, hstatements, hresumes, hend, rfl, hfront, hback, hfills, hcomes⟩ := h
  obtain ⟨z, us, hz, hzs, hopens, hzresumes⟩ := halter.exists_statements rfl hy hstatements
    (fun hlined => resumes_replace (hw hlined) (hresumes hlined) hend) hend
  rw [← List.append_assoc] at hzs
  refine ⟨z, r :: front, us ++ us', back, by rw [List.flatMap_cons]; exact hz, hzs, hzresumes,
    fun hnone => absurd (List.append_eq_nil_iff.mp hnone).1 hu, rfl, ?_, ?_, ?_, ?_⟩
  · intro q hq
    rcases List.mem_cons.mp hq with rfl | hq
    · exact hr
    · exact hfront q hq
  · rw [List.dropWhile_cons_of_pos hm]
    exact hback
  · intro n hn
    rcases List.mem_cons.mp hn with rfl | hn
    · refine ⟨ps, hQ, ?_⟩
      intro p hp
      obtain ⟨r, hr, hrp⟩ := exists_related hopens hp
      exact ⟨r, List.mem_append_left _ hr, hrp⟩
    · obtain ⟨qs, hQ', hqs⟩ := hfills n hn
      refine ⟨qs, hQ', ?_⟩
      intro p hp
      obtain ⟨r, hr, hrp⟩ := hqs p hp
      exact ⟨r, List.mem_append_right _ hr, hrp⟩
  · intro q hq
    rcases List.mem_append.mp hq with hq | hq
    · obtain ⟨p, hp, hqp⟩ := exists_related hopens.flip hq
      exact ⟨m, List.mem_cons_self, ps, hQ, p, hp, hqp⟩
    · obtain ⟨n, hn, hcome⟩ := hcomes q hq
      exact ⟨n, List.mem_cons_of_mem m hn, hcome⟩

/-- Behind the imports in front the text stays, perhaps behind a new import. -/
theorem refits_back {b : Text} (h : Preface lined d t leads E Q (m :: ns)) (hm : leads m = false)
    (hb : b ≠ []) (hplace : t.From m.start b) (hrows : Statements d b rows)
    (hshow : List.Forall₂ (Row.Shows t) rows (m :: ns)) :
    Refits lined d t leads E Q [] m.start b (m :: ns) rows := by
  have hdrop : (m :: ns).dropWhile leads = m :: ns :=
    List.dropWhile_cons_of_neg (by rw [hm]; exact Bool.false_ne_true)
  have hback : ∀ n ∈ ns, E n = [] ∧ Q n [] := by
    have hback := h.back
    rwa [hdrop] at hback
  have hnone : ns.flatMap E = [] := List.flatMap_eq_nil_iff.mpr fun n hn => (hback n hn).1
  obtain ⟨hresumes, hnext⟩ := h.next m (by rw [hdrop]; rfl)
  rw [← hdrop] at hshow
  unfold Refits
  rw [List.flatMap_cons, hnone, List.append_nil]
  rcases hnext with ⟨hedits, hQ⟩ | ⟨p, e, x, hp, he, hx, hedits, hQ⟩
  · refine ⟨b, [], [], rows, by rw [hedits]; exact .done _ _, hrows,
      fun hlined => hresumes hlined b hplace, fun hnil => hnil, rfl, by simp, hshow, ?_, by simp⟩
    intro n hn
    rcases List.mem_cons.mp hn with rfl | hn
    · exact ⟨[], hQ, by simp⟩
    · exact ⟨[], (hback n hn).2, by simp⟩
  · obtain ⟨hspaced, hsame⟩ := statements_blanks hx hrows
    obtain ⟨r, hopens, hstatements⟩ := hp.statements (he b)
      (fun hlined => hsame.trans (hresumes hlined b hplace)) hspaced
    refine ⟨join p.lexemes ++ (e ++ (x ++ b)), [], [r], rows, ?_, hstatements, fun _ => hp.resuming _,
      fun hnil => absurd hnil hb, rfl, by simp, hshow, ?_, ?_⟩
    · have hinsert := (Patched.done m.start b).insert (join p.lexemes ++ (e ++ x))
      rw [hedits]
      simpa using hinsert
    · intro n hn
      rcases List.mem_cons.mp hn with rfl | hn
      · refine ⟨[p], hQ, ?_⟩
        intro q hq
        rw [List.mem_singleton.mp hq]
        exact ⟨r, List.mem_singleton_self r, hopens⟩
      · exact ⟨[], (hback n hn).2, by simp⟩
    · intro q hq
      rw [List.mem_singleton.mp hq]
      exact ⟨m, List.mem_cons_self, [p], hQ, p, List.mem_singleton_self p, hopens⟩

/-- **A program whose imports are changed is a program**, with the same statements besides. -/
theorem refits {k : Nat} (hpre : Preface lined d t leads E Q ns) (h : Statements d v rows) (hv : t.From k v)
    (hshow : List.Forall₂ (Row.Shows t) rows ns) :
    Refits lined d t leads E Q (trivia v).1 (k + Text.size (trivia v).1) (trivia v).2 ns rows := by
  induction h generalizing k ns with
  | @done v hnone =>
      cases hshow
      rw [hnone]
      refine ⟨[], [], [], [], .done _ _, .done ?_, fun _ => rfl, fun _ => rfl, rfl, by simp, .nil, by simp,
        by simp⟩
      have hsplit := trivia_append_eq v
      rw [hnone] at hsplit
      rw [hsplit, hnone]
  | @next v w n rows hstated hrest ih =>
      cases hshow with
      | @cons _ m _ ns hrow hrows =>
          obtain ⟨hskips, hunit⟩ := trivia_skips v 0
          obtain ⟨u, hu, hne⟩ := hstated.exists_append
          have hbody : (trivia v).2 ≠ [] := by
            rw [hu]
            exact List.append_ne_nil_of_left_ne_nil hne w
          have hfiller : Filler (trivia v).1 := hskips.filler hunit hbody
          have hhere : t.From (k + Text.size (trivia v).1) (trivia v).2 := by
            rw [← trivia_append_eq v] at hv
            exact hv.append
          have hstart : m.start = k + Text.size (trivia v).1 :=
            (hrow.start_eq hstated hunit).trans hhere.start_eq.symm
          rw [← hstart] at hhere ⊢
          -- what is skipped in front of the statement stays as it is
          suffices hrefits : Refits lined d t leads E Q [] m.start (trivia v).2 (m :: ns)
              (⟨(trivia v).2, n⟩ :: rows) by
            obtain ⟨y, front, us, back, hy, hstatements, hrest⟩ := hrefits
            exact ⟨y, front, us, back, hy, hfiller.statements_iff.mpr hstatements, hrest⟩
          cases hfront : leads m with
          | true =>
              have htake : (m :: ns).takeWhile leads = m :: ns.takeWhile leads :=
                List.takeWhile_cons_of_pos hfront
              obtain ⟨hopens, hw, ps, halter, hQ⟩ :=
                hpre.front m (by rw [htake]; exact List.mem_cons_self) _ w hrow hunit hstated
              rw [hu] at hhere halter hopens ⊢
              exact refits_front hfront hopens hne halter hQ hw
                (ih (hpre.tail hfront) hhere.append hrows)
          | false =>
              refine hpre.refits_back hfront hbody hhere (hfiller.statements_iff.mp ?_)
                (.cons hrow hrows)
              rw [trivia_append_eq]
              exact .next hstated hrest

end Preface

/-! ## The first line of a program -/

namespace Opening

variable {x x' v' y : Text}

/-- Where the statements of a text start is settled by the text. -/
theorem unique (h : Opening t x v) (h' : Opening t x' v') : x = x' ∧ v = v' := by
  have hplain : ∀ {u line v : Text}, trivia t = (u, line ++ v) → line.startsHashBang = true →
      (trivia t).2.startsHashBang = true := by
    intro u line v hu hline
    obtain ⟨r, rfl⟩ := Text.exists_of_startsHashBang hline
    rw [hu]
    rfl
  cases h with
  | plain hnone =>
      cases h' with
      | plain => exact ⟨rfl, rfl⟩
      | interpreter hu hline => rw [hplain hu hline] at hnone; cases hnone
  | @interpreter u line v hu hstarts hline hv =>
      cases h' with
      | plain hnone => rw [hplain hu hstarts] at hnone; cases hnone
      | @interpreter u' line' v' hu' hstarts' hline' hv' =>
          obtain ⟨rfl, heq⟩ := Prod.mk.inj (hu.symm.trans hu')
          have hspan := span_line hline hv
          rw [heq, span_line hline' hv'] at hspan
          obtain ⟨rfl, rfl⟩ := Prod.mk.inj hspan
          exact ⟨rfl, rfl⟩

/-- Other statements in place of the statements leave the first line as it is. -/
theorem replace (h : Opening t x v) (hv : (trivia v).2 ≠ []) (hy : Statements d ((trivia v).1 ++ y) rows) :
    Opening (x ++ ((trivia v).1 ++ y)) x ((trivia v).1 ++ y) := by
  cases h with
  | plain => exact .plain hy.startsHashBang
  | @interpreter u line v hu hstarts hline hnext =>
      have hunit : ∀ z, triviaUnit (line ++ z) = 0 := by
        intro z
        obtain ⟨r, rfl⟩ := Text.exists_of_startsHashBang hstarts
        exact triviaUnit_of_head (by decide) (by decide) _
      have hfiller : Filler u := by
        obtain ⟨hskips, hstop⟩ := trivia_skips t 0
        rw [hu] at hskips hstop
        refine hskips.filler hstop ?_
        intro hnil
        rw [(List.append_eq_nil_iff.mp hnil).1] at hstarts
        cases hstarts
      refine .interpreter (u := u) ?_ hstarts hline ?_
      · rw [List.append_assoc]
        exact hfiller.trivia_eq (hunit _)
      · -- the line break behind the line is skipped in front of the first statement
        intro c hc
        cases hlead : (trivia v).1 with
        | cons e l =>
            rw [hlead] at hc
            have hsplit := trivia_append_eq v
            rw [hlead] at hsplit
            refine hnext c ?_
            rw [← hsplit]
            exact hc
        | nil =>
            have hsplit := trivia_append_eq v
            rw [hlead, List.nil_append] at hsplit
            obtain ⟨e, w, hw⟩ := List.exists_cons_of_ne_nil hv
            have he : e = '\n' := hnext e (by rw [← hsplit, hw]; rfl)
            have hstop := (trivia_skips v 0).2
            rw [hw, he] at hstop
            cases hstop

end Opening

/-! ## Files made of statements -/

/-- **A text made of statements is a file with these statements.** -/
theorem exists_file {x : Text} (hopen : Opening t x v) (h : Statements d v rows) :
    ∃ f, parse? d t = .ok f ∧ f.MadeOf d rows := by
  obtain ⟨f, hf⟩ := exists_parse_of_statements hopen h
  obtain ⟨rows', hmade⟩ := parse?_madeOf hf
  obtain ⟨x', v', hopen', hrows'⟩ := hmade.read
  rw [parse?_text hf] at hopen'
  obtain ⟨rfl, rfl⟩ := hopen.unique hopen'
  cases h.unique hrows'
  exact ⟨f, hf, hmade⟩

/-- The import of a file at the statement of an import. -/
theorem SourceFile.MadeOf.exists_import {f : SourceFile} {r : Row} {p : ImportPhrase}
    (h : f.MadeOf d rows) (hr : r ∈ rows) (hopens : r.Opens p) :
    ∃ e ∈ f.imports, ∃ k, e.view = p.view k := by
  obtain ⟨x, v, -, hrows⟩ := h.read
  obtain ⟨m, hm, hshow⟩ := exists_related h.shown.flip hr
  obtain ⟨-, w, hstated⟩ := hrows.stated r hr
  obtain ⟨u, hu⟩ := hopens.text
  obtain ⟨e, he, hview, -⟩ := Row.Shows.importDecl? hshow hstated hopens.sound hu
  exact ⟨e, List.mem_filterMap.mpr ⟨m, (List.mem_filter.mp hm).1, he⟩, _, hview⟩

end Promisify
