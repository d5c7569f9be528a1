import Promisify.Proofs.Rendering
import Promisify.Syntax.Source

set_option autoImplicit false

/-! # What a conversion does

The plans of a well-formed file nest and cut its text between characters, so all of them can be
carried out together. A conversion therefore always has a result. What it replaces and counts is
read off the kept plans, and what it leaves alone off the outermost ones.
-/

namespace Promisify

/-! ## Names in the order of their first use -/

namespace NameSet

theorem names_insert_of_mem {s : NameSet} {name : Text} (h : name ∈ s.names) :
    s.insert name = s := dif_pos h

theorem names_insert_of_notMem {s : NameSet} {name : Text} (h : name ∉ s.names) :
    (s.insert name).names = s.names ++ [name] := by
  unfold insert
  rw [dif_neg h]

theorem names_foldl_insert (names : List Text) (s : NameSet) :
    (names.foldl insert s).names =
      s.names ++ (names.filter fun name => decide (name ∉ s.names)).eraseDups := by
  induction names generalizing s with
  | nil => simp
  | cons a names ih =>
      rw [List.foldl_cons, ih]
      by_cases ha : a ∈ s.names
      · rw [names_insert_of_mem ha, List.filter_cons_of_neg (by simp [ha])]
      · rw [names_insert_of_notMem ha, List.filter_cons_of_pos (by simp [ha]),
          List.eraseDups_cons, List.filter_filter, List.append_assoc, List.singleton_append]
        -- what is new after `a` is what was new before it, without `a`
        congr 3
        apply List.filter_congr
        intro b _
        rw [Bool.eq_iff_iff]
        simp [and_comm]

/-- A set of names lists each name at its first place. -/
theorem names_ofList (names : List Text) : (ofList names).names = names.eraseDups := by
  unfold ofList
  rw [names_foldl_insert]
  simp [empty]

end NameSet

theorem Plan.names_eq (p : Plan) :
    p.names = (if p.assertsType then [Vocabulary.observable] else []) ++ [p.helper.name] := by
  unfold names
  cases p.assertsType with
  | true => rfl
  | false => rfl

/-- Only names of helpers and the name of the type are required. -/
theorem Conversion.mem_required {r : Conversion} {x : Text} (h : x ∈ r.required.names) :
    x = Vocabulary.observable ∨ ∃ helper : Helper, x = helper.name := by
  rw [Conversion.required, NameSet.names_ofList, List.mem_eraseDups] at h
  obtain ⟨p, -, h⟩ := List.mem_flatMap.mp h
  rw [p.names_eq, List.mem_append, List.mem_singleton] at h
  rcases h with h | h
  · split at h
    · exact Or.inl (List.mem_singleton.mp h)
    · cases h
  · exact Or.inr ⟨p.helper, h⟩

namespace SourceFile

variable {f : SourceFile}

/-! ## A conversion exists -/

/-- All plans of a file lie inside its text. -/
theorem inSpan_plans (h : f.WellFormed) : Plan.inSpan f.plans ⟨0, f.text.size⟩ = f.plans := by
  apply List.filter_eq_self.mpr
  intro p hp
  have hstop := (plans_onBorders h hp).stop.le_size
  exact Span.within_iff.mpr ⟨Nat.zero_le _, hstop⟩

theorem exists_conversion (h : f.WellFormed) :
    ∃ r, f.rendering? = some r ∧ f.conversion? = some ⟨f.decisions, r⟩ := by
  have hsome : f.rendering?.isSome = true := by
    refine Plan.render_isSome (plans_nested h.tree) (fun p hp => plans_onBorders h hp)
      (Nat.zero_le _) (Text.isBorder_zero _) (Text.isBorder_size _) ?_
    rw [inSpan_plans h]
    omega
  obtain ⟨r, hr⟩ := Option.isSome_iff_exists.mp hsome
  exact ⟨r, hr, by rw [conversion?, hr]; rfl⟩

/-! ## Counting sites -/

theorem length_plans (h : f.root.WellFormed) :
    f.plans.length = f.sites.countP fun s => (f.plan s).toOption.isSome := by
  rw [plans_eq h, List.length_filterMap_eq_countP]

theorem planned_eq (h : f.root.WellFormed) (r : Rendering) :
    (Conversion.mk f.decisions r).planned = f.plans.length := by
  unfold Conversion.planned decisions
  rw [List.filterMap_map, plans_eq h]
  rfl

/-- A site without a plan is skipped. -/
theorem length_sites (h : f.root.WellFormed) :
    f.sites.length = f.plans.length + f.sites.countP fun s => (f.plan s).toOption.isNone := by
  rw [length_plans h, List.length_eq_countP_add_countP fun s => (f.plan s).toOption.isSome]
  congr 1
  apply List.countP_congr
  intro s _
  simp

theorem length_plans_eq (f : SourceFile) :
    f.plans.length = (Plan.kept f.plans).length
      + (f.plans.filter fun p => !Plan.isKept f.plans p).length :=
  f.plans.length_eq_length_filter_add (Plan.isKept f.plans)

/-! ## What is replaced -/

/-- **A conversion carries out the kept plans**, each once and in the order in which they are
taken. The text that comes of it is the one that the kept plans make by themselves. A site with a plan
that is not kept counts neither as converted nor as skipped, and no name is required for it. -/
theorem conversion_carries_out_kept_plans (f : SourceFile) (h : f.WellFormed) :
    ∃ c, f.conversion? = some c ∧
      c.rendering.done = Plan.kept f.plans ∧ f.plans.Nodup ∧
      some c.text = Plan.rendered? f.text (Plan.kept f.plans) ⟨0, f.text.size⟩ ∧
      (∀ s, Plan.rendered? f.text (Plan.kept f.plans) s =
        Plan.splice f.text (Plan.fill (Plan.rendered? f.text (Plan.kept f.plans))) s.stop s.start
          (Plan.outermost (Plan.inSpan (Plan.kept f.plans) s))) ∧
      c.counts.found = f.sites.length ∧
      c.counts.converted = (Plan.kept f.plans).length ∧
      c.counts.skipped = (f.sites.countP fun s => (f.plan s).toOption.isNone) ∧
      c.counts.found = c.counts.converted + c.counts.skipped
        + (f.plans.filter fun p => !Plan.isKept f.plans p).length ∧
      c.required.names = ((Plan.kept f.plans).flatMap fun p =>
        (if p.assertsType then [Vocabulary.observable] else []) ++ [p.helper.name]).eraseDups := by
  have hnested := plans_nested h.tree
  obtain ⟨r, hr, hc⟩ := exists_conversion h
  have hdone : r.done = Plan.kept f.plans := by
    rw [Plan.render_done hnested hr, inSpan_plans h]
  have hfound : f.decisions.length = f.sites.length := List.length_map _
  have hsites := length_sites h.tree
  have hplans := length_plans_eq f
  have hskipped : f.decisions.length - (Conversion.mk f.decisions r).planned =
      f.sites.countP fun s => (f.plan s).toOption.isNone := by
    rw [planned_eq h.tree]
    omega
  have htext : some r.text = Plan.rendered? f.text (Plan.kept f.plans) ⟨0, f.text.size⟩ := by
    have hkept := Plan.rendered?_kept f.text hnested ⟨0, f.text.size⟩
    rw [inSpan_plans h] at hkept
    rw [← hkept]
    exact (congrArg (Option.map Rendering.text) hr).symm
  refine ⟨⟨f.decisions, r⟩, hc, hdone, ?_, htext, Plan.render_text f.text hnested.kept_nested, hfound, ?_,
    hskipped, ?_, ?_⟩
  · exact hnested.precedes_pairwise.imp fun hpq => ne_of_irrefl hpq
  · show r.done.length = _
    rw [hdone]
  · show f.decisions.length = r.done.length + (f.decisions.length - _) + _
    rw [hskipped, hdone]
    omega
  · rw [Conversion.required, NameSet.names_ofList, hdone]
    congr 1
    exact List.flatMap_congr fun p _ => p.names_eq

set_option maxRecDepth 100000 in
/-- Four sites, of which one has no plan and one is dropped with the operator it stands in. -/
theorem conversion_drops_site_of_removed_operator :
    ∃ f, parse? .typeScript
        ("s.pipe(take(1)).subscribe(v => x.pipe(first(() => c.toPromise()), m).toPromise<T>());"
          ++ " y.subscribe(z);").toList = .ok f ∧
      f.WellFormed ∧ f.plans.map Plan.span = [⟨0, 84⟩, ⟨31, 83⟩, ⟨50, 63⟩] ∧
      ∃ c, f.conversion? = some c ∧
        c.rendering.done.map Plan.span = [⟨0, 84⟩, ⟨31, 83⟩] ∧
        c.text = ("firstValueFrom(s).then(v => firstValueFrom(x.pipe(m) as Observable<T>));"
          ++ " y.subscribe(z);").toList ∧
        c.counts = ⟨4, 2, 1⟩ ∧
        c.required.names = [Vocabulary.firstValueFrom, Vocabulary.observable] := by
  refine exists_of_parse
    (fun f => f.WellFormed ∧ f.plans.map Plan.span = [⟨0, 84⟩, ⟨31, 83⟩, ⟨50, 63⟩] ∧
      (Plan.kept f.plans).map Plan.span = [⟨0, 84⟩, ⟨31, 83⟩] ∧
      Plan.rendered? f.text (Plan.kept f.plans) ⟨0, f.text.size⟩ =
        some ("firstValueFrom(s).then(v => firstValueFrom(x.pipe(m) as Observable<T>));"
          ++ " y.subscribe(z);").toList ∧ f.sites.length = 4 ∧
      (f.sites.countP fun s => (f.plan s).toOption.isNone) = 1 ∧
      ((Plan.kept f.plans).flatMap fun p =>
        (if p.assertsType then [Vocabulary.observable] else []) ++ [p.helper.name]).eraseDups
          = [Vocabulary.firstValueFrom, Vocabulary.observable])
    (by decide +kernel) ?_
  rintro f ⟨hwf, hplans, hkept, hrendered, hsites, hnone, hnames⟩
  obtain ⟨c, hc, hdone, -, htext, -, hfound, hconverted, hskipped, -, hrequired⟩ :=
    conversion_carries_out_kept_plans f hwf
  refine ⟨hwf, hplans, c, hc, by rw [hdone, hkept], Option.some.inj (htext.trans hrendered), ?_,
    by rw [hrequired, hnames]⟩
  have hlen : (Plan.kept f.plans).length = 2 := by
    rw [← List.length_map Plan.span, hkept]
    rfl
  cases hcounts : c.counts
  rw [hcounts] at hfound hconverted hskipped
  simp only [SiteCounts.mk.injEq] at hfound hconverted hskipped ⊢
  omega

/-! ## What is left alone -/

/-- **A conversion replaces the outermost plans and nothing else.** The text between them stays as
it is, the spans copied into a replacement are rendered by the same rule, and a replacement depends
only on the bytes it stands for and the plans inside them. -/
theorem conversion_replaces_outermost_plans (f : SourceFile) (h : f.WellFormed) :
    ∃ c, f.conversion? = some c ∧
      (Plan.outermost f.plans).Pairwise (fun p q => p.span.stop ≤ q.span.start) ∧
      some c.text = Plan.splice f.text (Plan.fill (Plan.rendered? f.text f.plans)) f.text.size 0
        (Plan.outermost f.plans) ∧
      (∀ s, Plan.rendered? f.text f.plans s =
        Plan.splice f.text (Plan.fill (Plan.rendered? f.text f.plans)) s.stop s.start
          (Plan.outermost (Plan.inSpan f.plans s))) ∧
      (∀ p ∈ f.plans, ∀ t ps, t.span? p.span = f.text.span? p.span →
        Plan.inSpan ps p.span = Plan.inSpan f.plans p.span →
        Plan.fill (Plan.rendered? t ps) p = Plan.fill (Plan.rendered? f.text f.plans) p) ∧
      (f.plans = [] → c.text = f.text) := by
  have hnested := plans_nested h.tree
  obtain ⟨r, hr, hc⟩ := exists_conversion h
  have hrule := Plan.render_text f.text hnested
  have htext : some r.text = Plan.splice f.text (Plan.fill (Plan.rendered? f.text f.plans))
      f.text.size 0 (Plan.outermost f.plans) := by
    have hwhole := hrule ⟨0, f.text.size⟩
    rw [inSpan_plans h] at hwhole
    rw [← hwhole, Plan.rendered?]
    have hr' : Plan.render f.text f.plans (f.plans.length + 1) ⟨0, f.text.size⟩ = some r := hr
    rw [hr']
    rfl
  refine ⟨⟨f.decisions, r⟩, hc, hnested.outermost_apart, htext, hrule, ?_, ?_⟩
  · intro p hp t ps ht hin
    have hb := plans_onBorders h hp
    have hsome : (f.text.span? p.span).isSome = true :=
      Text.slice?_isSome_iff.mpr ⟨Nat.le_of_lt (hnested.nonempty p hp), hb.start, hb.stop⟩
    exact (Plan.fill_congr (hnested.restrict p.span) (hnested.fits p hp) hin
      (Plan.agree_of_span? hsome ht)).symm
  · intro hnone
    rw [hnone] at htext
    have hslice : f.text.slice? 0 f.text.size = some f.text := Text.slice?_whole f.text
    show r.text = f.text
    exact Option.some.inj (htext.trans hslice)

set_option maxRecDepth 100000 in
/-- One site inside another and one behind both. -/
theorem conversion_keeps_text_around_sites :
    ∃ f, parse? .typeScript
        "u = [a.pipe(m(() => b.toPromise())).toPromise(), é, c.toPromise()];".toList = .ok f ∧
      f.WellFormed ∧ f.plans.map Plan.span = [⟨5, 47⟩, ⟨20, 33⟩, ⟨53, 66⟩] ∧
      (Plan.outermost f.plans).map Plan.span = [⟨5, 47⟩, ⟨53, 66⟩] ∧
      ∃ c, f.conversion? = some c ∧
        c.text = "u = [lastValueFrom(a.pipe(m(() => lastValueFrom(b)))), é, lastValueFrom(c)];".toList
    := by
  refine exists_of_parse
    (fun f => f.WellFormed ∧ f.plans.map Plan.span = [⟨5, 47⟩, ⟨20, 33⟩, ⟨53, 66⟩] ∧
      (Plan.outermost f.plans).map Plan.span = [⟨5, 47⟩, ⟨53, 66⟩] ∧
      Plan.splice f.text (Plan.fill (Plan.rendered? f.text f.plans)) f.text.size 0
        (Plan.outermost f.plans) =
          some "u = [lastValueFrom(a.pipe(m(() => lastValueFrom(b)))), é, lastValueFrom(c)];".toList)
    (by decide +kernel) ?_
  rintro f ⟨hwf, hplans, hmax, hsplice⟩
  obtain ⟨c, hc, -, htext, -⟩ := conversion_replaces_outermost_plans f hwf
  rw [hsplice] at htext
  exact ⟨hwf, hplans, hmax, c, hc, Option.some.inj htext⟩

end SourceFile

end Promisify
