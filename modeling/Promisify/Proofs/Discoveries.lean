import Mathlib.Data.Char
import Mathlib.Data.List.Lex
import Mathlib.Data.Prod.Lex
import Promisify.Proofs.Overlaps

set_option autoImplicit false

/-! # Finding the files of a run

An input finds itself when it is a file, and the files below it when it is a folder
(`FileTree.Finds`). A walk from the folder down, which does not enter folders with an excluded name, reaches
exactly the files that have no such folder on the way to them (`FileTree.walk_file_iff`).

The paths of all inputs are put one after another, and a path is left out when one with the same
components came before it. So each path belongs to the first input that finds it
(`FileTree.FindsFirst`). Along the inputs it is kept what was seen and what remains
(`FileTree.remaining_distinct`).
-/

namespace Promisify

/-! ## The order of paths -/

namespace Component

/-- What components are compared by: the kind, then the name. -/
def key (c : Component) : Nat ×ₗ List Char := toLex (c.rank, c.name)

theorem key_injective : Function.Injective key := by
  intro a b h
  have hpair : (a.rank, a.name) = (b.rank, b.name) := toLex.injective h
  obtain ⟨hrank, hname⟩ := Prod.mk.inj hpair
  cases a <;> cases b <;> simp_all [rank, name]

theorem nameLt_iff (a b : Text) : nameLt a b = true ↔ a < b := by
  fun_induction nameLt a b with
  | case1 a => simp
  | case2 b bs => simp
  | case3 a as b bs ih =>
      rw [Bool.or_eq_true, Bool.and_eq_true, decide_eq_true_eq, beq_iff_eq, ih, List.cons_lt_cons_iff]
      rfl

theorem lt_iff (a b : Component) : a.lt b = true ↔ a.key < b.key := by
  rw [lt, Bool.or_eq_true, Bool.and_eq_true, decide_eq_true_eq, beq_iff_eq, nameLt_iff, key, key,
    Prod.Lex.toLex_lt_toLex]

theorem listLt_iff (as bs : List Component) : listLt as bs = true ↔ as.map key < bs.map key := by
  fun_induction listLt as bs with
  | case1 as => simp
  | case2 b bs => simp
  | case3 a as b bs ih =>
      rw [Bool.or_eq_true, Bool.and_eq_true, beq_iff_eq, ih, List.map_cons, List.map_cons,
        List.cons_lt_cons_iff, lt_iff, key_injective.eq_iff]

end Component

namespace Path

/-- What paths are compared by. -/
def key (p : Path) : List (Nat ×ₗ List Char) := p.components.map Component.key

/-- **Paths are ordered** by the order of their components, place by place. -/
theorem lt_iff (p q : Path) : p.lt q = true ↔ p.key < q.key := Component.listLt_iff _ _

theorem key_eq_iff {p q : Path} : p.key = q.key ↔ p.components = q.components :=
  (List.map_injective_iff.mpr Component.key_injective).eq_iff

theorem before_iff {p q : Path} : p.before q = true ↔ p.key ≤ q.key := by
  rw [before, Bool.not_eq_true', Bool.eq_false_iff, Ne, lt_iff, not_lt]

/-- Sorting puts paths in ascending order. -/
theorem sorted_pairwise (ps : List Path) : (sorted ps).Pairwise fun p q => p.key ≤ q.key := by
  refine (sortedBy_pairwise ?_ ?_ ps).imp before_iff.mp
  · intro p q r hpq hqr
    rw [before_iff] at hpq hqr ⊢
    exact hpq.trans hqr
  · intro p q
    rw [Bool.or_eq_true, before_iff, before_iff]
    exact le_total p.key q.key

/-! ## Extensions -/

/-- The extension of a name is what follows its last dot, where something comes before that. -/
def HasExtension (name e : Text) : Prop := ∃ stem, stem ≠ [] ∧ name = stem ++ '.' :: e ∧ '.' ∉ e

theorem afterLastDot?_eq_none {t : Text} : afterLastDot? t = none ↔ '.' ∉ t := by
  induction t with
  | nil => simp [afterLastDot?]
  | cons c t ih =>
      rw [afterLastDot?]
      cases h : afterLastDot? t with
      | none =>
          have hnot := ih.mp h
          by_cases hc : c = '.'
          · simp [hc]
          · simp [hc, hnot, Ne.symm hc]
      | some e =>
          have hdot : '.' ∈ t := by
            by_contra hnot
            rw [ih.mpr hnot] at h
            cases h
          simp [hdot]

theorem afterLastDot?_eq_some {t e : Text} :
    afterLastDot? t = some e ↔ ∃ u, t = u ++ '.' :: e ∧ '.' ∉ e := by
  induction t with
  | nil => simp [afterLastDot?]
  | cons c t ih =>
      rw [afterLastDot?]
      cases h : afterLastDot? t with
      | none =>
          -- only the first character can be the dot
          have hnot := afterLastDot?_eq_none.mp h
          constructor
          · intro heq
            by_cases hc : c = '.'
            · rw [if_pos hc] at heq
              cases heq
              exact ⟨[], by rw [hc]; rfl, hnot⟩
            · rw [if_neg hc] at heq
              cases heq
          · rintro ⟨u, heq, -⟩
            cases u with
            | nil =>
                obtain ⟨rfl, rfl⟩ := List.cons.inj heq
                simp
            | cons d u =>
                obtain ⟨-, rfl⟩ := List.cons.inj heq
                simp at hnot
      | some d =>
          rw [h] at ih
          rw [ih]
          constructor
          · rintro ⟨u, rfl, he⟩
            exact ⟨c :: u, rfl, he⟩
          · rintro ⟨u, heq, he⟩
            cases u with
            | nil =>
                obtain ⟨-, rfl⟩ := List.cons.inj heq
                rw [afterLastDot?_eq_none.mpr he] at h
                cases h
            | cons d u =>
                obtain ⟨-, rfl⟩ := List.cons.inj heq
                exact ⟨u, rfl, he⟩

theorem nameExtension?_eq_some {name e : Text} :
    nameExtension? name = some e ↔ HasExtension name e := by
  rw [nameExtension?, afterLastDot?_eq_some]
  constructor
  · rintro ⟨u, heq, he⟩
    cases name with
    | nil => simp at heq
    | cons c name => exact ⟨c :: u, by simp, by rw [List.tail_cons] at heq; rw [heq]; rfl, he⟩
  · rintro ⟨stem, hstem, rfl, he⟩
    obtain ⟨c, u, rfl⟩ := List.exists_cons_of_ne_nil hstem
    exact ⟨u, rfl, he⟩

end Path

/-- A file of that name in a folder is picked up. -/
def Config.Accepts (c : Config) (name : Text) : Prop := ∃ e ∈ c.extensions, Path.HasExtension name e

/-- The extension of a path is that of the name it ends in. -/
theorem Config.picks_iff {c : Config} {p : Path} {name : Text} (lead : List Component)
    (hp : p.components = lead ++ [.normal name]) : c.picks p = true ↔ c.Accepts name := by
  have hname : p.extension? = Path.nameExtension? name := by
    simp [Path.extension?, Path.fileName?, hp]
  unfold picks Accepts
  rw [hname]
  cases he : Path.nameExtension? name with
  | none =>
      simp only [Bool.false_eq_true, false_iff]
      rintro ⟨e, -, h⟩
      rw [Path.nameExtension?_eq_some.mpr h] at he
      cases he
  | some e =>
      simp only [List.contains_iff_mem]
      constructor
      · exact fun h => ⟨e, h, Path.nameExtension?_eq_some.mp he⟩
      · rintro ⟨d, hd, h⟩
        rw [Path.nameExtension?_eq_some.mpr h] at he
        cases he
        exact hd

namespace FileTree

variable {t : FileTree} {c : Config} {l names : Location} {i p : Path}

/-! ## Walking a folder -/

/-- No file is a folder at the same time. -/
def Disjoint (t : FileTree) : Prop := ∀ f ∈ t.files, t.isFolder f.1 = false

instance (t : FileTree) : Decidable t.Disjoint := List.decidableBAll _ _

/-- There is a file or folder at a location. -/
def Present (t : FileTree) (l : Location) : Prop := (t.file? l).isSome = true ∨ t.isFolder l = true

/-- The entries that a walk through the folder at `l` reaches, by the names that lead to them. The walk
starts at the folder itself, and goes on to what lies in a folder that it has reached, but not to folders
whose names are excluded. -/
inductive Walk (t : FileTree) (c : Config) (l : Location) : Location → Prop
  | start : Walk t c l []
  | entry {names : Location} {n : Text} (h : Walk t c l names) (hfolder : t.isFolder (l ++ names) = true)
      (hexists : t.Present (l ++ (names ++ [n])))
      (henter : t.isFolder (l ++ (names ++ [n])) = true → n ∉ c.excludeDirs) : Walk t c l (names ++ [n])

/-- A folder that a walk reaches has no excluded name on the way to it. -/
theorem Walk.folder (h : t.Walk c l names) (hfolder : t.isFolder (l ++ names) = true) :
    ∀ n ∈ names, n ∉ c.excludeDirs := by
  induction h with
  | start => simp
  | @entry names n h hparent _ henter ih =>
      intro m hm
      rcases List.mem_append.mp hm with hm | hm
      · exact ih hparent m hm
      · rw [List.mem_singleton.mp hm]
        exact henter hfolder

theorem file?_isSome_iff : (t.file? l).isSome = true ↔ ∃ f ∈ t.files, f.1 = l := by
  constructor
  · intro h
    obtain ⟨content, hlookup⟩ := Option.isSome_iff_exists.mp h
    obtain ⟨before, after, hfiles, -⟩ := List.lookup_eq_some_iff.mp hlookup
    exact ⟨(l, content), by simp [hfiles], rfl⟩
  · rintro ⟨f, hf, rfl⟩
    exact isSome_file? hf

/-- **A walk reaches a file** exactly when no folder on the way to it has an excluded name. -/
theorem walk_file_iff (ht : t.Disjoint) {f : Location × Content} (hf : f ∈ t.files)
    (heq : f.1 = l ++ names) : t.Walk c l names ↔ ∀ n ∈ names.dropLast, n ∉ c.excludeDirs := by
  constructor
  · intro h
    cases h with
    | start => simp
    | @entry names n h hparent _ _ =>
        rw [List.dropLast_concat]
        exact h.folder hparent
  · intro h
    -- the walk goes down to the file name by name
    have hdown : ∀ upper lower, names = upper ++ lower → t.Walk c l upper := by
      intro upper
      induction upper using List.reverseRecOn with
      | nil => exact fun _ _ => .start
      | append_singleton upper n ih =>
          intro lower hnames
          rw [List.append_assoc, List.singleton_append] at hnames
          have hparent : t.isFolder (l ++ upper) = true :=
            isFolder_of_file hf (by rw [heq, hnames, List.append_assoc]) (List.cons_ne_nil n lower)
          have hsplit : l ++ names = l ++ (upper ++ [n]) ++ lower := by simp [hnames]
          cases lower with
          | nil =>
              rw [List.append_nil] at hsplit
              refine .entry (ih _ hnames) hparent (Or.inl (hsplit ▸ heq ▸ isSome_file? hf)) ?_
              intro hfolder
              rw [← hsplit, ← heq, ht f hf] at hfolder
              cases hfolder
          | cons m lower =>
              have hfolder : t.isFolder (l ++ (upper ++ [n])) = true :=
                isFolder_of_file hf (heq.trans hsplit) (List.cons_ne_nil m lower)
              refine .entry (ih _ hnames) hparent (Or.inr hfolder) fun _ => h n ?_
              rw [hnames, List.dropLast_append_of_ne_nil (by simp)]
              simp
    exact hdown names [] (List.append_nil names).symm

/-! ## What an input stands for -/

/-- The path leads to a file. -/
def IsFile (t : FileTree) (p : Path) : Prop := ∃ l, t.locate p = .ok l ∧ (t.file? l).isSome = true

/-- The path leads to a folder. -/
def IsDir (t : FileTree) (p : Path) : Prop := ∃ l, t.locate p = .ok l ∧ t.isFolder l = true

/-- The paths that an input finds: a file is found as it is; in a folder all files with an accepted extension
are found, unless a folder below the input on the way to them has an excluded name. -/
inductive Finds (t : FileTree) (c : Config) (i : Path) : Path → Prop
  | file (h : t.IsFile i) : Finds t c i i
  | below {l dirs : Location} {name : Text} (hi : t.locate i = .ok l) (hfolder : t.isFolder l = true)
      (hfile : (t.file? (l ++ (dirs ++ [name]))).isSome = true) (hname : c.Accepts name)
      (hdirs : ∀ n ∈ dirs, n ∉ c.excludeDirs) : Finds t c i ((dirs ++ [name]).foldl Path.join i)

theorem below?_eq_some_iff {m : Location} : below? l m = some names ↔ m = l ++ names := by
  refine ⟨below?_eq_some, ?_⟩
  rintro rfl
  induction l with
  | nil => rfl
  | cons a l ih => simpa [below?] using ih

theorem mem_filesBelow : names ∈ t.filesBelow l ↔ (t.file? (l ++ names)).isSome = true := by
  rw [filesBelow, List.mem_filterMap, file?_isSome_iff]
  simp only [below?_eq_some_iff]

theorem IsFile.not_isDir (ht : t.Disjoint) (h : t.IsFile p) : ¬ t.IsDir p := by
  rintro ⟨m, hm, hfolder⟩
  obtain ⟨l, hl, hfile⟩ := h
  cases hl.symm.trans hm
  obtain ⟨f, hf, rfl⟩ := file?_isSome_iff.mp hfile
  rw [ht f hf] at hfolder
  cases hfolder

theorem Named.isName (ht : t.Named) (h : (t.file? (l ++ names)).isSome = true) :
    ∀ n ∈ names, Text.IsName n := by
  obtain ⟨f, hf, heq⟩ := file?_isSome_iff.mp h
  intro n hn
  exact ht f hf n (heq ▸ List.mem_append_right l hn)

theorem mem_candidates : p ∈ t.candidates c i l ↔ ∃ names, (t.file? (l ++ names)).isSome = true ∧
    (∀ n ∈ names.dropLast, n ∉ c.excludeDirs) ∧ c.picks p = true ∧ p = names.foldl Path.join i := by
  have hskips : ∀ dirs : Location, (!dirs.any c.skips) = true ↔ ∀ n ∈ dirs, n ∉ c.excludeDirs := by
    simp [Config.skips]
  unfold candidates
  simp only [Path.sorted, mem_sortedBy, List.mem_filter, List.mem_map, mem_filesBelow, hskips]
  constructor
  · rintro ⟨⟨names, ⟨hfile, hdirs⟩, rfl⟩, hpicks⟩
    exact ⟨names, hfile, hdirs, hpicks, rfl⟩
  · rintro ⟨names, hfile, hdirs, hpicks, rfl⟩
    exact ⟨⟨names, ⟨hfile, hdirs⟩, rfl⟩, hpicks⟩

/-- In a folder, an input finds what is picked up there. -/
theorem finds_iff_mem_candidates (hnamed : t.Named) (hdisjoint : t.Disjoint) (hi : t.locate i = .ok l)
    (hfolder : t.isFolder l = true) : t.Finds c i p ↔ p ∈ t.candidates c i l := by
  have hdir : t.IsDir i := ⟨l, hi, hfolder⟩
  have hpicks : ∀ {dirs name}, (t.file? (l ++ (dirs ++ [name]))).isSome = true →
      (c.picks ((dirs ++ [name]).foldl Path.join i) = true ↔ c.Accepts name) := by
    intro dirs name hfile
    refine Config.picks_iff (i.components ++ dirs.map .normal) ?_
    rw [Path.components_joinAll (text_ne_nil hi) (hnamed.isName hfile)]
    simp
  rw [mem_candidates]
  constructor
  · intro h
    cases h with
    | file hfile => exact absurd hdir (hfile.not_isDir hdisjoint)
    | @below _ dirs name hi' _ hfile hname hdirs =>
        cases hi.symm.trans hi'
        exact ⟨dirs ++ [name], hfile, by rwa [List.dropLast_concat], (hpicks hfile).mpr hname, rfl⟩
  · rintro ⟨names, hfile, hdirs, hp, rfl⟩
    rcases List.eq_nil_or_concat names with rfl | ⟨dirs, name, rfl⟩
    · -- the folder itself is no file
      rw [List.append_nil] at hfile
      exact absurd hdir (IsFile.not_isDir hdisjoint ⟨l, hi, hfile⟩)
    · rw [List.concat_eq_append] at *
      rw [List.dropLast_concat] at hdirs
      exact .below hi hfolder hfile ((hpicks hfile).mp hp) hdirs

theorem contributed?_eq_none : t.contributed? c i = none ↔ ¬ (t.IsFile i ∨ t.IsDir i) := by
  unfold contributed? IsFile IsDir
  cases t.locate i with
  | error e => simp
  | ok l =>
      by_cases hfile : (t.file? l).isSome = true
      · simp [hfile]
      · by_cases hfolder : t.isFolder l = true
        · simp [hfile, hfolder]
        · simp [hfile, hfolder]

/-- **What an input stands for** is what it finds. -/
theorem mem_contributed (hnamed : t.Named) (hdisjoint : t.Disjoint) {found : List Path}
    (h : t.contributed? c i = some found) : p ∈ found ↔ t.Finds c i p := by
  unfold contributed? at h
  split at h
  · cases h
  · next l hl =>
      split at h
      · next hfile =>
          cases h
          have hi : t.IsFile i := ⟨l, hl, hfile⟩
          rw [List.mem_singleton]
          constructor
          · rintro rfl
            exact .file hi
          · intro hfinds
            cases hfinds with
            | file _ => rfl
            | below hi' hfolder _ _ _ => exact absurd ⟨_, hi', hfolder⟩ (hi.not_isDir hdisjoint)
      · split at h
        · next hfolder =>
            cases h
            exact (finds_iff_mem_candidates hnamed hdisjoint hl hfolder).symm
        · cases h

theorem stands_iff_finds (hnamed : t.Named) (hdisjoint : t.Disjoint) :
    t.Stands c i p ↔ t.Finds c i p := by
  constructor
  · rintro ⟨found, hfound, hp⟩
    exact (mem_contributed hnamed hdisjoint hfound).mp hp
  · intro h
    have hthere : t.IsFile i ∨ t.IsDir i := by
      cases h with
      | file hfile => exact Or.inl hfile
      | below hi hfolder _ _ _ => exact Or.inr ⟨_, hi, hfolder⟩
    have hsome : t.contributed? c i ≠ none := mt contributed?_eq_none.mp (not_not.mpr hthere)
    obtain ⟨found, hfound⟩ := Option.ne_none_iff_exists'.mp hsome
    exact ⟨found, hfound, (mem_contributed hnamed hdisjoint hfound).mpr h⟩

theorem contributed?_pairwise {found : List Path} (h : t.contributed? c i = some found) :
    found.Pairwise fun p q => p.key ≤ q.key := by
  unfold contributed? at h
  split at h
  · cases h
  · split at h
    · cases h
      exact List.pairwise_singleton _ _
    · split at h
      · cases h
        exact Path.sorted_pairwise _
      · cases h

/-- One input finds no file under two paths. -/
theorem Finds.eq_of_components (hnamed : t.Named) (hdisjoint : t.Disjoint) {q : Path}
    (hp : t.Finds c i p) (hq : t.Finds c i q) (h : p.components = q.components) : p = q := by
  cases hp with
  | file hfile =>
      cases hq with
      | file _ => rfl
      | below hi hfolder _ _ _ => exact absurd ⟨_, hi, hfolder⟩ (hfile.not_isDir hdisjoint)
  | below hi hfolder hpfile _ _ =>
      cases hq with
      | file hfile => exact absurd ⟨_, hi, hfolder⟩ (hfile.not_isDir hdisjoint)
      | below hj _ hqfile _ _ =>
          -- below one folder the components are those of the input and the names
          cases hi.symm.trans hj
          have hne := text_ne_nil hi
          rw [Path.components_joinAll hne (hnamed.isName hpfile),
            Path.components_joinAll hne (hnamed.isName hqfile), List.append_cancel_left_eq] at h
          have hinj : Function.Injective Component.normal := fun _ _ hab => Component.normal.inj hab
          rw [List.map_injective_iff.mpr hinj h]

end FileTree

/-! ## Leaving out what was found before -/

namespace Path

variable {ps qs seen : List Path} {p : Path}

theorem distinct_sublist (seen ps : List Path) : (distinct seen ps).Sublist ps := by
  induction ps generalizing seen with
  | nil => exact List.Sublist.refl _
  | cons p ps ih =>
      rw [distinct]
      split
      · exact (ih seen).cons p
      · exact (ih (p :: seen)).cons_cons p

/-- Only the components of what was seen matter. -/
theorem distinct_congr {seen' : List Path}
    (h : ∀ p : Path, seen.any p.same = seen'.any p.same) (ps : List Path) :
    distinct seen ps = distinct seen' ps := by
  induction ps generalizing seen seen' with
  | nil => rfl
  | cons p ps ih =>
      have hcons : ∀ q : Path, (p :: seen).any q.same = (p :: seen').any q.same := by
        intro q
        rw [List.any_cons, List.any_cons, h]
      rw [distinct, distinct, h, ih h, ih hcons]

theorem distinct_append (seen ps qs : List Path) :
    distinct seen (ps ++ qs) = distinct seen ps ++ distinct (ps ++ seen) qs := by
  induction ps generalizing seen with
  | nil => rfl
  | cons p ps ih =>
      rw [List.cons_append, distinct, distinct]
      split
      · next hseen =>
          -- `p` adds nothing to what was seen
          rw [ih]
          congr 1
          apply distinct_congr
          intro q
          rw [any_same] at hseen
          obtain ⟨r, hr, hpr⟩ := hseen
          rw [Bool.eq_iff_iff, any_same, any_same]
          constructor
          · rintro ⟨x, hx, heq⟩
            exact ⟨x, by simp [List.mem_append.mp hx], heq⟩
          · rintro ⟨x, hx, heq⟩
            rcases List.mem_cons.mp hx with rfl | hx
            · exact ⟨r, List.mem_append_right ps hr, heq.trans hpr⟩
            · exact ⟨x, hx, heq⟩
      · rw [ih, List.cons_append]
        congr 2
        apply distinct_congr
        intro q
        simp only [List.any_append, List.any_cons, Bool.or_left_comm, Bool.or_assoc]

theorem mem_distinct_iff (hps : ∀ p ∈ ps, ∀ q ∈ ps, p.components = q.components → p = q) :
    p ∈ distinct seen ps ↔ p ∈ ps ∧ ∀ q ∈ seen, q.components ≠ p.components := by
  constructor
  · intro h
    obtain ⟨hmem, hne⟩ := mem_of_mem_distinct h
    exact ⟨hmem, fun q hq heq => hne q hq heq.symm⟩
  · rintro ⟨hmem, hne⟩
    obtain ⟨q, hq, heq⟩ := exists_mem_distinct seen hmem
    rcases List.mem_append.mp hq with hq | hq
    · exact absurd heq (hne q hq)
    · rwa [← hps q ((distinct_sublist seen ps).subset hq) p hmem heq]

end Path

namespace FileTree

variable {t : FileTree} {c : Config} {inputs before files : List Path} {p q : Path}

/-- The input at the place `k` is the first one that finds the path or one that is the same. -/
def FindsFirst (t : FileTree) (c : Config) (inputs : List Path) (k : Nat) (p : Path) : Prop :=
  (∃ i, inputs[k]? = some i ∧ t.Finds c i p) ∧
    ∀ j ∈ inputs.take k, ∀ q, t.Finds c j q → q.components ≠ p.components

theorem FindsFirst.unique {j k : Nat} (hj : t.FindsFirst c inputs j p) (hk : t.FindsFirst c inputs k p) :
    j = k := by
  -- the later of two inputs would not be the first
  have hle : ∀ {j k : Nat}, t.FindsFirst c inputs j p → t.FindsFirst c inputs k p → k ≤ j := by
    rintro j k ⟨⟨i, hi, hfinds⟩, -⟩ ⟨-, hnone⟩
    by_contra hlt
    have hmem : i ∈ inputs.take k := by
      refine List.mem_of_getElem? (i := j) ?_
      rw [List.getElem?_take_of_lt (by omega), hi]
    exact hnone i hmem p hfinds rfl
  exact Nat.le_antisymm (hle hk hj) (hle hj hk)

theorem contributions_cons {i : Path} {ps : List Path} (h : t.contributions c (i :: inputs) = .ok ps) :
    ∃ found rest, t.contributed? c i = some found ∧ t.contributions c inputs = .ok rest ∧
      ps = found ++ rest := by
  rw [contributions] at h
  split at h
  · cases h
  · next found hfound =>
      split at h
      · cases h
      · next rest hrest =>
          cases h
          exact ⟨found, rest, hfound, hrest, rfl⟩

/-- The paths in `seen` are those that the inputs find, as far as their components go. -/
def Seen (t : FileTree) (c : Config) (inputs seen : List Path) : Prop := ∀ p : Path,
  (∃ q ∈ seen, q.components = p.components) ↔
    ∃ i ∈ inputs, ∃ q, t.Finds c i q ∧ q.components = p.components

/-- One more input adds what it stands for to what was seen. -/
theorem Seen.concat {i : Path} {seen found : List Path} (h : t.Seen c before seen)
    (hfound : ∀ p, p ∈ found ↔ t.Finds c i p) : t.Seen c (before ++ [i]) (found ++ seen) := by
  intro p
  simp only [List.mem_append, List.mem_singleton]
  constructor
  · rintro ⟨q, hq | hq, heq⟩
    · exact ⟨i, Or.inr rfl, q, (hfound q).mp hq, heq⟩
    · obtain ⟨j, hj, r, hr⟩ := (h p).mp ⟨q, hq, heq⟩
      exact ⟨j, Or.inl hj, r, hr⟩
  · rintro ⟨j, hj | rfl, q, hq, heq⟩
    · obtain ⟨r, hr, hrp⟩ := (h p).mpr ⟨j, hj, q, hq, heq⟩
      exact ⟨r, Or.inr hr, hrp⟩
    · exact ⟨q, Or.inl ((hfound q).mpr hq), heq⟩

/-- What is left of an input after those before it is what it is the first to find. -/
theorem Seen.mem_distinct_iff {i : Path} {seen found : List Path} (h : t.Seen c before seen)
    (hnamed : t.Named) (hdisjoint : t.Disjoint) (hfound : ∀ p, p ∈ found ↔ t.Finds c i p)
    (inputs : List Path) (p : Path) : p ∈ Path.distinct seen found ↔
      t.FindsFirst c (before ++ i :: inputs) before.length p := by
  have hinj : ∀ p ∈ found, ∀ q ∈ found, p.components = q.components → p = q := fun p hp q hq =>
    ((hfound p).mp hp).eq_of_components hnamed hdisjoint ((hfound q).mp hq)
  have hseen : (∀ q ∈ seen, q.components ≠ p.components) ↔
      ∀ j ∈ before, ∀ q, t.Finds c j q → q.components ≠ p.components := by
    have hnot := not_congr (h p)
    push Not at hnot
    exact hnot
  rw [Path.mem_distinct_iff hinj, hfound, hseen, FindsFirst, List.take_left]
  simp

/-- What is left of the paths of `inputs` after those of the inputs `before` them: the paths that one of
`inputs` is the first to find, by the places of the inputs, and in ascending order where one input finds
them. -/
structure Remaining (t : FileTree) (c : Config) (before inputs files : List Path) : Prop where
  mem : ∀ p, p ∈ files ↔ ∃ k, before.length ≤ k ∧ t.FindsFirst c (before ++ inputs) k p
  ordered : files.Pairwise fun p q => ∀ j k, t.FindsFirst c (before ++ inputs) j p →
    t.FindsFirst c (before ++ inputs) k q → j < k ∨ j = k ∧ p.lt q = true

/-- What one input finds first stands in front of what is left of the inputs behind it. -/
theorem Remaining.cons {i : Path} {found later : List Path}
    (hlater : t.Remaining c (before ++ [i]) inputs later)
    (hfirst : ∀ p, p ∈ found ↔ t.FindsFirst c (before ++ i :: inputs) before.length p)
    (hsorted : found.Pairwise fun p q => p.lt q = true) :
    t.Remaining c before (i :: inputs) (found ++ later) := by
  obtain ⟨hmem, hord⟩ := hlater
  rw [List.append_assoc, List.singleton_append, List.length_append, List.length_singleton] at hmem
  rw [List.append_assoc, List.singleton_append] at hord
  refine ⟨?_, List.pairwise_append.mpr ⟨?_, hord, ?_⟩⟩
  · intro p
    rw [List.mem_append, hfirst, hmem]
    constructor
    · rintro (hp | ⟨k, hk, hp⟩)
      · exact ⟨_, Nat.le_refl _, hp⟩
      · exact ⟨k, by omega, hp⟩
    · rintro ⟨k, hk, hp⟩
      rcases Nat.eq_or_lt_of_le hk with rfl | hk
      · exact Or.inl hp
      · exact Or.inr ⟨k, hk, hp⟩
  · -- two paths of this input
    refine hsorted.imp_of_mem ?_
    intro p q hp hq hlt j k hj hk
    exact Or.inr ⟨by rw [hj.unique ((hfirst p).mp hp), hk.unique ((hfirst q).mp hq)], hlt⟩
  · -- a path of this input and one of an input behind it
    intro p hp q hq j k hj hk
    obtain ⟨k', hk', hq'⟩ := (hmem q).mp hq
    rw [hj.unique ((hfirst p).mp hp), hk.unique hq']
    exact Or.inl hk'

theorem remaining_distinct (hnamed : t.Named) (hdisjoint : t.Disjoint) {seen ps : List Path}
    (hseen : t.Seen c before seen) (h : t.contributions c inputs = .ok ps) :
    t.Remaining c before inputs (Path.distinct seen ps) := by
  -- along the inputs, with those that are done and the paths seen from them
  induction inputs generalizing before seen ps with
  | nil =>
      cases h
      refine ⟨fun p => ?_, List.Pairwise.nil⟩
      simp only [Path.distinct, List.not_mem_nil, List.append_nil, false_iff, not_exists, not_and]
      rintro k hk ⟨⟨i, hi, -⟩, -⟩
      rw [List.getElem?_eq_none hk] at hi
      cases hi
  | cons i inputs ih =>
      obtain ⟨found, rest, hfound, hrest, rfl⟩ := contributions_cons h
      have hmem : ∀ p, p ∈ found ↔ t.Finds c i p := fun p =>
        mem_contributed hnamed hdisjoint hfound
      rw [Path.distinct_append]
      refine (ih (hseen.concat hmem) hrest).cons
        (hseen.mem_distinct_iff hnamed hdisjoint hmem inputs) ?_
      have hsorted := (contributed?_pairwise hfound).sublist (Path.distinct_sublist seen found)
      refine (hsorted.and (Path.distinct_pairwise seen found)).imp ?_
      rintro p q ⟨hle, hne⟩
      rw [Path.lt_iff]
      exact lt_of_le_of_ne hle (mt Path.key_eq_iff.mp hne)

/-! ## The files of a run -/

/-- The input is the first one that leads neither to a file nor to a folder. -/
def FirstMissing (t : FileTree) (inputs : List Path) (i : Path) : Prop :=
  ∃ before after, inputs = before ++ i :: after ∧ (∀ j ∈ before, t.IsFile j ∨ t.IsDir j) ∧
    ¬ (t.IsFile i ∨ t.IsDir i)

theorem firstMissing_cons {i j : Path} : t.FirstMissing (j :: inputs) i ↔
    i = j ∧ ¬ (t.IsFile j ∨ t.IsDir j) ∨ (t.IsFile j ∨ t.IsDir j) ∧ t.FirstMissing inputs i := by
  constructor
  · rintro ⟨before, after, heq, hbefore, hi⟩
    cases before with
    | nil =>
        obtain ⟨rfl, -⟩ := List.cons.inj heq
        exact Or.inl ⟨rfl, hi⟩
    | cons b before =>
        obtain ⟨rfl, hrest⟩ := List.cons.inj heq
        obtain ⟨hj, hbefore⟩ := List.forall_mem_cons.mp hbefore
        exact Or.inr ⟨hj, before, after, hrest, hbefore, hi⟩
  · rintro (⟨rfl, hi⟩ | ⟨hj, before, after, rfl, hbefore, hi⟩)
    · exact ⟨[], inputs, rfl, by simp, hi⟩
    · exact ⟨j :: before, after, rfl, List.forall_mem_cons.mpr ⟨hj, hbefore⟩, hi⟩

theorem contributions_eq_error_iff {i : Path} :
    t.contributions c inputs = .error i ↔ t.FirstMissing inputs i := by
  induction inputs with
  | nil => simp [contributions, FirstMissing]
  | cons j inputs ih =>
      rw [contributions, firstMissing_cons, ← ih]
      cases hfound : t.contributed? c j with
      | none =>
          have hj := contributed?_eq_none.mp hfound
          simp [hj, eq_comm]
      | some found =>
          have hj : t.IsFile j ∨ t.IsDir j := by
            by_contra hnone
            rw [contributed?_eq_none.mpr hnone] at hfound
            cases hfound
          cases t.contributions c inputs with
          | error k => simp [hj]
          | ok rest => simp [hj]

/-- The files of a run are exact: no two paths are the same; each is found by an input, and by none before
it; nothing that an input finds is left out; they stand in the order of the inputs that are the first to
find them, and those of one input in ascending order. -/
structure Collected (t : FileTree) (c : Config) (inputs files : List Path) : Prop where
  distinct : files.Pairwise fun p q => p.same q = false
  mem : ∀ p, p ∈ files ↔ ∃ k, t.FindsFirst c inputs k p
  covers : ∀ i ∈ inputs, ∀ p, t.Finds c i p → ∃ q ∈ files, q.same p = true
  ordered : files.Pairwise fun p q => ∀ j k, t.FindsFirst c inputs j p → t.FindsFirst c inputs k q →
    j < k ∨ j = k ∧ p.lt q = true

theorem collect_eq_error_iff {e : RunError} :
    t.collect c inputs = .error e ↔ ∃ i, t.FirstMissing inputs i ∧ e = .missingInput i := by
  simp only [← contributions_eq_error_iff (c := c)]
  unfold collect
  cases t.contributions c inputs with
  | error i => simp [eq_comm]
  | ok ps => simp

theorem exists_firstMissing_iff :
    (∃ i, t.FirstMissing inputs i) ↔ ∃ i ∈ inputs, ¬ (t.IsFile i ∨ t.IsDir i) := by
  induction inputs with
  | nil => simp [FirstMissing]
  | cons j inputs ih =>
      simp only [firstMissing_cons, exists_or, exists_eq_left, exists_and_left, ih, List.mem_cons,
        exists_eq_or_imp]
      by_cases hj : t.IsFile j ∨ t.IsDir j
      · simp [hj]
      · simp [hj]

theorem collected_of_eq_ok (hnamed : t.Named) (hdisjoint : t.Disjoint)
    (h : t.collect c inputs = .ok files) : t.Collected c inputs files := by
  unfold collect at h
  split at h
  · cases h
  · next ps hps =>
      cases h
      have hseen : t.Seen c [] [] := fun p => by simp
      have hremaining := remaining_distinct hnamed hdisjoint hseen hps
      refine ⟨?_, ?_, ?_, hremaining.ordered⟩
      · exact (Path.distinct_pairwise [] ps).imp fun hne => by simpa [Path.same] using hne
      · intro p
        simpa using hremaining.mem p
      · intro i hi p hp
        have hmem := (mem_contributions hps).mpr ⟨i, hi, (stands_iff_finds hnamed hdisjoint).mpr hp⟩
        obtain ⟨q, hq, heq⟩ := Path.exists_mem_distinct [] hmem
        exact ⟨q, by simpa using hq, by simp [Path.same, heq]⟩

/-- **The files of a run are found exactly.** Collecting fails when an input leads neither to a file nor to a
folder, and only then, and the error is about the first such input. Otherwise each path is found by one
of the inputs, the first that finds it, and stands in the order of the inputs and then of the paths. In a
folder are found the files with an accepted extension that a walk reaches, which passes by folders with
an excluded name. -/
theorem collecting_is_exact (hnamed : t.Named) (hdisjoint : t.Disjoint) (c : Config)
    (inputs : List Path) :
    ((∃ e, t.collect c inputs = .error e) ↔ ∃ i ∈ inputs, ¬ (t.IsFile i ∨ t.IsDir i)) ∧
    (∀ e, t.collect c inputs = .error e → ∃ i, t.FirstMissing inputs i ∧ e = .missingInput i) ∧
    (∀ files, t.collect c inputs = .ok files → t.Collected c inputs files) ∧
    ∀ i l, t.locate i = .ok l → t.isFolder l = true → ∀ p, t.Finds c i p ↔
      ∃ names, t.Walk c l names ∧ (t.file? (l ++ names)).isSome = true ∧ c.picks p = true ∧
        p = names.foldl Path.join i := by
  refine ⟨?_, fun e he => collect_eq_error_iff.mp he,
    fun files hfiles => collected_of_eq_ok hnamed hdisjoint hfiles, ?_⟩
  · rw [← exists_firstMissing_iff]
    simp only [collect_eq_error_iff]
    constructor
    · rintro ⟨e, i, hi, -⟩
      exact ⟨i, hi⟩
    · rintro ⟨i, hi⟩
      exact ⟨_, i, hi, rfl⟩
  · intro i l hi hfolder p
    rw [finds_iff_mem_candidates hnamed hdisjoint hi hfolder, mem_candidates]
    refine exists_congr fun names => ?_
    constructor
    · rintro ⟨hfile, hdirs, hp⟩
      obtain ⟨f, hf, heq⟩ := file?_isSome_iff.mp hfile
      exact ⟨(walk_file_iff hdisjoint hf heq).mpr hdirs, hfile, hp⟩
    · rintro ⟨hwalk, hfile, hp⟩
      obtain ⟨f, hf, heq⟩ := file?_isSome_iff.mp hfile
      exact ⟨hfile, (walk_file_iff hdisjoint hf heq).mp hwalk, hp⟩

/-- Folders in folders, some with names that are excluded. -/
def nestedFolders : FileTree where
  files := [
    (["src".toList, "b.ts".toList], .text []),
    (["src".toList, "a-b".toList, "y.ts".toList], .text []),
    (["src".toList, "a".toList, "x.tsx".toList], .text []),
    (["src".toList, "a".toList, ".ts".toList], .text []),
    (["src".toList, "a".toList, "notes.md".toList], .text []),
    (["src".toList, "node_modules".toList, "k".toList, "z.ts".toList], .text []),
    (["dist".toList, "d.ts".toList], .text []),
    (["dist".toList, "dist".toList, "e.ts".toList], .text [])]
  folders := []
  here := []

/-- A file in an excluded folder, a folder, an excluded folder, a file of the first folder under another
spelling, and a file that is no source. -/
def nestedInputs : List Path :=
  [⟨"src/node_modules/k/z.ts".toList⟩, ⟨"src".toList⟩, ⟨"dist".toList⟩, ⟨"src//b.ts".toList⟩,
    ⟨"src/a/notes.md".toList⟩]

def nestedSources : List Path :=
  [⟨"src/node_modules/k/z.ts".toList⟩, ⟨"src/a/x.tsx".toList⟩, ⟨"src/a-b/y.ts".toList⟩,
    ⟨"src/b.ts".toList⟩, ⟨"dist/d.ts".toList⟩, ⟨"src/a/notes.md".toList⟩]

/-- Inputs of which the last two are missing. -/
def missingInputs : List Path :=
  [⟨"src".toList⟩, ⟨"lib".toList⟩, ⟨"bin".toList⟩]

set_option maxRecDepth 100000 in
/-- Each source of the inputs is collected once. With an input that is missing there is nothing. -/
theorem nested_folders_collected :
    nestedFolders.Named ∧ nestedFolders.Disjoint ∧
      nestedFolders.collect .initial nestedInputs = .ok nestedSources ∧
      nestedFolders.Collected .initial nestedInputs nestedSources ∧
      nestedFolders.collect .initial missingInputs = .error (.missingInput ⟨"lib".toList⟩) ∧
      nestedFolders.FirstMissing missingInputs ⟨"lib".toList⟩ := by
  have hnamed : nestedFolders.Named := by decide +kernel
  have hdisjoint : nestedFolders.Disjoint := by decide +kernel
  have hfiles : nestedFolders.collect .initial nestedInputs = .ok nestedSources := by decide +kernel
  have hmissing : nestedFolders.collect .initial missingInputs =
      .error (.missingInput ⟨"lib".toList⟩) := by decide +kernel
  obtain ⟨-, -, hcollected, -⟩ := collecting_is_exact hnamed hdisjoint .initial nestedInputs
  obtain ⟨-, hfirst, -, -⟩ := collecting_is_exact hnamed hdisjoint .initial missingInputs
  obtain ⟨i, hi, heq⟩ := hfirst _ hmissing
  cases heq
  exact ⟨hnamed, hdisjoint, hfiles, hcollected _ hfiles, hmissing, hi⟩

end FileTree

end Promisify
