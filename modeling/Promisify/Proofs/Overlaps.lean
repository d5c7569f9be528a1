import Mathlib.Data.List.Basic
import Promisify.Proofs.Runs
import Promisify.Proofs.Sorting

set_option autoImplicit false

/-! # Paths that lead to the same file

The files of a run are told apart by the components of their paths, not by where the paths lead. A path
found in a folder has the components of the folder followed by the names below it
(`components_join`), and it leads to the file with those names (`locate_joinAll`). So two inputs stand for
the same file under two paths exactly when one of them lies at the other or below it and is not written
that way.

Where all inputs share what comes before their names, no two paths of a run lead to the same file, and no
two workers have one at hand.
-/

namespace Promisify

/-! ## Components and where they lead -/

/-- Where a component leads from a location. -/
def Component.move (l : Location) : Component → Location
  | root => []
  | current => l
  | parent => l.dropLast
  | normal name => l ++ [name]

/-- A text that can be the name of a file or folder. -/
def Text.IsName (n : Text) : Prop := n ≠ [] ∧ n ≠ ['.'] ∧ n ≠ ['.', '.'] ∧ '/' ∉ n

instance (n : Text) : Decidable n.IsName := inferInstanceAs (Decidable (_ ∧ _ ∧ _ ∧ _))

theorem Component.ofPiece?_normal {n : Text} (hempty : n ≠ []) (hdot : n ≠ ['.'])
    (hdots : n ≠ ['.', '.']) : ofPiece? n = some (normal n) := by
  unfold ofPiece?
  split
  · exact absurd rfl hempty
  · exact absurd rfl hdot
  · exact absurd rfl hdots
  · rfl

theorem Component.ofPiece?_name {n : Text} (h : n.IsName) : ofPiece? n = some (normal n) :=
  ofPiece?_normal h.1 h.2.1 h.2.2.1

theorem Component.foldl_move_normal (l : Location) (names : List Text) :
    (names.map normal).foldl move l = l ++ names := by
  induction names generalizing l with
  | nil => simp
  | cons n names ih =>
      rw [List.map_cons, List.foldl_cons, ih]
      simp [move]

namespace Path

/-! ## Pieces -/

theorem pieces_ne_nil (t : Text) : pieces t ≠ [] := by
  cases t with
  | nil => simp [pieces]
  | cons c t =>
      unfold pieces
      split
      · simp
      · split <;> simp

theorem pieces_append (u v : Text) : pieces (u ++ '/' :: v) = pieces u ++ pieces v := by
  induction u with
  | nil => simp [pieces]
  | cons c u ih =>
      by_cases hc : c = '/'
      · simp [pieces, hc, ih]
      · obtain ⟨p, ps, hps⟩ := List.exists_cons_of_ne_nil (pieces_ne_nil u)
        simp [pieces, hc, ih, hps]

theorem pieces_of_notMem {n : Text} (h : '/' ∉ n) : pieces n = [n] := by
  induction n with
  | nil => rfl
  | cons c n ih =>
      rw [List.mem_cons, not_or] at h
      simp [pieces, Ne.symm h.1, ih h.2]

/-- The path of an entry is written as the folder, a slash and the name, without a second slash where
the folder ends in one. -/
theorem exists_join (p : Path) (n : Text) :
    ∃ u, (p.join n).text = u ++ '/' :: n ∧ (p.text = u ∨ p.text = u ++ ['/']) := by
  unfold join
  split
  · next hends =>
      rw [Text.endsWith, beq_iff_eq] at hends
      obtain ⟨u, hu⟩ := List.getLast?_eq_some_iff.mp hends
      refine ⟨u, ?_, Or.inr hu⟩
      simp [hu]
  · exact ⟨p.text, rfl, Or.inl rfl⟩

theorem pieces_join {p : Path} {n : Text} (hn : n.IsName) :
    ∃ first rest, pieces (p.join n).text = first :: (rest ++ [n]) ∧
      (pieces p.text = first :: rest ∨ pieces p.text = first :: (rest ++ [[]])) := by
  obtain ⟨u, hjoin, hp⟩ := p.exists_join n
  obtain ⟨first, rest, hu⟩ := List.exists_cons_of_ne_nil (pieces_ne_nil u)
  refine ⟨first, rest, ?_, ?_⟩
  · rw [hjoin, pieces_append, pieces_of_notMem hn.2.2.2, hu, List.cons_append]
  · rcases hp with hp | hp
    · exact Or.inl (by rw [hp, hu])
    · right
      rw [hp, pieces_append, hu]
      rfl

theorem isAbsolute_join {p : Path} {n : Text} (hp : p.text ≠ []) :
    (p.join n).isAbsolute = p.isAbsolute := by
  obtain ⟨u, hjoin, hu | hu⟩ := p.exists_join n
  · rw [isAbsolute, isAbsolute, hjoin, ← hu]
    obtain ⟨c, cs, hc⟩ := List.exists_cons_of_ne_nil hp
    rw [hc]
    rfl
  · rw [isAbsolute, isAbsolute, hjoin, hu]
    cases u <;> rfl

/-- **An entry has the components of its folder and one more, its name.** -/
theorem components_join {p : Path} {n : Text} (hp : p.text ≠ []) (hn : n.IsName) :
    (p.join n).components = p.components ++ [.normal n] := by
  obtain ⟨first, rest, hjoin, hpieces⟩ := pieces_join (p := p) hn
  unfold components
  rw [hjoin, isAbsolute_join hp]
  rcases hpieces with hpieces | hpieces
  · rw [hpieces]
    simp [Component.ofPiece?_name hn]
  · rw [hpieces]
    simp [Component.ofPiece?_name hn, show Component.ofPiece? [] = none from rfl]

theorem text_join_ne_nil (p : Path) (n : Text) : (p.join n).text ≠ [] := by
  obtain ⟨u, hjoin, -⟩ := p.exists_join n
  rw [hjoin]
  simp

theorem components_joinAll {p : Path} {names : List Text} (hp : p.text ≠ [])
    (hnames : ∀ n ∈ names, Text.IsName n) :
    (names.foldl join p).components = p.components ++ names.map .normal := by
  induction names generalizing p with
  | nil => simp
  | cons n names ih =>
      rw [List.foldl_cons, ih (p.text_join_ne_nil n) fun m hm => hnames m (List.mem_cons_of_mem n hm),
        components_join hp (hnames n List.mem_cons_self)]
      simp

end Path

namespace FileTree

variable {t : FileTree} {l k : Location} {p : Path}

/-! ## Following a path -/

theorem follow_cons (t : FileTree) (l : Location) (piece : Text) (ps : List Text) :
    t.follow l (piece :: ps) =
      if t.isFolder l then t.follow ((Component.ofPiece? piece).elim l (Component.move l)) ps
      else if (t.file? l).isSome then .error .notFolder else .error .notFound := by
  rw [follow.eq_def]
  dsimp only
  by_cases hl : t.isFolder l = true
  · rw [if_pos hl, if_pos hl]
    split
    · rfl
    · rfl
    · rfl
    · next hempty hdot hdots =>
        rw [Component.ofPiece?_normal hempty hdot hdots]
        rfl
  · rw [if_neg hl, if_neg hl]

theorem follow_append (t : FileTree) (l : Location) (ps qs : List Text) :
    t.follow l (ps ++ qs) = (t.follow l ps).bind fun k => t.follow k qs := by
  induction ps generalizing l with
  | nil => rfl
  | cons p ps ih =>
      rw [List.cons_append, follow_cons, follow_cons]
      by_cases hl : t.isFolder l = true
      · rw [if_pos hl, if_pos hl, ih]
      · rw [if_neg hl, if_neg hl]
        split <;> rfl

/-- Where pieces can be followed, they lead where their components do. -/
theorem follow_eq_ok {ps : List Text} (h : t.follow l ps = .ok k) :
    k = (ps.filterMap Component.ofPiece?).foldl Component.move l := by
  induction ps generalizing l with
  | nil =>
      cases h
      rfl
  | cons p ps ih =>
      rw [follow_cons] at h
      split at h
      · rw [ih h]
        cases hp : Component.ofPiece? p with
        | none => rw [List.filterMap_cons_none hp]; rfl
        | some c => rw [List.filterMap_cons_some hp]; rfl
      · split at h <;> cases h

/-- Where a path starts from. -/
def base (t : FileTree) (p : Path) : Location := if p.isAbsolute then [] else t.here

theorem locate_eq (t : FileTree) (hp : p.text ≠ []) :
    t.locate p = t.follow (t.base p) (Path.pieces p.text) := by
  unfold locate base Path.isAbsolute
  split
  · next h => exact absurd h hp
  · next rest h =>
      -- the root is a folder, so the empty piece in front of the first slash is passed over
      have hroot : t.isFolder [] = true := by simp [isFolder]
      have hhead : (('/' :: rest).head? == some '/') = true := rfl
      rw [h, if_pos hhead, Path.pieces, if_pos rfl, follow_cons, if_pos hroot]
      rfl
  · next h =>
      have hhead : ¬ (p.text.head? == some '/') = true := by
        intro hslash
        obtain ⟨rest, hrest⟩ := List.head?_eq_some_iff.mp (beq_iff_eq.mp hslash)
        exact h rest hrest
      rw [if_neg hhead]

theorem text_ne_nil (h : t.locate p = .ok l) : p.text ≠ [] := by
  intro hp
  simp [locate, hp] at h

/-- **A path leads where its components do.** -/
theorem locate_eq_ok (h : t.locate p = .ok l) : l = p.components.foldl Component.move t.here := by
  rw [locate_eq t (text_ne_nil h)] at h
  rw [follow_eq_ok h]
  obtain ⟨first, rest, hpieces⟩ := List.exists_cons_of_ne_nil (Path.pieces_ne_nil p.text)
  unfold base Path.components
  rw [hpieces, List.foldl_append]
  by_cases habs : p.isAbsolute = true
  · -- an absolute path has nothing in front of its first slash
    have hfirst : first = [] := by
      obtain ⟨cs, hcs⟩ := List.head?_eq_some_iff.mp (beq_iff_eq.mp habs)
      rw [hcs, Path.pieces, if_pos rfl] at hpieces
      exact (List.cons.inj hpieces).1.symm
    rw [if_pos habs, if_pos habs, hfirst]
    rfl
  · rw [if_neg habs, if_neg habs]
    by_cases hdot : first = ['.']
    · rw [if_pos hdot, hdot]
      rfl
    · rw [if_neg hdot]
      cases hc : Component.ofPiece? first with
      | none => rw [List.filterMap_cons_none hc]; rfl
      | some c => rw [List.filterMap_cons_some hc]; rfl

/-- The path of an entry leads to the entry. -/
theorem locate_join {n : Text} (h : t.locate p = .ok l) (hl : t.isFolder l = true)
    (hn : n.IsName) : t.locate (p.join n) = .ok (l ++ [n]) := by
  have hp := text_ne_nil h
  rw [locate_eq t hp] at h
  rw [locate_eq t (p.text_join_ne_nil n), base, Path.isAbsolute_join hp, ← base]
  have hlast : t.follow l [n] = .ok (l ++ [n]) := by
    rw [follow_cons, if_pos hl, Component.ofPiece?_name hn]
    rfl
  obtain ⟨first, rest, hjoin, hpieces | hpieces⟩ := Path.pieces_join (p := p) hn
  · rw [hjoin, ← List.cons_append, follow_append, ← hpieces, h]
    exact hlast
  · -- the slash at the end of the folder leads to the folder itself
    rw [hpieces, ← List.cons_append, follow_append] at h
    rw [hjoin, ← List.cons_append, follow_append]
    cases hfront : t.follow (t.base p) (first :: rest) with
    | error e =>
        rw [hfront] at h
        cases h
    | ok m =>
        rw [hfront] at h
        have hm : t.follow m [[]] = .ok l := h
        rw [follow_cons] at hm
        split at hm
        · cases hm
          exact hlast
        · split at hm <;> cases hm

/-! ## Files in a folder -/

/-- All files have proper names on the way to them. -/
def Named (t : FileTree) : Prop := ∀ f ∈ t.files, ∀ n ∈ f.1, Text.IsName n

instance (t : FileTree) : Decidable t.Named := List.decidableBAll _ _

theorem below?_eq_some {m names : Location} (h : below? l m = some names) : m = l ++ names := by
  induction l generalizing m with
  | nil =>
      cases h
      rfl
  | cons a l ih =>
      cases m with
      | nil => cases h
      | cons b m =>
          rw [below?] at h
          split at h
          · next hab => rw [hab, ih h, List.cons_append]
          · cases h

/-- A location on the way to a file is a folder. -/
theorem isFolder_of_file {f : Location × Content} {names : Location} (hf : f ∈ t.files)
    (heq : f.1 = l ++ names) (hne : names ≠ []) : t.isFolder l = true := by
  unfold isFolder
  rw [Bool.or_eq_true]
  right
  rw [List.any_eq_true]
  refine ⟨f, hf, ?_⟩
  rw [heq, List.dropLast_append_of_ne_nil hne, List.isPrefixOf_iff_prefix]
  exact List.prefix_append l _

theorem isSome_file? {f : Location × Content} (hf : f ∈ t.files) : (t.file? f.1).isSome = true := by
  rw [Option.isSome_iff_ne_none, file?, ne_eq, List.lookup_eq_none_iff]
  intro hnone
  exact absurd (hnone f hf) (by simp)

/-- **The names below a folder, joined to its path, lead to the file with those names.** -/
theorem locate_joinAll {f : Location × Content} {names : Location} (hf : f ∈ t.files)
    (hnames : ∀ n ∈ names, Text.IsName n) (h : t.locate p = .ok l) (heq : f.1 = l ++ names) :
    t.locate (names.foldl Path.join p) = .ok (l ++ names) := by
  induction names generalizing p l with
  | nil => rw [List.foldl_nil, List.append_nil, h]
  | cons n names ih =>
      -- the path and the location go one name further together
      have hfolder := isFolder_of_file hf heq (List.cons_ne_nil n names)
      have hstep := locate_join h hfolder (hnames n List.mem_cons_self)
      have hsplit : l ++ n :: names = l ++ [n] ++ names := by simp
      rw [List.foldl_cons, hsplit]
      exact ih (fun m hm => hnames m (List.mem_cons_of_mem n hm)) hstep (heq.trans hsplit)

end FileTree

/-! ## The paths of a run -/

namespace Path

variable {p q : Path} {ps seen : List Path}

theorem any_same : seen.any p.same = true ↔ ∃ q ∈ seen, p.components = q.components := by
  simp [same]

theorem mem_of_mem_distinct (h : p ∈ distinct seen ps) :
    p ∈ ps ∧ ∀ q ∈ seen, p.components ≠ q.components := by
  induction ps generalizing seen with
  | nil => cases h
  | cons r ps ih =>
      rw [distinct] at h
      split at h
      · obtain ⟨hmem, hne⟩ := ih h
        exact ⟨List.mem_cons_of_mem r hmem, hne⟩
      · next hseen =>
          rw [any_same] at hseen
          rcases List.mem_cons.mp h with rfl | h
          · exact ⟨List.mem_cons_self, fun q hq heq => hseen ⟨q, hq, heq⟩⟩
          · obtain ⟨hmem, hne⟩ := ih h
            exact ⟨List.mem_cons_of_mem r hmem, fun q hq => hne q (List.mem_cons_of_mem r hq)⟩

/-- No two of the paths that are left have the same components. -/
theorem distinct_pairwise (seen ps : List Path) :
    (distinct seen ps).Pairwise fun p q => p.components ≠ q.components := by
  induction ps generalizing seen with
  | nil => exact List.Pairwise.nil
  | cons r ps ih =>
      rw [distinct]
      split
      · exact ih seen
      · refine List.pairwise_cons.mpr ⟨?_, ih (r :: seen)⟩
        intro q hq
        exact Ne.symm ((mem_of_mem_distinct hq).2 r List.mem_cons_self)

/-- For every path one with the same components is left or was seen before. -/
theorem exists_mem_distinct (seen : List Path) (h : p ∈ ps) :
    ∃ q ∈ seen ++ distinct seen ps, q.components = p.components := by
  induction ps generalizing seen with
  | nil => cases h
  | cons r ps ih =>
      rw [distinct]
      split
      · next hseen =>
          rcases List.mem_cons.mp h with rfl | h
          · obtain ⟨q, hq, heq⟩ := any_same.mp hseen
            exact ⟨q, List.mem_append_left _ hq, heq.symm⟩
          · exact ih seen h
      · rcases List.mem_cons.mp h with rfl | h
        · exact ⟨p, by simp, rfl⟩
        · obtain ⟨q, hq, heq⟩ := ih (r :: seen) h
          exact ⟨q, List.perm_middle.mem_iff.mpr hq, heq⟩

end Path

namespace FileTree

variable {t : FileTree} {c : Config} {inputs files : List Path}

/-- The input stands for the path: it is the path of a file, or the file was found below it. -/
def Stands (t : FileTree) (c : Config) (input p : Path) : Prop :=
  ∃ found, t.contributed? c input = some found ∧ p ∈ found

/-- **A path that an input stands for** has the components of the input followed by the names from there
to a file, and it leads to that file. -/
theorem Stands.exists_names {i p : Path} (h : t.Stands c i p) (ht : t.Named) :
    ∃ l names, t.locate i = .ok l ∧ t.locate p = .ok (l ++ names) ∧
      p.components = i.components ++ names.map .normal ∧ (t.file? (l ++ names)).isSome = true := by
  obtain ⟨found, hfound, hp⟩ := h
  unfold contributed? at hfound
  split at hfound
  · cases hfound
  · next l hl =>
      split at hfound
      · next hfile =>
          -- a file stands for itself, with no names below it
          cases hfound
          rw [List.mem_singleton.mp hp]
          exact ⟨l, [], hl, by simp [hl], by simp, by simpa using hfile⟩
      · split at hfound
        · -- below a folder, the names are those that are left of the file's location
          cases hfound
          obtain ⟨hp, -⟩ := List.mem_filter.mp (mem_sortedBy.mp hp)
          obtain ⟨names, hnames, rfl⟩ := List.mem_map.mp hp
          obtain ⟨f, hf, hbelow⟩ := List.mem_filterMap.mp (List.mem_filter.mp hnames).1
          have heq := below?_eq_some hbelow
          have hproper : ∀ n ∈ names, Text.IsName n := by
            intro n hn
            refine ht f hf n ?_
            rw [heq]
            exact List.mem_append_right l hn
          exact ⟨l, names, hl, locate_joinAll hf hproper hl heq,
            Path.components_joinAll (text_ne_nil hl) hproper, heq ▸ isSome_file? hf⟩
        · cases hfound

theorem mem_contributions {ps : List Path} (h : t.contributions c inputs = .ok ps) {p : Path} :
    p ∈ ps ↔ ∃ i ∈ inputs, t.Stands c i p := by
  induction inputs generalizing ps with
  | nil =>
      cases h
      simp
  | cons i inputs ih =>
      rw [contributions] at h
      split at h
      · cases h
      · next found hfound =>
          split at h
          · cases h
          · next rest hrest =>
              cases h
              have hstands : t.Stands c i p ↔ p ∈ found := by
                simp [Stands, hfound]
              rw [List.mem_append, ih hrest, ← hstands]
              simp

theorem collect_eq_ok (h : t.collect c inputs = .ok files) :
    ∃ ps, (∀ p, p ∈ ps ↔ ∃ i ∈ inputs, t.Stands c i p) ∧ files = Path.distinct [] ps := by
  unfold collect at h
  split at h
  · cases h
  · next ps hps =>
      cases h
      exact ⟨ps, fun p => mem_contributions hps, rfl⟩

/-! ## When two inputs overlap -/

theorem apart_iff_pairwise (t : FileTree) (files : List Path) :
    t.Apart files ↔ files.Pairwise fun p q => ∀ l, t.locate p = .ok l → t.locate q ≠ .ok l := by
  have hloc : ∀ p l, (t.locate p).toOption = some l ↔ t.locate p = .ok l := by
    intro p l
    cases t.locate p <;> simp [Except.toOption]
  rw [Apart, List.Nodup, List.pairwise_filterMap]
  simp only [hloc]
  constructor
  · intro h
    exact h.imp fun hne l hp hq => hne l hp l hq rfl
  · intro h
    refine h.imp ?_
    rintro p q hne l hp m hq rfl
    exact hne l hp hq

/-- Paths with the same components that both lead somewhere lead to the same location. -/
theorem locate_eq_of_components {p q : Path} {l m : Location} (hp : t.locate p = .ok l)
    (hq : t.locate q = .ok m) (h : p.components = q.components) : l = m := by
  rw [locate_eq_ok hp, locate_eq_ok hq, h]

/-- Two inputs share a file, and the second is below the first, with the given names between them. -/
def Overlap (t : FileTree) (c : Config) (i j : Path) (names : Location) : Prop :=
  ∃ l p q, t.locate i = .ok l ∧ t.locate j = .ok (l ++ names) ∧ t.Stands c i p ∧ t.Stands c j q ∧
    t.locate p = t.locate q

/-- Where two inputs share a file, the components of the lower one are those of the upper one and then
the names between them. -/
def Agree (t : FileTree) (c : Config) (inputs : List Path) : Prop :=
  ∀ i ∈ inputs, ∀ j ∈ inputs, ∀ names, t.Overlap c i j names →
    j.components = i.components ++ names.map .normal

/-- **A file that two inputs share** is found under the same components from both exactly when the
inputs agree. -/
theorem Stands.components_eq_iff {i j p q : Path} {l names : Location} (ht : t.Named)
    (hp : t.Stands c i p) (hq : t.Stands c j q) (hi : t.locate i = .ok l)
    (hj : t.locate j = .ok (l ++ names)) (heq : t.locate p = t.locate q) :
    p.components = q.components ↔ j.components = i.components ++ names.map .normal := by
  obtain ⟨l₁, xs, hi', hp', hpc, -⟩ := hp.exists_names ht
  obtain ⟨l₂, ys, hj', hq', hqc, -⟩ := hq.exists_names ht
  cases hi.symm.trans hi'
  cases hj.symm.trans hj'
  -- from the upper input the file has the names between the inputs and then those from the lower one
  rw [hp', hq', Except.ok.injEq, List.append_assoc, List.append_cancel_left_eq] at heq
  rw [hpc, hqc, heq, List.map_append, ← List.append_assoc, List.append_cancel_right_eq, eq_comm]

/-- The inputs agree when files that stand for two of them at one place have the same components. -/
theorem agree_iff (ht : t.Named) :
    t.Agree c inputs ↔ ∀ i ∈ inputs, ∀ j ∈ inputs, ∀ p q, t.Stands c i p → t.Stands c j q →
      t.locate p = t.locate q → p.components = q.components := by
  constructor
  · intro h i hi j hj p q hp hq heq
    obtain ⟨l, xs, hli, hlp, -⟩ := hp.exists_names ht
    obtain ⟨m, ys, hmj, hmq, -⟩ := hq.exists_names ht
    have hplace : l ++ xs = m ++ ys := by
      rw [hlp, hmq] at heq
      exact Except.ok.inj heq
    -- One of the two inputs is at or below the other, since a file has one place only.
    rcases List.append_eq_append_iff.mp hplace with ⟨zs, rfl, -⟩ | ⟨zs, rfl, -⟩
    · exact (hp.components_eq_iff ht hq hli hmj heq).mpr
        (h i hi j hj zs ⟨l, p, q, hli, hmj, hp, hq, heq⟩)
    · exact ((hq.components_eq_iff ht hp hmj hli heq.symm).mpr
        (h j hj i hi zs ⟨m, q, p, hmj, hli, hq, hp, heq.symm⟩)).symm
  · rintro h i hi j hj names ⟨l, p, q, hli, hlj, hp, hq, heq⟩
    exact (hp.components_eq_iff ht hq hli hlj heq).mp (h i hi j hj p q hp hq heq)

/-- Inputs that are written in one way agree: after the same components they have names only. -/
theorem agree_of_lead {lead : List Component}
    (h : ∀ i ∈ inputs, ∃ names : Location, i.components = lead ++ names.map .normal) :
    t.Agree c inputs := by
  rintro i hi j hj names ⟨l, p, q, hli, hlj, -, -, -⟩
  obtain ⟨xs, hxs⟩ := h i hi
  obtain ⟨ys, hys⟩ := h j hj
  -- both inputs are followed from where the components in front of their names lead
  have hplace : ∀ {k zs m}, k.components = lead ++ zs.map Component.normal → t.locate k = .ok m →
      m = lead.foldl Component.move t.here ++ zs := by
    intro k zs m hk hm
    rw [locate_eq_ok hm, hk, List.foldl_append, Component.foldl_move_normal]
  have hnames : ys = xs ++ names := by
    have heq := hplace hys hlj
    rw [hplace hxs hli, List.append_assoc, List.append_cancel_left_eq] at heq
    exact heq.symm
  calc j.components = lead ++ (xs ++ names).map .normal := by rw [hys, hnames]
    _ = i.components ++ names.map .normal := by rw [hxs, List.map_append, List.append_assoc]

theorem mem_collect (h : t.collect c inputs = .ok files) {p : Path} (hp : p ∈ files) :
    ∃ i ∈ inputs, t.Stands c i p := by
  obtain ⟨ps, hps, rfl⟩ := collect_eq_ok h
  exact (hps p).mp (Path.mem_of_mem_distinct hp).1

/-- For every path that an input stands for, one with the same components is collected. -/
theorem exists_mem_collect (ht : t.Named) (h : t.collect c inputs = .ok files) {i p : Path}
    {l : Location} (hi : i ∈ inputs) (hp : t.Stands c i p) (hl : t.locate p = .ok l) :
    ∃ q ∈ files, q.components = p.components ∧ t.locate q = .ok l := by
  obtain ⟨ps, hps, hfiles⟩ := collect_eq_ok h
  obtain ⟨q, hq, hcomponents⟩ := Path.exists_mem_distinct [] ((hps p).mpr ⟨i, hi, hp⟩)
  rw [List.nil_append, ← hfiles] at hq
  obtain ⟨j, -, hstands⟩ := mem_collect h hq
  obtain ⟨m, names, -, hm, -⟩ := hstands.exists_names ht
  exact ⟨q, hq, hcomponents, by rw [hm, locate_eq_of_components hm hl hcomponents]⟩

theorem apart_iff_agree (ht : t.Named) (h : t.collect c inputs = .ok files) :
    t.Apart files ↔ t.Agree c inputs := by
  rw [agree_iff ht]
  constructor
  · intro hapart i hi j hj p q hp hq heq
    obtain ⟨l, names, -, hl, -⟩ := hp.exists_names ht
    obtain ⟨p', hp', hpc, hpl⟩ := exists_mem_collect ht h hi hp hl
    obtain ⟨q', hq', hqc, hql⟩ := exists_mem_collect ht h hj hq (heq ▸ hl)
    rw [← hpc, ← hqc]
    by_contra hne
    obtain ⟨before, after, rfl⟩ := List.append_of_mem hp'
    have hother : q' ∈ before ++ after := by
      have hne' : q' ≠ p' := by
        rintro rfl
        exact hne rfl
      simpa [hne'] using hq'
    exact hapart.locate_ne hpl hother hql
  · intro hagree
    rw [apart_iff_pairwise]
    obtain ⟨ps, -, hfiles⟩ := collect_eq_ok h
    have hdistinct := Path.distinct_pairwise [] ps
    rw [← hfiles] at hdistinct
    refine hdistinct.imp_of_mem ?_
    intro p q hp hq hne l hpl hql
    obtain ⟨i, hi, hstands⟩ := mem_collect h hp
    obtain ⟨j, hj, hstands'⟩ := mem_collect h hq
    exact hne (hagree i hi j hj p q hstands hstands' (hpl.trans hql.symm))

end FileTree

/-! ## The files at hand -/

/-- The file that a worker has read and not yet written back. -/
def Stage.location? : Stage → Option Location
  | opened _ (.ok (l, _)) => some l
  | _ => none

/-- The files that the workers have at hand. -/
def Crew.inUse (k : Crew) : List Location := k.stages.filterMap fun e => e.2.location?

theorem Stage.location?_eq_some {s : Stage} {l : Location} (h : s.location? = some l) :
    ∃ worker source, s = .opened worker (.ok (l, source)) := by
  unfold location? at h
  split at h
  · cases h
    exact ⟨_, _, rfl⟩
  · cases h

/-- At no time is a file at hand twice when the paths are apart. -/
theorem Crew.Reaches.inUse_nodup {t : FileTree} {c : Config} {files : List Path} {k : Crew}
    {sessions : Nat → Session} (h : Reaches c (start t sessions files) k) (hapart : t.Apart files) :
    k.inUse.Nodup := by
  have haccounted := h.accounted
  have hlocate : ∀ {e l}, e ∈ k.stages → e.2.location? = some l → t.locate e.1 = .ok l := by
    rintro ⟨p, stage⟩ l he hl
    obtain ⟨worker, source, rfl⟩ := Stage.location?_eq_some hl
    exact (haccounted.opened he).1
  rw [← haccounted.paths, FileTree.apart_iff_pairwise, List.pairwise_map] at hapart
  rw [inUse, List.Nodup, List.pairwise_filterMap]
  refine hapart.imp_of_mem ?_
  rintro e e' he he' hne l hl m hm rfl
  exact hne l (hlocate he hl) (hlocate he' hm)

namespace FileTree

/-- **No file is collected twice exactly when the inputs agree.** The paths that are collected lead to
files, to those that the inputs stand for and to no other. Two of them lead to the same file exactly when
two inputs share it and are not written alike up to there, so never when all inputs have the same
components before their names. With paths that are apart no two workers have a file at hand at the same
time. -/
theorem collected_files_apart_iff {t : FileTree} {c : Config} {inputs files : List Path}
    (ht : t.Named) (h : t.collect c inputs = .ok files) :
    (∀ p ∈ files, ∃ l, t.locate p = .ok l ∧ (t.file? l).isSome = true) ∧
    (∀ l, (∃ p ∈ files, t.locate p = .ok l) ↔
      ∃ i ∈ inputs, ∃ p, t.Stands c i p ∧ t.locate p = .ok l) ∧
    (t.Apart files ↔ t.Agree c inputs) ∧
    (∀ lead : List Component,
      (∀ i ∈ inputs, ∃ names : Location, i.components = lead ++ names.map .normal) →
      t.Apart files) ∧
    (t.Apart files → ∀ sessions k, Crew.Reaches c (.start t sessions files) k → k.inUse.Nodup) := by
  refine ⟨?_, ?_, apart_iff_agree ht h, ?_, ?_⟩
  · intro p hp
    obtain ⟨i, -, hstands⟩ := mem_collect h hp
    obtain ⟨l, names, -, hl, -, hfile⟩ := hstands.exists_names ht
    exact ⟨l ++ names, hl, hfile⟩
  · intro l
    constructor
    · rintro ⟨p, hp, hl⟩
      obtain ⟨i, hi, hstands⟩ := mem_collect h hp
      exact ⟨i, hi, p, hstands, hl⟩
    · rintro ⟨i, hi, p, hstands, hl⟩
      obtain ⟨q, hq, -, hql⟩ := exists_mem_collect ht h hi hstands hl
      exact ⟨q, hq, hql⟩
  · intro lead hlead
    exact (apart_iff_agree ht h).mpr (agree_of_lead hlead)
  · intro hapart sessions k hreaches
    exact hreaches.inUse_nodup hapart

set_option maxRecDepth 100000 in
/-- A folder, a file in it that is written with two slashes, and a file next to it. -/
theorem overlapping_inputs_agree :
    mixedFolder.Named ∧
      mixedFolder.collect .initial [⟨"src".toList⟩, ⟨"src//a.ts".toList⟩, ⟨"notes.txt".toList⟩] =
        .ok [⟨"src/a.ts".toList⟩, ⟨"src/b.tsx".toList⟩, ⟨"src/c.ts".toList⟩, ⟨"src/d.ts".toList⟩,
          ⟨"src/e.ts".toList⟩, ⟨"notes.txt".toList⟩] ∧
      mixedFolder.Agree .initial [⟨"src".toList⟩, ⟨"src//a.ts".toList⟩, ⟨"notes.txt".toList⟩] ∧
      ∀ sessions k, Crew.Reaches .initial (.start mixedFolder sessions [⟨"src/a.ts".toList⟩,
        ⟨"src/b.tsx".toList⟩, ⟨"src/c.ts".toList⟩, ⟨"src/d.ts".toList⟩, ⟨"src/e.ts".toList⟩,
        ⟨"notes.txt".toList⟩]) k → k.inUse.Nodup := by
  have hnamed : mixedFolder.Named := by decide +kernel
  have hfiles : mixedFolder.collect .initial
      [⟨"src".toList⟩, ⟨"src//a.ts".toList⟩, ⟨"notes.txt".toList⟩] =
        .ok [⟨"src/a.ts".toList⟩, ⟨"src/b.tsx".toList⟩, ⟨"src/c.ts".toList⟩, ⟨"src/d.ts".toList⟩,
          ⟨"src/e.ts".toList⟩, ⟨"notes.txt".toList⟩] := by decide +kernel
  obtain ⟨-, -, hiff, hlead, huse⟩ := collected_files_apart_iff hnamed hfiles
  have happart := hlead [] (by
    intro i hi
    simp only [List.mem_cons, List.not_mem_nil, or_false] at hi
    rcases hi with rfl | rfl | rfl
    · exact ⟨["src".toList], by decide +kernel⟩
    · exact ⟨["src".toList, "a.ts".toList], by decide +kernel⟩
    · exact ⟨["notes.txt".toList], by decide +kernel⟩)
  exact ⟨hnamed, hfiles, hiff.mp happart, huse happart⟩

/-- A folder with one file. -/
def loneFile : FileTree where
  files := [(["a.ts".toList], .text "x.toPromise();\n".toList)]
  folders := []
  here := []

set_option maxRecDepth 100000 in
/-- With a dot in front the file is another one: it is collected twice, and two workers can have it at
hand at the same time. -/
theorem lone_file_collected_twice :
    loneFile.Named ∧
      loneFile.collect .initial [⟨"a.ts".toList⟩, ⟨"./a.ts".toList⟩] =
        .ok [⟨"a.ts".toList⟩, ⟨"./a.ts".toList⟩] ∧
      ¬ loneFile.Apart [⟨"a.ts".toList⟩, ⟨"./a.ts".toList⟩] ∧
      ∃ k, Crew.Reaches .initial
          (.start loneFile (fun _ => .fresh) [⟨"a.ts".toList⟩, ⟨"./a.ts".toList⟩]) k ∧
        k.inUse = [["a.ts".toList], ["a.ts".toList]] := by
  refine ⟨by decide +kernel, by decide +kernel, by decide +kernel, _,
    Crew.reaches_opened_both .initial loneFile (fun _ => .fresh) _ _, ?_⟩
  decide +kernel

end FileTree

end Promisify
