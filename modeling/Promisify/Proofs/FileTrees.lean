import Mathlib.Data.List.Nodup
import Promisify.FileTree

set_option autoImplicit false

/-! # Writing to files

A file that is there can be given a new text. Neither what there is in the tree nor where a path leads
changes with it (`SamePlaces`), so what is read through a path to another file stays the same. Texts
written to different files can be written in any order (`put_writeAll`).
-/

namespace Promisify

namespace FileTree

variable {t u v : FileTree} {l k : Location} {p : Path}

/-! ## One file -/

theorem lookup_putFile (l k : Location) (c : Content) (fs : List (Location × Content)) :
    (putFile l c fs).lookup k = if k = l then some c else fs.lookup k := by
  induction fs with
  | nil =>
      by_cases hk : k = l
      · simp [putFile, hk]
      · simp [putFile, List.lookup_cons, beq_false_of_ne hk, hk]
  | cons f fs ih =>
      obtain ⟨m, d⟩ := f
      rw [putFile]
      by_cases hm : m = l
      · subst hm
        by_cases hk : k = m
        · simp [hk]
        · simp [List.lookup_cons, beq_false_of_ne hk, hk]
      · rw [if_neg hm, List.lookup_cons, List.lookup_cons, ih]
        by_cases hkm : k = m
        · subst hkm
          simp [hm]
        · simp [beq_false_of_ne hkm]

theorem file?_put (t : FileTree) (l k : Location) (c : Content) :
    (t.put l c).file? k = if k = l then some c else t.file? k := lookup_putFile l k c t.files

theorem any_putFile (g : Location → Bool) {fs : List (Location × Content)} (c : Content)
    (hl : (fs.lookup l).isSome = true) :
    ((putFile l c fs).any fun f => g f.1) = fs.any fun f => g f.1 := by
  induction fs with
  | nil => simp at hl
  | cons f fs ih =>
      obtain ⟨m, d⟩ := f
      rw [putFile]
      by_cases hm : m = l
      · simp [hm]
      · rw [List.lookup_cons, beq_false_of_ne (Ne.symm hm)] at hl
        rw [if_neg hm, List.any_cons, List.any_cons, ih hl]

/-- What is written to two files can be written in either order. -/
theorem putFile_comm {fs : List (Location × Content)} (c d : Content)
    (hl : (fs.lookup l).isSome = true) (hne : l ≠ k) :
    putFile l c (putFile k d fs) = putFile k d (putFile l c fs) := by
  induction fs with
  | nil => simp at hl
  | cons f fs ih =>
      obtain ⟨m, e⟩ := f
      by_cases hm : m = l
      · subst hm
        simp [putFile, hne]
      · rw [List.lookup_cons, beq_false_of_ne (Ne.symm hm)] at hl
        by_cases hk : m = k
        · subst hk
          simp [putFile, hm]
        · simp [putFile, hm, hk, ih hl]

/-! ## Places -/

/-- The files and folders of `t` are those of `u`, and files refuse the same; what they hold may
differ. -/
structure SamePlaces (t u : FileTree) : Prop where
  file : ∀ l, (u.file? l).isSome = (t.file? l).isSome
  folder : ∀ l, u.isFolder l = t.isFolder l
  here : u.here = t.here
  unreadable : u.unreadable = t.unreadable
  unwritable : u.unwritable = t.unwritable

namespace SamePlaces

theorem refl (t : FileTree) : t.SamePlaces t := ⟨fun _ => rfl, fun _ => rfl, rfl, rfl, rfl⟩

theorem trans (h : t.SamePlaces u) (h' : u.SamePlaces v) : t.SamePlaces v where
  file := fun l => (h'.file l).trans (h.file l)
  folder := fun l => (h'.folder l).trans (h.folder l)
  here := h'.here.trans h.here
  unreadable := h'.unreadable.trans h.unreadable
  unwritable := h'.unwritable.trans h.unwritable

theorem put (hl : (t.file? l).isSome = true) (c : Content) : t.SamePlaces (t.put l c) where
  file := by
    intro k
    rw [file?_put]
    split
    · next hk => rw [hk, hl]; rfl
    · rfl
  folder := by
    intro k
    have hany := any_putFile (fun m => k.isPrefixOf m.dropLast) c hl
    simp only [isFolder, FileTree.put, hany]
  here := rfl
  unreadable := rfl
  unwritable := rfl

theorem follow (h : t.SamePlaces u) (l : Location) (ps : List Text) :
    u.follow l ps = t.follow l ps := by
  induction ps generalizing l with
  | nil => rfl
  | cons p ps ih => simp only [FileTree.follow, h.folder, h.file, ih]

/-- A path leads to the same location. -/
theorem locate (h : t.SamePlaces u) (p : Path) : u.locate p = t.locate p := by
  simp only [FileTree.locate, h.follow, h.here]

/-- What is read through a path depends on the file that it leads to only. -/
theorem read (h : t.SamePlaces u) (hp : ∀ l, t.locate p = .ok l → u.file? l = t.file? l) :
    u.read p = t.read p := by
  rw [FileTree.read, FileTree.read, h.locate]
  cases hl : t.locate p with
  | error e => rfl
  | ok l => simp only [hp l hl, h.folder, h.unreadable]

end SamePlaces

theorem read_eq_ok_iff {s : Text} : t.read p = .ok (l, s) ↔
    t.locate p = .ok l ∧ t.file? l = some (.text s) ∧ l ∉ t.unreadable := by
  constructor
  · intro h
    unfold read at h
    split at h
    · cases h
    · next m hm =>
        split at h
        · split at h <;> cases h
        · next content hcontent =>
            split at h
            · cases h
            · next hreadable =>
                split at h
                · cases h
                  exact ⟨hm, hcontent, by simpa using hreadable⟩
                · cases h
  · rintro ⟨hl, hfile, hreadable⟩
    simp [read, hl, hfile, hreadable]

/-! ## Many files -/

/-- The tree with texts written to files, one after another. -/
def writeAll (t : FileTree) (ws : List (Location × Text)) : FileTree :=
  ws.foldl (fun t w => t.put w.1 (.text w.2)) t

variable {ws : List (Location × Text)}

@[simp] theorem writeAll_nil (t : FileTree) : t.writeAll [] = t := rfl

@[simp] theorem writeAll_cons (t : FileTree) (w : Location × Text) (ws : List (Location × Text)) :
    t.writeAll (w :: ws) = (t.put w.1 (.text w.2)).writeAll ws := rfl

theorem writeAll_append (t : FileTree) (ws vs : List (Location × Text)) :
    t.writeAll (ws ++ vs) = (t.writeAll ws).writeAll vs := List.foldl_append

theorem SamePlaces.writeAll (h : ∀ w ∈ ws, (t.file? w.1).isSome = true) :
    t.SamePlaces (t.writeAll ws) := by
  induction ws generalizing t with
  | nil => exact .refl t
  | cons w ws ih =>
      have hput := SamePlaces.put (h w List.mem_cons_self) (.text w.2)
      refine hput.trans (ih fun w' hw' => ?_)
      rw [hput.file]
      exact h w' (List.mem_cons_of_mem w hw')

theorem file?_writeAll_of_ne (t : FileTree) (h : ∀ w ∈ ws, w.1 ≠ l) :
    (t.writeAll ws).file? l = t.file? l := by
  induction ws generalizing t with
  | nil => rfl
  | cons w ws ih =>
      obtain ⟨hw, hws⟩ := List.forall_mem_cons.mp h
      rw [writeAll_cons, ih _ hws, file?_put, if_neg (Ne.symm hw)]

/-- **A write can be made before writes to other files** as well as after them. -/
theorem put_writeAll (c : Content) (hl : (t.file? l).isSome = true) (h : ∀ w ∈ ws, w.1 ≠ l) :
    (t.writeAll ws).put l c = (t.put l c).writeAll ws := by
  induction ws generalizing t with
  | nil => rfl
  | cons w ws ih =>
      obtain ⟨hw, hws⟩ := List.forall_mem_cons.mp h
      have hl' : ((t.put w.1 (.text w.2)).file? l).isSome = true := by
        rw [file?_put, if_neg (Ne.symm hw)]
        exact hl
      have hcomm : (t.put w.1 (.text w.2)).put l c = (t.put l c).put w.1 (.text w.2) := by
        simp only [put, putFile_comm c (.text w.2) hl (Ne.symm hw)]
      rw [writeAll_cons, writeAll_cons, ih hl' hws, hcomm]

end FileTree

end Promisify
