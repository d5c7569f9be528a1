import Promisify.Proofs.Scanning
import Promisify.Proofs.Tree

set_option autoImplicit false

/-! # Layout of nodes

The nodes that a parser contributes lie in order between the place where it starts and the place
where it stops (`Laid`). No node starts or stops inside a comment, so that comments can be added to
the finished tree.

Nodes are checked one at a time: `Node.Placed` says of a node and its children what `Node.Sound` says
of the whole tree below it. What a node owes to its kind is kept apart from its layout
(`Node.Headed`).
-/

namespace Promisify

/-- The offset `k` does not lie inside the span. -/
def Span.spares (c : Span) (k : Nat) : Prop := c.stop ≤ k ∨ k ≤ c.start

/-- An offset where a node may start or stop: between two characters and inside no comment. -/
def Text.Free (t : Text) (cs : List Span) (k : Nat) : Prop :=
  t.IsBorder k ∧ ∀ c ∈ cs, c.spares k

/-- An offset stays free when only later comments are added. -/
theorem Text.Free.mono {t : Text} {cs cs' : List Span} {k : Nat} (h : t.Free cs k)
    (hcs : ∀ c ∈ cs', c ∈ cs ∨ k ≤ c.start) : t.Free cs' k := by
  refine ⟨h.1, ?_⟩
  intro c hc
  rcases hcs c hc with hc' | hk
  · exact h.2 c hc'
  · exact Or.inr hk

/-! ## Nodes -/

namespace Node

/-- A node that is neither a comment nor a mark. -/
def isCode (n : Node) : Bool := !(n.kind == .comment) && !n.isMark

theorem codeParts_eq (n : Node) : n.codeParts = n.children.filter isCode := rfl

/-- How the edges of an operation look: a postfix or binary operation starts with its operand, a
prefix operation in front of it, and a call stops with its arguments. Of what an import binds the
names in braces come last. -/
structure Edged (n : Node) : Prop where
  leading : n.kind = .nonNullExpression ∨ n.kind = .binaryExpression →
    n.codeParts.head?.map start = some n.start
  prefixed : n.kind = .awaitExpression ∨ n.kind = .unaryExpression →
    ∃ o, n.operand? = some o ∧ n.start < o.start
  closing : n.kind = .callExpression → (n.child? .arguments).map stop = some n.stop
  trailing : n.kind = .importClause → n.codeParts.Pairwise fun a _ => a.kind ≠ .namedImports

/-- The parts of a node between its parentheses and commas: something stands in front of each part
and behind it, and no name reaches up to a part, goes on behind one or reaches up to the end. -/
structure Enclosed (t : Text) (n : Node) : Prop where
  parens : ∃ u, t.span? n.span = some ('(' :: u ++ [')'])
  code : ∀ c ∈ n.children, c.isCode = true ∨ c.kind = .comment
  inside : ∀ c ∈ n.codeParts,
    n.start < c.start ∧ c.stop < n.stop ∧ t.nameBefore c.start = false
  behind : ∀ c ∈ n.codeParts, t.nameBehind c.stop = false
  apart : n.codeParts.Pairwise fun a b => a.stop < b.start
  closed : t.nameBefore n.stop = false

/-- A node of a tree without comments that fits its children and has its ends at free offsets.
Nothing stands in front of an operand yet. -/
structure Placed (t : Text) (cs : List Span) (n : Node) : Prop where
  fits : n.Fits
  edged : n.Edged
  enclosed : n.kind = .arguments → n.Enclosed t
  code : n.kind ≠ .comment
  front : ∀ o ∈ n.operand?, ∀ c ∈ n.children, o.start < c.stop
  start : t.Free cs n.start
  stop : t.Free cs n.stop

/-- A tree that is not empty and whose nodes are placed. -/
structure Sound (t : Text) (cs : List Span) (n : Node) : Prop where
  nonempty : n.start < n.stop
  placed : ∀ m ∈ n.preorder, m.Placed t cs

end Node

/-- Trees laid out in order between two offsets. -/
structure Laid (t : Text) (cs : List Span) (lo : Nat) (ns : List Node) (hi : Nat) : Prop where
  sound : ∀ n ∈ ns, n.Sound t cs
  inside : ∀ n ∈ ns, lo ≤ n.start ∧ n.stop ≤ hi
  ordered : ns.Pairwise fun a b => a.stop ≤ b.start

namespace Node

variable {t : Text} {cs : List Span} {n : Node}

theorem Sound.wellFormed (h : n.Sound t cs) : n.WellFormed := fun m hm => (h.placed m hm).fits

theorem Sound.of_mem_preorder {m : Node} (h : n.Sound t cs) (hm : m ∈ n.preorder) :
    m.Sound t cs := by
  refine ⟨?_, fun k hk => h.placed k (preorder_trans hm hk)⟩
  rcases mem_preorder.mp hm with rfl | hm'
  · exact h.nonempty
  · exact (h.wellFormed.within hm').2.1

/-- A tree stays sound when only comments behind it are added. -/
theorem Sound.mono {cs' : List Span} (h : n.Sound t cs)
    (hcs : ∀ c ∈ cs', c ∈ cs ∨ n.stop ≤ c.start) : n.Sound t cs' := by
  refine ⟨h.nonempty, ?_⟩
  intro m hm
  have hin := h.wellFormed.within_of_mem_preorder hm
  have hne := (h.of_mem_preorder hm).nonempty
  have hp := h.placed m hm
  refine ⟨hp.fits, hp.edged, hp.enclosed, hp.code, hp.front, hp.start.mono ?_, hp.stop.mono ?_⟩
  · intro c hc
    exact (hcs c hc).imp id fun hle => by omega
  · intro c hc
    exact (hcs c hc).imp id fun hle => by omega

/-- A node over sound children is sound when it is placed itself. -/
theorem Sound.of_children (hne : n.start < n.stop) (hn : n.Placed t cs)
    (hc : ∀ c ∈ n.children, c.Sound t cs) : n.Sound t cs := by
  refine ⟨hne, ?_⟩
  intro m hm
  rcases mem_preorder.mp hm with rfl | hm'
  · exact hn
  · obtain ⟨c, hcn, hmc⟩ := mem_descendants.mp hm'
    exact (hc c hcn).placed m hmc

theorem Placed.withField (h : n.Placed t cs) (f : Option Field) :
    (n.withField f).Placed t cs := by
  cases n
  exact ⟨⟨h.fits.nonempty, h.fits.inside, h.fits.ordered, h.fits.function, h.fits.object,
    h.fits.operand⟩,
    ⟨h.edged.leading, h.edged.prefixed, h.edged.closing, h.edged.trailing⟩,
    fun hk => ⟨(h.enclosed hk).parens, (h.enclosed hk).code, (h.enclosed hk).inside,
      (h.enclosed hk).behind, (h.enclosed hk).apart, (h.enclosed hk).closed⟩, h.code, h.front,
    h.start, h.stop⟩

theorem start_withField (n : Node) (f : Option Field) : (n.withField f).start = n.start := by
  cases n
  rfl

theorem stop_withField (n : Node) (f : Option Field) : (n.withField f).stop = n.stop := by
  cases n
  rfl

theorem field_withField (n : Node) (f : Option Field) : (n.withField f).field = f := by
  cases n
  rfl

theorem isCode_withField (n : Node) (f : Option Field) : (n.withField f).isCode = n.isCode := by
  cases n
  rfl

theorem children_withField (n : Node) (f : Option Field) :
    (n.withField f).children = n.children := by
  cases n
  rfl

/-- The role of a tree does not matter for its layout. -/
theorem Sound.withField (h : n.Sound t cs) (f : Option Field) : (n.withField f).Sound t cs := by
  refine Sound.of_children ?_ ((h.placed n n.mem_preorder_self).withField f) ?_
  · rw [start_withField, stop_withField]
    exact h.nonempty
  · intro c hc
    rw [children_withField] at hc
    exact h.of_mem_preorder (mem_preorder.mpr (Or.inr (mem_descendants_of_child hc)))

end Node

/-! ## Trees in a row -/

namespace Laid

variable {t : Text} {cs cs' : List Span} {lo lo' hi hi' m : Nat} {ns ms : List Node} {n : Node}

theorem nil : Laid t cs lo [] hi := ⟨by simp, by simp, List.Pairwise.nil⟩

theorem singleton (h : n.Sound t cs) (hlo : lo ≤ n.start) (hhi : n.stop ≤ hi) :
    Laid t cs lo [n] hi where
  sound := by
    intro m hm
    rw [List.mem_singleton.mp hm]
    exact h
  inside := by
    intro m hm
    rw [List.mem_singleton.mp hm]
    exact ⟨hlo, hhi⟩
  ordered := List.pairwise_singleton _ _

theorem mono (h : Laid t cs lo ns hi) (hcs : ∀ c ∈ cs', c ∈ cs ∨ hi ≤ c.start) (hlo : lo' ≤ lo)
    (hhi : hi ≤ hi') : Laid t cs' lo' ns hi' where
  sound := by
    intro n hn
    have hin := h.inside n hn
    refine (h.sound n hn).mono ?_
    intro c hc
    exact (hcs c hc).imp id fun hle => by omega
  inside := by
    intro n hn
    have hin := h.inside n hn
    omega
  ordered := h.ordered

theorem append {m' : Nat} (h₁ : Laid t cs lo ns m) (h₂ : Laid t cs m' ms hi) (hm : m ≤ m')
    (hlo : lo ≤ m') (hhi : m ≤ hi) : Laid t cs lo (ns ++ ms) hi where
  sound := by
    intro n hn
    rcases List.mem_append.mp hn with hn | hn
    · exact h₁.sound n hn
    · exact h₂.sound n hn
  inside := by
    intro n hn
    rcases List.mem_append.mp hn with hn | hn
    · have := h₁.inside n hn
      omega
    · have := h₂.inside n hn
      omega
  ordered := by
    rw [List.pairwise_append]
    refine ⟨h₁.ordered, h₂.ordered, ?_⟩
    intro a ha b hb
    have h₃ := h₁.inside a ha
    have h₄ := h₂.inside b hb
    omega

theorem withField (h : Laid t cs lo ns hi) (f : Option Field) :
    Laid t cs lo (ns.map (Node.withField f)) hi where
  sound := by
    intro n hn
    obtain ⟨m, hm, rfl⟩ := List.mem_map.mp hn
    exact (h.sound m hm).withField f
  inside := by
    intro n hn
    obtain ⟨m, hm, rfl⟩ := List.mem_map.mp hn
    rw [Node.start_withField, Node.stop_withField]
    exact h.inside m hm
  ordered := by
    rw [List.pairwise_map]
    simp only [Node.start_withField, Node.stop_withField]
    exact h.ordered

end Laid

/-! ## Building nodes -/

/-- A kind whose nodes may have any children. -/
def Kind.isPlain : Kind → Bool
  | .callExpression | .memberExpression | .subscriptExpression | .nonNullExpression
  | .binaryExpression | .awaitExpression | .unaryExpression | .arguments | .importClause
  | .comment | .optionalChain | .typeKeyword => false
  | _ => true

/-- A node of the kind may continue `n`. -/
def Kind.Continues (k : Kind) (n : Node) : Prop :=
  match k with
  | .memberExpression | .subscriptExpression => n.field = some .object
  | .nonNullExpression | .binaryExpression => n.isCode = true
  | k => k.isPlain = true

namespace Node

/-- What a node owes to its kind, apart from the layout of its children. -/
structure Headed (t : Text) (n : Node) : Prop where
  function : n.kind = .callExpression → (n.child? .function).map Node.start = some n.start
  object : n.kind = .memberExpression ∨ n.kind = .subscriptExpression →
    (n.child? .object).map Node.start = some n.start
  front : ∀ o ∈ n.operand?, ∀ c ∈ n.children, o.start < c.stop
  edged : n.Edged
  enclosed : n.kind = .arguments → n.Enclosed t
  code : n.kind ≠ .comment

variable {t : Text}

theorem headed_of_isPlain {k : Kind} (hk : k.isPlain = true) (a b : Nat) (ns : List Node) :
    (Node.mk k none a b ns).Headed t where
  function := by
    rintro rfl
    exact absurd hk (by decide)
  object := by
    rintro (rfl | rfl) <;> exact absurd hk (by decide)
  front := by
    intro o ho
    cases k <;> simp [operand?, kind, Kind.isPlain] at ho hk
  edged := by
    refine ⟨?_, ?_, ?_, ?_⟩
    · rintro (rfl | rfl) <;> exact absurd hk (by decide)
    · rintro (rfl | rfl) <;> exact absurd hk (by decide)
    · rintro rfl
      exact absurd hk (by decide)
    · rintro rfl
      exact absurd hk (by decide)
  enclosed := by
    rintro rfl
    exact absurd hk (by decide)
  code := by
    rintro rfl
    exact absurd hk (by decide)

/-- A token that is kept in the tree. -/
theorem headed_leaf {k : Kind} (hk : k.isPlain = true ∨ k = .optionalChain ∨ k = .typeKeyword)
    (a b : Nat) : (leaf k a b).Headed t := by
  by_cases hplain : k.isPlain = true
  · exact headed_of_isPlain hplain a b []
  · have hmark := hk.resolve_left hplain
    refine ⟨?_, ?_, ?_, ⟨?_, ?_, ?_, ?_⟩, ?_, ?_⟩
    · rcases hmark with rfl | rfl <;> simp [leaf, kind]
    · rcases hmark with rfl | rfl <;> simp [leaf, kind]
    · simp [leaf, children]
    · rcases hmark with rfl | rfl <;> simp [leaf, kind]
    · rcases hmark with rfl | rfl <;> simp [leaf, kind]
    · rcases hmark with rfl | rfl <;> simp [leaf, kind]
    · rcases hmark with rfl | rfl <;> simp [leaf, kind]
    · rcases hmark with rfl | rfl <;> simp [leaf, kind]
    · rcases hmark with rfl | rfl <;> simp [leaf, kind]

theorem isCode_of_isPlain {k : Kind} (hk : k.isPlain = true) (f : Option Field) (a b : Nat)
    (ns : List Node) : (Node.mk k f a b ns).isCode = true := by
  cases k <;> simp [isCode, isMark, kind, Kind.isPlain] at hk ⊢

theorem isCode_of_continues {k : Kind} {n : Node} (hk : k.Continues n) (f : Option Field)
    (a b : Nat) (ns : List Node) : (Node.mk k f a b ns).isCode = true := by
  cases k <;> simp [isCode, isMark, kind, Kind.Continues, Kind.isPlain] at hk ⊢

theorem child?_cons {k : Kind} {f : Field} {n : Node} (hn : n.field = some f) (a b : Nat)
    (ns : List Node) : (Node.mk k none a b (n :: ns)).child? f = some n := by
  simp [child?, children, hn]

theorem head?_codeParts_cons {k : Kind} {n : Node} (hn : n.isCode = true) (a b : Nat)
    (ns : List Node) : (Node.mk k none a b (n :: ns)).codeParts.head? = some n := by
  rw [codeParts_eq]
  simp [children, hn]

/-- An access and a postfix or binary operation start with their first child. -/
theorem headed_of_continues {k : Kind} {n : Node} (hk : k.Continues n) (b : Nat)
    (ns : List Node) : (Node.mk k none n.start b (n :: ns)).Headed t := by
  by_cases hplain : k.isPlain = true
  · exact headed_of_isPlain hplain n.start b (n :: ns)
  · refine ⟨?_, ?_, ?_, ⟨?_, ?_, ?_, ?_⟩, ?_, ?_⟩
    · rintro rfl
      exact absurd hk hplain
    · rintro (rfl | rfl)
      · rw [child?_cons hk]
        rfl
      · rw [child?_cons hk]
        rfl
    · intro o ho
      cases k <;> simp [operand?, kind, Kind.Continues, Kind.isPlain] at ho hk
    · rintro (rfl | rfl)
      · rw [head?_codeParts_cons hk]
        rfl
      · rw [head?_codeParts_cons hk]
        rfl
    · rintro (rfl | rfl)
      · exact absurd hk hplain
      · exact absurd hk hplain
    · rintro rfl
      exact absurd hk hplain
    · rintro rfl
      exact absurd hk hplain
    · rintro rfl
      exact absurd hk hplain
    · rintro rfl
      exact absurd hk hplain

/-- A call starts with what is called and stops with its arguments. -/
theorem headed_call {n : Node} {b : Nat} {ns : List Node} (hn : n.field = some .function)
    (hns : (ns.find? fun m => m.field == some .arguments).map stop = some b) :
    (Node.mk .callExpression none n.start b (n :: ns)).Headed t where
  function := fun _ => by
    rw [child?_cons hn]
    rfl
  object := by simp [kind]
  front := by simp [operand?, kind]
  edged := by
    refine ⟨by simp [kind], by simp [kind], fun _ => ?_, by simp [kind]⟩
    have hother : (n.field == some .arguments) = false := by rw [hn]; rfl
    show (List.find? (fun m => m.field == some .arguments) (n :: ns)).map stop = some b
    rw [List.find?_cons, hother]
    exact hns
  enclosed := by simp [kind]
  code := by simp [kind]

/-- Arguments are enclosed. -/
theorem headed_arguments {a b : Nat} {ns : List Node}
    (h : (Node.mk .arguments none a b ns).Enclosed t) :
    (Node.mk .arguments none a b ns).Headed t where
  function := by simp [kind]
  object := by simp [kind]
  front := by simp [operand?, kind]
  edged := ⟨by simp [kind], by simp [kind], by simp [kind], by simp [kind]⟩
  enclosed := fun _ => h
  code := by simp [kind]

/-- In what an import binds the names in braces come last. -/
theorem headed_importClause {a b : Nat} {ns : List Node}
    (h : ns.Pairwise fun m _ => m.kind ≠ .namedImports) :
    (Node.mk .importClause none a b ns).Headed t where
  function := by simp [kind]
  object := by simp [kind]
  front := by simp [operand?, kind]
  edged := ⟨by simp [kind], by simp [kind], by simp [kind], fun _ => h.filter _⟩
  enclosed := by simp [kind]
  code := by simp [kind]

theorem headed_of_operand {k : Kind} {n : Node} {a : Nat} (hk : k = .awaitExpression ∨
      k = .unaryExpression) (b : Nat)
    (ho : (Node.mk k none a b [n]).operand? = some n) (ha : a < n.start) (hn : n.start < n.stop) :
    (Node.mk k none a b [n]).Headed t where
  function := by
    rintro rfl
    simp at hk
  object := by
    rintro (rfl | rfl) <;> simp at hk
  front := by
    intro o ho' c hc
    rw [Option.mem_def, ho, Option.some.injEq] at ho'
    subst ho'
    rw [List.mem_singleton.mp hc]
    exact hn
  edged := by
    refine ⟨?_, fun _ => ⟨n, ho, ha⟩, ?_, ?_⟩
    · rintro (rfl | rfl) <;> simp at hk
    · rintro rfl
      simp at hk
    · rintro rfl
      simp at hk
  enclosed := by
    rintro rfl
    simp at hk
  code := by
    rintro rfl
    simp at hk

theorem headed_await {n : Node} {a : Nat} (hn : n.isCode = true) (ha : a < n.start)
    (hne : n.start < n.stop) (b : Nat) : (Node.mk .awaitExpression none a b [n]).Headed t :=
  headed_of_operand (Or.inl rfl) b (head?_codeParts_cons hn a b []) ha hne

theorem headed_unary {n : Node} {a : Nat} (hn : n.field = some .argument) (ha : a < n.start)
    (hne : n.start < n.stop) (b : Nat) : (Node.mk .unaryExpression none a b [n]).Headed t :=
  headed_of_operand (Or.inr rfl) b (child?_cons hn a b []) ha hne

end Node

theorem Laid.placed {t : Text} {cs : List Span} {lo hi : Nat} {ns : List Node} {k : Kind}
    (h : Laid t cs lo ns hi) (hlo : t.Free cs lo) (hhi : t.Free cs hi)
    (hh : (Node.mk k none lo hi ns).Headed t) : (Node.mk k none lo hi ns).Placed t cs := by
  refine ⟨⟨fun c hc => (h.sound c hc).nonempty, h.inside, h.ordered, hh.function, hh.object, ?_⟩,
    hh.edged, hh.enclosed, hh.code, hh.front, hlo, hhi⟩
  intro o ho c hc hle
  exact absurd hle (Nat.not_le_of_lt (hh.front o ho c hc))

/-- **A node over trees in a row** from its start to its stop. -/
theorem Laid.node {t : Text} {cs : List Span} {lo hi : Nat} {ns : List Node} {k : Kind}
    (h : Laid t cs lo ns hi) (hlt : lo < hi) (hlo : t.Free cs lo) (hhi : t.Free cs hi)
    (hh : (Node.mk k none lo hi ns).Headed t) : (Node.mk k none lo hi ns).Sound t cs :=
  Node.Sound.of_children hlt (h.placed hlo hhi hh) h.sound

end Promisify
