import ScriptTree.Proofs.Symbols
import ScriptTree.Tree.Node

/-!
How operators between operands are grouped: a chain of operands with binary operators between them
has exactly one tree in which the stronger operators stand below the weaker ones.
-/

namespace ScriptTree

namespace Operator

/-- The strength of a binary operator in the rule table. -/
def strength (operator : String) : Nat := (binaries.lookup operator).getD 0

end Operator

namespace Node

/-- The operands and the operators of a tree of binary operators, from left to right. -/
def pieces : Node → List (Node ⊕ String)
  | binary _ operator left right => left.pieces ++ .inr operator :: right.pieces
  | node => [.inl node]

/-- Whether a node may stand to the left of an operator: its own operator, if it has one, is at least
as strong, and stronger if the first one groups from the right. -/
def FitsLeft (operator : String) : Node → Prop
  | binary _ inner _ _ => Operator.strength operator ≤ Operator.strength inner ∧
    (Operator.groupsRight operator = true → Operator.strength operator < Operator.strength inner)
  | _ => True

/-- Whether a node may stand to the right of an operator: its own operator, if it has one, is
stronger, or both are the same that groups from the right. -/
def FitsRight (operator : String) : Node → Prop
  | binary _ inner _ _ => Operator.strength operator < Operator.strength inner ∨
    Operator.strength operator = Operator.strength inner ∧
      Operator.groupsRight operator = true ∧ Operator.groupsRight inner = true
  | _ => True

/-- A tree of binary operators in which every operator stands where its strength puts it, and is of
the family that its spelling tells. -/
def Grouped : Node → Prop
  | binary role operator left right => role = Operator.role operator ∧
    left.FitsLeft operator ∧ right.FitsRight operator ∧ left.Grouped ∧ right.Grouped
  | _ => True

theorem pieces_binary (role : BinaryRole) (operator : String) (left right : Node) :
    (binary role operator left right).pieces = left.pieces ++ .inr operator :: right.pieces := rfl

/-- Induction over the binary operators of a tree, down to the operands of its chain. -/
theorem chain_induction {P : Node → Prop}
    (binary : ∀ role operator left right, P left → P right → P (binary role operator left right))
    (operand : ∀ node, (∀ role operator left right, node = .binary role operator left right → False) →
      node.pieces = [.inl node] → P node)
    (node : Node) : P node := by
  fun_induction pieces node with
  | case1 role operator left right ihl ihr => exact binary role operator left right ihl ihr
  | case2 node hb => exact operand node hb (pieces.eq_2 node hb)

theorem pieces_ne_nil (node : Node) : node.pieces ≠ [] := by
  induction node using chain_induction with
  | binary role operator left right => simp [pieces_binary]
  | operand node _ hp => simp [hp]

theorem exists_binary_of_mem {node : Node} {inner : String} (h : .inr inner ∈ node.pieces) :
    ∃ role operator left right, node = binary role operator left right := by
  induction node using chain_induction with
  | binary role operator left right => exact ⟨role, operator, left, right, rfl⟩
  | operand node _ hp => simp [hp] at h

theorem strength_le_of_mem {role : BinaryRole} {operator : String} {left right : Node}
    (hg : (binary role operator left right).Grouped) {inner : String}
    (hi : .inr inner ∈ (binary role operator left right).pieces) :
    Operator.strength operator ≤ Operator.strength inner := by
  generalize hn : binary role operator left right = node at hg hi
  induction node using chain_induction generalizing role operator left right with
  | binary role' operator' left' right' ihl ihr =>
    cases hn
    obtain ⟨-, hl, hr, hgl, hgr⟩ := hg
    rcases List.mem_append.mp hi with hi | hi
    · obtain ⟨_, weaker, _, _, rfl⟩ := exists_binary_of_mem hi
      exact Nat.le_trans hl.1 (ihl rfl hgl hi)
    · rcases List.mem_cons.mp hi with hi | hi
      · cases hi
        exact Nat.le_refl _
      · obtain ⟨_, weaker, _, _, rfl⟩ := exists_binary_of_mem hi
        refine Nat.le_trans ?_ (ihr rfl hgr hi)
        rcases hr with hr | hr
        · exact Nat.le_of_lt hr
        · exact Nat.le_of_eq hr.1
  | operand node hb _ => exact (hb _ _ _ _ hn.symm).elim

theorem FitsLeft.of_mem {operator inner : String} {node : Node} (hf : node.FitsLeft operator)
    (hg : node.Grouped) (hi : .inr inner ∈ node.pieces) :
    Operator.strength operator ≤ Operator.strength inner ∧ (Operator.groupsRight operator = true →
      Operator.strength operator < Operator.strength inner) := by
  obtain ⟨_, root, _, _, rfl⟩ := exists_binary_of_mem hi
  have hl := strength_le_of_mem hg hi
  exact ⟨Nat.le_trans hf.1 hl, fun h => Nat.lt_of_lt_of_le (hf.2 h) hl⟩

theorem FitsRight.of_mem {operator inner : String} {node : Node} (hf : node.FitsRight operator)
    (hg : node.Grouped) (hi : .inr inner ∈ node.pieces) :
    Operator.strength operator < Operator.strength inner ∨
      Operator.strength operator = Operator.strength inner ∧
        Operator.groupsRight operator = true ∧ Operator.groupsRight inner = true := by
  induction node using chain_induction generalizing operator with
  | binary role root left right ihl ihr =>
    have hle := strength_le_of_mem hg hi
    obtain ⟨-, hl, hr, hgl, hgr⟩ := hg
    rcases hf with hf | ⟨heq, ho, hroot⟩
    · exact Or.inl (Nat.lt_of_lt_of_le hf hle)
    · rcases List.mem_append.mp hi with hi | hi
      · -- what stands to the left of an operator that groups from the right is stronger
        exact Or.inl (heq ▸ (hl.of_mem hgl hi).2 hroot)
      · rcases List.mem_cons.mp hi with hi | hi
        · cases hi
          exact Or.inr ⟨heq, ho, hroot⟩
        · rcases ihr hr hgr hi with hlt | hboth
          · exact Or.inl (heq ▸ hlt)
          · exact Or.inr ⟨heq.trans hboth.1, ho, hboth.2.2⟩
  | operand node _ hp => simp [hp] at hi

/-- Of two ways to split one chain at an operator into grouped trees, neither splits it later than
the other. -/
theorem not_splits_later {operator operator' : String} {left right left' right' : Node}
    (hr : right.FitsRight operator) (hgr : right.Grouped) (hl : left'.FitsLeft operator')
    (hgl : left'.Grouped) {middle : List (Node ⊕ String)}
    (h : left'.pieces = left.pieces ++ .inr operator :: middle)
    (h' : right.pieces = middle ++ .inr operator' :: right'.pieces) : False := by
  have hin : .inr operator ∈ left'.pieces := by simp [h]
  have hin' : .inr operator' ∈ right.pieces := by simp [h']
  have hle := hl.of_mem hgl hin
  -- each of the two operators would have to be stronger than the other
  rcases hr.of_mem hgr hin' with hlt | hboth
  · exact absurd hle.1 (Nat.not_le.mpr hlt)
  · exact absurd (hle.2 hboth.2.2) (by omega)

/-- A chain has at most one grouped tree. -/
theorem Grouped.eq_of_pieces_eq {node other : Node} (hg : node.Grouped) (hg' : other.Grouped)
    (h : node.pieces = other.pieces) : node = other := by
  induction node using chain_induction generalizing other with
  | binary role operator left right ihl ihr =>
    have hin : .inr operator ∈ other.pieces := by simp [← h, pieces_binary]
    obtain ⟨role', operator', left', right', rfl⟩ := exists_binary_of_mem hin
    obtain ⟨hrole, hl, hr, hgl, hgr⟩ := hg
    obtain ⟨hrole', hl', hr', hgl', hgr'⟩ := hg'
    rw [pieces_binary, pieces_binary] at h
    -- the root is at the same place in both: a later one would be too weak to stand to its left
    rcases List.append_eq_append_iff.mp h with ⟨middle, h1, h2⟩ | ⟨middle, h1, h2⟩
    · cases middle with
      | nil =>
        simp only [List.append_nil, List.nil_append, List.cons.injEq, Sum.inr.injEq] at h1 h2
        obtain ⟨rfl, h2⟩ := h2
        rw [ihl hgl hgl' h1.symm, ihr hgr hgr' h2, hrole, hrole']
      | cons piece middle =>
        rw [List.cons_append, List.cons.injEq] at h2
        obtain ⟨rfl, h2⟩ := h2
        exact (not_splits_later hr hgr hl' hgl' h1 h2).elim
    · cases middle with
      | nil =>
        simp only [List.append_nil, List.nil_append, List.cons.injEq, Sum.inr.injEq] at h1 h2
        obtain ⟨rfl, h2⟩ := h2
        rw [ihl hgl hgl' h1, ihr hgr hgr' h2.symm, hrole, hrole']
      | cons piece middle =>
        rw [List.cons_append, List.cons.injEq] at h2
        obtain ⟨rfl, h2⟩ := h2
        exact (not_splits_later hr' hgr' hl hgl h1 h2).elim
  | operand node _ hp =>
    rw [hp] at h
    -- one piece is no chain of two
    induction other using chain_induction with
    | binary role operator left right =>
      have hlen := congrArg List.length h
      have hl := List.length_pos_iff.mpr (pieces_ne_nil left)
      rw [pieces_binary, List.length_append, List.length_singleton, List.length_cons] at hlen
      omega
    | operand other _ hp' =>
      rw [hp'] at h
      cases h
      rfl

end Node

end ScriptTree
