import Mathlib.Data.List.Forall2
import ScriptTree.Proofs.NormalForm
import ScriptTree.Tree.Children

/-!
Equality of trees. It is symmetric, it goes down to the children, and it is settled by the normal form.
A NaN is why it is not reflexive.
-/

namespace ScriptTree

namespace Binary64

variable {x y : Binary64}

theorem equals_symm (h : x.equals y = true) : y.equals x = true := by
  unfold equals at h ⊢
  grind

end Binary64

theorem LiteralValue.same_symm {value other : LiteralValue} (h : value.same other = true) :
    other.same value = true := by
  unfold LiteralValue.same at h ⊢
  grind [Binary64.equals_symm]

namespace Node

/-- What holds of a node as soon as it holds of its children holds of all nodes. -/
theorem induction_children {motive : Node → Prop}
    (step : ∀ node, (∀ child ∈ node.children, motive child.2) → motive node) (node : Node) :
    motive node :=
  step node fun child _ => induction_children step child.2
termination_by sizeOf node
decreasing_by exact sizeOf_child_lt ‹_›

/-- Equality of trees is symmetric, by induction on the tree, its lists and its options; what a node
equals is of its own construct. -/
theorem same_symm {node other : Node} (h : node.same other = true) : other.same node = true := by
  revert other h
  apply @Node.rec
    (fun node => ∀ {other}, node.same other = true → other.same node = true)
    (fun nodes => ∀ {others}, sameList nodes others = true → sameList others nodes = true)
    (fun node => ∀ {other}, sameOption node other = true → sameOption other node = true)
  case literal =>
    intro value raw other h
    unfold same at h
    split at h
    · exact LiteralValue.same_symm h
    · cases h
  case nil =>
    intro others h
    cases others with
    | nil => rfl
    | cons => cases h
  case none =>
    intro other h
    cases other with
    | none => rfl
    | some => cases h
  case cons =>
    intro node nodes ih ihs others h
    cases others with
    | nil => cases h
    | cons other others =>
      simp only [sameList, Bool.and_eq_true] at h ⊢
      exact ⟨ih h.1, ihs h.2⟩
  case some =>
    intro node ih other h
    cases other with
    | none => cases h
    | some => exact ih h
  all_goals
    intros
    rename_i h
    unfold same at h
    split at h
    · unfold same
      simp_all only [Bool.and_eq_true, beq_iff_eq, and_self]
    · cases h

theorem same_comm (node other : Node) : node.same other = other.same node :=
  Bool.eq_iff_iff.mpr ⟨same_symm, same_symm⟩

/-- Two lists of children belong together: as many in the one as in the other, under the same fields,
and the same trees. -/
def SameFields (fields others : List (String × Node)) : Prop :=
  List.Forall₂ (fun a b => a.1 = b.1 ∧ a.2.same b.2 = true) fields others

section SameFields

variable {field : String} {fields others fields' others' : List (String × Node)}

theorem sameFields_nil : SameFields [] [] := .nil

theorem SameFields.append (h : SameFields fields others) (h' : SameFields fields' others') :
    SameFields (fields ++ fields') (others ++ others') :=
  List.rel_append h h'

theorem sameFields_one {node other : Node} (h : node.same other = true) :
    SameFields (fieldOne field node) (fieldOne field other) :=
  .cons ⟨rfl, h⟩ .nil

theorem sameFields_list {nodes others : List Node} (h : sameList nodes others = true) :
    SameFields (fieldList field nodes) (fieldList field others) := by
  induction nodes generalizing others with
  | nil =>
    cases others with
    | nil => exact .nil
    | cons => cases h
  | cons node nodes ih =>
    cases others with
    | nil => cases h
    | cons other others =>
      simp only [sameList, Bool.and_eq_true] at h
      exact .cons ⟨rfl, h.1⟩ (ih h.2)

theorem sameFields_option {node other : Option Node} (h : sameOption node other = true) :
    SameFields (fieldOption field node) (fieldOption field other) := by
  cases node <;> cases other
  · exact .nil
  · cases h
  · cases h
  · exact .cons ⟨rfl, h⟩ .nil

/-- Equal trees have equal children, in the same fields. -/
theorem same_children {node other : Node} (h : node.same other = true) :
    SameFields node.children other.children := by
  cases node <;> unfold same at h <;> split at h <;> unfold children
  all_goals
    repeat' apply SameFields.append
    all_goals
      simp_all only [Bool.and_eq_true, Bool.false_eq_true, sameFields_nil, sameFields_list,
        sameFields_option, sameFields_one]

end SameFields

/-- Two nodes correspond if they stand in the same place of two trees. -/
inductive Corresponds : Node → Node → Node → Node → Prop
  | here (tree other : Node) : Corresponds tree other tree other
  | child {tree other : Node} {a b : String × Node} {node node' : Node}
      (h : (a, b) ∈ tree.children.zip other.children) (h' : Corresponds a.2 b.2 node node') :
      Corresponds tree other node node'

/-- Numbers that correspond have one spelling, and do have one. -/
def SpelledAlike (tree other : Node) : Prop :=
  ∀ {x y : Binary64} {raw raw' : String},
    Corresponds tree other (.literal (.number x) raw) (.literal (.number y) raw') →
      raw = raw' ∧ raw ≠ ""

/-- Numbers are spelled alike if the two nodes are no such numbers, and below them it is so. -/
theorem spelledAlike_of_children {tree other : Node}
    (hroot : ∀ {x y : Binary64} {raw raw' : String}, tree = .literal (.number x) raw →
      other = .literal (.number y) raw' → raw = raw' ∧ raw ≠ "")
    (hc : ∀ pair ∈ tree.children.zip other.children, SpelledAlike pair.1.2 pair.2.2) :
    SpelledAlike tree other := by
  intro x y raw raw' h
  cases h with
  | here => exact hroot rfl rfl
  | child hz h' => exact hc _ hz h'

section Normal

@[simp] theorem normal_same_normal (node other : Node) :
    node.normal.same other.normal = node.same other := by
  rw [normal_same, same_comm, normal_same, same_comm]

/-- Two lists of children have the same normal forms. -/
def NormalFields (fields others : List (String × Node)) : Prop :=
  fields.map (fun field => field.2.normal) = others.map fun field => field.2.normal

namespace NormalFields

variable {field : String} {fields others : List (String × Node)}

theorem one_iff {node other : Node} :
    NormalFields (fieldOne field node ++ fields) (fieldOne field other ++ others) ↔
      node.normal = other.normal ∧ NormalFields fields others :=
  List.cons_eq_cons

theorem list_iff {nodes nodes' : List Node} (hs : sameList nodes nodes' = true) :
    NormalFields (fieldList field nodes ++ fields) (fieldList field nodes' ++ others) ↔
      normals nodes = normals nodes' ∧ NormalFields fields others := by
  induction nodes generalizing nodes' with
  | nil =>
    cases nodes' with
    | nil => exact (and_iff_right rfl).symm
    | cons => cases hs
  | cons node nodes ih =>
    cases nodes' with
    | nil => cases hs
    | cons node' nodes' =>
      simp only [sameList, Bool.and_eq_true] at hs
      have hfirst : NormalFields (fieldList field (node :: nodes) ++ fields)
          (fieldList field (node' :: nodes') ++ others) ↔ node.normal = node'.normal ∧
            NormalFields (fieldList field nodes ++ fields) (fieldList field nodes' ++ others) :=
        List.cons_eq_cons
      rw [hfirst, ih hs.2, normals, normals, List.cons_eq_cons, and_assoc]

theorem option_iff {node node' : Option Node} (hs : sameOption node node' = true) :
    NormalFields (fieldOption field node ++ fields) (fieldOption field node' ++ others) ↔
      normalOption node = normalOption node' ∧ NormalFields fields others := by
  cases node with
  | none =>
    cases node' with
    | none => exact (and_iff_right rfl).symm
    | some => cases hs
  | some node =>
    cases node' with
    | none => cases hs
    | some node' =>
      rw [normalOption, normalOption, Option.some_inj]
      exact one_iff

end NormalFields

theorem normal_literal_eq {value value' : LiteralValue} {raw raw' : String}
    (h : value.same value' = true)
    (hs : SpelledAlike (literal value raw) (literal value' raw')) :
    (literal value raw).normal = (literal value' raw').normal := by
  cases value <;> cases value' <;> try cases h; done
  case number.number x y =>
    obtain ⟨rfl, hne⟩ := hs (.here _ _)
    simp only [normal, Binary64.withoutZeroSign_eq h, String.isEmpty_eq_false_iff.mpr hne]
    rfl
  all_goals simp_all [normal, LiteralValue.same]

/-- Equal trees whose numbers are spelled alike have one normal form. -/
theorem normal_eq_of_same {node other : Node} (h : node.same other = true)
    (hs : SpelledAlike node other) : node.normal = other.normal := by
  induction node using induction_children generalizing other with
  | step node ih =>
    -- the children correspond, so they have one normal form each
    have hf : NormalFields (node.children ++ []) (other.children ++ []) := by
      have hsame := same_children h
      rw [List.append_nil, List.append_nil, NormalFields, ← List.forall₂_eq_eq_eq,
        List.forall₂_map_left_iff, List.forall₂_map_right_iff, List.forall₂_iff_zip]
      refine ⟨hsame.length_eq, fun {a b} hz => ?_⟩
      exact ih a (List.of_mem_zip hz).1 ((List.forall₂_iff_zip.mp hsame).2 hz).2
        fun hc => hs (.child hz hc)
    cases node with
    | literal value raw =>
      unfold same at h
      split at h
      · exact normal_literal_eq h hs
      · cases h
    | _ =>
      unfold same at h
      split at h
      · simp only [children, List.append_assoc] at hf
        unfold normal
        simp_all only [NormalFields.one_iff, NormalFields.list_iff, NormalFields.option_iff,
          Bool.and_eq_true, beq_iff_eq]
      · cases h

end Normal

end Node

end ScriptTree
