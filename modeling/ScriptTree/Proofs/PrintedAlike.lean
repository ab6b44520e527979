import ScriptTree.Printer.Print
import ScriptTree.Proofs.TreeEquality

/-!
Trees that are equal are printed alike. The printer asks for nothing that the normal form forgets.
-/

namespace ScriptTree

namespace Node

theorem kind_normal (node : Node) : node.normal.kind = node.kind := by
  cases node with
  | forEach kind => cases kind <;> rfl
  | jump kind => cases kind <;> rfl
  | function role => cases role <;> rfl
  | importTarget target => cases target <;> rfl
  | exportStatement isDefault => cases isDefault <;> rfl
  | literal value => cases value <;> rfl
  | object role => cases role <;> rfl
  | binary role => cases role <;> rfl
  | call role => cases role <;> rfl
  | _ => rfl

@[simp] theorem isStatement_normal (node : Node) : node.normal.isStatement = node.isStatement :=
  congrArg NodeKind.isStatement node.kind_normal

@[simp] theorem isCallFree_normal (node : Node) : node.normal.isCallFree = node.isCallFree := by
  induction node using induction_children with
  | step node ih =>
    cases node with
    | member owner => exact ih ("object", owner) List.mem_cons_self
    | literal value => cases value <;> rfl
    | _ => rfl

@[simp] theorem isWrapped_normal (node : Node) (place : Place) :
    node.normal.isWrapped place = node.isWrapped place := by
  cases node with
  | member owner key computed =>
    exact congrArg (fun free => place == .newCallee && !free)
      (isCallFree_normal (.member owner key computed))
  | function role => cases role <;> rfl
  | literal value => cases value <;> rfl
  | call role => cases role <;> rfl
  | _ => rfl

@[simp] theorem startsLikeStatement_normal (node : Node) :
    node.normal.startsLikeStatement = node.startsLikeStatement := by
  induction node using induction_children with
  | step node ih =>
    cases node with
    | assignment operator left right =>
      have hl := ih ("left", left) List.mem_cons_self
      simp only [normal, startsLikeStatement, isWrapped_normal, hl]
    | member owner key computed =>
      have ho := ih ("object", owner) List.mem_cons_self
      simp only [normal, startsLikeStatement, isWrapped_normal, ho]
    | conditional test consequent alternate =>
      have ht := ih ("test", test) List.mem_cons_self
      simp only [normal, startsLikeStatement, isWrapped_normal, ht]
    | call role callee arguments =>
      have hc := ih ("callee", callee) List.mem_cons_self
      cases role
      · simp only [normal, startsLikeStatement, isWrapped_normal, hc]
      · rfl
    | sequence expressions =>
      cases expressions with
      | nil => rfl
      | cons first others =>
        have hf := ih ("expressions", first) List.mem_cons_self
        simp only [normal, normals, startsLikeStatement, isWrapped_normal, hf]
    | update operator argument leading =>
      have ha := ih ("argument", argument) List.mem_cons_self
      cases leading
      · simp only [normal, startsLikeStatement, isWrapped_normal, ha]
      · rfl
    | literal value => cases value <;> rfl
    | _ => rfl

end Node

namespace Printer

open Node

@[simp] theorem alone_normal (node : Node) (text : String) :
    alone node.normal text = alone node text := by
  cases node with
  | literal value => cases value <;> rfl
  | _ => rfl

@[simp] theorem placed_normal (place : Place) (node : Node) (text : String) :
    placed place node.normal text = placed place node text := by
  simp only [placed, isWrapped_normal, alone_normal]

@[simp] theorem leading_normal (place : Place) (node : Node) (text : String) :
    leading place node.normal text = leading place node text := by
  simp only [leading, startsLikeStatement_normal, placed_normal]

@[simp] theorem asStatement_normal (node : Node) (text : String) :
    asStatement node.normal text = asStatement node text := by
  simp only [asStatement, isStatement_normal, alone_normal, leading_normal]

@[simp] theorem renamedText_normal (name other : Node) (text text' : String) :
    renamedText name.normal other.normal text text' = renamedText name other text text' := by
  simp only [renamedText, normal_same_normal, placed_normal]

@[simp] theorem keyText_normal (key : Node) (computed : Bool) (text : String) :
    keyText key.normal computed text = keyText key computed text := by
  simp only [keyText, placed_normal]

@[simp] theorem methodText_normal (accessor : String) (key value : Node) (computed : Bool)
    (text text' tail : String) :
    methodText accessor key.normal value.normal computed text text' tail =
      methodText accessor key value computed text text' tail := by
  have hv := placed_normal .item value text'
  cases value with
  | function role => cases role <;> simp_all [methodText, normal]
  | literal value => cases value <;> simp_all [methodText, normal]
  | _ =>
    rw [normal] at hv ⊢
    simp only [methodText, keyText_normal, hv]

@[simp] theorem shorthand?_normal (key value : Node) (computed : Bool) (tail : String) :
    shorthand? key.normal value.normal computed tail = shorthand? key value computed tail := by
  cases key with
  | identifier name =>
    cases value with
    | assignment operator left =>
      cases left with
      | literal value => cases value <;> rfl
      | _ => rfl
    | literal value => cases value <;> rfl
    | _ => rfl
  | literal value => cases value <;> rfl
  | _ => rfl

@[simp] theorem propertyText_normal (key value : Node) (kind : PropertyKind)
    (computed method : Bool) (text text' tail : String) :
    propertyText key.normal value.normal kind computed method text text' tail =
      propertyText key value kind computed method text text' tail := by
  simp only [propertyText, methodText_normal, shorthand?_normal, keyText_normal, placed_normal]

@[simp] theorem arrowBodyText_normal (body : Node) (text : String) :
    arrowBodyText body.normal text = arrowBodyText body text := by
  have hw : isWrappedBody body.normal = isWrappedBody body := by
    cases body with
    | literal value => cases value <;> rfl
    | _ => rfl
  simp only [arrowBodyText, startsLikeStatement_normal, hw, placed_normal]

section Lists

variable (options : PrinterOptions) (level : Nat) (nodes : List Node) (texts : List String)

@[simp] theorem statementLines_normal :
    statementLines options level (nodes.map normal) texts =
      statementLines options level nodes texts := by
  simp only [statementLines, List.zipWith_map_left, asStatement_normal]

@[simp] theorem aloneLines_normal :
    aloneLines options level (nodes.map normal) texts = aloneLines options level nodes texts := by
  simp only [aloneLines, List.zipWith_map_left, alone_normal]

@[simp] theorem commaItems_normal : commaItems (nodes.map normal) texts = commaItems nodes texts := by
  simp only [commaItems, List.zipWith_map_left, placed_normal]

@[simp] theorem blockText_normal :
    blockText options level (nodes.map normal) texts = blockText options level nodes texts := by
  simp only [blockText, List.isEmpty_map, statementLines_normal]

@[simp] theorem classBodyText_normal :
    classBodyText options level (nodes.map normal) texts =
      classBodyText options level nodes texts := by
  simp only [classBodyText, List.isEmpty_map, aloneLines_normal]

@[simp] theorem programText_normal :
    programText options level (nodes.map normal) texts = programText options level nodes texts := by
  simp only [programText, List.zipWith_map_left, asStatement_normal]

@[simp] theorem importClause_normal :
    importClause (nodes.map normal) texts = importClause nodes texts := by
  have hb (node : Node) : isNamedBinding node.normal = isNamedBinding node := by
    cases node with
    | literal value => cases value <;> rfl
    | _ => rfl
  simp only [importClause, List.zip_map_left, List.filter_map, List.map_map, Function.comp_def,
    Prod.map_fst, Prod.map_snd, hb, alone_normal, id_eq]

@[simp] theorem optional_normal (node : Option Node) (text : String)
    (write : Node → String → String) :
    optional (node.map normal) text write = optional node text fun node => write node.normal := by
  cases node <;> rfl

@[simp] theorem functionTail_normal (body : Option Node) (text : String) :
    functionTail (nodes.map normal) (body.map normal) texts text =
      functionTail nodes body texts text := by
  cases body <;> simp [functionTail]

end Lists

section Texts

variable (options : PrinterOptions)

theorem literalText_withoutZeroSign (x : Binary64) (raw : String) :
    literalText options (.number (if raw.isEmpty then x else x.withoutZeroSign)) raw =
      literalText options (.number x) raw := by
  unfold literalText
  by_cases hr : raw.isEmpty = true <;> simp [hr]

/-- The normal form has the text of the tree, by induction on the tree, its lists and its options. -/
theorem bare_normal (node : Node) : ∀ level,
    bare options level node.normal = bare options level node ∧
      tail options level node.normal = tail options level node := by
  apply @Node.rec
    (fun node => ∀ level, bare options level node.normal = bare options level node ∧
      tail options level node.normal = tail options level node)
    (fun nodes => ∀ level, bares options level (nodes.map normal) = bares options level nodes)
    (fun node => ∀ level,
      bareOption options level (node.map normal) = bareOption options level node)
  case literal =>
    intro value raw level
    cases value with
    | number x => exact ⟨literalText_withoutZeroSign options x raw, rfl⟩
    | boolean value => cases value <;> exact ⟨rfl, rfl⟩
    | _ => exact ⟨rfl, rfl⟩
  -- two constructs ask whether a part is there at all
  case switchCase =>
    intro test consequent ht hc level
    cases test with
    | none => simp [normal, bare, tail, hc]
    | some test =>
      have ht' : bare options level test.normal = bare options level test := ht level
      simp [normal, bare, tail, optional, bareOption, ht', hc]
  case conditional =>
    intro test consequent alternate ht hc ha level
    cases alternate with
    | none => simp [normal, bare, tail, ht, hc]
    | some alternate =>
      have ha' : bare options level alternate.normal = bare options level alternate := ha level
      simp [normal, bare, tail, optional, bareOption, ht, hc, ha']
  all_goals
    intros
    simp [normal, bare, tail, bares, bareOption, List.zipWith_map_left, *]

/-- The printer cannot tell a tree from its normal form. -/
theorem print_normal (node : Node) : print options node.normal = print options node := by
  unfold print
  rw [alone_normal, (bare_normal options node 0).1]
  cases node with
  | literal value => cases value <;> rfl
  | _ => rfl

end Texts

/-- Equal trees have the same text if their numbers are spelled alike, whatever the options. -/
theorem print_eq_of_same (options : PrinterOptions) {tree other : Node}
    (h : tree.same other = true) (hs : SpelledAlike tree other) :
    print options tree = print options other := by
  rw [← print_normal options tree, ← print_normal options other, normal_eq_of_same h hs]

/-- An object with a member in its short form, a string and a number, and the same object written out
in full, with another spelling of the string. -/
theorem print_eq_of_same_object :
    print {} (.object .expression
        [.property (.identifier "a") (.identifier "a") .plain false true false,
          .property (.literal (.string "b") "'b'") (.literal (.number ⟨0⟩) "0x0") .plain false
            false false]) =
      print {} (.object .expression
        [.property (.identifier "a") (.identifier "a") .plain false false false,
          .property (.literal (.string "b") "\"b\"") (.literal (.number ⟨0⟩) "0x0") .plain false
            false false]) := by
  have hname (name : String) : SpelledAlike (.identifier name) (.identifier name) :=
    spelledAlike_of_children (by rintro _ _ _ _ ⟨⟩) (by simp [children])
  have hstring (contents raw raw' : String) :
      SpelledAlike (.literal (.string contents) raw) (.literal (.string contents) raw') :=
    spelledAlike_of_children (by rintro _ _ _ _ ⟨⟩) (by simp [children])
  have hnumber : SpelledAlike (.literal (.number ⟨0⟩) "0x0") (.literal (.number ⟨0⟩) "0x0") :=
    spelledAlike_of_children (by rintro _ _ _ _ ⟨⟩ ⟨⟩; decide) (by simp [children])
  refine print_eq_of_same {} (by decide) (spelledAlike_of_children (by rintro _ _ _ _ ⟨⟩) ?_)
  simp only [children, fieldList, List.map_cons, List.map_nil, List.zip_cons_cons, List.zip_nil_left,
    List.forall_mem_cons, List.not_mem_nil, false_implies, implies_true, and_true]
  refine ⟨spelledAlike_of_children (by rintro _ _ _ _ ⟨⟩) ?_,
    spelledAlike_of_children (by rintro _ _ _ _ ⟨⟩) ?_⟩
  · simp [children, fieldOne, hname]
  · simp [children, fieldOne, hstring, hnumber]

end Printer

end ScriptTree
