import ScriptTree.Printer.Print
import ScriptTree.Proofs.FirstToken
import ScriptTree.Proofs.SpelledTrees

/-!
What a printed expression begins with: the text of the operand that stands first in it, unless a
parenthesis stands before that. So the first token of the text is known from that operand.
-/

namespace ScriptTree

namespace Node

/-- The operand that the text of a node begins with, and the place it stands in. -/
def firstOperand? : Node → Option (Place × Node)
  | assignment _ left _ => some (.operand, left)
  | member owner _ _ => some (.callee, owner)
  | call .plain callee _ => some (.callee, callee)
  | conditional test _ _ => some (.operand, test)
  | sequence (first :: _) => some (.item, first)
  | update _ argument false => some (.callee, argument)
  | _ => none

/-- The constructs that begin with an operand, each with the place of it. -/
inductive BeginsWith : Node → Place → Node → Prop
  | assignment (operator : String) (left right : Node) :
    BeginsWith (assignment operator left right) .operand left
  | member (owner key : Node) (computed : Bool) : BeginsWith (member owner key computed) .callee owner
  | call (callee : Node) (arguments : List Node) :
    BeginsWith (call .plain callee arguments) .callee callee
  | conditional (test consequent : Node) (alternate : Option Node) :
    BeginsWith (conditional test consequent alternate) .operand test
  | sequence (first : Node) (others : List Node) :
    BeginsWith (sequence (first :: others)) .item first
  | update (operator : String) (argument : Node) :
    BeginsWith (update operator argument false) .callee argument

theorem beginsWith_of_firstOperand? {node child : Node} {place : Place}
    (h : node.firstOperand? = some (place, child)) : BeginsWith node place child := by
  unfold firstOperand? at h
  split at h <;> cases h <;> constructor

/-- The node that the text of an expression begins with, if no parenthesis stands before it. -/
def foremost? : Node → Option Node
  | assignment _ left _ => if left.isWrapped .operand then none else left.foremost?
  | member owner _ _ => if owner.isWrapped .callee then none else owner.foremost?
  | call .plain callee _ => if callee.isWrapped .callee then none else callee.foremost?
  | conditional test _ _ => if test.isWrapped .operand then none else test.foremost?
  | sequence (first :: _) => if first.isWrapped .item then none else first.foremost?
  | update _ argument false => if argument.isWrapped .callee then none else argument.foremost?
  | node => some node

/-- A node and its foremost node, by the operands that stand first: the last of them is the foremost
node, and one that is wrapped leaves none. -/
theorem foremost?_cases {P : Node → Option Node → Prop}
    (hleaf : ∀ node, node.firstOperand? = none → P node (some node))
    (hwrapped : ∀ node place child, node.firstOperand? = some (place, child) →
      child.isWrapped place = true → P node none)
    (hstep : ∀ node place child, node.firstOperand? = some (place, child) →
      ¬child.isWrapped place = true → P child child.foremost? → P node child.foremost?)
    (node : Node) : P node node.foremost? := by
  fun_induction foremost? node with
  | case1 operator left right hw | case3 owner key computed hw | case5 callee arguments hw
  | case7 test consequent alternate hw | case9 first others hw
  | case11 operator argument hw => exact hwrapped _ _ _ rfl hw
  | case2 operator left right hw ih | case4 owner key computed hw ih
  | case6 callee arguments hw ih | case8 test consequent alternate hw ih
  | case10 first others hw ih | case12 operator argument hw ih => exact hstep _ _ _ rfl hw ih
  | case13 node =>
    apply hleaf
    unfold firstOperand?
    split <;> simp_all

/-- What holds of the foremost node, and of a node if it holds of the first operand, holds of the whole
expression. -/
theorem foremost?_induction {leaf : Node} {P : Node → Prop} (hleaf : leaf.firstOperand? = none → P leaf)
    (hstep : ∀ node place child, node.firstOperand? = some (place, child) →
      ¬child.isWrapped place = true → P child → P node)
    {node : Node} (h : node.foremost? = some leaf) : P node := by
  revert h
  apply foremost?_cases (P := fun node found => found = some leaf → P node) _ _ _ node
  · rintro node hn ⟨⟩
    exact hleaf hn
  · exact fun _ _ _ _ _ h => nomatch h
  · exact fun node place child hc hw ih h => hstep node place child hc hw (ih h)

/-- An expression without a foremost node begins with an operand that is wrapped, or that has none
either. -/
theorem foremost?_none_induction {P : Node → Prop}
    (hstep : ∀ node place child, node.firstOperand? = some (place, child) →
      (¬child.isWrapped place = true → P child) → P node)
    {node : Node} (h : node.foremost? = none) : P node := by
  revert h
  apply foremost?_cases (P := fun node found => found = none → P node) _ _ _ node
  · exact fun _ _ h => nomatch h
  · exact fun node place child hc hw _ => hstep node place child hc fun hn => absurd hw hn
  · exact fun node place child hc _ ih h => hstep node place child hc fun _ => ih h

theorem firstOperand?_of_foremost? {node leaf : Node} (h : node.foremost? = some leaf) :
    leaf.firstOperand? = none :=
  foremost?_induction (P := fun _ => leaf.firstOperand? = none) id (fun _ _ _ _ _ ih => ih) h

/-- The first operand is a child. -/
theorem mem_children_of_firstOperand? {node child : Node} {place : Place}
    (h : node.firstOperand? = some (place, child)) : ∃ field, (field, child) ∈ node.children := by
  cases beginsWith_of_firstOperand? h with
  | assignment => exact ⟨"left", by simp [children, fieldOne]⟩
  | member => exact ⟨"object", by simp [children, fieldOne]⟩
  | call => exact ⟨"callee", by simp [children, fieldOne]⟩
  | conditional => exact ⟨"test", by simp [children, fieldOne]⟩
  | sequence => exact ⟨"expressions", by simp [children, fieldList]⟩
  | update => exact ⟨"argument", by simp [children, fieldOne]⟩

/-- The first operand is an expression. -/
theorem isExpression_of_firstOperand? {node child : Node} {place : Place}
    (h : node.firstOperand? = some (place, child)) (hw : node.isWellFormed = true) :
    child.isExpression = true := by
  cases beginsWith_of_firstOperand? h
  case assignment operator right =>
    have ha := (Bool.and_eq_true_iff.mp hw).1
    cases child with
    | identifier | member | object | array => rfl
    | _ => cases ha
  all_goals
    simp only [isWellFormed, List.all_cons, Bool.and_eq_true] at hw
    tauto

theorem foremost?_mem {node leaf : Node} (h : node.foremost? = some leaf) : leaf ∈ node.preorder := by
  apply foremost?_induction (P := fun node => leaf ∈ node.preorder) _ _ h
  · exact fun _ => mem_preorder_self leaf
  · intro node place child hc _ ih
    obtain ⟨field, hin⟩ := mem_children_of_firstOperand? hc
    exact preorder_subset_of_child hin ih

/-- The foremost node of a well formed expression is an expression. -/
theorem isExpression_of_foremost? {node leaf : Node} (h : node.foremost? = some leaf)
    (hs : node.Sound) (he : node.isExpression = true) : leaf.isExpression = true := by
  revert hs he
  apply foremost?_induction (P := fun node => node.Sound → node.isExpression = true →
    leaf.isExpression = true) _ _ h
  · exact fun _ _ he => he
  intro node place child hc _ ih hs _
  obtain ⟨field, hin⟩ := mem_children_of_firstOperand? hc
  exact ih (hs.fields _ hin) (isExpression_of_firstOperand? hc hs.root)

/-- Objects, functions and classes. -/
def opensBody : Node → Bool
  | object .. | function .. | classDeclaration .. => true
  | _ => false

theorem startsLikeStatement_eq (node : Node) :
    node.startsLikeStatement = node.foremost?.any opensBody := by
  apply foremost?_cases
    (P := fun node found => node.startsLikeStatement = found.any opensBody) _ _ _ node
  · intro node hn
    unfold startsLikeStatement
    split <;> simp_all [firstOperand?, opensBody]
  · intro node place child hc hw
    cases beginsWith_of_firstOperand? hc <;> simp [startsLikeStatement, hw]
  · intro node place child hc hw ih
    cases beginsWith_of_firstOperand? hc <;> simp [startsLikeStatement, hw, ih]

end Node

theorem endsName_assignment {operator : String} (h : operator ∈ Operator.assignments)
    (text : List Char) : EndsName (' ' :: (operator.toList ++ text)) := by
  have hall : ∀ operator ∈ Operator.assignments,
      operator.toList.head?.any (fun c => !isSpace c && !isNamePart c) = true := by
    rw [Operator.assignments_eq]
    decide
  obtain ⟨c, hc, hmark⟩ := (Option.any_eq_true _ _).mp (hall operator h)
  obtain ⟨tail, ht⟩ := List.head?_eq_some_iff.mp hc
  simp only [Bool.and_eq_true, Bool.not_eq_true'] at hmark
  obtain ⟨hs, hn⟩ := hmark
  rw [ht, List.cons_append]
  exact (endsName_of_mark hs hn _).2

namespace Printer

open Node

/-- A node that is not wrapped in its place begins with its bare text. -/
theorem placed_of_not_wrapped {place : Place} {node : Node} (h : ¬node.isWrapped place = true)
    (text : String) : ∃ rest, (placed place node text).toList = text.toList ++ rest ∧
      EndsName rest := by
  rw [placed, if_neg h]
  unfold alone
  split
  · exact ⟨[';'], by simp, by decide⟩
  · exact ⟨[], by simp, endsName_nil⟩

theorem placed_of_wrapped {place : Place} {node : Node} (h : node.isWrapped place = true)
    (text : String) : ∃ rest, (placed place node text).toList = '(' :: rest := by
  rw [placed, if_pos h]
  exact ⟨(alone node text).toList ++ [')'], by simp [parens]⟩

variable (options : PrinterOptions) (level : Nat)

/-- The text of a list begins with its first item, which a comma follows if there are others. -/
theorem toList_commaItems_cons (first : Node) (others : List Node) :
    ∃ more, (commaItems (first :: others) (bares options level (first :: others))).toList =
      (placed .item first (bare options level first)).toList ++ more ∧ EndsName more := by
  cases others with
  | nil =>
    refine ⟨[], ?_, endsName_nil⟩
    have h : commaItems [first] (bares options level [first]) =
      ", ".intercalate [placed .item first (bare options level first)] := rfl
    simp [h]
  | cons second others =>
    let rest := ", ".intercalate (List.zipWith (placed .item) (second :: others)
      (bares options level (second :: others)))
    refine ⟨',' :: ' ' :: rest.toList, ?_,
      (endsName_of_mark (show isSpace ',' = false from rfl) rfl _).1⟩
    have h : commaItems (first :: second :: others) (bares options level (first :: second :: others)) =
      ", ".intercalate (placed .item first (bare options level first) ::
        placed .item second (bare options level second) ::
        List.zipWith (placed .item) others (bares options level others)) := rfl
    have hrest : rest = ", ".intercalate (placed .item second (bare options level second) ::
      List.zipWith (placed .item) others (bares options level others)) := rfl
    rw [h, hrest, String.toList_intercalate, String.toList_intercalate]
    simp [List.intercalate]

/-- The text of a node begins with that of its first operand, and what follows there does not go on with
a name. -/
theorem toList_of_firstOperand? {node child : Node} {place : Place}
    (h : node.firstOperand? = some (place, child)) (hs : node.isSpelled = true) :
    ∃ more, (bare options level node).toList =
      (placed place child (bare options level child)).toList ++ more ∧ EndsName more := by
  cases beginsWith_of_firstOperand? h with
  | assignment operator left right =>
    refine ⟨' ' :: (operator.toList ++ _), by simp [bare]; rfl, ?_⟩
    exact endsName_assignment (List.contains_iff_mem.mp hs) _
  | member owner key computed =>
    cases computed with
    | true =>
      exact ⟨'[' :: _, by simp [bare]; rfl,
        (endsName_of_mark (show isSpace '[' = false from rfl) rfl _).1⟩
    | false =>
      exact ⟨'.' :: _, by simp [bare]; rfl,
        (endsName_of_mark (show isSpace '.' = false from rfl) rfl _).1⟩
  | call callee arguments =>
    exact ⟨'(' :: _, by simp [bare]; rfl,
      (endsName_of_mark (show isSpace '(' = false from rfl) rfl _).1⟩
  | conditional test consequent alternate =>
    exact ⟨' ' :: '?' :: _, by simp [bare]; rfl,
      (endsName_of_mark (show isSpace '?' = false from rfl) rfl _).2⟩
  | sequence first others => exact toList_commaItems_cons options level child others
  | update operator argument =>
    refine ⟨operator.toList, by simp [bare], ?_⟩
    simp only [isSpelled, Operator.isUpdate, Bool.or_eq_true, beq_iff_eq] at hs
    rcases hs with rfl | rfl <;> decide

/-- What an expression is printed as begins with the text of its foremost node, and what follows there
does not go on with a name. -/
theorem bare_of_foremost? {node leaf : Node} (hs : node.Spelled) (h : node.foremost? = some leaf) :
    ∃ rest, (bare options level node).toList = (bare options level leaf).toList ++ rest ∧
      EndsName rest := by
  revert hs
  apply foremost?_induction (P := fun node => node.Spelled → ∃ rest,
    (bare options level node).toList = (bare options level leaf).toList ++ rest ∧ EndsName rest) _ _ h
  · exact fun _ _ => ⟨[], by simp, endsName_nil⟩
  intro node place child hc hw ih hs
  obtain ⟨field, hin⟩ := mem_children_of_firstOperand? hc
  obtain ⟨rest, hrest, hr⟩ := ih (hs.fields _ hin)
  obtain ⟨more, hmore, hm⟩ := toList_of_firstOperand? options level hc hs.root
  obtain ⟨end_, hend, he⟩ := placed_of_not_wrapped hw (bare options level child)
  refine ⟨rest ++ (end_ ++ more), ?_, hr.append (he.append hm)⟩
  rw [hmore, hend, hrest, List.append_assoc, List.append_assoc]

/-- An expression without a foremost node begins with a parenthesis. -/
theorem bare_of_foremost?_eq_none {node : Node} (hs : node.Spelled) (h : node.foremost? = none) :
    ∃ rest, (bare options level node).toList = '(' :: rest := by
  revert hs
  apply foremost?_none_induction (P := fun node => node.Spelled → ∃ rest,
    (bare options level node).toList = '(' :: rest) _ h
  intro node place child hc ih hs
  obtain ⟨field, hin⟩ := mem_children_of_firstOperand? hc
  obtain ⟨more, hmore, -⟩ := toList_of_firstOperand? options level hc hs.root
  by_cases hw : child.isWrapped place = true
  · obtain ⟨text, htext⟩ := placed_of_wrapped hw (bare options level child)
    exact ⟨text ++ more, by rw [hmore, htext, List.cons_append]⟩
  · obtain ⟨rest, hrest⟩ := ih hw (hs.fields _ hin)
    obtain ⟨end_, hend, -⟩ := placed_of_not_wrapped hw (bare options level child)
    exact ⟨rest ++ (end_ ++ more), by rw [hmore, hend, hrest, List.append_assoc, List.cons_append]⟩

end Printer

namespace Node

/-- Whether the text of a node opens a block or a declaration before `rest`. The text of a name does so
if the name is taken for the head of a function. -/
def OpensBefore (rest : List Char) : Node → Prop
  | identifier name => Misread rest name.toList ∧ ¬Scan.yieldWord <+: name.toList
  | node => node.opensBody = true

end Node

namespace Printer

open Node

variable (options : PrinterOptions) (level : Nat)

theorem opensJust_of_toList {c : Char} {text : String} {tail : List Char}
    (h : text.toList = c :: tail) (hs : isSpace c = false)
    (hc : c ∉ '/' :: openingWords.filterMap List.head?) (rest : List Char) :
    OpensJust False (text.toList ++ rest) := by
  rw [h, List.cons_append]
  exact opensJust_false_of_head hs hc _

theorem opensJust_literal {value : LiteralValue} {raw : String}
    (hs : (literal value raw).isSpelled = true) (rest : List Char) :
    OpensJust False ((literalText options value raw).toList ++ rest) := by
  cases value with
  | string contents =>
    obtain ⟨quote, hq⟩ : ∃ quote : Quote, literalText options (.string contents) raw =
        String.singleton quote.char ++ contents ++ String.singleton quote.char := ⟨_, rfl⟩
    have ht : (literalText options (.string contents) raw).toList =
        quote.char :: (contents.toList ++ [quote.char]) := by
      simp [hq]
    cases quote with
    | single => exact opensJust_of_toList ht rfl (by decide) rest
    | double => exact opensJust_of_toList ht rfl (by decide) rest
  | number number =>
    have hraw : ¬raw.isEmpty = true := by
      intro he
      rw [String.isEmpty_iff.mp he] at hs
      cases hs
    rw [literalText, if_neg hraw]
    exact opensJust_false_of_number hs rest
  | boolean truth =>
    cases truth with
    | true =>
      exact opensJust_of_toList (show "true".toList = 't' :: _ from rfl) rfl (by decide) rest
    | false =>
      have hword : "false".toList = ['f', 'a', 'l', 's', 'e'] := rfl
      change OpensJust False ("false".toList ++ rest)
      rw [hword]
      exact opensJust_falseWord rest
  | null => exact opensJust_of_toList (show "null".toList = 'n' :: _ from rfl) rfl (by decide) rest
  | regex source => exact opensJust_false_of_opensRegex hs rest

/-- Behind the word `function` stands a star, a name behind white space, or the parameters. -/
theorem toList_function (role : FunctionRole) (isAsync isGenerator : Bool) (name : Option Node)
    (params : List Node) (body : Option Node) :
    ∃ c, (c = '*' ∨ c = ' ' ∨ c = '(') ∧ ∃ following,
      (bare options level (function role isAsync isGenerator name params body)).toList =
        (asyncText isAsync).toList ++ (Scan.functionWord ++ c :: following) := by
  have hword : "function".toList = Scan.functionWord := rfl
  simp only [bare, String.toList_append, List.append_assoc, hword]
  cases isGenerator with
  | true => exact ⟨'*', Or.inl rfl, by simp [starText]⟩
  | false =>
    cases name with
    | some name => exact ⟨' ', Or.inr (Or.inl rfl), by simp [starText, optional]⟩
    | none => exact ⟨'(', Or.inr (Or.inr rfl), by simp [starText, optional, functionTail]⟩

/-- Behind the word `class` stands white space. -/
theorem toList_classDeclaration (name superClass : Option Node) (body : Node) :
    ∃ following, (bare options level (classDeclaration name superClass body)).toList =
      Rule.classWord ++ ' ' :: following := by
  have hword : "class".toList = Rule.classWord := rfl
  simp only [bare, String.toList_append, List.append_assoc, hword]
  cases name with
  | some name => simp [optional]
  | none => cases superClass <;> simp [optional]

theorem opensJust_functionText (role : FunctionRole) (isAsync isGenerator : Bool)
    (name : Option Node) (params : List Node) (body : Option Node) (rest : List Char) :
    OpensJust True ((bare options level (function role isAsync isGenerator name params body)).toList ++
      rest) := by
  obtain ⟨c, hc, following, ht⟩ :=
    toList_function options level role isAsync isGenerator name params body
  have hfollows : StarFollows (c :: (following ++ rest)) ∨
      atBoundary (c :: (following ++ rest)) = true := by
    rcases hc with rfl | rfl | rfl
    · exact Or.inl rfl
    · exact Or.inr rfl
    · exact Or.inr rfl
  rw [ht]
  cases isAsync with
  | true =>
    have hgap : IsGap [' '] := ⟨List.cons_ne_nil _ _, List.forall_mem_singleton.mpr rfl⟩
    have hword : (asyncText true).toList = Scan.asyncWord ++ [' '] := rfl
    simpa [hword] using opensJust_async hgap hfollows
  | false =>
    have hword : (asyncText false).toList = [] := rfl
    simpa [hword] using opensJust_function hfollows

theorem opensJust_leaf {leaf : Node} (hl : leaf.firstOperand? = none) (he : leaf.isExpression = true)
    (hw : leaf.isWellFormed = true) (hs : leaf.isSpelled = true)
    (hp : ∀ name, leaf = identifier name → IsPlainName name.toList) {rest : List Char}
    (hr : EndsName rest) :
    OpensJust (leaf.OpensBefore rest) ((bare options level leaf).toList ++ rest) := by
  have closed {c : Char} (h : ∃ tail, (bare options level leaf).toList = c :: tail)
      (hs : isSpace c = false) (hc : c ∉ '/' :: openingWords.filterMap List.head?)
      (hno : ¬leaf.OpensBefore rest) :
      OpensJust (leaf.OpensBefore rest) ((bare options level leaf).toList ++ rest) := by
    obtain ⟨tail, ht⟩ := h
    exact (opensJust_of_toList ht hs hc rest).congr (iff_of_false id hno)
  cases leaf with
  | identifier name => exact opensJust_name (hp name rfl) hr
  | literal value raw =>
    exact (opensJust_literal options hs rest).congr (iff_of_false id Bool.false_ne_true)
  | templateLiteral quasis expressions =>
    exact closed (c := '\x60') (by simp [bare]) rfl (by decide) Bool.false_ne_true
  | spread argument => exact closed (c := '.') (by simp [bare]) rfl (by decide) Bool.false_ne_true
  | thisExpression => exact closed (c := 't') (by simp [bare]) rfl (by decide) Bool.false_ne_true
  | array elements => exact closed (c := '[') (by simp [bare]) rfl (by decide) Bool.false_ne_true
  | arrowFunction params body =>
    exact closed (c := '(') (by simp [bare]) rfl (by decide) Bool.false_ne_true
  | yieldExpression delegate argument =>
    refine closed (c := 'y') ?_ rfl (by decide) Bool.false_ne_true
    cases delegate <;> simp [bare]
  | unary operator argument isPrefix =>
    have hall : ∀ operator ∈ ["!", "~", "+", "-", "typeof", "void", "delete"],
        (operatorText operator).toList.head?.any (fun c => !isSpace c &&
          decide (c ∉ '/' :: openingWords.filterMap List.head?)) = true := by
      decide
    simp only [isSpelled, Operator.isLeading, Bool.and_eq_true, Bool.or_eq_true,
      Bool.not_eq_true'] at hs
    have hop := hs.1.resolve_right (by simp [hs.2])
    obtain ⟨c, hc, hplain⟩ := (Option.any_eq_true _ _).mp (hall operator (List.contains_iff_mem.mp hop))
    obtain ⟨tail, ht⟩ := List.head?_eq_some_iff.mp hc
    simp only [Bool.and_eq_true, Bool.not_eq_true', decide_eq_true_eq] at hplain
    exact closed (by simp [bare, ht]) hplain.1 hplain.2 Bool.false_ne_true
  | update operator argument leading =>
    have hop : operator = "++" ∨ operator = "--" := by
      simpa [isSpelled, Operator.isUpdate] using hs
    cases leading with
    | false => cases hl
    | true =>
      rcases hop with rfl | rfl
      · exact closed (c := '+') (by simp [bare]) rfl (by decide) Bool.false_ne_true
      · exact closed (c := '-') (by simp [bare]) rfl (by decide) Bool.false_ne_true
  | binary role operator left right =>
    exact closed (c := '(') (by simp [bare, parens]) rfl (by decide) Bool.false_ne_true
  | call role callee arguments =>
    cases role with
    | plain => cases hl
    | construct => exact closed (c := 'n') (by simp [bare]) rfl (by decide) Bool.false_ne_true
  | sequence expressions =>
    cases expressions with
    | nil => cases hw
    | cons first others => cases hl
  | object role properties =>
    obtain ⟨tail, ht⟩ : ∃ tail, (bare options level (object role properties)).toList =
        '\x7b' :: tail := by
      rw [bare]
      split <;> simp
    rw [ht, List.cons_append]
    exact (opensJust_openBrace _).congr (iff_of_true trivial rfl)
  | function role isAsync isGenerator name params body =>
    exact (opensJust_functionText options level role isAsync isGenerator name params body rest).congr
      (iff_of_true trivial rfl)
  | classDeclaration name superClass body =>
    obtain ⟨following, ht⟩ := toList_classDeclaration options level name superClass body
    rw [ht, List.append_assoc]
    exact (opensJust_class rfl).congr (iff_of_true trivial rfl)
  | assignment | member | conditional => cases hl
  | _ => cases he

end Printer

namespace Node

/-- An expression begins with a name that is taken for the head of a function in a text. A name can
hold characters that also count as white space, so the word `function` with such characters behind it
is a name, but with a star behind them the head of a generator. -/
def MisreadFirst (node : Node) (text : List Char) : Prop :=
  ∃ name rest, node.foremost? = some (identifier name) ∧ text = name.toList ++ rest ∧
    Misread rest name.toList ∧ ¬Scan.yieldWord <+: name.toList

/-- All names in a tree are plain. -/
def PlainNames (tree : Node) : Prop :=
  ∀ name, identifier name ∈ tree.preorder → IsPlainName name.toList

theorem isWrapped_any (node : Node) : node.isWrapped .any = false := by
  unfold isWrapped
  split <;> rfl

end Node

namespace Printer

open Node

theorem alone_of_isExpression {node : Node} (h : node.isExpression = true) (text : String) :
    alone node text = text := by
  cases node with
  | variableDeclaration => cases h
  | _ => rfl

theorem placed_any_of_isExpression {node : Node} (h : node.isExpression = true) (text : String) :
    placed .any node text = text := by
  have hw : ¬node.isWrapped .any = true := by rw [isWrapped_any]; exact Bool.false_ne_true
  rw [placed, if_neg hw, alone_of_isExpression h]

theorem toSource_of_isExpression {node : Node} (h : node.isExpression = true) :
    node.toSource = bare {} 0 node := by
  have hprint : node.toSource = alone node (bare {} 0 node) := by
    cases node with
    | program => cases h
    | _ => rfl
  rw [hprint, alone_of_isExpression h]

variable (options : PrinterOptions) (level : Nat) {node : Node}

theorem not_misreadFirst_of_startsLikeStatement (h : node.startsLikeStatement = true)
    (text : List Char) : ¬node.MisreadFirst text := by
  rintro ⟨name, rest, hname, -⟩
  rw [startsLikeStatement_eq, hname] at h
  cases h

/-- The text of an expression opens a block or a declaration if its foremost node is an object, a
function or a class that no parenthesis stands before, or a name that is misread. -/
theorem opensJust_bare (hw : node.Sound) (hs : node.Spelled) (he : node.isExpression = true)
    (hp : node.PlainNames) {more : List Char} (hm : EndsName more) :
    OpensJust (node.startsLikeStatement = true ∨
        node.MisreadFirst ((bare options level node).toList ++ more))
      ((bare options level node).toList ++ more) := by
  cases hf : node.foremost? with
  | none =>
    obtain ⟨rest, hrest⟩ := bare_of_foremost?_eq_none options level hs hf
    rw [hrest, List.cons_append]
    refine (opensJust_false_of_head rfl (by decide) _).congr (iff_of_false id ?_)
    rintro (h | ⟨name, rest, hname, -⟩)
    · rw [startsLikeStatement_eq, hf] at h
      cases h
    · rw [hf] at hname
      cases hname
  | some leaf =>
    obtain ⟨rest, hrest, hr⟩ := bare_of_foremost? options level hs hf
    have hin := foremost?_mem hf
    have hopens := opensJust_leaf options level (firstOperand?_of_foremost? hf)
      (isExpression_of_foremost? hf hw he) (hw leaf hin) (hs leaf hin)
      (fun name hname => hp name (hname ▸ hin)) (hr.append hm)
    rw [hrest, List.append_assoc]
    refine hopens.congr ?_
    rw [startsLikeStatement_eq, hf, Option.any_some]
    constructor
    · intro h
      cases leaf with
      | identifier name => exact Or.inr ⟨name, _, hf, rfl, h⟩
      | _ => exact Or.inl h
    · rintro (h | ⟨name, rest', hname, heq, h⟩)
      · cases leaf with
        | identifier name => cases h
        | _ => exact h
      · rw [hf] at hname
        cases hname
        have hrest' : rest ++ more = rest' := List.append_cancel_left heq
        rw [← hrest'] at h
        exact h

/-- Only a block stands behind the arrow without parentheses and begins with a brace. -/
theorem head?_arrowBodyText (hw : node.Sound) (hs : node.Spelled) (hp : node.PlainNames)
    (hb : node.isBlock = true ∨ node.isExpression = true) :
    (arrowBodyText node (bare options level node)).toList.head? = some '\x7b' ↔
      node.isBlock = true := by
  cases hblock : node.isBlock with
  | true =>
    refine iff_of_true ?_ rfl
    cases node with
    | block body =>
      have ht : arrowBodyText (block body) (bare options level (block body)) =
          blockText options level body (bares options (level + 1) body) := rfl
      rw [ht, blockText]
      split <;> simp
    | _ => cases hblock
  | false =>
    refine iff_of_false ?_ Bool.false_ne_true
    have he : node.isExpression = true := by
      rcases hb with hb | he
      · rw [hb] at hblock
        cases hblock
      · exact he
    intro hhead
    rw [arrowBodyText] at hhead
    split at hhead
    · -- in parentheses
      simp [parens] at hhead
    · rename_i hno
      have hno : ¬node.startsLikeStatement = true := fun h => hno (by rw [h, Bool.true_or])
      by_cases hwrap : node.isWrapped .item = true
      · obtain ⟨rest, hrest⟩ := placed_of_wrapped hwrap (bare options level node)
        rw [hrest] at hhead
        cases hhead
      · rw [placed, if_neg hwrap, alone_of_isExpression he] at hhead
        have hopens := opensJust_bare options level hw hs he hp endsName_nil
        rw [List.append_nil] at hopens
        obtain ⟨name, rest, hname, ht, -⟩ :=
          (hopens.opens.mp (Or.inl hhead)).resolve_left hno
        have hn := (hp name (foremost?_mem hname)).isName
        rw [ht] at hhead
        cases hl : name.toList with
        | nil =>
          rw [hl] at hn
          cases hn
        | cons c tail =>
          rw [hl] at hn hhead
          exact absurd (Option.some.inj hhead) (ne_of_isNameStart (isName_cons_iff.mp hn).1 (by decide))

end Printer

theorem Scan.commentTail?_append {text : List Char} (h : Scan.commentTail? text = none) :
    Scan.commentTail? (text ++ [';']) = none := by
  fun_induction Scan.commentTail? text with
  | case1 => rfl
  | case2 text => cases h
  | case3 c text hno ih =>
    have hrest := ih (Option.map_eq_none_iff.mp h)
    rw [List.cons_append]
    unfold Scan.commentTail?
    split
    · rfl
    · rename_i text' ht
      obtain ⟨rfl, hslash⟩ := List.cons.inj ht
      cases text with
      | nil => cases hslash
      | cons d text => exact absurd rfl fun he => hno text he (by rw [(List.cons.inj hslash).1])
    · rename_i ht
      obtain ⟨rfl, rfl⟩ := List.cons.inj ht
      rw [hrest]
      rfl

theorem Scan.blockComment_append {text : List Char} (h : Scan.blockComment text = none) :
    Scan.blockComment (text ++ [';']) = none := by
  unfold Scan.blockComment at h
  split at h
  · rename_i text
    rw [List.cons_append, List.cons_append, Scan.blockComment,
      Scan.commentTail?_append (Option.map_eq_none_iff.mp h)]
    rfl
  · rename_i hno
    unfold Scan.blockComment
    split
    · rename_i ht
      cases text with
      | nil => cases ht
      | cons c text =>
        obtain ⟨rfl, hrest⟩ := List.cons.inj ht
        cases text with
        | nil => cases hrest
        | cons d text =>
          obtain ⟨rfl, -⟩ := List.cons.inj hrest
          exact absurd rfl (hno text)
    · rfl

namespace Node

/-- What the text of an expression of a program begins with. If its names are plain, it opens a block or
a declaration where the expression starts like a statement or begins with a misread name; as a statement
of its own it does so only where it begins with a misread name; and behind the arrow of a function only
a block begins with a brace. A regular expression might begin like a comment, which is left out. -/
theorem startsLikeStatement_toSource_iff {source : String} {options : ParserOptions} {tree e : Node}
    (h : Node.ofSourceWith options source = .ok tree) (hin : e ∈ tree.preorder)
    (he : e.isExpression = true) (hp : e.PlainNames)
    (hc : Scan.blockComment e.toSource.toList = none) :
    (StartsLikeStatement e.toSource.toList ↔
      e.startsLikeStatement = true ∨ e.MisreadFirst e.toSource.toList) ∧
    (StartsLikeStatement (expressionStatement e).toSource.toList ↔
      e.MisreadFirst (expressionStatement e).toSource.toList) ∧
    ∀ params body, arrowFunction params body ∈ e.preorder → ∀ options level,
      ((Printer.arrowBodyText body (Printer.bare options level body)).toList.head? = some '\x7b' ↔
        body.isBlock = true) := by
  have hsub := preorder_subset hin
  have hsound : e.Sound := fun below hb => Parser.run_sound h below (hsub hb)
  have hspelled : e.Spelled := fun below hb => spelled_of_ofSourceWith h below (hsub hb)
  have hbare := Printer.toSource_of_isExpression he
  have hopens {more : List Char} (hm : EndsName more) :=
    Printer.opensJust_bare {} 0 hsound hspelled he hp hm
  refine ⟨?_, ?_, ?_⟩
  · have hopens := hopens endsName_nil
    rw [List.append_nil, ← hbare] at hopens
    exact hopens.startsLikeStatement_iff hc
  · have hstatement : (expressionStatement e).toSource =
        Printer.leading .any e (Printer.bare {} 0 e) ++ ";" := rfl
    rw [hstatement, Printer.leading, Printer.placed_any_of_isExpression he]
    split
    · rename_i hstarts
      have ht : (Printer.parens (Printer.bare {} 0 e) ++ ";").toList =
          '(' :: ((Printer.bare {} 0 e).toList ++ [')', ';']) := by
        simp [Printer.parens]
      rw [ht, (opensJust_false_of_head rfl (by decide) _).startsLikeStatement_iff rfl]
      exact iff_of_false id (Printer.not_misreadFirst_of_startsLikeStatement hstarts _)
    · rename_i hno
      have hopens := hopens (show EndsName [';'] by decide)
      rw [← hbare] at hopens ⊢
      have hmore : (e.toSource ++ ";").toList = e.toSource.toList ++ [';'] := String.toList_append
      rw [hmore, hopens.startsLikeStatement_iff (Scan.blockComment_append hc)]
      exact or_iff_right hno
  · intro params body hbody options level
    have hchild : ("body", body) ∈ (arrowFunction params body).children := by
      simp [children, fieldOne]
    have hsubBody : body.preorder ⊆ e.preorder :=
      List.Subset.trans (preorder_subset_of_child hchild) (preorder_subset hbody)
    have hwell := hsound _ hbody
    simp only [isWellFormed, Bool.and_eq_true, Bool.or_eq_true] at hwell
    exact Printer.head?_arrowBodyText options level (fun below hb => hsound below (hsubBody hb))
      (fun below hb => hspelled below (hsubBody hb)) (fun name hn => hp name (hsubBody hn)) hwell.2

/-- Where a program just assigns an arrow function from one name to an empty object: the operator, the
name assigned to and the parameter. -/
def assignedArrow? : Except Failure Node → Option (String × String × String)
  | .ok (program [expressionStatement (assignment operator (identifier name)
      (arrowFunction [identifier parameter] (object .expression [])))]) =>
    some (operator, name, parameter)
  | _ => none

theorem eq_ok_of_assignedArrow? {result : Except Failure Node} {operator name parameter : String}
    (h : assignedArrow? result = some (operator, name, parameter)) :
    result = .ok (program [expressionStatement (assignment operator (identifier name)
      (arrowFunction [identifier parameter] (object .expression [])))]) := by
  unfold assignedArrow? at h
  split at h
  · cases h
    rfl
  · cases h

/-- The name `function` with a character behind it that also counts as white space, before an operator
that begins with a star. A comment keeps the two apart in the source, but nothing in the printed text. -/
theorem startsLikeStatement_toSource_misread :
    let e := assignment "*=" (identifier "function\u200c")
      (arrowFunction [identifier "b"] (object .expression []))
    Node.ofSourceWith {} "function\u200c/**/*= (b) => (\x7b\x7d)" =
        .ok (.program [.expressionStatement e]) ∧
      e.startsLikeStatement = false ∧ StartsLikeStatement e.toSource.toList ∧
      StartsLikeStatement (expressionStatement e).toSource.toList := by
  intro e
  have htree : Node.ofSourceWith {} "function\u200c/**/*= (b) => (\x7b\x7d)" =
      .ok (.program [.expressionStatement e]) :=
    eq_ok_of_assignedArrow? (by decide +kernel)
  have hin : e ∈ (program [expressionStatement e]).preorder := by
    simp [preorder_eq (program _), preorder_eq (expressionStatement _), mem_preorder_self, children,
      fieldList, fieldOne]
  have hplain : e.PlainNames := by
    have hnames : ∀ name ∈ ["function\u200c", "b"], IsPlainName name.toList := by decide +kernel
    intro name hname
    apply hnames
    simpa [e, preorder_eq (assignment _ _ _), preorder_eq (arrowFunction _ _),
      preorder_eq (object _ _), preorder_eq (identifier _), children, fieldList, fieldOne] using hname
  have hgap : IsGap ['\u200c'] := ⟨List.cons_ne_nil _ _, List.forall_mem_singleton.mpr rfl⟩
  have hmisread (text : List Char) (ht : StarFollows text) :
      e.MisreadFirst ("function\u200c".toList ++ text) :=
    ⟨_, text, rfl, rfl, .function hgap ht, by decide⟩
  obtain ⟨hexpression, hstatement, -⟩ := startsLikeStatement_toSource_iff htree hin rfl hplain
    (by decide)
  refine ⟨htree, rfl, hexpression.mpr (Or.inr ?_), hstatement.mpr ?_⟩
  · have ht : e.toSource.toList = "function\u200c".toList ++ " *= (b) => (\x7b\x7d)".toList := by
      decide
    rw [ht]
    exact hmisread _ (by decide)
  · have ht : (expressionStatement e).toSource.toList =
        "function\u200c".toList ++ " *= (b) => (\x7b\x7d);".toList := by
      decide
    rw [ht]
    exact hmisread _ (by decide)

end Node

end ScriptTree
