import ScriptTree.Printer.Print
import ScriptTree.Proofs.ArrowFree

/-!
Formulas, the expressions built from names by operators, accesses and calls, and how they are printed.
-/

namespace ScriptTree

/-- The operators that make a unary expression. -/
def Operator.unaries : List String := ["!", "~", "+", "-", "typeof", "void", "delete"]

/-- A plain name of ASCII characters. -/
structure IsAsciiName (name : String) : Prop where
  plain : IsPlainName name.toList
  ascii : ∀ c ∈ name.toList, c.toNat < 0x80

/-- A plain name, or a word that can be one. -/
def IsOperandName (name : String) : Prop := IsAsciiName name ∨ name ∈ relationalWords

theorem IsOperandName.isName {name : String} (h : IsOperandName name) : IsName name.toList := by
  have hall : ∀ name ∈ relationalWords, IsName name.toList := by decide
  rcases h with h | h
  · exact h.plain.isName
  · exact hall name h

section Formulas

variable (names : String → Prop)

/-- Expressions built from names and `this` by operators of the rule table, accesses and calls, in
any way. -/
inductive Node.IsFormula : Node → Prop
  | identifier {name : String} : names name → IsFormula (.identifier name)
  | this : IsFormula .thisExpression
  | unary {operator : String} {argument : Node} : operator ∈ Operator.unaries →
    IsFormula argument → IsFormula (.unary operator argument true)
  | binary {operator : String} {left right : Node} : operator ∈ Operator.binaries.map Prod.fst →
    IsFormula left → IsFormula right →
    IsFormula (.binary (Operator.role operator) operator left right)
  | conditional {test consequent alternate : Node} : IsFormula test → IsFormula consequent →
    IsFormula alternate → IsFormula (.conditional test consequent (some alternate))
  /-- Any name may be the key, also one that is a keyword elsewhere. -/
  | access {owner : Node} {name : String} : IsFormula owner → IsName name.toList →
    IsFormula (.member owner (.identifier name) false)
  | computed {owner key : Node} : IsFormula owner → IsFormula key →
    IsFormula (.member owner key true)
  /-- Names, accesses, calls and sequences can be called. -/
  | call {callee : Node} {arguments : List Node} : IsFormula callee → callee.isCallable = true →
    (∀ argument ∈ arguments, IsFormula argument) → IsFormula (.call .plain callee arguments)
  /-- Names and accesses can be assigned to. -/
  | assignment {operator : String} {left right : Node} : operator ∈ Operator.assignments →
    IsFormula left → left.isAssignable = true → IsFormula right →
    IsFormula (.assignment operator left right)
  | sequence {expressions : List Node} : 2 ≤ expressions.length →
    (∀ expression ∈ expressions, IsFormula expression) → IsFormula (.sequence expressions)

end Formulas

namespace Node

/-- Whether the text of a node ends with a word that is an operator before a space. -/
def endsInWord : Node → Bool
  | identifier name => relationalWords.contains name
  | unary _ (identifier name) _ => relationalWords.contains name
  | _ => false

mutual

/-- Whether a word that is an operator before a space stands before one in the text of a node. The
printer puts a space behind the operands of binary operators and choices, and behind what is
assigned to. -/
def exposesWord : Node → Bool
  | unary _ argument _ => exposesWord argument
  | binary _ _ left right => exposesWord left || endsInWord left || exposesWord right
  | conditional test consequent alternate =>
    exposesWord test || endsInWord test || exposesWord consequent || endsInWord consequent ||
      optionExposesWord alternate
  | member owner key computed => exposesWord owner || (computed && exposesWord key)
  | call _ callee arguments => exposesWord callee || anyExposesWord arguments
  | assignment _ left right => exposesWord left || endsInWord left || exposesWord right
  | sequence expressions => anyExposesWord expressions
  | _ => false

/-- Whether a word stands before a space in the text of one of some nodes. -/
def anyExposesWord : List Node → Bool
  | [] => false
  | node :: nodes => exposesWord node || anyExposesWord nodes

/-- Whether a word stands before a space in the text of a node, if there is one. -/
def optionExposesWord : Option Node → Bool
  | none => false
  | some node => exposesWord node

end

section Exposed

variable {operator : String}

theorem exposesWord_unary (argument : Node) :
    (unary operator argument true).exposesWord = argument.exposesWord := rfl

theorem exposesWord_binary (role : BinaryRole) (left right : Node) :
    (binary role operator left right).exposesWord =
      (left.exposesWord || left.endsInWord || right.exposesWord) := rfl

theorem exposesWord_conditional (test consequent alternate : Node) :
    (conditional test consequent (some alternate)).exposesWord =
      (test.exposesWord || test.endsInWord || consequent.exposesWord || consequent.endsInWord ||
        alternate.exposesWord) := rfl

theorem exposesWord_access (owner : Node) (name : String) :
    (member owner (identifier name) false).exposesWord = owner.exposesWord := Bool.or_false _

theorem exposesWord_computed (owner key : Node) :
    (member owner key true).exposesWord = (owner.exposesWord || key.exposesWord) := rfl

theorem exposesWord_assignment (left right : Node) :
    (assignment operator left right).exposesWord =
      (left.exposesWord || left.endsInWord || right.exposesWord) := rfl

theorem anyExposesWord_eq (nodes : List Node) : anyExposesWord nodes = nodes.any exposesWord := by
  induction nodes with
  | nil => rfl
  | cons node nodes ih => rw [List.any_cons, ← ih]; rfl

theorem exposesWord_call (role : CallRole) (callee : Node) (arguments : List Node) :
    (call role callee arguments).exposesWord =
      (callee.exposesWord || arguments.any exposesWord) := by
  rw [← anyExposesWord_eq]
  rfl

theorem exposesWord_sequence (expressions : List Node) :
    (sequence expressions).exposesWord = expressions.any exposesWord :=
  anyExposesWord_eq expressions

end Exposed

/-- The bare text of a node. -/
def bareText (node : Node) : List Char := (Printer.bare {} 0 node).toList

/-- The text of a node in a place. -/
def textIn (place : Place) (node : Node) : List Char :=
  (Printer.placed place node (Printer.bare {} 0 node)).toList

/-- The texts of the items of a list, with commas between them. -/
def itemsText (nodes : List Node) : List Char := [',', ' '].intercalate (nodes.map (textIn .item))

/-- Whether the text of a node in a place ends with a word that is an operator before a space. -/
def endsIn (place : Place) (node : Node) : Bool := !node.isWrapped place && node.endsInWord

/-- The loosest place in which a formula is not wrapped. -/
def home : Node → Place
  | sequence .. => .any
  | assignment .. | conditional .. => .item
  | unary .. => .operand
  | _ => .callee

variable {names : String → Prop}

theorem IsFormula.mono {names' : String → Prop} {node : Node} (h : node.IsFormula names)
    (hn : ∀ name, names name → names' name) : node.IsFormula names' := by
  induction h with
  | identifier hp => exact .identifier (hn _ hp)
  | this => exact .this
  | unary hop _ ih => exact .unary hop ih
  | binary hop _ _ ihl ihr => exact .binary hop ihl ihr
  | conditional _ _ _ iht ihc iha => exact .conditional iht ihc iha
  | access _ hname iho => exact .access iho hname
  | computed _ _ iho ihk => exact .computed iho ihk
  | call _ hcall _ ihc iha => exact .call ihc hcall iha
  | assignment hop _ hass _ ihl ihr => exact .assignment hop ihl hass ihr
  | sequence htwo _ ihe => exact .sequence htwo ihe

theorem IsFormula.endsInWord_eq {node : Node} (h : node.IsFormula IsAsciiName) :
    node.endsInWord = false := by
  have hname {name : String} (hn : IsAsciiName name) : relationalWords.contains name = false := by
    have hall : ∀ word ∈ relationalWords, word ∈ keywords := by decide
    rw [Bool.eq_false_iff]
    intro hw
    refine hn.plain.fresh ?_
    rw [String.ofList_toList]
    exact hall name (List.contains_iff_mem.mp hw)
  cases h with
  | identifier hn => exact hname hn
  | unary _ ha =>
    cases ha with
    | identifier hn => exact hname hn
    | _ => rfl
  | _ => rfl

/-- Plain names are no such words, wherever they stand. -/
theorem IsFormula.exposesWord_eq {node : Node} (h : node.IsFormula IsAsciiName) :
    node.exposesWord = false := by
  have hany {nodes : List Node} (ih : ∀ node ∈ nodes, node.exposesWord = false) :
      nodes.any exposesWord = false := by
    rw [List.any_eq_false]
    intro node hm
    rw [ih node hm]
    exact Bool.false_ne_true
  induction h with
  | identifier _ | this => rfl
  | unary _ _ ih => rw [exposesWord_unary, ih]
  | binary _ hl _ ihl ihr =>
    rw [exposesWord_binary, ihl, ihr, hl.endsInWord_eq]
    rfl
  | conditional ht hc _ iht ihc iha =>
    rw [exposesWord_conditional, iht, ihc, iha, ht.endsInWord_eq, hc.endsInWord_eq]
    rfl
  | access _ _ iho => rw [exposesWord_access, iho]
  | computed _ _ iho ihk =>
    rw [exposesWord_computed, iho, ihk]
    rfl
  | call _ _ _ ihc iha =>
    rw [exposesWord_call, ihc, hany iha]
    rfl
  | assignment _ hl _ _ ihl ihr =>
    rw [exposesWord_assignment, ihl, ihr, hl.endsInWord_eq]
    rfl
  | sequence _ _ ihe => rw [exposesWord_sequence, hany ihe]

theorem endsInWord_unary {operator : String} {argument : Node} (h : argument.IsFormula names) :
    (unary operator argument true).endsInWord = argument.endsIn .unary := by
  cases h <;> rfl

theorem IsFormula.alone_eq {node : Node} (h : node.IsFormula names) (text : String) :
    Printer.alone node text = text := by
  cases h <;> rfl

theorem IsFormula.textIn_eq {node : Node} (h : node.IsFormula names) (place : Place) :
    node.textIn place =
      if node.isWrapped place then '(' :: (node.bareText ++ [')']) else node.bareText := by
  unfold textIn Printer.placed
  rw [h.alone_eq]
  split
  · simp [Printer.parens, bareText]
  · rfl

/-- Outside of `new`, a formula is wrapped in the places that bind tighter than its home. -/
theorem IsFormula.isWrapped_eq {node : Node} (h : node.IsFormula names) {place : Place}
    (hp : place ≠ .newCallee) : node.isWrapped place = decide (node.home.rank < place.rank) := by
  cases place with
  | newCallee => exact absurd rfl hp
  | _ => cases h <;> rfl

theorem IsFormula.textIn_any {node : Node} (h : node.IsFormula names) :
    node.textIn .any = node.bareText := by
  have hw : node.isWrapped .any = false := by cases h <;> rfl
  rw [h.textIn_eq, hw]
  rfl

section Bare

open Printer

theorem bareText_identifier (name : String) : (identifier name).bareText = name.toList := rfl

theorem bareText_this : thisExpression.bareText = ['t', 'h', 'i', 's'] := rfl

theorem bareText_unary (operator : String) (argument : Node) :
    (unary operator argument true).bareText =
      (operatorText operator).toList ++ argument.textIn .unary :=
  String.toList_append

theorem bareText_binary (role : BinaryRole) (operator : String) (left right : Node) :
    (binary role operator left right).bareText =
      '(' :: (left.textIn .operand ++ ' ' :: (operator.toList ++ ' ' :: right.textIn .operand) ++
        [')']) := by
  have h : bare {} 0 (binary role operator left right) =
      parens (placed .operand left (bare {} 0 left) ++ " " ++ operator ++ " " ++
        placed .operand right (bare {} 0 right)) := rfl
  simp [bareText, h, parens, textIn]

theorem bareText_conditional (test consequent alternate : Node) :
    (conditional test consequent (some alternate)).bareText =
      test.textIn .operand ++ ' ' :: '?' :: ' ' :: (consequent.textIn .operand ++
        ' ' :: ':' :: ' ' :: alternate.textIn .operand) := by
  have h : bare {} 0 (conditional test consequent (some alternate)) =
      placed .operand test (bare {} 0 test) ++ " ? " ++
        placed .operand consequent (bare {} 0 consequent) ++ " : " ++
        placed .operand alternate (bare {} 0 alternate) := rfl
  simp [bareText, h, textIn]

theorem bareText_access (owner : Node) (name : String) :
    (member owner (identifier name) false).bareText =
      owner.textIn .callee ++ '.' :: name.toList := by
  have h : bare {} 0 (member owner (identifier name) false) =
      placed .callee owner (bare {} 0 owner) ++ ("." ++ name) := rfl
  simp [bareText, h, textIn]

theorem bareText_computed (owner key : Node) :
    (member owner key true).bareText =
      owner.textIn .callee ++ '[' :: (key.textIn .item ++ [']']) := by
  have h : bare {} 0 (member owner key true) =
      placed .callee owner (bare {} 0 owner) ++ ("[" ++ placed .item key (bare {} 0 key) ++ "]") := rfl
  simp [bareText, h, textIn]

theorem bareText_assignment (operator : String) (left right : Node) :
    (assignment operator left right).bareText =
      left.textIn .operand ++ ' ' :: (operator.toList ++ ' ' :: right.textIn .item) := by
  have h : bare {} 0 (assignment operator left right) =
      placed .operand left (bare {} 0 left) ++ " " ++ operator ++ " " ++
        placed .item right (bare {} 0 right) := rfl
  simp [bareText, h, textIn]

theorem toList_commaItems (nodes : List Node) :
    (commaItems nodes (bares {} 0 nodes)).toList = itemsText nodes := by
  have h : ∀ nodes : List Node,
      (List.zipWith (placed .item) nodes (bares {} 0 nodes)).map String.toList =
        nodes.map (textIn .item) := by
    intro nodes
    induction nodes with
    | nil => rfl
    | cons node nodes ih =>
      change (placed .item node (bare {} 0 node)).toList :: _ = _
      rw [ih]
      rfl
  rw [commaItems, String.toList_intercalate, h]
  rfl

theorem bareText_call (callee : Node) (arguments : List Node) :
    (call .plain callee arguments).bareText =
      callee.textIn .callee ++ '(' :: (itemsText arguments ++ [')']) := by
  have h : bare {} 0 (call .plain callee arguments) =
      placed .callee callee (bare {} 0 callee) ++ "(" ++
        commaItems arguments (bares {} 0 arguments) ++ ")" := rfl
  simp [bareText, h, textIn, toList_commaItems]

theorem bareText_sequence (expressions : List Node) :
    (sequence expressions).bareText = itemsText expressions :=
  toList_commaItems expressions

end Bare

theorem itemsText_singleton (node : Node) : itemsText [node] = node.textIn .item := by
  simp [itemsText]

theorem itemsText_cons_cons (node next : Node) (nodes : List Node) :
    itemsText (node :: next :: nodes) =
      node.textIn .item ++ ',' :: ' ' :: itemsText (next :: nodes) := by
  simp [itemsText]

/-- Where a formula starts: with a name, a parenthesis or, if it is wrapped where it would be called,
with an operator. -/
def Leads (node : Node) (c : Char) : Prop :=
  isNameStart c = true ∨ c = '(' ∨ node.home ≠ .callee ∧ c ∈ ['!', '~', '+', '-']

/-- Whether a text starts with a character that has a property. -/
def StartsWith (condition : Char → Prop) (text : List Char) : Prop :=
  ∃ c rest, text = c :: rest ∧ condition c

theorem StartsWith.append {condition condition' : Char → Prop} {text : List Char}
    (h : StartsWith condition text) (hc : ∀ c, condition c → condition' c) (rest : List Char) :
    StartsWith condition' (text ++ rest) := by
  obtain ⟨c, text, rfl, hl⟩ := h
  exact ⟨c, text ++ rest, rfl, hc c hl⟩

theorem startsWith_textIn {node : Node} (hf : node.IsFormula names) (h : StartsWith node.Leads node.bareText)
    (place : Place) : StartsWith node.Leads (node.textIn place) := by
  rw [hf.textIn_eq]
  split
  · exact ⟨'(', _, rfl, Or.inr (Or.inl rfl)⟩
  · exact h

/-- What stands where it could be called starts with no operator. -/
theorem startsWith_callee {node : Node} (hf : node.IsFormula names) (h : StartsWith node.Leads node.bareText)
    {place : Place} (hp : place = .unary ∨ place = .callee) :
    StartsWith (fun c => isNameStart c = true ∨ c = '(') (node.textIn place) := by
  have hw : node.isWrapped place = true ∨ node.home = .callee := by
    rcases hp with rfl | rfl <;> cases hf <;> first | exact Or.inl rfl | exact Or.inr rfl
  rw [hf.textIn_eq]
  split
  · exact ⟨'(', _, rfl, Or.inr rfl⟩
  · rename_i hn
    obtain ⟨c, rest, hr, hc⟩ := h
    have hh := hw.resolve_left hn
    exact ⟨c, rest, hr, by simpa [Leads, hh] using hc⟩

theorem IsFormula.startsWith {node : Node} (h : node.IsFormula IsOperandName) :
    StartsWith node.Leads node.bareText := by
  induction h with
  | @identifier name hp =>
    rw [bareText_identifier]
    have hn := hp.isName
    cases hl : name.toList with
    | nil => rw [hl] at hn; cases hn
    | cons c rest =>
      rw [hl, isName_cons_iff] at hn
      exact ⟨c, rest, rfl, Or.inl hn.1⟩
  | this => exact ⟨'t', _, bareText_this, Or.inl (by decide)⟩
  | @unary operator argument hop _ _ =>
    have hall : ∀ operator ∈ Operator.unaries,
        ((Printer.operatorText operator).toList.head?.any fun c =>
          isNameStart c || ['!', '~', '+', '-'].contains c) = true := by
      decide
    have hc := hall operator hop
    rw [bareText_unary]
    cases ho : (Printer.operatorText operator).toList with
    | nil => simp [ho] at hc
    | cons c rest =>
      simp only [ho, List.head?_cons, Option.any_some, Bool.or_eq_true, List.contains_iff_mem] at hc
      exact ⟨c, _, rfl, hc.imp_right fun h => Or.inr ⟨nofun, h⟩⟩
  | binary _ _ _ _ _ => exact ⟨'(', _, bareText_binary .., Or.inr (Or.inl rfl)⟩
  | conditional ht _ _ iht _ _ =>
    rw [bareText_conditional]
    refine (startsWith_textIn ht iht .operand).append (fun c hc => ?_) _
    exact hc.imp_right (Or.imp_right fun h => ⟨nofun, h.2⟩)
  | access ho _ iho =>
    rw [bareText_access]
    exact (startsWith_callee ho iho (Or.inr rfl)).append (fun c hc => hc.imp_right Or.inl) _
  | computed ho _ iho _ =>
    rw [bareText_computed]
    exact (startsWith_callee ho iho (Or.inr rfl)).append (fun c hc => hc.imp_right Or.inl) _
  | call hc _ _ ihc _ =>
    rw [bareText_call]
    exact (startsWith_callee hc ihc (Or.inr rfl)).append (fun c hc => hc.imp_right Or.inl) _
  | assignment _ hl _ _ ihl _ =>
    rw [bareText_assignment]
    refine (startsWith_textIn hl ihl .operand).append (fun c hc => ?_) _
    exact hc.imp_right (Or.imp_right fun h => ⟨nofun, h.2⟩)
  | @sequence expressions htwo he ihe =>
    rw [bareText_sequence]
    match expressions, htwo with
    | first :: second :: others, _ =>
      rw [itemsText_cons_cons]
      have hfirst := startsWith_textIn (he first List.mem_cons_self) (ihe first List.mem_cons_self)
        .item
      exact hfirst.append (fun c hc => hc.imp_right (Or.imp_right fun h => ⟨nofun, h.2⟩)) _

theorem StartsWith.mono {condition condition' : Char → Prop} {text : List Char}
    (h : StartsWith condition text) (hc : ∀ c, condition c → condition' c) :
    StartsWith condition' text := by
  simpa using h.append hc []

/-- No formula starts with white space or with what could end an arrow. -/
theorem IsFormula.startsWith_textIn {node : Node} (h : node.IsFormula IsOperandName) (place : Place) :
    StartsWith (fun c => isSpace c = false ∧ c ≠ '>') (node.textIn place) := by
  refine (Node.startsWith_textIn h h.startsWith place).mono fun c hc => ?_
  rcases hc with hc | rfl | ⟨-, hc⟩
  · exact ⟨isSpace_of_isNameStart hc, ne_of_isNameStart hc (by decide)⟩
  · decide
  · simp only [List.mem_cons, List.not_mem_nil, or_false] at hc
    rcases hc with rfl | rfl | rfl | rfl <;> decide

theorem arrowFree_textIn {node : Node} (hf : node.IsFormula names) (h : ArrowFree node.bareText)
    (place : Place) : ArrowFree (node.textIn place) := by
  rw [hf.textIn_eq]
  split
  · refine .cons (h.append_cons (arrowFree_of_not_mem ?_) ?_ ?_) ?_ <;> decide
  · exact h

theorem arrowFree_itemsText {nodes : List Node} (h : ∀ node ∈ nodes, ArrowFree (node.textIn .item)) :
    ArrowFree (itemsText nodes) := by
  induction nodes with
  | nil => exact arrowFree_of_not_mem List.not_mem_nil
  | cons node nodes ih =>
    have hn := h node List.mem_cons_self
    have hns := ih fun other hm => h other (List.mem_cons_of_mem _ hm)
    cases nodes with
    | nil => rwa [itemsText_singleton]
    | cons next nodes =>
      rw [itemsText_cons_cons]
      refine hn.append_cons (hns.cons ?_) ?_ ?_ <;> decide

/-- No arrow stands in a formula. -/
theorem IsFormula.arrowFree {node : Node} (h : node.IsFormula IsOperandName) : ArrowFree node.bareText := by
  have hnil : ArrowFree [] := arrowFree_of_not_mem List.not_mem_nil
  induction h with
  | identifier hp => exact arrowFree_name hp.isName
  | this => exact arrowFree_of_not_mem (by decide)
  | @unary operator argument hop ha iha =>
    have hall : ∀ operator ∈ Operator.unaries,
        '=' ∉ (Printer.operatorText operator).toList := by
      decide
    obtain ⟨c, rest, hr, -, hc⟩ := ha.startsWith_textIn .unary
    rw [bareText_unary]
    refine (arrowFree_of_not_mem (hall operator hop)).append (arrowFree_textIn ha iha _) (Or.inr ?_)
    simpa [hr] using hc
  | binary hop hl hr ihl ihr =>
    rw [bareText_binary]
    refine .cons (.append_cons (.append_cons (arrowFree_textIn hl ihl .operand)
      (.append_cons (arrowFree_operator (List.mem_append_left _ hop))
        (arrowFree_textIn hr ihr .operand) ?_ ?_) ?_ ?_) hnil ?_ ?_) ?_ <;> decide
  | conditional ht hc ha iht ihc iha =>
    have hrest := (arrowFree_textIn ha iha .operand).cons (by decide : ' ' ≠ '=')
    have hrest := (hrest.cons (by decide : ':' ≠ '='))
    rw [bareText_conditional]
    refine (arrowFree_textIn ht iht .operand).append_cons (.cons (.cons
      ((arrowFree_textIn hc ihc .operand).append_cons hrest ?_ ?_) ?_) ?_) ?_ ?_ <;> decide
  | access ho hn iho =>
    rw [bareText_access]
    refine (arrowFree_textIn ho iho .callee).append_cons (arrowFree_name hn) ?_ ?_ <;> decide
  | computed ho hk iho ihk =>
    rw [bareText_computed]
    refine (arrowFree_textIn ho iho .callee).append_cons ((arrowFree_textIn hk ihk .item).append_cons
      hnil ?_ ?_) ?_ ?_ <;> decide
  | call hc _ ha ihc iha =>
    have hitems := arrowFree_itemsText fun node hm => arrowFree_textIn (ha node hm) (iha node hm) _
    rw [bareText_call]
    refine (arrowFree_textIn hc ihc .callee).append_cons (hitems.append_cons hnil ?_ ?_) ?_ ?_ <;>
      decide
  | assignment hop hl _ hr ihl ihr =>
    rw [bareText_assignment]
    refine (arrowFree_textIn hl ihl .operand).append_cons
      ((arrowFree_operator (List.mem_append_right _ hop)).append_cons (arrowFree_textIn hr ihr .item)
        ?_ ?_) ?_ ?_ <;> decide
  | sequence _ he ihe =>
    rw [bareText_sequence]
    exact arrowFree_itemsText fun node hm => arrowFree_textIn (he node hm) (ihe node hm) _

end Node

end ScriptTree
