import ScriptTree.Proofs.ProgramShape
import ScriptTree.Proofs.Symbols

/-!
How nodes are spelled, and steps that build nodes spelled so.

A tree keeps some of the source's spelling: that of numbers, regular expressions and operators. What
such a spelling starts with is known from the lexical form of its token. A step that builds nodes
takes them from tokens, or from the operands and parameters that wait in the buffers.
-/

namespace ScriptTree

/-- A regular expression does not start like a line comment, since its body is not empty. -/
def opensRegex : List Char → Bool
  | '/' :: c :: _ => c != '/'
  | _ => false

theorem Scan.opensRegex_of_regex {text : List Char} {lexeme : Lexeme}
    (h : Scan.regex text = some lexeme) : opensRegex lexeme.raw = true := by
  unfold Scan.regex at h
  split at h
  · rename_i text
    split at h
    · cases h
    · rename_i body hne hb
      cases h
      simp only [Lexeme.raw, Lexeme.whole, List.nil_append, List.append_nil]
      cases body with
      | nil => exact absurd rfl hne
      | cons c body =>
        -- a slash at the start of the body would have closed it
        have hc : c ≠ '/' := by
          rintro rfl
          obtain ⟨rest, rfl⟩ := Scan.regexBody?_isPrefix hb
          cases hb
        simpa [opensRegex] using hc
    · cases h
  · cases h

theorem Pattern.apply_punctuators {spellings : List String} {text : List Char} {lexeme : Lexeme}
    (h : (Pattern.punctuators spellings).apply text = some lexeme) :
    ∃ spelling ∈ spellings, lexeme = .whole spelling.toList := by
  obtain ⟨spelling, hs, rfl⟩ := Option.map_eq_some_iff.mp h
  exact ⟨spelling, List.mem_of_find?_eq_some hs, rfl⟩

namespace Rule

/-- The patterns of the rules for spellings that trees keep. -/
theorem kept_patterns : ∀ rule ∈ table,
    (rule.kind = .numericLiteral → rule.pattern = .form .number) ∧
      (rule.kind = .regexLiteral → rule.pattern = .form .regex) ∧
      (rule.kind = .assignmentOperator →
        rule.pattern = .punctuators rule.pattern.spellings ∧
          ∀ spelling ∈ rule.pattern.spellings, spelling ∈ Operator.assignments) := by
  decide

end Rule

namespace Token.At

variable {place : Cursor} {token : Token}

/-- A token whose kind is that of rules of the table is what one of them matches. -/
theorem exists_rule (h : token.At place) (hs : token.kind ≠ .semicolon)
    (ht : token.kind ≠ .templateChunk) : ∃ rule ∈ Rule.table, ∃ lexeme : Lexeme,
      rule.kind = token.kind ∧ rule.pattern.apply place.rest = some lexeme ∧
      token.raw.toList = lexeme.raw ∧ token.value.toList = lexeme.value := by
  cases h with
  | comment hf he => exact absurd rfl hs
  | @plain mode afterOperand newline rule lexeme hf _ =>
    obtain ⟨ha, ⟨-, rfl⟩ | ⟨-, hin, -⟩⟩ := Rule.applies_of_first hf
    · exact absurd rfl ht
    · exact ⟨rule, hin, lexeme, rfl, ha, String.toList_ofList, String.toList_ofList⟩

theorem canStart_number (h : token.At place) (hk : token.kind = .numericLiteral) :
    token.raw.toList.head?.any (LexicalForm.canStart · .number) = true := by
  obtain ⟨rule, hin, lexeme, hr, ha, -, -⟩ :=
    h.exists_rule (by rw [hk]; nofun) (by rw [hk]; nofun)
  rw [(Rule.kept_patterns rule hin).1 (hr.trans hk)] at ha
  obtain ⟨-, -, hne, rest, hp⟩ := h.spans
  cases hw : token.raw.toList with
  | nil => exact absurd hw hne
  | cons c raw =>
    rw [List.head?_cons, Option.any_some]
    by_contra hc
    -- no number is found where the text starts otherwise
    have hnone := LexicalForm.number.match?_eq_none (raw ++ rest) (Bool.eq_false_iff.mpr hc)
    rw [← hp, hw, List.cons_append] at ha
    rw [Pattern.apply, hnone] at ha
    cases ha

theorem opensRegex (h : token.At place) (hk : token.kind = .regexLiteral) :
    opensRegex token.raw.toList = true := by
  obtain ⟨rule, hin, lexeme, hr, ha, hraw, -⟩ :=
    h.exists_rule (by rw [hk]; nofun) (by rw [hk]; nofun)
  rw [(Rule.kept_patterns rule hin).2.1 (hr.trans hk)] at ha
  rw [hraw]
  exact Scan.opensRegex_of_regex ha

theorem mem_assignments (h : token.At place) (hk : token.kind = .assignmentOperator) :
    token.value ∈ Operator.assignments := by
  obtain ⟨rule, hin, lexeme, hr, ha, -, hv⟩ :=
    h.exists_rule (by rw [hk]; nofun) (by rw [hk]; nofun)
  obtain ⟨hp, hall⟩ := (Rule.kept_patterns rule hin).2.2 (hr.trans hk)
  rw [hp] at ha
  obtain ⟨spelling, hs, rfl⟩ := Pattern.apply_punctuators ha
  rw [String.toList_injective hv]
  exact hall spelling hs

end Token.At

namespace Node

/-- Whether a node is spelled as the source can spell it. -/
def isSpelled : Node → Bool
  | literal (.number _) raw => raw.toList.head?.any (LexicalForm.canStart · .number)
  | literal (.regex source) _ => opensRegex source.toList
  | unary operator _ _ => Operator.isLeading operator && !Operator.isUpdate operator
  | update operator _ _ => Operator.isUpdate operator
  | assignment operator _ _ => Operator.assignments.contains operator
  | _ => true

/-- All nodes of a tree are spelled as the source can spell them. -/
def Spelled (tree : Node) : Prop := ∀ node ∈ tree.preorder, node.isSpelled = true

/-- The trees in all fields are spelled as the source can spell them. -/
def SpelledFields (fields : List (String × Node)) : Prop := ∀ field ∈ fields, field.2.Spelled

@[simp] theorem spelledFields_nil : SpelledFields [] := nofun

@[simp] theorem spelledFields_append {fields others : List (String × Node)} :
    SpelledFields (fields ++ others) ↔ SpelledFields fields ∧ SpelledFields others :=
  List.forall_mem_append

@[simp] theorem spelledFields_one {field : String} {node : Node} :
    SpelledFields (fieldOne field node) ↔ node.Spelled :=
  List.forall_mem_singleton

@[simp] theorem spelledFields_option {field : String} {node : Option Node} :
    SpelledFields (fieldOption field node) ↔ ∀ tree ∈ node, tree.Spelled := by
  simp [SpelledFields, fieldOption]

@[simp] theorem spelledFields_list {field : String} {nodes : List Node} :
    SpelledFields (fieldList field nodes) ↔ ∀ tree ∈ nodes, tree.Spelled :=
  List.forall_mem_map

/-- A tree is spelled so if its root is and the trees below are. -/
theorem spelled_of {node : Node} (h : node.isSpelled = true) (hc : SpelledFields node.children) :
    node.Spelled :=
  forall_mem_preorder.mpr ⟨h, hc⟩

theorem Spelled.root {node : Node} (h : node.Spelled) : node.isSpelled = true :=
  (forall_mem_preorder.mp h).1

theorem Spelled.fields {node : Node} (h : node.Spelled) : SpelledFields node.children :=
  (forall_mem_preorder.mp h).2

theorem spelled_identifier (name : String) : (identifier name).Spelled :=
  spelled_of rfl nofun

end Node

/-- A parser whose stream is faithful to its text, and whose buffers hold trees that are spelled as
the source can spell them. -/
structure Parser.Spelled (parser : Parser) : Prop where
  faithful : parser.lexer.Faithful
  operands : ∀ node ∈ parser.operands, node.Spelled
  params : ∀ node ∈ parser.pendingParams, node.Spelled

namespace ParserM

variable {α β : Type}

/-- What a step gives, if it succeeds in a parse that is spelled as the source can spell it, has a
property, and the parse is still spelled so. -/
def Gives (m : ParserM α) (P : α → Prop) : Prop :=
  ∀ parser after a, parser.Spelled → m parser = .ok a after → P a ∧ after.Spelled

theorem gives_pure {P : α → Prop} {a : α} (h : P a) : Gives (pure a) P := by
  intro parser after b hp hb
  cases hb
  exact ⟨h, hp⟩

theorem gives_reject (P : α → Prop) (error : Parser → SyntaxError) : Gives (reject error) P := by
  intro parser after a _ ha
  cases ha

theorem gives_throw (P : α → Prop) (failure : Failure) :
    Gives (throw failure : ParserM α) P := by
  intro parser after a _ ha
  cases ha

theorem Gives.bind {m : ParserM α} {f : α → ParserM β} {Q : α → Prop} {P : β → Prop}
    (hm : Gives m Q) (h : ∀ a, Q a → Gives (f a) P) : Gives (m >>= f) P := by
  intro parser after b hp hb
  obtain ⟨a, between, ha, hf⟩ := ok_of_bind_ok hb
  obtain ⟨hq, hbetween⟩ := hm parser between a hp ha
  exact h a hq between after b hbetween hf

/-- A step whose result does not matter comes before others. -/
theorem Gives.andThen {m : ParserM α} {f : α → ParserM β} {P : β → Prop}
    (hm : Gives m fun _ => True) (h : ∀ a, Gives (f a) P) : Gives (m >>= f) P :=
  hm.bind fun a _ => h a

theorem gives_ite {c : Prop} [Decidable c] {m m' : ParserM α} {P : α → Prop} (h : Gives m P)
    (h' : Gives m' P) : Gives (if c then m else m') P := by
  split
  · exact h
  · exact h'

theorem gives_get {f : Parser → ParserM β} {P : β → Prop} (h : ∀ parser, Gives (f parser) P) :
    Gives (get >>= f) P :=
  fun parser => h parser parser

/-- A step that leaves the buffers as they are and the stream faithful. -/
theorem gives_step {m : ParserM α} (hf : Keeping StillFaithful m) (hb : Leading SameBuffers m) :
    Gives m fun _ => True := by
  intro parser after a hp hm
  obtain ⟨ho, hparams⟩ := hb hm
  exact ⟨trivial, hf.of_ok hm hp.faithful, ho ▸ hp.operands, hparams ▸ hp.params⟩

theorem gives_elementary : Elementary (fun {α} (m : ParserM α) => Gives m fun _ => True) where
  pure _ := gives_pure trivial
  bind hm hf := hm.andThen hf
  current := gives_step stillFaithful_lasting.elementary.current sameBuffers_elementary.current
  surroundings :=
    gives_step stillFaithful_lasting.elementary.surroundings sameBuffers_elementary.surroundings
  budget := gives_step stillFaithful_lasting.elementary.budget sameBuffers_elementary.budget
  outOfSteps := gives_throw _ _
  unexpected := gives_reject _ _
  wanting _ := gives_reject _ _
  complaint _ := gives_reject _ _
  next h := gives_step (stillFaithful_lasting.elementary.next h) (sameBuffers_elementary.next h)
  reread h :=
    gives_step (stillFaithful_lasting.elementary.reread h) (sameBuffers_elementary.reread h)

theorem gives_tryModifier (sameLine : Bool) : Gives (tryModifier sameLine) fun _ => True :=
  gives_step (stillFaithful_lasting.tryModifier sameLine) (sameBuffers_tryModifier sameLine)

theorem Gives.within {m : ParserM α} {P : α → Prop} (h : Gives m P) (frame : Frame) :
    Gives (within frame m) P := by
  intro parser after a hp hm
  by_cases hd : parser.options.maxDepth ≤ parser.context.length
  · rw [run_within_full hd] at hm
    cases hm
  · rw [run_within (Nat.not_le.mp hd)] at hm
    cases hs : m { parser with context := frame :: parser.context } with
    | error failure between => simp only [hs, reduceCtorEq] at hm
    | ok b between =>
      simp only [hs] at hm
      cases hm
      have hin : Parser.Spelled { parser with context := frame :: parser.context } :=
        ⟨hp.faithful, hp.operands, hp.params⟩
      obtain ⟨ha, hbetween⟩ := h _ _ _ hin hs
      exact ⟨ha, hbetween.faithful, hbetween.operands, hbetween.params⟩

theorem Gives.commaList {item : ParserM α} {P : α → Prop} (h : Gives item P)
    (close : TokenKind) (rounds : Nat) :
    Gives (commaList close item rounds) fun items => ∀ a ∈ items, P a := by
  induction rounds with
  | zero => exact gives_throw _ _
  | succ rounds ih =>
    refine (gives_elementary.pair.isAt _).andThen fun atEnd => gives_ite (gives_pure nofun) ?_
    refine h.bind fun first hfirst => ?_
    refine (gives_elementary.pair.accept _).andThen fun found => gives_ite ?_ ?_
    · refine ih.bind fun others hothers => gives_pure ?_
      exact List.forall_mem_cons.mpr ⟨hfirst, hothers⟩
    · exact gives_pure (List.forall_mem_singleton.mpr hfirst)

theorem Gives.manyWhile {item : ParserM α} {P : α → Prop} (h : Gives item P)
    (goesOn : Option Token → Bool) (rounds : Nat) :
    Gives (manyWhile goesOn item rounds) fun items => ∀ a ∈ items, P a := by
  induction rounds with
  | zero => exact gives_throw _ _
  | succ rounds ih =>
    refine gives_elementary.current.andThen fun word => gives_ite ?_ (gives_pure nofun)
    refine h.bind fun first hfirst => ih.bind fun others hothers => gives_pure ?_
    exact List.forall_mem_cons.mpr ⟨hfirst, hothers⟩

theorem Gives.closedList {item : ParserM α} {P : α → Prop} (h : Gives item P)
    (close : TokenKind) : Gives (closedList close item) fun items => ∀ a ∈ items, P a :=
  gives_elementary.budget.andThen fun rounds => (h.commaList close rounds).bind fun _ hitems =>
    (gives_elementary.require close).andThen fun _ => gives_pure hitems

/-- The current token is a token of the text. -/
theorem gives_token : Gives token fun word => ∃ place, word.At place := by
  intro parser after word hp hm
  obtain ⟨rfl, hw⟩ := of_token_ok hm
  obtain ⟨place, _, _, -, hat, -⟩ := hp.faithful.current word hw
  exact ⟨⟨place, hat⟩, hp⟩

theorem gives_nextTokenIn (mode : LexerMode) : Gives (nextTokenIn mode) fun _ => True := by
  intro parser after word hp hm
  cases hm
  exact ⟨trivial, hp.faithful.next mode, hp.operands, hp.params⟩

theorem gives_reread (mode : LexerMode) : Gives (reread mode) fun _ => True := by
  intro parser after word hp hm
  cases hm
  exact ⟨trivial, hp.faithful.reread mode, hp.operands, hp.params⟩

end ParserM

end ScriptTree
