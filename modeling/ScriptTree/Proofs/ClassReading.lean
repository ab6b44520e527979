import ScriptTree.Proofs.MemberReading
import ScriptTree.Proofs.StatementText

/-!
Methods with nothing in them, and classes of them and of fields, as they are read.
-/

namespace ScriptTree

open ParserM

namespace ParserM

variable {parser : Parser} {afterOperand : Bool} {rest : List Char}

theorem leadsTo_fresh_identifier {opensArrow : ParserM Bool} {sub : Goal → ParserM Node} {name : String}
    (hs : parser.lexer.Shows .identifierName none name.toList afterOperand rest) :
    LeadsTo (fresh opensArrow sub) parser (.identifier name) afterOperand rest := by
  obtain ⟨word, hw, hk, hv, -⟩ := hs.token
  obtain ⟨after, hx, hm, hf⟩ := leadsTo_nextToken hs
  refine ⟨after, ?_, hm, hf⟩
  simp only [fresh, run_bind, run_token hw, opening, hk, identifier, hx, run_pure, hv,
    String.ofList_toList]

/-- A name is an operand of its own where what follows does not continue it. -/
theorem leadsTo_nameOperand {name : String} {frame : Frame}
    (hs : parser.lexer.Shows .identifierName none name.toList true rest) (hf : frame.isEnclosing = true)
    (hh : Halts frame rest) (room : Nat) (hb : 0 < parser.budget)
    (hd : parser.context.length < parser.options.maxDepth) :
    LeadsTo (within frame (goal arrowAhead (room + 1) .operand)) parser (.identifier name) true rest := by
  refine Leads.within ?_ (fun _ _ hf => hf) hd
  have hfresh : LeadsTo (fresh arrowAhead (goal arrowAhead room))
      { parser with context := frame :: parser.context } (.identifier name) true rest :=
    leadsTo_fresh_identifier hs
  obtain ⟨after, hx, hm, hface⟩ := operand_of_fresh (isExtending_of_isEnclosing hf) hfresh
  exact ⟨after, hx.trans (extend_halt hface hm.context hh hb), hm, hface⟩

theorem run_commaList_nil {α : Type} {close : TokenKind} {item : ParserM α}
    {precedence : Option Nat} {value : List Char} {rounds : Nat}
    (h : parser.lexer.Shows close precedence value afterOperand rest) (hr : 0 < rounds) :
    commaList close item rounds parser = .ok [] parser := by
  obtain ⟨rounds, rfl⟩ := Nat.exists_eq_succ_of_ne_zero (Nat.pos_iff_ne_zero.mp hr)
  simp only [commaList, run_bind, run_isAt_of_shows h, beq_self_eq_true, if_true, run_pure]

/-- The key of a member, taken from where the stream stands on it. -/
theorem leadsTo_memberKey {key : MemberKey} (h : parser.lexer.OnKey rest key) (hw : key.WellFormed)
    (owner : NodeKind) (room : Nat) (hb : 0 < parser.budget)
    (hd : parser.context.length < parser.options.maxDepth) :
    LeadsTo (memberKey (goal arrowAhead (room + 1)) owner) parser (key.printed.node, key.isComputed) true
      rest := by
  cases key with
  | named name =>
    have hn : parser.lexer.OnName name.toList rest := h
    obtain ⟨word, hw, hcan, -⟩ := hn.word
    obtain ⟨again, hc, -, hv, -⟩ := hn.shows.token
    refine ⟨{ parser with lexer := (parser.lexer.reread .names).next .default }, ?_, ⟨_, _, rfl⟩,
      hn.shows.next .default⟩
    have hname : ParserM.name parser = .ok (.identifier name)
        { parser with lexer := (parser.lexer.reread .names).next .default } := by
      simp only [ParserM.name, reread, nextToken, run_bind, run_token hw, hcan, if_true,
        run_modifyLexer, run_current, hc, Option.getD_some, hv, String.ofList_toList, run_pure]
    -- the token is a word, so it is neither a bracket nor a literal
    have hkey : memberKey (goal arrowAhead (room + 1)) owner parser =
        (ParserM.name >>= fun key => pure (key, false)) parser := by
      simp only [memberKey, run_bind, run_token hw, hcan, if_true]
      cases hk : word.kind
      case openBracket | stringLiteral | numericLiteral =>
        rw [canBeName, hk] at hcan
        cases hcan
      all_goals simp only [run_bind]
    rw [hkey, run_bind, hname]
    rfl
  | string contents raw =>
    obtain ⟨afterOperand, hf⟩ := h
    obtain ⟨quote, hq, ht⟩ := Printer.exists_quotable {} hw
    rw [MemberKey.text, ht] at hf
    obtain ⟨⟨word, hc, hk⟩, p₁, h₁, m₁, f₁⟩ := leadsTo_string hq hf
    refine ⟨p₁, ?_, m₁, f₁⟩
    have hprinted : (MemberKey.string contents raw).printed.node =
        .literal (.string (String.ofList contents.toList))
          (String.ofList (quotedText quote contents.toList)) := by
      rw [← ht, String.ofList_toList, String.ofList_toList]
      rfl
    simp only [memberKey, run_bind, run_token hc, hk, h₁, run_pure, hprinted]
    rfl
  | computed name =>
    obtain ⟨afterOperand, hf⟩ := h
    have hsteady : IsSteadyName name.toList := hw
    have hf' : parser.lexer.Facing .default afterOperand ('[' :: (name.toList ++ ']' :: rest)) := by
      simpa [MemberKey.text] using hf
    have hs := hf'.shows_mark .openBracket (by decide)
    obtain ⟨word, hc, hk, -⟩ := hs.token
    obtain ⟨p₁, h₁, m₁, f₁⟩ := leadsTo_nextToken hs
    have hname : p₁.lexer.Shows .identifierName none name.toList true (']' :: rest) :=
      f₁.shows (begins_steadyName_of_head hsteady rfl rfl (by decide) (by decide) _) rfl
        (isUpdateSpelling_name hsteady.plain.isName)
    have hm : (']', TokenKind.closeBracket) ∈ marks := by decide
    obtain ⟨p₂, h₂, m₂, f₂⟩ : LeadsTo (operandAt (goal arrowAhead (room + 1)) owner .key) p₁
        (.identifier name) true (']' :: rest) :=
      leadsTo_nameOperand hname rfl (halts_mark hm rfl) room (by rw [m₁.budget]; exact hb)
        (by rw [m₁.context, m₁.options]; exact hd)
    obtain ⟨p₃, h₃, m₃, f₃⟩ := leadsTo_require (f₂.shows_mark .closeBracket hm)
    refine ⟨p₃, ?_, (m₁.trans m₂).trans m₃, f₃⟩
    simp only [memberKey, run_bind, run_token hc, hk, h₁, h₂, h₃, run_pure]
    rfl

end ParserM

/-- A function without a name, and with nothing in it. -/
def emptyFunction (isAsync isGenerator : Bool) : Node :=
  .function .expression isAsync isGenerator none [] (some (.block []))

/-- How empty parameters and an empty body are written. -/
def emptyTail : List Char := ['(', ')', ' ', '\x7b', '\x7d']

namespace ParserM

variable {parser : Parser} {afterOperand : Bool} {rest : List Char}

theorem leadsTo_emptyBlock (sub : Goal → ParserM Node)
    (h : parser.lexer.Facing .default afterOperand ('\x7b' :: '\x7d' :: rest))
    (hb : 0 < parser.budget) : LeadsTo (block sub) parser (.block []) false rest := by
  obtain ⟨p₁, h₁, m₁, f₁⟩ := leadsTo_require (h.shows_brace .openBrace (by decide))
  have hclose := f₁.shows_brace .closeBrace (by decide)
  obtain ⟨word, hw, hk, -⟩ := hclose.token
  have hstop : manyWhile (isNot .closeBrace) (statementAt sub .blockStatement .body) p₁.budget p₁ =
      .ok [] p₁ := by
    obtain ⟨rounds, hrounds⟩ : ∃ rounds, p₁.budget = rounds + 1 :=
      ⟨p₁.budget - 1, by rw [m₁.budget]; omega⟩
    have hno : isNot .closeBrace p₁.lexer.current = false := by simp [isNot, hw, hk]
    simp only [hrounds, manyWhile, run_bind, run_current, hno, Bool.false_eq_true, if_false, run_pure]
  obtain ⟨p₂, h₂, m₂, f₂⟩ := leadsTo_require hclose
  refine ⟨p₂, ?_, m₁.trans m₂, f₂⟩
  simp only [block, run_bind, h₁, run_budget, hstop, h₂, run_pure]

/-- Empty parameters and an empty body. -/
theorem leadsTo_emptyTail (sub : Goal → ParserM Node) (isAsync isGenerator : Bool)
    (h : parser.lexer.Facing .default afterOperand (emptyTail ++ rest)) (hb : 0 < parser.budget)
    (hd : parser.context.length < parser.options.maxDepth) :
    LeadsTo (functionRest sub .expression isAsync isGenerator none) parser
      (emptyFunction isAsync isGenerator) false rest := by
  obtain ⟨p₁, h₁, m₁, f₁⟩ := leadsTo_require (h.shows_mark .openParen (by decide))
  have hclose := f₁.shows_mark .closeParen (by decide)
  have hparams : commaList .closeParen (operandAt sub (functionKind .expression) .params) p₁.budget p₁ =
      .ok [] p₁ := run_commaList_nil hclose (by rw [m₁.budget]; exact hb)
  obtain ⟨p₂, h₂, m₂, f₂⟩ := leadsTo_require hclose
  have m₁₂ := m₁.trans m₂
  have f₂' : p₂.lexer.Facing .default true ('\x7b' :: '\x7d' :: rest) :=
    f₂.skip (Or.inl rfl) (by rintro _ ⟨⟩; rfl)
  obtain ⟨p₃, h₃, m₃, f₃⟩ : LeadsTo (within (.filling (functionKind .expression) .body) (block sub)) p₂
      (.block []) false rest := by
    have hbudget : 0 < p₂.budget := by rw [m₁₂.budget]; exact hb
    exact Leads.within (leadsTo_emptyBlock sub f₂' hbudget) (fun _ _ hf => hf)
      (by rw [m₁₂.context, m₁₂.options]; exact hd)
  refine ⟨p₃, ?_, m₁₂.trans m₃, f₃⟩
  simp only [functionRest, closedList, run_bind, h₁, run_budget, hparams, h₂, h₃, run_pure]
  rfl

end ParserM

/-- The modifiers that make an accessor of a method. -/
def accessorModifiers : MethodKind → List Modifier
  | .method => []
  | .getter => [.getter]
  | .setter => [.setter]

/-- One of three values, by the kind of a method. -/
def MethodKind.choose {α : Type} (plain getter setter : α) : MethodKind → α
  | .method => plain
  | .getter => getter
  | .setter => setter

theorem MethodKind.choose_self (kind : MethodKind) : choose .method .getter .setter kind = kind := by
  cases kind <;> rfl

/-- A method with nothing in it, in a class or an object. -/
structure EmptyMethod where
  /-- Whether it is asynchronous. -/
  isAsync : Bool
  /-- Whether it is a generator. -/
  isGenerator : Bool
  /-- Whether it is an accessor. -/
  kind : MethodKind
  /-- Its key. -/
  key : MemberKey

namespace EmptyMethod

/-- What is written before the key. -/
def modifiers (method : EmptyMethod) : List Modifier :=
  flag method.isAsync .async ++ (flag method.isGenerator .generator ++ accessorModifiers method.kind)

/-- How a method is written. -/
def text (method : EmptyMethod) : List Char := memberText method.modifiers method.key ++ emptyTail

/-- The first two words of the method, `async` and the name `function`, stand side by side, where they
are taken for the start of a function. -/
def IsFused (method : EmptyMethod) : Prop :=
  method.isAsync = true ∧ method.isGenerator = false ∧ method.kind = .method ∧
    method.key = .named "function"

instance (method : EmptyMethod) : Decidable method.IsFused :=
  inferInstanceAs (Decidable (_ ∧ _ ∧ _ ∧ _))

theorem head?_accessorModifiers (kind : MethodKind) :
    (accessorModifiers kind).head? ≠ some .generator := by
  cases kind <;> decide

theorem head?_generator (isGenerator : Bool) (kind : MethodKind) :
    (flag isGenerator .generator ++ accessorModifiers kind).head? ≠ some .async := by
  cases isGenerator <;> cases kind <;> decide

theorem head?_modifiers (method : EmptyMethod) : method.modifiers.head? ≠ some .static := by
  obtain ⟨isAsync, isGenerator, kind, key⟩ := method
  change (flag isAsync .async ++ (flag isGenerator .generator ++ accessorModifiers kind)).head? ≠ _
  cases isAsync <;> cases isGenerator <;> cases kind <;> decide

variable {method : EmptyMethod} {rest : List Char}

/-- All modifiers of a method are read as such, unless its first words are fused. -/
theorem inOrder (hw : method.key.WellFormed) (he : EndsKey rest) (hf : ¬method.IsFused) :
    InOrder method.key rest method.modifiers := by
  obtain ⟨isAsync, isGenerator, kind, key⟩ := method
  have haccessor : InOrder key rest (accessorModifiers kind) := by
    cases kind with
    | method => exact .nil
    | getter => exact .cons (Modifier.reads_memberText hw he nofun nofun) .nil
    | setter => exact .cons (Modifier.reads_memberText hw he nofun nofun) .nil
  refine (haccessor.flag fun _ => ?_).flag fun hasync => ?_
  · exact Modifier.reads_memberText hw he (head?_accessorModifiers kind) nofun
  · refine Modifier.reads_memberText hw he (head?_generator isGenerator kind) ?_
    rintro - hnil rfl
    obtain ⟨hg, hk⟩ : isGenerator = false ∧ kind = .method := by
      cases isGenerator <;> cases kind <;> first | exact ⟨rfl, rfl⟩ | cases hnil
    exact hf ⟨hasync, hg, hk, rfl⟩

theorem inOrder_static (hw : method.key.WellFormed) (he : EndsKey rest) (hf : ¬method.IsFused)
    (isStatic : Bool) : InOrder method.key rest (flag isStatic .static ++ method.modifiers) :=
  (inOrder hw he hf).flag fun _ => Modifier.reads_memberText hw he method.head?_modifiers nofun

end EmptyMethod

namespace ParserM

variable {parser : Parser} {key : MemberKey} {rest : List Char}

/-- The words `get` and `set` are looked for one after the other. -/
theorem leads_accessor {α : Type} (plain getter setter : α) {kind : MethodKind}
    (h : parser.lexer.OnMember key rest (accessorModifiers kind))
    (hl : InOrder key rest (accessorModifiers kind)) (hw : key.WellFormed) (hs : key.Stands rest) :
    Leads (do
      if ← acceptModifier .getKeyword then pure getter
      else if ← acceptModifier .setKeyword then pure setter
      else pure plain) parser (kind.choose plain getter setter)
      fun after => after.lexer.OnKey rest key := by
  cases kind with
  | method =>
    obtain ⟨p₁, h₁, m₁, o₁⟩ : Leads (acceptModifier .getKeyword) parser false _ :=
      leads_flag false .getter [] h hl nofun hw hs
    obtain ⟨p₂, h₂, m₂, o₂⟩ : Leads (acceptModifier .setKeyword) p₁ false _ :=
      leads_flag false .setter [] o₁ .nil nofun hw hs
    refine ⟨p₂, ?_, m₁.trans m₂, o₂⟩
    simp only [run_bind, h₁, h₂, Bool.false_eq_true, if_false, run_pure, MethodKind.choose]
  | getter =>
    obtain ⟨p₁, h₁, m₁, o₁⟩ : Leads (acceptModifier .getKeyword) parser true _ :=
      leads_flag true .getter [] h hl nofun hw hs
    refine ⟨p₁, ?_, m₁, o₁⟩
    simp only [run_bind, h₁, if_true, run_pure, MethodKind.choose]
  | setter =>
    obtain ⟨p₁, h₁, m₁, o₁⟩ : Leads (acceptModifier .getKeyword) parser false _ :=
      leads_flag false .getter [.setter] h hl nofun hw hs
    obtain ⟨p₂, h₂, m₂, o₂⟩ : Leads (acceptModifier .setKeyword) p₁ true _ :=
      leads_flag true .setter [] o₁ hl nofun hw hs
    refine ⟨p₂, ?_, m₁.trans m₂, o₂⟩
    simp only [run_bind, h₁, h₂, Bool.false_eq_true, if_false, if_true, run_pure, MethodKind.choose]

/-- What follows the key of a member of a class. -/
def classMemberTail (sub : Goal → ParserM Node) (isStatic isAsync isGenerator : Bool)
    (kind : MethodKind) (key : Node) (computed : Bool) : ParserM Node := do
  if ← isAt .openParen then
    let value ← functionRest sub .expression isAsync isGenerator none
    pure (.methodDefinition isStatic kind key computed value)
  else
    let value ←
      if ← acceptText .assignmentOperator "=" then
        let value ← operandAt sub .propertyDefinition .value
        pure (some value)
      else pure none
    let _ ← accept .semicolon
    pure (.propertyDefinition isStatic key computed value)

/-- The modifiers and the key of a member of a class. -/
theorem leads_classMember {isStatic : Bool} {method : EmptyMethod} {node : Node}
    {holds : Parser → Prop}
    (h : parser.lexer.OnMember method.key rest (flag isStatic .static ++ method.modifiers))
    (hl : InOrder method.key rest (flag isStatic .static ++ method.modifiers))
    (hw : method.key.WellFormed) (hs : method.key.Stands rest) (room : Nat) (hb : 0 < parser.budget)
    (hd : parser.context.length < parser.options.maxDepth)
    (ht : ∀ between, parser.Moved between → between.lexer.Facing .default true rest →
      Leads (classMemberTail (goal arrowAhead (room + 1)) isStatic method.isAsync method.isGenerator
        method.kind method.key.printed.node method.key.isComputed) between node holds) :
    Leads (classMember (goal arrowAhead (room + 1))) parser node holds := by
  obtain ⟨p₁, h₁, m₁, o₁⟩ : Leads (acceptModifier .staticKeyword) parser isStatic _ :=
    leads_flag isStatic .static method.modifiers h hl method.head?_modifiers hw hs
  obtain ⟨p₂, h₂, m₂, o₂⟩ : Leads acceptAsync p₁ method.isAsync _ :=
    leads_flag _ .async _ o₁ hl.of_flag (EmptyMethod.head?_generator _ _) hw hs
  obtain ⟨p₃, h₃, m₃, o₃⟩ : Leads (acceptText .operator "*") p₂ method.isGenerator _ :=
    leads_flag _ .generator _ o₂ hl.of_flag.of_flag (EmptyMethod.head?_accessorModifiers _) hw
      hs
  obtain ⟨p₄, h₄, m₄, o₄⟩ : Leads methodKind p₃ (method.kind.choose .method .getter .setter) _ :=
    leads_accessor _ _ _ o₃ hl.of_flag.of_flag.of_flag hw hs
  rw [MethodKind.choose_self] at h₄
  have m₁₄ := ((m₁.trans m₂).trans m₃).trans m₄
  obtain ⟨p₅, h₅, m₅, f₅⟩ := leadsTo_memberKey o₄ hw .classBody room (by rw [m₁₄.budget]; exact hb)
    (by rw [m₁₄.context, m₁₄.options]; exact hd)
  obtain ⟨p₆, h₆, m₆, hh⟩ := ht p₅ (m₁₄.trans m₅) f₅
  refine ⟨p₆, ?_, (m₁₄.trans m₅).trans m₆, hh⟩
  simp only [classMember, run_bind, h₁, h₂, h₃, h₄, h₅]
  simpa only [classMemberTail, run_bind] using h₆

variable {isStatic isAsync isGenerator : Bool} {kind : MethodKind} {key : Node} {computed : Bool}

theorem leadsTo_methodTail (sub : Goal → ParserM Node)
    (h : parser.lexer.Facing .default true (emptyTail ++ rest)) (hb : 0 < parser.budget)
    (hd : parser.context.length < parser.options.maxDepth) :
    LeadsTo (classMemberTail sub isStatic isAsync isGenerator kind key computed) parser
      (.methodDefinition isStatic kind key computed (emptyFunction isAsync isGenerator)) false rest := by
  have hopen := h.shows_mark .openParen (by decide)
  obtain ⟨p₁, h₁, m₁, f₁⟩ := leadsTo_emptyTail sub isAsync isGenerator h hb hd
  refine ⟨p₁, ?_, m₁, f₁⟩
  simp only [classMemberTail, run_bind, run_isAt_of_shows hopen, beq_self_eq_true, if_true, h₁, run_pure]

/-- How the value of a field is written, and its end. -/
def fieldTail (value : Option String) : List Char :=
  (match value with
    | some value => " = ".toList ++ value.toList
    | none => []) ++ [';']

theorem endsKey_fieldTail (value : Option String) (rest : List Char) : EndsKey (fieldTail value ++ rest) := by
  cases value with
  | none => exact .field rest
  | some value => exact .value _

theorem leadsTo_fieldTail {value : Option String} (hv : IsSteadyClause value)
    (h : parser.lexer.Facing .default true (fieldTail value ++ rest)) (room : Nat)
    (hb : 0 < parser.budget) (hd : parser.context.length < parser.options.maxDepth) :
    LeadsTo (classMemberTail (goal arrowAhead (room + 1)) isStatic isAsync isGenerator kind key computed)
      parser (.propertyDefinition isStatic key computed (value.map .identifier)) false rest := by
  cases value with
  | none =>
    have hend := Lexer.Facing.shows_mark .semicolon h (by decide)
    obtain ⟨p₁, h₁, m₁, f₁⟩ := leadsTo_accept hend
    have hat : isAt .openParen parser = .ok false parser := run_isAt_of_shows hend .openParen
    have hno := run_acceptText_of_ne hend .assignmentOperator "=" nofun
    refine ⟨p₁, ?_, m₁, f₁⟩
    simp only [classMemberTail, run_bind, hat, hno, Bool.false_eq_true, if_false, h₁, run_pure,
      Option.map_none]
  | some value =>
    have hsteady := hv value rfl
    have h' : parser.lexer.Facing .default true
        (' ' :: '=' :: ' ' :: (value.toList ++ ';' :: rest)) := by
      simpa [fieldTail] using h
    have hsign : parser.lexer.Shows .assignmentOperator none "=".toList false _ :=
      (h'.skip (Or.inl rfl) (by rintro _ ⟨⟩; rfl)).shows (begins_equals _ _) rfl rfl
    obtain ⟨p₁, h₁, m₁, f₁⟩ := leadsTo_acceptText hsign
    have hname : p₁.lexer.Shows .identifierName none value.toList true (';' :: rest) :=
      (f₁.skip (Or.inl rfl) (hsteady.plain.isName.head_not_space _)).shows
        (begins_steadyName hsteady (.mark (by decide)) _) rfl
        (isUpdateSpelling_name hsteady.plain.isName)
    obtain ⟨p₂, h₂, m₂, f₂⟩ : LeadsTo (operandAt (goal arrowAhead (room + 1)) .propertyDefinition .value)
        p₁ (.identifier value) true (';' :: rest) :=
      leadsTo_nameOperand hname rfl (halts_semicolon rest) room (by rw [m₁.budget]; exact hb)
        (by rw [m₁.context, m₁.options]; exact hd)
    obtain ⟨p₃, h₃, m₃, f₃⟩ := leadsTo_accept (f₂.shows_mark .semicolon (by decide))
    have hat : isAt .openParen parser = .ok false parser := run_isAt_of_shows hsign .openParen
    refine ⟨p₃, ?_, (m₁.trans m₂).trans m₃, f₃⟩
    simp only [classMemberTail, run_bind, hat, Bool.false_eq_true, if_false, h₁, if_true, h₂, h₃,
      run_pure, Option.map_some]

/-- Behind a key that the start of a function follows, a field ends without a semicolon. -/
theorem leadsTo_fusedTail (sub : Goal → ParserM Node)
    (h : parser.lexer.Facing .default true (' ' :: (Scan.functionWord ++ '(' :: rest))) :
    LeadsTo (classMemberTail sub isStatic isAsync isGenerator kind key computed) parser
      (.propertyDefinition isStatic key computed none) true
      (' ' :: (Scan.functionWord ++ '(' :: rest)) := by
  have hface := h.skip (Or.inl rfl) (by rintro _ ⟨⟩; rfl)
  have hword : Begins .default true .functionKeyword none Scan.functionWord ('(' :: rest) :=
    begins_of_lookup rfl rfl rfl rfl
  have hshow := hface.shows hword rfl rfl
  have hat : isAt .openParen parser = .ok false parser := run_isAt_of_shows hshow .openParen
  have hno := run_acceptText_of_ne hshow .assignmentOperator "=" nofun
  have hend := run_accept_of_shows_ne hshow .semicolon nofun
  refine ⟨parser, ?_, .refl parser, h⟩
  simp only [classMemberTail, run_bind, hat, hno, Bool.false_eq_true, if_false, hend, run_pure]

end ParserM

/-- A member of a class: a method with nothing in it, or a field, perhaps with a name as its value. -/
inductive ClassMember where
  /-- A method. -/
  | method (isStatic : Bool) (method : EmptyMethod)
  /-- A field. -/
  | field (isStatic : Bool) (key : MemberKey) (value : Option String)

namespace ClassMember

/-- The node of a member. -/
def node : ClassMember → Node
  | method isStatic inner =>
    .methodDefinition isStatic inner.kind inner.key.node inner.key.isComputed
      (emptyFunction inner.isAsync inner.isGenerator)
  | field isStatic key value =>
    .propertyDefinition isStatic key.node key.isComputed (value.map .identifier)

/-- How a member is written. -/
def text : ClassMember → List Char
  | method isStatic inner =>
    memberText (flag isStatic .static ++ inner.modifiers) inner.key ++ emptyTail
  | field isStatic key value => memberText (flag isStatic .static) key ++ fieldTail value

/-- Keys are keys, and a value is a name that is read as such. -/
def WellFormed : ClassMember → Prop
  | method _ inner => inner.key.WellFormed
  | field _ key value => key.WellFormed ∧ IsSteadyClause value

/-- The member is a method whose first words are taken for the start of a function. -/
def IsFused : ClassMember → Prop
  | method _ inner => inner.IsFused
  | field .. => False

instance : (member : ClassMember) → Decidable member.IsFused
  | method _ inner => inferInstanceAs (Decidable inner.IsFused)
  | field .. => inferInstanceAs (Decidable False)

/-- What the text of a member is read as. A method whose first words are taken for the start of a
function comes apart, into a field called `async` and a method called `function`. -/
def readAs : ClassMember → List Node
  | method isStatic inner =>
    if inner.IsFused then
      [.propertyDefinition isStatic (.identifier "async") false none,
        .methodDefinition false .method (.identifier "function") false (emptyFunction false false)]
    else [.methodDefinition isStatic inner.kind inner.key.printed.node inner.key.isComputed
      (emptyFunction inner.isAsync inner.isGenerator)]
  | field isStatic key value =>
    [.propertyDefinition isStatic key.printed.node key.isComputed (value.map .identifier)]

theorem readAs_of_fused {isStatic : Bool} {inner : EmptyMethod} (h : inner.IsFused) :
    (method isStatic inner).readAs = [.propertyDefinition isStatic (.identifier "async") false none,
      .methodDefinition false .method (.identifier "function") false (emptyFunction false false)] :=
  if_pos h

theorem readAs_of_not_fused {isStatic : Bool} {inner : EmptyMethod} (h : ¬inner.IsFused) :
    (method isStatic inner).readAs = [.methodDefinition isStatic inner.kind inner.key.printed.node
      inner.key.isComputed (emptyFunction inner.isAsync inner.isGenerator)] :=
  if_neg h

end ClassMember

/-- Where a text stands before another, a member starts, and it is read as a member of a class up to the
other text. -/
structure ReadsMember (text rest : List Char) (node : Node) : Prop where
  starts : StartsMember (text ++ rest)
  reads : ∀ (room : Nat) (parser : Parser) (afterOperand : Bool),
    parser.lexer.Facing .default afterOperand (text ++ rest) → 0 < parser.budget →
    parser.context.length < parser.options.maxDepth →
    ∃ afterOperand', LeadsTo (classMember (goal arrowAhead (room + 1))) parser node afterOperand' rest

namespace ReadsMember

variable {rest : List Char}

theorem of_tail (isStatic : Bool) (method : EmptyMethod) {tail : List Char} {node : Node}
    (hl : InOrder method.key (tail ++ rest) (flag isStatic .static ++ method.modifiers))
    (hw : method.key.WellFormed) (hs : method.key.Stands (tail ++ rest))
    (ht : ∀ (room : Nat) (parser : Parser), parser.lexer.Facing .default true (tail ++ rest) →
      0 < parser.budget → parser.context.length < parser.options.maxDepth →
      ∃ afterOperand, LeadsTo (classMemberTail (goal arrowAhead (room + 1)) isStatic method.isAsync
        method.isGenerator method.kind method.key.printed.node method.key.isComputed) parser node
        afterOperand rest) :
    ReadsMember (memberText (flag isStatic .static ++ method.modifiers) method.key ++ tail) rest
      node := by
  constructor
  · rw [List.append_assoc]
    exact hl.startsMember hs
  · intro room parser afterOperand hf hb hd
    rw [List.append_assoc] at hf
    suffices hx : Leads (classMember (goal arrowAhead (room + 1))) parser node fun after =>
        ∃ afterOperand', after.lexer.Facing .default afterOperand' rest by
      obtain ⟨after, hx, hm, afterOperand', hf⟩ := hx
      exact ⟨afterOperand', after, hx, hm, hf⟩
    refine leads_classMember (hs.onMember hf) hl hw hs room hb hd fun between hm hbetween => ?_
    obtain ⟨afterOperand', after, hx, hm', hf'⟩ := ht room between hbetween
      (by rw [hm.budget]; exact hb) (by rw [hm.context, hm.options]; exact hd)
    exact ⟨after, hx, hm', afterOperand', hf'⟩

theorem method (isStatic : Bool) {method : EmptyMethod} (hw : method.key.WellFormed)
    (hf : ¬method.IsFused) (rest : List Char) :
    ReadsMember (memberText (flag isStatic .static ++ method.modifiers) method.key ++ emptyTail) rest
      (.methodDefinition isStatic method.kind method.key.printed.node method.key.isComputed
        (emptyFunction method.isAsync method.isGenerator)) := by
  have he : EndsKey (emptyTail ++ rest) := .params _
  exact of_tail isStatic method (EmptyMethod.inOrder_static hw he hf isStatic) hw (hw.stands he)
    fun room parser hface hb hd => ⟨false, leadsTo_methodTail _ hface hb hd⟩

theorem field (isStatic : Bool) {key : MemberKey} {value : Option String} (hw : key.WellFormed)
    (hv : IsSteadyClause value) (rest : List Char) :
    ReadsMember (memberText (flag isStatic .static) key ++ fieldTail value) rest
      (.propertyDefinition isStatic key.printed.node key.isComputed (value.map .identifier)) := by
  have he := endsKey_fieldTail value rest
  have hf : ¬(⟨false, false, .method, key⟩ : EmptyMethod).IsFused := fun h => Bool.false_ne_true h.1
  have h := of_tail isStatic ⟨false, false, .method, key⟩
    (EmptyMethod.inOrder_static hw he hf isStatic) hw (hw.stands he)
    fun room parser hface hb hd => ⟨false, leadsTo_fieldTail hv hface room hb hd⟩
  rwa [show (⟨false, false, .method, key⟩ : EmptyMethod).modifiers = [] from rfl, List.append_nil] at h

theorem async (isStatic : Bool) (rest : List Char) :
    ReadsMember (memberText (flag isStatic .static) (.named "async"))
      (' ' :: (Scan.functionWord ++ '(' :: rest))
      (.propertyDefinition isStatic (.identifier "async") false none) := by
  have hw : (MemberKey.named "async").WellFormed := by
    change IsName "async".toList
    decide
  have hs := MemberKey.stands_async rest
  have hl : InOrder (.named "async") ([] ++ ' ' :: (Scan.functionWord ++ '(' :: rest))
      (flag isStatic .static ++ (⟨false, false, .method, .named "async"⟩ : EmptyMethod).modifiers) :=
    InOrder.nil.flag fun _ => ⟨by rintro _ ⟨⟩; decide, List.cons_ne_nil _ _, nofun⟩
  have h := of_tail isStatic ⟨false, false, .method, .named "async"⟩ hl hw hs
    fun room parser hface _ _ => ⟨true, leadsTo_fusedTail _ hface⟩
  rwa [show (⟨false, false, .method, .named "async"⟩ : EmptyMethod).modifiers = [] from rfl,
    List.append_nil, List.append_nil] at h

end ReadsMember

theorem Lexer.Facing.blank {lexer : Lexer} {afterOperand : Bool} {gap text : List Char}
    (h : lexer.Facing .default afterOperand (gap ++ text)) (hg : ∀ c ∈ gap, isSpace c = true) :
    lexer.Facing .default afterOperand text :=
  h.pass fun c hc => by simp [LexerMode.skips, LexerMode.default, hg c hc]

/-- Where a member starts, the token that has been gone on to ends no list and is no spread. -/
theorem StartsMember.exists_word {text : List Char} (h : StartsMember text) {lexer : Lexer}
    {afterOperand : Bool} (hf : lexer.Facing .default afterOperand text) :
    ∃ word, lexer.current = some word ∧ word.kind.startsMember = true ∧ word.kind ≠ .ellipsis := by
  obtain ⟨rule, lexeme, hr, ht, hk⟩ := h afterOperand
  have hne : text ≠ [] := by
    rintro rfl
    have hnone : Rule.first? .default afterOperand [] = none := by cases afterOperand <;> rfl
    rw [hnone] at hr
    cases hr
  obtain ⟨earlier, newline, -, rfl⟩ := hf.emits hne hr ht
  exact ⟨_, rfl, hk⟩

/-- The text of the members of a class, each on a new line. -/
def membersText (level : Nat) (members : List ClassMember) : List Char :=
  members.flatMap fun member => marginText level ++ member.text

theorem membersText_cons (level : Nat) (member : ClassMember) (members : List ClassMember) :
    membersText level (member :: members) =
      marginText level ++ (member.text ++ membersText level members) := by
  simp [membersText]

namespace ParserM

variable {parser : Parser} {afterOperand : Bool} {rest : List Char}

/-- A member is read in one round, with the others still to come. -/
theorem run_classMembers_of_member {text : List Char} {node : Node} (h : ReadsMember text rest node)
    (hf : parser.lexer.Facing .default afterOperand (text ++ rest)) (room rounds : Nat)
    (hb : 0 < parser.budget) (hd : parser.context.length + 1 < parser.options.maxDepth) :
    ∃ between afterOperand', classMembers (goal arrowAhead (room + 1)) (rounds + 1) parser =
        (classMembers (goal arrowAhead (room + 1)) rounds >>= fun others => pure (node :: others))
          between ∧
      parser.Moved between ∧ between.lexer.Facing .default afterOperand' rest := by
  obtain ⟨word, hw, hk, -⟩ := h.starts.exists_word hf
  have hne (kind : TokenKind) (hn : kind.startsMember = false) : word.kind ≠ kind := by
    rintro rfl
    rw [hk] at hn
    cases hn
  have hclose := run_isAt_of_ne hw (hne .closeBrace rfl)
  have hsemicolon : accept .semicolon parser = .ok false parser := by
    simp only [accept, run_bind, run_isAt_of_ne hw (hne .semicolon rfl), Bool.false_eq_true,
      if_false, run_pure]
  obtain ⟨afterOperand', hx⟩ := h.reads room
    { parser with context := .filling .classBody .body :: parser.context } afterOperand hf hb hd
  obtain ⟨between, hx, hm, hface⟩ := hx.within (fun _ _ hf => hf) (by omega)
  refine ⟨between, afterOperand', ?_, hm, hface⟩
  simp only [classMembers, run_bind, hclose, hsemicolon, Bool.false_eq_true, if_false, hx]

/-- The text of a member is read in as many rounds as there are nodes in it. -/
theorem run_classMembers_of_text {member : ClassMember} (hw : member.WellFormed)
    (hf : parser.lexer.Facing .default afterOperand (member.text ++ rest)) (room rounds : Nat)
    (hb : 0 < parser.budget) (hd : parser.context.length + 1 < parser.options.maxDepth) :
    ∃ between afterOperand',
      classMembers (goal arrowAhead (room + 1)) (rounds + member.readAs.length) parser =
        (classMembers (goal arrowAhead (room + 1)) rounds >>= fun others => pure (member.readAs ++ others))
          between ∧
      parser.Moved between ∧ between.lexer.Facing .default afterOperand' rest := by
  cases member with
  | field isStatic key value =>
    exact run_classMembers_of_member (.field isStatic hw.1 hw.2 rest) hf room rounds hb hd
  | method isStatic method =>
    by_cases hfused : method.IsFused
    · -- first the field that `async` is taken for, and then the method behind it
      rw [ClassMember.readAs_of_fused hfused]
      obtain ⟨isAsync, isGenerator, kind, key⟩ := method
      obtain ⟨rfl, rfl, rfl, rfl⟩ : isAsync = true ∧ isGenerator = false ∧ kind = .method ∧
        key = .named "function" := hfused
      have htext : ClassMember.text (.method isStatic ⟨true, false, .method, .named "function"⟩) ++ rest =
          memberText (flag isStatic .static) (.named "async") ++
            ' ' :: (Scan.functionWord ++ '(' :: ([')', ' ', '\x7b', '\x7d'] ++ rest)) := by
        cases isStatic <;> rfl
      rw [htext] at hf
      obtain ⟨p₁, _, h₁, m₁, f₁⟩ :=
        run_classMembers_of_member (.async isStatic _) hf room (rounds + 1) hb hd
      have hname : (⟨false, false, .method, .named "function"⟩ : EmptyMethod).key.WellFormed := hw
      obtain ⟨p₂, afterOperand', h₂, m₂, f₂⟩ := run_classMembers_of_member
        (.method false hname (by decide) rest) (f₁.skip (Or.inl rfl) (by rintro _ ⟨⟩; rfl)) room rounds
        (by rw [m₁.budget]; exact hb) (by rw [m₁.context, m₁.options]; exact hd)
      refine ⟨p₂, afterOperand', ?_, m₁.trans m₂, f₂⟩
      rw [List.length_cons, List.length_singleton, ← Nat.add_assoc, h₁, run_bind, h₂, run_bind, run_bind]
      cases classMembers (goal arrowAhead (room + 1)) rounds p₂ <;> rfl
    · rw [ClassMember.readAs_of_not_fused hfused]
      exact run_classMembers_of_member (.method isStatic hw hfused rest) hf room rounds hb hd

/-- The members of a class up to its closing brace, by induction on the list. -/
theorem leadsTo_classMembers {level : Nat} {members : List ClassMember} {gap : List Char}
    (hw : ∀ member ∈ members, member.WellFormed) (hg : ∀ c ∈ gap, isSpace c = true)
    (h : parser.lexer.Facing .default afterOperand
      (membersText level members ++ (gap ++ '\x7d' :: rest))) {rounds : Nat}
    (hr : (members.flatMap ClassMember.readAs).length < rounds) (room : Nat) (hb : 0 < parser.budget)
    (hd : parser.context.length + 1 < parser.options.maxDepth) :
    ∃ afterOperand', LeadsTo (classMembers (goal arrowAhead (room + 1)) rounds) parser
      (members.flatMap ClassMember.readAs) afterOperand' ('\x7d' :: rest) := by
  induction members generalizing parser afterOperand rounds with
  | nil =>
    obtain ⟨rounds, rfl⟩ := Nat.exists_eq_succ_of_ne_zero (Nat.ne_zero_of_lt hr)
    have h' : parser.lexer.Facing .default afterOperand (gap ++ '\x7d' :: rest) := h
    have hf := h'.blank hg
    have hs := hf.shows_brace .closeBrace (by decide)
    refine ⟨afterOperand, parser, ?_, .refl parser, hf⟩
    simp only [classMembers, run_bind, run_isAt_of_shows hs, beq_self_eq_true, if_true, run_pure,
      List.flatMap_nil]
  | cons member members ih =>
    rw [membersText_cons, List.append_assoc, List.append_assoc] at h
    rw [List.flatMap_cons, List.length_append] at hr
    obtain ⟨rounds, rfl⟩ : ∃ others, rounds = others + member.readAs.length :=
      ⟨rounds - member.readAs.length, by omega⟩
    obtain ⟨p₁, _, h₁, m₁, f₁⟩ := run_classMembers_of_text (hw member List.mem_cons_self)
      (h.blank isSpace_of_mem_marginText) room rounds hb hd
    have hlt : (members.flatMap ClassMember.readAs).length < rounds := by omega
    obtain ⟨afterOperand', p₂, h₂, m₂, f₂⟩ := ih
      (fun other hm => hw other (List.mem_cons_of_mem member hm)) f₁ hlt (by rw [m₁.budget]; exact hb)
      (by rw [m₁.context, m₁.options]; exact hd)
    refine ⟨afterOperand', p₂, ?_, m₁.trans m₂, f₂⟩
    rw [h₁, run_bind, h₂]
    rfl

end ParserM

/-- What stands between the braces of a class. -/
def classBody (level : Nat) (members : List ClassMember) : List Char :=
  if members.isEmpty then [] else membersText (level + 1) members ++ marginText level

/-- How a class is written. -/
def classText (level : Nat) (name : Option String) (members : List ClassMember) : List Char :=
  "class".toList ++ (clauseText name ++ ' ' :: '\x7b' :: (classBody level members ++ ['\x7d']))

namespace ParserM

variable {parser : Parser} {afterOperand : Bool} {rest : List Char}

theorem begins_class (afterOperand : Bool) (rest : List Char) :
    Begins .default afterOperand .classKeyword none "class".toList (' ' :: rest) := by
  cases afterOperand
  all_goals exact begins_of_lookup rfl rfl rfl rfl

/-- The name of a class, up to its body. -/
theorem leadsTo_className {name : Option String} (hn : IsSteadyClause name)
    (h : parser.lexer.Facing .default afterOperand (clauseText name ++ ' ' :: '\x7b' :: rest)) :
    ∃ afterOperand', LeadsTo className parser (name.map .identifier) afterOperand'
      ('\x7b' :: rest) := by
  cases name with
  | none =>
    have hf : parser.lexer.Facing .default afterOperand ('\x7b' :: rest) :=
      Lexer.Facing.skip h (Or.inl rfl) (by rintro _ ⟨⟩; rfl)
    have hat : isAt .identifierName parser = .ok false parser :=
      run_isAt_of_shows (hf.shows_brace .openBrace (by decide)) .identifierName
    refine ⟨afterOperand, parser, ?_, .refl parser, hf⟩
    simp only [className, run_bind, hat, Bool.false_eq_true, if_false, run_pure, Option.map_none]
  | some name =>
    have hsteady := hn name rfl
    have hf : parser.lexer.Facing .default afterOperand (name.toList ++ ' ' :: '\x7b' :: rest) :=
      Lexer.Facing.skip h (Or.inl rfl) (hsteady.plain.isName.head_not_space _)
    have hs : parser.lexer.Shows .identifierName none name.toList true (' ' :: '\x7b' :: rest) :=
      hf.shows (begins_steadyName_of_head hsteady rfl rfl (by decide) (by decide) _) rfl
        (isUpdateSpelling_name hsteady.plain.isName)
    obtain ⟨word, hw, -, hv, -⟩ := hs.token
    obtain ⟨p₁, h₁, m₁, f₁⟩ := leadsTo_nextToken hs
    have hat : isAt .identifierName parser = .ok true parser := run_isAt_of_shows hs .identifierName
    refine ⟨true, p₁, ?_, m₁, f₁.skip (Or.inl rfl) (by rintro _ ⟨⟩; rfl)⟩
    simp only [className, identifier, run_bind, hat, if_true, run_token hw, h₁, run_pure, hv,
      String.ofList_toList, Option.map_some]

/-- A class is read from its text, member by member. -/
theorem leadsTo_classDefinition {level : Nat} {name : Option String} {members : List ClassMember}
    (hn : IsSteadyClause name) (hw : ∀ member ∈ members, member.WellFormed)
    (h : parser.lexer.Facing .default afterOperand (classText level name members ++ rest))
    (hr : (members.flatMap ClassMember.readAs).length < parser.budget) (room : Nat)
    (hd : parser.context.length + 1 < parser.options.maxDepth) :
    (∃ word, parser.lexer.current = some word ∧ word.kind = .classKeyword) ∧
      LeadsTo (classDefinition (goal arrowAhead (room + 1))) parser (.classDeclaration (name.map .identifier)
        none (.classBody (members.flatMap ClassMember.readAs))) false rest := by
  obtain ⟨text, htext⟩ : ∃ text, clauseText name ++ ' ' :: '\x7b' :: (classBody level members ++
      '\x7d' :: rest) = ' ' :: text := by
    cases name with
    | none => exact ⟨_, rfl⟩
    | some name => exact ⟨_, rfl⟩
  have h' : parser.lexer.Facing .default afterOperand ("class".toList ++ (clauseText name ++
      ' ' :: '\x7b' :: (classBody level members ++ '\x7d' :: rest))) := by
    unfold classText at h
    simpa using h
  have hs : parser.lexer.Shows .classKeyword none "class".toList false (clauseText name ++
      ' ' :: '\x7b' :: (classBody level members ++ '\x7d' :: rest)) := by
    rw [htext] at h' ⊢
    exact h'.shows (begins_class afterOperand text) rfl rfl
  obtain ⟨word, hc, hk, -⟩ := hs.token
  refine ⟨⟨word, hc, hk⟩, ?_⟩
  obtain ⟨p₁, h₁, m₁, f₁⟩ := leadsTo_nextToken hs
  obtain ⟨_, p₂, h₂, m₂, f₂⟩ := leadsTo_className hn f₁
  have m₁₂ := m₁.trans m₂
  have hopen := f₂.shows_brace .openBrace (by decide)
  have hno := run_accept_of_shows_ne hopen .extendsKeyword nofun
  obtain ⟨p₃, h₃, m₃, f₃⟩ := leadsTo_require hopen
  have m₁₃ := m₁₂.trans m₃
  obtain ⟨_, p₄, h₄, m₄, f₄⟩ : ∃ afterOperand', LeadsTo
      (classMembers (goal arrowAhead (room + 1)) p₃.budget) p₃ (members.flatMap ClassMember.readAs)
      afterOperand' ('\x7d' :: rest) := by
    have hrounds : (members.flatMap ClassMember.readAs).length < p₃.budget := by
      rw [m₁₃.budget]
      exact hr
    have hbody : ∃ gap, (∀ c ∈ gap, isSpace c = true) ∧
        classBody level members ++ '\x7d' :: rest =
          membersText (level + 1) members ++ (gap ++ '\x7d' :: rest) := by
      cases members with
      | nil => exact ⟨[], nofun, rfl⟩
      | cons member members =>
        exact ⟨marginText level, isSpace_of_mem_marginText, by simp [classBody]⟩
    obtain ⟨gap, hg, hbody⟩ := hbody
    rw [hbody] at f₃
    exact leadsTo_classMembers hw hg f₃ hrounds room (Nat.zero_lt_of_lt hrounds)
      (by rw [m₁₃.context, m₁₃.options]; exact hd)
  obtain ⟨p₅, h₅, m₅, f₅⟩ := leadsTo_require (f₄.shows_brace .closeBrace (by decide))
  refine ⟨p₅, ?_, (m₁₃.trans m₄).trans m₅, f₅⟩
  simp only [classDefinition, run_bind, h₁, h₂, hno, Bool.false_eq_true, if_false, run_pure, h₃,
    run_budget, h₄, h₅]

end ParserM

end ScriptTree
