import ScriptTree.Proofs.ClassReading
import ScriptTree.Proofs.WholeText

/-!
Objects of methods with nothing in them, as they are read, and the statement that assigns one to a
name. A method whose first words are taken for the start of a function makes the text no program.
-/

namespace ScriptTree

open ParserM

/-- What a method is as a member of an object. -/
def MethodKind.asProperty : MethodKind → PropertyKind := choose .plain .getter .setter

/-- The key in a new spelling stands in brackets where it did before. -/
theorem MemberKey.isComputed_printed (key : MemberKey) : key.printed.isComputed = key.isComputed := by
  cases key <;> rfl

namespace EmptyMethod

/-- A method as a member of an object. -/
def property (inner : EmptyMethod) : Node :=
  .property inner.key.node (emptyFunction inner.isAsync inner.isGenerator) inner.kind.asProperty
    inner.key.isComputed false (inner.kind.asProperty == .plain)

/-- The method with its key as it is written. -/
def printed (inner : EmptyMethod) : EmptyMethod := { inner with key := inner.key.printed }

/-- The field that the first word of a fused method is taken for. -/
def fusedField : EmptyMethod := ⟨false, false, .method, .named "async"⟩

theorem fusedField_wellFormed : fusedField.key.WellFormed := by
  change IsName "async".toList
  decide

theorem text_of_fused {inner : EmptyMethod} (hf : inner.IsFused) (rest : List Char) :
    inner.text ++ rest = memberText fusedField.modifiers fusedField.key ++
      ' ' :: (Scan.functionWord ++ '(' :: ([')', ' ', '\x7b', '\x7d'] ++ rest)) := by
  obtain ⟨isAsync, isGenerator, kind, key⟩ := inner
  obtain ⟨rfl, rfl, rfl, rfl⟩ : isAsync = true ∧ isGenerator = false ∧ kind = .method ∧
    key = .named "function" := hf
  rfl

theorem startsMember {inner : EmptyMethod} (hw : inner.key.WellFormed) (rest : List Char) :
    StartsMember (inner.text ++ rest) := by
  by_cases hf : inner.IsFused
  · rw [text_of_fused hf]
    exact InOrder.nil.startsMember (MemberKey.stands_async _)
  · have he : EndsKey (emptyTail ++ rest) := .params _
    rw [EmptyMethod.text, List.append_assoc]
    exact (inOrder hw he hf).startsMember (hw.stands he)

end EmptyMethod

namespace ParserM

variable {α β : Type} {parser : Parser} {afterOperand : Bool} {rest : List Char}

section Fails

/-- A step that comes to no result. -/
def Fails (m : ParserM α) (parser : Parser) : Prop := ∃ failure after, m parser = .error failure after

theorem Fails.of_eq {m m' : ParserM α} (h : Fails m' parser) (he : m parser = m' parser) :
    Fails m parser := by
  rwa [Fails, he]

theorem Fails.bind {m : ParserM α} (h : Fails m parser) (f : α → ParserM β) :
    Fails (m >>= f) parser := by
  obtain ⟨failure, after, hm⟩ := h
  exact ⟨failure, after, by rw [run_bind, hm]⟩

theorem Fails.within {m : ParserM α} {frame : Frame}
    (h : Fails m { parser with context := frame :: parser.context }) :
    Fails (within frame m) parser := by
  by_cases hd : parser.options.maxDepth ≤ parser.context.length
  · exact ⟨_, _, run_within_full hd⟩
  · obtain ⟨failure, after, hm⟩ := h
    exact ⟨failure, { after with context := after.context.tail }, by
      rw [run_within (Nat.not_le.mp hd), hm]⟩

theorem fails_require {word : Token} {kind : TokenKind} (hw : parser.lexer.current = some word)
    (hk : word.kind ≠ kind) : Fails (require kind) parser := by
  have he : require kind parser = reject (fun parser => parser.wanting kind.wanted) parser := by
    simp only [require, run_bind, run_isAt_of_ne hw hk, Bool.false_eq_true, if_false]
  exact Fails.of_eq ⟨_, _, run_reject _ _⟩ he

end Fails

section Members

/-- What follows the key of a member of an object. -/
def propertyTail (sub : Goal → ParserM Node) (owner : NodeKind) (isAsync isGenerator : Bool)
    (kind : PropertyKind) (key : Node) (computed : Bool) : ParserM Node := do
  if ← isAt .openParen then
    let value ← functionRest sub .expression isAsync isGenerator none
    pure (.property key value kind computed false (kind == .plain))
  else if ← accept .colon then
    let value ← operandAt sub owner .value
    pure (.property key value kind computed false false)
  else if key.isIdentifier && !computed then
    let value ← shorthandValue sub key
    pure (.property key value kind computed true false)
  else reject fun parser => parser.wanting ":"

variable {owner : NodeKind} {inner : EmptyMethod}

/-- Behind the modifiers and the key of a member of an object, the rest of it is still to come. -/
theorem exists_propertyTail (h : parser.lexer.Facing .default afterOperand
      (memberText inner.modifiers inner.key ++ rest))
    (hl : InOrder inner.key rest inner.modifiers) (hw : inner.key.WellFormed)
    (hs : inner.key.Stands rest) (room : Nat) (hb : 0 < parser.budget)
    (hd : parser.context.length < parser.options.maxDepth) :
    ∃ between, parser.Moved between ∧ between.lexer.Facing .default true rest ∧
      objectMember (goal arrowAhead (room + 1)) owner parser =
        propertyTail (goal arrowAhead (room + 1)) owner inner.isAsync inner.isGenerator
          inner.kind.asProperty inner.key.printed.node inner.key.isComputed between := by
  obtain ⟨word, hc, -, hk⟩ := (hl.startsMember hs).exists_word h
  have hspread := run_isAt_of_ne hc hk
  obtain ⟨p₁, h₁, m₁, o₁⟩ : Leads acceptAsync parser inner.isAsync _ :=
    leads_flag _ .async _ (hs.onMember h) hl (EmptyMethod.head?_generator _ _) hw hs
  obtain ⟨p₂, h₂, m₂, o₂⟩ : Leads (acceptText .operator "*") p₁ inner.isGenerator _ :=
    leads_flag _ .generator _ o₁ hl.of_flag (EmptyMethod.head?_accessorModifiers _) hw hs
  obtain ⟨p₃, h₃, m₃, o₃⟩ : Leads propertyKind p₂ inner.kind.asProperty _ :=
    leads_accessor _ _ _ o₂ hl.of_flag.of_flag hw hs
  have m₁₃ := (m₁.trans m₂).trans m₃
  obtain ⟨p₄, h₄, m₄, f₄⟩ := leadsTo_memberKey o₃ hw owner room (by rw [m₁₃.budget]; exact hb)
    (by rw [m₁₃.context, m₁₃.options]; exact hd)
  refine ⟨p₄, m₁₃.trans m₄, f₄, ?_⟩
  simp only [objectMember, property, run_bind, hspread, Bool.false_eq_true, if_false, h₁, h₂, h₃, h₄,
    propertyTail]

/-- The modifiers and the key of a member of an object. -/
theorem leads_objectMember {node : Node} {holds : Parser → Prop}
    (h : parser.lexer.Facing .default afterOperand (memberText inner.modifiers inner.key ++ rest))
    (hl : InOrder inner.key rest inner.modifiers) (hw : inner.key.WellFormed)
    (hs : inner.key.Stands rest) (room : Nat) (hb : 0 < parser.budget)
    (hd : parser.context.length < parser.options.maxDepth)
    (ht : ∀ between, parser.Moved between → between.lexer.Facing .default true rest →
      Leads (propertyTail (goal arrowAhead (room + 1)) owner inner.isAsync inner.isGenerator
        inner.kind.asProperty inner.key.printed.node inner.key.isComputed) between node holds) :
    Leads (objectMember (goal arrowAhead (room + 1)) owner) parser node holds := by
  obtain ⟨p₁, m₁, f₁, h₁⟩ := exists_propertyTail h hl hw hs room hb hd
  obtain ⟨p₂, h₂, m₂, hh⟩ := ht p₁ m₁ f₁
  exact ⟨p₂, h₁.trans h₂, m₁.trans m₂, hh⟩

/-- A method of an object is read from its text. -/
theorem leadsTo_objectMember (hw : inner.key.WellFormed) (hf : ¬inner.IsFused)
    (h : parser.lexer.Facing .default afterOperand (inner.text ++ rest)) (room : Nat)
    (hb : 0 < parser.budget) (hd : parser.context.length < parser.options.maxDepth) :
    LeadsTo (objectMember (goal arrowAhead (room + 1)) owner) parser inner.printed.property false
      rest := by
  have he : EndsKey (emptyTail ++ rest) := .params _
  rw [EmptyMethod.text, List.append_assoc] at h
  refine leads_objectMember h (EmptyMethod.inOrder hw he hf) hw (hw.stands he) room hb hd
    fun p₁ m₁ f₁ => ?_
  have hopen := Lexer.Facing.shows_mark .openParen f₁ (by decide)
  obtain ⟨p₂, h₂, m₂, f₂⟩ := leadsTo_emptyTail (goal arrowAhead (room + 1)) inner.isAsync
    inner.isGenerator f₁ (by rw [m₁.budget]; exact hb) (by rw [m₁.context, m₁.options]; exact hd)
  have hproperty : inner.printed.property = .property inner.key.printed.node
      (emptyFunction inner.isAsync inner.isGenerator) inner.kind.asProperty inner.key.isComputed false
      (inner.kind.asProperty == .plain) := by
    rw [← inner.key.isComputed_printed]
    rfl
  refine ⟨p₂, ?_, m₂, f₂⟩
  simp only [propertyTail, run_bind, run_isAt_of_shows hopen, beq_self_eq_true, if_true, h₂, run_pure,
    hproperty]

/-- Where a method is fused, `async` is read as a member in short form, up to what is taken for the
start of a function. -/
theorem leads_fusedMember (hf : inner.IsFused)
    (h : parser.lexer.Facing .default afterOperand (inner.text ++ rest)) (room : Nat)
    (hb : 0 < parser.budget) (hd : parser.context.length < parser.options.maxDepth) :
    Leads (objectMember (goal arrowAhead (room + 1)) owner) parser
      (.property (.identifier "async") (.identifier "async") .plain false true false)
      fun after => ∃ word, after.lexer.current = some word ∧ word.kind = .functionKeyword := by
  rw [EmptyMethod.text_of_fused hf] at h
  refine leads_objectMember h .nil EmptyMethod.fusedField_wellFormed (MemberKey.stands_async _) room hb
    hd fun p₁ m₁ f₁ => ?_
  have hword : Begins .default true .functionKeyword none Scan.functionWord
      ('(' :: ([')', ' ', '\x7b', '\x7d'] ++ rest)) :=
    begins_of_lookup rfl rfl rfl rfl
  have hshow := (f₁.skip (Or.inl rfl) (by rintro _ ⟨⟩; rfl)).shows hword rfl rfl
  have hopen : isAt .openParen p₁ = .ok false p₁ := run_isAt_of_shows hshow .openParen
  have hcolon := run_accept_of_shows_ne hshow .colon nofun
  have hsign := run_acceptText_of_ne hshow .assignmentOperator "=" nofun
  obtain ⟨word, hc, hk, -⟩ := hshow.token
  have hnode : EmptyMethod.fusedField.key.printed.node = .identifier "async" := rfl
  have hshort : ((Node.identifier "async").isIdentifier && !EmptyMethod.fusedField.key.isComputed) =
      true := rfl
  refine ⟨p₁, ?_, .refl p₁, word, hc, hk⟩
  simp only [propertyTail, shorthandValue, run_bind, hopen, hcolon, hsign, hnode, hshort,
    Bool.false_eq_true, if_true, if_false, run_pure]
  rfl

end Members

end ParserM

/-- How an object of methods is written. -/
def objectText (methods : List EmptyMethod) : List Char :=
  if methods.isEmpty then ['\x7b', '\x7d']
  else '\x7b' :: ' ' :: (", ".toList.intercalate (methods.map EmptyMethod.text) ++ [' ', '\x7d'])

namespace ParserM

variable {parser : Parser} {afterOperand : Bool} {rest : List Char} {methods : List EmptyMethod}

theorem run_isAt_of_startsMember {text : List Char} {kind : TokenKind} (h : StartsMember text)
    (hf : parser.lexer.Facing .default afterOperand text) (hk : kind.startsMember = false) :
    isAt kind parser = .ok false parser := by
  obtain ⟨word, hw, hs, -⟩ := h.exists_word hf
  refine run_isAt_of_ne hw ?_
  rintro rfl
  rw [hs] at hk
  cases hk

theorem leadsTo_property {owner : NodeKind} {inner : EmptyMethod} (hw : inner.key.WellFormed)
    (hf : ¬inner.IsFused) (h : parser.lexer.Facing .default afterOperand (inner.text ++ rest))
    (room : Nat) (hb : 0 < parser.budget)
    (hd : parser.context.length + 1 < parser.options.maxDepth) :
    LeadsTo (within (.filling owner .properties) (objectMember (goal arrowAhead (room + 1)) owner))
      parser inner.printed.property false rest := by
  let inside : Parser := { parser with context := .filling owner .properties :: parser.context }
  have h' : inside.lexer.Facing .default afterOperand (inner.text ++ rest) := h
  exact Leads.within (leadsTo_objectMember hw hf h' room hb hd) (fun _ _ hf => hf) (by omega)

/-- An object of methods, none of them fused, is read from its text. -/
theorem leadsTo_object (hw : ∀ inner ∈ methods, inner.key.WellFormed)
    (hf : ∀ inner ∈ methods, ¬inner.IsFused)
    (h : parser.lexer.Facing .default afterOperand (objectText methods ++ rest)) (room : Nat)
    (hp : parser.context.expectsPattern = false) (hr : methods.length < parser.budget)
    (hd : parser.context.length + 1 < parser.options.maxDepth) :
    LeadsTo (object (goal arrowAhead (room + 1))) parser
      (.object .expression (methods.map fun inner => inner.printed.property)) false rest := by
  have hb := Nat.zero_lt_of_lt hr
  obtain ⟨behind, hopen, hlist⟩ : ∃ behind, parser.lexer.Shows .openBrace none ['\x7b'] false behind ∧
      ∀ between : Parser, parser.Moved between → between.lexer.Facing .default false behind →
        ∃ afterOperand', LeadsTo (commaList .closeBrace (within (.filling .objectExpression .properties)
          (objectMember (goal arrowAhead (room + 1)) .objectExpression)) between.budget) between
          (methods.map fun inner => inner.printed.property) afterOperand' ('\x7d' :: rest) := by
    cases methods with
    | nil =>
      refine ⟨'\x7d' :: rest, Lexer.Facing.shows_brace .openBrace h (by decide), fun between m f => ?_⟩
      exact ⟨false, between, run_commaList_nil (f.shows_brace .closeBrace (by decide))
        (by rw [m.budget]; exact hb), .refl between, f⟩
    | cons first others =>
      have h' : parser.lexer.Facing .default afterOperand ('\x7b' :: ([' '] ++
          (", ".toList.intercalate ((first :: others).map EmptyMethod.text) ++ ' ' :: '\x7d' :: rest))) := by
        simpa [objectText] using h
      refine ⟨_, h'.shows_brace .openBrace (by decide), fun between m f => ?_⟩
      refine leadsTo_items (List.cons_ne_nil first others) (fun inner hm p _ behind m' _ fp => ?_)
        (f.pass (LexerMode.skips_space rfl)) (by rw [m.budget]; exact hr.le)
      have m₂ := m.trans m'
      refine ⟨run_isAt_of_startsMember (EmptyMethod.startsMember (hw inner hm) behind) fp rfl, false, ?_⟩
      exact leadsTo_property (hw inner hm) (hf inner hm) fp room (by rw [m₂.budget]; exact hb)
        (by rw [m₂.context, m₂.options]; exact hd)
  obtain ⟨p₁, h₁, m₁, f₁⟩ := leadsTo_nextToken hopen
  obtain ⟨_, p₂, h₂, m₂, f₂⟩ := hlist p₁ m₁ f₁
  obtain ⟨p₃, h₃, m₃, f₃⟩ := leadsTo_require (f₂.shows_brace .closeBrace (by decide))
  refine ⟨p₃, ?_, (m₁.trans m₂).trans m₃, f₃⟩
  simp only [object, objectKind, closedList, run_bind, run_get, hp, Bool.false_eq_true, if_false, h₁,
    run_budget, h₂, h₃, run_pure]

/-- Methods up to one that is fused, of which the word `async` is read. -/
theorem leads_fusedMembers {earlier : List EmptyMethod} {fused : EmptyMethod} {rounds : Nat}
    (hw : ∀ inner ∈ earlier, inner.key.WellFormed) (hf : ∀ inner ∈ earlier, ¬inner.IsFused)
    (hfused : fused.IsFused)
    (h : parser.lexer.Facing .default afterOperand
      ((earlier.flatMap fun inner => inner.text ++ ", ".toList) ++ (fused.text ++ rest))) (room : Nat)
    (hr : earlier.length < rounds) (hb : 0 < parser.budget)
    (hd : parser.context.length + 1 < parser.options.maxDepth) :
    Leads (commaList .closeBrace (within (.filling .objectExpression .properties)
        (objectMember (goal arrowAhead (room + 1)) .objectExpression)) rounds) parser
      ((earlier.map fun inner => inner.printed.property) ++
        [.property (.identifier "async") (.identifier "async") .plain false true false])
      fun after => ∃ word, after.lexer.current = some word ∧ word.kind = .functionKeyword := by
  refine leads_items (fun inner hm p _ rest m f => ?_) (fun p _ m f => ?_) h hr
  · refine ⟨run_isAt_of_startsMember (EmptyMethod.startsMember (hw inner hm) _) f rfl, false, ?_⟩
    exact leadsTo_property (hw inner hm) (hf inner hm) f room (by rw [m.budget]; exact hb)
      (by rw [m.context, m.options]; exact hd)
  · have hkey : fused.key.WellFormed := by
      rw [show fused.key = .named "function" from hfused.2.2.2]
      change IsName "function".toList
      decide
    refine ⟨run_isAt_of_startsMember (EmptyMethod.startsMember hkey _) f rfl, ?_⟩
    refine Leads.within ?_ (fun _ _ hf => hf) (by rw [m.context, m.options]; omega)
    let inside : Parser := { p with context := .filling .objectExpression .properties :: p.context }
    have f' : inside.lexer.Facing .default _ (fused.text ++ rest) := f
    obtain ⟨after, hx, hm, word, hc, hk⟩ := leads_fusedMember hfused f' room
      (by change 0 < p.budget; rw [m.budget]; exact hb)
      (by change p.context.length + 1 < p.options.maxDepth; rw [m.context, m.options]; exact hd)
    refine ⟨after, hx, hm, ⟨word, hc, hk⟩, fun found hfound => ?_⟩
    rw [hc] at hfound
    cases hfound
    rw [hk]
    nofun

/-- An object with a fused method is not read: its list of members ends behind `async`, and there is no
brace. -/
theorem fails_object (hw : ∀ inner ∈ methods, inner.key.WellFormed)
    (hf : ∃ inner ∈ methods, inner.IsFused)
    (h : parser.lexer.Facing .default afterOperand (objectText methods ++ rest)) (room : Nat)
    (hp : parser.context.expectsPattern = false) (hr : methods.length < parser.budget)
    (hd : parser.context.length + 1 < parser.options.maxDepth) :
    Fails (object (goal arrowAhead (room + 1))) parser := by
  -- the first of the fused methods is as far as the list is read
  obtain ⟨fused, hfind⟩ := Option.isSome_iff_exists.mp
    (show (methods.find? fun inner => decide inner.IsFused).isSome by simpa using hf)
  obtain ⟨hfused, earlier, later, rfl, hearlier⟩ := List.find?_eq_some_iff_append.mp hfind
  obtain ⟨behind, hbehind⟩ : ∃ behind, ", ".toList.intercalate
      ((fused :: later).map EmptyMethod.text) ++ ' ' :: '\x7d' :: rest = fused.text ++ behind := by
    cases later with
    | nil => exact ⟨' ' :: '\x7d' :: rest, by simp⟩
    | cons next later =>
      exact ⟨", ".toList ++ (", ".toList.intercalate ((next :: later).map EmptyMethod.text) ++
        ' ' :: '\x7d' :: rest), by simp⟩
  have h' : parser.lexer.Facing .default afterOperand ('\x7b' :: ([' '] ++
      ((earlier.flatMap fun inner => inner.text ++ ", ".toList) ++ (fused.text ++ behind)))) := by
    rw [← hbehind, ← List.append_assoc (earlier.flatMap _),
      ← intercalate_append _ _ (List.cons_ne_nil fused later)]
    simpa [objectText] using h
  obtain ⟨p₁, h₁, m₁, f₁⟩ := leadsTo_nextToken (h'.shows_brace .openBrace (by decide))
  have hrounds : earlier.length < p₁.budget := by
    rw [m₁.budget]
    rw [List.length_append] at hr
    omega
  obtain ⟨p₂, h₂, -, word, hc, hk⟩ := leads_fusedMembers
    (fun inner hm => hw inner (List.mem_append_left _ hm)) (by simpa using hearlier)
    (by simpa using hfused) (f₁.pass (LexerMode.skips_space rfl)) room hrounds (Nat.zero_lt_of_lt hrounds)
    (by rw [m₁.context, m₁.options]; exact hd)
  have hclose : word.kind ≠ .closeBrace := by rw [hk]; nofun
  obtain ⟨failure, after, h₃⟩ := fails_require hc hclose
  refine ⟨failure, after, ?_⟩
  simp only [object, objectKind, closedList, run_bind, run_get, hp, Bool.false_eq_true, if_false, h₁,
    run_budget, h₂, h₃]

section Assigning

variable {outer : Context} {target : String} {text : List Char}

theorem shows_openBrace (h : parser.lexer.Facing .default afterOperand (objectText methods ++ rest)) :
    ∃ word, parser.lexer.current = some word ∧ word.kind = .openBrace := by
  obtain ⟨behind, he⟩ : ∃ behind, objectText methods ++ rest = '\x7b' :: behind := by
    cases methods with
    | nil => exact ⟨_, rfl⟩
    | cons first others => exact ⟨_, rfl⟩
  rw [he] at h
  obtain ⟨word, hc, hk, -⟩ := (h.shows_brace .openBrace (by decide)).token
  exact ⟨word, hc, hk⟩

/-- Where an expression is expected, a brace starts an object. -/
theorem run_fresh_brace {sub : Goal → ParserM Node} {word : Token}
    (hw : parser.lexer.current = some word) (hk : word.kind = .openBrace)
    (hb : parser.context.expectsBlock = false) : fresh arrowAhead sub parser = object sub parser := by
  simp only [fresh, run_bind, run_token hw, opening, hk, run_get, hb, Bool.false_eq_true, if_false]

theorem run_fresh_object {sub : Goal → ParserM Node}
    (h : parser.lexer.Facing .default afterOperand (objectText methods ++ rest))
    (hb : parser.context.expectsBlock = false) : fresh arrowAhead sub parser = object sub parser := by
  obtain ⟨word, hc, hk⟩ := shows_openBrace h
  exact run_fresh_brace hc hk hb

/-- The right side of an assignment of an object. -/
theorem leadsTo_objectOperand (hw : ∀ inner ∈ methods, inner.key.WellFormed)
    (hf : ∀ inner ∈ methods, ¬inner.IsFused)
    (h : parser.lexer.Facing .default afterOperand (objectText methods ++ ';' :: rest)) (room : Nat)
    (hr : methods.length < parser.budget)
    (hd : parser.context.length + 2 < parser.options.maxDepth) :
    LeadsTo (operandAt (goal arrowAhead (room + 2)) .assignmentExpression .right) parser
      (.object .expression (methods.map fun inner => inner.printed.property)) false (';' :: rest) := by
  let inside : Parser :=
    { parser with context := .filling .assignmentExpression .right :: parser.context }
  have h' : inside.lexer.Facing .default afterOperand (objectText methods ++ ';' :: rest) := h
  refine Leads.within (?_ : LeadsTo _ inside _ _ _) (fun _ _ hf => hf) (by omega)
  have hfresh := (leadsTo_object hw hf h' room rfl hr hd).of_eq (run_fresh_object h' rfl)
  obtain ⟨p₁, h₁, m₁, f₁⟩ := operand_of_fresh rfl hfresh
  obtain ⟨word, hc, hk, -⟩ := (f₁.shows_mark .semicolon (by decide)).token
  exact ⟨p₁, h₁.trans (extend_stop hc (by rw [hk]; rfl) (Nat.zero_lt_of_lt hr)), m₁, f₁⟩

theorem fails_objectOperand (hw : ∀ inner ∈ methods, inner.key.WellFormed)
    (hf : ∃ inner ∈ methods, inner.IsFused)
    (h : parser.lexer.Facing .default afterOperand (objectText methods ++ rest)) (room : Nat)
    (hr : methods.length < parser.budget)
    (hd : parser.context.length + 2 < parser.options.maxDepth) :
    Fails (operandAt (goal arrowAhead (room + 2)) .assignmentExpression .right) parser := by
  let inside : Parser :=
    { parser with context := .filling .assignmentExpression .right :: parser.context }
  have h' : inside.lexer.Facing .default afterOperand (objectText methods ++ rest) := h
  refine Fails.within (?_ : Fails _ inside)
  have hfresh := (fails_object hw hf h' room rfl hr hd).of_eq (run_fresh_object h' rfl)
  exact (hfresh.bind _).of_eq (operand_of_not_extending rfl)

theorem admits_assignmentOperator {frame : Frame} {operand : Node} {word : Token}
    (hne : frame ≠ .filling .newExpression .callee) (hk : word.kind = .assignmentOperator)
    (ha : frame.admitsAssignment operand = true) :
    Context.admits (frame :: outer) operand word = true := by
  unfold Context.admits
  split
  · rename_i he
    cases he
  · rename_i he
    cases he
    exact absurd rfl hne
  · rename_i he
    cases he
    rw [hk]
    exact ha

/-- What starts an operand is taken for the left of an assignment where the sign follows it. -/
theorem run_operand_left (sub : Goal → ParserM Node) {left : Node} {frame : Frame}
    {holds : Parser → Prop} (h : Leads (fresh arrowAhead sub) parser left holds)
    (hs : ∀ between, holds between →
      between.lexer.Facing .default afterOperand (' ' :: '=' :: ' ' :: text))
    (hc : parser.context = frame :: outer) (hf : frame.isEnclosing = true)
    (hi : Context.isComplete (frame :: outer) left = false)
    (hne : frame ≠ .filling .newExpression .callee) (ha : frame.admitsAssignment left = true)
    (hr : 1 < parser.budget) (hd : parser.context.length < parser.options.maxDepth) :
    ∃ rounds between, 0 < rounds ∧ parser.Moved between ∧ holds between ∧
      between.lexer.Shows .assignmentOperator none ['='] false (' ' :: text) ∧
      operand arrowAhead sub parser =
        (within (.extending left.kind) (assignment sub left) >>= fun longer =>
          extend arrowAhead sub longer rounds) between := by
  obtain ⟨p₁, h₁, m₁, f₁⟩ := operand_of_fresh (by rw [hc]; exact isExtending_of_isEnclosing hf) h
  have hsign : p₁.lexer.Shows .assignmentOperator none ['='] false (' ' :: text) :=
    ((hs p₁ f₁).skip (Or.inl rfl) (by rintro _ ⟨⟩; rfl)).shows (begins_equals _ text) rfl rfl
  obtain ⟨word, hw, hk, -⟩ := hsign.token
  obtain ⟨rounds, hrounds⟩ : ∃ rounds, parser.budget = rounds + 1 + 1 := ⟨parser.budget - 2, by omega⟩
  have hc₁ : p₁.context = frame :: outer := m₁.context.trans hc
  have hstep : extend arrowAhead sub left (rounds + 1 + 1) p₁ = _ :=
    run_extend_step (rounds + 1) hw (by rw [hc₁]; exact hi)
      (by rw [hc₁]; exact admits_assignmentOperator hne hk ha)
      (by rw [m₁.context, m₁.options]; exact hd)
  refine ⟨rounds + 1, p₁, Nat.succ_pos rounds, m₁, f₁, hsign, ?_⟩
  rw [h₁, hrounds, hstep, hk]
  rfl

/-- A name is taken for the left of an assignment where the sign follows it, which is the next token. -/
theorem run_operand_target (sub : Goal → ParserM Node) (hn : IsSteadyName target.toList)
    (h : parser.lexer.Facing .default afterOperand (target.toList ++ ' ' :: '=' :: ' ' :: text))
    (hc : parser.context = .filling .expressionStatement .expression :: outer)
    (hr : 1 < parser.budget) (hd : parser.context.length < parser.options.maxDepth) :
    (parser.lexer.next .default).Shows .assignmentOperator none ['='] false (' ' :: text) ∧
      ∃ rounds, 0 < rounds ∧ operand arrowAhead sub parser =
        (within (.extending .identifier) (assignment sub (.identifier target)) >>= fun longer =>
          extend arrowAhead sub longer rounds) { parser with lexer := parser.lexer.next .default } := by
  have hname : parser.lexer.Shows .identifierName none target.toList true (' ' :: '=' :: ' ' :: text) :=
    h.shows (begins_steadyName_of_head hn rfl rfl (by decide) (by decide) _) rfl
      (isUpdateSpelling_name hn.plain.isName)
  have hfresh : Leads (fresh arrowAhead sub) parser (.identifier target)
      (· = { parser with lexer := parser.lexer.next .default }) := by
    obtain ⟨word, hw, hk, hv, -⟩ := hname.token
    refine ⟨_, ?_, ⟨_, _, rfl⟩, rfl⟩
    simp only [fresh, run_bind, run_token hw, opening, hk, identifier, nextToken, run_modifyLexer, run_pure,
      hv, String.ofList_toList]
  obtain ⟨rounds, between, hrounds, -, rfl, hsign, hx⟩ := run_operand_left sub hfresh
    (fun between hb => by rw [hb]; exact hname.next .default) hc rfl rfl (by decide) rfl hr hd
  exact ⟨hsign, rounds, hrounds, hx⟩

/-- Behind the sign of an assignment, its right side is still to come. -/
theorem run_assignment (sub : Goal → ParserM Node) (left : Node)
    (h : parser.lexer.Shows .assignmentOperator none ['='] false (' ' :: text)) :
    assignment sub left parser = (operandAt sub .assignmentExpression .right >>= fun right =>
      pure (.assignment "=" left right)) { parser with lexer := parser.lexer.next .default } := by
  obtain ⟨word, hw, -, hv, -⟩ := h.token
  simp only [assignment, run_bind, run_token hw, nextToken, run_modifyLexer, hv]

/-- The right side of an assignment to a name, as the parser comes to it: the name and the sign are
behind it, and the statement, the name and the assignment are around it. -/
def atRight (parser : Parser) : Parser :=
  { parser with
    lexer := (parser.lexer.next .default).next .default
    context := .extending .identifier :: .filling .expressionStatement .expression :: parser.context }

theorem atRight_budget (parser : Parser) : (atRight parser).budget = parser.budget := rfl

theorem atRight_options (parser : Parser) : (atRight parser).options = parser.options := rfl

theorem atRight_depth (parser : Parser) :
    (atRight parser).context.length = parser.context.length + 2 := rfl

/-- In a statement, a name and the sign behind it leave the right side of an assignment to be read. -/
theorem exists_atRight (sub : Goal → ParserM Node) (hn : IsSteadyName target.toList)
    (h : parser.lexer.Facing .default afterOperand (target.toList ++ ' ' :: '=' :: ' ' :: text))
    (hr : 1 < parser.budget) (hd : parser.context.length + 1 < parser.options.maxDepth) :
    (atRight parser).lexer.Facing .default false (' ' :: text) ∧ ∃ rounds between, 0 < rounds ∧
      Parser.Moved { parser with context := .filling .expressionStatement .expression :: parser.context }
        between ∧
      Parser.Moved { between with context := .extending .identifier :: between.context }
        (atRight parser) ∧
      between.context.length < between.options.maxDepth ∧
      operand arrowAhead sub
          { parser with context := .filling .expressionStatement .expression :: parser.context } =
        (within (.extending .identifier) (assignment sub (.identifier target)) >>= fun longer =>
          extend arrowAhead sub longer rounds) between ∧
      assignment sub (.identifier target)
          { between with context := .extending .identifier :: between.context } =
        (operandAt sub .assignmentExpression .right >>= fun right =>
          pure (.assignment "=" (.identifier target) right)) (atRight parser) := by
  let inside : Parser :=
    { parser with context := .filling .expressionStatement .expression :: parser.context }
  have h' : inside.lexer.Facing .default afterOperand _ := h
  obtain ⟨hsign, rounds, hrounds, hx⟩ := run_operand_target sub hn h' rfl hr hd
  refine ⟨hsign.next .default, rounds, { inside with lexer := inside.lexer.next .default }, hrounds,
    ⟨_, _, rfl⟩, ⟨_, _, rfl⟩, hd, hx, ?_⟩
  exact run_assignment sub (.identifier target) hsign

/-- The assignment of a right side to a name is read where the right side is, and ends where nothing
goes on. -/
theorem leadsTo_assignment {right : Node} {room : Nat} {afterOperand' : Bool}
    (hn : IsSteadyName target.toList)
    (h : parser.lexer.Facing .default afterOperand (target.toList ++ ' ' :: '=' :: ' ' :: text))
    (hr : 1 < parser.budget) (hd : parser.context.length + 1 < parser.options.maxDepth)
    (hright : (atRight parser).lexer.Facing .default false (' ' :: text) →
      LeadsTo (operandAt (goal arrowAhead room) .assignmentExpression .right) (atRight parser) right
        afterOperand' rest)
    (hends : ∀ lexer : Lexer, lexer.Facing .default afterOperand' rest →
      ∀ word ∈ lexer.current, canExtend word.kind = false) :
    LeadsTo (operandAt (goal arrowAhead (room + 1)) .expressionStatement .expression) parser
      (.assignment "=" (.identifier target) right) afterOperand' rest := by
  obtain ⟨hface, rounds, p₁, hrounds, m₁, m₂, hdepth, hx, hassign⟩ :=
    exists_atRight (goal arrowAhead room) hn h hr hd
  obtain ⟨p₃, h₃, m₃, f₃⟩ := hright hface
  have hassigned : LeadsTo (assignment (goal arrowAhead room) (.identifier target))
      { p₁ with context := .extending .identifier :: p₁.context }
      (.assignment "=" (.identifier target) right) afterOperand' rest :=
    ⟨p₃, by rw [hassign, run_bind, h₃]; rfl, m₂.trans m₃, f₃⟩
  obtain ⟨p₄, h₄, m₄, f₄⟩ := Leads.within hassigned (fun _ _ hf => hf) hdepth
  refine Leads.within ⟨p₄, hx.trans ?_, m₁.trans m₄, f₄⟩ (fun _ _ hf => hf) (by omega)
  rw [run_bind, h₄]
  exact extend_stops (hends p₄.lexer f₄) hrounds

theorem fails_assignment {room : Nat} (hn : IsSteadyName target.toList)
    (h : parser.lexer.Facing .default afterOperand (target.toList ++ ' ' :: '=' :: ' ' :: text))
    (hr : 1 < parser.budget) (hd : parser.context.length + 1 < parser.options.maxDepth)
    (hright : (atRight parser).lexer.Facing .default false (' ' :: text) →
      Fails (operandAt (goal arrowAhead room) .assignmentExpression .right) (atRight parser)) :
    Fails (operandAt (goal arrowAhead (room + 1)) .expressionStatement .expression) parser := by
  obtain ⟨hface, rounds, p₁, -, -, -, -, hx, hassign⟩ :=
    exists_atRight (goal arrowAhead room) hn h hr hd
  have hassigned : Fails (assignment (goal arrowAhead room) (.identifier target))
      { p₁ with context := .extending .identifier :: p₁.context } := by
    rw [Fails, hassign]
    exact (hright hface).bind _
  obtain ⟨failure, after, hfails⟩ := (Fails.within hassigned).bind fun longer =>
    extend arrowAhead (goal arrowAhead room) longer rounds
  exact Fails.within ⟨failure, after, hx.trans hfails⟩

/-- How the assignment of an object to a name is written. -/
def assignmentText (target : String) (methods : List EmptyMethod) : List Char :=
  target.toList ++ ' ' :: '=' :: ' ' :: objectText methods

theorem head?_objectText : ∀ c ∈ (objectText methods ++ rest).head?, isSpace c = false := by
  cases methods <;> (rintro _ ⟨⟩; rfl)

/-- An object of methods, none of them fused, is read from its assignment to a name. -/
theorem leadsTo_objectAssignment (hn : IsSteadyName target.toList)
    (hw : ∀ inner ∈ methods, inner.key.WellFormed) (hf : ∀ inner ∈ methods, ¬inner.IsFused)
    (h : parser.lexer.Facing .default afterOperand (assignmentText target methods ++ ';' :: rest))
    (room : Nat) (hr : methods.length + 1 < parser.budget)
    (hd : parser.context.length + 4 < parser.options.maxDepth) :
    LeadsTo (operandAt (goal arrowAhead (room + 3)) .expressionStatement .expression) parser
      (.assignment "=" (.identifier target)
        (.object .expression (methods.map fun inner => inner.printed.property))) false (';' :: rest) := by
  have h' : parser.lexer.Facing .default afterOperand
      (target.toList ++ ' ' :: '=' :: ' ' :: (objectText methods ++ ';' :: rest)) := by
    simpa [assignmentText] using h
  refine leadsTo_assignment hn h' (by omega) (by omega) (fun hface => ?_) fun lexer f word hc => ?_
  · exact leadsTo_objectOperand hw hf (hface.skip (Or.inl rfl) head?_objectText) room (by rw [atRight_budget]; omega)
      (by rw [atRight_depth, atRight_options]; exact hd)
  · obtain ⟨found, hfound, hk, -⟩ := (f.shows_mark .semicolon (by decide)).token
    rw [hfound] at hc
    cases hc
    rw [hk]
    rfl

theorem fails_objectAssignment (hn : IsSteadyName target.toList)
    (hw : ∀ inner ∈ methods, inner.key.WellFormed) (hf : ∃ inner ∈ methods, inner.IsFused)
    (h : parser.lexer.Facing .default afterOperand (assignmentText target methods ++ rest))
    (room : Nat) (hr : methods.length + 1 < parser.budget)
    (hd : parser.context.length + 4 < parser.options.maxDepth) :
    Fails (operandAt (goal arrowAhead (room + 3)) .expressionStatement .expression) parser := by
  have h' : parser.lexer.Facing .default afterOperand
      (target.toList ++ ' ' :: '=' :: ' ' :: (objectText methods ++ rest)) := by
    simpa [assignmentText] using h
  refine fails_assignment hn h' (by omega) (by omega) fun hface => ?_
  exact fails_objectOperand hw hf (hface.skip (Or.inl rfl) head?_objectText) room
    (by rw [atRight_budget]; omega) (by rw [atRight_depth, atRight_options]; exact hd)

end Assigning

end ParserM

end ScriptTree
