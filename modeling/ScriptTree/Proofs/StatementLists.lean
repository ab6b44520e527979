import ScriptTree.Proofs.LoopHeads

/-!
Statements one after the other, each on a line of its own: in blocks and in the cases of a switch.
-/

namespace ScriptTree

open ParserM

/-- Every statement of a list is read from its line. -/
def ReadsLines (level : Nat) (nodes : List Node) : Prop :=
  ∀ node ∈ nodes, ReadsStatement (node.lineText level) node

theorem heads_marginText {holds : Option Token → Prop} {text : List Char} (level : Nat)
    (h : Heads holds text) : Heads holds (marginText level ++ text) :=
  h.pass isSpace_of_mem_marginText

/-- Where statements follow, no `else` does. -/
theorem noElse_linesText {level : Nat} {nodes : List Node} {rest : List Char}
    (h : ReadsLines level nodes) (hr : Heads NoElse rest) :
    Heads NoElse (linesText level nodes ++ rest) := by
  cases nodes with
  | nil => exact hr
  | cons node nodes =>
    rw [linesText_cons, List.append_assoc, List.append_assoc]
    have hopens := (h node List.mem_cons_self).opens (linesText level nodes ++ rest)
    exact heads_marginText level (hopens.mono fun _ => OpensStatement.noElse)

/-- A closing brace behind a new line. -/
theorem heads_closeBrace {holds : Option Token → Prop} (level : Nat) (rest : List Char)
    (h : ∀ word : Token, word.kind = .closeBrace → holds (some word)) :
    Heads holds (marginText level ++ '\x7d' :: rest) := by
  have hm : ('\x7d', TokenKind.closeBrace) ∈ braces := by decide
  exact heads_marginText level (heads_of_begins (fun _ => begins_brace hm _ rest) rfl h)

section Lists

variable {parser : Parser} {afterOperand : Bool} {rest : List Char}

/-- Statements on lines of their own, for as long as the token ahead allows. By induction on the
list. -/
theorem arrives_statements {goesOn : Option Token → Bool} (kind : NodeKind) (slot : Slot) {level : Nat}
    {nodes : List Node} (h : ReadsLines level nodes)
    (hgo : ∀ token, OpensStatement token → goesOn token = true)
    (hstop : Heads (fun token => goesOn token = false) rest) (helse : Heads NoElse rest)
    (hb : parser.Before afterOperand (linesText level nodes ++ rest)) {rounds : Nat}
    (hrounds : nodes.length < rounds) (room : Nat) (hr : (linesText level nodes).length ≤ room)
    (hd : parser.context.length + (linesText level nodes).length ≤ parser.options.maxDepth) :
    ∃ afterOperand', Arrives (manyWhile goesOn (statementAt (goal arrowAhead room) kind slot) rounds)
      parser nodes afterOperand' rest := by
  induction nodes generalizing parser afterOperand rounds with
  | nil =>
    obtain ⟨rounds, rfl⟩ := Nat.exists_eq_succ_of_ne_zero (Nat.ne_zero_of_lt hrounds)
    have hno : goesOn parser.lexer.current = false := hstop _ _ hb.facing
    refine ⟨afterOperand, parser, ?_, .refl parser, hb⟩
    simp only [manyWhile, run_bind, run_current, hno, Bool.false_eq_true, if_false, run_pure]
  | cons node nodes ih =>
    obtain ⟨rounds, rfl⟩ := Nat.exists_eq_succ_of_ne_zero (Nat.ne_zero_of_lt hrounds)
    have hnode := h node List.mem_cons_self
    have hnodes : ReadsLines level nodes := fun other hm => h other (List.mem_cons_of_mem _ hm)
    have hmargin : 0 < (marginText level).length := by simp [marginText_eq]
    rw [linesText_cons, List.length_append, List.length_append] at hr hd
    rw [linesText_cons, List.append_assoc, List.append_assoc] at hb
    have hb' := hb.pass isSpace_of_mem_marginText
    have hyes : goesOn parser.lexer.current = true := hgo _ (hnode.opens _ _ _ hb'.facing)
    obtain ⟨_, p₁, h₁, m₁, b₁⟩ := hnode.within room hb' (fun _ => noElse_linesText hnodes helse) kind
      slot (by omega) (by omega)
    obtain ⟨afterOperand', p₂, h₂, m₂, b₂⟩ := ih hnodes b₁ (Nat.lt_of_succ_lt_succ hrounds) (by omega)
      (by rw [m₁.context, m₁.options]; omega)
    refine ⟨afterOperand', p₂, ?_, m₁.trans m₂, b₂⟩
    simp only [manyWhile, run_bind, run_current, hyes, if_true, h₁, h₂, run_pure]

theorem length_le_linesText (level : Nat) (nodes : List Node) :
    nodes.length ≤ (linesText level nodes).length := by
  induction nodes with
  | nil => exact Nat.le_refl _
  | cons node nodes ih =>
    simp only [linesText_cons, marginText_eq, List.length_append, List.length_cons]
    omega

theorem arrives_require_closeBrace
    (hb : parser.Before afterOperand ('\x7d' :: rest)) :
    Arrives (require .closeBrace) parser () false rest := by
  have hm : ('\x7d', TokenKind.closeBrace) ∈ braces := by decide
  have hon : parser.On .closeBrace none ['\x7d'] rest :=
    hb.on (begins_brace hm afterOperand rest) rfl rfl
  exact arrives_require hon

theorem on_openBrace (hb : parser.Before afterOperand ('\x7b' :: rest)) :
    parser.On .openBrace none ['\x7b'] rest := by
  have hm : ('\x7b', TokenKind.openBrace) ∈ braces := by decide
  exact hb.on (begins_brace hm afterOperand rest) rfl rfl

/-- A token ahead that is no closing brace. -/
theorem isNot_closeBrace_of_opens {token : Option Token} (h : OpensStatement token) :
    isNot .closeBrace token = true := by
  obtain ⟨word, rfl, hk⟩ := h
  have hne : word.kind ≠ .closeBrace := by
    intro he
    rw [he] at hk
    cases hk
  simp [isNot, hne]

theorem caseGoesOn_of_opens {token : Option Token} (h : OpensStatement token) :
    caseGoesOn token = true := by
  obtain ⟨word, rfl, hk⟩ := h
  unfold caseGoesOn
  dsimp only
  split <;> first | rfl | (rename_i he; rw [he] at hk; cases hk)

/-- The statements of a block and its closing brace. -/
theorem arrives_body {level : Nat} {nodes : List Node} (h : ReadsLines (level + 1) nodes)
    (hb : parser.Before afterOperand (bodyText level nodes ++ '\x7d' :: rest)) {rounds : Nat}
    (hrounds : nodes.length < rounds) (room : Nat) (hr : (bodyText level nodes).length ≤ room)
    (hd : parser.context.length + (bodyText level nodes).length ≤ parser.options.maxDepth) :
    ∃ afterOperand', Arrives (manyWhile (isNot .closeBrace)
      (statementAt (goal arrowAhead room) .blockStatement .body) rounds) parser nodes afterOperand'
      ('\x7d' :: rest) := by
  have hm : ('\x7d', TokenKind.closeBrace) ∈ braces := by decide
  cases nodes with
  | nil =>
    obtain ⟨rounds, rfl⟩ := Nat.exists_eq_succ_of_ne_zero (Nat.ne_zero_of_lt hrounds)
    have hclose : Heads (fun token => isNot .closeBrace token = false) ('\x7d' :: rest) :=
      heads_of_begins (fun _ => begins_brace hm _ rest) rfl fun word hw => by simp [isNot, hw]
    have hno : isNot .closeBrace parser.lexer.current = false := hclose _ _ hb.facing
    refine ⟨afterOperand, parser, ?_, .refl parser, hb⟩
    simp only [manyWhile, run_bind, run_current, hno, Bool.false_eq_true, if_false, run_pure]
  | cons node nodes =>
    have htext : bodyText level (node :: nodes) =
        linesText (level + 1) (node :: nodes) ++ marginText level := rfl
    rw [htext, List.append_assoc] at hb
    rw [htext, List.length_append] at hr hd
    obtain ⟨afterOperand', p₁, h₁, m₁, b₁⟩ := arrives_statements .blockStatement .body h
      (fun _ => isNot_closeBrace_of_opens)
      (heads_closeBrace level rest fun word hw => by simp [isNot, hw])
      (heads_closeBrace level rest fun word hw => by rintro _ ⟨⟩; rw [hw]; decide) hb hrounds room
      (by omega) (by omega)
    exact ⟨afterOperand', p₁, h₁, m₁, b₁.pass isSpace_of_mem_marginText⟩

end Lists

namespace ReadsStatement

theorem block {level : Nat} {body : List Node} (h : ReadsLines (level + 1) body) :
    ReadsStatement ('\x7b' :: (bodyText level body ++ ['\x7d'])) (.block body) := by
  have hm : ('\x7b', TokenKind.openBrace) ∈ braces := by decide
  have hread : ReadsStatement (['\x7b'] ++ (bodyText level body ++ ['\x7d'])) (.block body) := by
    refine of_begins ParserM.block (fun afterOperand rest => begins_brace hm afterOperand _) (by decide)
      rfl (fun sub parser word hc hk => ?_) fun room parser rest hon _ hr hd => ?_
    · simp only [statement, run_bind, run_token hc, hk]
    · simp only [List.append_assoc, List.cons_append, List.nil_append, List.length_append,
        List.length_cons, List.length_nil] at hon hr hd
      obtain ⟨p₁, h₁, m₁, b₁⟩ := arrives_require hon
      have hrounds : body.length < p₁.budget := by
        have hl := b₁.budget
        have hlines := length_le_linesText (level + 1) body
        have hbody : (linesText (level + 1) body).length ≤ (bodyText level body).length := by
          unfold bodyText
          split
          · rename_i he
            rw [List.isEmpty_iff.mp he]
            exact Nat.le_refl _
          · simp
        rw [List.length_append] at hl
        omega
      obtain ⟨_, p₂, h₂, m₂, b₂⟩ := arrives_body h b₁ hrounds room (by omega)
        (by rw [m₁.context, m₁.options]; omega)
      obtain ⟨p₃, h₃, m₃, b₃⟩ := arrives_require_closeBrace b₂
      refine ⟨false, p₃, ?_, (m₁.trans m₂).trans m₃, b₃⟩
      simp only [ParserM.block, run_bind, h₁, run_budget, h₂, h₃, run_pure]
  exact hread

end ReadsStatement

section Cases

variable {parser : Parser} {afterOperand : Bool} {rest : List Char}

theorem armsText_cons (level : Nat) (arm : NameCase) (arms : List NameCase) :
    armsText level (arm :: arms) = marginText level ++ (arm.headText ++
      (linesText (level + 1) arm.body ++ armsText level arms)) := by
  simp [armsText]

theorem length_le_armsText (level : Nat) (arms : List NameCase) :
    arms.length ≤ (armsText level arms).length := by
  induction arms with
  | nil => exact Nat.le_refl _
  | cons arm arms ih =>
    simp only [armsText_cons, marginText_eq, List.length_append, List.length_cons]
    omega

/-- Tokens that end the statements of a case. -/
def EndsCase (token : Option Token) : Prop := ∃ word, token = some word ∧
  (word.kind = .caseKeyword ∨ word.kind = .defaultKeyword ∨ word.kind = .closeBrace)

theorem EndsCase.caseGoesOn_eq {token : Option Token} (h : EndsCase token) :
    caseGoesOn token = false := by
  obtain ⟨word, rfl, hk | hk | hk⟩ := h <;> simp [caseGoesOn, hk]

theorem EndsCase.noElse {token : Option Token} (h : EndsCase token) : NoElse token := by
  obtain ⟨word, rfl, hk⟩ := h
  rintro _ ⟨⟩ he
  simp [he] at hk

theorem heads_headText (arm : NameCase) {holds : Option Token → Prop} (rest : List Char)
    (h : ∀ word : Token, word.kind = .caseKeyword ∨ word.kind = .defaultKeyword →
      holds (some word)) : Heads holds (arm.headText ++ rest) := by
  obtain ⟨_ | name, body⟩ := arm
  · have hheads : Heads holds ("default".toList ++ ':' :: rest) :=
      heads_of_begins (fun afterOperand => begins_default afterOperand rest) rfl
        fun word hw => h word (Or.inr hw)
    simpa [NameCase.headText] using hheads
  · have hword : ("case", TokenKind.caseKeyword) ∈ statementWords := by decide
    have hheads : Heads holds ("case".toList ++ ' ' :: (name.toList ++ ':' :: rest)) :=
      heads_of_begins (fun afterOperand => begins_statementWord hword afterOperand _) rfl
        fun word hw => h word (Or.inl hw)
    simpa [NameCase.headText] using hheads

/-- Behind the statements of a case stands another case, or the end of the switch. -/
theorem heads_armsText (level outer : Nat) (arms : List NameCase) (rest : List Char) :
    Heads EndsCase (armsText level arms ++ (marginText outer ++ '\x7d' :: rest)) := by
  cases arms with
  | nil => exact heads_closeBrace outer rest fun word hw => ⟨word, rfl, Or.inr (Or.inr hw)⟩
  | cons arm arms =>
    rw [armsText_cons, List.append_assoc, List.append_assoc]
    refine heads_marginText level (heads_headText arm _ fun word hw => ⟨word, rfl, ?_⟩)
    exact hw.imp_right Or.inl

/-- What stands before the statements of a case, up to the colon. -/
theorem arrives_caseTest {arm : NameCase} (ht : IsSteadyClause arm.test)
    (hb : parser.Before afterOperand (arm.headText ++ rest)) (room : Nat)
    (hd : parser.context.length < parser.options.maxDepth) :
    ∃ afterOperand', Arrives (caseTest (goal arrowAhead (room + 1))) parser
      (arm.test.map .identifier) afterOperand' (':' :: rest) := by
  obtain ⟨_ | name, body⟩ := arm
  · have hb' : parser.Before afterOperand ("default".toList ++ ':' :: rest) := by
      simpa [NameCase.headText] using hb
    have hon : parser.On .defaultKeyword none "default".toList (':' :: rest) :=
      hb'.on (begins_default afterOperand rest) rfl rfl
    obtain ⟨word, hw, -, hk, -⟩ := run_token_of_on hon
    obtain ⟨p₁, h₁, m₁, b₁⟩ := arrives_nextToken hon
    refine ⟨_, p₁, ?_, m₁, b₁⟩
    simp only [caseTest, run_bind, hw, hk, h₁, run_pure]
    rfl
  · have hb' : parser.Before afterOperand ("case".toList ++ ' ' :: (name.toList ++ ':' :: rest)) := by
      simpa [NameCase.headText] using hb
    have hon : parser.On .caseKeyword none "case".toList _ := on_statementWord hb' (by decide)
    obtain ⟨word, hw, -, hk, -⟩ := run_token_of_on hon
    obtain ⟨p₁, h₁, m₁, b₁⟩ := arrives_nextToken hon
    obtain ⟨p₂, h₂, m₂, b₂⟩ := arrives_clause .switchCase .test b₁.space (ht name rfl)
      (.mark (by decide)) (halts_colonMark (by decide)) room (by rw [m₁.context, m₁.options]; exact hd)
    refine ⟨true, p₂, ?_, m₁.trans m₂, b₂⟩
    simp only [caseTest, run_bind, hw, hk, h₁, h₂, run_pure]
    rfl

theorem arrives_switchCase {level : Nat} {arm : NameCase} (ht : IsSteadyClause arm.test)
    (h : ReadsLines level arm.body) (hrest : Heads EndsCase rest)
    (hb : parser.Before afterOperand (arm.headText ++ (linesText level arm.body ++ rest)))
    (room : Nat) (hr : (linesText level arm.body).length ≤ room)
    (hd : parser.context.length + (linesText level arm.body).length < parser.options.maxDepth) :
    ∃ afterOperand', Arrives (switchCase (goal arrowAhead (room + 1))) parser arm.node afterOperand'
      rest := by
  obtain ⟨_, p₁, h₁, m₁, b₁⟩ := arrives_caseTest ht hb room (by omega)
  have hcolon : p₁.On .colon none [':'] _ := b₁.on_mark (by decide)
  obtain ⟨p₂, h₂, m₂, b₂⟩ := arrives_require hcolon
  have m₁₂ := m₁.trans m₂
  have hrounds : arm.body.length < p₂.budget := by
    have hl := b₂.budget
    have hlines := length_le_linesText level arm.body
    rw [List.length_append] at hl
    omega
  obtain ⟨afterOperand', p₃, h₃, m₃, b₃⟩ := arrives_statements .switchCase .consequent h
    (fun _ => caseGoesOn_of_opens) (hrest.mono fun _ => EndsCase.caseGoesOn_eq)
    (hrest.mono fun _ => EndsCase.noElse) b₂ hrounds (room + 1) (by omega)
    (by rw [m₁₂.context, m₁₂.options]; omega)
  refine ⟨afterOperand', p₃, ?_, m₁₂.trans m₃, b₃⟩
  simp only [switchCase, run_bind, h₁, h₂, run_budget, h₃, run_pure]
  rfl

/-- The cases of a switch, up to its closing brace. -/
theorem arrives_arms {level outer : Nat} {arms : List NameCase}
    (ht : ∀ arm ∈ arms, IsSteadyClause arm.test) (h : ∀ arm ∈ arms, ReadsLines (level + 1) arm.body)
    (hb : parser.Before afterOperand (armsText level arms ++ (marginText outer ++ '\x7d' :: rest)))
    {rounds : Nat} (hrounds : arms.length < rounds) (room : Nat)
    (hr : (armsText level arms).length ≤ room)
    (hd : parser.context.length + (armsText level arms).length ≤ parser.options.maxDepth) :
    ∃ afterOperand', Arrives (manyWhile (isNot .closeBrace) (switchCase (goal arrowAhead (room + 1)))
      rounds) parser (arms.map NameCase.node) afterOperand' (marginText outer ++ '\x7d' :: rest) := by
  induction arms generalizing parser afterOperand rounds with
  | nil =>
    obtain ⟨rounds, rfl⟩ := Nat.exists_eq_succ_of_ne_zero (Nat.ne_zero_of_lt hrounds)
    have hclose : Heads (fun token => isNot .closeBrace token = false)
        (marginText outer ++ '\x7d' :: rest) :=
      heads_closeBrace outer rest fun word hw => by simp [isNot, hw]
    have hno : isNot .closeBrace parser.lexer.current = false := hclose _ _ hb.facing
    refine ⟨afterOperand, parser, ?_, .refl parser, hb⟩
    simp only [manyWhile, run_bind, run_current, hno, Bool.false_eq_true, if_false, run_pure,
      List.map_nil]
  | cons arm arms ih =>
    obtain ⟨rounds, rfl⟩ := Nat.exists_eq_succ_of_ne_zero (Nat.ne_zero_of_lt hrounds)
    have hmargin : 0 < (marginText level).length := by simp [marginText_eq]
    rw [armsText_cons, List.length_append, List.length_append, List.length_append] at hr hd
    rw [armsText_cons, List.append_assoc, List.append_assoc, List.append_assoc] at hb
    have hb' := hb.pass isSpace_of_mem_marginText
    have hhead (text : List Char) :
        Heads (fun token => isNot .closeBrace token = true) (arm.headText ++ text) :=
      heads_headText arm text fun word hw => by rcases hw with hw | hw <;> simp [isNot, hw]
    have hyes : isNot .closeBrace parser.lexer.current = true := hhead _ _ _ hb'.facing
    obtain ⟨_, p₁, h₁, m₁, b₁⟩ := arrives_switchCase (ht arm List.mem_cons_self)
      (h arm List.mem_cons_self) (heads_armsText level outer arms rest) hb' room (by omega) (by omega)
    obtain ⟨afterOperand', p₂, h₂, m₂, b₂⟩ := ih
      (fun other hm => ht other (List.mem_cons_of_mem _ hm))
      (fun other hm => h other (List.mem_cons_of_mem _ hm)) b₁ (Nat.lt_of_succ_lt_succ hrounds)
      (by omega) (by rw [m₁.context, m₁.options]; omega)
    refine ⟨afterOperand', p₂, ?_, m₁.trans m₂, b₂⟩
    simp only [manyWhile, run_bind, run_current, hyes, if_true, h₁, h₂, run_pure, List.map_cons]

end Cases

namespace ReadsStatement

theorem switch {level : Nat} {discriminant : String} {arms : List NameCase}
    (hn : IsSteadyName discriminant.toList) (ht : ∀ arm ∈ arms, IsSteadyClause arm.test)
    (h : ∀ arm ∈ arms, ReadsLines (level + 1 + 1) arm.body) :
    ReadsStatement ("switch".toList ++ ' ' :: '(' :: (discriminant.toList ++ ')' :: ' ' :: '\x7b' ::
        (armsText (level + 1) arms ++ (marginText level ++ ['\x7d']))))
      (.switchStatement (.identifier discriminant) (arms.map NameCase.node)) := by
  have hword : ("switch", TokenKind.switchKeyword) ∈ statementWords := by decide
  refine of_begins switchStatement
    (fun afterOperand rest => begins_statementWord hword afterOperand _) (by decide) rfl
    (fun sub parser word hc hk => ?_) fun room parser rest hon _ hr hd => ?_
  · simp only [statement, run_bind, run_token hc, hk]
  · simp only [List.append_assoc, List.cons_append, List.nil_append, List.length_append,
      List.length_cons] at hon hr hd
    obtain ⟨room, rfl⟩ : ∃ room', room = room' + 1 := ⟨room - 1, by omega⟩
    obtain ⟨p₁, h₁, m₁, b₁⟩ := arrives_enterParens hon
    obtain ⟨p₂, h₂, m₂, b₂⟩ := arrives_condition .switchStatement .discriminant b₁ hn room
      (by rw [m₁.context, m₁.options]; omega)
    obtain ⟨p₃, h₃, m₃, b₃⟩ := arrives_require (on_openBrace b₂.space)
    have m₁₃ := (m₁.trans m₂).trans m₃
    have hrounds : arms.length < p₃.budget := by
      have hl := b₃.budget
      have harms := length_le_armsText (level + 1) arms
      rw [List.length_append] at hl
      omega
    obtain ⟨_, p₄, h₄, m₄, b₄⟩ := arrives_arms ht h b₃ hrounds room (by omega)
      (by rw [m₁₃.context, m₁₃.options]; omega)
    obtain ⟨p₅, h₅, m₅, b₅⟩ := arrives_require_closeBrace (b₄.pass isSpace_of_mem_marginText)
    refine ⟨false, p₅, ?_, (m₁₃.trans m₄).trans m₅, b₅⟩
    simp only [switchStatement, run_bind, h₁, h₂, h₃, run_budget, h₄, h₅, run_pure]

end ReadsStatement

end ScriptTree
