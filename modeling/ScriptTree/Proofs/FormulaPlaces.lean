import ScriptTree.Proofs.FormulaText
import ScriptTree.Proofs.Reading
import ScriptTree.Proofs.OperatorChain

/-!
The places of formulas: the frames in which they are read, and what follows them there.

The printer wraps a formula by the place it stands in. The parser knows no places; it goes by the
frame in progress and the next token. The two agree if a text that is printed for a place is read as
one operand in all frames that the place stands for, before all that may follow there.
-/

namespace ScriptTree

namespace Frame

/-- Frames whose part may be any item of a list. -/
def loose : List Frame :=
  [filling .expressionStatement .expression, parentheses, filling .callExpression .arguments,
   filling .memberExpression .computed, filling .assignmentExpression .right,
   filling .sequenceExpression .expressions]

/-- Frames whose part is an operand. -/
def tight : List Frame :=
  [filling .unaryExpression .argument, filling .binaryExpression .operand,
   filling .conditionalExpression .consequent, filling .conditionalExpression .alternate]

end Frame

/-- The marks that end a formula. -/
def closers : List Char := [';', ')', ']', ',']

/-- What may follow an operand: a closing mark, or an operator of a formula around it. -/
inductive EndsOperand : List Char → Prop
  | closed {c : Char} {rest : List Char} : c ∈ closers → EndsOperand (c :: rest)
  | operator {operator : String} {rest : List Char} : operator ∈ Operator.binaries.map Prod.fst →
    EndsOperand (' ' :: (operator.toList ++ ' ' :: rest))
  | question {rest : List Char} : EndsOperand (' ' :: '?' :: ' ' :: rest)
  | colon {rest : List Char} : EndsOperand (' ' :: ':' :: ' ' :: rest)

namespace Place

/-- The frames in which the text of a formula in a place is read. -/
def Suits (place : Place) (frame : Frame) : Prop :=
  match place with
  | any => frame = .filling .expressionStatement .expression
  | item => frame ∈ Frame.loose
  | _ => frame ∈ Frame.loose ++ Frame.tight

/-- What follows the text of a formula in a place. -/
def Follows (place : Place) (rest : List Char) : Prop :=
  match place with
  | any => rest.head? = some ';'
  | item => ∃ c ∈ closers, rest.head? = some c
  | operand => EndsOperand rest
  | _ => atBoundary rest = true

/-- What follows the text of a formula in a place, if it is no space behind a word that is an operator
before one. -/
def Allows (place : Place) (ends : Bool) (rest : List Char) : Prop :=
  place.Follows rest ∧ (ends = true → ∀ c ∈ rest.head?, isSpace c = false)

theorem Suits.loose {frame : Frame} (h : any.Suits frame) : frame ∈ Frame.loose := by
  rw [show frame = _ from h]
  exact List.mem_cons_self

/-- A tighter place stands for more frames. -/
theorem Suits.mono {place other : Place} {frame : Frame} (h : place.Suits frame)
    (hr : place.rank ≤ other.rank) : other.Suits frame := by
  cases place with
  | any => cases other with
    | any => exact h
    | item => exact h.loose
    | _ => exact List.mem_append_left _ h.loose
  | item => cases other with
    | any => exact absurd hr (by decide)
    | item => exact h
    | _ => exact List.mem_append_left _ h
  | _ => cases other with
    | any | item => exact absurd hr (by decide)
    | _ => exact h

theorem Suits.isEnclosing {place : Place} {frame : Frame} (h : place.Suits frame) :
    frame.isEnclosing = true := by
  have hr : place.rank ≤ newCallee.rank := by cases place <;> decide
  have hall : ∀ frame ∈ Frame.loose ++ Frame.tight, frame.isEnclosing = true := by decide
  exact hall frame (h.mono hr)

theorem Follows.endsOperand {rest : List Char} (h : item.Follows rest) : EndsOperand rest := by
  obtain ⟨c, hc, hr⟩ := h
  obtain ⟨rest, rfl⟩ := List.head?_eq_some_iff.mp hr
  exact .closed hc

theorem Follows.head_not_space {rest : List Char} (h : item.Follows rest) :
    ∀ c ∈ rest.head?, isSpace c = false := by
  obtain ⟨c, hc, hr⟩ := h
  rw [hr]
  rintro _ ⟨⟩
  simp only [closers, List.mem_cons, List.not_mem_nil, or_false] at hc
  rcases hc with rfl | rfl | rfl | rfl <;> rfl

theorem Follows.atBoundary {rest : List Char} (h : operand.Follows rest) :
    atBoundary rest = true := by
  cases h with
  | closed hc =>
    simp only [closers, List.mem_cons, List.not_mem_nil, or_false] at hc
    rcases hc with rfl | rfl | rfl | rfl <;> rfl
  | _ => rfl

/-- More may follow in a tighter place. -/
theorem Follows.mono {place other : Place} {rest : List Char} (h : place.Follows rest)
    (hr : place.rank ≤ other.rank) : other.Follows rest := by
  cases place with
  | any =>
    have hitem : item.Follows rest := ⟨';', by decide, h⟩
    cases other with
    | any => exact h
    | item => exact hitem
    | operand => exact hitem.endsOperand
    | _ => exact Follows.atBoundary hitem.endsOperand
  | item => cases other with
    | any => exact absurd hr (by decide)
    | item => exact h
    | operand => exact h.endsOperand
    | _ => exact Follows.atBoundary h.endsOperand
  | operand => cases other with
    | any | item => exact absurd hr (by decide)
    | operand => exact h
    | _ => exact h.atBoundary
  | _ => cases other with
    | any | item | operand => exact absurd hr (by decide)
    | _ => exact h

end Place

namespace ParserM

/-- A frame halts at a token that continues no operand there. -/
theorem halts_of_begins {frame : Frame} {kind : TokenKind} {precedence : Option Nat}
    {value rest : List Char} (hb : Begins .default true kind precedence value rest)
    (hk : kind.isOrdinary = true) (hv : isUpdateSpelling value = false)
    (ha : ∀ (word : Token) (operand : Node) (outer : Context), word.kind = kind →
      word.value = String.ofList value → Context.admits (frame :: outer) operand word = false) :
    Halts frame (value ++ rest) := by
  intro lexer word hf hw operand outer
  obtain ⟨word', hw', hk', hv', -⟩ := (hf.shows hb hk hv).token
  rw [hw] at hw'
  cases hw'
  exact ha word operand outer hk' hv'

/-- White space before a token makes no difference. -/
theorem Halts.skip {frame : Frame} {text : List Char} (h : Halts frame text)
    (ht : ∀ c ∈ text.head?, isSpace c = false) : Halts frame (' ' :: text) := by
  intro lexer word hf hw
  exact h lexer word (hf.skip (Or.inl rfl) ht) hw

theorem halts_mark {frame : Frame} {c : Char} {kind : TokenKind} {rest : List Char}
    (hm : (c, kind) ∈ marks) (hk : canExtend kind = false) : Halts frame (c :: rest) := by
  obtain ⟨ho, hu⟩ := marks_facts hm
  have hb := begins_mark hm true rest
  refine halts_of_begins hb ho hu fun word operand outer hw _ => ?_
  by_contra ha
  have hc := canExtend_of_admits (Bool.not_eq_false _ ▸ ha)
  rw [hw, hk] at hc
  cases hc

theorem halts_comma {frame : Frame} {rest : List Char} (hf : frame.claimsComma = true) :
    Halts frame (',' :: rest) := by
  have hm : (',', TokenKind.comma) ∈ marks := by decide
  have hb := begins_mark hm true rest
  refine halts_of_begins hb rfl rfl fun word operand outer hw _ => ?_
  unfold Context.admits
  split
  · rfl
  · rw [hw]
    rfl
  · simp [hw, Context.admitsSequence, Context.innermost, hf]

/-- A frame that claims commas halts at all closing marks. -/
theorem halts_closer {frame : Frame} {rest : List Char} (hf : frame.claimsComma = true)
    (h : Place.item.Follows rest) : Halts frame rest := by
  obtain ⟨c, hc, hr⟩ := h
  obtain ⟨rest, rfl⟩ := List.head?_eq_some_iff.mp hr
  have hmarks : (';', TokenKind.semicolon) ∈ marks ∧ (')', TokenKind.closeParen) ∈ marks ∧
      (']', TokenKind.closeBracket) ∈ marks := by
    decide
  simp only [closers, List.mem_cons, List.not_mem_nil, or_false] at hc
  rcases hc with rfl | rfl | rfl | rfl
  · exact halts_mark hmarks.1 rfl
  · exact halts_mark hmarks.2.1 rfl
  · exact halts_mark hmarks.2.2 rfl
  · exact halts_comma hf

theorem halts_colonMark {frame : Frame} {rest : List Char}
    (hf : frame ≠ .filling .expressionStatement .expression) : Halts frame (':' :: rest) := by
  have hm : (':', TokenKind.colon) ∈ marks := by decide
  have hb := begins_mark hm true rest
  refine halts_of_begins hb rfl rfl fun word operand outer hw _ => ?_
  unfold Context.admits
  split
  · rfl
  · rw [hw]
    rfl
  · simp only [hw, Bool.and_eq_false_iff]
    right
    split
    · rename_i he
      cases he
      exact absurd rfl hf
    · rfl

theorem halts_colon {frame : Frame} {rest : List Char}
    (hf : frame ≠ .filling .expressionStatement .expression) :
    Halts frame (' ' :: ':' :: ' ' :: rest) :=
  (halts_colonMark hf).skip (by rintro _ ⟨⟩; rfl)

/-- Behind the operand of a unary operator, nothing that may follow an operand continues it. -/
theorem halts_unary {rest : List Char} (h : EndsOperand rest) :
    Halts (.filling .unaryExpression .argument) rest := by
  cases h with
  | closed hc => exact halts_closer rfl ⟨_, hc, rfl⟩
  | @operator operator rest ho =>
    obtain ⟨hu, hs, hspace, -⟩ := Operator.binaries_facts ho
    have hb := begins_binary (Operator.mem_binaries ho) rest
    refine (halts_of_begins hb rfl hs fun word operand outer hw hv => ?_).skip
      (Operator.head_not_space hspace _)
    have hu' : Operator.isUpdate word.value = false := by rw [hv, String.ofList_toList, hu]
    simp [Context.admits, hw, hu', Frame.admitsBinary, Frame.isUnaryArgument]
  | @question rest =>
    have hm : ('?', TokenKind.question) ∈ marks := by decide
    have hb := begins_mark hm true (' ' :: rest)
    refine (halts_of_begins hb rfl rfl fun word operand outer hw _ => ?_).skip ?_
    · simp [Context.admits, hw, Frame.admitsConditional, Frame.isUnaryArgument]
    · rintro _ ⟨⟩
      rfl
  | colon => exact halts_colon (by decide)

end ParserM

end ScriptTree
