import ScriptTree.Proofs.FollowedParse
import ScriptTree.Proofs.ProgramShape

/-!
Operands that end with a token of their own, and what is made of text behind them.

Names, literals, templates and all that stands in brackets end with a token of their own. So do
accesses by name or key, calls and increments behind an operand. The last thing done for such an operand
is to go on from that token. A parse that does not see what is behind the text does the same there as in
the text alone. Then it stands before what is behind, where an operand has ended; only a closing brace is
not taken for the end of one.
-/

namespace ScriptTree

/-- Tokens with which an operand starts that ends with a token of its own. A word that is taken for one
of an import is none of them. -/
def TokenKind.startsClosed : TokenKind → Bool
  | .identifierName | .getKeyword | .setKeyword | .staticKeyword | .reservedWord | .numericLiteral
  | .stringLiteral | .booleanLiteral | .regexLiteral | .backtick | .thisKeyword | .functionKeyword
  | .openParen | .openBracket | .openBrace => true
  | _ => false

/-- Tokens that continue an operand up to a token of its own. -/
def Token.isPostfix (word : Token) : Bool :=
  match word.kind with
  | .dot | .openBracket | .openParen => true
  | .operator => Operator.isUpdate word.value
  | _ => false

namespace Lexer

variable {lexer : Lexer}

/-- The current token is of a kind. -/
def OnKind (lexer : Lexer) (kind : TokenKind) : Prop :=
  ∃ word, lexer.current = some word ∧ word.kind = kind

/-- The current token is the last piece of a template. -/
def OnLastPiece (lexer : Lexer) : Prop :=
  ∃ word, lexer.current = some word ∧ word.kind = .templateChunk ∧
    word.raw.toList.getLast? = some '\x60'

/-- The current token is taken for the end of an operand, and is of a kind that can be one: of a kind
that always is, an increment, or a piece of a template. -/
def EndsOperand (lexer : Lexer) : Prop :=
  lexer.afterOperand = true ∧ ∃ word, lexer.current = some word ∧
    (word.kind.closesOperand = true ∨ word.kind = .operator ∨ word.kind = .templateChunk)

theorem Marked.of_kind {kind : TokenKind} (h : lexer.Marked) (ho : lexer.OnKind kind)
    (hk : kind.closesOperand = true) : lexer.EndsOperand := by
  obtain ⟨word, hw, rfl⟩ := ho
  refine ⟨?_, word, hw, Or.inl hk⟩
  rw [h word hw, hk]
  rfl

theorem Marked.of_lastPiece (h : lexer.Marked) (ho : lexer.OnLastPiece) : lexer.EndsOperand := by
  obtain ⟨word, hw, hk, hr⟩ := ho
  exact ⟨by simp [h word hw, hk, hr], word, hw, Or.inr (Or.inr hk)⟩

/-- An increment ends an operand if it stands on the line of the operand before it. -/
theorem Marked.of_update {word : Token} (h : lexer.Marked) (hw : lexer.current = some word)
    (ho : lexer.rewound.afterOperand = true) (hn : word.afterNewline = false)
    (hu : Operator.isUpdate word.value = true) (hk : word.kind = .operator) : lexer.EndsOperand :=
  ⟨by simp [h word hw, ho, hn, hu], word, hw, Or.inr (Or.inl hk)⟩

/-- The current token ends an operand, or is a closing brace. -/
def AtEnd (lexer : Lexer) : Prop := lexer.EndsOperand ∨ lexer.OnKind .closeBrace

theorem templateBody?_stop_cases {text body stop : List Char}
    (h : Scan.templateBody? text = some (body, stop)) :
    stop = ['\x60'] ∨ stop = ['$', '\x7b'] := by
  fun_induction Scan.templateBody? text generalizing body stop with
  | case1 | case4 => cases h
  | case3 =>
    cases h
    exact .inr rfl
  | case5 =>
    cases h
    exact .inl rfl
  | case2 _ _ ih | case6 _ _ _ _ _ _ ih =>
    obtain ⟨⟨_, _⟩, hb, he⟩ := Option.map_eq_some_iff.mp h
    cases he
    exact ih hb

/-- A piece of a template ends with a backtick, unless it opens a substitution. -/
theorem onLastPiece_next {chunk : Token} (h : (lexer.next .templateText).current = some chunk)
    (hopens : Lookahead.opensSubstitution chunk.raw = false) :
    (lexer.next .templateText).OnLastPiece := by
  refine ⟨chunk, h, ?_⟩
  rw [next_eq_nextFrom, nextFrom, seek] at h
  split at h
  · cases h
  · cases hf : Rule.first? .templateText lexer.afterOperand lexer.cursor.rest with
    | none =>
      rw [hf] at h
      cases h
    | some found =>
      rw [hf] at h
      obtain ⟨rule, lexeme⟩ := found
      obtain ⟨-, ⟨-, rfl⟩ | ⟨hm, -⟩⟩ := Rule.applies_of_first hf
      · cases h
        obtain ⟨⟨body, stop⟩, hb, rfl⟩ := Option.map_eq_some_iff.mp (Rule.applies_of_first hf).1
        refine ⟨rfl, ?_⟩
        rcases templateBody?_stop_cases hb with rfl | rfl
        · simp [Lexeme.raw]
        · have hsuffix : ['$', '\x7b'].isSuffixOf (body ++ ['$', '\x7b']) = true :=
            List.isSuffixOf_iff_suffix.mpr (List.suffix_append _ _)
          simp [Lookahead.opensSubstitution, Lexeme.raw, hsuffix] at hopens
      · cases hm

end Lexer

namespace ParserM

variable {α β : Type} {tail : List Char} {starts ends ends' : Lexer → Prop}

section LastRead

/-- The last thing done in two parses was to go on from a token, without seeing what is behind the
text. -/
def LastRead (tail : List Char) (ends : Lexer → Prop) (after after' : Parser) : Prop :=
  ∃ between between', Longer tail between between' ∧ between.lexer.Clear tail .default ∧
    ends between.lexer ∧ after = { between with lexer := between.lexer.next .default } ∧
    after' = { between' with lexer := between'.lexer.next .default }

variable {after after' : Parser}

theorem LastRead.mono (h : LastRead tail ends after after')
    (he : ∀ lexer : Lexer, lexer.Marked → ends lexer → ends' lexer) :
    LastRead tail ends' after after' := by
  obtain ⟨between, between', hl, hclear, hends, rfl, rfl⟩ := h
  exact ⟨between, between', hl, hclear, he _ hl.marked hends, rfl, rfl⟩

theorem LastRead.inContext (h : LastRead tail ends after after') (context : Context) :
    LastRead tail ends { after with context } { after' with context } := by
  obtain ⟨between, between', hl, hclear, hends, rfl, rfl⟩ := h
  exact ⟨_, _, hl.inContext context, hclear, hends, rfl, rfl⟩

theorem LastRead.context (h : LastRead tail ends after after') : after'.context = after.context := by
  obtain ⟨between, between', hl, -, -, rfl, rfl⟩ := h
  exact hl.context

theorem LastRead.options (h : LastRead tail ends after after') : after'.options = after.options := by
  obtain ⟨between, between', hl, -, -, rfl, rfl⟩ := h
  exact hl.options

theorem LastRead.budget (h : LastRead tail ends after after') :
    after.budget + tail.length ≤ after'.budget := by
  obtain ⟨between, between', hl, -, -, rfl, rfl⟩ := h
  exact hl.budget

/-- The second parse is as far as the first, unless the text ends there. -/
theorem LastRead.longer (h : LastRead tail ends after after') :
    Longer tail after after' ∨ after.lexer.Ended := by
  obtain ⟨between, between', hl, hclear, -, rfl, rfl⟩ := h
  exact hl.next hclear.overlooks

theorem LastRead.rewound (h : LastRead tail Lexer.EndsOperand after after') :
    after.lexer.rewound.afterOperand = true := by
  obtain ⟨between, between', -, -, ⟨hends, -⟩, rfl, -⟩ := h
  rw [← hends]
  exact Lexer.next_rewound_afterOperand _ _

/-- Where the text ends, the first parse stands before its end, and the second before what is behind it. -/
theorem LastRead.facing (h : LastRead tail ends after after') (hx : after.lexer.exhausted = true) :
    ∃ lexer : Lexer, lexer.Faithful ∧ lexer.Marked ∧ lexer.cursor.rest = [] ∧
      lexer.source = after.lexer.source ∧ ends lexer ∧
      after.lexer.Facing .default lexer.afterOperand [] ∧
      after'.lexer.Facing .default lexer.afterOperand tail := by
  obtain ⟨between, between', hl, hclear, hends, rfl, rfl⟩ := h
  have hrest := hclear.ends hx
  refine ⟨between.lexer, hl.poised.faithful, hl.marked, hrest, (Lexer.next_source _ _).symm, hends,
    ⟨between.lexer, false, hrest, rfl, Lexer.next_eq_nextFrom _ _⟩,
    between'.lexer, false, ?_, ?_, Lexer.next_eq_nextFrom _ _⟩
  · rw [hl.lexer, Lexer.followedBy_rest, hrest, List.nil_append]
  · rw [hl.lexer, Lexer.followedBy_afterOperand]

end LastRead

/-- The first step, begun where something holds, goes on last of all from a token for which something
holds, and the second does the same with more text behind. -/
structure Closes (tail : List Char) (starts ends : Lexer → Prop) (m m' : ParserM α) : Prop where
  built : Built arrowAhead m
  follow : ∀ {parser parser' a after}, Longer tail parser parser' → starts parser.lexer →
    AllClear tail m parser → m parser = .ok a after →
      ∃ after', m' parser' = .ok a after' ∧ LastRead tail ends after after'

/-- A step that takes up what is handed over does not see what is behind the text either. -/
theorem AllClear.handedOver {parser : Parser} {frame : Frame} {operand : Node}
    {step : Node → ParserM Node} (fine : AllClear tail (handOver frame operand step) parser)
    (hlt : parser.context.length < parser.options.maxDepth) :
    AllClear tail (step operand) { parser with context := frame :: parser.context } := by
  have hput : Built arrowAhead (putOperand operand) := .plain (plain_modify fun _ => ⟨_, _, _, rfl⟩)
  have hin := (fine.later hput (run_putOperand parser operand)).inside hlt
  exact hin.later (.plain plain_takeOperand) (run_takeOperand rfl)

namespace Closes

theorem mono {m m' : ParserM α} (h : Closes tail starts ends m m')
    (he : ∀ lexer : Lexer, lexer.Marked → ends lexer → ends' lexer) :
    Closes tail starts ends' m m' where
  built := h.built
  follow hl hs fine hm := by
    obtain ⟨after', hm', hlast⟩ := h.follow hl hs fine hm
    exact ⟨after', hm', hlast.mono he⟩

theorem anywhere {m m' : ParserM α} (h : Closes tail (fun _ => True) ends m m') :
    Closes tail starts ends m m' :=
  ⟨h.built, fun hl _ fine hm => h.follow hl trivial fine hm⟩

theorem nextToken : Closes tail ends ends nextToken nextToken where
  built := built_elementary.nextToken
  follow hl hs fine hm := by
    cases hm
    exact ⟨_, rfl, _, _, hl, fine.clear (.next (by decide)), hs, rfl, rfl⟩

/-- What is made of the result does not matter. -/
theorem result {m m' : ParserM α} (h : Closes tail starts ends m m') {f : α → ParserM β}
    (hf : ∀ a, ∃ b, f a = pure b) : Closes tail starts ends (m >>= f) (m' >>= f) where
  built := .bind h.built fun a => by
    obtain ⟨b, hb⟩ := hf a
    rw [hb]
    exact built_pure b
  follow hl hs fine hm := by
    obtain ⟨a, between, hfirst, hrest⟩ := ok_of_bind_ok hm
    have hbuilt (a : α) : Built arrowAhead (f a) := by
      obtain ⟨b, hb⟩ := hf a
      rw [hb]
      exact built_pure b
    obtain ⟨after', hm', hlast⟩ := h.follow hl hs (fine.first hbuilt) hfirst
    obtain ⟨b, hb⟩ := hf a
    rw [hb] at hrest
    cases hrest
    refine ⟨after', ?_, hlast⟩
    rw [run_bind, hm']
    dsimp only
    rw [hb, run_pure]

theorem token {f f' : Token → ParserM β}
    (h : ∀ word, Closes tail (fun lexer => starts lexer ∧ lexer.current = some word) ends (f word)
      (f' word)) : Closes tail starts ends (token >>= f) (token >>= f') where
  built := .bind built_elementary.token fun word => (h word).built
  follow {parser parser' _ _} hl hs fine hm := by
    obtain ⟨word, between, htoken, hrest⟩ := ok_of_bind_ok hm
    obtain ⟨rfl, hw⟩ := of_token_ok htoken
    obtain ⟨after', hm', hlast⟩ := (h word).follow hl ⟨hs, hw⟩
      (fine.later built_elementary.token htoken) hrest
    refine ⟨after', ?_, hlast⟩
    rw [run_bind, run_token (hl.current.trans hw)]
    exact hm'

/-- A step beside another comes first, and the next one goes on from where both have come to. -/
theorem bind {m m' : ParserM α} {f f' : α → ParserM β} {mid : Lexer → Prop} (hm : Beside tail m m')
    (hmid : ∀ {parser a between}, m parser = .ok a between → mid between.lexer)
    (hf : ∀ a, Closes tail mid ends (f a) (f' a))
    (hlost : ∀ {parser a after}, mid parser.lexer → Lost parser → ∀ b, f b parser ≠ .ok a after) :
    Closes tail starts ends (m >>= f) (m' >>= f') where
  built := .bind hm.built fun a => (hf a).built
  follow hl _ fine hok := by
    obtain ⟨a, between, hfirst, hrest⟩ := ok_of_bind_ok hok
    have hfine := fine.later hm.built hfirst
    rcases hm.follow hl (fine.first fun a => (hf a).built) hfirst with
      ⟨between', hfirst', hbetween⟩ | hl
    · obtain ⟨after', hm', hlast⟩ := (hf a).follow hbetween (hmid hfirst) hfine hrest
      exact ⟨after', by rw [run_bind, hfirst']; exact hm', hlast⟩
    · exact absurd hrest (hlost (hmid hfirst) hl a)

theorem inside (frame : Frame) {m m' : ParserM α} (h : Closes tail starts ends m m')
    {parser parser' after : Parser} {a : α} (hl : Longer tail parser parser')
    (hs : starts parser.lexer)
    (fine : parser.context.length < parser.options.maxDepth →
      AllClear tail m { parser with context := frame :: parser.context })
    (hm : ParserM.within frame m parser = .ok a after) :
    ∃ after', ParserM.within frame m' parser' = .ok a after' ∧ LastRead tail ends after after' := by
  have hlt : parser.context.length < parser.options.maxDepth := by
    by_contra hfull
    rw [run_within_full (Nat.not_lt.mp hfull)] at hm
    cases hm
  have hlt' : parser'.context.length < parser'.options.maxDepth := by
    rw [hl.context, hl.options]
    exact hlt
  rw [run_within hlt] at hm
  rw [run_within hlt', hl.context]
  cases hin : m { parser with context := frame :: parser.context } with
  | error failure between =>
    rw [hin] at hm
    cases hm
  | ok b between =>
    rw [hin] at hm
    cases hm
    obtain ⟨between', hin', hlast⟩ := h.follow (hl.inContext (frame :: parser.context)) hs (fine hlt) hin
    refine ⟨{ between' with context := between'.context.tail }, by rw [hin'], ?_⟩
    rw [hlast.context]
    exact hlast.inContext between.context.tail

theorem within (frame : Frame) {m m' : ParserM α} (h : Closes tail starts ends m m') :
    Closes tail starts ends (within frame m) (within frame m') where
  built := .within frame h.built
  follow hl hs fine hm := h.inside frame hl hs fine.inside hm

/-- What is handed over does not matter: the step takes it up again. -/
theorem handOver (frame : Frame) (operand : Node) {step step' : Node → ParserM Node}
    (hbuilt : ∀ x, Built arrowAhead (step x))
    (h : Closes tail starts ends (step operand) (step' operand)) :
    Closes tail starts ends (handOver frame operand step) (handOver frame operand step') where
  built := built_compositional.handOver frame operand hbuilt
  follow {parser parser' a after} hl hs fine hm := by
    have hlt : parser.context.length < parser.options.maxDepth := by
      by_contra hfull
      rw [run_handOver_full (Nat.not_lt.mp hfull)] at hm
      cases hm
    have hlt' : parser'.context.length < parser'.options.maxDepth := by
      rw [hl.context, hl.options]
      exact hlt
    rw [run_handOver hlt] at hm
    rw [run_handOver hlt']
    exact h.inside frame hl hs (fun _ => fine.handedOver hlt) hm

theorem budget {f f' : Nat → ParserM β}
    (h : ∀ {r r'}, r ≤ r' → Closes tail starts ends (f r) (f' r')) :
    Closes tail starts ends (budget >>= f) (budget >>= f') where
  built := .bind built_elementary.budget fun _ => (h le_rfl).built
  follow hl hs fine hm :=
    (h (Nat.le_of_add_right_le hl.budget)).follow hl hs (fine.later built_elementary.budget rfl) hm

theorem of_fails {m m' : ParserM α} (hbuilt : Built arrowAhead m)
    (hfails : ∀ parser a after, m parser ≠ .ok a after) : Closes tail starts ends m m' :=
  ⟨hbuilt, fun _ _ _ hm => absurd hm (hfails _ _ _)⟩

/-- A token is read in a mode, without which the step does not succeed. -/
theorem nextTokenIn {mode : LexerMode} (hmode : mode ∈ ruleModes) {f f' : Option Token → ParserM β}
    (hbuilt : Built arrowAhead (f none)) (hnone : ∀ parser a after, f none parser ≠ .ok a after)
    (hsome : ∀ word, Closes tail (fun lexer => lexer.current = some word) ends (f (some word))
      (f' (some word))) :
    Closes tail starts ends (nextTokenIn mode >>= f) (nextTokenIn mode >>= f') where
  built := .bind (.bind (.next hmode) fun _ => built_elementary.current) fun word => by
    cases word with
    | none => exact hbuilt
    | some word => exact (hsome word).built
  follow {parser parser' a after} hl _ fine hm := by
    have hstep : ParserM.nextTokenIn mode >>= f = modifyLexer (fun lexer => lexer.next mode) >>=
        fun _ => ParserM.current >>= f := by
      rw [ParserM.nextTokenIn, bind_assoc]
    have hrest : Built arrowAhead (ParserM.current >>= f) :=
      .bind built_elementary.current fun word => by
        cases word with
        | none => exact hbuilt
        | some word => exact (hsome word).built
    rw [hstep] at fine
    have hclear : Lexer.Clear parser.lexer tail mode :=
      (fine.first fun _ => hrest).clear (.next hmode)
    have hfine : AllClear tail (f (parser.lexer.next mode).current)
        { parser with lexer := parser.lexer.next mode } :=
      (fine.later (.next hmode) (run_modifyLexer parser _)).later built_elementary.current
        (run_current _)
    change f (parser.lexer.next mode).current { parser with lexer := parser.lexer.next mode } = _ at hm
    cases hc : (parser.lexer.next mode).current with
    | none =>
      rw [hc] at hm
      exact absurd hm (hnone _ _ _)
    | some word =>
      rcases hl.next hclear.overlooks with hnext | hended
      · rw [hc] at hm hfine
        obtain ⟨after', hm', hlast⟩ := (hsome word).follow hnext hc hfine hm
        refine ⟨after', ?_, hlast⟩
        change f' (parser'.lexer.next mode).current _ = _
        rw [show (parser'.lexer.next mode).current = some word from hnext.current.trans hc]
        exact hm'
      · rw [hended.current] at hc
        cases hc

end Closes

/-- A step that goes on last of all from a closing bracket, and so cannot succeed in a parse that is
lost. The second does the same with more text behind. -/
structure Shuts (tail : List Char) (kind : TokenKind) (m m' : ParserM α) : Prop where
  closes : Closes tail (fun _ => True) (fun lexer => lexer.OnKind kind) m m'
  not_lost : ∀ {parser a after}, Lost parser → m parser ≠ .ok a after

namespace Shuts

variable {kind : TokenKind}

theorem require (hk : kind ∈ Lexer.closers.map Prod.fst) :
    Shuts tail kind (require kind) (require kind) where
  closes :=
    { built := built_elementary.require kind
      follow := fun {parser parser' _ after} hl _ fine hm => by
        rw [ParserM.require, run_bind, run_isAt] at hm ⊢
        dsimp only at hm ⊢
        rw [hl.current]
        cases hw : parser.lexer.current.any fun word => word.kind == kind with
        | false =>
          rw [hw] at hm
          cases hm
        | true =>
          rw [hw, if_pos rfl] at hm
          have hfine := AllClear.later fine (built_elementary.pair.isAt kind) (run_isAt parser kind)
          rw [hw, if_pos rfl] at hfine
          obtain ⟨word, hc, hk⟩ := (Option.any_eq_true _ _).mp hw
          exact Closes.nextToken.follow hl ⟨word, hc, eq_of_beq hk⟩ hfine hm }
  not_lost {parser a after} hlost hm := by
    rw [ParserM.require, run_bind, run_isAt] at hm
    dsimp only at hm
    split at hm
    · rename_i hw
      obtain ⟨word, hc, hkind⟩ := (Option.any_eq_true _ _).mp hw
      exact hlost.1.not_closer hlost.2 hc hk (eq_of_beq hkind)
    · cases hm

theorem after {m m' : ParserM α} {f f' : α → ParserM β} (hm : Beside tail m m')
    (hf : ∀ a, Shuts tail kind (f a) (f' a)) : Shuts tail kind (m >>= f) (m' >>= f') where
  closes := .bind hm (fun _ => trivial) (fun a => (hf a).closes) fun _ hlost a =>
    (hf a).not_lost hlost
  not_lost hlost hok := by
    obtain ⟨a, between, hfirst, hrest⟩ := ok_of_bind_ok hok
    exact (hf a).not_lost (hm.built.lost hfirst hlost) hrest

theorem result {m m' : ParserM α} (h : Shuts tail kind m m') {f : α → ParserM β}
    (hf : ∀ a, ∃ b, f a = pure b) : Shuts tail kind (m >>= f) (m' >>= f) where
  closes := h.closes.result hf
  not_lost hlost hok := by
    obtain ⟨a, between, hfirst, -⟩ := ok_of_bind_ok hok
    exact h.not_lost hlost hfirst

theorem within (frame : Frame) {m m' : ParserM α} (h : Shuts tail kind m m') :
    Shuts tail kind (within frame m) (within frame m') where
  closes := h.closes.within frame
  not_lost {parser _ _} hlost hok := by
    obtain ⟨between, hin⟩ := ok_of_within_ok hok
    have hlost' : Lost { parser with context := frame :: parser.context } := hlost
    exact h.not_lost hlost' hin

theorem budget {f f' : Nat → ParserM β} (h : ∀ {r r'}, r ≤ r' → Shuts tail kind (f r) (f' r')) :
    Shuts tail kind (budget >>= f) (budget >>= f') where
  closes := .budget fun hr => (h hr).closes
  not_lost hlost hok := (h le_rfl).not_lost hlost hok

theorem of_fails {m m' : ParserM α} (hbuilt : Built arrowAhead m)
    (hfails : ∀ parser a after, m parser ≠ .ok a after) : Shuts tail kind m m' where
  closes := .of_fails hbuilt hfails
  not_lost _ := hfails _ _ _

section Rules

variable {sub sub' : Goal → ParserM Node} {item item' : ParserM α}

theorem closedList (hk : kind ∈ Lexer.closers.map Prod.fst) (h : Beside tail item item') :
    Shuts tail kind (closedList kind item) (closedList kind item') :=
  budget fun hr => after (Beside.elementary.commaList h kind hr) fun _ =>
    (require hk).result fun _ => ⟨_, rfl⟩

variable (hsub : ∀ {frame : Frame} (goal : Goal), frame.hosts goal = true →
  Beside tail (ParserM.within frame (sub goal)) (ParserM.within frame (sub' goal)))
include hsub

theorem array : Shuts tail .closeBracket (array sub) (array sub') :=
  after Beside.elementary.nextToken fun _ =>
    (closedList (by decide) (hsub .operand rfl)).result fun _ => ⟨_, rfl⟩

theorem block : Shuts tail .closeBrace (block sub) (block sub') :=
  after (Beside.elementary.require _) fun _ => budget fun hr =>
    after (Beside.elementary.manyWhile (hsub .statement rfl) (fun _ _ _ => rfl) hr) fun _ =>
      (require (by decide)).result fun _ => ⟨_, rfl⟩

theorem parenthesized : Shuts tail .closeParen (parenthesized sub) (parenthesized sub') := by
  refine after Beside.elementary.nextToken fun _ => after (Beside.elementary.isAt _) fun found => ?_
  cases found with
  | true => exact of_fails (built_elementary.complaint (by decide)) fun _ _ _ => nofun
  | false =>
    refine (closedList (by decide) (hsub .operand rfl)).result fun expressions => ?_
    split <;> exact ⟨_, rfl⟩

theorem call (callee : Node) : Shuts tail .closeParen (call sub callee) (call sub' callee) :=
  (after (Beside.elementary.require _) fun _ =>
    closedList (by decide) (hsub .operand rfl)).result fun _ => ⟨_, rfl⟩

theorem computedAccess (owner : Node) :
    Shuts tail .closeBracket (computedAccess sub owner) (computedAccess sub' owner) :=
  after Beside.elementary.nextToken fun _ => after (hsub .operand rfl) fun _ =>
    (require (by decide)).result fun _ => ⟨_, rfl⟩

theorem functionRest (role : FunctionRole) (isAsync isGenerator : Bool) (name : Option Node) :
    Shuts tail .closeBrace (functionRest sub role isAsync isGenerator name)
      (functionRest sub' role isAsync isGenerator name) := by
  refine after (Beside.elementary.require _) fun _ => after ?_ fun _ => ?_
  · exact Beside.elementary.closedList (hsub .operand (by cases role <;> rfl)) _
  · exact ((block hsub).within _).result fun _ => ⟨_, rfl⟩

theorem function : Shuts tail .closeBrace (function sub) (function sub') := by
  rw [function_eq_declarationExpected, function_eq_declarationExpected]
  refine after Beside.token fun word => after Beside.compositional.declaration fun expected => ?_
  refine after (Beside.nextTokenIn (by decide)) fun following => after ?_ fun name => ?_
  · cases following with
    | none => exact Beside.pure none
    | some word => exact Beside.compositional.functionName word word.start word.stop
  · exact functionRest hsub _ _ _ _

theorem object : Shuts tail .closeBrace (object sub) (object sub') := by
  rw [object_eq_surroundings, object_eq_surroundings]
  refine after (Beside.contextOnly (fun context => context) fun _ => rfl) fun context => ?_
  refine after Beside.elementary.nextToken fun _ => ?_
  refine (closedList (by decide) ?_).result fun _ => ⟨_, rfl⟩
  exact Beside.within _ (Beside.compositional.objectMember hsub _)

end Rules

end Shuts

namespace Closes

theorem identifier : Closes tail starts starts identifier identifier :=
  token fun _ => (nextToken.result fun _ => ⟨_, rfl⟩).mono fun _ _ h => h.1

theorem reservedWord : Closes tail starts starts reservedWord reservedWord :=
  token fun _ => (nextToken.result fun _ => by split <;> exact ⟨_, rfl⟩).mono fun _ _ h => h.1

theorem literal : Closes tail starts starts literal literal := by
  refine token fun word => ?_
  have close (value : LiteralValue) :
      Closes tail (fun lexer => starts lexer ∧ lexer.current = some word) starts
        (do ParserM.nextToken; pure (Node.literal value word.raw))
        (do ParserM.nextToken; pure (Node.literal value word.raw)) :=
    (nextToken.result fun _ => ⟨_, rfl⟩).mono fun _ _ h => h.1
  have reject {error : Parser → SyntaxError}
      (hb : Built arrowAhead (ParserM.reject error : ParserM LiteralValue)) :
      Closes tail (fun lexer => starts lexer ∧ lexer.current = some word) starts
        (ParserM.reject error >>= fun value => do
          ParserM.nextToken; pure (Node.literal value word.raw))
        (ParserM.reject error >>= fun value => do
          ParserM.nextToken; pure (Node.literal value word.raw)) :=
    of_fails (.bind hb fun value => (close value).built) fun _ _ _ => nofun
  change (fun step : ParserM Node =>
    Closes tail (fun lexer => starts lexer ∧ lexer.current = some word) starts step step) _
  split
  · split
    · exact close _
    · exact reject (built_elementary.complaint (by decide))
  · exact close _
  · exact close _
  · exact close _
  · exact reject built_elementary.unexpected

section Rules

variable {sub sub' : Goal → ParserM Node}
  (hsub : ∀ {frame : Frame} (goal : Goal), frame.hosts goal = true →
    Beside tail (ParserM.within frame (sub goal)) (ParserM.within frame (sub' goal)))

omit hsub in
theorem onLastPiece_templateParts {rounds : Nat} {parser after : Parser} {parts : List Node × List Node}
    (hm : templateParts sub rounds parser = .ok parts after) : after.lexer.OnLastPiece := by
  induction rounds generalizing parser parts with
  | zero => cases hm
  | succ rounds ih =>
    obtain ⟨chunk, between, hnext, hrest⟩ := ok_of_bind_ok hm
    cases hnext
    dsimp only at hrest
    cases hc : (parser.lexer.next .templateText).current with
    | none =>
      rw [hc] at hrest
      cases hrest
    | some chunk =>
      rw [hc] at hrest
      dsimp only at hrest
      by_cases ho : Lookahead.opensSubstitution chunk.raw = true
      · -- behind the substitution the template goes on
        rw [if_pos ho] at hrest
        obtain ⟨_, _, -, hrest⟩ := ok_of_bind_ok hrest
        obtain ⟨_, _, -, hrest⟩ := ok_of_bind_ok hrest
        obtain ⟨found, _, -, hrest⟩ := ok_of_bind_ok hrest
        cases found with
        | false => cases hrest
        | true =>
          obtain ⟨_, _, hparts, hend⟩ := ok_of_bind_ok hrest
          cases hend
          exact ih hparts
      · rw [if_neg ho] at hrest
        cases hrest
        exact Lexer.onLastPiece_next hc (by simpa using ho)

include hsub

theorem template : Closes tail starts Lexer.OnLastPiece (template sub) (template sub') := by
  refine budget fun hr => bind (Beside.compositional.templateParts hsub hr) onLastPiece_templateParts
    (fun parts => nextToken.result fun _ => ⟨_, rfl⟩) ?_
  -- a last piece ends with a backtick, which is no part of a name
  rintro parser a after ⟨chunk, hw, -, hr⟩ hlost _ -
  obtain ⟨-, hrest⟩ := hlost.2.rewound_at hw
  have hmem : '\x60' ∈ chunk.raw.toList := List.mem_of_getLast? hr
  have hpart := hlost.1 '\x60' (.inl (by rw [hrest]; exact List.mem_append_left _ hmem))
  exact absurd hpart (by decide)

/-- An operand that starts with a token of the right kind, but for a parenthesis, goes on last of all
from a token that ends an operand, or from a brace behind what can be neither counted up nor down. -/
theorem opening {word : Token} (hw : word.kind.startsClosed = true) (hp : word.kind ≠ .openParen) :
    Closes tail (fun lexer => lexer.current = some word) Lexer.EndsOperand
        (opening arrowAhead sub word) (opening arrowAhead sub' word) ∨
      Closes tail (fun lexer => lexer.current = some word) (fun lexer => lexer.OnKind .closeBrace)
          (opening arrowAhead sub word) (opening arrowAhead sub' word) ∧
        Yields (opening arrowAhead sub word) fun node => node.isUpdatable = false := by
  -- the token itself ends the operand
  have whole {m m' : ParserM Node} (hk : word.kind.closesOperand = true)
      (h : Closes tail (fun lexer => lexer.current = some word) (fun lexer => lexer.current = some word)
        m m') :
      Closes tail (fun lexer => lexer.current = some word) Lexer.EndsOperand
        m m' :=
    h.mono fun _ hm hc => hm.of_kind ⟨word, hc, rfl⟩ hk
  unfold ParserM.opening
  generalize word.kind = kind at hw hp whole
  cases kind with
  | identifierName | getKeyword | setKeyword | staticKeyword => exact .inl (whole rfl identifier)
  | reservedWord => exact .inl (whole rfl reservedWord)
  | numericLiteral | stringLiteral | booleanLiteral | regexLiteral => exact .inl (whole rfl literal)
  | backtick => exact .inl ((template hsub).mono fun _ hm ho => hm.of_lastPiece ho)
  | thisKeyword => exact .inl (whole rfl (nextToken.result fun _ => ⟨_, rfl⟩))
  | functionKeyword =>
    refine .inr ⟨(Shuts.function hsub).closes.anywhere, ?_⟩
    refine yields_bind fun _ => yields_bind fun _ => yields_bind fun _ => yields_bind fun _ => ?_
    exact yields_bind fun _ => yields_bind fun _ => yields_bind fun _ => yields_pure rfl
  | openBracket =>
    exact .inl ((Shuts.array hsub).closes.anywhere.mono fun _ hm ho => hm.of_kind ho rfl)
  | openBrace =>
    have hshuts : Shuts tail .closeBrace
        (surroundings >>= fun context =>
          if context.expectsBlock then ParserM.block sub else ParserM.object sub)
        (surroundings >>= fun context =>
          if context.expectsBlock then ParserM.block sub' else ParserM.object sub') := by
      refine .after (.contextOnly (fun context => context) fun _ => rfl) fun context => ?_
      split
      · exact .block hsub
      · exact .object hsub
    refine .inr ⟨hshuts.closes.anywhere, yields_bind fun _ => yields_ite ?_ ?_⟩
    · exact yields_bind fun _ => yields_bind fun _ => yields_bind fun _ => yields_bind fun _ =>
        yields_pure rfl
    · exact yields_bind fun _ => yields_bind fun _ => yields_bind fun _ => yields_pure rfl
  | openParen => exact absurd rfl hp
  | _ => cases hw

omit hsub in
theorem memberAccess (owner : Node) :
    Closes tail starts Lexer.EndsOperand (memberAccess owner)
      (memberAccess owner) := by
  refine nextTokenIn (by decide) (built_elementary.complaint (by decide)) (fun _ _ _ => nofun)
    fun word => ?_
  dsimp only
  split
  · rename_i hk
    exact (nextToken.result fun _ => ⟨_, rfl⟩).mono fun _ hm hc => hm.of_kind ⟨word, hc, hk⟩ rfl
  · exact of_fails (built_elementary.complaint (by decide)) fun _ _ _ => nofun

/-- An increment is read where an operand has ended on its line. -/
theorem followingOperator {word : Token} (hk : word.kind = .operator)
    (hu : Operator.isUpdate word.value = true) (hn : word.afterNewline = false) (left : Node) :
    Closes tail (fun lexer => lexer.current = some word ∧ lexer.rewound.afterOperand = true)
      Lexer.EndsOperand (followingOperator sub left)
      (followingOperator sub' left) := by
  refine token fun found => ?_
  split
  · refine (nextToken.result fun _ => ⟨_, rfl⟩).mono fun lexer hm hs => ?_
    exact hm.of_update hs.1.1 hs.1.2 hn hu hk
  · rename_i hfound
    refine ⟨(Beside.elementary.budget fun hr =>
      (Beside.compositional.climbing hsub hr).1 left _).built, fun hl hs _ _ => ?_⟩
    obtain rfl := Option.some.inj (hs.1.1.symm.trans hs.2)
    exact absurd hu hfound

/-- What continues an operand up to a token of its own goes on last of all from a token that ends an
operand. -/
theorem extension {word : Token} (hw : word.isPostfix = true)
    (hn : word.kind = .operator → word.afterNewline = false) (operand : Node) :
    Closes tail (fun lexer => lexer.current = some word ∧
        (word.kind = .operator → lexer.rewound.afterOperand = true))
      Lexer.EndsOperand (extension sub word.kind operand)
      (extension sub' word.kind operand) := by
  unfold Token.isPostfix at hw
  unfold ParserM.extension
  cases hk : word.kind with
  | dot => exact memberAccess operand
  | openBracket =>
    exact (Shuts.computedAccess hsub operand).closes.anywhere.mono fun _ hm ho => hm.of_kind ho rfl
  | openParen =>
    exact (Shuts.call hsub operand).closes.anywhere.mono fun _ hm ho => hm.of_kind ho rfl
  | operator =>
    rw [hk] at hw
    have h := followingOperator hsub hk hw (hn hk) operand
    exact ⟨h.built, fun hl hs fine hm => h.follow hl ⟨hs.1, hs.2 rfl⟩ fine hm⟩
  | _ =>
    rw [hk] at hw
    cases hw

end Rules

end Closes

/-- An operand up to a token of its own, as it starts. A parenthesis must not be the first of an arrow
function. -/
def closedStart (sub : Goal → ParserM Node) : ParserM Node := do
  let word ← token
  if word.kind = .openParen then
    if ← arrowAhead then reject Parser.unexpected else parenthesized sub
  else if word.kind.startsClosed then opening arrowAhead sub word
  else reject Parser.unexpected

/-- Extends an operand by accesses, calls and increments for as long as the current token continues it;
nothing else may continue it. -/
def postfixes (sub : Goal → ParserM Node) (operand : Node) : Nat → ParserM Node
  | 0 => throw .outOfSteps
  | rounds + 1 => do
    match ← current with
    | some word =>
      if ← continues operand word then
        if word.isPostfix then
          let longer ← handOver (.extending operand.kind) operand (extension sub word.kind)
          postfixes sub longer rounds
        else reject Parser.unexpected
      else pure operand
    | none => pure operand

/-- An operand that ends with a token of its own. -/
def closedOperand (sub : Goal → ParserM Node) : ParserM Node := do
  let first ← closedStart sub
  postfixes sub first (← budget)

section Following

variable {room room' : Nat} {parser after : Parser}

/-- What starts such an operand starts an operand. -/
theorem run_fresh_of_closedStart {sub : Goal → ParserM Node} {first : Node}
    (hm : closedStart sub parser = .ok first after) :
    fresh arrowAhead sub parser = .ok first after := by
  obtain ⟨word, between, htoken, hrest⟩ := ok_of_bind_ok hm
  obtain ⟨rfl, hw⟩ := of_token_ok htoken
  rw [fresh, run_bind, htoken]
  dsimp only
  by_cases hp : word.kind = .openParen
  · rw [if_pos hp] at hrest
    obtain ⟨opens, between, harrow, hrest⟩ := ok_of_bind_ok hrest
    cases opens with
    | true => cases hrest
    | false =>
      rw [opening, hp]
      simp only [openingParen, run_bind, harrow, Bool.false_eq_true, if_false]
      exact hrest
  · rw [if_neg hp] at hrest
    split at hrest
    · exact hrest
    · cases hrest

/-- What extends such an operand extends an operand. -/
theorem run_extend_of_postfixes {sub : Goal → ParserM Node} {rounds : Nat} {operand node : Node}
    (hm : postfixes sub operand rounds parser = .ok node after) :
    extend arrowAhead sub operand rounds parser = .ok node after := by
  induction rounds generalizing operand parser with
  | zero => cases hm
  | succ rounds ih =>
    rw [extend_succ]
    simp only [postfixes, run_bind, run_current] at hm ⊢
    cases hc : parser.lexer.current with
    | none =>
      rw [hc] at hm
      exact hm
    | some word =>
      rw [hc] at hm
      simp only [run_bind, run_continues] at hm ⊢
      split at hm
      · rename_i hgo
        rw [if_pos hgo]
        split at hm
        · obtain ⟨longer, between, hstep, hrest⟩ := ok_of_bind_ok hm
          rw [run_bind, hstep]
          exact ih hrest
        · cases hm
      · rename_i hgo
        rw [if_neg hgo]
        exact hm

/-- An operand that ends with a token of its own is an operand. -/
theorem run_freshOperand_of_closedOperand {sub : Goal → ParserM Node} {node : Node}
    (hm : closedOperand sub parser = .ok node after) :
    freshOperand arrowAhead sub parser = .ok node after := by
  obtain ⟨first, between, hstart, hrest⟩ := ok_of_bind_ok hm
  rw [freshOperand, run_bind, run_fresh_of_closedStart hstart]
  exact run_extend_of_postfixes hrest

/-- What continues an operand as an increment follows it on its line, and it can be counted. -/
theorem admits_update {context : Context} {operand : Node} {word : Token}
    (h : context.admits operand word = true) (hw : word.isPostfix = true)
    (hk : word.kind = .operator) : operand.isUpdatable = true ∧ word.afterNewline = false := by
  have hu : Operator.isUpdate word.value = true := by simpa [Token.isPostfix, hk] using hw
  unfold Context.admits at h
  split at h
  · cases h
  · rw [hk] at h
    cases h
  · rw [hk] at h
    simpa [hu] using h

theorem built_fresh (room : Nat) : Built arrowAhead (fresh arrowAhead (goal arrowAhead room)) :=
  .bind built_elementary.token fun word => built_compositional.opening (built_sub room) .asks word

theorem built_extend (rounds : Nat) (operand : Node) :
    Built arrowAhead (extend arrowAhead (goal arrowAhead room) operand rounds) :=
  built_compositional.extend (built_sub room) operand rounds

/-- While an operand is extended by the current token, no moment sees what is behind the text. -/
theorem AllClear.extension {rounds : Nat} {operand : Node} {word : Token}
    (fine : AllClear tail (extend arrowAhead (goal arrowAhead room) operand (rounds + 1)) parser)
    (hc : parser.lexer.current = some word)
    (hgo : (!parser.context.isComplete operand && parser.context.admits operand word) = true) :
    AllClear tail
      (handOver (.extending operand.kind) operand (ParserM.extension (goal arrowAhead room) word.kind) >>=
        fun longer => extend arrowAhead (goal arrowAhead room) longer rounds) parser := by
  rw [extend_succ] at fine
  have hfine := AllClear.later fine built_elementary.current (run_current parser)
  rw [hc] at hfine
  have hfine' := AllClear.later hfine (built_elementary.continues operand word)
    (run_continues parser operand word)
  rwa [if_pos hgo] at hfine'

variable (htail : Lookahead.Quiet tail) (hroom : room ≤ room')
include htail hroom

theorem beside_sub {frame : Frame} (entry : Goal) (h : frame.hosts entry = true) :
    Beside tail (within frame (goal arrowAhead room entry))
      (within frame (goal arrowAhead room' entry)) :=
  Beside.goal htail hroom entry (Frame.isEnclosing_of_hosts h)

/-- Parentheses that open no arrow function are read alike with more text behind. -/
theorem openingParen_followedBy {parser' : Parser} {first : Node} (hl : Longer tail parser parser')
    (fine : AllClear tail (openingParen arrowAhead (goal arrowAhead room)) parser)
    (hm : (arrowAhead >>= fun opens =>
      if opens then reject Parser.unexpected else parenthesized (goal arrowAhead room)) parser =
        .ok first after) :
    ∃ after', openingParen arrowAhead (goal arrowAhead room') parser' = .ok first after' ∧
      LastRead tail Lexer.EndsOperand after after' := by
  obtain ⟨opens, between, harrow, hrest⟩ := ok_of_bind_ok hm
  cases opens with
  | true => cases hrest
  | false =>
    have hbuilt (opens : Bool) : Built arrowAhead
        (if opens then arrowFunction (goal arrowAhead room) else parenthesized (goal arrowAhead room)) := by
      have hinner {frame : Frame} (entry : Goal) (h : frame.hosts entry = true) :
          Built arrowAhead (within frame (goal arrowAhead room entry)) :=
        built_sub room entry (Frame.isEnclosing_of_hosts h)
      split
      · exact @PairCompositional.arrowFunction _ built_compositional.pair _ (goal arrowAhead room) hinner
      · exact @PairCompositional.parenthesized _ built_compositional.pair _ (goal arrowAhead room) hinner
    have hsub {frame : Frame} (entry : Goal) (hh : frame.hosts entry = true) :=
      beside_sub htail hroom entry hh
    have hshuts : Shuts tail .closeParen (parenthesized (goal arrowAhead room))
        (parenthesized (goal arrowAhead room')) := .parenthesized hsub
    have hfine := AllClear.later fine .asks harrow
    rcases (Beside.arrowAhead htail).follow hl (AllClear.first fine hbuilt) harrow with
      ⟨between', harrow', hbetween⟩ | hlost
    · obtain ⟨after', hx, hlast⟩ := hshuts.closes.follow hbetween trivial hfine hrest
      refine ⟨after', ?_, hlast.mono fun _ hm ho => hm.of_kind ho rfl⟩
      simp only [openingParen, run_bind, harrow', Bool.false_eq_true, if_false]
      exact hx
    · exact absurd hrest (hshuts.not_lost hlost)

/-- An operand that ends with a token of its own is started alike with more text behind. -/
theorem fresh_of_closedStart {parser' : Parser} {first : Node} (hl : Longer tail parser parser')
    (fine : AllClear tail (fresh arrowAhead (goal arrowAhead room)) parser)
    (hm : closedStart (goal arrowAhead room) parser = .ok first after) :
    ∃ after', fresh arrowAhead (goal arrowAhead room') parser' = .ok first after' ∧
      LastRead tail Lexer.AtEnd after after' ∧
      (first.isUpdatable = true → after.lexer.rewound.afterOperand = true) := by
  obtain ⟨word, between, htoken, hrest⟩ := ok_of_bind_ok hm
  obtain ⟨rfl, hw⟩ := of_token_ok htoken
  have hsub {frame : Frame} (entry : Goal) (hh : frame.hosts entry = true) :=
    beside_sub htail hroom entry hh
  have hfine : AllClear tail (opening arrowAhead (goal arrowAhead room) word) _ :=
    AllClear.later fine built_elementary.token htoken
  rw [fresh, run_bind, run_token (hl.current.trans hw)]
  dsimp only
  by_cases hp : word.kind = .openParen
  · rw [if_pos hp] at hrest
    rw [opening, hp] at hfine
    obtain ⟨after', hx, hlast⟩ := openingParen_followedBy htail hroom hl hfine hrest
    rw [opening, hp]
    exact ⟨after', hx, hlast.mono fun _ _ => .inl, fun _ => hlast.rewound⟩
  · rw [if_neg hp] at hrest
    split at hrest
    · rename_i hstart
      rcases Closes.opening hsub hstart hp with hclosed | ⟨hclosed, hnode⟩
      · obtain ⟨after', hx, hlast⟩ := hclosed.follow hl hw hfine hrest
        exact ⟨after', hx, hlast.mono fun _ _ => .inl, fun _ => hlast.rewound⟩
      · obtain ⟨after', hx, hlast⟩ := hclosed.follow hl hw hfine hrest
        refine ⟨after', hx, hlast.mono fun _ _ => .inr, fun hu => ?_⟩
        rw [hnode _ _ _ hrest] at hu
        cases hu
    · cases hrest

/-- The operand is extended alike, step by step, until the text ends. With more text behind it is then
still to be extended by that. -/
theorem extend_of_postfixes {rounds rounds' extra : Nat} {operand node : Node} {parser' : Parser}
    (hl : LastRead tail Lexer.AtEnd parser parser')
    (hbit : operand.isUpdatable = true → parser.lexer.rewound.afterOperand = true)
    (hr : rounds + extra ≤ rounds')
    (fine : AllClear tail (extend arrowAhead (goal arrowAhead room) operand rounds) parser)
    (hm : postfixes (goal arrowAhead room) operand rounds parser = .ok node after)
    (hx : after.lexer.exhausted = true) :
    ∃ left after', extend arrowAhead (goal arrowAhead room') operand rounds' parser' =
        extend arrowAhead (goal arrowAhead room') node left after' ∧ extra < left ∧
      LastRead tail Lexer.AtEnd after after' := by
  induction rounds generalizing operand rounds' parser parser' with
  | zero => cases hm
  | succ rounds ih =>
    cases hc : parser.lexer.current with
    | none =>
      have hstop : postfixes (goal arrowAhead room) operand (rounds + 1) parser =
          .ok operand parser := by
        simp only [postfixes, run_bind, run_current, hc, run_pure]
      rw [hstop] at hm
      cases hm
      exact ⟨rounds', parser', rfl, by omega, hl⟩
    | some word =>
      have hlonger : Longer tail parser parser' := hl.longer.resolve_right fun hended => by
        rw [hended.current] at hc
        cases hc
      have hsub {frame : Frame} (entry : Goal) (hh : frame.hosts entry = true) :=
        beside_sub htail hroom entry hh
      obtain ⟨rounds', rfl⟩ : ∃ n, rounds' = n + 1 := ⟨rounds' - 1, by omega⟩
      by_cases hgo : (!parser.context.isComplete operand && parser.context.admits operand word) = true
      · simp only [postfixes, run_bind, run_current, hc, run_continues, hgo, if_true] at hm
        by_cases hw : word.isPostfix = true
        · have hfine := fine.extension hc hgo
          rw [if_pos hw] at hm
          obtain ⟨longer, between, hstep, hrest⟩ := ok_of_bind_ok hm
          have hadmits := (Bool.and_eq_true_iff.mp hgo).2
          have hbuilt (x : Node) : Built arrowAhead (extension (goal arrowAhead room) word.kind x) :=
            built_compositional.extension (built_sub room) word.kind x
          have hclosed := (Closes.extension hsub hw (fun hk => (admits_update hadmits hw hk).2)
            operand).handOver (.extending operand.kind) operand hbuilt
          obtain ⟨between', hstep', hlast⟩ := hclosed.follow hlonger
            ⟨hc, fun hk => hbit (admits_update hadmits hw hk).1⟩
            (hfine.first fun longer => built_extend rounds longer) hstep
          obtain ⟨left, after', hx', hleft, hlast'⟩ := ih (hlast.mono fun _ _ => .inl)
            (fun _ => hlast.rewound) (show rounds + extra ≤ rounds' by omega)
            (hfine.later hclosed.built hstep) hrest
          refine ⟨left, after', ?_, hleft, hlast'⟩
          rw [← hx', extend_succ]
          simp only [run_bind, run_current, hlonger.current, hc, run_continues, hlonger.context, hgo,
            if_true, hstep']
        · rw [if_neg hw] at hm
          cases hm
      · -- a token that does not continue the operand is not the end of the text
        simp only [postfixes, run_bind, run_current, hc, run_continues, if_neg hgo, run_pure] at hm
        cases hm
        rw [(hlonger.poised.faithful.ended hx).1] at hc
        cases hc

/-- An operand that ends with a token of its own, and with it the text, is read alike with more text
behind. That is still to extend it then. -/
theorem freshOperand_of_closedOperand {node : Node} {parser' : Parser} (hl : Longer tail parser parser')
    (fine : AllClear tail (freshOperand arrowAhead (goal arrowAhead room)) parser)
    (hm : closedOperand (goal arrowAhead room) parser = .ok node after)
    (hx : after.lexer.exhausted = true) :
    ∃ left after', freshOperand arrowAhead (goal arrowAhead room') parser' =
        extend arrowAhead (goal arrowAhead room') node left after' ∧ tail.length < left ∧
      LastRead tail Lexer.AtEnd after after' := by
  obtain ⟨first, between, hstart, hrest⟩ := ok_of_bind_ok hm
  have hbuilt (first : Node) : Built arrowAhead
      (budget >>= fun rounds => extend arrowAhead (goal arrowAhead room) first rounds) :=
    .bind built_elementary.budget fun rounds => built_extend rounds first
  have hfresh := run_fresh_of_closedStart hstart
  have hfine := AllClear.later fine (built_fresh room) hfresh
  obtain ⟨between', hfresh', hlast, hbit⟩ := fresh_of_closedStart htail hroom hl
    (AllClear.first fine hbuilt) hstart
  obtain ⟨left, after', hx', hleft, hlast'⟩ := extend_of_postfixes htail hroom hlast hbit hlast.budget
    (hfine.later built_elementary.budget (run_budget between)) hrest hx
  refine ⟨left, after', ?_, hleft, hlast'⟩
  rw [freshOperand, run_bind, hfresh']
  exact hx'

end Following

end ParserM

end ScriptTree
