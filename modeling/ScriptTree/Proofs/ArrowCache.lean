import ScriptTree.Proofs.ArrowAnswers
import ScriptTree.Proofs.NestedPasses
import ScriptTree.Proofs.SideBySide

/-!
Answers about arrows that were kept against answers that are found out anew.

A parse that keeps the answers of its passes goes side by side with one that starts a new pass at
every opening parenthesis, as long as in the passes made no substitution ends while a parenthesis
that was opened in it is open. A pass reads a slash behind a closing parenthesis as a division, so it
can lose count of braces where the parse does not, and then the two differ.
-/

namespace ScriptTree

namespace ParserM

/-- Whether, in the pass that would start from the current token, no substitution ends while a
parenthesis that was opened in it is open. Where an answer is known there is no pass. -/
def AsksNested (parser : Parser) : Prop :=
  ∀ word, parser.lexer.current = some word → word.kind = .openParen →
    parser.arrowAnswers.lookup word.start = none →
      Lookahead.nested parser.budget (.ofParen word.start parser.arrowAnswers) [] parser.lexer = true

section AtParen

variable {α : Type} {opensArrow : ParserM Bool}

theorem built_atParen : Built opensArrow (atParen opensArrow) := by
  refine .bind built_elementary.current fun word => ?_
  split
  · exact .asks
  · exact built_pure false

theorem Built.of_atParen {m : ParserM α} (h : Built (atParen opensArrow) m) : Built opensArrow m := by
  induction h with
  | plain h => exact .plain h
  | next h => exact .next h
  | reread h => exact .reread h
  | modifier sameLine => exact .modifier sameLine
  | asks => exact built_atParen
  | within frame _ ih => exact .within frame ih
  | bind _ _ ihm ihf => exact .bind ihm ihf

/-- Only at an opening parenthesis there is a moment at which a parse asks for an arrow. -/
theorem Makes.of_atParen {m : ParserM α} {parser between : Parser} {moment : Moment}
    (h : Makes (atParen opensArrow) m parser moment between) :
    Makes opensArrow m parser moment between ∨ moment = .asks ∧
      ∀ word, between.lexer.current = some word → word.kind ≠ .openParen := by
  induction h with
  | begins hb => exact .inl (.begins hb.of_atParen)
  | next hm => exact .inl (.next hm)
  | reread hm => exact .inl (.reread hm)
  | modifier => exact .inl .modifier
  | notModifier hm => exact .inl (.notModifier hm)
  | @asks parser =>
    by_cases hp : (parser.lexer.current.any fun word => word.kind == .openParen) = true
    · left
      refine .later built_elementary.current (run_current parser) ?_
      rw [if_pos hp]
      exact .asks
    · refine .inr ⟨rfl, fun word hc hk => hp ?_⟩
      rw [hc]
      exact beq_iff_eq.mpr hk
  | enters hb => exact .inl (.enters hb.of_atParen)
  | inside hlt _ ih => exact ih.imp_left (.inside hlt)
  | first _ hf ih => exact ih.imp_left fun hmakes => .first hmakes fun a => (hf a).of_atParen
  | later hb hok _ ih => exact ih.imp_left (.later hb.of_atParen hok)

end AtParen

section Answers

variable {parser : Parser} {word : Token}

/-- All answers kept so far are those of passes from the parentheses themselves. -/
structure KeptFresh (parser : Parser) : Prop extends Poised parser where
  fresh : ∀ entry ∈ parser.arrowAnswers, Lookahead.Fresh parser.lexer.source entry

/-- A nested pass adds answers only that passes from the parentheses themselves give. -/
theorem KeptFresh.lookAhead (h : KeptFresh parser) (hc : parser.lexer.current = some word)
    (hk : word.kind = .openParen)
    (hn : Lookahead.nested parser.budget (.ofParen word.start parser.arrowAnswers) [] parser.lexer =
      true) : ∀ entry ∈ lookAhead parser word.start parser.arrowAnswers,
        Lookahead.Fresh parser.lexer.source entry := by
  rintro ⟨paren, answer⟩ hin
  have hunder := h.underway hc
  have htracked : Lookahead.Tracked [] (.ofParen word.start parser.arrowAnswers) parser.lexer :=
    ⟨rfl, nofun⟩
  rcases Lookahead.answers_fresh parser.budget hunder htracked hn hin with
    (hold | hclosed | hopen) | hfresh
  · exact h.fresh _ hold
  · cases hclosed
  · -- the parenthesis that was asked about: the passes only differ in what was known before
    obtain rfl : paren = word.start := List.mem_singleton.mp hopen
    have hinside : Lookahead.Inside [] [] [] (.ofParen word.start [])
        (.ofParen word.start parser.arrowAnswers) [] :=
      ⟨rfl, rfl, rfl, List.pairwise_singleton _ _, 0, [], rfl, rfl, rfl, rfl, nofun⟩
    have hoffset : word.start < parser.lexer.cursor.offset :=
      hunder.opened word.start (List.mem_singleton_self word.start)
    rcases hinside.answer parser.budget (Lookahead.opened_ofParen _ _) nofun hn nofun hoffset hin
      with hold | hown
    · exact h.fresh _ hold
    · exact Lookahead.fresh_of_mem h.faithful hc hk (h.ended word hc hk) h.enough hown
  · exact hfresh

/-- A new pass gives the answer that is fresh. -/
theorem Poised.anew (h : Poised parser) (hc : parser.lexer.current = some word)
    (hk : word.kind = .openParen) {answer : Bool}
    (hfresh : Lookahead.Fresh parser.lexer.source (word.start, answer)) :
    ((ParserM.lookAhead parser word.start []).lookup word.start).getD false = answer := by
  have hin : (word.start, answer) ∈ ParserM.lookAhead parser word.start [] :=
    hfresh parser.lexer word h.faithful rfl hc hk rfl (h.ended word hc hk) parser.budget h.enough
  have hoffset : word.start < parser.lexer.cursor.offset :=
    (h.underway hc).opened word.start (List.mem_singleton_self word.start)
  cases hl : (ParserM.lookAhead parser word.start []).lookup word.start with
  | none =>
    have hno := List.lookup_eq_none_iff.mp hl _ hin
    simp at hno
  | some answer' =>
    exact Lookahead.answer_unique parser.budget (.inl (Lookahead.opened_ofParen word.start []))
      nofun hoffset (mem_of_lookup hl) hin

end Answers

section Text

theorem nested_alike {lexer lexer' : Lexer} (h : lexer.Alike lexer') (rounds : Nat)
    (ahead : Lookahead) (starts : List Nat) :
    Lookahead.nested rounds ahead starts lexer' = Lookahead.nested rounds ahead starts lexer := by
  induction rounds generalizing ahead starts lexer lexer' with
  | zero => rfl
  | succ rounds ih =>
    obtain ⟨hnext, hcurrent⟩ := h.next ahead.mode
    simp only [Lookahead.nested, hcurrent, ih hnext]

theorem follow_decided (ahead : Lookahead) (decided : List (Nat × Bool)) (token : Token) :
    { ahead with decided }.follow token = { ahead.follow token with decided } := by
  unfold Lookahead.follow
  split <;> first | rfl | (dsimp only; split <;> rfl)

/-- It does not matter what is known at the beginning of a pass. -/
theorem nested_decided (rounds : Nat) (ahead : Lookahead) (decided : List (Nat × Bool))
    (starts : List Nat) (lexer : Lexer) : Lookahead.nested rounds { ahead with decided } starts lexer =
      Lookahead.nested rounds ahead starts lexer := by
  induction rounds generalizing ahead decided starts lexer with
  | zero => rfl
  | succ rounds ih =>
    rw [Lookahead.nested, Lookahead.nested]
    dsimp only
    cases (lexer.next ahead.mode).current with
    | none => rfl
    | some token =>
      have hcleared : { ahead with decided }.decideClosed token = { ahead.decideClosed token with
          decided := (ahead.closed.toList.map fun offset => (offset, token.kind == TokenKind.arrow)) ++
            decided } := rfl
      dsimp only
      rw [hcleared, follow_decided, ih]
      rfl

/-- Whether the passes from all parentheses of a text are nested. -/
def nestedEverywhere (text : List Char) : Bool :=
  (List.range text.length).all fun before => match text.drop before with
    | '(' :: rest => Lookahead.nested (2 * text.length + 4)
        (.ofParen (byteLength (text.take before)) []) []
        { Lexer.ofText text with cursor := ⟨byteLength (text.take before) + 1, rest⟩ }
    | _ => true

/-- The pass from the current token is one of those from the parentheses of the text. -/
theorem asksNested_of_nestedEverywhere {source : String} {options : ParserOptions}
    {parser : Parser} (hall : nestedEverywhere source.toList = true)
    (h : StaysPoised (.ofText source options) parser) : AsksNested parser := by
  intro word hc hk _
  have hp := h.poised (Parser.ofText_poised source options)
  obtain ⟨front, hsplit, hoffset⟩ := hp.faithful.splits_at_paren hc hk
  have hsource : source.toList = front ++ '(' :: parser.lexer.cursor.rest :=
    h.source.symm.trans hsplit
  have hin : front.length ∈ List.range source.toList.length := by
    rw [List.mem_range, hsource, List.length_append, List.length_cons]
    omega
  have hnested := List.all_eq_true.mp hall front.length hin
  rw [hsource, List.drop_left, List.take_left, hoffset, ← hsource] at hnested
  have hcursor : parser.lexer.cursor.offset = word.start + 1 :=
    hp.faithful.behind_paren hc hk
  have halike : Lexer.Alike { Lexer.ofText source.toList with
      cursor := ⟨word.start + 1, parser.lexer.cursor.rest⟩ } parser.lexer := by
    refine ⟨?_, hp.ended word hc hk⟩
    rw [← hcursor]
  rw [h.budget, nested_alike halike]
  exact (nested_decided _ (.ofParen word.start []) _ _ _).trans hnested

end Text

/-- Two states that agree but for the answers kept and what was reported. The second keeps none. -/
def Cached (parser parser' : Parser) : Prop :=
  KeptFresh parser ∧ ∃ diagnostics, parser' = { parser with arrowAnswers := [], diagnostics }

theorem cached_simulation : Simulation Cached (· = .outOfSteps)
    (fun moment parser => moment = .asks → AsksNested parser) where
  beside := by
    rintro parser _ ⟨-, diagnostics, rfl⟩
    refine ⟨rfl, rfl, rfl, rfl, le_rfl, le_rfl, rfl, ?_⟩
    cases hc : parser.lexer.current with
    | none => exact .inl ⟨rfl, rfl⟩
    | some word => exact .inr ⟨word, word.start, word.stop, rfl, rfl⟩
  outOfSteps := rfl
  errors := by
    rintro parser _ ⟨-, diagnostics, rfl⟩
    exact .inr rfl
  full := by
    rintro parser _ ⟨-, diagnostics, rfl⟩
    exact .inr rfl
  buffers := by
    rintro parser _ operands pendingParams diagnostics diagnostics' ⟨h, _, rfl⟩
    exact ⟨⟨⟨h.faithful, h.budget, h.ended⟩, h.fresh⟩, diagnostics', rfl⟩
  enter := by
    rintro parser _ frame ⟨h, diagnostics, rfl⟩
    exact ⟨⟨⟨h.faithful, h.budget, h.ended⟩, h.fresh⟩, diagnostics, rfl⟩
  leave := by
    rintro parser _ ⟨h, diagnostics, rfl⟩
    exact ⟨⟨⟨h.faithful, h.budget, h.ended⟩, h.fresh⟩, diagnostics, rfl⟩
  next := by
    rintro parser _ mode - ⟨h, diagnostics, rfl⟩ -
    refine ⟨⟨h.toPoised.next mode, ?_⟩, diagnostics, rfl⟩
    rw [Lexer.next_source]
    exact h.fresh
  reread := by
    rintro parser _ mode - ⟨h, diagnostics, rfl⟩ -
    refine ⟨⟨h.toPoised.reread mode, ?_⟩, diagnostics, rfl⟩
    rw [Lexer.reread_source]
    exact h.fresh

/-- At an opening parenthesis the answer that was kept is the one that is found out anew. -/
theorem atParen_cached : Simulated (atParen arrowAhead) Cached (· = .outOfSteps)
    (fun moment parser => moment = .asks → AsksNested parser) (atParen arrowAhead)
      (atParen arrowAheadAnew) where
  built := .asks
  agree := by
    rintro parser _ ⟨h, diagnostics, rfl⟩ fine
    have hn : AsksNested parser := fine .asks rfl
    simp only [atParen, run_bind, run_current]
    by_cases hp : (parser.lexer.current.any fun word => word.kind == .openParen) = true
    · obtain ⟨word, hc, hword⟩ := (Option.any_eq_true _ _).mp hp
      have hk : word.kind = .openParen := beq_iff_eq.mp hword
      obtain ⟨answer, answers, hasked, hfresh, hkept⟩ := run_arrowAhead_answers hc h.fresh
        fun hl => h.lookAhead hc hk (hn word hc hk hl)
      have hanew : arrowAheadAnew { parser with arrowAnswers := [], diagnostics } =
          .ok answer { parser with arrowAnswers := [], diagnostics } := by
        simp only [arrowAheadAnew, run_bind, run_get, hc, run_pure]
        exact congrArg (EStateM.Result.ok · _) (h.toPoised.anew hc hk hfresh)
      simp only [if_pos hp, hasked, hanew]
      exact ⟨rfl, ⟨⟨h.faithful, h.budget, h.ended⟩, hkept⟩, diagnostics, rfl⟩
    · simp only [if_neg hp]
      exact ⟨rfl, h, diagnostics, rfl⟩

end ParserM

namespace Parser

open ParserM

/-- What a program comes to if every opening parenthesis is decided by a pass of its own. -/
def runAnew (parser : Parser) : Except Failure Node := resultOf (program arrowAheadAnew parser)

/-- Keeping the answers about arrows makes no difference to what a text comes to, be it a tree or an
error, as long as in no pass that the parse makes a substitution ends while a parenthesis that was
opened in it is open. -/
theorem run_eq_runAnew (source : String) (options : ParserOptions)
    (h : ∀ parser, Makes arrowAhead (program arrowAhead) (ofText source options) .asks parser →
      AsksNested parser) :
    (ofText source options).run.1 = (ofText source options).runAnew := by
  have hrelated : Cached (ofText source options) (ofText source options) :=
    ⟨⟨ofText_poised source options, nofun⟩, .empty, rfl⟩
  have hfine : AllFine (atParen arrowAhead) (fun moment parser => moment = .asks → AsksNested parser)
      (program (atParen arrowAhead)) (ofText source options) := by
    rintro moment between hmakes rfl
    rcases hmakes.of_atParen with hmakes | ⟨-, hno⟩
    · rw [program_atParen] at hmakes
      exact h between hmakes
    · exact fun word hc hk => absurd hk (hno word hc)
  have hagree := ((Simulation.program cached_simulation atParen_cached).agree hrelated hfine).same
  rw [program_atParen, program_atParen, ← run_fst] at hagree
  rcases hagree with hsame | ⟨failure, hfailure, rfl⟩
  · exact hsame.symm
  · exact absurd hfailure (run_ne_outOfSteps (ofText_ready source options))

/-- In a template with a parenthesis in its substitution the answer is found out on the pass from the
outer parenthesis, and it is the one that a pass of its own gives. -/
theorem run_eq_runAnew_template :
    (∀ parser, Makes arrowAhead (program arrowAhead) (ofText "(\x60$\x7b(a)\x7d\x60)" {}) .asks
      parser → AsksNested parser) ∧
    (ofText "(\x60$\x7b(a)\x7d\x60)" {}).run.1 = (ofText "(\x60$\x7b(a)\x7d\x60)" {}).runAnew := by
  have hnested : ∀ parser, Makes arrowAhead (program arrowAhead)
      (ofText "(\x60$\x7b(a)\x7d\x60)" {}) .asks parser → AsksNested parser := by
    intro parser hmakes
    have hall : nestedEverywhere "(\x60$\x7b(a)\x7d\x60)".toList = true := by decide +kernel
    exact asksNested_of_nestedEverywhere hall
      (hmakes.keeping staysPoised_lasting staysPoised_enter staysPoised_arrowAhead)
  exact ⟨hnested, run_eq_runAnew _ _ hnested⟩

/-- A regular expression behind the head of a conditional, which a pass reads as two divisions, hides
the end of a brace; so the substitution seems to end while its parenthesis is open. -/
theorem run_ne_runAnew_slash :
    (ofText "(\x60$\x7b(x=function()\x7bif(a)/\x7d/\x7d)=>1\x7d\x60)" {}).run.1 ≠
      (ofText "(\x60$\x7b(x=function()\x7bif(a)/\x7d/\x7d)=>1\x7d\x60)" {}).runAnew := by
  have hkept : (ofText "(\x60$\x7b(x=function()\x7bif(a)/\x7d/\x7d)=>1\x7d\x60)"
      {}).run.1.isOk = false := by decide +kernel
  have hanew : (ofText "(\x60$\x7b(x=function()\x7bif(a)/\x7d/\x7d)=>1\x7d\x60)"
      {}).runAnew.isOk = true := by decide +kernel
  intro hsame
  rw [hsame, hanew] at hkept
  cases hkept

end Parser

end ScriptTree
