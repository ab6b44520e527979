import ScriptTree.Proofs.ReadingAhead

/-!
Reading ahead follows the brackets.

Over a stretch of text whose brackets match, reading ahead comes back to where it was: the same
parentheses, braces and templates are open behind it as before, and nothing has been decided but
what was opened inside.
-/

namespace ScriptTree

/-- What is known behind a stretch of text. -/
def Reading.behind : Reading → Reading
  | .tokens _ => .tokens none
  | .template => .tokens (some true)

namespace Lexer

/-- In front of a substitution no operand has ended, as far as the template text tells. -/
theorem chunkClosesOperand_of_endsOperand {body : List Char} {ended : Bool}
    (h : ended ∈ TokenKind.openBrace.endsOperand? none body false) (afterOperand : Bool) :
    tokenClosesOperand afterOperand .templateChunk ⟨[], body, ['$', '\x7b']⟩ false = ended := by
  have hbrace := @tokenClosesOperand_of_endsOperand none .openBrace ⟨[], body, ['$', '\x7b']⟩
    false ended afterOperand h nofun
  rw [← hbrace]
  simp [tokenClosesOperand, TokenKind.closesOperand, Lexeme.raw]

end Lexer

namespace Lookahead

namespace Position

variable {here there last : Position}

/-- Reading on from here leads there, and decides nothing about parentheses before `low` but the one
that was closed just before. -/
structure Goes (low : Nat) (here there : Position) : Prop where
  outcome : here.outcome = there.outcome
  offset : here.lexer.cursor.offset ≤ there.lexer.cursor.offset
  decided : ∀ entry ∈ there.ahead.decided,
    entry ∈ here.ahead.decided ∨ here.ahead.closed = some entry.1 ∨ low ≤ entry.1
  closed : ∀ paren, there.ahead.closed = some paren →
    here.ahead.closed = some paren ∨ low ≤ paren

/-- The same brackets are open. -/
structure Level (here there : Position) : Prop where
  openParens : there.ahead.openParens = here.ahead.openParens
  braces : there.ahead.braces = here.ahead.braces
  substitutions : there.ahead.substitutions = here.ahead.substitutions

theorem Goes.refl (low : Nat) (here : Position) : Goes low here here :=
  ⟨rfl, le_refl _, fun _ h => Or.inl h, fun _ h => Or.inl h⟩

theorem Goes.trans {low : Nat} (h : Goes low here there) (h' : Goes low there last) :
    Goes low here last := by
  refine ⟨h.outcome.trans h'.outcome, h.offset.trans h'.offset, ?_, ?_⟩
  · intro entry hin
    rcases h'.decided entry hin with hin | hclosed | hlow
    · exact h.decided entry hin
    · exact Or.inr (h.closed entry.1 hclosed)
    · exact Or.inr (Or.inr hlow)
  · intro paren hclosed
    rcases h'.closed paren hclosed with hclosed | hlow
    · exact h.closed paren hclosed
    · exact Or.inr hlow

theorem Level.refl (here : Position) : Level here here := ⟨rfl, rfl, rfl⟩

theorem Level.trans (h : Level here there) (h' : Level there last) : Level here last :=
  ⟨h'.openParens.trans h.openParens, h'.braces.trans h.braces,
    h'.substitutions.trans h.substitutions⟩

namespace Reads

variable {token : Token} {rest : List Char} (h : here.Reads token rest there)
include h

theorem mem_decided {entry : Nat × Bool} : entry ∈ there.ahead.decided ↔
    here.ahead.closed = some entry.1 ∧ entry.2 = (token.kind == .arrow) ∨
      entry ∈ here.ahead.decided := by
  rw [h.ahead, decided_follow, mem_decideClosed]

/-- A token leads on, if no parenthesis before `low` is closed by it. -/
theorem goes {low : Nat} (hc : ∀ paren, there.ahead.closed = some paren → low ≤ paren) :
    Goes low here there := by
  refine ⟨h.outcome, h.before.trans h.behind.le, ?_, fun paren hp => Or.inr (hc paren hp)⟩
  intro entry hin
  rcases h.mem_decided.mp hin with ⟨hclosed, -⟩ | hin
  · exact Or.inr (Or.inl hclosed)
  · exact Or.inl hin

theorem goes_of_none {low : Nat} (hc : there.ahead.closed = none) : Goes low here there := by
  apply h.goes
  intro paren hp
  rw [hc] at hp
  cases hp

end Reads

end Position

/-- The open braces are counted in the order in which they were opened. -/
def Ordered (ahead : Lookahead) : Prop := (ahead.braces :: ahead.substitutions).Pairwise (· ≥ ·)

theorem Ordered.le {ahead : Lookahead} (h : ahead.Ordered) {count : Nat}
    (hin : count ∈ ahead.substitutions) : count ≤ ahead.braces :=
  List.rel_of_pairwise_cons h hin

/-- The brackets stay in their order, whatever token comes next. -/
theorem Ordered.follow {ahead : Lookahead} (h : ahead.Ordered) (token : Token) :
    (ahead.follow token).Ordered := by
  unfold Lookahead.follow
  -- only braces and template text touch the counts
  split
  · exact h
  · exact h
  · exact List.pairwise_cons.mpr ⟨fun count hin => (h.le hin).trans (Nat.le_succ _), h.of_cons⟩
  · split
    · exact h.sublist (List.Sublist.cons_cons _ (List.tail_sublist _))
    · -- the innermost substitution is not at this brace, so all of them are further out
      rename_i hne
      refine List.pairwise_cons.mpr ⟨?_, h.of_cons⟩
      intro count hin
      change count ≤ ahead.braces - 1
      cases hs : ahead.substitutions with
      | nil =>
        rw [hs] at hin
        cases hin
      | cons first others =>
        have hfirst : first ≤ ahead.braces := h.le (by rw [hs]; exact List.mem_cons_self ..)
        have hneq : first ≠ ahead.braces := by
          intro heq
          exact hne (by rw [hs, heq]; rfl)
        have hle : count ≤ first := by
          rw [hs] at hin
          rcases List.mem_cons.mp hin with rfl | hin
          · exact le_refl _
          · have hrest := h.of_cons
            rw [hs] at hrest
            exact List.rel_of_pairwise_cons hrest hin
        omega
  · exact h
  · split
    · exact List.pairwise_cons.mpr ⟨fun count hin => by
        rcases List.mem_cons.mp hin with rfl | hin
        · exact le_refl _
        · exact h.le hin, h⟩
    · exact h
  · exact h

namespace Position

variable {here there last : Position}

/-- What the next characters are read as. -/
def Fits (here : Position) : Reading → Prop
  | .tokens ended => here.ahead.mode = .default ∧ ∀ b ∈ ended, here.lexer.afterOperand = b
  | .template => here.ahead.mode = .templateText

/-- Inside a parenthesis, in front of a text. -/
structure Ready (here : Position) (reading : Reading) (text : List Char) : Prop where
  enough : here.Enough
  ordered : here.ahead.Ordered
  inside : here.ahead.openParens ≠ []
  rest : here.lexer.cursor.rest = text
  fits : here.Fits reading

theorem Reads.ready {token : Token} {rest : List Char} {reading : Reading}
    (h : here.Reads token rest there) (ho : here.ahead.Ordered)
    (hin : there.ahead.openParens ≠ []) (hf : there.Fits reading) : there.Ready reading rest := by
  have hcleared : (here.ahead.decideClosed token).Ordered := ho
  refine ⟨h.enough, ?_, hin, h.rest, hf⟩
  rw [h.ahead]
  exact hcleared.follow token

theorem Ready.fits_tokens {ended : Option Bool} {text : List Char}
    (h : here.Ready (.tokens ended) text) : here.ahead.mode = .default ∧
      ∀ b ∈ ended, here.lexer.afterOperand = b :=
  h.fits

/-- Behind trivia a bracket is read as a token of its own. -/
theorem Ready.reads_bracket {ended : Option Bool} {text rest : List Char}
    (h : here.Ready (.tokens ended) text) {entry : Char × TokenKind} (hin : entry ∈ brackets)
    (ht : Trivia text (entry.1 :: rest)) :
    ∃ token there, here.Reads token rest there ∧ token.kind = entry.2 ∧
      ∃ newline, there.lexer.afterOperand =
        Lexer.tokenClosesOperand here.lexer.afterOperand entry.2 (.whole [entry.1]) newline := by
  have hsolid : ∀ entry ∈ brackets, entry.2.isTrivia = false := by decide
  have hf := Rule.first?_bracket hin here.lexer.afterOperand rest
  rw [← h.rest] at ht
  obtain ⟨token, there, gap, hread, hk, -, hafter⟩ :=
    reads_default h.enough h.inside h.fits_tokens.1 ht rfl hf (hsolid entry hin)
  exact ⟨token, there, hread, hk, _, hafter⟩

/-- Reading ahead crosses a text: behind it the same brackets are open as before. -/
def Crosses (low : Nat) (reading : Reading) (text after : List Char) : Prop :=
  ∀ here : Position, here.Ready reading text → low ≤ here.lexer.cursor.offset →
    ∃ there, Goes low here there ∧ Level here there ∧ there.Ready reading.behind after

namespace Crosses

variable {low : Nat} {ended : Option Bool} {text start inner between rest after body : List Char}

/-- Crossing a text after another. -/
theorem onward {reading : Reading} {here there : Position} (h : Crosses low reading text after)
    (hlow : low ≤ here.lexer.cursor.offset) (hgoes : Goes low here there)
    (hlevel : Level here there) (hready : there.Ready reading text) :
    ∃ last, Goes low here last ∧ Level here last ∧ last.Ready reading.behind after := by
  obtain ⟨last, hon, hlevel', hlast⟩ := h there hready (hlow.trans hgoes.offset)
  exact ⟨last, hgoes.trans hon, hlevel.trans hlevel', hlast⟩

theorem nothing (low : Nat) (ended : Option Bool) (text : List Char) :
    Crosses low (.tokens ended) text text := by
  intro here hr _
  exact ⟨here, .refl low here, .refl here, hr.enough, hr.ordered, hr.inside, hr.rest,
    hr.fits_tokens.1, nofun⟩

theorem token {gap : List Char} {rule : Rule} {lexeme : Lexeme} (ht : Trivia (gap ++ start) start)
    (hs : start = lexeme.raw ++ rest)
    (hf : ∀ afterOperand, (∀ b ∈ ended, afterOperand = b) →
      Rule.first? .default afterOperand start = some (rule, lexeme))
    (hp : rule.kind.isPlain = true)
    (hrest : Crosses low
      (.tokens (rule.kind.endsOperand? ended lexeme.value (gap.contains '\n'))) rest after) :
    Crosses low (.tokens ended) (gap ++ start) after := by
  intro here hr hlow
  obtain ⟨hmode, hended⟩ := hr.fits_tokens
  have hsolid : rule.kind.isTrivia = false := by
    revert hp
    cases rule.kind <;> decide
  obtain ⟨token, next, gap', hread, hk, hgap, hafter⟩ := reads_default hr.enough hr.inside hmode
    (hr.rest ▸ ht) hs (hf _ hended) hsolid
  have hsame : gap' = gap := List.append_cancel_right (hgap.symm.trans hr.rest)
  have hahead : next.ahead = here.ahead.decideClosed token := by
    rw [hread.ahead, follow_of_isPlain]
    rw [hk]
    exact hp
  have hlevel : Level here next := by constructor <;> rw [hahead] <;> rfl
  have hready : next.Ready
      (.tokens (rule.kind.endsOperand? ended lexeme.value (gap.contains '\n'))) rest := by
    refine hread.ready hr.ordered ?_ ⟨?_, ?_⟩
    · rw [hlevel.openParens]
      exact hr.inside
    · rw [hahead]
      rfl
    · intro ended hknown
      rw [hafter, hsame]
      exact Lexer.tokenClosesOperand_of_endsOperand hknown hended
  have hgoes : Goes low here next := hread.goes_of_none (by rw [hahead]; rfl)
  exact hrest.onward hlow hgoes hlevel hready

theorem parentheses (ht : Trivia text ('(' :: inner))
    (hinner : Crosses low (.tokens (some false)) inner between)
    (hb : Trivia between (')' :: rest))
    (hrest : Crosses low (.tokens (ended.map fun _ => true)) rest after) :
    Crosses low (.tokens ended) text after := by
  intro here hr hlow
  obtain ⟨opening, first, hread, hk, newline, hafter⟩ :=
    hr.reads_bracket (by decide : ('(', .openParen) ∈ brackets) ht
  have hahead : first.ahead = { here.ahead.decideClosed opening with
      openParens := opening.start :: here.ahead.openParens } := by
    rw [hread.ahead, follow, hk]
    rfl
  have hready : first.Ready (.tokens (some false)) inner := by
    refine hread.ready hr.ordered ?_ ⟨?_, ?_⟩
    · rw [hahead]
      exact List.cons_ne_nil _ _
    · rw [hahead]
      rfl
    · intro ended hknown
      rw [hafter]
      exact @Lexer.tokenClosesOperand_of_endsOperand none _ _ _ _ _ hknown nofun
  have hgoes : Goes low here first := hread.goes_of_none (by rw [hahead]; rfl)
  obtain ⟨second, hgoes', hlevel, hsecond⟩ := hinner first hready (hlow.trans hgoes.offset)
  obtain ⟨closing, third, hread', hk', newline', hafter'⟩ :=
    hsecond.reads_bracket (by decide : (')', .closeParen) ∈ brackets) hb
  -- the parenthesis that is closed is the one that was opened
  have hopen : second.ahead.openParens = opening.start :: here.ahead.openParens := by
    rw [hlevel.openParens, hahead]
  have hahead' : third.ahead = { second.ahead.decideClosed closing with
      closed := some opening.start
      openParens := here.ahead.openParens } := by
    rw [hread'.ahead, follow, hk']
    simp [decideClosed, hopen]
  have hlevel' : Level here third := by
    constructor <;> rw [hahead']
    · exact hlevel.braces.trans (by rw [hahead]; rfl)
    · exact hlevel.substitutions.trans (by rw [hahead]; rfl)
  have hready' : third.Ready (.tokens (ended.map fun _ => true)) rest := by
    refine hread'.ready hsecond.ordered ?_ ⟨?_, ?_⟩
    · rw [hahead']
      exact hr.inside
    · rw [hahead']
      rfl
    · intro ended hknown
      obtain ⟨-, -, rfl⟩ := Option.map_eq_some_iff.mp hknown
      rw [hafter']
      rfl
  have hgoes'' : Goes low second third := by
    apply hread'.goes
    intro paren hc
    rw [hahead'] at hc
    cases hc
    exact hlow.trans hread.before
  exact hrest.onward hlow ((hgoes.trans hgoes').trans hgoes'') hlevel' hready'

/-- A brace is closed, if it has been opened as one. -/
theorem reads_closeBrace {count : Nat} {here : Position} (hr : here.Ready (.tokens none) between)
    (hb : Trivia between ('\x7d' :: rest)) (hcount : here.ahead.braces = count + 1)
    (hsubs : ∀ first ∈ here.ahead.substitutions, first ≤ count) :
    ∃ token there, here.Reads token rest there ∧
      there.ahead = { here.ahead.decideClosed token with braces := count } := by
  obtain ⟨token, there, hread, hk, -, -⟩ :=
    hr.reads_bracket (by decide : ('\x7d', .closeBrace) ∈ brackets) hb
  have hne : here.ahead.substitutions.head? ≠ some (count + 1) := by
    intro hhead
    have hle := hsubs _ (List.mem_of_head? hhead)
    omega
  refine ⟨token, there, hread, ?_⟩
  rw [hread.ahead, follow, hk]
  simp [decideClosed, hne, hcount]

theorem braces (ht : Trivia text ('\x7b' :: inner))
    (hinner : Crosses low (.tokens (some false)) inner between)
    (hb : Trivia between ('\x7d' :: rest)) (hrest : Crosses low (.tokens none) rest after) :
    Crosses low (.tokens ended) text after := by
  intro here hr hlow
  obtain ⟨opening, first, hread, hk, newline, hafter⟩ :=
    hr.reads_bracket (by decide : ('\x7b', .openBrace) ∈ brackets) ht
  -- inside there is one brace more, so no substitution is at the count
  have hahead : first.ahead = { here.ahead.decideClosed opening with
      braces := here.ahead.braces + 1 } := by
    rw [hread.ahead, follow, hk]
    rfl
  have hready : first.Ready (.tokens (some false)) inner := by
    refine hread.ready hr.ordered ?_ ⟨?_, ?_⟩
    · rw [hahead]
      exact hr.inside
    · rw [hahead]
      rfl
    · intro ended hknown
      rw [hafter]
      exact @Lexer.tokenClosesOperand_of_endsOperand none _ _ _ _ _ hknown nofun
  have hgoes : Goes low here first := hread.goes_of_none (by rw [hahead]; rfl)
  obtain ⟨second, hgoes', hlevel, hsecond⟩ := hinner first hready (hlow.trans hgoes.offset)
  have hsubs : ∀ count ∈ second.ahead.substitutions, count ≤ here.ahead.braces := by
    rw [hlevel.substitutions, hahead]
    intro count hin
    exact hr.ordered.le hin
  obtain ⟨closing, third, hread', hahead'⟩ := reads_closeBrace hsecond hb
    (hlevel.braces.trans (by rw [hahead])) hsubs
  have hlevel' : Level here third := by
    constructor <;> rw [hahead']
    · exact hlevel.openParens.trans (by rw [hahead]; rfl)
    · exact hlevel.substitutions.trans (by rw [hahead]; rfl)
  have hready' : third.Ready (.tokens none) rest := by
    refine hread'.ready hsecond.ordered ?_ ⟨?_, nofun⟩
    · rw [hlevel'.openParens]
      exact hr.inside
    · rw [hahead']
      rfl
  have hgoes'' : Goes low second third := hread'.goes_of_none (by rw [hahead']; rfl)
  exact hrest.onward hlow ((hgoes.trans hgoes').trans hgoes'') hlevel' hready'

theorem template (ht : Trivia text ('\x60' :: inner)) (hinner : Crosses low .template inner rest)
    (hrest : Crosses low (.tokens (some true)) rest after) :
    Crosses low (.tokens ended) text after := by
  intro here hr hlow
  obtain ⟨opening, first, hread, hk, -, -⟩ :=
    hr.reads_bracket (by decide : ('\x60', .backtick) ∈ brackets) ht
  have hahead : first.ahead = { here.ahead.decideClosed opening with mode := .templateText } := by
    rw [hread.ahead, follow, hk]
  have hlevel : Level here first := by constructor <;> rw [hahead] <;> rfl
  have hready : first.Ready .template inner := by
    refine hread.ready hr.ordered ?_ ?_
    · rw [hlevel.openParens]
      exact hr.inside
    · exact congrArg mode hahead
  have hgoes : Goes low here first := hread.goes_of_none (by rw [hahead]; rfl)
  obtain ⟨second, hgoes', hlevel', hsecond⟩ := hinner.onward hlow hgoes hlevel hready
  exact hrest.onward hlow hgoes' hlevel' hsecond

theorem lastText (low : Nat)
    (hbody : Scan.templateBody? (body ++ '\x60' :: rest) = some (body, ['\x60'])) :
    Crosses low .template (body ++ '\x60' :: rest) rest := by
  intro here hr _
  obtain ⟨token, there, hread, hk, hraw, hafter⟩ := @reads_template here body ['\x60'] rest
    hr.enough hr.inside hr.fits (by rw [hr.rest, List.append_assoc]; rfl) (List.cons_ne_nil _ _)
    (by rw [hr.rest, hbody])
  -- the text ends with the template, and with it an operand
  have hends : opensSubstitution token.raw = false := by
    rw [opensSubstitution, hraw, String.toList_ofList]
    simp [List.isSuffixOf, List.isPrefixOf]
  have hahead : there.ahead = here.ahead.decideClosed token := by
    rw [hread.ahead, follow, hk]
    simp [hends]
  have hlevel : Level here there := by constructor <;> rw [hahead] <;> rfl
  refine ⟨there, hread.goes_of_none (by rw [hahead]; rfl), hlevel, ?_⟩
  refine hread.ready hr.ordered ?_ ⟨?_, ?_⟩
  · rw [hlevel.openParens]
    exact hr.inside
  · rw [hahead]
    rfl
  · intro ended hknown
    cases hknown
    rw [hafter]
    simp [Lexer.tokenClosesOperand, Lexeme.raw]

theorem substitution
    (hbody : Scan.templateBody? (body ++ '$' :: '\x7b' :: inner) = some (body, ['$', '\x7b']))
    (hinner : Crosses low (.tokens (TokenKind.openBrace.endsOperand? none body false)) inner between)
    (hb : Trivia between ('\x7d' :: rest)) (hrest : Crosses low .template rest after) :
    Crosses low .template (body ++ '$' :: '\x7b' :: inner) after := by
  intro here hr hlow
  obtain ⟨chunk, first, hread, hk, hraw, hafter⟩ := @reads_template here body ['$', '\x7b'] inner
    hr.enough hr.inside hr.fits (by rw [hr.rest, List.append_assoc]; rfl) (List.cons_ne_nil _ _)
    (by rw [hr.rest, hbody])
  have hopens : opensSubstitution chunk.raw = true := by
    rw [opensSubstitution, hraw, String.toList_ofList]
    simp [List.isSuffixOf]
  have hahead : first.ahead = { here.ahead.decideClosed chunk with
      substitutions := here.ahead.braces :: here.ahead.substitutions } := by
    rw [hread.ahead, follow, hk]
    simp [hopens, decideClosed]
  have hready : first.Ready (.tokens (TokenKind.openBrace.endsOperand? none body false)) inner := by
    refine hread.ready hr.ordered ?_ ⟨?_, ?_⟩
    · rw [hahead]
      exact hr.inside
    · rw [hahead]
      rfl
    · intro ended hknown
      rw [hafter]
      exact Lexer.chunkClosesOperand_of_endsOperand hknown _
  have hgoes : Goes low here first := hread.goes_of_none (by rw [hahead]; rfl)
  obtain ⟨second, hgoes', hlevel, hsecond⟩ := hinner first hready (hlow.trans hgoes.offset)
  obtain ⟨closing, third, hread', hk', -, -⟩ :=
    hsecond.reads_bracket (by decide : ('\x7d', .closeBrace) ∈ brackets) hb
  -- the brace belongs to the substitution, since no other was opened in between
  have hbraces : second.ahead.braces = here.ahead.braces :=
    hlevel.braces.trans (by rw [hahead]; rfl)
  have hsubs : second.ahead.substitutions = here.ahead.braces :: here.ahead.substitutions :=
    hlevel.substitutions.trans (by rw [hahead])
  have hahead' : third.ahead = { second.ahead.decideClosed closing with
      substitutions := here.ahead.substitutions
      mode := .templateText } := by
    rw [hread'.ahead, follow, hk']
    simp [decideClosed, hsubs, hbraces]
  have hlevel' : Level here third := by
    constructor <;> rw [hahead']
    · exact hlevel.openParens.trans (by rw [hahead]; rfl)
    · exact hbraces
  have hready' : third.Ready .template rest := by
    refine hread'.ready hsecond.ordered ?_ ?_
    · rw [hlevel'.openParens]
      exact hr.inside
    · exact congrArg mode hahead'
  have hgoes'' : Goes low second third := hread'.goes_of_none (by rw [hahead']; rfl)
  exact hrest.onward hlow ((hgoes.trans hgoes').trans hgoes'') hlevel' hready'

end Crosses

/-- Reading ahead crosses every stretch of text in which the brackets match. -/
theorem crosses_of_stretch {reading : Reading} {text after : List Char}
    (h : Stretch reading text after) (low : Nat) : Crosses low reading text after := by
  induction h with
  | nothing ended text => exact .nothing low ended text
  | token ht hs hf hp _ hrest => exact .token ht hs hf hp hrest
  | parentheses ht _ hb _ hinner hrest => exact .parentheses ht hinner hb hrest
  | braces ht _ hb _ hinner hrest => exact .braces ht hinner hb hrest
  | template ht _ _ hinner hrest => exact .template ht hinner hrest
  | lastText hbody => exact .lastText low hbody
  | substitution hbody _ hb _ hinner hrest => exact .substitution hbody hinner hb hrest

end Position

end Lookahead

end ScriptTree
