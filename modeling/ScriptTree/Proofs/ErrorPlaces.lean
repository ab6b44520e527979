import ScriptTree.Proofs.Locations
import ScriptTree.Proofs.Termination

/-!
Every error points at the right place.

An error is made of the state in which the parse fails: of the current token or, where there is none,
of the text behind the cursor. Since the stream of tokens is faithful to its text, the offset lies
between two characters, and the line and the column are those of the characters before it.
-/

namespace ScriptTree

namespace SyntaxError

/-- An error points at the place between two parts of a text. If it says that the text has ended, then
nothing is behind the place; if it says that a character starts no token, then that one is. -/
structure PointsBetween (error : SyntaxError) (front rest : List Char) : Prop where
  offset : error.offset = byteLength front
  line : error.location.line = 1 + front.count '\n'
  column : error.location.column = 1 + (lastLine front).length
  ended : error.code = 1101 ∨ error.code = 1103 → rest = []
  quoted : error.code = 1001 → ∃ c, rest.head? = some c ∧
    error.text = "Invalid or unexpected token '" ++ String.singleton c ++ "'."

/-- An error points at a place of a text, and at the current token if it names one. -/
structure WellPlaced (error : SyntaxError) (source : List Char) (current : Option Token) : Prop where
  place : ∃ front rest, source = front ++ rest ∧ error.PointsBetween front rest
  token : ∀ kind, error.token = some kind →
    ∃ token, current = some token ∧ kind = .token token.kind ∧ token.start = error.offset

/-- No number of an error is larger than the length of the text in bytes, plus one for those that count
from 1. -/
theorem PointsBetween.le {error : SyntaxError} {front rest : List Char}
    (h : error.PointsBetween front rest) : error.offset ≤ byteLength (front ++ rest) ∧
      error.location.line ≤ byteLength (front ++ rest) + 1 ∧
      error.location.column ≤ byteLength (front ++ rest) + 1 := by
  have hlength := length_le_byteLength front
  have hcount : front.count '\n' ≤ front.length := List.count_le_length
  have hlast : (lastLine front).length ≤ front.length :=
    (List.rtakeWhile_suffix (fun c => c != '\n') front).length_le
  rw [byteLength_append, h.offset, h.line, h.column]
  omega

theorem text_invalidCharacter (c : Char) (offset : Nat) (location : Location) :
    (invalidCharacter c offset location).text =
      "Invalid or unexpected token '" ++ String.singleton c ++ "'." := by
  have hfill : Template.fillFrom 0 Message.invalidCharacter.template.toList [String.singleton c] =
      "Invalid or unexpected token '".toList ++ (String.singleton c).toList ++ "'.".toList := rfl
  apply String.toList_inj.mp
  rw [String.toList_append, String.toList_append, ← hfill]
  exact String.toList_ofList

end SyntaxError

namespace Parser

open SyntaxError

variable {parser : Parser}

/-- The location of a place is that of the text before it. -/
theorem pointsBetween {error : SyntaxError} {front rest : List Char}
    (hs : parser.lexer.source = front ++ rest) (ho : error.offset = byteLength front)
    (hl : error.location = parser.locate error.offset)
    (hended : error.code = 1101 ∨ error.code = 1103 → rest = [])
    (hquoted : error.code = 1001 → ∃ c, rest.head? = some c ∧
      error.text = "Invalid or unexpected token '" ++ String.singleton c ++ "'.") :
    error.PointsBetween front rest := by
  have hlocate : error.location = ⟨1 + front.count '\n', 1 + (lastLine front).length⟩ := by
    rw [hl, ho, locate, hs]
    exact LineTable.locate_append front rest
  exact ⟨ho, by rw [hlocate], by rw [hlocate], hended, hquoted⟩

/-- An error at the place where the parse stands, and about the token there if it is about one. -/
theorem wellPlaced_of_marker (h : parser.lexer.Faithful) {error : SyntaxError}
    (ho : error.offset = parser.lexer.marker) (hl : error.location = parser.locate error.offset)
    {message : Message} (hm : error.message = message) (hc : message.code ∉ [1001, 1101, 1103])
    (ht : ∀ kind, error.token = some kind →
      ∃ token, parser.lexer.current = some token ∧ kind = .token token.kind) :
    error.WellPlaced parser.lexer.source parser.lexer.current := by
  have hcode : error.code ∉ [1001, 1101, 1103] := by rwa [code, hm]
  obtain ⟨front, rest, hs, hmarker, -⟩ := h.marker_splits
  refine ⟨⟨front, rest, hs, pointsBetween hs (ho.trans hmarker) hl ?_ ?_⟩, ?_⟩
  · rintro (he | he)
    · exact absurd (by simp [he]) hcode
    · exact absurd (by simp [he]) hcode
  · intro he
    exact absurd (by simp [he]) hcode
  · intro kind hk
    obtain ⟨token, hcurrent, hkind⟩ := ht kind hk
    refine ⟨token, hcurrent, hkind, ?_⟩
    rw [ho, Lexer.marker, hcurrent]

/-- An error at the place where the parse stands, which does not tell what is there. -/
theorem wellPlaced_of_tokenless (h : parser.lexer.Faithful) {error : SyntaxError}
    (ho : error.offset = parser.lexer.marker) (hl : error.location = parser.locate error.offset)
    {message : Message} (hm : error.message = message) (hc : message.code ∉ [1001, 1101, 1103])
    (ht : error.token = none) : error.WellPlaced parser.lexer.source parser.lexer.current := by
  apply wellPlaced_of_marker h ho hl hm hc
  intro kind hk
  rw [ht] at hk
  cases hk

/-- An error at the end of the text, where there is no current token any more. -/
theorem wellPlaced_of_exhausted (h : parser.lexer.Faithful) (hx : parser.lexer.exhausted = true)
    {error : SyntaxError} (ho : error.offset = parser.lexer.marker)
    (hl : error.location = parser.locate error.offset) {message : Message}
    (hm : error.message = message) (hc : message.code ≠ 1001) (ht : error.token = none) :
    error.WellPlaced parser.lexer.source parser.lexer.current := by
  obtain ⟨hnone, hrest⟩ := h.ended hx
  obtain ⟨tokens, htiled⟩ := h.tiled
  obtain ⟨front, hs, hoffset⟩ := htiled.splits
  have hmarker : parser.lexer.marker = byteLength front := by rw [Lexer.marker, hnone, hoffset]
  refine ⟨⟨front, parser.lexer.cursor.rest, hs, pointsBetween hs (ho.trans hmarker) hl ?_ ?_⟩, ?_⟩
  · exact fun _ => hrest
  · intro he
    rw [code, hm] at he
    exact absurd he hc
  · intro kind hk
    rw [ht] at hk
    cases hk

/-- The error for text that no rule matches points behind the blanks that follow the cursor, at the
character that it names or at the end of the text. -/
theorem invalidCharacter_wellPlaced (h : parser.lexer.Faithful) :
    parser.invalidCharacter.WellPlaced parser.lexer.source parser.lexer.current := by
  obtain ⟨tokens, htiled⟩ := h.tiled
  obtain ⟨front, hs, hoffset⟩ := htiled.splits
  let blank := parser.lexer.cursor.rest.takeWhile isUnicodeBlank
  let rest := parser.lexer.cursor.rest.dropWhile isUnicodeBlank
  have hsplit : parser.lexer.source = (front ++ blank) ++ rest := by
    rw [hs, List.append_assoc, List.takeWhile_append_dropWhile]
  have hbehind : (parser.lexer.cursor.skipBlank isUnicodeBlank).offset =
      byteLength (front ++ blank) := by
    rw [byteLength_append, ← hoffset]
    rfl
  have hhead : parser.lexer.upcoming? = rest.head? :=
    List.find?_not_eq_head?_dropWhile isUnicodeBlank parser.lexer.cursor.rest
  rw [invalidCharacter, hhead]
  cases hr : rest.head? with
  | some c =>
    refine ⟨⟨front ++ blank, rest, hsplit, pointsBetween hsplit hbehind rfl nofun ?_⟩, nofun⟩
    exact fun _ => ⟨c, hr, text_invalidCharacter c _ _⟩
  | none =>
    refine ⟨⟨front ++ blank, rest, hsplit, pointsBetween hsplit hbehind rfl ?_ nofun⟩, nofun⟩
    exact fun _ => List.head?_eq_none_iff.mp hr

theorem unexpected_wellPlaced (h : parser.lexer.Faithful) :
    parser.unexpected.WellPlaced parser.lexer.source parser.lexer.current := by
  unfold unexpected
  dsimp only
  split
  · rename_i token hc
    refine wellPlaced_of_marker h rfl rfl (rfl : _ = Message.unexpectedToken) (by decide) ?_
    intro kind hk
    cases hk
    exact ⟨token, hc, rfl⟩
  · split
    · rename_i hx
      exact wellPlaced_of_exhausted h hx rfl rfl (rfl : _ = Message.unexpectedEnd) (by decide) rfl
    · exact invalidCharacter_wellPlaced h

theorem wanting_wellPlaced (h : parser.lexer.Faithful) (wanted : String) :
    (parser.wanting wanted).WellPlaced parser.lexer.source parser.lexer.current := by
  unfold wanting
  dsimp only
  split
  · rename_i token hc
    refine wellPlaced_of_marker h rfl rfl (rfl : _ = Message.expectedButFound) (by decide) ?_
    intro kind hk
    cases hk
    exact ⟨token, hc, rfl⟩
  · split
    · rename_i hx
      exact wellPlaced_of_exhausted h hx rfl rfl (rfl : _ = Message.expectedAtEnd) (by decide) rfl
    · exact invalidCharacter_wellPlaced h

theorem complaint_wellPlaced (h : parser.lexer.Faithful) {message : Message}
    (hm : message ∈ ParserM.complaints) :
    (parser.complaint message).WellPlaced parser.lexer.source parser.lexer.current := by
  have hcodes : ∀ message ∈ ParserM.complaints, message.code ∉ [1001, 1101, 1103] := by decide
  unfold complaint
  split
  · rename_i token hc
    refine wellPlaced_of_marker h ?_ rfl rfl (hcodes message hm) ?_
    · rw [Lexer.marker, hc]
    · intro kind hk
      cases hk
      exact ⟨token, hc, rfl⟩
  · exact unexpected_wellPlaced h

end Parser

namespace ParserM

variable {α β : Type}

/-- A step that keeps the stream faithful to its text, and whose errors point at the right place. -/
structure Blames (m : ParserM α) : Prop where
  faithful : Keeping StillFaithful m
  placed : ∀ {parser error after}, parser.lexer.Faithful → m parser = .error (.rejected error) after →
    error.WellPlaced after.lexer.source after.lexer.current

namespace Blames

/-- A step that never fails. -/
theorem of_ok {m : ParserM α} (hf : Keeping StillFaithful m)
    (h : ∀ parser, ∃ a after, m parser = .ok a after) : Blames m where
  faithful := hf
  placed {parser error after} _ hm := by
    obtain ⟨a, after', hok⟩ := h parser
    rw [hok] at hm
    cases hm

/-- A step that only fails, with an error that points at the right place. -/
theorem of_reject {error : Parser → SyntaxError}
    (h : ∀ {parser : Parser}, parser.lexer.Faithful →
      (error parser).WellPlaced parser.lexer.source parser.lexer.current) :
    Blames (reject error : ParserM α) where
  faithful _ hfaithful := hfaithful
  placed hfaithful hm := by
    cases hm
    exact h hfaithful

theorem bind {m : ParserM α} {f : α → ParserM β} (hm : Blames m) (hf : ∀ a, Blames (f a)) :
    Blames (m >>= f) where
  faithful := stillFaithful_lasting.bind hm.faithful fun a => (hf a).faithful
  placed {parser error after} hfaithful hrun := by
    rw [run_bind] at hrun
    cases hr : m parser with
    | ok a between =>
      rw [hr] at hrun
      exact (hf a).placed (hm.faithful.of_ok hr hfaithful) hrun
    | error failure between =>
      rw [hr] at hrun
      cases hrun
      exact hm.placed hfaithful hr

end Blames

theorem blames_elementary : Elementary (fun {α} (m : ParserM α) => Blames m) where
  pure a := .of_ok (stillFaithful_lasting.elementary.pure a) fun parser => ⟨a, parser, rfl⟩
  bind := Blames.bind
  current := .of_ok stillFaithful_lasting.elementary.current fun _ => ⟨_, _, rfl⟩
  surroundings := .of_ok stillFaithful_lasting.elementary.surroundings fun _ => ⟨_, _, rfl⟩
  budget := .of_ok stillFaithful_lasting.elementary.budget fun _ => ⟨_, _, rfl⟩
  outOfSteps := ⟨stillFaithful_lasting.elementary.outOfSteps, nofun⟩
  unexpected := .of_reject Parser.unexpected_wellPlaced
  wanting wanted := .of_reject fun h => Parser.wanting_wellPlaced h wanted
  complaint hm := .of_reject fun h => Parser.complaint_wellPlaced h hm
  next hm := .of_ok (stillFaithful_lasting.elementary.next hm) fun _ => ⟨_, _, rfl⟩
  reread hm := .of_ok (stillFaithful_lasting.elementary.reread hm) fun _ => ⟨_, _, rfl⟩

theorem Blames.within (frame : Frame) {m : ParserM α} (h : Blames m) : Blames (within frame m) where
  faithful := stillFaithful_lasting.within frame h.faithful
  placed {parser error after} hfaithful hrun := by
    by_cases hd : parser.options.maxDepth ≤ parser.context.length
    · rw [run_within_full hd] at hrun
      cases hrun
      exact Parser.wellPlaced_of_tokenless hfaithful rfl rfl (rfl : _ = Message.nestingTooDeep)
        (by decide) rfl
    · rw [run_within (Nat.not_le.mp hd)] at hrun
      cases hr : m { parser with context := frame :: parser.context } with
      | ok a between =>
        rw [hr] at hrun
        cases hrun
      | error failure between =>
        -- leaving the construct does not touch the stream
        rw [hr] at hrun
        cases hrun
        have hinside : ({ parser with context := frame :: parser.context } : Parser).lexer.Faithful :=
          hfaithful
        have hplaced := h.placed hinside hr
        exact hplaced

theorem Blames.modifier (sameLine : Bool) : Blames (tryModifier sameLine) := by
  apply Blames.of_ok (stillFaithful_lasting.tryModifier sameLine)
  intro parser
  rw [run_tryModifier]
  split
  · exact ⟨_, _, rfl⟩
  · exact ⟨_, _, rfl⟩

theorem Blames.collectParams {item : ParserM Node} (h : Blames item) : Blames (collectParams item) := by
  have hput (parameter : Node) : Blames (modify fun parser : Parser =>
      { parser with pendingParams := parameter :: parser.pendingParams }) :=
    .of_ok (fun _ hfaithful => hfaithful) fun _ => ⟨_, _, rfl⟩
  have hitem : Blames (parameterItem item) := .bind h hput
  have hlist : Blames (parameterList item) :=
    .bind (Elementary.closedList blames_elementary _ hitem) fun _ => Elementary.require blames_elementary .arrow
  have htake (mark : Nat) : Blames (takeParams mark) :=
    .of_ok (fun _ hfaithful => hfaithful) fun _ => ⟨_, _, rfl⟩
  refine ⟨stillFaithful_lasting.collectParams h.faithful, ?_⟩
  intro parser error after hfaithful hrun
  rw [run_collectParams] at hrun
  exact (Blames.bind hlist fun _ => htake _).placed hfaithful hrun

theorem Blames.handOver (frame : Frame) (operand : Node) {step : Node → ParserM Node}
    (h : ∀ x, Blames (step x)) : Blames (handOver frame operand step) where
  faithful := stillFaithful_lasting.handOver frame operand fun x => (h x).faithful
  placed {parser error after} hfaithful hrun := by
    by_cases hd : parser.options.maxDepth ≤ parser.context.length
    · rw [run_handOver_full hd] at hrun
      cases hrun
      exact Parser.wellPlaced_of_tokenless hfaithful rfl rfl (rfl : _ = Message.nestingTooDeep)
        (by decide) rfl
    · rw [run_handOver (Nat.not_le.mp hd)] at hrun
      exact (Blames.within frame (h operand)).placed hfaithful hrun

theorem blames_compositional : Compositional (fun {α} (m : ParserM α) => Blames m) where
  toElementary := blames_elementary
  modifier := Blames.modifier
  within := Blames.within
  collectParams := Blames.collectParams
  handOver := Blames.handOver

theorem blames_arrowAhead : Blames arrowAhead := by
  apply Blames.of_ok stillFaithful_arrowAhead
  intro parser
  rw [run_arrowAhead]
  split
  · exact ⟨_, _, rfl⟩
  · split
    · exact ⟨_, _, rfl⟩
    · exact ⟨_, _, rfl⟩

theorem blames_settleOperands : Blames settleOperands where
  faithful := stillFaithful_lasting.settleOperands
  placed {parser error after} hfaithful hrun := by
    simp only [settleOperands, run_bind, run_get] at hrun
    split at hrun
    · cases hrun
    · split at hrun
      · cases hrun
        exact Parser.wellPlaced_of_tokenless hfaithful rfl rfl (rfl : _ = Message.unconsumedOperands)
          (by decide) rfl
      · cases hrun

theorem blames_programBody (room rounds : Nat) : Blames (programBody (goal arrowAhead room) rounds) := by
  induction rounds with
  | zero => exact Elementary.outOfSteps blames_elementary
  | succ rounds ih =>
    apply Blames.bind (Elementary.current blames_elementary)
    intro word
    split
    · exact Elementary.pure blames_elementary []
    · -- a statement, the check that it has left no operand behind, and the other statements
      apply Blames.bind (Compositional.goal blames_compositional blames_arrowAhead room .statement rfl)
      intro first
      apply Blames.bind blames_settleOperands
      intro _
      exact .bind ih fun _ => Elementary.pure blames_elementary _

theorem blames_program : Blames (program arrowAhead) := by
  have hget : Blames (get : ParserM Parser) :=
    .of_ok (fun _ hfaithful => hfaithful) fun _ => ⟨_, _, rfl⟩
  apply Blames.bind (Elementary.nextToken blames_elementary)
  intro _
  apply Blames.bind hget
  intro parser
  apply Blames.bind (blames_programBody _ _)
  intro body
  apply Blames.bind hget
  intro after
  split
  · exact Elementary.pure blames_elementary _
  · exact .of_reject Parser.invalidCharacter_wellPlaced

end ParserM

namespace Parser

open ParserM

/-- However often a parser is run, with any options: if a run fails, then with an error that points at
the right place of the text, and at the current token of the stream if it names one. Its offset, its
line and its column are not larger than the text is long. -/
theorem run_wellPlaced (source : String) (options : ParserOptions) (count : Nat) (failure : Failure)
    (h : ((ofText source options).afterRuns count).run.1 = .error failure) :
    ∃ error, failure = .rejected error ∧
      error.WellPlaced source.toList
        ((ofText source options).afterRuns count).run.2.lexer.current ∧
      error.offset ≤ byteLength source.toList ∧
      error.location.line ≤ byteLength source.toList + 1 ∧
      error.location.column ≤ byteLength source.toList + 1 := by
  obtain ⟨hs, hf⟩ := afterRuns_setting source options count
  have hready := (ofText_ready source options).of_sameSetting hs hf
  have hdepth : ((ofText source options).afterRuns count).options.maxDepth = options.maxDepth := by
    rw [hs.options]
    rfl
  rw [← hdepth] at hready
  have hsource := (run_sameSetting ((ofText source options).afterRuns count)).source.trans hs.source
  cases failure with
  | outOfSteps => exact absurd h (run_ne_outOfSteps hready)
  | rejected error =>
    have hplaced : error.WellPlaced
        ((ofText source options).afterRuns count).run.2.lexer.source
        ((ofText source options).afterRuns count).run.2.lexer.current := by
      unfold Parser.run at h ⊢
      cases hp : program arrowAhead ((ofText source options).afterRuns count) with
      | ok tree after =>
        rw [hp] at h
        cases h
      | error failure after =>
        rw [hp] at h
        cases h
        exact Blames.placed blames_program hf hp
    rw [hsource] at hplaced
    obtain ⟨front, rest, hsplit, hpoints⟩ := hplaced.place
    refine ⟨error, rfl, hplaced, ?_⟩
    have hle := hpoints.le
    rwa [← hsplit] at hle

/-- A character that starts no token, behind one of two bytes and a line feed. -/
theorem run_wellPlaced_character :
    ∃ error, ((ofText "é +\n @" {}).afterRuns 0).run.1 = .error (.rejected error) ∧
      error = ⟨.invalidCharacter, ["@"], none, 6, ⟨2, 2⟩⟩ ∧
      error.WellPlaced "é +\n @".toList
        ((ofText "é +\n @" {}).afterRuns 0).run.2.lexer.current := by
  have hfails : (match ((ofText "é +\n @" {}).afterRuns 0).run.1 with
      | .ok _ => false
      | .error failure =>
        failure == .rejected ⟨.invalidCharacter, ["@"], none, 6, ⟨2, 2⟩⟩) = true := by
    decide +kernel
  cases hrun : ((ofText "é +\n @" {}).afterRuns 0).run.1 with
  | ok tree =>
    rw [hrun] at hfails
    cases hfails
  | error failure =>
    rw [hrun] at hfails
    obtain ⟨error, rfl, hplaced, -⟩ := run_wellPlaced "é +\n @" {} 0 failure hrun
    exact ⟨error, rfl, Failure.rejected.inj (eq_of_beq hfails), hplaced⟩

end Parser

end ScriptTree
