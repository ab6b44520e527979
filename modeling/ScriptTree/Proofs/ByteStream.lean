import ScriptTree.Proofs.ByteLiterals

/-!
The stream of tokens on bytes.

The stream is written here as a position in bytes, from which the text is sliced anew for each match.
It makes no slice that is at fault and always comes to an end, and what it hands out is what the stream
on characters hands out.
-/

namespace ScriptTree

/-- The match of a pattern, found on bytes. -/
def Pattern.extent? (pattern : Pattern) (text : List Char) : Checked (Option Extent) :=
  match pattern with
  | .words spellings =>
    some ((spellings.find? fun word => (ByteScan.wordSize? word.toList text).isSome).map fun word =>
      .whole (byteLength word.toList))
  | .punctuators spellings =>
    some ((spellings.find? fun word => ByteScan.startsWith word.toList text).map fun word =>
      .whole (byteLength word.toList))
  | .form lexical => lexical.extent? text

theorem Pattern.extent?_eq (pattern : Pattern) (text : List Char) :
    pattern.extent? text = some ((pattern.apply text).map Lexeme.extent) := by
  cases pattern with
  | words spellings =>
    simp only [extent?, apply, ByteScan.wordSize?_eq, Option.isSome_map, Option.map_map,
      Function.comp_def, Lexeme.extent_whole]
  | punctuators spellings =>
    simp only [extent?, apply, ByteScan.startsWith, Option.map_map, Function.comp_def,
      Lexeme.extent_whole]
  | form lexical => exact lexical.extent?_eq text

namespace Rule

/-- The first of some rules that is tried in a mode and has a match that is not empty. -/
def firstOf? (mode : LexerMode) (afterOperand : Bool) (text : List Char) :
    List Rule → Checked (Option (Rule × Extent))
  | [] => some none
  | rule :: rules =>
    if rule.appliesIn mode afterOperand then do
      match ← rule.pattern.extent? text with
      | some extent =>
        if 0 < extent.size then some (some (rule, extent)) else firstOf? mode afterOperand text rules
      | none => firstOf? mode afterOperand text rules
    else firstOf? mode afterOperand text rules

/-- The first rule that matches, found on bytes. -/
def firstExtent? (mode : LexerMode) (afterOperand : Bool) (text : List Char) :
    Checked (Option (Rule × Extent)) :=
  if mode.template then do
    let found ← templateChunk.pattern.extent? text
    some (found.map fun extent => (templateChunk, extent))
  else firstOf? mode afterOperand text table

theorem size_pos_iff (lexeme : Lexeme) : 0 < lexeme.extent.size ↔ lexeme.raw.isEmpty = false := by
  rw [← ByteScan.isEmpty_iff_byteLength, beq_eq_false_iff_ne]
  exact Nat.pos_iff_ne_zero

theorem firstOf?_eq (mode : LexerMode) (afterOperand : Bool) (text : List Char) (rules : List Rule) :
    firstOf? mode afterOperand text rules =
      some ((rules.findSome? fun rule =>
        if rule.appliesIn mode afterOperand then rule.match? text else none).map
          fun (rule, lexeme) => (rule, lexeme.extent)) := by
  induction rules with
  | nil => rfl
  | cons rule rules ih =>
    rw [firstOf?, List.findSome?_cons]
    split
    · rw [match?, Pattern.extent?_eq, Option.bind_eq_bind, Option.bind_some]
      cases rule.pattern.apply text with
      | none => exact ih
      | some lexeme =>
        rw [Option.map_some, Option.filter_some]
        cases he : lexeme.raw.isEmpty with
        | true =>
          have hsize : ¬0 < lexeme.extent.size := by simp [size_pos_iff, he]
          simp only [if_neg hsize]
          exact ih
        | false =>
          have hsize := (size_pos_iff lexeme).mpr he
          simp only [if_pos hsize]
          rfl
    · exact ih

/-- The rule found on bytes is the one found on characters. -/
theorem firstExtent?_eq (mode : LexerMode) (afterOperand : Bool) (text : List Char) :
    firstExtent? mode afterOperand text =
      some ((first? mode afterOperand text).map fun (rule, lexeme) => (rule, lexeme.extent)) := by
  unfold firstExtent? first?
  split
  · rw [match?, Pattern.extent?_eq, Option.bind_eq_bind, Option.bind_some]
    cases hl : templateChunk.pattern.apply text with
    | none => rfl
    | some lexeme =>
      have hfull : lexeme.raw.isEmpty = false := by
        obtain ⟨⟨body, stop⟩, hb, rfl⟩ := Option.map_eq_some_iff.mp hl
        have hstop := Scan.templateBody?_stop hb
        simpa [Lexeme.raw] using fun _ => hstop
      rw [Option.map_some, Option.filter_some, hfull]
      rfl
  · exact firstOf?_eq mode afterOperand text table

end Rule

/-- A stream of tokens by offsets. -/
structure ByteStream where
  /-- The offset behind the current token. -/
  position : Nat
  /-- The token that was asked for last, if there was one. -/
  current : Option Token
  /-- Where the tokens handed out started and whether an operand ended with each, newest first. -/
  history : List (Nat × Bool)
  /-- Whether the last request came to the end of the text. -/
  exhausted : Bool

namespace ByteStream

/-- The stream in front of a text. -/
def start : ByteStream := ⟨0, none, [], false⟩

/-- Whether an operand ended with the last token. -/
def afterOperand (stream : ByteStream) : Bool :=
  match stream.history with
  | [] => false
  | (_, closesOperand) :: _ => closesOperand

/-- Hands out a token. -/
def emit (stream : ByteStream) (kind : TokenKind) (value raw : List Char) (precedence : Option Nat)
    (newline : Bool) : ByteStream :=
  let stop := stream.position + byteLength raw
  let token : Token :=
    { kind, value := String.ofList value, raw := String.ofList raw, start := stream.position, stop,
      precedence, afterNewline := newline }
  let isPostfix := stream.afterOperand && !newline && (value == ['+', '+'] || value == ['-', '-'])
  let closesOperand := kind.closesOperand || isPostfix ||
    (kind == .templateChunk && raw.getLast? == some '\x60')
  ⟨stop, some token, (stream.position, closesOperand) :: stream.history, false⟩

/-- Looks for the next token and hands it out. Running out of fuel counts as a fault. -/
def advance (source : List Char) (mode : LexerMode) (afterOperand : Bool) :
    Nat → ByteStream → Bool → Checked ByteStream
  | 0, _, _ => none
  | fuel + 1, stream, newline =>
    if stream.position < byteLength source then do
      let rest ← dropBytes? stream.position source
      match ← Rule.firstExtent? mode afterOperand rest with
      | none => some { stream with current := none, exhausted := false }
      | some (rule, extent) =>
        let raw ← takeBytes? extent.size rest
        if rule.kind.isTrivia then
          if rule.kind == .comment && ByteScan.startsWith ['/', '*'] raw && raw.contains '\n' &&
              mode.significantNewline then
            some (stream.emit .semicolon raw raw none newline)
          else
            advance source mode afterOperand fuel
              { stream with position := stream.position + extent.size }
              (newline || raw.contains '\n')
        else
          let value ← sliceBytes? extent.valueStart extent.valueStop rest
          some (stream.emit rule.kind value raw rule.precedence newline)
    else some { stream with current := none, exhausted := true }

/-- Goes on to the next token. No piece of trivia is empty, so as much fuel as there are bytes is
enough. -/
def next (source : List Char) (stream : ByteStream) (mode : LexerMode) : Checked ByteStream :=
  advance source mode stream.afterOperand (byteLength source + 1) stream false

/-- Asks for tokens in one mode after the other. -/
def readAll (source : List Char) (modes : List LexerMode) : Checked ByteStream :=
  modes.foldlM (next source) start

end ByteStream

/-- A stream on characters by its offsets. -/
def Lexer.bytewise (lexer : Lexer) : ByteStream where
  position := lexer.cursor.offset
  current := lexer.current
  history := lexer.history.map fun record => (record.start.offset, record.closesOperand)
  exhausted := lexer.exhausted

namespace ByteStream

@[simp] theorem afterOperand_bytewise (lexer : Lexer) :
    lexer.bytewise.afterOperand = lexer.afterOperand := by
  unfold afterOperand Lexer.afterOperand Lexer.bytewise
  cases lexer.history <;> rfl

/-- The parts of a match that stands at the start of a text are sliced out of it. -/
theorem slices_of_isPrefix {lexeme : Lexeme} {text : List Char} (h : lexeme.raw <+: text) :
    takeBytes? lexeme.extent.size text = some lexeme.raw ∧
      sliceBytes? lexeme.extent.valueStart lexeme.extent.valueStop text = some lexeme.value := by
  obtain ⟨rest, rfl⟩ := h
  refine ⟨takeBytes?_append lexeme.raw rest, ?_⟩
  have hslice := sliceBytes?_append lexeme.lead lexeme.value (lexeme.trail ++ rest)
  simpa [Lexeme.extent, Lexeme.valueStart, Lexeme.valueStop, Lexeme.raw, byteLength_append] using hslice

/-- What a stream on characters does with what it finds ahead. -/
def settle (lexer : Lexer) : Sighting → Lexer
  | .token start kind lexeme precedence newline => lexer.emit start kind lexeme precedence newline
  | .stuck place => { lexer with cursor := place, current := none, exhausted := false }
  | .finished place => { lexer with cursor := place, current := none, exhausted := true }

theorem emit_bytewise (lexer : Lexer) (place : Cursor) (kind : TokenKind) (lexeme : Lexeme)
    (precedence : Option Nat) (newline : Bool) :
    ({ lexer.bytewise with position := place.offset }.emit kind lexeme.value lexeme.raw precedence
      newline) = (lexer.emit place kind lexeme precedence newline).bytewise := by
  have hoperand : ({ lexer.bytewise with position := place.offset } : ByteStream).afterOperand =
      lexer.afterOperand := afterOperand_bytewise lexer
  unfold emit
  rw [hoperand]
  rfl

/-- The search on bytes finds what the search on characters finds. -/
theorem advance_eq {lexer : Lexer} {mode : LexerMode} {fuel fuel' : Nat} {place : Cursor}
    {front : List Char} (newline : Bool) (hs : lexer.source = front ++ place.rest)
    (ho : place.offset = byteLength front) (hf : place.rest.length < fuel)
    (hf' : place.rest.length < fuel') :
    advance lexer.source mode lexer.afterOperand fuel { lexer.bytewise with position := place.offset }
      newline = some (settle lexer (Lexer.seek mode lexer.afterOperand fuel' place newline)).bytewise := by
  induction fuel generalizing fuel' place front newline with
  | zero => exact absurd hf (Nat.not_lt_zero _)
  | succ fuel ih =>
    obtain ⟨fuel', rfl⟩ : ∃ k, fuel' = k + 1 := ⟨fuel' - 1, by omega⟩
    rw [advance, Lexer.seek]
    by_cases he : place.rest = []
    · have hend : ¬place.offset < byteLength lexer.source := by
        rw [hs, he, List.append_nil, ho]
        exact Nat.lt_irrefl _
      rw [if_neg hend, he]
      rfl
    · have hpos := byteLength_pos he
      have hgo : place.offset < byteLength lexer.source := by
        rw [hs, byteLength_append, ho]
        omega
      have hrest : dropBytes? place.offset lexer.source = some place.rest := by
        rw [ho, hs]
        exact dropBytes?_append front place.rest
      have hempty : place.rest.isEmpty = false := by simpa using he
      simp only [hgo, if_true, hrest, hempty, Bool.false_eq_true, if_false, Rule.firstExtent?_eq,
        Option.bind_eq_bind, Option.bind_some]
      cases hr : Rule.first? mode lexer.afterOperand place.rest with
      | none => rfl
      | some found =>
        obtain ⟨rule, lexeme⟩ := found
        obtain ⟨htake, hslice⟩ := slices_of_isPrefix (Rule.first?_isPrefix hr)
        simp only [Option.map_some, htake, hslice, Option.bind_some]
        split
        · have hends : (rule.kind == .comment && ByteScan.startsWith ['/', '*'] lexeme.raw &&
              lexeme.raw.contains '\n' && mode.significantNewline) =
              Lexer.endsLine mode rule.kind lexeme.raw := by
            simp only [Lexer.endsLine, ByteScan.startsWith]
            ac_rfl
          rw [hends]
          split
          · have hraw : (Lexeme.whole lexeme.raw).raw = lexeme.raw := by simp [Lexeme.raw, Lexeme.whole]
            have hemit := emit_bytewise lexer place .semicolon (.whole lexeme.raw) none newline
            rw [hraw] at hemit
            exact congrArg some hemit
          · -- the search goes on behind the piece of trivia, which is not empty
            obtain ⟨rest, hp⟩ := Rule.first?_isPrefix hr
            have hlater : (place.advance lexeme.raw).rest = rest := by
              rw [Cursor.advance, ← hp, List.drop_left]
            have hfull := List.length_pos_iff.mpr (Rule.raw_ne_nil_of_first hr)
            have hshorter : (place.advance lexeme.raw).rest.length < place.rest.length := by
              rw [hlater, ← hp, List.length_append]
              omega
            have hfuel : (place.advance lexeme.raw).rest.length < fuel := by omega
            have hfuel' : (place.advance lexeme.raw).rest.length < fuel' := by omega
            have hs' : lexer.source = (front ++ lexeme.raw) ++ (place.advance lexeme.raw).rest := by
              rw [hlater, hs, ← hp, List.append_assoc]
            have ho' : (place.advance lexeme.raw).offset = byteLength (front ++ lexeme.raw) := by
              rw [byteLength_append, ← ho]
              rfl
            exact ih _ hs' ho' hfuel hfuel'
        · exact congrArg some (emit_bytewise lexer place rule.kind lexeme rule.precedence newline)

/-- A request on bytes makes no slice that is at fault, comes to an end and finds what the request on
characters finds. -/
theorem next_eq {lexer : Lexer} {front : List Char} (hs : lexer.source = front ++ lexer.cursor.rest)
    (ho : lexer.cursor.offset = byteLength front) (mode : LexerMode) :
    next lexer.source lexer.bytewise mode = some (lexer.next mode).bytewise := by
  have hlength := length_le_byteLength lexer.cursor.rest
  have hfuel : lexer.cursor.rest.length < byteLength lexer.source + 1 := by
    rw [hs, byteLength_append]
    omega
  rw [next, afterOperand_bytewise]
  exact advance_eq false hs ho hfuel (Nat.lt_succ_self _)

/-- However tokens are asked for, no slice is at fault, and the tokens are those found on
characters. -/
theorem readAll_eq (source : List Char) (modes : List LexerMode) :
    readAll source modes = some (modes.foldl Lexer.next (.ofText source)).bytewise := by
  have hrun (lexer : Lexer) (hf : lexer.Faithful) : modes.foldlM (next lexer.source) lexer.bytewise =
      some (modes.foldl Lexer.next lexer).bytewise := by
    induction modes generalizing lexer with
    | nil => rfl
    | cons mode modes ih =>
      obtain ⟨tokens, ht⟩ := hf.tiled
      obtain ⟨front, hs, ho⟩ := ht.splits
      have hnext := ih (lexer.next mode) (hf.next mode)
      rw [Lexer.next_source] at hnext
      rw [List.foldlM_cons, next_eq hs ho mode, List.foldl_cons, ← hnext]
      rfl
  exact hrun (.ofText source) (Lexer.ofText_faithful source)

end ByteStream

end ScriptTree
