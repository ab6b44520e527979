import ScriptTree.Proofs.ByteSlices

/-!
A stream under any requests.

Whatever is asked of a stream, in whatever order and modes, its cursor stays between two characters
of the text, the tokens that it remembers stand one behind the other in front of the cursor, and the
current token is the piece of text that it says it is. A bookmark brings back exactly the state it was
taken at, as long as the tokens handed out before it have not been taken back.
-/

namespace ScriptTree

/-- What can be asked of a stream. -/
inductive Request where
  /-- The next token. -/
  | next (mode : LexerMode)
  /-- The token before the last one, read again. -/
  | stepBack (mode : LexerMode)
  /-- The last token, read again. -/
  | reread (mode : LexerMode)
  /-- A bookmark. -/
  | mark
  /-- A return to a bookmark, which stays in use; bookmarks are counted from the newest. -/
  | returnTo (index : Nat)

/-- A stream and the states at which the bookmarks in use were taken, newest first. -/
structure Session where
  /-- The stream. -/
  lexer : Lexer
  /-- The states to which it may be set back. -/
  marks : List Lexer

namespace Session

/-- What a request does. Where tokens are read again, all bookmarks go out of use; a return puts the
bookmarks taken since out of use. -/
def step (session : Session) : Request → Session
  | .next mode => { session with lexer := session.lexer.next mode }
  | .stepBack mode => ⟨(session.lexer.stepBack? mode).getD session.lexer, []⟩
  | .reread mode => ⟨session.lexer.reread mode, []⟩
  | .mark => { session with marks := session.lexer :: session.marks }
  | .returnTo index =>
    match session.marks.drop index with
    | [] => session
    | saved :: older => ⟨session.lexer.returnTo saved.bookmark, saved :: older⟩

/-- What several requests do, one after the other. -/
def run (session : Session) (requests : List Request) : Session := requests.foldl step session

end Session

namespace Lexer

/-- The tokens that lead to a place start one behind the other in front of it. -/
theorem Tiled.ordered {source : List Char} {history : List TokenRecord} {tokens : List Token}
    {place : Cursor} (h : Tiled source history tokens place) :
    (place.offset :: history.map (·.start.offset)).Pairwise (· > ·) := by
  induction h with
  | start => exact List.pairwise_singleton _ _
  | @trivia history tokens place stop _ hskip ih =>
    obtain ⟨gap, -, ho⟩ := hskip.spans
    obtain ⟨hbehind, hrest⟩ := List.pairwise_cons.mp ih
    refine List.pairwise_cons.mpr ⟨fun start hs => ?_, hrest⟩
    have hplace := hbehind start hs
    omega
  | @token history tokens place token _ _ hat ih =>
    -- a token is not empty, so the place behind it lies behind its start
    obtain ⟨-, -, hne, -⟩ := hat.spans
    have hpos := byteLength_pos hne
    have hlater : (place.advance token.raw.toList).offset > place.offset := by
      simp only [Cursor.advance]
      omega
    refine List.pairwise_cons.mpr ⟨fun start hs => ?_, ih⟩
    rcases List.mem_cons.mp hs with rfl | hs
    · exact hlater
    · have hplace := (List.pairwise_cons.mp ih).1 start hs
      omega

theorem Faithful.stepBack {lexer earlier : Lexer} (h : lexer.Faithful) {mode : LexerMode}
    (hb : lexer.stepBack? mode = some earlier) : earlier.Faithful := by
  unfold stepBack? at hb
  split at hb
  · rename_i last before history hh
    cases hb
    obtain ⟨tokens, ht⟩ := h.tiled
    rw [hh] at ht
    obtain ⟨others, ht⟩ := ht.back
    obtain ⟨others, ht⟩ := ht.back
    exact @next_faithful { lexer with cursor := before.start, history } others ht mode
  · cases hb

theorem stepBack_source {lexer earlier : Lexer} {mode : LexerMode}
    (hb : lexer.stepBack? mode = some earlier) : earlier.source = lexer.source := by
  unfold stepBack? at hb
  split at hb
  · cases hb
    rw [next_source]
  · cases hb

/-- Going on to the next token forgets none. -/
theorem history_suffix_next (lexer : Lexer) (mode : LexerMode) :
    lexer.history <:+ (lexer.next mode).history := by
  unfold next
  split
  · exact List.suffix_cons _ _
  · exact List.suffix_rfl
  · exact List.suffix_rfl

/-- A bookmark brings back the state that it was taken at, where no token handed out before it has
been taken back. -/
theorem returnTo_bookmark {lexer saved : Lexer} (hs : saved.source = lexer.source)
    (hh : saved.history <:+ lexer.history) : lexer.returnTo saved.bookmark = saved := by
  obtain ⟨newer, hn⟩ := hh
  have hlength : lexer.history.length - saved.history.length = newer.length := by
    rw [← hn, List.length_append]
    omega
  have hdrop : lexer.history.drop (lexer.history.length - saved.history.length) = saved.history := by
    rw [hlength, ← hn, List.drop_left]
  simp only [returnTo, bookmark, hdrop, ← hs]

/-- What always holds of a stream over a text. -/
structure Consistent (source : List Char) (lexer : Lexer) : Prop where
  /-- The cursor stands between two characters of the text. -/
  cursor : dropBytes? lexer.cursor.offset source = some lexer.cursor.rest
  /-- The cursor stands in the text. -/
  inside : lexer.cursor.offset ≤ byteLength source
  /-- The tokens remembered start one behind the other in front of the cursor. -/
  ordered : (lexer.cursor.offset :: lexer.history.map (·.start.offset)).Pairwise (· > ·)
  /-- The current token is the text between its offsets, it ends at the cursor, and it is the last one
  remembered. -/
  current : ∀ token, lexer.current = some token →
    sliceBytes? token.start token.stop source = some token.raw.toList ∧
      token.stop = lexer.cursor.offset ∧
      lexer.history.head?.map (·.start.offset) = some token.start
  /-- A stream is exhausted only at the end of the text, and then there is no current token. -/
  exhausted : lexer.exhausted = true →
    lexer.current = none ∧ lexer.cursor.offset = byteLength source
  /-- Errors are reported in the text. -/
  marker : lexer.marker ≤ byteLength source

theorem Faithful.consistent {lexer : Lexer} (h : lexer.Faithful) : lexer.Consistent lexer.source := by
  obtain ⟨tokens, ht⟩ := h.tiled
  obtain ⟨front, hsource, hoffset⟩ := ht.splits
  have hinside : lexer.cursor.offset ≤ byteLength lexer.source := by
    rw [hsource, byteLength_append]
    omega
  have hcurrent : ∀ token, lexer.current = some token →
      sliceBytes? token.start token.stop lexer.source = some token.raw.toList ∧
        token.stop = lexer.cursor.offset ∧
        lexer.history.head?.map (·.start.offset) = some token.start := by
    intro token hc
    obtain ⟨place, closesOperand, history, hh, hat, hcursor⟩ := h.current token hc
    obtain ⟨hstart, hstop, -, rest, hp⟩ := hat.spans
    -- the text before the token
    rw [hh] at ht
    obtain ⟨others, hback⟩ := ht.back
    obtain ⟨before, hs, hb⟩ := hback.splits
    refine ⟨?_, ?_, ?_⟩
    · rw [hs, ← hp, hstart, hstop, hb]
      exact sliceBytes?_append before token.raw.toList rest
    · rw [hcursor, hstop, Cursor.advance]
    · rw [hh, List.head?_cons, Option.map_some, hstart]
  refine ⟨?_, hinside, ht.ordered, hcurrent, fun hx => ?_, ?_⟩
  · rw [hsource, hoffset, dropBytes?_append]
  · obtain ⟨hnone, hrest⟩ := h.ended hx
    refine ⟨hnone, ?_⟩
    rw [hoffset, hsource, hrest, List.append_nil]
  · unfold marker
    split
    · rename_i token hc
      obtain ⟨place, closesOperand, history, hh, hat, hcursor⟩ := h.current token hc
      have hstart := hat.spans.1
      have hbehind : lexer.cursor.offset = place.offset + byteLength token.raw.toList := by
        rw [hcursor, Cursor.advance]
      omega
    · exact hinside

end Lexer

namespace Session

/-- A stream over a text that keeps faith with it, as do the states that its bookmarks were taken at;
and the further back a state lies, the fewer tokens had been handed out. -/
structure Sound (source : List Char) (session : Session) : Prop where
  faithful : ∀ lexer ∈ session.lexer :: session.marks, lexer.source = source ∧ lexer.Faithful
  nested : (session.lexer :: session.marks).Pairwise fun later earlier =>
    earlier.history <:+ later.history

namespace Sound

variable {source : List Char} {session : Session}

theorem lexer (h : session.Sound source) : session.lexer.source = source ∧ session.lexer.Faithful :=
  h.faithful session.lexer List.mem_cons_self

/-- A stream without bookmarks has only to be faithful. -/
theorem alone {lexer : Lexer} (hs : lexer.source = source) (hf : lexer.Faithful) :
    Sound source ⟨lexer, []⟩ where
  faithful other ho := by
    obtain rfl := List.mem_singleton.mp ho
    exact ⟨hs, hf⟩
  nested := List.pairwise_singleton _ _

theorem returnTo (h : session.Sound source) {saved : Lexer} (hm : saved ∈ session.marks) :
    session.lexer.returnTo saved.bookmark = saved := by
  have hsaved := h.faithful saved (List.mem_cons_of_mem _ hm)
  apply Lexer.returnTo_bookmark
  · rw [hsaved.1, h.lexer.1]
  · exact (List.pairwise_cons.mp h.nested).1 saved hm

/-- Every request keeps a session sound. -/
theorem step (h : session.Sound source) (request : Request) : (session.step request).Sound source := by
  obtain ⟨hsource, hfaithful⟩ := h.lexer
  obtain ⟨hnewer, holder⟩ := List.pairwise_cons.mp h.nested
  cases request with
  | next mode =>
    refine ⟨fun other ho => ?_, List.pairwise_cons.mpr ⟨fun other ho => ?_, holder⟩⟩
    · rcases List.mem_cons.mp ho with rfl | ho
      · exact ⟨(Lexer.next_source session.lexer mode).trans hsource, hfaithful.next mode⟩
      · exact h.faithful other (List.mem_cons_of_mem _ ho)
    · exact (hnewer other ho).trans (Lexer.history_suffix_next session.lexer mode)
  | stepBack mode =>
    apply alone
    · cases hb : session.lexer.stepBack? mode with
      | none => exact hsource
      | some earlier => exact (Lexer.stepBack_source hb).trans hsource
    · cases hb : session.lexer.stepBack? mode with
      | none => exact hfaithful
      | some earlier => exact hfaithful.stepBack hb
  | reread mode => exact alone (by rw [Lexer.reread_source, hsource]) (hfaithful.reread mode)
  | mark =>
    refine ⟨fun other ho => ?_, List.pairwise_cons.mpr ⟨fun other ho => ?_, h.nested⟩⟩
    · rcases List.mem_cons.mp ho with rfl | ho
      · exact h.lexer
      · exact h.faithful other ho
    · rcases List.mem_cons.mp ho with rfl | ho
      · exact List.suffix_rfl
      · exact hnewer other ho
  | returnTo index =>
    simp only [Session.step]
    split
    · exact h
    · rename_i saved older hd
      have hsuffix : saved :: older <:+ session.marks := hd ▸ List.drop_suffix index _
      have hm : saved ∈ session.marks := hsuffix.subset List.mem_cons_self
      rw [h.returnTo hm]
      -- the stream is the saved state again, which stands first among the bookmarks as well
      refine ⟨fun other ho => ?_, List.pairwise_cons.mpr ⟨fun other ho => ?_, ?_⟩⟩
      · have ho : other ∈ saved :: older := by simpa using ho
        exact h.faithful other (List.mem_cons_of_mem _ (hsuffix.subset ho))
      · have hkept := List.pairwise_cons.mp (holder.sublist hsuffix.sublist)
        rcases List.mem_cons.mp ho with rfl | ho
        · exact List.suffix_rfl
        · exact hkept.1 other ho
      · exact holder.sublist hsuffix.sublist

theorem run (h : session.Sound source) (requests : List Request) :
    (session.run requests).Sound source := by
  induction requests generalizing session with
  | nil => exact h
  | cons request requests ih => exact ih (h.step request)

end Sound

/-- Under any requests a stream over a text stays consistent with it, and every bookmark in use brings
back the state it was taken at. -/
theorem run_consistent (source : List Char) (requests : List Request) :
    let session := run ⟨.ofText source, []⟩ requests
    session.lexer.Consistent source ∧
      ∀ saved ∈ session.marks, session.lexer.returnTo saved.bookmark = saved := by
  intro session
  have h : session.Sound source :=
    (Sound.alone rfl (Lexer.ofText_faithful source)).run requests
  obtain ⟨hsource, hfaithful⟩ := h.lexer
  refine ⟨?_, fun saved hm => h.returnTo hm⟩
  rw [← hsource]
  exact hfaithful.consistent

end Session

end ScriptTree
