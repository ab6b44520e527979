import ScriptTree.Proofs.SettledLiterals

/-!
The lexical rules in front of a place where a space or a comment is put.

A rule settles there unless its pattern can tell of the piece. So the first rule that matches is told
to stay by going through the rules up to it.
-/

namespace ScriptTree

section Forms

variable {mid piece back : List Char}

/-- Whether something is found only with the piece. -/
def appears (find : List Char → Option Lexeme) (mid piece back : List Char) : Bool :=
  (find (mid ++ back)).isNone && (find (mid ++ (piece ++ back))).isSome

/-- What ends in front of the place and is told by the text up to the character behind it settles,
unless it appears only with the piece. -/
theorem settled_of_kept {find : List Char → Option Lexeme} (hp : Filler piece)
    (hstarts : ∀ {text lexeme}, find text = some lexeme → lexeme.raw <+: text)
    (hkept : ∀ {lexeme : Lexeme} {text text'}, find (lexeme.raw ++ text) = some lexeme →
      StartsAlike text text' → find (lexeme.raw ++ text') = some lexeme) :
    Settled Scan.rawLength find mid piece back ∨ appears find mid piece back = true := by
  cases hf : find (mid ++ back) with
  | none =>
    cases hf' : find (mid ++ (piece ++ back)) with
    | none => exact .inl (settled_of_none hf hf')
    | some lexeme => exact .inr (by rw [appears, hf, hf']; rfl)
  | some lexeme =>
    left
    by_cases hover : mid.length < lexeme.raw.length
    · exact .inr ⟨lexeme, hf, hover⟩
    · left
      obtain ⟨rest, rfl⟩ := List.prefix_of_prefix_length_le (hstarts hf) (List.prefix_append mid back)
        (Nat.not_lt.mp hover)
      rw [List.append_assoc] at hf
      have hkept' := hkept hf (startsAlike_filler hp rest back)
      rw [List.append_assoc, List.append_assoc, hf, hkept']

/-- Whether a form goes on with what is put behind it: white space and line comments do. -/
def Pattern.goesOn : Pattern → Bool
  | .form .lineComment | .form .inlineSpace | .form .space => true
  | _ => false

/-- How far a match of a pattern reaches, with the character that it would go on with. -/
def Pattern.reach (pattern : Pattern) (lexeme : Lexeme) : Nat :=
  lexeme.raw.length + if pattern.goesOn then 1 else 0

theorem settled_run {isMember : Char → Bool} (hm : mid ≠ []) :
    Settled (fun lexeme => lexeme.raw.length + 1) (Scan.run isMember) mid piece back := by
  have hrun {text members : List Char} (h : text.takeWhile isMember = members) :
      Scan.run isMember text = if members.isEmpty then none else some (.whole members) := by
    unfold Scan.run
    rw [h]
  cases runCut isMember mid with
  | stops front _ _ _ _ ht _ => exact .inl ((hrun (ht _)).trans (hrun (ht _)).symm)
  | through _ ht _ =>
    have hne : (mid ++ back.takeWhile isMember).isEmpty = false :=
      List.isEmpty_eq_false_iff.mpr (List.append_ne_nil_of_left_ne_nil hm _)
    refine .inr ⟨_, (hrun (ht _)).trans (by rw [hne, if_neg Bool.false_ne_true]), ?_⟩
    simp only [Lexeme.raw, Lexeme.whole, List.nil_append, List.append_nil, List.length_append]
    omega

theorem settled_lineFeed (hm : mid ≠ []) : Settled Scan.rawLength Scan.lineFeed mid piece back := by
  obtain ⟨c, rest, rfl⟩ := List.exists_cons_of_ne_nil hm
  left
  by_cases hc : c = '\n'
  · rw [hc]
    rfl
  · simp [Scan.lineFeed, hc]

theorem settled_lineComment (hm : mid ≠ []) :
    Settled (fun lexeme => lexeme.raw.length + 1) Scan.lineComment mid piece back ∨
      appears Scan.lineComment mid piece back = true := by
  obtain ⟨c, rest, rfl⟩ := List.exists_cons_of_ne_nil hm
  cases rest with
  | nil =>
    -- the second slash, if there is one, stands behind the place
    cases hf : Scan.lineComment ([c] ++ back) with
    | none =>
      cases hf' : Scan.lineComment ([c] ++ (piece ++ back)) with
      | none => exact .inl (settled_of_none hf hf')
      | some _ => exact .inr (by rw [appears, hf, hf']; rfl)
    | some lexeme =>
      refine .inl (.inr ⟨lexeme, hf, ?_⟩)
      have hraw : lexeme.raw ≠ [] := by
        unfold Scan.lineComment at hf
        split at hf
        · cases hf
          exact List.cons_ne_nil _ _
        · cases hf
      have hpos := List.length_pos_iff.mpr hraw
      simp only [List.length_cons, List.length_nil]
      omega
  | cons d rest =>
    left
    by_cases hcd : c = '/' ∧ d = '/'
    · obtain ⟨rfl, rfl⟩ := hcd
      have hgo (x : List Char) : Scan.lineComment ('/' :: '/' :: rest ++ x) =
          some (.whole ('/' :: '/' :: (rest ++ x).takeWhile (· != '\n'))) := rfl
      cases runCut (· != '\n') rest with
      | stops front _ _ _ _ ht _ => exact .inl (by rw [hgo, hgo, ht, ht])
      | through _ ht _ =>
        refine .inr ⟨_, hgo back, ?_⟩
        simp only [ht, Lexeme.raw, Lexeme.whole, List.nil_append, List.append_nil, List.length_cons,
          List.length_append]
        omega
    · have hno (x : List Char) : Scan.lineComment (c :: d :: rest ++ x) = none := by
        simp only [Scan.lineComment, List.cons_append]
        split
        · rename_i heq
          cases heq
          exact absurd ⟨rfl, rfl⟩ hcd
        · rfl
      exact settled_of_none (hno _) (hno _)

/-- Readers that are tried one after the other settle if each of them does. -/
theorem settled_findSome? {α β : Type} {size : α → Nat} {find : β → List Char → Option α}
    {Other : Prop} (readers : List β)
    (h : ∀ reader ∈ readers, Settled size (find reader) mid piece back ∨ Other) :
    Settled size (fun text => readers.findSome? fun reader => find reader text) mid piece back ∨
      Other := by
  induction readers with
  | nil => exact .inl (.inl rfl)
  | cons reader readers ih =>
    obtain ⟨hreader, hreaders⟩ := List.forall_mem_cons.mp h
    rcases hreader with (hsame | ⟨a, ha, hlt⟩) | hother
    · rcases ih hreaders with (hsame' | ⟨a, ha, hlt⟩) | hother
      · left
        left
        simp only [List.findSome?_cons, hsame, hsame']
      · left
        cases hf : find reader (mid ++ back) with
        | some found =>
          left
          simp only [List.findSome?_cons, hsame, hf]
        | none =>
          refine .inr ⟨a, ?_, hlt⟩
          simp only [List.findSome?_cons, hf, ha]
      · exact .inr hother
    · refine .inl (.inr ⟨a, ?_, hlt⟩)
      simp only [List.findSome?_cons, ha]
    · exact .inr hother

/-- One spelling, if a test says that a text starts with it. -/
def spelled (test : List Char → List Char → Option (List Char)) (spelling : String)
    (text : List Char) : Option Lexeme :=
  if (test spelling.toList text).isSome then some (.whole spelling.toList) else none

theorem find?_map_eq_findSome? (test : List Char → List Char → Option (List Char))
    (spellings : List String) (text : List Char) :
    ((spellings.find? fun word => (test word.toList text).isSome).map fun word =>
      Lexeme.whole word.toList) = spellings.findSome? fun word => spelled test word text := by
  induction spellings with
  | nil => rfl
  | cons word spellings ih =>
    rw [List.find?_cons, List.findSome?_cons, spelled]
    cases (test word.toList text).isSome with
    | true => rfl
    | false => exact ih

theorem settled_words {spellings : List String} (hp : Filler piece)
    (hword : ∀ word ∈ spellings, word.toList.all isNamePart = true ∧ word.toList ≠ []) :
    Settled Scan.rawLength (Pattern.words spellings).apply mid piece back ∨
      joins mid back = true := by
  have happly (text : List Char) : (Pattern.words spellings).apply text =
      spellings.findSome? fun word => spelled afterWord? word text :=
    find?_map_eq_findSome? afterWord? spellings text
  rw [funext happly]
  refine settled_findSome? spellings fun word hin => ?_
  obtain ⟨hname, hne⟩ := hword word hin
  cases wordCut hp hname mid back with
  | inside _ _ ha ha' => exact .inl (.inl (by simp only [spelled, ha, ha', Option.isSome_some]))
  | absent ha ha' => exact .inl (.inl (by simp only [spelled, ha, ha']))
  | past _ hlt ha _ =>
    refine .inl (.inr ⟨.whole word.toList, by simp [spelled, ha], ?_⟩)
    simpa [Scan.rawLength, Lexeme.raw, Lexeme.whole] using hlt
  | joined he hb _ _ =>
    right
    rw [he, ← List.nil_append word.toList]
    exact joins_of_word hb rfl hname hne

/-- Neither a space nor a slash goes on with a punctuator. -/
theorem settled_punctuators {spellings : List String} (hp : Filler piece) (hm : mid ≠ [])
    (hs : ∀ word ∈ spellings, ∀ c ∈ word.toList.tail, c ≠ ' ' ∧ c ≠ '/') :
    Settled Scan.rawLength (Pattern.punctuators spellings).apply mid piece back := by
  have happly (text : List Char) : (Pattern.punctuators spellings).apply text =
      spellings.findSome? fun word => spelled afterSpelling? word text :=
    find?_map_eq_findSome? afterSpelling? spellings text
  rw [funext happly]
  refine Or.resolve_right (settled_findSome? spellings fun word hin => .inl ?_) not_false
  by_cases hl : mid.length < word.toList.length
  · have hno : afterSpelling? word.toList (mid ++ (piece ++ back)) = none := by
      refine afterSpelling?_filler hp hl fun c hc => hs word hin c ?_
      have hpos := List.length_pos_iff.mpr hm
      rw [← List.drop_one]
      exact (List.drop_sublist_drop_left _ hpos).mem hc
    cases ha : afterSpelling? word.toList (mid ++ back) with
    | none => exact .inl (by simp only [spelled, ha, hno])
    | some _ =>
      refine .inr ⟨.whole word.toList, by simp [spelled, ha], ?_⟩
      simpa [Scan.rawLength, Lexeme.raw, Lexeme.whole] using hl
  · have hboth (x : List Char) := afterSpelling?_of_le (Nat.not_lt.mp hl) x
    left
    simp only [spelled, hboth, Option.isSome_map]

/-- Whether a word stands at the place that wants white space behind it, and the piece makes a
difference to that. -/
def exposesSpace (words : List String) (mid piece back : List Char) : Bool :=
  words.contains (String.ofList mid) && Scan.startsSpaced piece != Scan.startsSpaced back

theorem settled_wordBeforeSpace {words : List (List Char)} {names : List String} (hp : Filler piece)
    (hword : ∀ word ∈ words, word.all isNamePart = true ∧ word ≠ [] ∧ String.ofList word ∈ names) :
    Settled Scan.rawLength (Scan.wordBeforeSpace words) mid piece back ∨
      (joins mid back || exposesSpace names mid piece back) = true := by
  have hall : ∀ word ∈ words, Settled Scan.rawLength (Scan.spacedWord word) mid piece back ∨
      (joins mid back || exposesSpace names mid piece back) = true := by
    intro word hin
    obtain ⟨hname, hne, hnames⟩ := hword word hin
    have hcases : Settled Scan.rawLength (Scan.spacedWord word) mid piece back ∨ _ ∨ _ :=
      Scan.settled_spacedWord hp hname hne
    rcases hcases with h | hjoins | ⟨rfl, hspace⟩
    · exact .inl h
    · exact .inr (by rw [hjoins, Bool.true_or])
    · right
      simp only [exposesSpace, List.contains_iff_mem.mpr hnames, Bool.true_and, Bool.or_eq_true,
        bne_iff_ne]
      exact .inr hspace
  exact settled_findSome? words hall

/-- Whether a pattern can tell that a piece has been put at the place. -/
def Pattern.tells (mid piece back : List Char) : Pattern → Bool
  | .words _ => joins mid back
  | .punctuators _ => false
  | .form lexical => match lexical with
    | .functionHead | .yieldHead | .forHead | .continueJump | .breakJump | .exportDefault =>
      joins mid back
    | .relationalWord | .importWord =>
      joins mid back || exposesSpace lexical.keywords mid piece back
    | .blockComment | .lineComment | .regex | .number | .string | .templateChunk =>
      appears lexical.match? mid piece back
    | .identifier | .lineFeed | .inlineSpace | .space => false

/-- Whether the spellings of a pattern are of the kind that settles. -/
def Pattern.isPlain : Pattern → Bool
  | .words spellings => spellings.all fun word => word.toList.all isNamePart && !word.toList.isEmpty
  | .punctuators spellings =>
    spellings.all fun word => word.toList.tail.all fun c => c != ' ' && c != '/'
  | .form _ => true

theorem Rule.isPlain_of_mem : ∀ rule ∈ table, rule.pattern.isPlain = true := by
  decide

/-- The match of a lexical form settles, or the form can tell. -/
theorem LexicalForm.settled (hp : Filler piece) (hm : mid ≠ []) (lexical : LexicalForm) :
    Settled (Pattern.reach (.form lexical)) lexical.match? mid piece back ∨
      Pattern.tells mid piece back (.form lexical) = true := by
  have hspaced (words : List (List Char)) (hword : ∀ word ∈ words,
        word.all isNamePart = true ∧ word ≠ [] ∧ String.ofList word ∈ lexical.keywords) :
      Settled Scan.rawLength (Scan.wordBeforeSpace words) mid piece back ∨
        (joins mid back || exposesSpace lexical.keywords mid piece back) = true :=
    settled_wordBeforeSpace hp hword
  cases lexical with
  | functionHead => exact Scan.settled_functionHead hp hm
  | yieldHead => exact Scan.settled_yieldHead hp
  | forHead => exact Scan.settled_forHead hp
  | relationalWord => exact hspaced _ (by decide)
  | continueJump | breakJump => exact Scan.settled_jump hp (by decide) (by decide)
  | importWord => exact hspaced _ (by decide)
  | exportDefault => exact Scan.settled_exportDefault hp
  | blockComment =>
    exact settled_of_kept hp Scan.blockComment_isPrefix fun h _ => Scan.blockComment_kept h _
  | lineComment => exact settled_lineComment hm
  | regex => exact settled_of_kept hp Scan.regex_isPrefix Scan.regex_kept
  | number => exact settled_of_kept hp Scan.number_isPrefix Scan.number_kept
  | identifier => exact .inl (Scan.settled_identifier hp)
  | string => exact settled_of_kept hp Scan.string_isPrefix fun h _ => Scan.string_kept h _
  | templateChunk =>
    exact settled_of_kept hp Scan.templateChunk_isPrefix fun h _ => Scan.templateChunk_kept h _
  | lineFeed => exact .inl (settled_lineFeed hm)
  | inlineSpace | space => exact .inl (settled_run hm)

theorem Pattern.settled {pattern : Pattern} (hplain : pattern.isPlain = true) (hp : Filler piece)
    (hm : mid ≠ []) (htells : pattern.tells mid piece back = false) :
    Settled pattern.reach pattern.apply mid piece back := by
  refine Or.resolve_right (b := pattern.tells mid piece back = true) ?_ (by simp [htells])
  cases pattern with
  | words spellings =>
    refine settled_words hp fun word hin => ?_
    have hword := List.all_eq_true.mp hplain word hin
    rw [Bool.and_eq_true] at hword
    exact ⟨hword.1, fun hnil => by simp [hnil] at hword⟩
  | punctuators spellings =>
    refine .inl (settled_punctuators hp hm fun word hin c hc => ?_)
    have hword := List.all_eq_true.mp (List.all_eq_true.mp hplain word hin) c hc
    simpa using hword
  | form lexical => exact lexical.settled hp hm

/-- The match of a rule settles if its pattern cannot tell. -/
theorem Rule.settled {rule : Rule} (hplain : rule.pattern.isPlain = true) (hp : Filler piece)
    (hm : mid ≠ []) (htells : rule.pattern.tells mid piece back = false) :
    Settled (fun found => found.1.pattern.reach found.2) rule.match? mid piece back := by
  rcases Pattern.settled hplain hp hm htells with hsame | ⟨lexeme, hfound, hover⟩
  · left
    unfold Rule.match?
    rw [hsame]
  · refine .inr ⟨(rule, lexeme), ?_, hover⟩
    have hne : lexeme.raw ≠ [] := by
      intro hraw
      have hpos := List.length_pos_iff.mpr hm
      rw [Pattern.reach, hraw, List.length_nil] at hover
      split at hover <;> omega
    simp [Rule.match?, hfound, hne]

/-- Whether some of the rules, up to the first that matches, can tell that a piece has been put at the
place, or that first one reaches over it. -/
def firstTells (mid piece back : List Char) : List Rule → Bool
  | [] => false
  | rule :: rules =>
    rule.pattern.tells mid piece back ||
      match rule.match? (mid ++ back) with
      | some found => mid.length < found.1.pattern.reach found.2
      | none => firstTells mid piece back rules

/-- What is found in front of the place is found with the piece as well, unless that is disturbed. -/
theorem findSome?_insert (hp : Filler piece) (hm : mid ≠ []) {rules : List Rule}
    (hplain : ∀ rule ∈ rules, rule.pattern.isPlain = true)
    (hd : firstTells mid piece back rules = false) :
    rules.findSome? (fun rule => rule.match? (mid ++ (piece ++ back))) =
        rules.findSome? (fun rule => rule.match? (mid ++ back)) ∧
      ∀ found ∈ rules.findSome? (fun rule => rule.match? (mid ++ back)),
        found.1.pattern.reach found.2 ≤ mid.length := by
  induction rules with
  | nil => simp only [List.findSome?_nil, Option.mem_def, reduceCtorEq, false_implies, implies_true,
      and_self]
  | cons rule rules ih =>
    obtain ⟨hrule, hrules⟩ := List.forall_mem_cons.mp hplain
    rw [firstTells, Bool.or_eq_false_iff] at hd
    obtain ⟨htells, hrest⟩ := hd
    have hsettled := Rule.settled hrule hp hm htells
    cases hf : rule.match? (mid ++ back) with
    | none =>
      rw [hf] at hrest
      have hnone : rule.match? (mid ++ (piece ++ back)) = none := by
        rcases hsettled with hsame | ⟨found, hfound, -⟩
        · rw [hsame, hf]
        · rw [hf] at hfound
          cases hfound
      simp only [List.findSome?_cons, hf, hnone]
      exact ih hrules hrest
    | some found =>
      rw [hf] at hrest
      have hreach : found.1.pattern.reach found.2 ≤ mid.length := by simpa using hrest
      have hsame : rule.match? (mid ++ (piece ++ back)) = some found := by
        rcases hsettled with hsame | ⟨other, hother, hover⟩
        · rw [hsame, hf]
        · rw [hf] at hother
          cases hother
          exact absurd hreach (Nat.not_le.mpr hover)
      rw [List.findSome?_cons, List.findSome?_cons, hf, hsame]
      refine ⟨rfl, fun other hin => ?_⟩
      cases hin
      exact hreach

namespace Rule

/-- The rules that are tried in a mode. -/
def tried (mode : LexerMode) (afterOperand : Bool) : List Rule :=
  if mode.template then [templateChunk]
  else table.filter fun rule => rule.appliesIn mode afterOperand

theorem first?_eq_tried (mode : LexerMode) (afterOperand : Bool) (text : List Char) :
    first? mode afterOperand text =
      (tried mode afterOperand).findSome? fun rule => rule.match? text := by
  unfold first? tried
  split
  · rw [List.findSome?_cons, List.findSome?_nil]
    cases templateChunk.match? text <;> rfl
  · induction table with
    | nil => rfl
    | cons rule rules ih =>
      rw [List.findSome?_cons, List.filter_cons, ih]
      by_cases happlies : rule.appliesIn mode afterOperand = true
      · rw [if_pos happlies, if_pos happlies, List.findSome?_cons]
      · rw [if_neg happlies, if_neg happlies]

theorem isPlain_of_tried {mode : LexerMode} {afterOperand : Bool} :
    ∀ rule ∈ tried mode afterOperand, rule.pattern.isPlain = true := by
  intro rule hin
  unfold tried at hin
  split at hin
  · rw [List.mem_singleton] at hin
    rw [hin]
    rfl
  · exact isPlain_of_mem rule (List.mem_filter.mp hin).1

end Rule

end Forms

end ScriptTree
