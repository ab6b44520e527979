import ScriptTree.Proofs.ClauseReading
import ScriptTree.Proofs.MemberTokens

/-!
Members of classes and objects, as they are read: modifiers, a key, and behind it either the empty
parameters and body of a method, or the value of a field.
-/

namespace ScriptTree

open ParserM

/-- The key of a member. -/
inductive MemberKey where
  /-- A name, whatever word it is. -/
  | named (name : String)
  /-- A string. The spelling that it once had does not count. -/
  | string (contents raw : String)
  /-- A name in brackets. -/
  | computed (name : String)
  deriving DecidableEq

namespace MemberKey

/-- The node of a key. -/
def node : MemberKey → Node
  | .named name | .computed name => .identifier name
  | .string contents raw => .literal (.string contents) raw

/-- Whether a key stands in brackets. -/
def isComputed : MemberKey → Bool
  | .computed _ => true
  | _ => false

/-- How a key is written. -/
def text : MemberKey → List Char
  | .named name => name.toList
  | .string contents _ => (Printer.quoted {} contents).toList
  | .computed name => '[' :: (name.toList ++ [']'])

/-- The key with the spelling in which it is written. -/
def printed : MemberKey → MemberKey
  | .string contents _ => .string contents (Printer.quoted {} contents)
  | key => key

/-- A name is a name, a string the contents of some string, and what stands in brackets is read as a
name there. -/
def WellFormed : MemberKey → Prop
  | .named name => IsName name.toList
  | .string contents _ => IsStringValue contents.toList
  | .computed name => IsSteadyName name.toList

variable {key : MemberKey} {rest : List Char}

theorem WellFormed.exists_head (h : key.WellFormed) (rest : List Char) :
    ∃ c behind, key.text ++ rest = c :: behind ∧ isSpace c = false ∧ c ≠ '=' ∧ c ≠ '*' := by
  cases key with
  | named name =>
    obtain ⟨c, tail, ht⟩ : ∃ c tail, name.toList = c :: tail := by
      cases hn : name.toList with
      | nil => simp [WellFormed, hn, IsName, Scan.name?] at h
      | cons c tail => exact ⟨c, tail, rfl⟩
    have hc : isNameStart c = true := (isName_cons_iff.mp (ht ▸ h : IsName (c :: tail))).1
    exact ⟨c, tail ++ rest, by rw [text, ht]; rfl, isSpace_of_isNameStart hc,
      ne_of_isNameStart hc (by decide), ne_of_isNameStart hc (by decide)⟩
  | string contents raw =>
    obtain ⟨quote, hq, ht⟩ := Printer.exists_quotable {} h
    refine ⟨quote, contents.toList ++ [quote] ++ rest, by rw [text, ht]; rfl, ?_⟩
    rcases hq.mark with rfl | rfl <;> decide
  | computed name => exact ⟨'[', name.toList ++ [']'] ++ rest, rfl, by decide⟩

/-- Only a key that is the name `function` starts like a function. -/
theorem WellFormed.plainFunction?_eq_none (h : key.WellFormed) (hn : key ≠ .named "function")
    (he : EndsKey rest) : Scan.plainFunction? (key.text ++ rest) = none := by
  have hother {c : Char} (hc : c ≠ 'f') (text : List Char) : Scan.plainFunction? (c :: text) = none := by
    rw [Scan.plainFunction?, Scan.functionWord, afterSpelling?_cons_of_ne hc]
    rfl
  cases key with
  | named name =>
    refine plainFunction?_name (IsName.part h) he.atBoundary (fun hf => hn ?_)
      fun _ _ _ => he.not_starFollows
    rw [← String.toList_injective (show "function".toList = name.toList from hf.symm)]
  | string contents raw =>
    obtain ⟨quote, hq, ht⟩ := Printer.exists_quotable {} h
    rw [text, ht]
    refine hother ?_ _
    rcases hq.mark with rfl | rfl <;> decide
  | computed name => exact hother (by decide) _

end MemberKey

/-- The stream stands on a key, with a text behind it. -/
def Lexer.OnKey (lexer : Lexer) (rest : List Char) : MemberKey → Prop
  | .named name => lexer.OnName name.toList rest
  | key => ∃ afterOperand, lexer.Facing .default afterOperand (key.text ++ rest)

namespace MemberKey

/-- Where a key is written before a text, a member starts, and the stream that has come there stands
on the key. -/
structure Stands (key : MemberKey) (rest : List Char) : Prop where
  starts : StartsMember (key.text ++ rest)
  lands : ∀ (lexer : Lexer) (afterOperand : Bool),
    lexer.Facing .default afterOperand (key.text ++ rest) → lexer.OnKey rest key

/-- A member can start with any name. -/
theorem startsMember_of_isName {name rest : List Char} (h : IsName name)
    (hb : atBoundary rest = true) : StartsMember (name ++ rest) := by
  intro afterOperand
  obtain ⟨rule, lexeme, hf, ht, hk⟩ := first?_anyName h hb afterOperand
  have hkeyword : ∀ kind : TokenKind, kind.isKeyword = true →
      kind.startsMember = true ∧ kind ≠ .ellipsis := by
    intro kind
    cases kind <;> decide
  refine ⟨rule, lexeme, hf, ht, ?_⟩
  rcases hk with hk | hk | ⟨hk, -⟩
  · rw [hk]
    decide
  · exact hkeyword _ hk
  · rw [hk]
    decide

theorem WellFormed.stands {key : MemberKey} {rest : List Char} (h : key.WellFormed)
    (he : EndsKey rest) : key.Stands rest := by
  cases key with
  | named name =>
    exact ⟨startsMember_of_isName h he.atBoundary, fun lexer afterOperand hf => hf.onName h he⟩
  | string contents raw =>
    obtain ⟨quote, hq, ht⟩ := Printer.exists_quotable {} h
    refine ⟨fun afterOperand => ?_, fun lexer afterOperand hf => ⟨afterOperand, hf⟩⟩
    rw [text, ht]
    exact ⟨_, _, hq.first? afterOperand rest, rfl, rfl, nofun⟩
  | computed name =>
    have hm : ('[', TokenKind.openBracket) ∈ marks := by decide
    have hstarts : StartsMember (['['] ++ (name.toList ++ [']'] ++ rest)) :=
      startsMember_of_begins (fun afterOperand => begins_mark hm afterOperand _) rfl rfl nofun
    exact ⟨hstarts, fun lexer afterOperand hf => ⟨afterOperand, hf⟩⟩

theorem first?_asyncFunction (afterOperand : Bool) (rest : List Char) :
    Rule.first? .default afterOperand (Scan.asyncWord ++ ' ' :: (Scan.functionWord ++ '(' :: rest)) =
      some (.keywordForm .functionKeyword .functionHead,
        .whole (Scan.asyncWord ++ ' ' :: Scan.functionWord)) := by
  cases afterOperand <;>
    exact Rule.first?_of_startingWith rfl (Rule.startingWith_of_lookup rfl) rfl

/-- Before the word `function`, the name `async` is not taken for a modifier. -/
theorem stands_async (rest : List Char) :
    (MemberKey.named "async").Stands (' ' :: (Scan.functionWord ++ '(' :: rest)) := by
  have htext : (MemberKey.named "async").text = Scan.asyncWord := rfl
  have hne : Scan.asyncWord ++ ' ' :: (Scan.functionWord ++ '(' :: rest) ≠ [] := List.cons_ne_nil _ _
  rw [← htext] at hne
  have hfirst (afterOperand : Bool) := first?_asyncFunction afterOperand rest
  rw [← htext] at hfirst
  refine ⟨fun afterOperand => ⟨_, _, hfirst afterOperand, rfl, rfl, nofun⟩, fun lexer afterOperand hf => ?_⟩
  refine ⟨by decide, rfl, ?_, hf.reread hne (hfirst afterOperand) rfl .names⟩
  obtain ⟨earlier, newline, hr, rfl⟩ := hf.emits hne (hfirst afterOperand) rfl
  exact ⟨_, rfl, rfl, nofun⟩

end MemberKey

/-- How modifiers and a key are written. -/
def memberText (modifiers : List Modifier) (key : MemberKey) : List Char :=
  (modifiers.flatMap fun modifier => modifier.spelling ++ modifier.gap) ++ key.text

theorem memberText_nil (key : MemberKey) : memberText [] key = key.text := rfl

theorem memberText_cons (modifier : Modifier) (modifiers : List Modifier) (key : MemberKey) :
    memberText (modifier :: modifiers) key =
      modifier.spelling ++ (modifier.gap ++ memberText modifiers key) := by
  simp [memberText]

/-- Each modifier is read as such before what follows it. -/
inductive InOrder (key : MemberKey) (rest : List Char) : List Modifier → Prop
  | nil : InOrder key rest []
  | cons {modifier : Modifier} {modifiers : List Modifier} :
    modifier.Reads (memberText modifiers key ++ rest) → InOrder key rest modifiers →
      InOrder key rest (modifier :: modifiers)

/-- A modifier that is there or not. -/
def flag (isThere : Bool) (modifier : Modifier) : List Modifier := if isThere then [modifier] else []

section InOrder

variable {key : MemberKey} {rest : List Char} {modifiers : List Modifier}

theorem InOrder.startsMember (h : InOrder key rest modifiers) (hs : key.Stands rest) :
    StartsMember (memberText modifiers key ++ rest) := by
  cases h with
  | nil => exact hs.starts
  | @cons modifier modifiers hr _ =>
    obtain ⟨ho, hk, he, -⟩ := modifier.kind_facts
    have ht : modifier.kind.isTrivia = false := by
      simp only [TokenKind.isOrdinary, Bool.and_eq_true, Bool.not_eq_true'] at ho
      exact ho.1
    rw [memberText_cons, List.append_assoc, List.append_assoc]
    exact startsMember_of_begins (Modifier.begins hr) ht hk he

/-- In its place, a modifier is read as such before the others and the key, unless it is `async` and
the key `function` follows at once. -/
theorem Modifier.reads_memberText {modifier : Modifier} (hw : key.WellFormed) (he : EndsKey rest)
    (hm : modifiers.head? ≠ some modifier)
    (ha : modifier = .async → modifiers = [] → key ≠ .named "function") :
    modifier.Reads (memberText modifiers key ++ rest) := by
  cases modifiers with
  | nil =>
    obtain ⟨c, behind, ht, hs, heq, hstar⟩ := hw.exists_head rest
    rw [memberText_nil]
    refine ⟨?_, ?_, fun hasync => hw.plainFunction?_eq_none (ha hasync rfl) he⟩
    · rw [ht]
      rintro _ ⟨⟩
      exact ⟨hs, heq, fun _ => hstar⟩
    · rw [ht]
      exact List.cons_ne_nil _ _
  | cons next modifiers =>
    rw [memberText_cons]
    refine ⟨?_, by cases next <;> exact List.cons_ne_nil _ _, fun _ => by cases next <;> rfl⟩
    have hne : modifier = .generator → next ≠ .generator := by
      rintro rfl rfl
      exact hm rfl
    cases next <;> (rintro _ ⟨⟩; refine ⟨by decide, by decide, fun hg => ?_⟩)
    case generator => exact absurd rfl (hne hg)
    all_goals decide

theorem InOrder.flag {isThere : Bool} {modifier : Modifier} (h : InOrder key rest modifiers)
    (hr : isThere = true → modifier.Reads (memberText modifiers key ++ rest)) :
    InOrder key rest (flag isThere modifier ++ modifiers) := by
  cases isThere with
  | false => exact h
  | true => exact .cons (hr rfl) h

theorem InOrder.of_flag {isThere : Bool} {modifier : Modifier}
    (h : InOrder key rest (ScriptTree.flag isThere modifier ++ modifiers)) :
    InOrder key rest modifiers := by
  cases isThere with
  | false => exact h
  | true =>
    cases h with
    | cons _ h => exact h

end InOrder

/-- The stream stands on a member, at the first of some modifiers or at the key. -/
def Lexer.OnMember (lexer : Lexer) (key : MemberKey) (rest : List Char) : List Modifier → Prop
  | [] => lexer.OnKey rest key
  | modifiers => ∃ afterOperand, lexer.Facing .default afterOperand (memberText modifiers key ++ rest)

theorem MemberKey.Stands.onMember {key : MemberKey} {rest : List Char} (h : key.Stands rest)
    {lexer : Lexer} {afterOperand : Bool} {modifiers : List Modifier}
    (hf : lexer.Facing .default afterOperand (memberText modifiers key ++ rest)) :
    lexer.OnMember key rest modifiers := by
  cases modifiers with
  | nil => exact h.lands lexer afterOperand hf
  | cons => exact ⟨afterOperand, hf⟩

namespace ParserM

variable {parser : Parser} {key : MemberKey} {rest : List Char}

theorem leads_step_of_ne {word : Token} {modifier : Modifier} {holds : Parser → Prop}
    (hw : parser.lexer.current = some word) (hk : word.kind ≠ modifier.kind) (hh : holds parser) :
    Leads modifier.step parser false holds := by
  refine ⟨parser, ?_, .refl parser, hh⟩
  have hb : (word.kind == modifier.kind) = false := beq_eq_false_iff_ne.mpr hk
  cases modifier <;>
  · simp only [Modifier.kind] at hb
    simp only [Modifier.step, acceptModifier, acceptAsync, acceptText, run_bind, run_isAt, run_isAtText,
      hw, Option.any_some, Token.isText, hb, Bool.false_and, Bool.false_eq_true, if_false, run_pure]

/-- A name that is no modifier stays where it is, for all that it may look like one. -/
theorem leads_step_name {name : List Char} (h : parser.lexer.OnName name rest) (modifier : Modifier) :
    Leads modifier.step parser false fun after => after.lexer.OnName name rest := by
  obtain ⟨word, hw, hcan, -⟩ := h.word
  have haccept (kind : TokenKind) (hk : word.kind = kind → word.isModifier = true) :
      Leads (acceptModifier kind) parser false fun after => after.lexer.OnName name rest := by
    by_cases he : word.kind = kind
    · refine (leads_tryModifier_name h hw (hk he) false).of_eq ?_
      simp only [acceptModifier, run_bind, run_isAt, hw, Option.any_some, he, beq_self_eq_true, if_true]
    · refine ⟨parser, ?_, .refl parser, h⟩
      simp only [acceptModifier, run_bind, run_isAt, hw, Option.any_some, beq_eq_false_iff_ne.mpr he,
        Bool.false_eq_true, if_false, run_pure]
  cases modifier with
  | static => exact haccept _ fun hk => by simp [Token.isModifier, hk]
  | getter => exact haccept _ fun hk => by simp [Token.isModifier, hk]
  | setter => exact haccept _ fun hk => by simp [Token.isModifier, hk]
  | async =>
    by_cases ht : word.isText .identifierName "async" = true
    · refine (leads_tryModifier_name h hw (by simp [Token.isModifier, ht]) true).of_eq ?_
      simp only [Modifier.step, acceptAsync, run_bind, run_isAtText, hw, Option.any_some, ht, if_true]
    · refine ⟨parser, ?_, .refl parser, h⟩
      simp only [Modifier.step, acceptAsync, run_bind, run_isAtText, hw, Option.any_some, ht,
        Bool.false_eq_true, if_false, run_pure]
  | generator =>
    -- a star is no word, so it is not what the name was taken for
    have ht : word.isText .operator "*" = false := by
      rw [Bool.eq_false_iff]
      intro ht
      simp only [Token.isText, Bool.and_eq_true, beq_iff_eq] at ht
      rw [canBeName, ht.1, ht.2] at hcan
      exact absurd hcan (by decide)
    refine ⟨parser, ?_, .refl parser, h⟩
    simp only [Modifier.step, acceptText, run_bind, run_isAtText, hw, Option.any_some, ht,
      Bool.false_eq_true, if_false, run_pure]

theorem leads_step_key (h : parser.lexer.OnKey rest key) (hw : key.WellFormed) (modifier : Modifier) :
    Leads modifier.step parser false fun after => after.lexer.OnKey rest key := by
  cases key with
  | named name => exact leads_step_name h modifier
  | string contents raw =>
    obtain ⟨afterOperand, hf⟩ := h
    obtain ⟨quote, hq, ht⟩ := Printer.exists_quotable {} hw
    rw [MemberKey.text, ht] at hf
    obtain ⟨⟨word, hc, hk⟩, -⟩ := leadsTo_string hq hf
    refine leads_step_of_ne hc (by rw [hk]; cases modifier <;> nofun) ⟨afterOperand, ?_⟩
    rw [MemberKey.text, ht]
    exact hf
  | computed name =>
    obtain ⟨afterOperand, hf⟩ := h
    obtain ⟨word, hc, hk, -⟩ := (Lexer.Facing.shows_mark .openBracket hf (by decide)).token
    exact leads_step_of_ne hc (by rw [hk]; cases modifier <;> nofun) ⟨afterOperand, hf⟩

/-- A modifier is looked for where it may stand: it is stepped over if it is there, and nothing is lost
if it is not. -/
theorem leads_flag (isThere : Bool) (modifier : Modifier) (modifiers : List Modifier)
    (h : parser.lexer.OnMember key rest (flag isThere modifier ++ modifiers))
    (hl : InOrder key rest (flag isThere modifier ++ modifiers)) (hm : modifiers.head? ≠ some modifier)
    (hw : key.WellFormed) (hs : key.Stands rest) :
    Leads modifier.step parser isThere fun after => after.lexer.OnMember key rest modifiers := by
  have hshows {lexer : Lexer} {other : Modifier} {others : List Modifier}
      (h : lexer.OnMember key rest (other :: others))
      (hr : other.Reads (memberText others key ++ rest)) : ∃ afterOperand, lexer.Shows other.kind
        other.precedence? other.spelling afterOperand (other.gap ++ (memberText others key ++ rest)) := by
    obtain ⟨afterOperand, hf⟩ := h
    rw [memberText_cons, List.append_assoc, List.append_assoc] at hf
    exact ⟨_, hf.shows (Modifier.begins hr afterOperand) other.kind_facts.1 other.kind_facts.2.2.2⟩
  cases isThere with
  | false =>
    cases modifiers with
    | nil => exact leads_step_key h hw modifier
    | cons other others =>
      cases hl with
      | cons hr _ =>
        obtain ⟨_, hshow⟩ := hshows h hr
        obtain ⟨word, hc, hk, -⟩ := hshow.token
        refine leads_step_of_ne hc (fun he => hm ?_) h
        have hinj : ∀ a b : Modifier, a.kind = b.kind → a = b := by
          intro a b
          cases a <;> cases b <;> first | exact fun _ => rfl | nofun
        rw [List.head?_cons, hinj _ _ (hk.symm.trans he)]
  | true =>
    cases hl with
    | cons hr hrest =>
      obtain ⟨afterOperand, hshow⟩ := hshows h hr
      obtain ⟨word, hc, hk, hv, -⟩ := hshow.token
      have hmember := hrest.startsMember hs
      suffices hx : LeadsTo modifier.step parser true afterOperand (memberText modifiers key ++ rest) by
        obtain ⟨after, hx, hmoved, hf⟩ := hx
        exact ⟨after, hx, hmoved, hs.onMember hf⟩
      have hword (sameLine : Bool) (hgap : modifier.gap = [' ']) : LeadsTo (tryModifier sameLine) parser
          true afterOperand (memberText modifiers key ++ rest) := by
        rw [hgap] at hshow
        exact leads_tryModifier_member hshow hmember hr.nonempty sameLine
      have haccept (hgap : modifier.gap = [' ']) : LeadsTo (acceptModifier modifier.kind) parser true
          afterOperand (memberText modifiers key ++ rest) := by
        refine (hword false hgap).of_eq ?_
        simp only [acceptModifier, run_bind, run_isAt, hc, Option.any_some, hk, beq_self_eq_true, if_true]
      cases modifier with
      | static => exact haccept rfl
      | getter => exact haccept rfl
      | setter => exact haccept rfl
      | async =>
        refine (hword true rfl).of_eq ?_
        have ht : word.isText .identifierName "async" = true := by
          simp only [Token.isText, hk, hv]
          rfl
        simp only [Modifier.step, acceptAsync, run_bind, run_isAtText, hc, Option.any_some, ht, if_true]
      | generator => exact leadsTo_acceptText hshow

end ParserM

end ScriptTree
