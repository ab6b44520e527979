import ScriptTree.Grammar.Operator

/-!
The constructs that are being built, and what they decide: whether a token continues the operand
before it, and what an opening brace or a `function` means.
-/

namespace ScriptTree

/-- The parts of a construct that are filled one after the other. -/
inductive Slot where
  /-- A body. -/
  | body
  /-- The expression of a statement. -/
  | expression
  /-- A condition, or the value of a case. -/
  | test
  /-- What is done if a test holds. -/
  | consequent
  /-- What is done if a test fails. -/
  | alternate
  /-- The first clause of a loop head, or the value of a variable. -/
  | initial
  /-- The last clause of a loop head. -/
  | step
  /-- The right side of an assignment or of a loop head. -/
  | right
  /-- The right operand of a binary operator. -/
  | operand
  /-- The one operand of a construct. -/
  | argument
  /-- An argument of a call. -/
  | arguments
  /-- What `new` constructs from. -/
  | callee
  /-- The key of an access, in brackets. -/
  | computed
  /-- An element of an array. -/
  | elements
  /-- A member of an object. -/
  | properties
  /-- The key of a member, in brackets. -/
  | key
  /-- The value of a member. -/
  | value
  /-- A parameter. -/
  | params
  /-- The target of a declarator. -/
  | target
  /-- What the cases are compared with. -/
  | discriminant
  /-- The names of an import or export. -/
  | specifiers
  /-- What is exported. -/
  | declaration
  /-- What a class extends. -/
  | superClass
  /-- An expression of a template or of a sequence. -/
  | expressions
  deriving DecidableEq, Repr

/-- A construct in progress. -/
inductive Frame where
  /-- A part of a node is being filled. -/
  | filling (kind : NodeKind) (slot : Slot)
  /-- An operand in parentheses is being read. -/
  | parentheses
  /-- A finished operand of some kind is being extended. -/
  | extending (kind : NodeKind)
  deriving DecidableEq, Repr

namespace Frame

/-- The kind of the node in progress. -/
def kind? : Frame → Option NodeKind
  | filling kind _ => some kind
  | parentheses => none
  | extending kind => some kind

/-- Whether the part being filled is a statement. -/
def holdsStatement : Frame → Bool
  | filling .program .body | filling .blockStatement .body => true
  | filling .switchCase .consequent => true
  | filling .ifStatement .consequent | filling .ifStatement .alternate => true
  | filling .forStatement .body => true
  | filling .forInStatement .body | filling .forOfStatement .body => true
  | filling .whileStatement .body | filling .doWhileStatement .body => true
  | filling .labeledStatement .body => true
  | _ => false

/-- Whether the part being filled is the operand of a unary operator. -/
def isUnaryArgument : Frame → Bool
  | filling .unaryExpression .argument | filling .updateExpression .argument => true
  | _ => false

/-- Whether the part being filled is the right operand of a binary operator. -/
def isBinaryRight : Frame → Bool
  | filling .binaryExpression .operand => true
  | _ => false

/-- Whether the part being filled is an argument of a call. -/
def isArgument : Frame → Bool
  | filling .callExpression .arguments | filling .newExpression .arguments => true
  | _ => false

/-- Whether the part being filled is a parameter. -/
def isParameter : Frame → Bool
  | filling .functionDeclaration .params | filling .functionExpression .params => true
  | filling .arrowFunctionExpression .params => true
  | _ => false

/-- Whether the part being filled is the target of a declarator. -/
def isDeclaratorTarget : Frame → Bool
  | filling .variableDeclarator .target => true
  | _ => false

/-- Nodes in which a comma never makes a sequence. -/
def ownsCommas : NodeKind → Bool
  | .arrayPattern | .objectExpression | .objectPattern | .sequenceExpression
  | .conditionalExpression | .importDeclaration | .importSpecifier | .exportNamedDeclaration
  | .exportSpecifier | .exportDefaultStatement | .spreadElement | .yieldExpression | .classBody
  | .propertyDefinition | .variableDeclarator | .callExpression | .newExpression
  | .unaryExpression | .updateExpression => true
  | _ => false

/-- Whether a comma belongs to the construct in progress rather than to a sequence. -/
def claimsComma (frame : Frame) : Bool :=
  frame.kind?.any ownsCommas || frame.isParameter || frame.isBinaryRight ||
    match frame with
    | parentheses => true
    | filling .arrowFunctionExpression .body => true
    | filling .assignmentExpression .right => true
    | _ => false

/-- Whether a new chain of operands starts here: in a statement or between brackets. -/
def opensChain (frame : Frame) : Bool :=
  frame.kind?.any NodeKind.isStatement ||
    match frame with
    | parentheses => true
    | filling _ .computed | filling _ .elements | filling _ .expressions => true
    | filling _ .properties | filling _ .value | filling _ .key => true
    | _ => false

end Frame

/-- The constructs in progress, innermost first. -/
abbrev Context : Type := List Frame

namespace Context

/-- Whether the innermost construct has a property. -/
def innermost (context : Context) (holds : Frame → Bool) : Bool :=
  match context with
  | [] => false
  | frame :: _ => holds frame

/-- Whether an operand is being extended. -/
def isExtending (context : Context) : Bool :=
  context.innermost fun frame => match frame with
    | .extending _ => true
    | _ => false

/-- Whether an opening brace starts a block. -/
def expectsBlock (context : Context) : Bool :=
  context.innermost fun frame => frame.holdsStatement || match frame with
    | .filling .arrowFunctionExpression .body | .filling .functionDeclaration .body => true
    | .filling .functionExpression .body => true
    | _ => false

/-- Whether a function or a class is a declaration. -/
def expectsDeclaration (context : Context) : Bool :=
  context.innermost fun frame => frame.holdsStatement || match frame with
    | .filling .exportStatement .declaration => true
    | .filling .exportDefaultStatement .declaration => true
    | _ => false

/-- Whether an opening brace starts a pattern: inside another one, as an element of an array, as the
target of a declarator or as a parameter. -/
def expectsPattern (context : Context) : Bool :=
  context.innermost fun frame =>
    frame.kind? == some .objectPattern || frame.isDeclaratorTarget || frame.isParameter ||
      match frame with
      | .filling .arrayPattern .elements => true
      | _ => false

/-- Whether no construct of the current chain of operands claims commas for itself. -/
def chainAdmitsSequence : Context → Bool
  | [] => true
  | frame :: context =>
    if frame.isArgument || frame.isUnaryArgument then false
    else if frame.opensChain then true
    else chainAdmitsSequence context

/-- Whether a comma makes a sequence. -/
def admitsSequence (context : Context) : Bool :=
  context.innermost (fun frame => !frame.claimsComma) && chainAdmitsSequence context

/-- Whether an operand is finished as it stands. Statements are, and a class in the place of one. -/
def isComplete (context : Context) (operand : Node) : Bool :=
  match operand with
  | .classDeclaration .. => context.expectsDeclaration
  | _ => operand.isStatement

end Context

/-- Operands that can be called. -/
def Node.isCallable : Node → Bool
  | .identifier .. | .member .. | .function .expression .. | .call .plain .. | .sequence ..
  | .arrowFunction .. => true
  | _ => false

/-- Operands that can be counted up or down. -/
def Node.isUpdatable : Node → Bool
  | .identifier .. | .member .. => true
  | _ => false

namespace Frame

/-- Whether an argument list may follow an operand. -/
def admitsCall (frame : Frame) (operand : Node) : Bool :=
  operand.isCallable && frame.kind? != some .classBody &&
    match frame with
    | filling .objectExpression .key | filling .objectPattern .key => false
    | _ => true

/-- Whether a binary operator may follow an operand. The words `in` and `of` behind the first clause
of a loop head belong to the loop. -/
def admitsBinary (frame : Frame) (operator : String) : Bool :=
  !frame.isBinaryRight && !frame.isUnaryArgument && !frame.isDeclaratorTarget &&
    !((operator == "in" || operator == "of") && match frame with
      | filling .forStatement .initial => true
      | _ => false)

/-- Whether an assignment operator may follow an operand. -/
def admitsAssignment (frame : Frame) (operand : Node) : Bool :=
  operand.isAssignable && !frame.isDeclaratorTarget && frame.kind? != some .classBody &&
    !frame.isBinaryRight && !frame.isUnaryArgument

/-- Whether a question mark may follow an operand. -/
def admitsConditional (frame : Frame) : Bool :=
  !frame.isBinaryRight && !frame.isUnaryArgument && !frame.isDeclaratorTarget

end Frame

/-- Whether a token continues the operand before it. The callee behind `new` takes member accesses
only: the arguments belong to the `new`. -/
def Context.admits (context : Context) (operand : Node) (token : Token) : Bool :=
  match context with
  | [] => false
  | .filling .newExpression .callee :: _ => token.kind == .dot || token.kind == .openBracket
  | frame :: _ =>
    match token.kind with
    | .dot | .openBracket => true
    | .openParen => frame.admitsCall operand
    | .operator =>
      if Operator.isUpdate token.value then operand.isUpdatable && !token.afterNewline
      else (Operator.binaryStrength? token).isSome && frame.admitsBinary token.value
    | .assignmentOperator => frame.admitsAssignment operand
    | .question => frame.admitsConditional
    | .comma => context.admitsSequence
    | .arrow => operand.isIdentifier && !frame.isDeclaratorTarget
    | .colon => operand.isIdentifier && match frame with
      | .filling .expressionStatement .expression => true
      | _ => false
    | _ => false

end ScriptTree
