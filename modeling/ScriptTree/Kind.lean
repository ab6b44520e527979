/-!
The kinds of tokens and of tree nodes, with the names by which they are shown.
-/

namespace ScriptTree

/-- The kinds of tokens. The words from `reservedWord` to `defaultKeyword` are the keywords. -/
inductive TokenKind where
  | whitespace
  | comment
  | reservedWord
  | booleanLiteral
  | declarationKeyword
  | functionKeyword
  | thisKeyword
  | newKeyword
  | yieldKeyword
  | forKeyword
  | doKeyword
  | whileKeyword
  | continueKeyword
  | breakKeyword
  | classKeyword
  | extendsKeyword
  | staticKeyword
  | getKeyword
  | setKeyword
  | returnKeyword
  | importKeyword
  | importOperator
  | exportDefaultKeyword
  | exportKeyword
  | ifKeyword
  | elseKeyword
  | switchKeyword
  | caseKeyword
  | defaultKeyword
  | operator
  | assignmentOperator
  | arrow
  | ellipsis
  | numericLiteral
  | stringLiteral
  | regexLiteral
  | templateChunk
  | identifierName
  | dot
  | backtick
  | question
  | openParen
  | closeParen
  | openBrace
  | closeBrace
  | openBracket
  | closeBracket
  | semicolon
  | colon
  | comma
  deriving DecidableEq, Repr, Inhabited

/-- The kinds of tree nodes. -/
inductive NodeKind where
  | program
  | emptyStatement
  | expressionStatement
  | blockStatement
  | returnStatement
  | ifStatement
  | switchStatement
  | switchCase
  | forStatement
  | forInStatement
  | forOfStatement
  | doWhileStatement
  | whileStatement
  | continueStatement
  | breakStatement
  | labeledStatement
  | variableDeclaration
  | variableDeclarator
  | functionDeclaration
  | classDeclaration
  | classBody
  | propertyDefinition
  | methodDefinition
  | importDeclaration
  | importDefaultSpecifier
  | importNamespaceSpecifier
  | importSpecifier
  | exportStatement
  | exportDefaultStatement
  | exportNamedDeclaration
  | exportSpecifier
  | identifier
  | literal
  | templateLiteral
  | templateElement
  | spreadElement
  | thisExpression
  | arrayPattern
  | objectExpression
  | objectPattern
  | property
  | functionExpression
  | arrowFunctionExpression
  | yieldExpression
  | unaryExpression
  | updateExpression
  | binaryExpression
  | logicalExpression
  | assignmentExpression
  | conditionalExpression
  | memberExpression
  | callExpression
  | newExpression
  | sequenceExpression
  deriving DecidableEq, Repr, Inhabited

namespace TokenKind

/-- All token kinds, in order. -/
def all : List TokenKind :=
  [.whitespace, .comment, .reservedWord, .booleanLiteral, .declarationKeyword, .functionKeyword,
   .thisKeyword, .newKeyword, .yieldKeyword, .forKeyword, .doKeyword, .whileKeyword,
   .continueKeyword, .breakKeyword, .classKeyword, .extendsKeyword, .staticKeyword,
   .getKeyword, .setKeyword, .returnKeyword, .importKeyword, .importOperator,
   .exportDefaultKeyword, .exportKeyword, .ifKeyword, .elseKeyword, .switchKeyword,
   .caseKeyword, .defaultKeyword, .operator, .assignmentOperator, .arrow, .ellipsis,
   .numericLiteral, .stringLiteral, .regexLiteral, .templateChunk, .identifierName, .dot,
   .backtick, .question, .openParen, .closeParen, .openBrace, .closeBrace, .openBracket,
   .closeBracket, .semicolon, .colon, .comma]

/-- The name of a token kind. -/
def name : TokenKind → String
  | .whitespace => "WhitespaceTrivia"
  | .comment => "CommentTrivia"
  | .reservedWord => "ReservedWord"
  | .booleanLiteral => "BooleanLiteral"
  | .declarationKeyword => "DeclarationKeyword"
  | .functionKeyword => "FunctionKeyword"
  | .thisKeyword => "ThisKeyword"
  | .newKeyword => "NewKeyword"
  | .yieldKeyword => "YieldKeyword"
  | .forKeyword => "ForKeyword"
  | .doKeyword => "DoKeyword"
  | .whileKeyword => "WhileKeyword"
  | .continueKeyword => "ContinueKeyword"
  | .breakKeyword => "BreakKeyword"
  | .classKeyword => "ClassKeyword"
  | .extendsKeyword => "ExtendsKeyword"
  | .staticKeyword => "StaticKeyword"
  | .getKeyword => "GetKeyword"
  | .setKeyword => "SetKeyword"
  | .returnKeyword => "ReturnKeyword"
  | .importKeyword => "ImportKeyword"
  | .importOperator => "ImportOperator"
  | .exportDefaultKeyword => "ExportDefaultKeyword"
  | .exportKeyword => "ExportKeyword"
  | .ifKeyword => "IfKeyword"
  | .elseKeyword => "ElseKeyword"
  | .switchKeyword => "SwitchKeyword"
  | .caseKeyword => "CaseKeyword"
  | .defaultKeyword => "DefaultKeyword"
  | .operator => "Operator"
  | .assignmentOperator => "AssignmentOperator"
  | .arrow => "ArrowToken"
  | .ellipsis => "DotDotDotToken"
  | .numericLiteral => "NumericLiteral"
  | .stringLiteral => "StringLiteral"
  | .regexLiteral => "RegularExpressionLiteral"
  | .templateChunk => "TemplateChunk"
  | .identifierName => "IdentifierName"
  | .dot => "DotToken"
  | .backtick => "Backtick"
  | .question => "QuestionToken"
  | .openParen => "OpenParenToken"
  | .closeParen => "CloseParenToken"
  | .openBrace => "OpenBraceToken"
  | .closeBrace => "CloseBraceToken"
  | .openBracket => "OpenBracketToken"
  | .closeBracket => "CloseBracketToken"
  | .semicolon => "SemicolonToken"
  | .colon => "ColonToken"
  | .comma => "CommaToken"

/-- The place of a token kind among all kinds. -/
def index (kind : TokenKind) : Nat := kind.ctorIdx

/-- Words with a meaning of their own, from `reservedWord` to `defaultKeyword`. -/
def isKeyword (kind : TokenKind) : Bool :=
  decide (reservedWord.index ≤ kind.index) && decide (kind.index ≤ defaultKeyword.index)

/-- White space and comments. -/
def isTrivia (kind : TokenKind) : Bool := kind == .whitespace || kind == .comment

/-- Token kinds that end an operand. A slash that follows one divides; it starts no regular
expression. -/
def closesOperand : TokenKind → Bool
  | .identifierName | .numericLiteral | .stringLiteral | .regexLiteral | .booleanLiteral
  | .reservedWord | .thisKeyword | .getKeyword | .setKeyword | .staticKeyword | .closeParen
  | .closeBracket | .backtick => true
  | _ => false

/-- The spelling of a token kind that has only one. -/
def punctuation? : TokenKind → Option String
  | .arrow => some "=>"
  | .ellipsis => some "..."
  | .dot => some "."
  | .backtick => some "\x60"
  | .question => some "?"
  | .openParen => some "("
  | .closeParen => some ")"
  | .openBrace => some "\x7b"
  | .closeBrace => some "\x7d"
  | .openBracket => some "["
  | .closeBracket => some "]"
  | .semicolon => some ";"
  | .colon => some ":"
  | .comma => some ","
  | _ => none

/-- How a missing token of this kind is called in a message. -/
def wanted (kind : TokenKind) : String := kind.punctuation?.getD kind.name

end TokenKind

namespace NodeKind

/-- All node kinds, in order. -/
def all : List NodeKind :=
  [.program, .emptyStatement, .expressionStatement, .blockStatement, .returnStatement,
   .ifStatement, .switchStatement, .switchCase, .forStatement, .forInStatement,
   .forOfStatement, .doWhileStatement, .whileStatement, .continueStatement, .breakStatement,
   .labeledStatement, .variableDeclaration, .variableDeclarator, .functionDeclaration,
   .classDeclaration, .classBody, .propertyDefinition, .methodDefinition, .importDeclaration,
   .importDefaultSpecifier, .importNamespaceSpecifier, .importSpecifier, .exportStatement,
   .exportDefaultStatement, .exportNamedDeclaration, .exportSpecifier, .identifier, .literal,
   .templateLiteral, .templateElement, .spreadElement, .thisExpression, .arrayPattern,
   .objectExpression, .objectPattern, .property, .functionExpression,
   .arrowFunctionExpression, .yieldExpression, .unaryExpression, .updateExpression,
   .binaryExpression, .logicalExpression, .assignmentExpression, .conditionalExpression,
   .memberExpression, .callExpression, .newExpression, .sequenceExpression]

/-- The name of a node kind. -/
def name : NodeKind → String
  | .program => "Program"
  | .emptyStatement => "EmptyStatement"
  | .expressionStatement => "ExpressionStatement"
  | .blockStatement => "BlockStatement"
  | .returnStatement => "ReturnStatement"
  | .ifStatement => "IfStatement"
  | .switchStatement => "SwitchStatement"
  | .switchCase => "SwitchCase"
  | .forStatement => "ForStatement"
  | .forInStatement => "ForInStatement"
  | .forOfStatement => "ForOfStatement"
  | .doWhileStatement => "DoWhileStatement"
  | .whileStatement => "WhileStatement"
  | .continueStatement => "ContinueStatement"
  | .breakStatement => "BreakStatement"
  | .labeledStatement => "LabeledStatement"
  | .variableDeclaration => "VariableDeclaration"
  | .variableDeclarator => "VariableDeclarator"
  | .functionDeclaration => "FunctionDeclaration"
  | .classDeclaration => "ClassDeclaration"
  | .classBody => "ClassBody"
  | .propertyDefinition => "PropertyDefinition"
  | .methodDefinition => "MethodDefinition"
  | .importDeclaration => "ImportDeclaration"
  | .importDefaultSpecifier => "ImportDefaultSpecifier"
  | .importNamespaceSpecifier => "ImportNamespaceSpecifier"
  | .importSpecifier => "ImportSpecifier"
  | .exportStatement => "ExportStatement"
  | .exportDefaultStatement => "ExportDefaultStatement"
  | .exportNamedDeclaration => "ExportNamedDeclaration"
  | .exportSpecifier => "ExportSpecifier"
  | .identifier => "Identifier"
  | .literal => "Literal"
  | .templateLiteral => "TemplateLiteral"
  | .templateElement => "TemplateElement"
  | .spreadElement => "SpreadElement"
  | .thisExpression => "ThisExpression"
  | .arrayPattern => "ArrayPattern"
  | .objectExpression => "ObjectExpression"
  | .objectPattern => "ObjectPattern"
  | .property => "Property"
  | .functionExpression => "FunctionExpression"
  | .arrowFunctionExpression => "ArrowFunctionExpression"
  | .yieldExpression => "YieldExpression"
  | .unaryExpression => "UnaryExpression"
  | .updateExpression => "UpdateExpression"
  | .binaryExpression => "BinaryExpression"
  | .logicalExpression => "LogicalExpression"
  | .assignmentExpression => "AssignmentExpression"
  | .conditionalExpression => "ConditionalExpression"
  | .memberExpression => "MemberExpression"
  | .callExpression => "CallExpression"
  | .newExpression => "NewExpression"
  | .sequenceExpression => "SequenceExpression"

/-- The place of a node kind among all kinds: the nodes follow the tokens. -/
def index (kind : NodeKind) : Nat := TokenKind.all.length + kind.ctorIdx

/-- Node kinds that stand as statements and never grow into a larger expression. -/
def isStatement : NodeKind → Bool
  | .emptyStatement | .expressionStatement | .blockStatement | .returnStatement | .ifStatement
  | .switchStatement | .forStatement | .forInStatement | .forOfStatement | .doWhileStatement
  | .whileStatement | .continueStatement | .breakStatement | .labeledStatement
  | .variableDeclaration | .functionDeclaration | .classDeclaration | .importDeclaration
  | .exportStatement | .exportDefaultStatement | .exportNamedDeclaration => true
  | _ => false

end NodeKind

/-- The kind of a token or of a node. -/
inductive Kind where
  /-- A kind of token. -/
  | token (kind : TokenKind)
  /-- A kind of node. -/
  | node (kind : NodeKind)
  deriving DecidableEq, Repr

namespace Kind

/-- All kinds: first the tokens, then the nodes. -/
def all : List Kind := TokenKind.all.map token ++ NodeKind.all.map node

/-- The name of a kind. -/
def name : Kind → String
  | .token kind => kind.name
  | .node kind => kind.name

/-- The kind with a given name. -/
def ofName? (name : String) : Option Kind := all.find? fun kind => kind.name == name

/-- The place of a kind among all kinds. -/
def index : Kind → Nat
  | .token kind => kind.index
  | .node kind => kind.index

/-- Whether this is a keyword. -/
def isKeyword : Kind → Bool
  | .token kind => kind.isKeyword
  | .node _ => false

/-- Whether this is white space or a comment. -/
def isTrivia : Kind → Bool
  | .token kind => kind.isTrivia
  | .node _ => false

/-- Whether this is a kind of token. -/
def isToken : Kind → Bool
  | .token _ => true
  | .node _ => false

/-- Whether this is a kind of node. -/
def isNode (kind : Kind) : Bool := !kind.isToken

/-- Whether nodes of this kind stand as statements. -/
def isStatement : Kind → Bool
  | .token _ => false
  | .node kind => kind.isStatement

/-- Whether a token of this kind ends an operand. -/
def closesOperand : Kind → Bool
  | .token kind => kind.closesOperand
  | .node _ => false

/-- The spelling of a kind that has only one. -/
def punctuation? : Kind → Option String
  | .token kind => kind.punctuation?
  | .node _ => none

end Kind

end ScriptTree
