import ScriptTree.Kind
import ScriptTree.Number.Binary64

/-!
The tree of a program. One type holds all nodes: a construct names the role of each child, and any
node may stand in any place.
-/

namespace ScriptTree

/-- The keyword of a variable declaration. -/
inductive VariableKind where
  /-- Declared with `var`. -/
  | functionScoped
  /-- Declared with `let`. -/
  | blockScoped
  /-- Declared with `const`. -/
  | constant
  deriving DecidableEq, Repr

namespace VariableKind

/-- The spelling of the keyword. -/
def keyword : VariableKind → String
  | .functionScoped => "var"
  | .blockScoped => "let"
  | .constant => "const"

/-- The variable kind that a word declares. -/
def ofKeyword? (word : String) : Option VariableKind :=
  [functionScoped, blockScoped, constant].find? fun kind => kind.keyword == word

end VariableKind

/-- What a loop over the members of a value runs through. -/
inductive ForEachKind where
  /-- The keys, `for (k in v)`. -/
  | keys
  /-- The values, `for (x of v)`. -/
  | values
  deriving DecidableEq, Repr

/-- The spelling of the word between the two sides of the loop head. -/
def ForEachKind.keyword : ForEachKind → String
  | .keys => "in"
  | .values => "of"

/-- The two statements that leave the course of a loop. -/
inductive JumpKind where
  /-- Goes on with the next round. -/
  | nextRound
  /-- Leaves the loop. -/
  | leaveLoop
  deriving DecidableEq, Repr

/-- The spelling of a jump. -/
def JumpKind.keyword : JumpKind → String
  | .nextRound => "continue"
  | .leaveLoop => "break"

/-- Whether a function stands as a statement or as an operand. -/
inductive FunctionRole where
  /-- A statement. -/
  | declaration
  /-- An operand. -/
  | expression
  deriving DecidableEq, Repr

/-- What a class method is. -/
inductive MethodKind where
  /-- A plain method. -/
  | method
  /-- Reads a property. -/
  | getter
  /-- Writes a property. -/
  | setter
  deriving DecidableEq, Repr

/-- The name of a method kind. -/
def MethodKind.name : MethodKind → String
  | .method => "method"
  | .getter => "get"
  | .setter => "set"

/-- What an object member is. -/
inductive PropertyKind where
  /-- A name with a value. -/
  | plain
  /-- Reads a property. -/
  | getter
  /-- Writes a property. -/
  | setter
  deriving DecidableEq, Repr

/-- The name of a property kind. -/
def PropertyKind.name : PropertyKind → String
  | .plain => "init"
  | .getter => "get"
  | .setter => "set"

/-- What an import binds without naming it in the module. -/
inductive ImportTarget where
  /-- The default value. -/
  | defaultValue
  /-- The module as a whole. -/
  | wholeModule
  deriving DecidableEq, Repr

/-- Whether braces in an operand build an object or take one apart. -/
inductive ObjectRole where
  /-- Builds an object. -/
  | expression
  /-- Takes an object apart. -/
  | pattern
  deriving DecidableEq, Repr

/-- The two families of operators between operands. -/
inductive BinaryRole where
  /-- Computes from both operands. -/
  | arithmetic
  /-- Spelled with `&` or `|`. -/
  | logical
  deriving DecidableEq, Repr

/-- Whether a callee is called or constructs an object. -/
inductive CallRole where
  /-- A plain call. -/
  | plain
  /-- A call behind `new`. -/
  | construct
  deriving DecidableEq, Repr

/-- The value of a literal. A string keeps its escapes as written, and a regular expression its
whole text, slashes and flags included. -/
inductive LiteralValue where
  /-- The contents of a string. -/
  | string (contents : String)
  /-- A number. -/
  | number (value : Binary64)
  /-- A truth value. -/
  | boolean (value : Bool)
  /-- The value `null`. -/
  | null
  /-- A regular expression. -/
  | regex (source : String)
  deriving DecidableEq, Repr

/-- A node of the tree. -/
inductive Node where
  /-- A whole program. -/
  | program (body : List Node)
  /-- A lone semicolon. -/
  | emptyStatement
  /-- An expression as a statement. -/
  | expressionStatement (expression : Node)
  /-- Statements between braces. -/
  | block (body : List Node)
  /-- A return, with or without a value. -/
  | returnStatement (argument : Option Node)
  /-- A choice between two statements. -/
  | ifStatement (test consequent : Node) (alternate : Option Node)
  /-- A choice between many cases. -/
  | switchStatement (discriminant : Node) (cases : List Node)
  /-- A case, or the default if it has no test. -/
  | switchCase (test : Option Node) (consequent : List Node)
  /-- A loop whose head has three clauses. -/
  | forStatement (start test step : Option Node) (body : Node)
  /-- A loop over the members of a value. -/
  | forEach (kind : ForEachKind) (left right body : Node) (awaits : Bool)
  /-- A loop with its condition behind. -/
  | doWhile (body test : Node)
  /-- A loop with its condition in front. -/
  | whileStatement (test body : Node)
  /-- A jump in a loop, with or without a label. -/
  | jump (kind : JumpKind) (label : Option Node)
  /-- A statement with a label. -/
  | labeled (label body : Node)
  /-- A declaration of variables. -/
  | variableDeclaration (kind : VariableKind) (declarations : List Node)
  /-- One variable of a declaration. -/
  | variableDeclarator (target : Node) (value : Option Node)
  /-- A function with the keyword. Only a tree made by hand can lack the body. -/
  | function (role : FunctionRole) (isAsync isGenerator : Bool) (name : Option Node)
      (params : List Node) (body : Option Node)
  /-- A class, as a statement or as an expression. -/
  | classDeclaration (name superClass : Option Node) (body : Node)
  /-- The members of a class. -/
  | classBody (members : List Node)
  /-- A field of a class. -/
  | propertyDefinition (isStatic : Bool) (key : Node) (computed : Bool) (value : Option Node)
  /-- A method of a class. The value is a function. -/
  | methodDefinition (isStatic : Bool) (kind : MethodKind) (key : Node) (computed : Bool)
      (value : Node)
  /-- An import from a module. -/
  | importDeclaration (specifiers : List Node) (source : Node)
  /-- A name for the default value or for the whole module. -/
  | importTarget (target : ImportTarget) (localName : Node)
  /-- A name of the module, and the name it has here. -/
  | importSpecifier (imported localName : Node)
  /-- An export of a declaration. -/
  | exportStatement (isDefault : Bool) (declaration : Node)
  /-- An export of names, of this module or of another. -/
  | exportNamed (specifiers : List Node) (source : Option Node)
  /-- A name of this module, and the name it has outside. -/
  | exportSpecifier (localName exported : Node)
  /-- A name. -/
  | identifier (name : String)
  /-- A literal, with its spelling. -/
  | literal (value : LiteralValue) (raw : String)
  /-- A template: its texts, and the expressions between them. -/
  | templateLiteral (quasis expressions : List Node)
  /-- A text of a template, escapes as written. -/
  | templateElement (text : String)
  /-- An expression behind three dots. -/
  | spread (argument : Node)
  /-- The word `this`. -/
  | thisExpression
  /-- An array, or a pattern for one. -/
  | array (elements : List Node)
  /-- An object, or a pattern for one. -/
  | object (role : ObjectRole) (properties : List Node)
  /-- A member of an object. -/
  | property (key value : Node) (kind : PropertyKind) (computed shorthand method : Bool)
  /-- An arrow function. The body is a block or an expression. -/
  | arrowFunction (params : List Node) (body : Node)
  /-- A yield, which may delegate. -/
  | yieldExpression (delegate : Bool) (argument : Option Node)
  /-- An operator with one operand. -/
  | unary (operator : String) (argument : Node) (leading : Bool)
  /-- An increment or decrement, before or behind its operand. -/
  | update (operator : String) (argument : Node) (leading : Bool)
  /-- An operator between two operands. -/
  | binary (role : BinaryRole) (operator : String) (left right : Node)
  /-- An assignment. -/
  | assignment (operator : String) (left right : Node)
  /-- A choice between two expressions. -/
  | conditional (test consequent : Node) (alternate : Option Node)
  /-- An access to a member, by name or by a computed key. -/
  | member (owner key : Node) (computed : Bool)
  /-- A call or a construction. -/
  | call (role : CallRole) (callee : Node) (arguments : List Node)
  /-- Expressions with commas between them. -/
  | sequence (expressions : List Node)
  deriving Inhabited

namespace Node

/-- The kind of a node. -/
def kind : Node → NodeKind
  | program .. => .program
  | emptyStatement => .emptyStatement
  | expressionStatement .. => .expressionStatement
  | block .. => .blockStatement
  | returnStatement .. => .returnStatement
  | ifStatement .. => .ifStatement
  | switchStatement .. => .switchStatement
  | switchCase .. => .switchCase
  | forStatement .. => .forStatement
  | forEach .keys .. => .forInStatement
  | forEach .values .. => .forOfStatement
  | doWhile .. => .doWhileStatement
  | whileStatement .. => .whileStatement
  | jump .nextRound .. => .continueStatement
  | jump .leaveLoop .. => .breakStatement
  | labeled .. => .labeledStatement
  | variableDeclaration .. => .variableDeclaration
  | variableDeclarator .. => .variableDeclarator
  | function .declaration .. => .functionDeclaration
  | function .expression .. => .functionExpression
  | classDeclaration .. => .classDeclaration
  | classBody .. => .classBody
  | propertyDefinition .. => .propertyDefinition
  | methodDefinition .. => .methodDefinition
  | importDeclaration .. => .importDeclaration
  | importTarget .defaultValue .. => .importDefaultSpecifier
  | importTarget .wholeModule .. => .importNamespaceSpecifier
  | importSpecifier .. => .importSpecifier
  | exportStatement false .. => .exportStatement
  | exportStatement true .. => .exportDefaultStatement
  | exportNamed .. => .exportNamedDeclaration
  | exportSpecifier .. => .exportSpecifier
  | identifier .. => .identifier
  | literal .. => .literal
  | templateLiteral .. => .templateLiteral
  | templateElement .. => .templateElement
  | spread .. => .spreadElement
  | thisExpression => .thisExpression
  | array .. => .arrayPattern
  | object .expression .. => .objectExpression
  | object .pattern .. => .objectPattern
  | property .. => .property
  | arrowFunction .. => .arrowFunctionExpression
  | yieldExpression .. => .yieldExpression
  | unary .. => .unaryExpression
  | update .. => .updateExpression
  | binary .arithmetic .. => .binaryExpression
  | binary .logical .. => .logicalExpression
  | assignment .. => .assignmentExpression
  | conditional .. => .conditionalExpression
  | member .. => .memberExpression
  | call .plain .. => .callExpression
  | call .construct .. => .newExpression
  | sequence .. => .sequenceExpression

/-- Whether a node stands as a statement. -/
def isStatement (node : Node) : Bool := node.kind.isStatement

/-- The name of an identifier. -/
def name? : Node → Option String
  | identifier name => some name
  | _ => none

/-- Whether a node is an identifier. -/
def isIdentifier (node : Node) : Bool := node.name?.isSome

/-- Whether a node may stand on the left of an assignment. -/
def isAssignable : Node → Bool
  | identifier .. | member .. | object .. | array .. => true
  | _ => false

end Node

end ScriptTree
