import ScriptTree.Tree.Node

/-!
Where an expression needs parentheses: by how tightly the place around it binds, and at the start of
a statement by the token it begins with.
-/

namespace ScriptTree

/-- How tightly the place of an expression binds. Each place wraps what the ones before it wrap, and
more. -/
inductive Place where
  /-- A statement of its own, or a clause of a loop head. -/
  | any
  /-- An item of a list: an argument, an element, a value. -/
  | item
  /-- An operand of a binary operator or of a choice. -/
  | operand
  /-- The operand of a leading operator. -/
  | unary
  /-- What is called or accessed. -/
  | callee
  /-- What `new` constructs from; it may hold no call. -/
  | newCallee
  deriving DecidableEq, Repr

namespace Place

/-- The rank of a place, from loose to tight. -/
def rank : Place → Nat
  | any => 0
  | item => 1
  | operand => 2
  | unary => 3
  | callee => 4
  | newCallee => 5

/-- Whether a place binds at least as tightly as another. -/
def atLeast (place other : Place) : Bool := decide (other.rank ≤ place.rank)

end Place

namespace Node

/-- A chain of accesses that starts with a name or `this` and holds no call. -/
def isCallFree : Node → Bool
  | identifier .. => true
  | thisExpression => true
  | member owner _ _ => isCallFree owner
  | _ => false

/-- Whether a node is wrapped in parentheses in a place. A number is wrapped before an access, since
its digits would swallow the point. -/
def isWrapped (node : Node) (place : Place) : Bool :=
  match node with
  | sequence .. => place.atLeast .item
  | assignment .. | conditional .. | arrowFunction .. | yieldExpression .. => place.atLeast .operand
  | unary .. | update .. => place.atLeast .unary
  | function .expression .. | classDeclaration .. => place.atLeast .callee
  | literal (.number _) _ => place.atLeast .callee
  | call .plain .. | member .. => place == .newCallee && !node.isCallFree
  | _ => false

/-- Whether the printed expression begins with a brace, `function` or `class`, which at the start of
a statement open a block or a declaration. -/
def startsLikeStatement : Node → Bool
  | object .. | function .. | classDeclaration .. => true
  | assignment _ left _ => !left.isWrapped .operand && startsLikeStatement left
  | member owner _ _ => !owner.isWrapped .callee && startsLikeStatement owner
  | call .plain callee _ => !callee.isWrapped .callee && startsLikeStatement callee
  | conditional test _ _ => !test.isWrapped .operand && startsLikeStatement test
  | sequence (first :: _) => !first.isWrapped .item && startsLikeStatement first
  | update _ argument false => !argument.isWrapped .callee && startsLikeStatement argument
  | _ => false

end Node

end ScriptTree
