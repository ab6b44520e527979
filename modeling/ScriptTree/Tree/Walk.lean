import ScriptTree.Tree.Children

/-!
Traversal of a tree, each node before its children. A walk is the list of its events; a node whose
children are passed over has no event for its end.
-/

namespace ScriptTree

/-- One step from the root to a node: `node` holds the next one in its field `field`. -/
structure PathStep where
  /-- The node above. -/
  node : Node
  /-- The field that leads on. -/
  field : String

/-- What happens on a walk. The ancestors are listed from the root on. -/
inductive WalkEvent where
  /-- A node is met. -/
  | enter (node : Node) (ancestors : List PathStep)
  /-- A node and all below it are done. -/
  | leave (node : Node) (ancestors : List PathStep)

namespace Node

/-- The events of a walk from a node that has the given ancestors. The children of a node are
visited if `descends` says so. -/
def walkFrom (descends : Node → List PathStep → Bool) (node : Node) (ancestors : List PathStep) :
    List WalkEvent :=
  if descends node ancestors then
    .enter node ancestors ::
      (node.children.attach.flatMap fun child =>
        walkFrom descends child.val.2 (ancestors ++ [⟨node, child.val.1⟩])) ++
      [.leave node ancestors]
  else
    [.enter node ancestors]
termination_by sizeOf node
decreasing_by exact sizeOf_child_lt child.property

/-- The events of a walk from the root. -/
def walk (descends : Node → List PathStep → Bool) (root : Node) : List WalkEvent :=
  walkFrom descends root []

/-- The node that is met at an event. -/
def entered? : WalkEvent → Option Node
  | .enter node _ => some node
  | .leave _ _ => none

/-- All nodes of a tree, each before its children. -/
def preorder (root : Node) : List Node :=
  (walk (fun _ _ => true) root).filterMap entered?

/-- Whether a node is a link of a chain of member accesses and calls. -/
def isChainLink : Node → Bool
  | member .. => true
  | call .plain .. => true
  | _ => false

/-- The inner links of a chain of member accesses and calls, from the outermost on. -/
def memberChain : Node → List Node
  | member owner _ _ => if owner.isChainLink then owner :: memberChain owner else []
  | call .plain callee _ => if callee.isChainLink then callee :: memberChain callee else []
  | _ => []

end Node

/-- Which callback of a table runs. -/
inductive Callback where
  /-- The one registered at a place in the list. -/
  | registered (place : Nat)
  /-- The one for all other nodes. -/
  | fallback
  deriving DecidableEq, Repr

/-- A traversal by kinds of nodes. Each registered callback names a kind and says whether the walk
goes on below; the last one for a kind counts. Nodes of other kinds go to the fallback, and the walk
goes on below them if there is none. -/
structure CallbackTable where
  /-- The registered kinds, first registered first. -/
  callbacks : List (Kind × Bool)
  /-- What the fallback says, if there is one. -/
  fallback : Option Bool

/-- A node for which a callback ran. -/
structure Visit where
  /-- The callback. -/
  callback : Callback
  /-- The node. -/
  node : Node
  /-- Its ancestors, from the root on. -/
  ancestors : List PathStep

namespace CallbackTable

/-- The callback for a kind of nodes and what it says. -/
def select? (table : CallbackTable) (kind : NodeKind) : Option (Callback × Bool) :=
  match table.callbacks.zipIdx.reverse.find? fun entry => entry.1.1 == .node kind with
  | some entry => some (.registered entry.2, entry.1.2)
  | none => table.fallback.map fun descends => (.fallback, descends)

/-- Whether the walk goes on below nodes of a kind. -/
def descends (table : CallbackTable) (kind : NodeKind) : Bool :=
  match table.select? kind with
  | some (_, descends) => descends
  | none => true

/-- The visit that an event of the walk gives rise to. -/
def visit? (table : CallbackTable) : WalkEvent → Option Visit
  | .enter node ancestors =>
    (table.select? node.kind).map fun selected => ⟨selected.1, node, ancestors⟩
  | .leave _ _ => none

/-- All visits of a walk, in order. -/
def visits (table : CallbackTable) (root : Node) : List Visit :=
  (root.walk fun node _ => table.descends node.kind).filterMap table.visit?

end CallbackTable

end ScriptTree
