import Mathlib.Data.Set.Basic
import ScriptTree.Proofs.TreeEquality
import ScriptTree.Tree.Walk

/-!
Walks that pass over the children of some nodes.

Such a walk is the whole walk with some events left out, those of the nodes below and of the ends of
the nodes themselves. What is left keeps its order and its paths, since a path depends on nothing but
the place of its node; and a stack of ancestors that is pushed and popped on the way always holds it.
-/

namespace ScriptTree

namespace WalkEvent

/-- The node of an event. -/
def node : WalkEvent → Node
  | .enter node _ | .leave node _ => node

/-- The path of an event, from the root to its node. -/
def ancestors : WalkEvent → List PathStep
  | .enter _ ancestors | .leave _ ancestors => ancestors

/-- Whether an event is left of a walk if the children of nodes of some kinds are passed over. -/
def Remains (skipped : Set Kind) : WalkEvent → Prop
  | .enter _ ancestors => ∀ above ∈ ancestors, .node above.node.kind ∉ skipped
  | .leave node ancestors =>
    .node node.kind ∉ skipped ∧ ∀ above ∈ ancestors, .node above.node.kind ∉ skipped

instance (skipped : Set Kind) [DecidablePred (· ∈ skipped)] :
    DecidablePred (Remains skipped)
  | .enter _ ancestors =>
    inferInstanceAs (Decidable (∀ above ∈ ancestors, .node above.node.kind ∉ skipped))
  | .leave node ancestors =>
    inferInstanceAs (Decidable
      (.node node.kind ∉ skipped ∧ ∀ above ∈ ancestors, .node above.node.kind ∉ skipped))

/-- The node of an event that is left has no ancestor of the kinds that are passed over. -/
theorem Remains.ancestors {skipped : Set Kind} {event : WalkEvent} (h : event.Remains skipped) :
    ∀ above ∈ event.ancestors, .node above.node.kind ∉ skipped := by
  cases event with
  | enter node ancestors => exact h
  | leave node ancestors => exact h.2

end WalkEvent

/-- A path leads from a root to a node: each link is a node and the field that holds the next. -/
inductive Leads (root : Node) : List PathStep → Node → Prop
  | root : Leads root [] root
  | child {path : List PathStep} {node child : Node} {field : String} (h : Leads root path node)
      (hc : (field, child) ∈ node.children) : Leads root (path ++ [⟨node, field⟩]) child

/-- Events that nest like brackets. A node whose children are visited has an event at its end with the
path of its start, and only nodes below it in between; a node that is passed over stands alone. -/
inductive Nested (descends : Node → List PathStep → Bool) : List WalkEvent → Prop
  | nil : Nested descends []
  | alone {node : Node} {path : List PathStep} {rest : List WalkEvent}
      (hd : descends node path = false) (hr : Nested descends rest) :
      Nested descends (.enter node path :: rest)
  | around {node : Node} {path : List PathStep} {inner rest : List WalkEvent}
      (hd : descends node path = true) (hi : Nested descends inner)
      (hb : ∀ event ∈ inner, ∃ field, path ++ [⟨node, field⟩] <+: event.ancestors)
      (hr : Nested descends rest) :
      Nested descends (.enter node path :: inner ++ .leave node path :: rest)

/-- A traversal that is under way. -/
structure Traversal where
  /-- The stack of ancestors, from the root on. -/
  ancestors : List PathStep
  /-- What has happened so far. -/
  events : List WalkEvent

namespace Traversal

/-- Goes down. -/
def push (state : Traversal) (link : PathStep) : Traversal :=
  { state with ancestors := state.ancestors ++ [link] }

/-- Comes back up. -/
def pop (state : Traversal) : Traversal := { state with ancestors := state.ancestors.dropLast }

/-- Something happens, with the stack as its path. -/
def report (state : Traversal) (event : List PathStep → WalkEvent) : Traversal :=
  { state with events := state.events ++ [event state.ancestors] }

/-- Visits a node and what is below, with one stack for all paths. -/
def visit (descends : Node → List PathStep → Bool) (node : Node) (state : Traversal) : Traversal :=
  if descends node state.ancestors then
    (node.children.attach.foldl
      (fun state child => (visit descends child.val.2 (state.push ⟨node, child.val.1⟩)).pop)
      (state.report (.enter node))).report (.leave node)
  else
    state.report (.enter node)
termination_by sizeOf node
decreasing_by exact Node.sizeOf_child_lt child.property

end Traversal

/-- Whether a walk goes on below a node if the children of nodes of some kinds are passed over. -/
def goesOn (skipped : Set Kind) [DecidablePred (· ∈ skipped)] (node : Node)
    (_ : List PathStep) : Bool :=
  decide (.node node.kind ∉ skipped)

section Walk

variable {descends : Node → List PathStep → Bool} {node : Node} {ancestors : List PathStep}

/-- A walk, with the walks below its root. -/
theorem walkFrom_eq (descends : Node → List PathStep → Bool) (node : Node)
    (ancestors : List PathStep) : node.walkFrom descends ancestors =
      if descends node ancestors then
        .enter node ancestors ::
          (node.children.flatMap fun child =>
            child.2.walkFrom descends (ancestors ++ [⟨node, child.1⟩])) ++
          [.leave node ancestors]
      else [.enter node ancestors] := by
  have hplain : (node.children.attach.flatMap fun child =>
      child.val.2.walkFrom descends (ancestors ++ [⟨node, child.val.1⟩])) =
        node.children.attach.unattach.flatMap fun child =>
          child.2.walkFrom descends (ancestors ++ [⟨node, child.1⟩]) :=
    List.flatMap_subtype fun _ _ => rfl
  rw [Node.walkFrom, hplain, List.unattach_attach]

theorem walkFrom_of_descends (h : descends node ancestors = true) :
    node.walkFrom descends ancestors = .enter node ancestors ::
      (node.children.flatMap fun child =>
        child.2.walkFrom descends (ancestors ++ [⟨node, child.1⟩])) ++ [.leave node ancestors] := by
  rw [walkFrom_eq, if_pos h]

theorem walkFrom_of_not_descends (h : descends node ancestors = false) :
    node.walkFrom descends ancestors = [.enter node ancestors] := by
  rw [walkFrom_eq, if_neg (Bool.eq_false_iff.mp h)]

/-- What a walk does is of its first node and its path, or below. -/
theorem mem_walkFrom {event : WalkEvent} (h : event ∈ node.walkFrom descends ancestors) :
    (event.node = node ∧ event.ancestors = ancestors) ∨ ∃ child ∈ node.children,
      event ∈ child.2.walkFrom descends (ancestors ++ [⟨node, child.1⟩]) := by
  cases hd : descends node ancestors with
  | false =>
    rw [walkFrom_of_not_descends hd, List.mem_singleton] at h
    exact .inl (h ▸ ⟨rfl, rfl⟩)
  | true =>
    rw [walkFrom_of_descends hd, List.mem_append, List.mem_cons, List.mem_flatMap,
      List.mem_singleton] at h
    rcases h with (rfl | hc) | rfl
    · exact .inl ⟨rfl, rfl⟩
    · exact .inr hc
    · exact .inl ⟨rfl, rfl⟩

/-- All paths of a walk go on from where it started. -/
theorem prefix_of_mem_walkFrom {event : WalkEvent}
    (h : event ∈ node.walkFrom descends ancestors) : ancestors <+: event.ancestors := by
  induction node using Node.induction_children generalizing ancestors with
  | step node ih =>
    rcases mem_walkFrom h with ⟨-, he⟩ | ⟨child, hin, hc⟩
    · exact he ▸ List.prefix_rfl
    · exact (List.prefix_append ..).trans (ih child hin hc)

/-- All paths of a walk lead to their nodes, if the first one does. -/
theorem Leads.of_mem_walkFrom {root : Node} (hl : Leads root ancestors node) {event : WalkEvent}
    (h : event ∈ node.walkFrom descends ancestors) : Leads root event.ancestors event.node := by
  induction node using Node.induction_children generalizing ancestors with
  | step node ih =>
    rcases mem_walkFrom h with ⟨hn, ha⟩ | ⟨child, hin, hc⟩
    · rwa [hn, ha]
    · exact ih child hin (hl.child hin) hc

theorem Nested.append {front back : List WalkEvent} (hf : Nested descends front)
    (hb : Nested descends back) : Nested descends (front ++ back) := by
  induction hf with
  | nil => exact hb
  | alone hd hr ih => exact .alone hd ih
  | around hd hi hin hr ihi ihr =>
    rw [List.append_assoc, List.cons_append]
    exact .around hd hi hin ihr

theorem Nested.flatMap {α : Type} {events : α → List WalkEvent} {items : List α}
    (h : ∀ item ∈ items, Nested descends (events item)) :
    Nested descends (items.flatMap events) := by
  induction items with
  | nil => exact .nil
  | cons item items ih =>
    rw [List.forall_mem_cons] at h
    exact h.1.append (ih h.2)

/-- The events of a walk nest. -/
theorem nested_walkFrom (descends : Node → List PathStep → Bool) (node : Node)
    (ancestors : List PathStep) : Nested descends (node.walkFrom descends ancestors) := by
  induction node using Node.induction_children generalizing ancestors with
  | step node ih =>
    cases hd : descends node ancestors with
    | false =>
      rw [walkFrom_of_not_descends hd]
      exact .alone hd .nil
    | true =>
      rw [walkFrom_of_descends hd]
      refine .around hd (.flatMap fun child hin => ih child hin _) ?_ .nil
      intro event he
      obtain ⟨child, -, hc⟩ := List.mem_flatMap.mp he
      exact ⟨child.1, prefix_of_mem_walkFrom hc⟩

/-- Children that are visited one after the other find the same stack. -/
theorem foldl_visit {children : List (String × Node)}
    (h : ∀ child ∈ children, ∀ state : Traversal, state.visit descends child.2 =
      ⟨state.ancestors, state.events ++ child.2.walkFrom descends state.ancestors⟩)
    (node : Node) (state : Traversal) :
    children.foldl (fun (state : Traversal) child =>
        ((state.push ⟨node, child.1⟩).visit descends child.2).pop) state =
      ⟨state.ancestors, state.events ++ children.flatMap fun child =>
        child.2.walkFrom descends (state.ancestors ++ [⟨node, child.1⟩])⟩ := by
  induction children generalizing state with
  | nil => rw [List.foldl_nil, List.flatMap_nil, List.append_nil]
  | cons child children ih =>
    rw [List.forall_mem_cons] at h
    have hone : ((state.push ⟨node, child.1⟩).visit descends child.2).pop = ⟨state.ancestors,
        state.events ++ child.2.walkFrom descends (state.ancestors ++ [⟨node, child.1⟩])⟩ := by
      rw [h.1, Traversal.pop, Traversal.push, List.dropLast_concat]
    rw [List.foldl_cons, hone, ih h.2, List.flatMap_cons, List.append_assoc]

/-- A visit does what the walk does from the stack that it finds, and leaves the stack as it was. -/
theorem visit_eq (descends : Node → List PathStep → Bool) (node : Node) (state : Traversal) :
    state.visit descends node =
      ⟨state.ancestors, state.events ++ node.walkFrom descends state.ancestors⟩ := by
  induction node using Node.induction_children generalizing state with
  | step node ih =>
    cases hd : descends node state.ancestors with
    | false =>
      rw [Traversal.visit, if_neg (Bool.eq_false_iff.mp hd), walkFrom_of_not_descends hd]
      rfl
    | true =>
      have hattach := List.foldl_attach (l := node.children) (b := state.report (.enter node))
        (f := fun state child => ((state.push ⟨node, child.1⟩).visit descends child.2).pop)
      rw [Traversal.visit, if_pos hd, hattach, foldl_visit ih, walkFrom_of_descends hd]
      simp [Traversal.report]

end Walk

section Pruned

variable {skipped : Set Kind} [DecidablePred (· ∈ skipped)] {node : Node}
  {ancestors : List PathStep}

/-- Nothing is left of the walks below a node that is passed over. -/
theorem filter_walkFrom_below {above : PathStep} (hin : above ∈ ancestors)
    (hs : .node above.node.kind ∈ skipped) :
    (node.walkFrom (fun _ _ => true) ancestors).filter (·.Remains skipped) = [] := by
  rw [List.filter_eq_nil_iff]
  intro event he hr
  exact (of_decide_eq_true hr).ancestors above ((prefix_of_mem_walkFrom he).subset hin) hs

/-- Below ancestors of other kinds, the walk that passes over is the whole walk with events left
out. -/
theorem walkFrom_goesOn (h : ∀ above ∈ ancestors, .node above.node.kind ∉ skipped) :
    node.walkFrom (goesOn skipped) ancestors =
      (node.walkFrom (fun _ _ => true) ancestors).filter (·.Remains skipped) := by
  induction node using Node.induction_children generalizing ancestors with
  | step node ih =>
    have henter : (WalkEvent.enter node ancestors).Remains skipped := h
    rw [@walkFrom_of_descends (fun _ _ => true) node ancestors rfl, List.cons_append,
      List.filter_cons, if_pos (decide_eq_true henter), List.filter_append, List.filter_flatMap]
    by_cases hs : .node node.kind ∈ skipped
    · -- only the first event is left: the others have the node above them, or are its end
      have hleave : ¬(WalkEvent.leave node ancestors).Remains skipped := fun hr => hr.1 hs
      have hbelow : (node.children.flatMap fun child => (child.2.walkFrom (fun _ _ => true)
          (ancestors ++ [⟨node, child.1⟩])).filter (·.Remains skipped)) = [] := by
        rw [List.flatMap_eq_nil_iff]
        exact fun child _ =>
          filter_walkFrom_below (List.mem_append_right _ List.mem_cons_self) hs
      rw [hbelow, List.filter_singleton, decide_eq_false hleave]
      exact walkFrom_of_not_descends (decide_eq_false (not_not.mpr hs))
    · -- the node joins the ancestors that are not passed over
      have hleave : (WalkEvent.leave node ancestors).Remains skipped := ⟨hs, h⟩
      rw [walkFrom_of_descends (decide_eq_true hs), List.filter_singleton, decide_eq_true hleave,
        List.cons_append]
      congr 2
      refine List.flatMap_congr fun child hin => ih child hin ?_
      rw [List.forall_mem_append, List.forall_mem_singleton]
      exact ⟨h, hs⟩

end Pruned

/-- A walk that passes over the children of nodes of some kinds is the whole walk without what is below
such nodes and without their ends. All paths of a walk are the links from the root to the node, its
events nest, and a traversal with one stack of ancestors comes to the same. -/
theorem pruned_walk (skipped : Set Kind) [DecidablePred (· ∈ skipped)] (root : Node) :
    root.walk (goesOn skipped) =
        (root.walk fun _ _ => true).filter (·.Remains skipped) ∧
      ∀ descends : Node → List PathStep → Bool,
        (∀ event ∈ root.walk descends, Leads root event.ancestors event.node) ∧
        Nested descends (root.walk descends) ∧
        Traversal.visit descends root ⟨[], []⟩ = ⟨[], root.walk descends⟩ :=
  ⟨walkFrom_goesOn nofun, fun descends =>
    ⟨fun _ he => Leads.root.of_mem_walkFrom he, nested_walkFrom descends root [],
      visit_eq descends root ⟨[], []⟩⟩⟩

end ScriptTree
