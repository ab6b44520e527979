import Mathlib.Data.List.Forall2
import Mathlib.Data.List.Nodup
import ScriptTree.Proofs.TreeEquality
import ScriptTree.Proofs.TreeShape
import ScriptTree.Tree.Estree

/-!
The children of a node against its exchange form.

What a node holds is told twice: by its children, field by field, and by the members of the object that
it is exchanged as. The two agree on names, on what is missing, on lists and on the order, and so a walk
meets the form of a node at every place of the exchange form where there is one, and only once.
-/

namespace ScriptTree

/-- The children of a node in one of its fields. -/
def Node.childrenIn (node : Node) (field : String) : List Node :=
  (node.children.filter fun child => child.1 == field).map Prod.snd

namespace Estree

/-- The members of an object. -/
def members : Estree → List (String × Estree)
  | .object members => members
  | _ => []

/-- The value of the member with a given name. -/
def member? (value : Estree) (name : String) : Option Estree := value.members.lookup name

/-- Whether a value is the form of a node: an object with a type. -/
def isNode (value : Estree) : Bool := (value.member? "type").isSome

/-- The forms of nodes that the value of a member shows: itself, or the items of a list. -/
def shown : Estree → List Estree
  | .array items => items.filter isNode
  | value => if value.isNode then [value] else []

/-- Whether a member is a list. -/
def HoldsList (value : Estree) (name : String) : Prop :=
  ∃ items, value.member? name = some (.array items)

/-- The children of a node are what its exchange form shows. -/
structure ShowsChildren (node : Node) : Prop where
  /-- No name stands for two members. -/
  names : ((ofNode node).members.map Prod.fst).Nodup
  /-- Children and members come in one order. -/
  order : (node.children.map fun child => (child.1, ofNode child.2)) =
    (ofNode node).members.flatMap fun member => member.2.shown.map (member.1, ·)
  /-- A member is a node if its field has this one child and is no list. -/
  single : ∀ field value, value.isNode = true →
    ((ofNode node).member? field = some value ↔
      ¬HoldsList (ofNode node) field ∧
        ∃ child, node.childrenIn field = [child] ∧ ofNode child = value)
  /-- A member is a list if its items are the children of a list, in order. -/
  list : ∀ field items, (ofNode node).member? field = some (.array items) ↔
    HoldsList (ofNode node) field ∧ (node.childrenIn field).map ofNode = items
  /-- Nothing is a child in a field that is missing, and nothing in one that holds no node. -/
  others : ∀ field, (∀ value ∈ (ofNode node).member? field,
    value.isNode = false ∧ ¬HoldsList (ofNode node) field) → node.childrenIn field = []

/-- One step down in a value. -/
inductive Step where
  /-- To a member of an object. -/
  | member (name : String)
  /-- To an item of a list. -/
  | item (index : Nat)
  deriving DecidableEq

/-- The values right inside a value, with the steps that lead to them. -/
def branches : Estree → List (Step × Estree)
  | .object members => members.map fun member => (.member member.1, member.2)
  | .array items => items.zipIdx.map fun entry => (.item entry.2, entry.1)
  | _ => []

/-- The value at a place, which is named by the steps that lead there. -/
def at? : Estree → List Step → Option Estree
  | value, [] => some value
  | value, step :: place => (value.branches.lookup step).bind (·.at? place)

/-- Some nodes go through all places at which there is the form of a node: each has its turn, and only
one. -/
def Visits (find : List Step → Option Estree) (nodes : List Node) : Prop :=
  ∃ places : List (List Step), places.Nodup ∧
    (∀ place, place ∈ places ↔ (find place).any isNode = true) ∧
    (nodes.map fun node => some (ofNode node)) = places.map find

/-- Some nodes go through all forms of nodes that there are in a value, at any depth. -/
def Covers (nodes : List Node) (value : Estree) : Prop := Visits value.at? nodes

/-- Values that are no lists and have no nodes in them. -/
inductive Plain : Estree → Prop
  | null : Plain .null
  | bool (value : Bool) : Plain (.bool value)
  | number (value : Binary64) : Plain (.number value)
  | string (text : String) : Plain (.string text)
  | object {members : List (String × Estree)} (hd : ("type" :: members.map Prod.fst).Nodup)
      (hm : ∀ member ∈ members, Plain member.2) : Plain (.object members)

/-- Members that show the children in some fields. -/
inductive Shows : List (String × Estree) → List (String × Node) → Prop
  | nil : Shows [] []
  | plain {name : String} {value : Estree} {members : List (String × Estree)}
      {fields : List (String × Node)} (hp : Plain value) (h : Shows members fields) :
      Shows ((name, value) :: members) fields
  | one {name : String} {node : Node} {members : List (String × Estree)}
      {fields : List (String × Node)} (h : Shows members fields) :
      Shows ((name, ofNode node) :: members) (Node.fieldOne name node ++ fields)
  | list {name : String} {nodes : List Node} {members : List (String × Estree)}
      {fields : List (String × Node)} (h : Shows members fields) :
      Shows ((name, .array (ofList nodes)) :: members) (Node.fieldList name nodes ++ fields)

@[simp] theorem ofList_eq_map (nodes : List Node) : ofList nodes = nodes.map ofNode := by
  induction nodes with
  | nil => rw [ofList, List.map_nil]
  | cons node nodes ih => rw [ofList, List.map_cons, ih]

/-- A name that is not there is not found. -/
theorem lookup_eq_none_of_notMem {α β : Type} [BEq α] [LawfulBEq α] {entries : List (α × β)}
    {key : α} (h : key ∉ entries.map Prod.fst) : entries.lookup key = none := by
  rw [List.lookup_eq_none_iff]
  intro entry hin
  rw [bne_iff_ne]
  exact fun he => h (he ▸ List.mem_map_of_mem hin)

section Fields

variable {name : String} {members : List (String × Estree)} {fields : List (String × Node)}

theorem Shows.option {node : Option Node} (h : Shows members fields) :
    Shows ((name, ofOption node) :: members) (Node.fieldOption name node ++ fields) := by
  cases node with
  | none => exact .plain .null h
  | some node => exact .one h

theorem plain_ofLiteral (value : LiteralValue) : Plain (ofLiteral value) := by
  cases value with
  | string contents => exact .string _
  | number value =>
    rw [ofLiteral]
    split
    · exact .number _
    · exact .null
  | boolean value => exact .bool _
  | null => exact .null
  | regex source =>
    refine .object (by simp) ?_
    simp only [List.forall_mem_cons]
    exact ⟨.string _, .string _, nofun⟩

/-- The form of a node is an object with a type, whose other members show the children. One case for
each construct, with its members in their order. -/
theorem exists_members (node : Node) : ∃ kind members, ofNode node = tagged kind members ∧
    ("type" :: members.map Prod.fst).Nodup ∧ Shows members node.children := by
  suffices h : ∃ kind members, ofNode node = tagged kind members ∧
      ("type" :: members.map Prod.fst).Nodup ∧ Shows members (node.children ++ []) by
    simpa using h
  cases node <;> refine ⟨_, _, by unfold ofNode; rfl, by simp, ?_⟩ <;>
    simp only [Node.children, List.append_assoc, List.nil_append]
  all_goals
    repeat first
      | exact .nil
      | apply Shows.one
      | apply Shows.list
      | apply Shows.option
      | refine .plain (by first | exact .string _ | exact .bool _ | exact plain_ofLiteral _) ?_

/-- The members of the form of a node have names of their own, and show the children. -/
theorem shows_members (node : Node) : ((ofNode node).members.map Prod.fst).Nodup ∧
    Shows (ofNode node).members node.children := by
  obtain ⟨kind, members, he, hd, hs⟩ := exists_members node
  rw [he]
  exact ⟨hd, .plain (.string _) hs⟩

/-- A value that is no list shows itself, if it is a node. -/
theorem shown_eq_ite {value : Estree} (h : ∀ items, value ≠ .array items) :
    value.shown = if value.isNode then [value] else [] := by
  cases value with
  | array items => exact absurd rfl (h items)
  | _ => rfl

theorem isNode_ofNode (node : Node) : (ofNode node).isNode = true := by
  obtain ⟨kind, members, he, -, -⟩ := exists_members node
  rw [he, isNode, member?, tagged, Estree.members, List.lookup_cons_self]
  rfl

/-- The form of a node is no list. -/
theorem ofNode_ne_array (node : Node) (items : List Estree) : ofNode node ≠ .array items := by
  obtain ⟨kind, members, he, -, -⟩ := exists_members node
  rw [he]
  nofun

@[simp] theorem shown_ofNode (node : Node) : (ofNode node).shown = [ofNode node] := by
  rw [shown_eq_ite (ofNode_ne_array node), if_pos (isNode_ofNode node)]

@[simp] theorem shown_ofList (nodes : List Node) :
    shown (.array (ofList nodes)) = nodes.map ofNode := by
  rw [shown, ofList_eq_map, List.filter_eq_self]
  intro item hin
  obtain ⟨node, -, rfl⟩ := List.mem_map.mp hin
  exact isNode_ofNode node

theorem Plain.not_isNode {value : Estree} (h : Plain value) : value.isNode = false := by
  cases h with
  | object hd hm =>
    rw [isNode, Option.isSome_eq_false_iff, Option.isNone_iff_eq_none]
    exact lookup_eq_none_of_notMem (List.nodup_cons.mp hd).1
  | _ => rfl

theorem Plain.ne_array {value : Estree} (h : Plain value) (items : List Estree) :
    value ≠ .array items := by
  rintro rfl
  cases h

theorem Plain.shown {value : Estree} (h : Plain value) : value.shown = [] := by
  rw [shown_eq_ite h.ne_array, h.not_isNode, if_neg Bool.false_ne_true]

/-- Members and fields come in one order. -/
theorem Shows.order (h : Shows members fields) :
    (members.flatMap fun member => member.2.shown.map (member.1, ·)) =
      fields.map fun field => (field.1, ofNode field.2) := by
  induction h with
  | nil => rfl
  | plain hp h ih => rw [List.flatMap_cons, hp.shown, ih, List.map_nil, List.nil_append]
  | one h ih =>
    rw [List.flatMap_cons, shown_ofNode, ih, Node.fieldOne, List.map_append]
    rfl
  | list h ih =>
    rw [List.flatMap_cons, shown_ofList, ih, Node.fieldList, List.map_append, List.map_map,
      List.map_map]
    rfl

/-- All items of a list are forms of nodes. -/
theorem Shows.shown_array {items : List Estree} (h : Shows members fields)
    (hin : (name, .array items) ∈ members) : shown (.array items) = items := by
  induction h with
  | nil => cases hin
  | plain hp h ih =>
    rcases List.mem_cons.mp hin with he | hin
    · obtain ⟨rfl, rfl⟩ := Prod.mk.inj he
      cases hp
    · exact ih hin
  | one h ih =>
    rcases List.mem_cons.mp hin with he | hin
    · exact absurd (Prod.mk.inj he).2.symm (ofNode_ne_array _ _)
    · exact ih hin
  | list h ih =>
    rcases List.mem_cons.mp hin with he | hin
    · rw [Json.array.inj (Prod.mk.inj he).2, shown_ofList, ofList_eq_map]
    · exact ih hin

/-- What is filed under a name in a list of groups with different names is the group of that name. -/
theorem filter_flatMap_groups {α β : Type} (group : α → List β) {entries : List (String × α)}
    (hd : (entries.map Prod.fst).Nodup) (name : String) :
    (((entries.flatMap fun entry => (group entry.2).map (entry.1, ·)).filter
      fun filed => filed.1 == name).map Prod.snd) = ((entries.lookup name).map group).getD [] := by
  induction entries with
  | nil => rfl
  | cons entry entries ih =>
    obtain ⟨key, value⟩ := entry
    obtain ⟨hnot, hd⟩ := List.nodup_cons.mp hd
    rw [List.flatMap_cons, List.filter_append, List.map_append, ih hd, List.lookup_cons,
      List.filter_map, List.map_map]
    by_cases hk : key = name
    · subst hk
      simp [lookup_eq_none_of_notMem hnot, Function.comp_def]
    · have hk' : (name == key) = false := beq_eq_false_iff_ne.mpr fun he => hk he.symm
      simp [hk, hk', Function.comp_def]

end Fields

/-- The children in a field are what the member of that name shows. -/
theorem map_childrenIn (node : Node) (field : String) : (node.childrenIn field).map ofNode =
    (((ofNode node).member? field).map shown).getD [] := by
  obtain ⟨hd, hs⟩ := shows_members node
  rw [member?, ← filter_flatMap_groups shown hd field, hs.order, List.filter_map, List.map_map,
    Node.childrenIn, List.map_map]
  rfl

section Member

variable {node : Node} {field : String} {value : Estree}

theorem map_childrenIn_of_list {items : List Estree}
    (h : (ofNode node).member? field = some (.array items)) :
    (node.childrenIn field).map ofNode = items := by
  obtain ⟨front, rest, hl, -⟩ := List.lookup_eq_some_iff.mp h
  have hin : (field, .array items) ∈ (ofNode node).members := by
    rw [hl]
    exact List.mem_append_right front List.mem_cons_self
  rw [map_childrenIn, h, Option.map_some, Option.getD_some, (shows_members node).2.shown_array hin]

theorem map_childrenIn_of_not_list (h : (ofNode node).member? field = some value)
    (hl : ¬HoldsList (ofNode node) field) :
    (node.childrenIn field).map ofNode = if value.isNode then [value] else [] := by
  have hvalue (items : List Estree) : value ≠ .array items := fun he => hl ⟨items, he ▸ h⟩
  rw [map_childrenIn, h, Option.map_some, Option.getD_some, shown_eq_ite hvalue]

theorem childrenIn_of_missing (h : (ofNode node).member? field = none) :
    node.childrenIn field = [] := by
  rw [← List.map_eq_nil_iff (f := ofNode), map_childrenIn, h]
  rfl

/-- A member that is a node is no list. -/
theorem not_holdsList (h : (ofNode node).member? field = some value) (hn : value.isNode = true) :
    ¬HoldsList (ofNode node) field := by
  rintro ⟨items, hl⟩
  obtain rfl := Option.some.inj (h.symm.trans hl)
  cases hn

/-- The children of every node are what its exchange form shows. -/
theorem showsChildren (node : Node) : ShowsChildren node where
  names := (shows_members node).1
  order := (shows_members node).2.order.symm
  single := by
    intro field value hn
    constructor
    · intro hm
      have hl := not_holdsList hm hn
      have hone := map_childrenIn_of_not_list hm hl
      rw [if_pos hn, List.map_eq_singleton_iff] at hone
      exact ⟨hl, hone⟩
    · rintro ⟨hl, child, hchild, rfl⟩
      cases hm : (ofNode node).member? field with
      | none =>
        rw [childrenIn_of_missing hm] at hchild
        cases hchild
      | some other =>
        have hone := map_childrenIn_of_not_list hm hl
        rw [hchild, List.map_singleton] at hone
        split at hone
        · rw [(List.cons.inj hone).1]
        · cases hone
  list := by
    intro field items
    constructor
    · exact fun hm => ⟨⟨items, hm⟩, map_childrenIn_of_list hm⟩
    · rintro ⟨⟨others, hm⟩, rfl⟩
      rw [map_childrenIn_of_list hm, hm]
  others := by
    intro field hno
    cases hm : (ofNode node).member? field with
    | none => exact childrenIn_of_missing hm
    | some value =>
      obtain ⟨hn, hl⟩ := hno value hm
      have hnone := map_childrenIn_of_not_list hm hl
      rw [hn, if_neg Bool.false_ne_true, List.map_eq_nil_iff] at hnone
      exact hnone

end Member

section Places

/-- The value at a place inside, told by the first step. -/
def below (branches : List (Step × Estree)) : List Step → Option Estree
  | [] => none
  | step :: place => (branches.lookup step).bind (·.at? place)

section Below

variable {branches : List (Step × Estree)} {step first : Step} {value : Estree}

theorem at?_eq_below {place : List Step} (h : place ≠ []) :
    value.at? place = below value.branches place := by
  cases place with
  | nil => exact absurd rfl h
  | cons step place => rfl

theorem below_cons_self (place : List Step) :
    below ((step, value) :: branches) (step :: place) = value.at? place := by
  rw [below, List.lookup_cons_self, Option.bind_some]

theorem below_cons_of_ne (h : first ≠ step) (place : List Step) :
    below ((step, value) :: branches) (first :: place) = below branches (first :: place) := by
  rw [below, below, List.lookup_cons, beq_eq_false_iff_ne.mpr h]

theorem below_of_notMem (h : step ∉ branches.map Prod.fst) (place : List Step) :
    below branches (step :: place) = none := by
  rw [below, lookup_eq_none_of_notMem h, Option.bind_none]

/-- Behind another first step are other places, so what goes through them goes on to go through all. -/
theorem visits_cons {nodes others : List Node} (hd : step ∉ branches.map Prod.fst)
    (hn : Covers nodes value) (ho : Visits (below branches) others) :
    Visits (below ((step, value) :: branches)) (nodes ++ others) := by
  obtain ⟨places, hnodup, hmem, heq⟩ := hn
  obtain ⟨rest, hnodup', hmem', heq'⟩ := ho
  -- the first step tells the new places from the others
  have hfirst {first : Step} {place : List Step} (hin : first :: place ∈ rest) : first ≠ step := by
    rintro rfl
    have hany := (hmem' _).mp hin
    rw [below_of_notMem hd] at hany
    cases hany
  have hnil : [] ∉ rest := fun hin => by cases (hmem' _).mp hin
  refine ⟨places.map (step :: ·) ++ rest, ?_, ?_, ?_⟩
  · refine (List.Nodup.map List.cons_injective hnodup).append hnodup' ?_
    rw [List.disjoint_left]
    intro place hin hrest
    obtain ⟨place, -, rfl⟩ := List.mem_map.mp hin
    exact hfirst hrest rfl
  · intro place
    rw [List.mem_append, List.mem_map]
    cases place with
    | nil => simp [below, hnil]
    | cons first place =>
      by_cases hs : first = step
      · subst hs
        rw [below_cons_self, ← hmem]
        constructor
        · rintro (⟨_, hin, he⟩ | hin)
          · rwa [← (List.cons.inj he).2]
          · exact absurd rfl (hfirst hin)
        · exact fun hin => .inl ⟨place, hin, rfl⟩
      · rw [below_cons_of_ne hs, ← hmem']
        constructor
        · rintro (⟨_, -, he⟩ | hin)
          · exact absurd (List.cons.inj he).1.symm hs
          · exact hin
        · exact .inr
  · rw [List.map_append, List.map_append, heq, heq', List.map_map]
    congr 1
    · exact List.map_congr_left fun place _ => (below_cons_self place).symm
    · refine List.map_congr_left fun place hin => ?_
      cases place with
      | nil => exact absurd hin hnil
      | cons first place => exact (below_cons_of_ne (hfirst hin) place).symm

/-- Nodes that go through the values inside, one after the other, go through all that is inside. -/
theorem visits_below {parts : List (List Node)} (hd : (branches.map Prod.fst).Nodup)
    (h : List.Forall₂ (fun branch nodes => Covers nodes branch.2) branches parts) :
    Visits (below branches) parts.flatten := by
  induction h with
  | nil => exact ⟨[], List.nodup_nil, fun place => by cases place <;> simp [below], rfl⟩
  | cons hb h ih =>
    obtain ⟨hnot, hd⟩ := List.nodup_cons.mp hd
    exact visits_cons hnot hb (ih hd)

end Below

variable {value : Estree} {parts : List (List Node)}

/-- A value that is no node is gone through by going through what is inside. -/
theorem covers_of_branches (hn : value.isNode = false) (hd : (value.branches.map Prod.fst).Nodup)
    (h : List.Forall₂ (fun branch nodes => Covers nodes branch.2) value.branches parts) :
    Covers parts.flatten value := by
  obtain ⟨places, hnodup, hmem, heq⟩ := visits_below hd h
  have hnil : [] ∉ places := fun hin => by cases (hmem _).mp hin
  refine ⟨places, hnodup, fun place => ?_, ?_⟩
  · cases place with
    | nil => simp [hnil, at?, hn]
    | cons step place => exact hmem _
  · rw [heq]
    exact List.map_congr_left fun place hin => (at?_eq_below fun he => hnil (he ▸ hin)).symm

/-- The form of a node is gone through by the node and then what goes through the inside. -/
theorem covers_ofNode {node : Node} (hd : ((ofNode node).branches.map Prod.fst).Nodup)
    (h : List.Forall₂ (fun branch nodes => Covers nodes branch.2) (ofNode node).branches parts) :
    Covers (node :: parts.flatten) (ofNode node) := by
  obtain ⟨places, hnodup, hmem, heq⟩ := visits_below hd h
  have hnil : [] ∉ places := fun hin => by cases (hmem _).mp hin
  refine ⟨[] :: places, List.nodup_cons.mpr ⟨hnil, hnodup⟩, fun place => ?_, ?_⟩
  · cases place with
    | nil => simp [at?, isNode_ofNode]
    | cons step place =>
      rw [List.mem_cons, or_iff_right (List.cons_ne_nil step place)]
      exact hmem _
  · rw [List.map_cons, List.map_cons, heq, at?]
    congr 1
    exact List.map_congr_left fun place hin => (at?_eq_below fun he => hnil (he ▸ hin)).symm

theorem nodup_members {members : List (String × Estree)} (h : (members.map Prod.fst).Nodup) :
    ((branches (.object members)).map Prod.fst).Nodup := by
  have hmap : (branches (.object members)).map Prod.fst =
      (members.map Prod.fst).map Step.member := by
    rw [branches, List.map_map, List.map_map]
    rfl
  rw [hmap]
  exact List.Nodup.map (fun _ _ he => Step.member.inj he) h

theorem nodup_items (items : List Estree) :
    ((branches (.array items)).map Prod.fst).Nodup := by
  have hmap : (branches (.array items)).map Prod.fst =
      (List.range' 0 items.length).map Step.item := by
    rw [branches, List.map_map, ← List.zipIdx_map_snd, List.map_map]
    rfl
  rw [hmap]
  exact List.Nodup.map (fun _ _ he => Step.item.inj he) List.nodup_range'

/-- No node is in a value that is none and has none inside. -/
theorem covers_nil (hn : value.isNode = false) (hd : (value.branches.map Prod.fst).Nodup)
    (h : ∀ branch ∈ value.branches, Covers [] branch.2) : Covers [] value := by
  have hparts : List.Forall₂ (fun branch nodes => Covers nodes branch.2) value.branches
      (value.branches.map fun _ => []) := by
    rw [List.forall₂_map_right_iff, List.forall₂_same]
    exact h
  have hcovers := covers_of_branches hn hd hparts
  have hempty : (value.branches.map fun _ => ([] : List Node)).flatten = [] := by
    rw [List.flatten_eq_nil_iff]
    intro part hin
    obtain ⟨branch, -, rfl⟩ := List.mem_map.mp hin
    rfl
  rwa [hempty] at hcovers

theorem Plain.covers (h : Plain value) : Covers [] value := by
  have hn := h.not_isNode
  induction h with
  | object hd hm ih =>
    refine covers_nil hn (nodup_members (List.nodup_cons.mp hd).2) ?_
    intro branch hb
    obtain ⟨member, hin, rfl⟩ := List.mem_map.mp hb
    exact ih member hin (hm member hin).not_isNode
  | _ => exact covers_nil hn List.nodup_nil nofun

/-- The forms of some nodes in a list are gone through one after the other. -/
theorem covers_ofList {nodes : List Node} (h : ∀ node ∈ nodes, Covers node.preorder (ofNode node)) :
    Covers (nodes.flatMap Node.preorder) (.array (ofList nodes)) := by
  refine covers_of_branches rfl (nodup_items _) ?_
  rw [branches, List.forall₂_map_left_iff, List.forall₂_map_right_iff]
  suffices hparts : ∀ start, List.Forall₂ (fun entry node => Covers node.preorder entry.1)
      ((ofList nodes).zipIdx start) nodes from hparts 0
  induction nodes with
  | nil => exact fun start => .nil
  | cons node nodes ih =>
    rw [List.forall_mem_cons] at h
    exact fun start => .cons h.1 (ih h.2 (start + 1))

/-- If the trees in some fields go through the forms of them, they go through the members that show
the fields. -/
theorem Shows.exists_parts {members : List (String × Estree)} {fields : List (String × Node)}
    (h : Shows members fields)
    (hf : ∀ field ∈ fields, Covers field.2.preorder (ofNode field.2)) :
    ∃ parts : List (List Node), parts.flatten = fields.flatMap (fun field => field.2.preorder) ∧
      List.Forall₂ (fun member nodes => Covers nodes member.2) members parts := by
  induction h with
  | nil => exact ⟨[], rfl, .nil⟩
  | plain hp h ih =>
    obtain ⟨parts, he, hparts⟩ := ih hf
    exact ⟨[] :: parts, he, .cons hp.covers hparts⟩
  | @one name node members fields h ih =>
    rw [List.forall_mem_append] at hf
    obtain ⟨parts, he, hparts⟩ := ih hf.2
    refine ⟨node.preorder :: parts, ?_, .cons (hf.1 _ List.mem_cons_self) hparts⟩
    rw [List.flatten_cons, he]
    rfl
  | @list name nodes members fields h ih =>
    rw [List.forall_mem_append] at hf
    obtain ⟨parts, he, hparts⟩ := ih hf.2
    have hnodes : Covers (nodes.flatMap Node.preorder) (.array (ofList nodes)) :=
      covers_ofList fun node hin => hf.1 (name, node) (List.mem_map_of_mem hin)
    refine ⟨nodes.flatMap Node.preorder :: parts, ?_, .cons hnodes hparts⟩
    rw [List.flatten_cons, he, List.flatMap_append, Node.fieldList, List.flatMap_map]

/-- A walk goes through all forms of nodes that the form of a tree has in it. -/
theorem covers_preorder (root : Node) : Covers root.preorder (ofNode root) := by
  induction root using Node.induction_children with
  | step node ih =>
    obtain ⟨kind, members, he, hd, hs⟩ := exists_members node
    have hbranches : (ofNode node).branches = (("type", Json.string kind.name) :: members).map
        fun member => (Step.member member.1, member.2) := by
      rw [he]
      rfl
    obtain ⟨parts, hflat, hparts⟩ := hs.exists_parts ih
    have hpart : List.Forall₂ (fun branch nodes => Covers nodes branch.2) (ofNode node).branches
        ([] :: parts) := by
      rw [hbranches, List.forall₂_map_left_iff]
      exact .cons (Plain.string _).covers hparts
    have hcovers := covers_ofNode (he ▸ nodup_members hd) hpart
    rwa [List.flatten_cons, List.nil_append, hflat, ← Node.preorder_eq] at hcovers

end Places

/-- Children and exchange form agree at every node of a tree, and a walk that skips nothing enters a
node for each place of the exchange form where there is one, and no other. -/
theorem walk_matches_exchange_form (root : Node) :
    (∀ node ∈ root.preorder, ShowsChildren node) ∧
      Covers ((root.walk fun _ _ => true).filterMap Node.entered?) (ofNode root) :=
  ⟨fun node _ => showsChildren node, covers_preorder root⟩

end Estree

end ScriptTree
