/-
Walking a tree: entering each node before its children and leaving it after them. The nodes entered
are the tree in pre-order, `descendants`; `findAll` picks those of one kind.
-/
import Stencil.Tree.Size

namespace Stencil

namespace Node

/-- A step of a walk: a node and its parent, met on the way down or on the way up. -/
inductive Event
  | enter (node : Node) (parent : Option Node)
  | leave (node : Node) (parent : Option Node)

/-- The events of a walk from a node on. -/
def walk (node : Node) (parent : Option Node) : List Event :=
  .enter node parent ::
    ((node.children.attach.map fun c => walk c.1 (some node)).flatten ++ [.leave node parent])
termination_by node.size
decreasing_by exact size_child c.2

/-- The node and all nodes below it, each before its children. -/
def descendants (node : Node) : List Node :=
  node :: (node.children.attach.map fun c => descendants c.1).flatten
termination_by node.size
decreasing_by exact size_child c.2

/-- The nodes of one kind, in pre-order. -/
def findAll (node : Node) (typeName : Text) : List Node :=
  node.descendants.filter fun n => n.typeName == typeName

/-- The node of an event, if the event enters it. -/
def Event.entered? : Event → Option Node
  | .enter n _ => some n
  | .leave .. => none

theorem walk_eq (node : Node) (parent : Option Node) :
    node.walk parent =
      .enter node parent :: (node.children.flatMap (walk · (some node)) ++ [.leave node parent]) := by
  rw [walk, List.attach_map_val (f := fun c => walk c (some node)), List.flatMap_def]

theorem descendants_eq (node : Node) :
    node.descendants = node :: node.children.flatMap descendants := by
  rw [descendants, List.attach_map_val (f := descendants), List.flatMap_def]

end Node
end Stencil
