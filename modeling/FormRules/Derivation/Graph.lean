import FormRules.Derivation.Basic

/-!
# The order of derivations

Derivations form a graph: a target reads the targets that its derivations depend on. Loops of three
or more targets are rejected; two targets may read each other. The rest is ordered so that what is
read comes first.
-/

namespace FormRules

/-- A graph: its nodes in order, each with its successors in alphabetical order. -/
abbrev Graph := List (String × List String)

namespace Graph

def successors (g : Graph) (n : String) : List String := (Table.get? g n).getD []

def nodes (g : Graph) : List String := g.map (·.1)

/-! ## Depth-first order -/

/-- A traversal: the nodes entered, and those left, the first one first. -/
structure Traversal where
  entered : List String := []
  left : List String := []

/-- Visits a node after its successors, unless it has been entered. Every visit inside of another
enters a further node, so `fuel` may be the number of nodes. -/
def visit (g : Graph) : (fuel : Nat) → Traversal → String → Traversal
  | 0, t, _ => t
  | fuel + 1, t, n =>
    if t.entered.contains n then t
    else
      let t := (g.successors n).foldl (visit g fuel) { t with entered := n :: t.entered }
      { t with left := t.left ++ [n] }

/-- The nodes, each after the successors that do not lead back to it. -/
def postorder (g : Graph) : List String := (g.nodes.foldl (g.visit g.length) {}).left

/-! ## Components

Two nodes belong to one component if each leads to the other. A depth-first search numbers the nodes as it
enters them and keeps those whose component is not complete on a stack. For each it notes the least number
that it has been seen to lead back to; where that is a node's own number, the nodes above it on the stack are
its component. -/

/-- A search for components. -/
structure Search where
  index : List (String × Nat) := []
  low : List (String × Nat) := []
  /-- The nodes entered whose component is not complete, the last one first. -/
  stack : List String := []
  /-- The components of more than two nodes, in the order in which they were complete. -/
  knots : List (List String) := []

namespace Search

def indexOf (s : Search) (n : String) : Nat := (Table.get? s.index n).getD 0

def lowOf (s : Search) (n : String) : Nat := (Table.get? s.low n).getD 0

/-- Enters a node, which takes the next number. -/
def enter (s : Search) (n : String) : Search :=
  let number := s.index.length
  { s with index := Table.put s.index n number, low := Table.put s.low n number, stack := n :: s.stack }

/-- Notes that a node leads back to a number. -/
def lower (s : Search) (n : String) (number : Nat) : Search :=
  { s with low := Table.put s.low n (min (s.lowOf n) number) }

/-- Follows an edge to a node, which is searched first if it has not been entered. -/
def follow (search : Search → String → Search) (n : String) (s : Search) (m : String) : Search :=
  if Table.has s.index m then
    if s.stack.contains m then s.lower n (s.indexOf m) else s
  else
    let s := search s m
    s.lower n (s.lowOf m)

/-- Takes the component of a node from the stack if the node leads back to none before it. -/
def leave (s : Search) (n : String) : Search :=
  if s.lowOf n = s.indexOf n then
    let component := s.stack.takeWhile (· ≠ n) ++ [n]
    { s with
      stack := (s.stack.dropWhile (· ≠ n)).tail
      knots := if 2 < component.length then s.knots ++ [component] else s.knots }
  else s

end Search

/-- Searches the part of the graph that a node leads to. Every search inside of another enters a further
node, so `fuel` may be the number of nodes. -/
def search (g : Graph) : (fuel : Nat) → Search → String → Search
  | 0, s, _ => s
  | fuel + 1, s, n => ((g.successors n).foldl (Search.follow (g.search fuel) n) (s.enter n)).leave n

/-- Searches from some nodes, one after another, unless they have been entered. -/
def searchFrom (g : Graph) (s : Search) (ns : List String) : Search :=
  ns.foldl (fun s n => if Table.has s.index n then s else g.search g.length s n) s

/-- The components of more than two nodes, in the order in which they are complete. -/
def knots (g : Graph) : List (List String) := (g.searchFrom {} g.nodes).knots

/-! ## Loops -/

/-- A search in breadth: the nodes to go on from, and for each node that has been come to, the first one
apart, from where, the last one first. -/
structure Tour where
  queue : List String
  origins : List (String × String) := []

/-- Comes to a node of a component, unless it has been come to before. -/
def Tour.meet (component : List String) (n : String) (t : Tour) (m : String) : Tour :=
  if component.contains m && !Table.has t.origins m then
    { queue := t.queue ++ [m], origins := (m, n) :: t.origins }
  else t

/-- The way back from a node to the first one. A node is come to from one that was come to before, so that
the rest of the list tells how. -/
def trail : (origins : List (String × String)) → String → List String
  | [], n => [n]
  | (m, p) :: origins, n => if n = m then n :: trail origins p else trail origins n

/-- A shortest walk inside of a component from `start` back to it. Each node of the component enters the
queue once, so `fuel` may be their number. -/
def closedWalk? (g : Graph) (component : List String) (start : String) : (fuel : Nat) → Tour → Option (List String)
  | 0, _ => none
  | fuel + 1, t =>
    match t.queue with
    | [] => none
    | n :: queue =>
      let next := g.successors n
      if next.contains start then some ((trail t.origins n).reverse ++ [start])
      else g.closedWalk? component start fuel (next.foldl (Tour.meet component n) { t with queue })

/-- The walk that shows the first component of more than two nodes, from its least node. -/
def cycle? (g : Graph) : Option (List String) :=
  g.knots.head?.bind fun component =>
    match Fault.sorted component with
    | [] => none
    | start :: rest =>
      some ((g.closedWalk? component start component.length { queue := [start] }).getD
        (start :: rest ++ [start]))

end Graph

namespace Derivation

/-- Whether what is read at one path depends on what is written at the other. -/
def overlaps (read target : String) : Bool :=
  read = target || (read ++ ".").isPrefixOf target || (target ++ ".").isPrefixOf read

/-- Which targets a derivation reads, among some. -/
def readTargets (targets : List String) (d : Derivation) : Outcome (List String) := do
  let reads := (← d.dependencies).filter (· ≠ allFields)
  return targets.filter fun t => t ≠ d.target && reads.any (overlaps · t)

def graph (ds : List Derivation) : Outcome Graph := do
  let targets := (ds.map (·.target)).eraseDups
  let edges ← ds.mapM fun d => do return (d.target, ← d.readTargets targets)
  return targets.map fun t =>
    (t, Fault.sorted ((edges.filter (·.1 = t)).flatMap (·.2)).eraseDups)

/-- A loop of three or more targets, as a closed walk. -/
def cycle? (ds : List Derivation) : Outcome (Option (List String)) := do return (← graph ds).cycle?

/-- Derivations ordered so that what is read comes first; those of one target keep their order. -/
def evaluationOrder (ds : List Derivation) : Outcome (List Derivation) := do
  return (← graph ds).postorder.flatMap fun t => ds.filter (·.target = t)

end Derivation
end FormRules
