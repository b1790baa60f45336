-- The match below a node, as a term. The children of a node stand before it in the tree, so
-- every node of a well formed tree has a shape, and what can be asked of a match is asked of
-- its shape.
import SnippetEngine.Match.Tree

namespace SnippetEngine

/-- A match with the nodes that hold its parts. Ghosts are no part of it. -/
inductive Shape
  | argument (node : NodeId) (argument : Argument)
  | application (node : NodeId) (application : Application) (children : List Shape)

namespace MatchTree

/-- The shape of the match at a node. None if a node that it needs does not exist, or if a child
does not stand before its node. -/
def shape? (t : MatchTree) (n : NodeId) : Option Shape :=
  match t.node? n with
  | none => none
  | some node =>
    match node.kind with
    | .argument a => some (.argument n a)
    | .application a => do
      let children ← a.children.mapM fun c => if _h : c < n then t.shape? c else none
      return .application n a children
termination_by n

/-- The shape of the match at a node that is expected to have one. -/
def shape (t : MatchTree) (n : NodeId) : Except Error Shape :=
  match t.shape? n with
  | some s => .ok s
  | none => .error (.noSuchNode n)

end MatchTree

namespace Shape

/-! ## Arguments -/

mutual

/-- The arguments of a match with their nodes, from left to right. -/
def arguments : Shape → List (NodeId × Argument)
  | argument n a => [(n, a)]
  | application _ _ children => argumentsOfAll children

def argumentsOfAll : List Shape → List (NodeId × Argument)
  | [] => []
  | s :: ss => s.arguments ++ argumentsOfAll ss

end

/-- The nodes of the arguments, from left to right. -/
def leaves (s : Shape) : List NodeId := s.arguments.map Prod.fst

mutual

/-- True if every argument has a text. -/
def isComplete : Shape → Bool
  | argument _ a => a.isBound
  | application _ _ children => areComplete children

def areComplete : List Shape → Bool
  | [] => true
  | s :: ss => s.isComplete && areComplete ss

end

mutual

/-- True if no argument has a text. -/
def isEmpty : Shape → Bool
  | argument _ a => !a.isBound
  | application _ _ children => areEmpty children

def areEmpty : List Shape → Bool
  | [] => true
  | s :: ss => s.isEmpty && areEmpty ss

end

/-! ## Equality -/

mutual

/-- Equality of matches: the same shared effects, and equal arguments. -/
def agrees : Shape → Shape → Bool
  | argument _ a, argument _ b => a.sameValue b
  | application _ a as, application _ b bs => a.effect = b.effect && allAgree as bs
  | _, _ => false

def allAgree : List Shape → List Shape → Bool
  | [], [] => true
  | a :: as, b :: bs => a.agrees b && allAgree as bs
  | _, _ => false

end

/-! ## Copies -/

mutual

/-- Adds a copy of a match whose nodes have the given classifications: the children first, then
the node itself. -/
def copy (matchTypes : NodeId → MatchType) : Shape → MatchTree.Build NodeId
  | argument n a => do
    let c ← MatchTree.addArgument a
    MatchTree.setMatchType c (matchTypes n)
    return c
  | application n a children => do
    let copies ← copyAll matchTypes children
    let c ← MatchTree.addEffect a.effect a.pattern copies
    MatchTree.setMatchType c (matchTypes n)
    return c

def copyAll (matchTypes : NodeId → MatchType) : List Shape → MatchTree.Build (List NodeId)
  | [] => return []
  | s :: ss => do
    let c ← s.copy matchTypes
    let cs ← copyAll matchTypes ss
    return c :: cs

end

end Shape

namespace MatchTree

/-- The classification of a node. -/
def matchType (t : MatchTree) (n : NodeId) : MatchType :=
  ((t.node? n).map (·.matchType)).getD .normal

def isComplete (t : MatchTree) (n : NodeId) : Except Error Bool := Shape.isComplete <$> t.shape n

def isEmpty (t : MatchTree) (n : NodeId) : Except Error Bool := Shape.isEmpty <$> t.shape n

def leaves (t : MatchTree) (n : NodeId) : Except Error (List NodeId) := Shape.leaves <$> t.shape n

/-- Equality of a match and one in another or the same tree. -/
def equals (t : MatchTree) (n : NodeId) (other : MatchTree) (m : NodeId) : Except Error Bool := do
  return (← t.shape n).agrees (← other.shape m)

/-- Adds a copy of the match at a node, with new ghosts, and gives its node. -/
def copyNode (n : NodeId) : Build NodeId := do
  let t ← get
  (← t.shape n).copy t.matchType

end MatchTree

end SnippetEngine
