-- Match trees: an arena of nodes, each an argument or the application of an effect to nodes
-- that were there before it. Nodes are added and never removed.
import SnippetEngine.Effect
import SnippetEngine.Error

namespace SnippetEngine

/-- How a matcher classified a match. -/
inductive MatchType
  | normal
  | exact
  | partly
  deriving DecidableEq

def MatchType.ofIndex? : Nat → Option MatchType
  | 0 => some normal
  | 1 => some exact
  | 2 => some partly
  | _ => none

/-- A leaf: the text typed for a parameter, as far as there are any. -/
structure Argument where
  parameter : Option Parameter := none
  text : Option Text := none
  deriving DecidableEq

/-- The application of an effect to one child for each of its parameters. -/
structure Application where
  effect : SharedEffect
  /-- The search pattern that led to the effect. -/
  pattern : Text
  /-- The children, in parameter order. -/
  children : List NodeId
  /-- An argument without a parameter, on offer for one more text. It is no child. -/
  ghost : NodeId
  deriving DecidableEq

inductive NodeKind
  | argument (argument : Argument)
  | application (application : Application)
  deriving DecidableEq

structure MatchNode where
  parent : Option NodeId := none
  matchType : MatchType := .normal
  kind : NodeKind
  deriving DecidableEq

structure MatchTree where
  nodes : Array MatchNode := #[]
  deriving DecidableEq

namespace Argument

/-- True if there is a text and it is not empty. -/
def isBound (a : Argument) : Bool := !(a.text.getD []).isEmpty

/-- Equality of the texts and of the signatures of the parameters. -/
def sameValue (a b : Argument) : Bool :=
  a.text == b.text && a.parameter.map Parameter.signature == b.parameter.map Parameter.signature

end Argument

namespace Application

def child? (a : Application) (index : Nat) : Option NodeId := a.children[index]?

/-- The child of the first parameter of that name. -/
def childNamed? (a : Application) (name : Text) : Option NodeId :=
  (a.effect.effect.parameterIndex? name).bind a.child?

end Application

namespace MatchTree

/-- A step that builds on a tree. When it fails, what it has written until then stays. -/
abbrev Build := ExceptT Error (StateM MatchTree)

/-! ## Looking at nodes -/

def size (t : MatchTree) : Nat := t.nodes.size

def node? (t : MatchTree) (n : NodeId) : Option MatchNode := t.nodes[n]?

/-- The node, which is expected to exist. -/
def node (t : MatchTree) (n : NodeId) : Except Error MatchNode :=
  match t.node? n with
  | some node => .ok node
  | none => .error (.noSuchNode n)

/-- The application at a node that is expected to exist; none for an argument. -/
def application? (t : MatchTree) (n : NodeId) : Except Error (Option Application) := do
  match (← t.node n).kind with
  | .application a => return some a
  | .argument _ => return none

/-- The argument at a node that is expected to exist; none for an application. -/
def argument? (t : MatchTree) (n : NodeId) : Except Error (Option Argument) := do
  match (← t.node n).kind with
  | .argument a => return some a
  | .application _ => return none

def parent (t : MatchTree) (n : NodeId) : Except Error (Option NodeId) :=
  (·.parent) <$> t.node n

/-- The last node of the walk along the parents that takes at most `steps` steps. -/
def ancestor (t : MatchTree) : (steps : Nat) → NodeId → Except Error NodeId
  | 0, n => .ok n
  | steps + 1, n => do
    match ← t.parent n with
    | none => return n
    | some p => t.ancestor steps p

/-- The node without a parent that the walk along the parents ends at. The walk meets no node
twice, so it has fewer steps than the tree has nodes. -/
def root (t : MatchTree) (n : NodeId) : Except Error NodeId := do
  let _ ← t.node n
  t.ancestor t.size n

/-! ## Adding nodes -/

def push (t : MatchTree) (node : MatchNode) : MatchTree := { nodes := t.nodes.push node }

/-- Changes a node, if it exists. -/
def update (t : MatchTree) (n : NodeId) (f : MatchNode → MatchNode) : MatchTree :=
  { nodes := t.nodes.modify n f }

/-- Adds a node behind all others. -/
def addNode (node : MatchNode) : Build NodeId := do
  let n := (← get).size
  modify (·.push node)
  return n

/-- Adds an argument without a parent. -/
def addArgument (argument : Argument) : Build NodeId := addNode { kind := .argument argument }

/-- Fails with the first child that does not exist, has a parent or is one of those `before`
it. -/
def checkDetached (t : MatchTree) : (before : List NodeId) → List NodeId → Except Error Unit
  | _, [] => .ok ()
  | before, c :: cs => do
    if (← t.parent c).isSome || before.contains c then throw (.nodeAlreadyAttached c)
    t.checkDetached (c :: before) cs

/-- Makes a node, which is expected to exist, a child. -/
def setParent (parent child : NodeId) : Build Unit := do
  let _ ← (← get).node child
  modify (·.update child ({ · with parent := some parent }))

/-- Adds the application of an effect to nodes without a parent, one for each parameter. They
become its children, and it gets a ghost. -/
def addEffect (effect : SharedEffect) (pattern : Text) (children : List NodeId) :
    Build NodeId := do
  let expected := effect.effect.parameters.length
  if children.length ≠ expected then
    throw (.childCountMismatch effect.effect.id expected children.length)
  (← get).checkDetached [] children
  let n := (← get).size
  children.forM (setParent n)
  let _ ← addNode { kind := .application { effect, pattern, children, ghost := n + 1 } }
  let _ ← addNode { parent := some n, kind := .argument {} }
  return n

/-- Adds the application of an effect to new arguments without a text. -/
def addEffectWithParameters (effect : SharedEffect) (pattern : Text) : Build NodeId := do
  let children ← effect.effect.parameters.mapM fun p => addArgument { parameter := some p }
  addEffect effect pattern children

/-! ## Changing nodes -/

/-- Writes the text of an argument; false for an application, which stays as it is. -/
def setArgument (n : NodeId) (text : Option Text) : Build Bool := do
  let t ← get
  match ← t.argument? n with
  | none => return false
  | some a =>
    set (t.update n ({ · with kind := .argument { a with text } }))
    return true

def setMatchType (n : NodeId) (matchType : MatchType) : Build Unit := do
  let t ← get
  let _ ← t.node n
  set (t.update n ({ · with matchType }))

end MatchTree

end SnippetEngine
