-- The value of a TOML text: its statements, one after another, build the table.
import SnippetEngine.Toml.Statement

namespace SnippetEngine.Toml

/-- The table built so far, and the path of the table that pairs go to. -/
structure Building where
  root : Table := []
  path : List Text := []

namespace Building

/-- Opens the table at the end of a path in the way that `f` says. -/
def enter (b : Building) (f : Text → Table → Option Table) (path : List Text) :
    Option Building := do
  let last ← path.getLast?
  let root ← b.root.within (f last) path.dropLast
  return { root, path }

def step (b : Building) : Statement → Option Building
  | .pair path v =>
    (b.root.within (Table.assign v path) b.path).map ({ b with root := · })
  | .table path => b.enter Table.openTable path
  | .element path => b.enter Table.openElement path

end Building

/-- The table that a text writes; none if the text is no TOML or defines something twice. -/
def parse (t : Text) : Option Value := do
  let statements ← statements? t
  let built ← statements.foldlM Building.step {}
  return .table (Table.toValues built.root)

end SnippetEngine.Toml
