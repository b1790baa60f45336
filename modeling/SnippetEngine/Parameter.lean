-- The typed parameters of an effect.
import SnippetEngine.Text.Basic

namespace SnippetEngine

structure Parameter where
  name : Text
  /-- The broad category, for example `expr`, `stmt` or `ident`. -/
  majorType : Text := []
  /-- The fine-grained type, for example `int`. -/
  minorType : Text := []
  /-- The value of every argument for this parameter, whatever text it holds. -/
  fixedValue : Option Text := none
  deriving DecidableEq

namespace Parameter

/-- What identifies a parameter: its name and its types, but not its fixed value. -/
def signature (p : Parameter) : Text × Text × Text := (p.name, p.majorType, p.minorType)

def sameSignature (p q : Parameter) : Bool := p.signature == q.signature

/-- The number of different signatures in a list. -/
def distinct (ps : List Parameter) : Nat := (ps.map signature).eraseDups.length

end Parameter

end SnippetEngine
