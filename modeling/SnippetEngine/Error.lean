-- What can go wrong, with the words, the code and the advice that each cause is reported with.
import SnippetEngine.Template.Formula

namespace SnippetEngine

/-- A match node, by its place in the tree. -/
abbrev NodeId := Nat

/-- Why a result could not be applied. -/
inductive Rejection
  /-- The effect is written for another environment. -/
  | otherEnvironment (effect target : Text)
  /-- The selection is reversed, ends beyond the document or cuts a character. -/
  | invalidSelection (start stop size : Nat)
  | refused (reason : Text)
  deriving DecidableEq

inductive Error
  | invalidFormula (effect formula : Text) (offset : Nat) (reason : FormulaFault)
  | childCountMismatch (effect : Text) (expected got : Nat)
  | nodeAlreadyAttached (node : NodeId)
  | notAnEffectNode (node : NodeId)
  | applyFailed (rejection : Rejection)
  | unreadableConfig
  | malformedConfig
  /-- A node that the tree does not have was asked for. -/
  | noSuchNode (node : NodeId)
  deriving DecidableEq

def Rejection.message : Rejection → Text
  | otherEnvironment effect target =>
    "effect `".toList ++ effect ++ "` targets the `".toList ++ target ++ "` environment".toList
  | invalidSelection start stop size =>
    "selection ".toList ++ Text.decimal start ++ "..".toList ++ Text.decimal stop ++
      " is outside the document of ".toList ++ Text.decimal size ++ " bytes".toList
  | refused reason => reason

namespace Error

def nodeName (node : NodeId) : Text := '#' :: Text.decimal node

def message : Error → Text
  | invalidFormula effect formula offset reason =>
    "invalid formula `".toList ++ formula ++ "` in effect `".toList ++ effect ++
      "` at offset ".toList ++ Text.decimal offset ++ ": ".toList ++ reason.message
  | childCountMismatch effect expected got =>
    "effect `".toList ++ effect ++ "` expects ".toList ++ Text.decimal expected ++
      " child match(es), got ".toList ++ Text.decimal got
  | nodeAlreadyAttached node =>
    "match node ".toList ++ nodeName node ++ " already has a parent".toList
  | notAnEffectNode node =>
    "match node ".toList ++ nodeName node ++ " is not an effect match".toList
  | applyFailed rejection => "failed to apply result: ".toList ++ rejection.message
  | unreadableConfig => "the config file cannot be read".toList
  | malformedConfig => "failed to parse config file".toList
  | noSuchNode node => "match node ".toList ++ nodeName node ++ " does not exist".toList

/-- The code that a cause is filed under. -/
def code? : Error → Option Text
  | invalidFormula .. => some "snipmatch::invalid_formula".toList
  | childCountMismatch .. => some "snipmatch::child_count_mismatch".toList
  | nodeAlreadyAttached _ => some "snipmatch::node_already_attached".toList
  | notAnEffectNode _ => some "snipmatch::not_an_effect_node".toList
  | applyFailed _ => some "snipmatch::apply_failed".toList
  | unreadableConfig => some "snipmatch::io_error".toList
  | malformedConfig => some "snipmatch::config_parse".toList
  | noSuchNode _ => none

/-- Advice to the author, for the causes that have one. -/
def help? : Error → Option Text
  | invalidFormula .. =>
    some ("formulas take the form `$\x7bname\x7d`, `$\x7bname(a,b)\x7d` or ".toList ++
      "`$\x7bvar:name(a,b)\x7d`; use `$$` for a literal `$`".toList)
  | childCountMismatch .. =>
    some "an effect match needs exactly one child per effect parameter".toList
  | nodeAlreadyAttached _ =>
    some "clone the node with `MatchTree::clone_node` to reuse it under another effect".toList
  | malformedConfig => some "check that snipmatch.toml is valid TOML".toList
  | _ => none

end Error

end SnippetEngine
