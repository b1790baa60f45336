-- Template code cut into literal text and the raw bodies of its formulas. The code is first
-- cut into tokens, each as long as it can be; the tokens are then read in two regions, text
-- and formula.
import SnippetEngine.Text.Basic

namespace SnippetEngine

/-! ## Tokens -/

inductive Token
  | escapedDollar
  | formulaOpen
  | dollar
  | braceClose
  | run (text : Text)
  deriving DecidableEq

namespace Token

/-- The characters that a token stands for. -/
def lexeme : Token → Text
  | escapedDollar => ['$', '$']
  | formulaOpen => ['$', '{']
  | dollar => ['$']
  | braceClose => ['}']
  | run text => text

/-- The characters that open no other token. -/
def isPlain (c : Char) : Bool := c != '$' && c != '}'

/-- The token that the code `c :: r` starts with, and the code behind it. -/
def next : (c : Char) → (r : Text) → Token × Text
  | '$', '$' :: r => (escapedDollar, r)
  | '$', '{' :: r => (formulaOpen, r)
  | '$', r => (dollar, r)
  | '}', r => (braceClose, r)
  | c, r => (run (c :: r.takeWhile isPlain), r.dropWhile isPlain)

theorem next_length_le (c : Char) (r : Text) : (next c r).2.length ≤ r.length := by
  fun_cases next c r
  case case5 => exact (List.dropWhile_sublist _).length_le
  all_goals simp

/-- All tokens of the code, in order. -/
def ofText : Text → List Token
  | [] => []
  | c :: r => (next c r).1 :: ofText (next c r).2
termination_by code => code.length
decreasing_by
  have := next_length_le c r
  simp only [List.length_cons]
  omega

end Token

/-! ## Segments -/

inductive Segment
  /-- Literal text, with its escapes resolved. -/
  | text (text : Text)
  /-- The raw body of a formula, and the byte offset of the `$` that opens it. -/
  | formula (body : Text) (offset : Nat)
  deriving DecidableEq

namespace Segment

/-- Where the next token is read. -/
inductive Region
  | text
  | formula (offset : Nat)
  deriving DecidableEq

/-- The text segment of the pending characters (last one first), if there are any. -/
def ofPending : (pending : Text) → List Segment
  | [] => []
  | c :: r => [text (c :: r).reverse]

/-- The segments of the tokens from byte `offset` on. `pending` holds the characters of the
open segment, last one first. A formula that is still open at the end is dropped. -/
def ofTokens : Region → (pending : Text) → (offset : Nat) → List Token → List Segment
  | .text, pending, _, [] => ofPending pending
  | .formula _, _, _, [] => []
  | .text, pending, offset, .escapedDollar :: ts => ofTokens .text ('$' :: pending) (offset + 2) ts
  | .text, pending, offset, .formulaOpen :: ts =>
    ofPending pending ++ ofTokens (.formula offset) [] (offset + 2) ts
  | .text, pending, offset, t :: ts =>
    ofTokens .text (t.lexeme.reverse ++ pending) (offset + t.lexeme.byteSize) ts
  | .formula start, pending, offset, .braceClose :: ts =>
    formula pending.reverse start :: ofTokens .text [] (offset + 1) ts
  | .formula start, pending, offset, t :: ts =>
    ofTokens (.formula start) (t.lexeme.reverse ++ pending) (offset + t.lexeme.byteSize) ts

/-- The segments of template code. Outside a formula `$$` is a literal `$`, and a `$` or `}`
that opens or closes nothing is literal. The empty code is one empty text. -/
def scan (code : Text) : List Segment :=
  if code.isEmpty then [text []] else ofTokens .text [] 0 (Token.ofText code)

end Segment

end SnippetEngine
