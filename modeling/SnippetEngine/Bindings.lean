-- Names bound to texts, in the order in which the names were first bound.
import SnippetEngine.Text.Basic

namespace SnippetEngine

/-- Pairs of a name and its text; a name stands at most once. -/
abbrev Bindings := List (Text × Text)

namespace Bindings

/-- The text that a name is bound to. -/
def value? (bs : Bindings) (name : Text) : Option Text :=
  (bs.find? (·.1 == name)).map Prod.snd

def binds (bs : Bindings) (name : Text) : Bool := bs.any (·.1 == name)

def names (bs : Bindings) : List Text := bs.map Prod.fst

def values (bs : Bindings) : List Text := bs.map Prod.snd

/-- Binds a name. A name that is bound already keeps its place and gets the new text. -/
def bind (name text : Text) : Bindings → Bindings
  | [] => [(name, text)]
  | (n, t) :: bs => if n = name then (n, text) :: bs else (n, t) :: bind name text bs

/-- Binds the pairs one after another. -/
def ofList (pairs : List (Text × Text)) : Bindings :=
  pairs.foldl (fun bs (name, text) => bind name text bs) []

theorem ofList_eq_foldl (pairs : List (Text × Text)) :
    ofList pairs = pairs.foldl (fun bs p => bind p.1 p.2 bs) [] := rfl

@[simp] theorem value?_bind_self (name text : Text) (bs : Bindings) :
    value? (bind name text bs) name = some text := by
  induction bs with
  | nil => simp [bind, value?]
  | cons b bs ih =>
    obtain ⟨n, t⟩ := b
    by_cases h : n = name
    · simp [bind, value?, h]
    · simpa [bind, value?, h] using ih

theorem value?_bind_ne {name other : Text} (text : Text) (bs : Bindings) (h : other ≠ name) :
    value? (bind name text bs) other = value? bs other := by
  induction bs with
  | nil => simp [bind, value?, Ne.symm h]
  | cons b bs ih =>
    obtain ⟨n, t⟩ := b
    by_cases hn : n = name
    · subst hn
      simp [bind, value?, Ne.symm h]
    · by_cases ho : n = other
      · simp [bind, value?, ho, h]
      · simpa [bind, value?, hn, ho] using ih

end Bindings

end SnippetEngine
