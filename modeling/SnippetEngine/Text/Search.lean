-- Finding and replacing texts in texts. A search goes from left to right, and the next
-- occurrence is looked for behind the last.
import SnippetEngine.Text.Basic

namespace SnippetEngine.Text

/-! ## The first occurrence -/

/-- What stands before and behind the first `c`. -/
def cutAtChar? (c : Char) (t : Text) : Option (Text × Text) :=
  match t.dropWhile (· != c) with
  | _ :: after => some (t.takeWhile (· != c), after)
  | [] => none

theorem eq_of_cutAtChar? {c : Char} {t before after : Text}
    (h : cutAtChar? c t = some (before, after)) : t = before ++ c :: after ∧ c ∉ before := by
  unfold cutAtChar? at h
  split at h
  next d r hd =>
    simp only [Option.some.injEq, Prod.mk.injEq] at h
    obtain ⟨rfl, rfl⟩ := h
    have hdc : d = c := by
      have := List.head?_dropWhile_not (· != c) t
      rw [hd] at this
      simpa using this
    refine ⟨?_, fun hc => ?_⟩
    · have := List.takeWhile_append_dropWhile (p := (· != c)) (l := t)
      rw [hd, hdc] at this
      exact this.symm
    · have := List.all_takeWhile (p := (· != c)) (l := t)
      simpa using List.all_eq_true.mp this c hc
  next => cases h

/-- What stands before and behind the first occurrence of `needle`. -/
def cutAround? (needle : Text) : Text → Option (Text × Text)
  | [] => if needle.isEmpty then some ([], []) else none
  | c :: r =>
    match after? needle (c :: r) with
    | some rest => some ([], rest)
    | none => (cutAround? needle r).map fun (before, after) => (c :: before, after)

theorem eq_of_cutAround? {needle t before after : Text}
    (h : cutAround? needle t = some (before, after)) : t = before ++ needle ++ after := by
  induction t generalizing before with
  | nil => simp_all [cutAround?]
  | cons c r ih =>
    rw [cutAround?] at h
    split at h
    next rest hr =>
      cases h
      simpa using after?_eq_some.mp hr
    next =>
      obtain ⟨⟨b, a⟩, hb, he⟩ := Option.map_eq_some_iff.mp h
      cases he
      simp [ih hb]

/-- The byte offset of the first occurrence of `needle`. -/
def offsetOf? (needle t : Text) : Option Nat := (cutAround? needle t).map (byteSize ·.1)

/-! ## Every occurrence -/

/-- Writes `new` in place of each occurrence of `needle`. The first `skip` characters belong to
an occurrence that is already written. -/
def replaceFrom (needle new : Text) : (skip : Nat) → Text → Text
  | _, [] => []
  | skip + 1, _ :: r => replaceFrom needle new skip r
  | 0, c :: r =>
    if startsWith needle (c :: r) then new ++ replaceFrom needle new (needle.length - 1) r
    else c :: replaceFrom needle new 0 r

/-- Writes `new` in place of each occurrence of `needle`. The empty needle occurs nowhere. -/
def replaceAll (needle new t : Text) : Text :=
  if needle.isEmpty then t else replaceFrom needle new 0 t

end SnippetEngine.Text
