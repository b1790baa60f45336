-- Computations that may fail: which of their steps a success took, and which one failed. Where they
-- have a state, a failure leaves the state that its step has left.
import Mathlib.Data.List.Forall2

namespace SnippetEngine

variable {ε α β : Type}

@[simp] theorem ok_bind (a : α) (f : α → Except ε β) : (Except.ok a >>= f) = f a := rfl

@[simp] theorem error_bind (e : ε) (f : α → Except ε β) : (Except.error e >>= f) = .error e := rfl

theorem bind_eq_ok {x : Except ε α} {f : α → Except ε β} {b : β} :
    (x >>= f) = .ok b ↔ ∃ a, x = .ok a ∧ f a = .ok b := by
  cases x <;> simp

theorem mapM_congr {m : Type → Type} [Monad m] [LawfulMonad m] {f g : α → m β} {l : List α}
    (h : ∀ a ∈ l, f a = g a) : l.mapM f = l.mapM g := by
  induction l with
  | nil => rfl
  | cons a l ih =>
    obtain ⟨ha, hl⟩ := List.forall_mem_cons.mp h
    rw [List.mapM_cons, List.mapM_cons, ha, ih hl]

theorem mapM_cons_eq_ok {f : α → Except ε β} {a : α} {l : List α} {bs : List β} :
    (a :: l).mapM f = .ok bs ↔ ∃ b bs', f a = .ok b ∧ l.mapM f = .ok bs' ∧ bs = b :: bs' := by
  rw [List.mapM_cons, bind_eq_ok]
  constructor
  · rintro ⟨b, hb, h⟩
    obtain ⟨bs', hbs, h⟩ := bind_eq_ok.mp h
    cases h
    exact ⟨b, bs', hb, hbs, rfl⟩
  · rintro ⟨b, bs', hb, hbs, rfl⟩
    exact ⟨b, hb, bind_eq_ok.mpr ⟨bs', hbs, rfl⟩⟩

theorem mapM_eq_ok_iff {f : α → Except ε β} {l : List α} {bs : List β} :
    l.mapM f = .ok bs ↔ List.Forall₂ (fun a b => f a = .ok b) l bs := by
  induction l generalizing bs with
  | nil =>
    rw [List.mapM_nil, List.forall₂_nil_left_iff]
    exact ⟨fun h => (Except.ok.inj h).symm, fun h => congrArg Except.ok h.symm⟩
  | cons a l ih =>
    rw [mapM_cons_eq_ok, List.forall₂_cons_left_iff]
    exact ⟨fun ⟨b, bs', hb, hbs, he⟩ => ⟨b, bs', hb, ih.mp hbs, he⟩,
      fun ⟨b, bs', hb, hbs, he⟩ => ⟨b, bs', hb, ih.mpr hbs, he⟩⟩

theorem exists_mapM_eq_ok_iff {f : α → Except ε β} {l : List α} :
    (∃ bs, l.mapM f = .ok bs) ↔ ∀ a ∈ l, ∃ b, f a = .ok b := by
  induction l with
  | nil => exact iff_of_true ⟨[], rfl⟩ fun _ h => nomatch h
  | cons a l ih =>
    rw [List.forall_mem_cons, ← ih]
    simp only [mapM_cons_eq_ok]
    exact ⟨fun ⟨_, b, bs', hb, hbs, _⟩ => ⟨⟨b, hb⟩, bs', hbs⟩,
      fun ⟨⟨b, hb⟩, bs', hbs⟩ => ⟨_, b, bs', hb, hbs, rfl⟩⟩

/-- A sequence of computations fails as the first one of them that fails. -/
theorem mapM_eq_error_iff {f : α → Except ε β} {l : List α} {e : ε} :
    l.mapM f = .error e ↔ ∃ pre a post, l = pre ++ a :: post ∧
      (∀ x ∈ pre, ∃ b, f x = .ok b) ∧ f a = .error e := by
  induction l with
  | nil =>
    refine ⟨fun h => (nomatch h), fun ⟨pre, a, post, hnil, _⟩ => ?_⟩
    simp at hnil
  | cons x l ih =>
    rw [List.mapM_cons]
    constructor
    · intro h
      rcases hx : f x with e' | b
      · rw [hx] at h
        cases h
        exact ⟨[], x, l, rfl, fun _ hmem => (nomatch hmem), hx⟩
      · rcases hl : l.mapM f with e' | bs
        · rw [hx, hl] at h
          cases h
          obtain ⟨pre, a, post, rfl, hpre, ha⟩ := ih.mp hl
          exact ⟨x :: pre, a, post, rfl, List.forall_mem_cons.mpr ⟨⟨b, hx⟩, hpre⟩, ha⟩
        · rw [hx, hl] at h
          cases h
    · rintro ⟨_ | ⟨y, pre⟩, a, post, hcut, hpre, ha⟩
      · obtain ⟨rfl, -⟩ := List.cons.inj hcut
        rw [ha]
        rfl
      · obtain ⟨rfl, rfl⟩ := List.cons.inj hcut
        obtain ⟨⟨b, hb⟩, hpre⟩ := List.forall_mem_cons.mp hpre
        rw [hb, ok_bind, ih.mpr ⟨pre, a, post, rfl, hpre, ha⟩]
        rfl

theorem map_map {γ : Type} (f : α → β) (g : β → γ) (x : Except ε α) :
    (x.map f).map g = x.map (g ∘ f) := by
  rcases x with e | a
  · rfl
  · rfl

/-- Computations whose results look alike, for a function that sees no more. -/
theorem map_eq_map {γ : Type} {view : α → γ} {f : α → β} {x y : Except ε α}
    (hf : ∀ a b, view a = view b → f a = f b) (h : x.map view = y.map view) : x.map f = y.map f := by
  rcases x with e | a
  · rcases y with e' | b
    · cases h
      rfl
    · cases h
  · rcases y with e' | b
    · cases h
    · exact congrArg Except.ok (hf a b (Except.ok.inj h))

/-! ## Computations with a state -/

section State

variable {σ : Type} {x : ExceptT ε (StateM σ) α} {s s' : σ}

theorem run_get_bind (f : σ → ExceptT ε (StateM σ) β) (s : σ) :
    ((get : ExceptT ε (StateM σ) σ) >>= f).run.run s = (f s).run.run s := rfl

theorem run_liftM (y : Except ε α) (s : σ) :
    (liftM y : ExceptT ε (StateM σ) α).run.run s = (y, s) := by
  rcases y with e | a
  · rfl
  · rfl

theorem run_bind_of_ok {a : α} (f : α → ExceptT ε (StateM σ) β)
    (h : x.run.run s = (.ok a, s')) : (x >>= f).run.run s = (f a).run.run s' := by
  rw [ExceptT.run_bind, StateT.run_bind, h]
  rfl

theorem run_bind_of_error {e : ε} (f : α → ExceptT ε (StateM σ) β)
    (h : x.run.run s = (.error e, s')) : (x >>= f).run.run s = (.error e, s') := by
  rw [ExceptT.run_bind, StateT.run_bind, h]
  rfl

theorem run_bind_congr {y : ExceptT ε (StateM σ) α} (f : α → ExceptT ε (StateM σ) β)
    (h : x.run.run s = y.run.run s) : (x >>= f).run.run s = (y >>= f).run.run s := by
  rw [ExceptT.run_bind, ExceptT.run_bind, StateT.run_bind, StateT.run_bind, h]

end State

end SnippetEngine
