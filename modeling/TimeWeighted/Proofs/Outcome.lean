import Mathlib
import TimeWeighted.Arena.Handle

/-!
# Outcomes

How computations that may fault are taken apart, and how it is said of one that it yields a result
unless an arena is too small.

* `bind_of_ok`, `bind_of_error` : the first step of a computation decides how it goes on.
* `exists_of_run_bind_ok`, `exists_of_bind_ok` : a computation with a result, taken apart.
* `Yields` : a result with some property, or `arenaExhausted` because more than the offsets of a
  handle were needed.
* `Yields.bind`, `Yields.foldlM` : steps one after the other.
-/

namespace TimeWeighted

/-! ### Stateful computations -/

section

variable {ε σ α β : Type} {s s' : σ}

theorem bind_of_ok {x : EStateM ε σ α} {f : α → EStateM ε σ β} {a : α} (h : x s = .ok a s') :
    (x >>= f) s = f a s' := by
  simp only [bind, EStateM.bind, h]

theorem bind_of_error {x : EStateM ε σ α} {f : α → EStateM ε σ β} {e : ε}
    (h : x s = .error e s') : (x >>= f) s = .error e s' := by
  simp only [bind, EStateM.bind, h]

/-- A stateful computation with a result had one in its first step. -/
theorem exists_of_run_bind_ok {x : EStateM ε σ α} {f : α → EStateM ε σ β} {b : β}
    (h : (x >>= f) s = .ok b s') : ∃ a t, x s = .ok a t ∧ f a t = .ok b s' := by
  cases hx : x s with
  | ok a t => exact ⟨a, t, rfl, (bind_of_ok hx).symm.trans h⟩
  | error e t => cases (bind_of_error hx).symm.trans h

@[simp] theorem map_apply (f : α → β) (x : EStateM ε σ α) (s : σ) :
    (f <$> x) s = match x s with
      | .ok a t => .ok (f a) t
      | .error e t => .error e t :=
  rfl

@[simp] theorem get_bind_apply (f : σ → EStateM ε σ β) (s : σ) :
    ((get : EStateM ε σ σ) >>= f) s = f s s :=
  rfl

@[simp] theorem set_bind_apply (t : σ) (f : PUnit → EStateM ε σ β) (s : σ) :
    ((set t : EStateM ε σ PUnit) >>= f) s = f ⟨⟩ t :=
  rfl

@[simp] theorem modify_bind_apply (g : σ → σ) (f : PUnit → EStateM ε σ β) (s : σ) :
    ((modify g : EStateM ε σ PUnit) >>= f) s = f ⟨⟩ (g s) :=
  rfl

@[simp] theorem set_apply (t : σ) (s : σ) : (set t : EStateM ε σ PUnit) s = .ok ⟨⟩ t :=
  rfl

@[simp] theorem pure_apply (a : α) (s : σ) : (pure a : EStateM ε σ α) s = .ok a s :=
  rfl

@[simp] theorem throw_apply (e : ε) (s : σ) : (throw e : EStateM ε σ α) s = .error e s :=
  rfl

end

/-! ### Results up to a shortage of offsets -/

section

variable {α β : Type} {need need' : ℕ} {post : α → Prop} {x : Except Fault α}

@[simp] theorem ok_bind (a : α) (f : α → Except Fault β) : (Except.ok a >>= f) = f a :=
  rfl

@[simp] theorem error_bind (fault : Fault) (f : α → Except Fault β) :
    (Except.error fault >>= f) = .error fault :=
  rfl

theorem ite_bind (c : Prop) [Decidable c] (x y : Except Fault α) (f : α → Except Fault β) :
    (if c then x >>= f else y >>= f) = (if c then x else y) >>= f :=
  (apply_ite (· >>= f) c x y).symm

/-- A computation with a result had one in its first step. -/
theorem exists_of_bind_ok {x : Except Fault α} {f : α → Except Fault β} {b : β}
    (h : (x >>= f) = .ok b) : ∃ a, x = .ok a ∧ f a = .ok b := by
  cases x with
  | error fault => simp at h
  | ok a => exact ⟨a, rfl, h⟩

/-- The computation yields a result with the property `post`, unless it stops because an arena
would need `need` bytes or fewer and these are more than handles can point to. -/
def Yields (need : ℕ) (post : α → Prop) : Except Fault α → Prop
  | .ok a => post a
  | .error fault => fault = .arenaExhausted ∧ Handle.offsetSpan ≤ need

theorem Yields.mono {post' : α → Prop} (h : Yields need post x) (hneed : need ≤ need')
    (hpost : ∀ a, post a → post' a) : Yields need' post' x := by
  cases x with
  | ok a => exact hpost a h
  | error fault => exact ⟨h.1, h.2.trans hneed⟩

theorem Yields.bind {post' : β → Prop} {f : α → Except Fault β} (h : Yields need post x)
    (hf : ∀ a, post a → Yields need post' (f a)) : Yields need post' (x >>= f) := by
  cases x with
  | ok a => exact hf a h
  | error fault => exact h

theorem Yields.of_ok {a : α} (hx : x = .ok a) (h : post a) : Yields need post x := by
  rw [hx]
  exact h

theorem Yields.exists_ok (h : Yields need post x) (hneed : need < Handle.offsetSpan) :
    ∃ a, x = .ok a ∧ post a := by
  cases x with
  | ok a => exact ⟨a, rfl, h⟩
  | error fault => exact absurd h.2 (by omega)

/-- What holds of the items gone through so far holds of all in the end. -/
theorem Yields.foldlM {f : β → α → Except Fault β} (inv : List α → β → Prop) {items : List α}
    {b : β} (start : inv [] b)
    (step : ∀ done a rest b, items = done ++ a :: rest → inv done b →
      Yields need (inv (done ++ [a])) (f b a)) :
    Yields need (inv items) (items.foldlM f b) := by
  suffices h : ∀ todo done b, items = done ++ todo → inv done b →
      Yields need (inv items) (todo.foldlM f b) from h items [] b rfl start
  intro todo
  induction todo with
  | nil =>
    intro done b hitems hinv
    rw [List.append_nil] at hitems
    exact Yields.of_ok rfl (hitems ▸ hinv)
  | cons a rest ih =>
    intro done b hitems hinv
    rw [List.foldlM_cons]
    refine (step done a rest b hitems hinv).bind fun b' hb' => ?_
    exact ih (done ++ [a]) b' (by rw [hitems, List.append_assoc]; rfl) hb'

end

end TimeWeighted
