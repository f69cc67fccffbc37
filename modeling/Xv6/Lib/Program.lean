import Mathlib

/-!
# Programs with a state that can fail

Weakest preconditions of programs over a state that may stop with an error.  `wp fails m post s`
says of a run of `m` from `s` that it stops only with an error that `fails` allows, and that
otherwise its result and last state are as `post` says.  The rules follow the program's text:
one for each primitive, sequencing, branching, and weakening of the postcondition.
-/

namespace Program

variable {σ ε α β : Type} {fails : ε → Prop} {m : StateT σ (Except ε) α} {s : σ}
  {post : α → σ → Prop}

def wp (fails : ε → Prop) (m : StateT σ (Except ε) α) (post : α → σ → Prop) (s : σ) : Prop :=
  match m s with
  | .ok (a, s') => post a s'
  | .error e => fails e

@[simp] theorem wp_pure {a : α} {post : α → σ → Prop} :
    wp fails (pure a : StateT σ (Except ε) α) post s ↔ post a s := Iff.rfl

@[simp] theorem wp_get {post : σ → σ → Prop} :
    wp fails (get : StateT σ (Except ε) σ) post s ↔ post s s := Iff.rfl

@[simp] theorem wp_set {s' : σ} {post : PUnit → σ → Prop} :
    wp fails (set s' : StateT σ (Except ε) PUnit) post s ↔ post ⟨⟩ s' := Iff.rfl

@[simp] theorem wp_modify {f : σ → σ} {post : PUnit → σ → Prop} :
    wp fails (modify f : StateT σ (Except ε) PUnit) post s ↔ post ⟨⟩ (f s) := Iff.rfl

@[simp] theorem wp_throw {e : ε} {post : α → σ → Prop} :
    wp fails (throw e : StateT σ (Except ε) α) post s ↔ fails e := Iff.rfl

@[simp] theorem wp_bind {f : α → StateT σ (Except ε) β} {post : β → σ → Prop} :
    wp fails (m >>= f) post s ↔ wp fails m (fun a s' => wp fails (f a) post s') s := by
  simp only [wp, bind, StateT.bind, Except.bind]
  cases m s with
  | error e => exact Iff.rfl
  | ok r => exact Iff.rfl

@[simp] theorem wp_ite {c : Prop} [Decidable c] {m' : StateT σ (Except ε) α}
    {post : α → σ → Prop} :
    wp fails (if c then m else m') post s ↔
      (c → wp fails m post s) ∧ (¬c → wp fails m' post s) := by
  by_cases h : c
  · simp [h]
  · simp [h]

theorem wp_mono {post' : α → σ → Prop} (imp : ∀ a s', post a s' → post' a s')
    (h : wp fails m post s) : wp fails m post' s := by
  unfold wp at h ⊢
  cases run : m s with
  | error e =>
    rw [run] at h
    exact h
  | ok r =>
    rw [run] at h
    exact imp r.1 r.2 h

/-- What the rules say of a run that ends. -/
theorem of_ok {a : α} {s' : σ} (h : wp fails m post s) (run : m s = .ok (a, s')) : post a s' := by
  unfold wp at h
  rw [run] at h
  exact h

/-- What the rules say of a run that stops with an error. -/
theorem of_error {e : ε} (h : wp fails m post s) (run : m s = .error e) : fails e := by
  unfold wp at h
  rw [run] at h
  exact h

end Program
