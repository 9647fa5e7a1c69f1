import Xv6.Lib.Wp

/-! Programs that keep an invariant, and programs that leave a part of the state alone. What part is given by what can be
observed of it. -/

namespace Wp

variable {σ τ ε α β : Type}

/-- If `I` holds before, it holds when the program returns. -/
def Keeps (I : σ → Prop) (m : StateT σ (Except ε) α) : Prop := ∀ s, I s → wp m (fun _ s' => I s') (fun _ => True) s

section Keeps

variable {I : σ → Prop} {m m' : StateT σ (Except ε) α} {f : α → StateT σ (Except ε) β}

theorem keeps_pure (a : α) : Keeps I (pure a : StateT σ (Except ε) α) := fun _ h => h

theorem keeps_throw (e : ε) : Keeps I (throw e : StateT σ (Except ε) α) := fun _ _ => trivial

theorem keeps_get : Keeps I (get : StateT σ (Except ε) σ) := fun _ h => h

theorem keeps_modify {g : σ → σ} (h : ∀ s, I s → I (g s)) : Keeps I (modify g : StateT σ (Except ε) PUnit) := h

theorem keeps_bind (h : Keeps I m) (hf : ∀ a, Keeps I (f a)) : Keeps I (m >>= f) := by
  intro s hs
  rw [wp_bind]
  exact wp_mono (h s hs) (fun a s1 h1 => hf a s1 h1) fun _ => id

theorem keeps_ite {c : Prop} [Decidable c] (h : Keeps I m) (h' : Keeps I m') : Keeps I (if c then m else m') := by
  split_ifs
  · exact h
  · exact h'

theorem keeps_repeatFrom {g : ℕ → StateT σ (Except ε) Unit} (h : ∀ k, Keeps I (g k)) (n i : ℕ) : Keeps I (repeatFrom g n i) := by
  induction n generalizing i with
  | zero => exact keeps_pure ()
  | succ n ih => exact keeps_bind (h i) fun _ => ih (i + 1)

end Keeps

/-- Nothing of what `obs` shows is changed if the program returns. -/
def Preserves (obs : σ → τ) (m : StateT σ (Except ε) α) : Prop := ∀ v, Keeps (fun s => obs s = v) m

section Preserves

variable {obs : σ → τ} {m m' : StateT σ (Except ε) α} {f : α → StateT σ (Except ε) β}

theorem Preserves.wp (h : Preserves obs m) (s : σ) : wp m (fun _ s' => obs s' = obs s) (fun _ => True) s := h _ s rfl

theorem preserves_pure (a : α) : Preserves obs (pure a : StateT σ (Except ε) α) := fun _ => keeps_pure a

theorem preserves_throw (e : ε) : Preserves obs (throw e : StateT σ (Except ε) α) := fun _ => keeps_throw e

theorem preserves_get : Preserves obs (get : StateT σ (Except ε) σ) := fun _ => keeps_get

theorem preserves_modify {g : σ → σ} (h : ∀ s, obs (g s) = obs s) : Preserves obs (modify g : StateT σ (Except ε) PUnit) :=
  fun _ => keeps_modify fun s hs => (h s).trans hs

theorem preserves_bind (h : Preserves obs m) (hf : ∀ a, Preserves obs (f a)) : Preserves obs (m >>= f) :=
  fun v => keeps_bind (h v) fun a => hf a v

theorem preserves_ite {c : Prop} [Decidable c] (h : Preserves obs m) (h' : Preserves obs m') :
    Preserves obs (if c then m else m') := fun v => keeps_ite (h v) (h' v)

theorem preserves_repeatFrom {g : ℕ → StateT σ (Except ε) Unit} (h : ∀ k, Preserves obs (g k)) (n i : ℕ) :
    Preserves obs (repeatFrom g n i) := fun v => keeps_repeatFrom (fun k => h k v) n i

end Preserves

end Wp
