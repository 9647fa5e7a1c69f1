import Mathlib.Tactic

/-! Weakest preconditions for programs over a state that may stop with an error.
`wp m Q E s` says that `m`, started in `s`, either returns a value and a state
that satisfy `Q`, or stops with an error that satisfies `E`. -/

namespace Wp

variable {σ ε α β : Type}

def wp (m : StateT σ (Except ε) α) (Q : α → σ → Prop) (E : ε → Prop) (s : σ) : Prop :=
  match m s with
  | .ok (a, s') => Q a s'
  | .error e => E e

section Rules

variable {m : StateT σ (Except ε) α} {f : α → StateT σ (Except ε) β} {Q Q' : α → σ → Prop}
  {R : β → σ → Prop} {E E' : ε → Prop} {s s' : σ} {a : α}

@[simp] theorem wp_pure : wp (pure a) Q E s ↔ Q a s := Iff.rfl

@[simp] theorem wp_bind : wp (m >>= f) R E s ↔ wp m (fun a s => wp (f a) R E s) E s := by
  simp only [wp, bind, StateT.bind, Except.bind]
  cases m s with
  | ok r => rfl
  | error e => rfl

@[simp] theorem wp_get {Q : σ → σ → Prop} : wp (get : StateT σ (Except ε) σ) Q E s ↔ Q s s := Iff.rfl

@[simp] theorem wp_set {Q : PUnit → σ → Prop} : wp (set s' : StateT σ (Except ε) PUnit) Q E s ↔ Q ⟨⟩ s' := Iff.rfl

@[simp] theorem wp_modify {g : σ → σ} {Q : PUnit → σ → Prop} :
    wp (modify g : StateT σ (Except ε) PUnit) Q E s ↔ Q ⟨⟩ (g s) := Iff.rfl

@[simp] theorem wp_throw {e : ε} : wp (throw e : StateT σ (Except ε) α) Q E s ↔ E e := Iff.rfl

@[simp] theorem wp_discard {Q : PUnit → σ → Prop} : wp (discard m) Q E s ↔ wp m (fun _ => Q ⟨⟩) E s := by
  change wp (m >>= fun _ => pure PUnit.unit) Q E s ↔ _
  simp only [wp_bind, wp_pure]

theorem wp_ite {c : Prop} [Decidable c] {m' : StateT σ (Except ε) α} :
    wp (if c then m else m') Q E s ↔ (c → wp m Q E s) ∧ (¬ c → wp m' Q E s) := by
  split_ifs with hc
  · simp [hc]
  · simp [hc]

theorem wp_mono (h : wp m Q E s) (hQ : ∀ a s', Q a s' → Q' a s') (hE : ∀ e, E e → E' e) : wp m Q' E' s := by
  unfold wp at h ⊢
  cases hm : m s with
  | ok r =>
    rw [hm] at h
    exact hQ r.1 r.2 h
  | error e =>
    rw [hm] at h
    exact hE e h

/-- A program that cannot stop with an error. -/
theorem wp_imp (h : wp m Q (fun _ => False) s) (hQ : ∀ a s', Q a s' → Q' a s') : wp m Q' E s :=
  wp_mono h hQ fun _ he => he.elim

theorem wp_true : wp m (fun _ _ => True) (fun _ => True) s := by
  unfold wp
  split <;> trivial

theorem wp_ok (h : wp m Q E s) (hm : m s = .ok (a, s')) : Q a s' := by
  simpa only [wp, hm] using h

theorem wp_error {e : ε} (h : wp m Q E s) (hm : m s = .error e) : E e := by
  simpa only [wp, hm] using h

/-- What cannot stop returns. -/
theorem wp_returns (h : wp m Q (fun _ => False) s) : ∃ a s', m s = .ok (a, s') ∧ Q a s' := by
  unfold wp at h
  cases hm : m s with
  | ok r =>
    rw [hm] at h
    exact ⟨r.1, r.2, rfl, h⟩
  | error e =>
    rw [hm] at h
    exact h.elim

/-- The run itself. -/
theorem wp_run : wp m (fun a s' => m s = .ok (a, s')) (fun e => m s = .error e) s := by
  unfold wp
  cases hm : m s with
  | ok r => rfl
  | error e => rfl

/-- A run that was evaluated. -/
theorem ok_of_any {β : Type} {x : Except ε β} {p : β → Bool} (h : x.toOption.any p = true) : ∃ b, x = .ok b ∧ p b = true := by
  cases x with
  | ok b => exact ⟨b, rfl, h⟩
  | error e => cases h

theorem bind_ok (h : m s = .ok (a, s')) : (m >>= f) s = f a s' := by
  simp only [bind, StateT.bind, Except.bind, h]

theorem wp_and (h : wp m Q E s) (h' : wp m Q' E' s) :
    wp m (fun a s' => Q a s' ∧ Q' a s') (fun e => E e ∧ E' e) s := by
  unfold wp at h h' ⊢
  cases hm : m s with
  | ok r =>
    rw [hm] at h h'
    exact ⟨h, h'⟩
  | error e =>
    rw [hm] at h h'
    exact ⟨h, h'⟩

end Rules

/-- `for (k = i; k < i + n; k++) f(k)`. -/
def repeatFrom (f : ℕ → StateT σ (Except ε) Unit) : ℕ → ℕ → StateT σ (Except ε) Unit
  | 0, _ => pure ()
  | n + 1, i => do
    f i
    repeatFrom f n (i + 1)

/-- The rule of the counting loop: an invariant that each pass moves on by one. -/
theorem wp_repeatFrom {f : ℕ → StateT σ (Except ε) Unit} {E : ε → Prop} (I : ℕ → σ → Prop) {n i : ℕ} {s : σ}
    (h0 : I i s) (hstep : ∀ k s, i ≤ k → k < i + n → I k s → wp (f k) (fun _ => I (k + 1)) E s) :
    wp (repeatFrom f n i) (fun _ => I (i + n)) E s := by
  induction n generalizing i s with
  | zero => simpa [repeatFrom] using h0
  | succ n ih =>
    rw [repeatFrom, wp_bind]
    refine wp_mono (hstep i s le_rfl (by omega) h0) (fun _ s' hs' => ?_) fun _ he => he
    have hrest := ih (i := i + 1) hs' fun k t hk hkn hI => hstep k t (by omega) (by omega) hI
    rwa [show i + 1 + n = i + (n + 1) by omega] at hrest

end Wp
