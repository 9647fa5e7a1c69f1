import Mathlib.Tactic

/-! Labelled transition systems whose steps can block or panic. A step function
picks its nondeterminism from the label; a run is a list of labels, each allowed
in the state it is taken in. -/

namespace Machine

/-- What a step does: go on, wait for others, or stop the whole system. -/
inductive Outcome (σ : Type*) where
  | ok (s : σ)
  | blocked
  | panic (msg : String)
  deriving DecidableEq

variable {σ α : Type*}

def Outcome.map {τ : Type*} (f : σ → τ) : Outcome σ → Outcome τ
  | .ok s => .ok (f s)
  | .blocked => .blocked
  | .panic msg => .panic msg

theorem Outcome.map_ok {τ : Type*} {f : σ → τ} {o : Outcome σ} {t : τ} (h : o.map f = .ok t) :
    ∃ s, o = .ok s ∧ f s = t := by
  cases o with
  | ok s =>
    simp only [Outcome.map, Outcome.ok.injEq] at h
    exact ⟨s, rfl, h⟩
  | blocked => cases h
  | panic msg => cases h

/-- The step goes on, to a state that satisfies `P`. -/
def Outcome.Sat (o : Outcome σ) (P : σ → Prop) : Prop :=
  match o with
  | .ok s => P s
  | _ => False

instance (o : Outcome σ) (P : σ → Prop) [DecidablePred P] : Decidable (o.Sat P) :=
  match o with
  | .ok s => inferInstanceAs (Decidable (P s))
  | .blocked => inferInstanceAs (Decidable False)
  | .panic _ => inferInstanceAs (Decidable False)

theorem Outcome.Sat.ok {o : Outcome σ} {P : σ → Prop} (h : o.Sat P) : ∃ s, o = .ok s ∧ P s := by
  cases o with
  | ok s => exact ⟨s, rfl, h⟩
  | blocked => cases h
  | panic msg => cases h

theorem Outcome.Sat.seq {τ : Type*} {o : Outcome σ} {g : σ → Outcome τ} {P : σ → Prop} {Q : σ → τ → Prop}
    (h : o.Sat fun s => P s ∧ (g s).Sat (Q s)) : ∃ s t, o = .ok s ∧ P s ∧ g s = .ok t ∧ Q s t := by
  obtain ⟨s, hs, hP, h⟩ := h.ok
  obtain ⟨t, ht, hQ⟩ := h.ok
  exact ⟨s, t, hs, hP, ht, hQ⟩

instance (o : Outcome σ) (msg : String) : Decidable (o = .panic msg) :=
  match o with
  | .ok _ => isFalse nofun
  | .blocked => isFalse nofun
  | .panic m => decidable_of_iff (m = msg) ⟨congrArg _, Outcome.panic.inj⟩

/-- The runs from `s` whose labels all satisfy `P` in the state they are taken in. -/
inductive Run (step : α → σ → Outcome σ) (P : σ → α → Prop) (s : σ) : List α → σ → Prop
  | nil : Run step P s [] s
  | snoc {as : List α} {t : σ} {a : α} {u : σ} :
      Run step P s as t → P t a → step a t = .ok u → Run step P s (as ++ [a]) u

/-- Runs without a condition on their labels. -/
def Free : σ → α → Prop := fun _ _ => True

section Invariants

variable {step : α → σ → Outcome σ} {P Q : σ → α → Prop} {s u : σ} {as : List α}

/-- What holds at the start and is kept by every allowed step holds in every state reached. -/
theorem Run.inv {I : σ → Prop} (h0 : I s)
    (hstep : ∀ t a u, I t → P t a → step a t = .ok u → I u) (h : Run step P s as u) : I u := by
  induction h with
  | nil => exact h0
  | snoc _ hp hs ih => exact hstep _ _ _ ih hp hs

theorem Run.mono (hPQ : ∀ t a, P t a → Q t a) (h : Run step P s as u) : Run step Q s as u := by
  induction h with
  | nil => exact .nil
  | snoc _ hp hs ih => exact .snoc ih (hPQ _ _ hp) hs

theorem Run.free (h : Run step P s as u) : Run step Free s as u := h.mono fun _ _ _ => trivial

/-- A condition that all labels of the run satisfy in any state. -/
theorem Run.labels (hQ : ∀ a ∈ as, ∀ t, Q t a) (h : Run step P s as u) : Run step Q s as u := by
  induction h with
  | nil => exact .nil
  | snoc _ _ hs ih =>
    exact .snoc (ih fun a ha => hQ a (List.mem_append_left _ ha)) (hQ _ (by simp) _) hs

theorem Run.append {bs : List α} {v : σ} (h : Run step P s as u) (h' : Run step P u bs v) :
    Run step P s (as ++ bs) v := by
  induction h' with
  | nil => simpa using h
  | snoc _ hp hs ih =>
    rw [← List.append_assoc]
    exact .snoc ih hp hs

theorem Run.cons {a : α} {t : σ} (hp : P s a) (hs : step a s = .ok t) (h : Run step P t as u) :
    Run step P s (a :: as) u := by
  have h1 : Run step P s [a] t := .snoc .nil hp hs
  exact h1.append h

end Invariants

/-- Take the labels one after the other. -/
def exec (step : α → σ → Outcome σ) : List α → σ → Outcome σ
  | [], s => .ok s
  | a :: as, s =>
    match step a s with
    | .ok t => exec step as t
    | .blocked => .blocked
    | .panic msg => .panic msg

/-- As `exec`, checking a condition on each label on the way. -/
def execIf (step : α → σ → Outcome σ) (P : σ → α → Bool) : List α → σ → Outcome σ
  | [], s => .ok s
  | a :: as, s =>
    if P s a then
      match step a s with
      | .ok t => execIf step P as t
      | .blocked => .blocked
      | .panic msg => .panic msg
    else .blocked

theorem run_of_execIf {step : α → σ → Outcome σ} {P : σ → α → Bool} {as : List α} {s u : σ}
    (h : execIf step P as s = .ok u) : Run step (fun s a => P s a = true) s as u := by
  induction as generalizing s with
  | nil =>
    simp only [execIf, Outcome.ok.injEq] at h
    subst h
    exact .nil
  | cons a as ih =>
    simp only [execIf] at h
    split_ifs at h with hp
    cases hs : step a s with
    | ok t =>
      rw [hs] at h
      exact Run.cons hp hs (ih h)
    | blocked => rw [hs] at h; cases h
    | panic msg => rw [hs] at h; cases h

end Machine
