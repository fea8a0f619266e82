import Mathlib

/-!
# Runs of a partial step function

A system is a function that takes a state and an action to the next state, or to none
when the action is not possible. A run is a list of actions. `run_invariant` is the
induction over a run; `run_invariant_along` is the one for runs whose actions all
satisfy a condition on the state they start from.
-/

namespace Runs

variable {σ α : Type} (step : σ → α → Option σ)

/-- The state after the actions, none when one of them is not possible. -/
def run (s : σ) (as : List α) : Option σ := as.foldlM step s

/-- Every action of the run satisfies `G` in the state it starts from. -/
def Along (G : σ → α → Prop) : σ → List α → Prop
  | _, [] => True
  | s, a :: as => G s a ∧ ∀ t ∈ step s a, Along G t as

instance decidableAlong {G : σ → α → Prop} [∀ s a, Decidable (G s a)] :
    (s : σ) → (as : List α) → Decidable (Along step G s as)
  | _, [] => isTrue trivial
  | s, a :: as =>
    have : ∀ t, Decidable (Along step G t as) := fun t => decidableAlong t as
    inferInstanceAs (Decidable (G s a ∧ ∀ t ∈ step s a, Along step G t as))

variable {step}

@[simp] theorem run_nil (s : σ) : run step s [] = some s := rfl

theorem run_cons {s s' : σ} {a : α} {as : List α} :
    run step s (a :: as) = some s' ↔ ∃ t, step s a = some t ∧ run step t as = some s' := by
  unfold run
  rw [List.foldlM_cons]
  exact Option.bind_eq_some_iff

theorem run_append {s s' : σ} {as bs : List α} :
    run step s (as ++ bs) = some s' ↔ ∃ t, run step s as = some t ∧ run step t bs = some s' := by
  unfold run
  rw [List.foldlM_append]
  exact Option.bind_eq_some_iff

/-- What holds at the start and is kept by every step that satisfies `G` holds at the end of
a run whose steps satisfy `G`. -/
theorem run_invariant_along {G : σ → α → Prop} {P : σ → Prop}
    (hstep : ∀ s a s', P s → G s a → step s a = some s' → P s') {s s' : σ} {as : List α}
    (h : P s) (hG : Along step G s as) (hrun : run step s as = some s') : P s' := by
  induction as generalizing s with
  | nil =>
    obtain rfl := Option.some.inj hrun
    exact h
  | cons a as ih =>
    obtain ⟨t, ht, hrest⟩ := run_cons.mp hrun
    exact ih (hstep s a t h hG.1 ht) (hG.2 t ht) hrest

/-- Two conditions that agree on every step that is possible hold along the same runs. -/
theorem along_congr {G H : σ → α → Prop}
    (hstep : ∀ s a s', step s a = some s' → (G s a ↔ H s a)) {s s' : σ} {as : List α}
    (hrun : run step s as = some s') : Along step G s as ↔ Along step H s as := by
  induction as generalizing s with
  | nil => exact Iff.rfl
  | cons a as ih =>
    obtain ⟨t, ht, hrest⟩ := run_cons.mp hrun
    have htail : (∀ u ∈ step s a, Along step G u as) ↔ ∀ u ∈ step s a, Along step H u as := by
      rw [ht]
      constructor
      · intro h u hu
        obtain rfl := Option.some.inj hu
        exact (ih hrest).mp (h t rfl)
      · intro h u hu
        obtain rfl := Option.some.inj hu
        exact (ih hrest).mpr (h t rfl)
    exact and_congr (hstep s a t ht) htail

/-- What holds at the start and is kept by every step holds at the end of every run. -/
theorem run_invariant {P : σ → Prop} (hstep : ∀ s a s', P s → step s a = some s' → P s')
    {s s' : σ} {as : List α} (h : P s) (hrun : run step s as = some s') : P s' := by
  induction as generalizing s with
  | nil =>
    obtain rfl := Option.some.inj hrun
    exact h
  | cons a as ih =>
    obtain ⟨t, ht, hrest⟩ := run_cons.mp hrun
    exact ih (hstep s a t h ht) hrest

/-- When every step that satisfies `p` uses up one of what is left, and no step adds more than it
brings, a run has no more such steps than were left at its start and were brought by its steps. -/
theorem run_paid {I : σ → Prop} (p : α → Bool) (left : σ → Nat) (brought : α → Nat)
    (hinv : ∀ s a s', I s → step s a = some s' → I s')
    (hstep : ∀ s a s', I s → step s a = some s' →
      left s' + (if p a then 1 else 0) ≤ left s + brought a)
    {s s' : σ} {as : List α} (h : I s) (hrun : run step s as = some s') :
    left s' + as.countP p ≤ left s + (as.map brought).sum := by
  induction as generalizing s with
  | nil =>
    obtain rfl := Option.some.inj hrun
    exact Nat.le_refl _
  | cons a as ih =>
    obtain ⟨t, ht, hrest⟩ := run_cons.mp hrun
    have hone := hstep s a t h ht
    have htail := ih (hinv s a t h ht) hrest
    rw [List.countP_cons, List.map_cons, List.sum_cons]
    calc left s' + (as.countP p + if p a then 1 else 0)
        = left s' + as.countP p + (if p a then 1 else 0) := (Nat.add_assoc _ _ _).symm
      _ ≤ left t + (as.map brought).sum + (if p a then 1 else 0) := Nat.add_le_add_right htail _
      _ = left t + (if p a then 1 else 0) + (as.map brought).sum := Nat.add_right_comm _ _ _
      _ ≤ left s + brought a + (as.map brought).sum := Nat.add_le_add_right hone _
      _ = left s + (brought a + (as.map brought).sum) := Nat.add_assoc _ _ _

/-- A run has no more steps that satisfy `p` than were left at its start, when no step adds to what
is left. -/
theorem run_countP_le {I : σ → Prop} (p : α → Bool) (left : σ → Nat)
    (hinv : ∀ s a s', I s → step s a = some s' → I s')
    (hstep : ∀ s a s', I s → step s a = some s' → left s' + (if p a then 1 else 0) ≤ left s)
    {s s' : σ} {as : List α} (h : I s) (hrun : run step s as = some s') :
    left s' + as.countP p ≤ left s := by
  have hpaid := run_paid p left (fun _ => 0) hinv hstep h hrun
  rwa [List.sum_map_zero, Nat.add_zero] at hpaid

/-- A property that each step keeps exactly when it satisfies `G` holds in every state of a
run exactly when all steps satisfy `G`. -/
theorem always_iff_along {I P : σ → Prop} {G : σ → α → Prop}
    (hinv : ∀ s a s', I s → step s a = some s' → I s')
    (hstep : ∀ s a s', I s → P s → step s a = some s' → (P s' ↔ G s a)) {s s' : σ} {as : List α}
    (hI : I s) (hP : P s) (hrun : run step s as = some s') :
    (∀ pre post t, as = pre ++ post → run step s pre = some t → P t) ↔ Along step G s as := by
  induction as generalizing s with
  | nil =>
    refine ⟨fun _ => trivial, fun _ pre post t heq ht => ?_⟩
    obtain ⟨rfl, -⟩ := List.append_eq_nil_iff.mp heq.symm
    obtain rfl := Option.some.inj ht
    exact hP
  | cons a as ih =>
    obtain ⟨t, ht, hrest⟩ := run_cons.mp hrun
    constructor
    · intro h
      have hPt : P t := h [a] as t rfl (run_cons.mpr ⟨t, ht, rfl⟩)
      refine ⟨(hstep s a t hI hP ht).mp hPt, fun u hu => ?_⟩
      obtain rfl := Option.some.inj (ht.symm.trans hu)
      refine (ih (hinv s a t hI ht) hPt hrest).mp fun pre post v heq hv => ?_
      exact h (a :: pre) post v (by rw [heq]; rfl) (run_cons.mpr ⟨t, ht, hv⟩)
    · rintro ⟨hG, htail⟩ pre post u heq hu
      have hPt : P t := (hstep s a t hI hP ht).mpr hG
      cases pre with
      | nil =>
        obtain rfl := Option.some.inj hu
        exact hP
      | cons b pre =>
        obtain ⟨rfl, htl⟩ := List.cons.inj heq
        obtain ⟨v, hv, hu'⟩ := run_cons.mp hu
        obtain rfl := Option.some.inj (ht.symm.trans hv)
        exact (ih (hinv s a t hI ht) hPt hrest).mpr (htail t ht) pre post u htl hu'

end Runs
