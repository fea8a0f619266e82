import Zaver.Lib.Scan

/-!
# Languages of byte automata

What an automaton still accepts from a control state is a language. `One` and `Many` build
such languages from the front: one symbol of a class, or any number of them, and then the
rest. `scan_sound` is the rule by which a language is assigned to every state: what a run
accepts lies in the language of its first state.
-/

namespace Scan

variable {ι σ ε α : Type}

/-- One symbol of a class, and then `L`. -/
def One (P : α → Prop) (L : List α → Prop) (s : List α) : Prop :=
  ∃ c t, s = c :: t ∧ P c ∧ L t

/-- Any number of symbols of a class, and then `L`. -/
def Many (P : α → Prop) (L : List α → Prop) (s : List α) : Prop :=
  ∃ a t, s = a ++ t ∧ (∀ c ∈ a, P c) ∧ L t

variable {P : α → Prop} {L : List α → Prop} {c : α} {s : List α}

theorem One.intro (hc : P c) (hs : L s) : One P L (c :: s) := ⟨c, s, rfl, hc, hs⟩

theorem Many.skip (hs : L s) : Many P L s := ⟨[], s, rfl, (fun _ hx => by cases hx), hs⟩

theorem Many.cons (hc : P c) (hs : Many P L s) : Many P L (c :: s) := by
  obtain ⟨a, t, rfl, ha, ht⟩ := hs
  refine ⟨c :: a, t, rfl, fun x hx => ?_, ht⟩
  cases List.mem_cons.mp hx with
  | inl hx => exact hx ▸ hc
  | inr hx => exact ha x hx

/-- A first symbol belongs to the class, or the rest has begun. -/
theorem Many.cases (h : Many P L (c :: s)) : P c ∧ Many P L s ∨ L (c :: s) := by
  obtain ⟨a, t, hs, ha, ht⟩ := h
  cases a with
  | nil => exact .inr (hs ▸ ht)
  | cons b a =>
    obtain ⟨rfl, rfl⟩ := List.cons.inj hs
    exact .inl ⟨ha _ List.mem_cons_self, a, t, rfl, fun x hx => ha x (List.mem_cons_of_mem _ hx), ht⟩

/-- What a run accepts lies in the language of the state it starts in, when every step
takes the language of the next state to that of its own. -/
theorem scan_sound {step : ι → σ → Nat → α → Step ι σ ε} {L : σ → List α → Prop}
    (hnext : ∀ i state p ch j state' s, step i state p ch = .next j state' → L state' s →
      L state (ch :: s))
    (hdone : ∀ i state p ch j, step i state p ch = .done j → L state [ch])
    {i j : ι} {state : σ} {pos q : Nat} {s : List α} (h : scan step i state pos s = .done j q) :
    ∃ t u, s = t ++ u ∧ q = pos + t.length ∧ L state t := by
  induction s generalizing i state pos with
  | nil => cases h
  | cons ch s ih =>
    rw [scan] at h
    cases hs : step i state pos ch with
    | next i' state' =>
      rw [hs] at h
      obtain ⟨t, u, rfl, rfl, ht⟩ := ih h
      exact ⟨ch :: t, u, rfl, by rw [List.length_cons]; omega, hnext _ _ _ _ _ _ _ hs ht⟩
    | done i' =>
      rw [hs] at h
      obtain ⟨-, rfl⟩ := Outcome.done.inj h
      exact ⟨[ch], s, rfl, rfl, hdone _ _ _ _ _ hs⟩
    | fail i' rc =>
      rw [hs] at h
      cases h

end Scan
