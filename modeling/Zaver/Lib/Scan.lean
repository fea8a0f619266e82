import Mathlib

/-!
# Byte automata that stop and go on

An automaton reads one symbol after the other, keeps a control state and a record, and
ends by accepting, by failing, or for want of symbols. `scan` runs it from a position.
`scan_append` says that a run over two parts is the run over the first one, continued if
it wants more. `scan_map` and `scan_sim` compare two runs over the same symbols: one
whose records are the images of the other's, and one whose records are related.
-/

namespace Scan

/-- What one symbol does. -/
inductive Step (ι σ ε : Type)
  | next (i : ι) (state : σ)
  | done (i : ι)
  | fail (i : ι) (rc : ε)

/-- How a run ends: in a state that wants more symbols, behind the position that was
accepted, or at an error. -/
inductive Outcome (ι σ ε : Type)
  | more (i : ι) (state : σ) (pos : Nat)
  | done (i : ι) (pos : Nat)
  | fail (i : ι) (rc : ε)

variable {ι ι' σ ε α : Type}

/-- The record of a step replaced by its image. -/
def Step.map (f : ι → ι') : Step ι σ ε → Step ι' σ ε
  | .next i state => .next (f i) state
  | .done i => .done (f i)
  | .fail i rc => .fail (f i) rc

/-- The record of an outcome replaced by its image. -/
def Outcome.map (f : ι → ι') : Outcome ι σ ε → Outcome ι' σ ε
  | .more i state pos => .more (f i) state pos
  | .done i pos => .done (f i) pos
  | .fail i rc => .fail (f i) rc

/-- The record a step leaves. -/
def Step.record : Step ι σ ε → ι
  | .next i _ => i
  | .done i => i
  | .fail i _ => i

/-- The record an outcome leaves. -/
def Outcome.record : Outcome ι σ ε → ι
  | .more i _ _ => i
  | .done i _ => i
  | .fail i _ => i

/-- A run that wants more goes on with `k`. -/
def Outcome.andThen (r : Outcome ι σ ε) (k : ι → σ → Nat → Outcome ι σ ε) : Outcome ι σ ε :=
  match r with
  | .more i state pos => k i state pos
  | .done i pos => .done i pos
  | .fail i rc => .fail i rc

variable (step : ι → σ → Nat → α → Step ι σ ε)

/-- The run over a list of symbols from position `pos`. -/
def scan (i : ι) (state : σ) (pos : Nat) : List α → Outcome ι σ ε
  | [] => .more i state pos
  | ch :: rest =>
    match step i state pos ch with
    | .next i state => scan i state (pos + 1) rest
    | .done i => .done i (pos + 1)
    | .fail i rc => .fail i rc

variable {step}

@[simp] theorem scan_nil (i : ι) (state : σ) (pos : Nat) :
    scan step i state pos [] = .more i state pos := rfl

theorem scan_next {i i' : ι} {state state' : σ} {pos : Nat} {ch : α}
    (h : step i state pos ch = .next i' state') (rest : List α) :
    scan step i state pos (ch :: rest) = scan step i' state' (pos + 1) rest := by
  rw [scan, h]

/-- Symbols that change nothing. -/
theorem scan_loop {i : ι} {state : σ} {s : List α}
    (h : ∀ ch ∈ s, ∀ p, step i state p ch = .next i state) (pos : Nat) (rest : List α) :
    scan step i state pos (s ++ rest) = scan step i state (pos + s.length) rest := by
  induction s generalizing pos with
  | nil => rfl
  | cons ch s ih =>
    rw [List.cons_append, scan_next (h ch List.mem_cons_self pos),
      ih (fun x hx => h x (List.mem_cons_of_mem _ hx)), List.length_cons]
    congr 1
    omega

/-- A run over two parts. -/
theorem scan_append (i : ι) (state : σ) (pos : Nat) (s t : List α) :
    scan step i state pos (s ++ t) =
      (scan step i state pos s).andThen fun i state pos => scan step i state pos t := by
  induction s generalizing i state pos with
  | nil => rfl
  | cons ch s ih =>
    rw [List.cons_append, scan, scan]
    cases step i state pos ch with
    | next i' state' => exact ih i' state' (pos + 1)
    | done i' => rfl
    | fail i' rc => rfl

/-- A run ends behind what it has read. -/
theorem scan_pos (step : ι → σ → Nat → α → Step ι σ ε) (i : ι) (state : σ) (pos : Nat) (s : List α) :
    match scan step i state pos s with
    | .more _ _ p => p = pos + s.length
    | .done _ p => pos < p ∧ p ≤ pos + s.length
    | .fail _ _ => True := by
  induction s generalizing i state pos with
  | nil => rfl
  | cons ch s ih =>
    rw [scan]
    cases step i state pos ch with
    | next i' state' =>
      have h := ih i' state' (pos + 1)
      dsimp only
      generalize scan step i' state' (pos + 1) s = r at h
      cases r with
      | more j st p =>
        dsimp only at h ⊢
        rw [h, List.length_cons]
        omega
      | done j p =>
        dsimp only at h ⊢
        rw [List.length_cons]
        omega
      | fail j rc => trivial
    | done i' =>
      dsimp only
      rw [List.length_cons]
      omega
    | fail i' rc => trivial

/-- An error of a run is one of a step. -/
theorem scan_fail {P : ε → Prop}
    (hstep : ∀ i state p ch j rc, step i state p ch = .fail j rc → P rc) {i j : ι} {state : σ}
    {pos : Nat} {s : List α} {rc : ε} (h : scan step i state pos s = .fail j rc) : P rc := by
  induction s generalizing i state pos with
  | nil => cases h
  | cons ch s ih =>
    rw [scan] at h
    cases hs : step i state pos ch with
    | next i' state' =>
      rw [hs] at h
      exact ih h
    | done i' =>
      rw [hs] at h
      cases h
    | fail i' rc' =>
      rw [hs] at h
      obtain ⟨-, rfl⟩ := Outcome.fail.inj h
      exact hstep _ _ _ _ _ _ hs

/-- What every step keeps of the record is kept by a run. -/
theorem scan_record {P : ι → Prop}
    (hstep : ∀ i state p ch, P i → P (step i state p ch).record) {i : ι} (h : P i) (state : σ)
    (pos : Nat) (s : List α) : P (scan step i state pos s).record := by
  induction s generalizing i state pos with
  | nil => exact h
  | cons ch s ih =>
    have hs := hstep i state pos ch h
    rw [scan]
    generalize step i state pos ch = r at hs
    cases r with
    | next i' state' => exact ih hs state' (pos + 1)
    | done i' => exact hs
    | fail i' rc => exact hs

/-- What a step leaves: `P` of the state it goes to, at the next position, and `D` and `F` of
the records with which it accepts and fails. -/
def Step.Sat (P : σ → Nat → ι → Prop) (D : Nat → ι → Prop) (F : ι → Prop) (pos : Nat) :
    Step ι σ ε → Prop
  | .next i state => P state (pos + 1) i
  | .done i => D (pos + 1) i
  | .fail i _ => F i

/-- What a run leaves. -/
def Outcome.Sat (P : σ → Nat → ι → Prop) (D : Nat → ι → Prop) (F : ι → Prop) :
    Outcome ι σ ε → Prop
  | .more i state pos => P state pos i
  | .done i pos => D pos i
  | .fail i _ => F i

/-- An invariant of the states and positions, kept by every step below position `n`. -/
theorem scan_sat {P : σ → Nat → ι → Prop} {D : Nat → ι → Prop} {F : ι → Prop} {n : Nat}
    (hstep : ∀ i state p ch, p < n → P state p i → (step i state p ch).Sat P D F p)
    {i : ι} {state : σ} {pos : Nat} (h : P state pos i) {s : List α} (hn : pos + s.length ≤ n) :
    (scan step i state pos s).Sat P D F := by
  induction s generalizing i state pos with
  | nil => exact h
  | cons ch s ih =>
    rw [List.length_cons] at hn
    have hs := hstep i state pos ch (by omega) h
    rw [scan]
    generalize step i state pos ch = r at hs
    cases r with
    | next i' state' => exact ih hs (by omega)
    | done i' => exact hs
    | fail i' rc => exact hs

/-- A map of records that commutes with every step below position `n` commutes with a run
that stays below it. -/
theorem scan_map {step' : ι' → σ → Nat → α → Step ι' σ ε} (f : ι → ι') (n : Nat)
    (hf : ∀ i state p ch, p < n → step' (f i) state p ch = (step i state p ch).map f)
    (i : ι) (state : σ) (pos : Nat) (s : List α) (hn : pos + s.length ≤ n) :
    scan step' (f i) state pos s = (scan step i state pos s).map f := by
  induction s generalizing i state pos with
  | nil => rfl
  | cons ch s ih =>
    rw [List.length_cons] at hn
    rw [scan, scan, hf i state pos ch (by omega)]
    cases step i state pos ch with
    | next i' state' => exact ih i' state' (pos + 1) (by omega)
    | done i' => rfl
    | fail i' rc => rfl

/-- Two steps of one kind, to the same state or with the same error, and what they leave: `R`
of a state to go on in, `D` of an end. -/
inductive Step.Rel (R : σ → ι → ι' → Prop) (D : ι → ι' → Prop) :
    Step ι σ ε → Step ι' σ ε → Prop
  | next {i : ι} {j : ι'} {state : σ} : R state i j → Step.Rel R D (.next i state) (.next j state)
  | done {i : ι} {j : ι'} : D i j → Step.Rel R D (.done i) (.done j)
  | fail {i : ι} {j : ι'} {rc : ε} : D i j → Step.Rel R D (.fail i rc) (.fail j rc)

/-- Two runs that end in the same way, at the same place. -/
inductive Outcome.Rel (R : σ → ι → ι' → Prop) (D : ι → ι' → Prop) :
    Outcome ι σ ε → Outcome ι' σ ε → Prop
  | more {i : ι} {j : ι'} {state : σ} {pos : Nat} : R state i j →
      Outcome.Rel R D (.more i state pos) (.more j state pos)
  | done {i : ι} {j : ι'} {pos : Nat} : D i j → Outcome.Rel R D (.done i pos) (.done j pos)
  | fail {i : ι} {j : ι'} {rc : ε} : D i j → Outcome.Rel R D (.fail i rc) (.fail j rc)

/-- Related records that every step keeps related are kept so by a run. -/
theorem scan_sim {step' : ι' → σ → Nat → α → Step ι' σ ε} {R : σ → ι → ι' → Prop}
    {D : ι → ι' → Prop}
    (hstep : ∀ i j state p ch, R state i j → (step i state p ch).Rel R D (step' j state p ch))
    {i : ι} {j : ι'} {state : σ} (h : R state i j) (pos : Nat) (s : List α) :
    (scan step i state pos s).Rel R D (scan step' j state pos s) := by
  induction s generalizing i j state pos with
  | nil => exact .more h
  | cons ch s ih =>
    have hs := hstep i j state pos ch h
    rw [scan, scan]
    generalize step i state pos ch = x at hs
    generalize step' j state pos ch = y at hs
    cases hs with
    | next h' => exact ih h' (pos + 1)
    | done h' => exact .done h'
    | fail h' => exact .fail h'

end Scan
