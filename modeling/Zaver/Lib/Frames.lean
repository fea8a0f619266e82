import Mathlib

/-!
# Frames of a stream

A stream is a row of frames that carry no length. `cut` takes the first frame off and says how
long it was, and `framesOf` repeats it as long as it can. When `cut` takes off exactly the frames
of a format (`Cuts`), then `framesOf` gives back the frames that the stream was made of, and what
it finds in the rest does not change what it found in front (`framesOf_renderAll`).
-/

namespace Frames

variable {α β W : Type} (cut : List α → Option (β × Nat))

/-- The first frames of a stream, at most `n`. -/
def firstFrames : Nat → List α → List β
  | 0, _ => []
  | n + 1, s =>
    match cut s with
    | some (b, k) => b :: firstFrames n (s.drop k)
    | none => []

/-- The frames of a stream up to the first that cannot be cut off. Every frame has a symbol. -/
def framesOf (s : List α) : List β := firstFrames cut s.length s

/-- `cut` takes the words of a format off a stream, and nothing else. -/
structure Cuts (render : W → List α) (value : W → β) : Prop where
  pos : ∀ w, 0 < (render w).length
  complete : ∀ w s, cut (render w ++ s) = some (value w, (render w).length)
  sound : ∀ s x, cut s = some x → ∃ w u, s = render w ++ u

variable {cut} {render : W → List α} {value : W → β}

theorem firstFrames_render (h : Cuts cut render value) (w : W) (n : Nat) (s : List α) :
    firstFrames cut (n + 1) (render w ++ s) = value w :: firstFrames cut n s := by
  rw [firstFrames, h.complete]
  dsimp only
  rw [List.drop_left]

theorem firstFrames_none (h : Cuts cut render value) {s : List α} (hs : ∀ w u, s ≠ render w ++ u)
    (n : Nat) : firstFrames cut n s = [] := by
  cases n with
  | zero => rfl
  | succ n =>
    rw [firstFrames]
    split
    · next b k hcut =>
      obtain ⟨w, u, heq⟩ := h.sound s (b, k) hcut
      exact absurd heq (hs w u)
    · rfl

/-- Two bounds that are both as long as the stream give the same frames. -/
theorem firstFrames_enough (h : Cuts cut render value) {n m : Nat} {s : List α} (hn : s.length ≤ n)
    (hm : s.length ≤ m) : firstFrames cut n s = firstFrames cut m s := by
  induction n generalizing m s with
  | zero =>
    have hnone : ∀ w u, s ≠ render w ++ u := by
      rintro w u rfl
      have hpos := h.pos w
      rw [List.length_append] at hn
      omega
    rw [firstFrames_none h hnone, firstFrames_none h hnone]
  | succ n ih =>
    by_cases hs : ∃ w u, s = render w ++ u
    · obtain ⟨w, u, rfl⟩ := hs
      have hpos := h.pos w
      rw [List.length_append] at hn hm
      obtain ⟨m, rfl⟩ : ∃ k, m = k + 1 := ⟨m - 1, by omega⟩
      have hrest : firstFrames cut n u = firstFrames cut m u := ih (by omega) (by omega)
      rw [firstFrames_render h, firstFrames_render h, hrest]
    · have hnone : ∀ w u, s ≠ render w ++ u := fun w u heq => hs ⟨w, u, heq⟩
      rw [firstFrames_none h hnone, firstFrames_none h hnone]

/-- A frame in front. -/
theorem framesOf_render (h : Cuts cut render value) (w : W) (s : List α) :
    framesOf cut (render w ++ s) = value w :: framesOf cut s := by
  have hmore : (render w ++ s).length ≤ (render w ++ s).length + 1 := Nat.le_succ _
  have hless : s.length ≤ (render w ++ s).length := by
    rw [List.length_append]
    exact Nat.le_add_left _ _
  unfold framesOf
  rw [firstFrames_enough h (Nat.le_refl _) hmore, firstFrames_render h,
    firstFrames_enough h hless (Nat.le_refl _)]

/-- Frames come out as they went in. -/
theorem framesOf_renderAll (h : Cuts cut render value) (ws : List W) (s : List α) :
    framesOf cut (ws.flatMap render ++ s) = ws.map value ++ framesOf cut s := by
  induction ws with
  | nil => rfl
  | cons w ws ih =>
    rw [List.flatMap_cons, List.append_assoc, framesOf_render h, ih]
    rfl

end Frames
