import Zaver.Lib.Bytes

/-!
# Gathered writes

A gathered write offers several buffers at once and is told one number, how many
bytes went out in all. The caller then walks over its buffers in the same order
and moves one sent-counter after the other. `advance` is one step of that walk;
`drop_advance` says that a chain of such steps removes from the data still owed
exactly the bytes that went out, wherever the cut falls.
-/

namespace Gather

/-- One buffer of `len` bytes with `sent` already out, charged with `left` bytes:
its new counter and what is left for the buffers after it. -/
def advance (len sent left : Nat) : Nat × Nat :=
  if sent < len then
    let rem := len - sent
    let cons := if left ≥ rem then rem else left
    (sent + cons, left - cons)
  else (sent, left)

/-- The counter never passes the length. -/
theorem advance_le {len sent k : Nat} (h : sent ≤ len) : (advance len sent k).1 ≤ len := by
  unfold advance
  dsimp only
  split
  · split <;> omega
  · exact h

theorem le_advance (len sent k : Nat) : sent ≤ (advance len sent k).1 := by
  unfold advance
  dsimp only
  split
  · split <;> omega
  · exact Nat.le_refl _

/-- Bytes are left over only when the buffer is exhausted. -/
theorem advance_left {len sent k : Nat} (h : sent ≤ len)
    (hl : (advance len sent k).2 ≠ 0) : (advance len sent k).1 = len := by
  unfold advance at hl ⊢
  dsimp only at hl ⊢
  split at hl
  · next hlt =>
    rw [if_pos hlt]
    split at hl
    · next hge => rw [if_pos hge]; dsimp only; omega
    · dsimp only at hl; omega
  · next hge => rw [if_neg hge]; dsimp only; omega

/-- Charging more than is owed leaves the excess for the next buffer. -/
theorem advance_snd {len sent k : Nat} (h : sent ≤ len) :
    (advance len sent k).2 = k - (len - sent) := by
  unfold advance
  dsimp only
  split
  · split
    · rfl
    · dsimp only; omega
  · dsimp only; omega

/-- The walk over the buffers removes from the bytes owed exactly those that went out. -/
theorem drop_advance {α : Type} {d : List α} {len sent k : Nat} (hd : d.length = len)
    (hs : sent ≤ len) (rest : List α) :
    (d.drop sent ++ rest).drop k =
      d.drop (advance len sent k).1 ++ rest.drop (advance len sent k).2 := by
  have hl : (d.drop sent).length = len - sent := by simp [hd]
  rw [List.drop_append, hl, List.drop_drop, advance_snd hs]
  congr 1
  unfold advance
  dsimp only
  split
  · split
    · next hge =>
      rw [List.drop_of_length_le (by omega), List.drop_of_length_le (by simp only; omega)]
    · rfl
  · rw [List.drop_of_length_le (by omega), List.drop_of_length_le (by simp only; omega)]

/-- The same for a live part of a buffer. -/
theorem slice_advance {α : Type} (m : Mem α) {len sent k : Nat} (hs : sent ≤ len)
    (rest : List α) :
    (m.slice sent len ++ rest).drop k =
      m.slice (advance len sent k).1 len ++ rest.drop (advance len sent k).2 := by
  have hd : (m.slice 0 len).length = len := by simp
  have h := drop_advance (k := k) hd hs rest
  rwa [Mem.drop_slice, Mem.drop_slice, Nat.zero_add, Nat.zero_add] at h

end Gather
