import Zaver.Lib.Bytes

/-!
# Buffers that agree up to a length

Two buffers agree on their first `n` cells. What is read below `n` is then the same, and what
is written is the same afterwards; a write at the end of the part that agrees makes it longer.
`live` is the buffer with zeros behind its first `n` cells: two buffers agree exactly when their
live parts are equal.
-/

namespace Mem

/-- The buffers agree on their first `n` cells. -/
def Agree {α : Type} (n : Nat) (m m' : Mem α) : Prop := ∀ i, i < n → m i = m' i

/-- The first `n` cells, with zeros behind them. -/
def live (n : Nat) (m : Mem UInt8) : Mem UInt8 := fun i => if i < n then m i else 0

variable {α : Type} {m m' : Mem α} {n : Nat}

theorem Agree.refl (n : Nat) (m : Mem α) : Agree n m m := fun _ _ => rfl

theorem Agree.none (m m' : Mem α) : Agree 0 m m' := fun _ hi => absurd hi (Nat.not_lt_zero _)

theorem Agree.mono {k : Nat} (h : Agree n m m') (hk : k ≤ n) : Agree k m m' :=
  fun i hi => h i (Nat.lt_of_lt_of_le hi hk)

theorem Agree.slice (h : Agree n m m') {lo hi : Nat} (hn : hi ≤ n) :
    m.slice lo hi = m'.slice lo hi :=
  slice_congr fun i _ hi => h i (Nat.lt_of_lt_of_le hi hn)

/-- The same write keeps two buffers in agreement. -/
theorem Agree.write (h : Agree n m m') (off : Nat) (d : List α) :
    Agree n (m.write off d) (m'.write off d) := by
  intro i hi
  unfold Mem.write
  rw [h i hi]

/-- A write at the end of the part that agrees. -/
theorem Agree.append (h : Agree n m m') (d : List α) :
    Agree (n + d.length) (m.write n d) (m'.write n d) := by
  intro i hi
  rcases Nat.lt_or_ge i n with hlt | hge
  · rw [write_of_lt m d hlt, write_of_lt m' d hlt]
    exact h i hlt
  · have hin : i - n < d.length := by omega
    unfold Mem.write
    rw [if_pos hge, if_pos hge, List.getElem?_eq_getElem hin]
    rfl

/-- Whatever stood in the buffers, what was written at their heads agrees. -/
theorem Agree.fresh (m m' : Mem α) (d : List α) {k : Nat} (hk : k ≤ d.length) :
    Agree k (m.write 0 d) (m'.write 0 d) :=
  (Agree.append (Agree.none m m') d).mono (by rw [Nat.zero_add]; exact hk)

/-- `memmove` of a part that agrees to the head of the buffers. -/
theorem Agree.move {src k : Nat} (h : Agree n m m') (hn : src + k ≤ n) :
    Agree k (m.move 0 src k) (m'.move 0 src k) := by
  unfold Mem.move
  rw [h.slice hn]
  refine Agree.fresh m m' _ ?_
  rw [length_slice, Nat.add_sub_cancel_left]

end Mem
