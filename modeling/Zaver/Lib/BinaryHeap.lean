import Zaver.Lib.Bytes

/-!
# Binary heaps in an array

A binary heap stands at the positions `1..n` of an array, the parent of position `k` at
`k / 2`. `Heap` is the order between parent and child for a strict weak order `lt`. Two
exchanges restore it: an element that may precede its parent moves up (`UpHeap`), one
that may follow its children moves down (`DownHeap`); each has a lemma for one exchange
and one for the place where the movement ends. `contents` is the multiset of the stored
elements, which no exchange changes.
-/

namespace BinaryHeap

variable {α : Type}

/-- Two cells exchanged. -/
def swap (m : Mem α) (i j : Nat) : Mem α := fun x => m (Equiv.swap i j x)

@[simp] theorem swap_left (m : Mem α) (i j : Nat) : swap m i j i = m j := by simp [swap]

@[simp] theorem swap_right (m : Mem α) (i j : Nat) : swap m i j j = m i := by simp [swap]

theorem swap_other (m : Mem α) {i j x : Nat} (hi : x ≠ i) (hj : x ≠ j) : swap m i j x = m x := by
  simp [swap, Equiv.swap_apply_of_ne_of_ne hi hj]

/-- The stored elements. -/
def contents (m : Mem α) (n : Nat) : Multiset α := (Finset.Icc 1 n).val.map m

@[simp] theorem contents_zero (m : Mem α) : contents m 0 = 0 := rfl

theorem contents_succ (m : Mem α) (n : Nat) : contents m (n + 1) = m (n + 1) ::ₘ contents m n := by
  unfold contents
  rw [← Finset.insert_Icc_right_eq_Icc_add_one (by omega), Finset.insert_val_of_notMem (by simp),
    Multiset.map_cons]

theorem mem_contents {m : Mem α} {n : Nat} {x : α} :
    x ∈ contents m n ↔ ∃ k, 1 ≤ k ∧ k ≤ n ∧ m k = x := by
  unfold contents
  rw [Multiset.mem_map]
  simp [and_assoc]

theorem card_contents (m : Mem α) (n : Nat) : (contents m n).card = n := by
  simp [contents]

theorem contents_congr {m m' : Mem α} {n : Nat} (h : ∀ k, 1 ≤ k → k ≤ n → m k = m' k) :
    contents m n = contents m' n := by
  unfold contents
  refine Multiset.map_congr rfl fun k hk => ?_
  have hk' := Finset.mem_Icc.mp (Finset.mem_val.mp hk)
  exact h k hk'.1 hk'.2

/-- An exchange inside the heap keeps the stored elements. -/
theorem contents_swap (m : Mem α) {n i j : Nat} (hi : 1 ≤ i ∧ i ≤ n) (hj : 1 ≤ j ∧ j ≤ n) :
    contents (swap m i j) n = contents m n := by
  have hperm : (Finset.Icc 1 n).map (Equiv.swap i j).toEmbedding = Finset.Icc 1 n := by
    refine Finset.map_perm fun x hx => ?_
    have hx' : Equiv.swap i j x ≠ x := hx
    by_contra hno
    refine hx' (Equiv.swap_apply_of_ne_of_ne (fun h => hno ?_) (fun h => hno ?_))
    · rw [h]
      exact Finset.mem_coe.mpr (Finset.mem_Icc.mpr hi)
    · rw [h]
      exact Finset.mem_coe.mpr (Finset.mem_Icc.mpr hj)
  unfold contents
  conv_rhs => rw [← hperm]
  rw [Finset.map_val, Multiset.map_map]
  rfl

variable (lt : α → α → Prop)

/-- No element precedes its parent. -/
def Heap (m : Mem α) (n : Nat) : Prop := ∀ k, 1 < k → k ≤ n → ¬ lt (m k) (m (k / 2))

/-- A heap but for position `k`, whose element may precede its parent. -/
structure UpHeap (m : Mem α) (n k : Nat) : Prop where
  off : ∀ j, 1 < j → j ≤ n → j ≠ k → ¬ lt (m j) (m (j / 2))
  grand : 1 < k → ∀ j, j ≤ n → j / 2 = k → ¬ lt (m j) (m (k / 2))

/-- A heap but for position `k`, whose element may follow one of its children. -/
structure DownHeap (m : Mem α) (n k : Nat) : Prop where
  off : ∀ j, 1 < j → j ≤ n → j / 2 ≠ k → ¬ lt (m j) (m (j / 2))
  grand : 1 < k → ∀ j, j ≤ n → j / 2 = k → ¬ lt (m j) (m (k / 2))

variable {lt} {m : Mem α} {n k : Nat}

theorem Heap.congr {m' : Mem α} (h : Heap lt m n) (heq : ∀ k, 1 ≤ k → k ≤ n → m k = m' k) :
    Heap lt m' n := by
  intro k hk hkn
  rw [← heq k (by omega) hkn, ← heq (k / 2) (by omega) (by omega)]
  exact h k hk hkn

/-- The order of a heap is that of any shorter one. -/
theorem Heap.mono {n' : Nat} (h : Heap lt m n) (hn : n' ≤ n) : Heap lt m n' :=
  fun k hk hkn => h k hk (hkn.trans hn)

/-- A new last element. -/
theorem Heap.upHeap (h : Heap lt m n) : UpHeap lt m (n + 1) (n + 1) := by
  refine ⟨fun j hj hjn hne => h j hj (by omega), fun _ j hjn hjk => ?_⟩
  omega

theorem UpHeap.stop (h : UpHeap lt m n k) (hk : 1 < k → ¬ lt (m k) (m (k / 2))) : Heap lt m n := by
  intro j hj hjn
  by_cases hjk : j = k
  · subst hjk
    exact hk hj
  · exact h.off j hj hjn hjk

theorem DownHeap.stop (h : DownHeap lt m n k)
    (hk : ∀ j, 1 < j → j ≤ n → j / 2 = k → ¬ lt (m j) (m k)) : Heap lt m n := by
  intro j hj hjn
  by_cases hjk : j / 2 = k
  · rw [hjk]
    exact hk j hj hjn hjk
  · exact h.off j hj hjn hjk

/-- A heap whose root was replaced. -/
theorem Heap.downHeap {m' : Mem α} (h : Heap lt m n) (heq : ∀ k, 1 < k → k ≤ n → m k = m' k) :
    DownHeap lt m' n 1 := by
  refine ⟨fun j hj hjn hj2 => ?_, fun h1 => absurd h1 (by omega)⟩
  rw [← heq j hj hjn, ← heq (j / 2) (by omega) (by omega)]
  exact h j hj hjn

theorem not_lt_trans (lt : α → α → Prop) [IsStrictWeakOrder α lt] {a b c : α} (hab : ¬ lt a b) (hbc : ¬ lt b c) : ¬ lt a c := by
  intro hac
  have hca : ¬ lt c a := fun h => irrefl_of lt a (trans_of lt hac h)
  by_cases hba : lt b a
  · exact hbc (trans_of lt hba hac)
  · by_cases hcb : lt c b
    · exact hab (trans_of lt hac hcb)
    · exact (IsStrictWeakOrder.incomp_trans a b c ⟨hab, hba⟩ ⟨hbc, hcb⟩).1 hac

theorem not_lt_of_lt (lt : α → α → Prop) [IsStrictWeakOrder α lt] {a b : α} (h : lt a b) :
    ¬ lt b a :=
  fun h' => irrefl_of lt a (trans_of lt h h')

variable [IsStrictWeakOrder α lt]

/-- The root of a heap is minimal. -/
theorem Heap.root_min (h : Heap lt m n) : ∀ k, 1 ≤ k → k ≤ n → ¬ lt (m k) (m 1) := by
  intro k
  induction k using Nat.strongRecOn with
  | ind k ih =>
    intro hk hkn
    by_cases h1 : k = 1
    · subst h1
      exact irrefl_of lt _
    · exact not_lt_trans lt (h k (by omega) hkn) (ih (k / 2) (by omega) (by omega) (by omega))

/-- One exchange on the way up. -/
theorem UpHeap.move (h : UpHeap lt m n k) (hk : 1 < k) (hkn : k ≤ n)
    (hlt : lt (m k) (m (k / 2))) : UpHeap lt (swap m k (k / 2)) n (k / 2) := by
  have hpar : ∀ j, 1 < j → j ≤ n → j / 2 = k / 2 → j ≠ k →
      ¬ lt (m j) (m (k / 2)) := by
    intro j hj hjn hj2 hjk
    rw [← hj2]
    exact h.off j hj hjn hjk
  refine ⟨fun j hj hjn hjp => ?_, fun hp j hjn hj2 => ?_⟩
  · by_cases hjk : j = k
    · subst hjk
      rw [swap_left, swap_right]
      exact not_lt_of_lt lt hlt
    · rw [swap_other m hjk hjp]
      by_cases hj2 : j / 2 = k
      · rw [hj2, swap_left]
        exact h.grand hk j hjn hj2
      · by_cases hj2' : j / 2 = k / 2
        · rw [hj2', swap_right]
          exact not_lt_trans lt (hpar j hj hjn hj2' hjk) (not_lt_of_lt lt hlt)
        · rw [swap_other m hj2 hj2']
          exact h.off j hj hjn hjk
  · have hgp : ¬ lt (m (k / 2)) (m (k / 2 / 2)) := h.off (k / 2) hp (by omega) (by omega)
    rw [swap_other m (x := k / 2 / 2) (by omega) (by omega)]
    by_cases hjk : j = k
    · subst hjk
      rw [swap_left]
      exact hgp
    · rw [swap_other m hjk (by omega)]
      exact not_lt_trans lt (hpar j (by omega) hjn hj2 hjk) hgp

/-- One exchange on the way down, with a child that no other child precedes. -/
theorem DownHeap.move {c : Nat} (h : DownHeap lt m n k) (hk : 1 ≤ k) (hc : c / 2 = k) (hcn : c ≤ n)
    (hmin : ∀ j, 1 < j → j ≤ n → j / 2 = k → ¬ lt (m j) (m c)) (hlt : lt (m c) (m k)) :
    DownHeap lt (swap m c k) n c := by
  refine ⟨fun j hj hjn hj2 => ?_, fun _ j hjn hj2 => ?_⟩
  · by_cases hjc : j = c
    · subst hjc
      rw [hc, swap_left, swap_right]
      exact not_lt_of_lt lt hlt
    · by_cases hjk : j = k
      · subst hjk
        rw [swap_right, swap_other m hj2 (by omega)]
        exact h.grand (by omega) c hcn hc
      · rw [swap_other m hjc hjk]
        by_cases hj2k : j / 2 = k
        · rw [hj2k, swap_right]
          exact hmin j hj hjn hj2k
        · rw [swap_other m hj2 hj2k]
          exact h.off j hj hjn hj2k
  · rw [hc, swap_right, swap_other m (by omega) (by omega), ← hj2]
    exact h.off j (by omega) hjn (by omega)

end BinaryHeap
