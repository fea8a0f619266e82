import Zaver.Lib.BinaryHeap

/-!
# The priority queue

`priority_queue.c`: a binary heap in an array that is allocated anew when it is full and
when it is almost empty. `PriorityQueue` keeps beside the fields of `zv_pq_t` the number of
cells the array was allocated with, and whether an index outside of them was ever
written or copied.

Result: `pq_correct`. Under every strict weak order the queue is a heap after each call,
holds what was inserted and not removed, and hands its elements out in order, whichever
allocations fail. The size of the first allocation must not wrap, which `zv_pq_init`
does not check (`pq_init_wraps`).
-/

namespace Zaver

open BinaryHeap

/-- `zv_pq_t`. -/
structure PriorityQueue (α : Type) where
  pq : Mem α
  nalloc : Nat
  size : Nat
  cells : Nat
  wild : Bool

variable {α : Type}

/-- `malloc(sizeof(void *) * n)`. The number of bytes is a `size_t`, and no object is
larger than `PTRDIFF_MAX`. The allocator answers with a block and whatever it holds; the
second component is the number of cells it has. -/
def mallocCells (n : Nat) (ans : Option (Mem α)) : Option (Mem α × Nat) :=
  let bytes := 8 * n % 2 ^ 64
  if bytes < 2 ^ 63 then ans.map fun block => (block, bytes / 8) else none

/-- `zv_pq_init`; none stands for `-1`. -/
def zvPqInit (size : UInt64) (malloc : Option (Mem α)) : Option (PriorityQueue α) :=
  (mallocCells (size + 1).toNat malloc).map fun (block, cells) =>
    { pq := block, nalloc := 0, size := (size + 1).toNat, cells := cells, wild := false }

/-- `zv_pq_is_empty`. -/
def zvPqIsEmpty (q : PriorityQueue α) : Bool := q.nalloc == 0

/-- `zv_pq_min`. -/
def zvPqMin (q : PriorityQueue α) : Option α := if zvPqIsEmpty q then none else some (q.pq 1)

/-- `resize`; `false` stands for `-1`. -/
def resize (q : PriorityQueue α) (newSize : Nat) (malloc : Option (Mem α)) :
    PriorityQueue α × Bool :=
  if newSize ≤ q.nalloc then (q, false)
  else
    match mallocCells newSize malloc with
    | none => (q, false)
    | some (block, cells) =>
      ({ q with
          pq := block.write 0 (q.pq.slice 0 (q.nalloc + 1))
          size := newSize, cells := cells
          wild := q.wild || q.cells < q.nalloc + 1 || cells < q.nalloc + 1 }, true)

/-- `exch`. -/
def exch (q : PriorityQueue α) (i j : Nat) : PriorityQueue α :=
  { q with pq := swap q.pq i j, wild := q.wild || q.cells ≤ i || q.cells ≤ j }

variable (comp : α → α → Bool)

/-- `swim`. -/
def swim (q : PriorityQueue α) (k : Nat) : PriorityQueue α :=
  if _h : k > 1 ∧ comp (q.pq k) (q.pq (k / 2)) then swim (exch q k (k / 2)) (k / 2) else q
termination_by k
decreasing_by omega

/-- The child that `sink` compares with its parent at `k`. -/
def sinkChild (q : PriorityQueue α) (k : Nat) : Nat :=
  if 2 * k < q.nalloc ∧ comp (q.pq (2 * k + 1)) (q.pq (2 * k)) then 2 * k + 1 else 2 * k

/-- `sink`, for a position of the heap: the positions start at `1`. -/
def sink (q : PriorityQueue α) (k : Nat) : PriorityQueue α × Nat :=
  if _h : 0 < k ∧ 2 * k ≤ q.nalloc then
    let j := sinkChild comp q k
    if comp (q.pq j) (q.pq k) = false then (q, k) else sink (exch q j k) j
  else (q, k)
termination_by q.nalloc - k
decreasing_by
  show q.nalloc - sinkChild comp q k < q.nalloc - k
  unfold sinkChild
  split <;> omega

/-- The last element takes the place of the root, and the root leaves the heap. -/
def cutRoot (q : PriorityQueue α) : PriorityQueue α :=
  { exch q 1 q.nalloc with nalloc := q.nalloc - 1 }

/-- `zv_pq_delmin`; `false` stands for `-1`. -/
def zvPqDelmin (q : PriorityQueue α) (malloc : Option (Mem α)) : PriorityQueue α × Bool :=
  if zvPqIsEmpty q then (q, true)
  else
    let q := (sink comp (cutRoot q) 1).1
    if q.nalloc > 0 ∧ q.nalloc ≤ (q.size - 1) / 4 then resize q (q.size / 2) malloc else (q, true)

/-- The store and the ascent of `zv_pq_insert`. -/
def pushItem (q : PriorityQueue α) (item : α) : PriorityQueue α :=
  let k := q.nalloc + 1
  swim comp
    { q with pq := q.pq.write k [item], nalloc := k, wild := q.wild || q.cells ≤ k } k

/-- `zv_pq_insert`; `false` stands for `-1`. -/
def zvPqInsert (q : PriorityQueue α) (item : α) (malloc : Option (Mem α)) :
    PriorityQueue α × Bool :=
  if q.nalloc + 1 = q.size then
    match resize q (q.size * 2 % 2 ^ 64) malloc with
    | (q, false) => (q, false)
    | (q, true) => (pushItem comp q item, true)
  else (pushItem comp q item, true)

/-! ## Runs -/

/-- The calls of a user, each with the answer of the allocator. -/
inductive PqCall (α : Type)
  | insert (item : α) (malloc : Option (Mem α))
  | delmin (malloc : Option (Mem α))

/-- A queue in use: what was inserted so far, and what `zv_pq_min` showed before each
`zv_pq_delmin`. -/
structure PqRun (α : Type) where
  q : PriorityQueue α
  inserted : Multiset α
  removed : List α

/-- One call. -/
def pqStep (s : PqRun α) : PqCall α → PqRun α
  | .insert item malloc =>
    let (q, ok) := zvPqInsert comp s.q item malloc
    { s with q := q, inserted := if ok then item ::ₘ s.inserted else s.inserted }
  | .delmin malloc =>
    { s with q := (zvPqDelmin comp s.q malloc).1, removed := s.removed ++ (zvPqMin s.q).toList }

/-- Calls in order, on a queue that was just initialised. -/
def pqRun (q : PriorityQueue α) (calls : List (PqCall α)) : PqRun α :=
  calls.foldl (pqStep comp) ⟨q, 0, []⟩

/-- The elements that leave the queue when it is drained. -/
def drain (q : PriorityQueue α) : List (Option (Mem α)) → List α
  | [] => []
  | malloc :: mallocs => (zvPqMin q).toList ++ drain (zvPqDelmin comp q malloc).1 mallocs

/-- The stored elements. -/
def stored (q : PriorityQueue α) : Multiset α := contents q.pq q.nalloc

/-- A queue is right: it is a heap, its array has room for the cell that is not used and
the stored elements, and no index outside of the array was ever used. -/
structure PqOk (q : PriorityQueue α) : Prop where
  heap : Heap (fun x y => comp x y = true) q.pq q.nalloc
  room : q.nalloc + 1 ≤ q.size
  size_eq : q.size = q.cells
  bound : 8 * q.cells < 2 ^ 63
  tame : q.wild = false

/-- `x` is in `s`, and nothing in `s` precedes it. -/
def IsLeast (x : α) (s : Multiset α) : Prop := x ∈ s ∧ ∀ y ∈ s, comp y x = false

namespace PriorityQueueLemmas

variable {comp}

/-! ### Growing and shrinking -/

theorem mallocCells_some {n cells : Nat} {ans : Option (Mem α)} {block : Mem α}
    (hn : 8 * n < 2 ^ 64) (h : mallocCells n ans = some (block, cells)) :
    cells = n ∧ 8 * cells < 2 ^ 63 := by
  unfold mallocCells at h
  rw [Nat.mod_eq_of_lt hn] at h
  dsimp only at h
  split at h
  · next hb =>
    obtain ⟨b, -, heq⟩ := Option.map_eq_some_iff.mp h
    obtain ⟨-, rfl⟩ := Prod.mk.inj heq
    exact ⟨by omega, by omega⟩
  · cases h

theorem zvPqInit_ok (comp : α → α → Bool) {size : UInt64} {malloc : Option (Mem α)} {q : PriorityQueue α}
    (hsize : 8 * (size.toNat + 1) < 2 ^ 64) (h : zvPqInit size malloc = some q) :
    PqOk comp q ∧ stored q = 0 := by
  have hn : (size + 1).toNat = size.toNat + 1 := by
    rw [UInt64.toNat_add]
    exact Nat.mod_eq_of_lt (by rw [UInt64.toNat_one]; omega)
  unfold zvPqInit at h
  rw [hn] at h
  obtain ⟨⟨block, cells⟩, hm, rfl⟩ := Option.map_eq_some_iff.mp h
  obtain ⟨rfl, hb⟩ := mallocCells_some hsize hm
  refine ⟨⟨fun k hk hkn => ?_, by simp, rfl, hb, rfl⟩, rfl⟩
  have hk0 : k ≤ 0 := hkn
  exact absurd hk (by omega)

/-- The stored elements move to the new array; a failed allocation changes nothing. -/
theorem resize_spec {q : PriorityQueue α} (h : PqOk comp q) (newSize : Nat)
    (hnew : 8 * newSize < 2 ^ 64) (hroom : q.nalloc + 1 ≤ newSize) (malloc : Option (Mem α)) :
    PqOk comp (resize q newSize malloc).1 ∧ stored (resize q newSize malloc).1 = stored q ∧
      (resize q newSize malloc).1.nalloc = q.nalloc ∧
      ((resize q newSize malloc).2 = true → (resize q newSize malloc).1.size = newSize) := by
  unfold resize
  rw [if_neg (by omega)]
  cases hm : mallocCells newSize malloc with
  | none => exact ⟨h, rfl, rfl, fun hx => by cases hx⟩
  | some res =>
    obtain ⟨block, cells⟩ := res
    obtain ⟨rfl, hb⟩ := mallocCells_some hnew hm
    have hcopy : ∀ k, 1 ≤ k → k ≤ q.nalloc →
        q.pq k = block.write 0 (q.pq.slice 0 (q.nalloc + 1)) k := by
      intro k _ hk
      have hget : (q.pq.slice 0 (q.nalloc + 1))[k]? = some (q.pq k) := by
        rw [Mem.getElem?_slice, if_pos (by omega), Nat.zero_add]
      simp [Mem.write, hget]
    have hcells := h.room
    rw [h.size_eq] at hcells
    have htame : (q.wild || decide (q.cells < q.nalloc + 1) || decide (cells < q.nalloc + 1)) =
        false := by
      simp [h.tame]
      omega
    exact ⟨⟨h.heap.congr hcopy, hroom, rfl, hb, htame⟩, (contents_congr hcopy).symm, rfl,
      fun _ => rfl⟩

/-! ### Moving up and down -/

/-- An exchange inside the heap keeps everything but the order. -/
theorem exch_frame {q : PriorityQueue α} {i j : Nat} (hi : 1 ≤ i ∧ i ≤ q.nalloc)
    (hj : 1 ≤ j ∧ j ≤ q.nalloc) (hroom : q.nalloc + 1 ≤ q.cells) (ht : q.wild = false) :
    stored (exch q i j) = stored q ∧ (exch q i j).wild = false := by
  refine ⟨contents_swap q.pq hi hj, ?_⟩
  show (q.wild || decide (q.cells ≤ i) || decide (q.cells ≤ j)) = false
  simp [ht]
  omega

/-- A queue whose root was taken out is a heap but for its new root. -/
theorem cutRoot_spec {q : PriorityQueue α} (h : PqOk comp q) (hpos : q.nalloc ≠ 0) :
    DownHeap (fun x y => comp x y = true) (cutRoot q).pq (cutRoot q).nalloc 1 ∧
      stored q = q.pq 1 ::ₘ stored (cutRoot q) ∧ (cutRoot q).wild = false := by
  have hroom := h.room
  have hcells := h.size_eq
  obtain ⟨hs, hw⟩ := exch_frame (i := 1) (j := q.nalloc) (show 1 ≤ 1 ∧ 1 ≤ q.nalloc by omega)
    (show 1 ≤ q.nalloc ∧ q.nalloc ≤ q.nalloc by omega) (by omega) h.tame
  refine ⟨?_, ?_, hw⟩
  · refine (h.heap.mono (show q.nalloc - 1 ≤ q.nalloc by omega)).downHeap fun k hk hkn => ?_
    exact (swap_other q.pq (by omega) (by omega)).symm
  · have hlast := contents_succ (exch q 1 q.nalloc).pq (q.nalloc - 1)
    rw [Nat.sub_add_cancel (by omega)] at hlast
    rw [← hs]
    refine hlast.trans ?_
    show swap q.pq 1 q.nalloc q.nalloc ::ₘ _ = _
    rw [swap_right]
    rfl

variable [IsStrictWeakOrder α fun x y => comp x y = true]

/-- What a movement leaves as it was. -/
structure Moved (q q' : PriorityQueue α) : Prop where
  stored : stored q' = stored q
  nalloc : q'.nalloc = q.nalloc
  size : q'.size = q.size
  cells : q'.cells = q.cells
  wild : q'.wild = false

theorem swim_spec (comp : α → α → Bool) [IsStrictWeakOrder α fun x y => comp x y = true]
    (q : PriorityQueue α) (k : Nat) (hk : k ≤ q.nalloc)
    (hroom : q.nalloc + 1 ≤ q.cells) (ht : q.wild = false)
    (h : UpHeap (fun x y => comp x y = true) q.pq q.nalloc k) :
    Moved q (swim comp q k) ∧
      Heap (fun x y => comp x y = true) (swim comp q k).pq (swim comp q k).nalloc := by
  induction k using Nat.strongRecOn generalizing q with
  | ind k ih =>
    rw [swim]
    split
    · next hc =>
      obtain ⟨hs, hw⟩ := exch_frame (j := k / 2) (show 1 ≤ k ∧ k ≤ q.nalloc by omega)
        (by omega) hroom ht
      obtain ⟨hm, hh⟩ := ih (k / 2) (by omega) (exch q k (k / 2))
        (show k / 2 ≤ q.nalloc by omega) hroom hw (h.move hc.1 hk hc.2)
      exact ⟨⟨hm.stored.trans hs, hm.nalloc, hm.size, hm.cells, hm.wild⟩, hh⟩
    · next hc =>
      exact ⟨⟨rfl, rfl, rfl, rfl, ht⟩, h.stop fun hk1 hlt => hc ⟨hk1, hlt⟩⟩

/-- The child that is compared is a child, and the other child does not precede it. -/
theorem sinkChild_spec (comp : α → α → Bool) [IsStrictWeakOrder α fun x y => comp x y = true]
    (q : PriorityQueue α) {k : Nat} (hk : 0 < k ∧ 2 * k ≤ q.nalloc) :
    sinkChild comp q k / 2 = k ∧ sinkChild comp q k ≤ q.nalloc ∧ k < sinkChild comp q k ∧
      ∀ j, 1 < j → j ≤ q.nalloc → j / 2 = k →
        ¬ comp (q.pq j) (q.pq (sinkChild comp q k)) = true := by
  have hirr : ∀ x : α, ¬ comp x x = true := fun x => irrefl_of (fun x y => comp x y = true) x
  unfold sinkChild
  split
  · next hc =>
    refine ⟨by omega, by omega, by omega, fun j _ _ hj2 => ?_⟩
    obtain rfl | rfl : j = 2 * k ∨ j = 2 * k + 1 := by omega
    · exact not_lt_of_lt (fun x y => comp x y = true) hc.2
    · exact hirr _
  · next hc =>
    refine ⟨by omega, by omega, by omega, fun j _ hjn hj2 hlt => ?_⟩
    obtain rfl | rfl : j = 2 * k ∨ j = 2 * k + 1 := by omega
    · exact hirr _ hlt
    · exact hc ⟨by omega, hlt⟩

theorem sink_spec (comp : α → α → Bool) [IsStrictWeakOrder α fun x y => comp x y = true]
    (q : PriorityQueue α) (k : Nat) (hk : 1 ≤ k) (hroom : q.nalloc + 1 ≤ q.cells)
    (ht : q.wild = false) (h : DownHeap (fun x y => comp x y = true) q.pq q.nalloc k) :
    Moved q (sink comp q k).1 ∧
      Heap (fun x y => comp x y = true) (sink comp q k).1.pq (sink comp q k).1.nalloc := by
  induction hn : q.nalloc - k using Nat.strongRecOn generalizing q k with
  | ind n ih =>
    rw [sink]
    split
    · next hc =>
      obtain ⟨h1, h2, h3, h4⟩ := sinkChild_spec comp q hc
      dsimp only
      generalize sinkChild comp q k = j at h1 h2 h3 h4 ⊢
      split
      · next hlt =>
        refine ⟨⟨rfl, rfl, rfl, rfl, ht⟩, h.stop fun i hi hin hi2 => ?_⟩
        refine not_lt_trans (fun x y => comp x y = true) (h4 i hi hin hi2) ?_
        rw [hlt]
        exact fun hx => by cases hx
      · next hlt =>
        obtain ⟨hs, hw⟩ := exch_frame (i := j) (j := k) (show 1 ≤ j ∧ j ≤ q.nalloc by omega)
          (by omega) hroom ht
        obtain ⟨hm, hh⟩ := ih (q.nalloc - j) (by omega) (exch q j k) j (by omega) hroom hw
          (h.move hk h1 h2 h4 (by simpa using hlt)) rfl
        exact ⟨⟨hm.stored.trans hs, hm.nalloc, hm.size, hm.cells, hm.wild⟩, hh⟩
    · next hc =>
      exact ⟨⟨rfl, rfl, rfl, rfl, ht⟩, h.stop fun i hi hin hi2 => absurd hin (by omega)⟩

/-! ### The calls -/

theorem pushItem_spec {q : PriorityQueue α} (h : PqOk comp q) (hroom : q.nalloc + 2 ≤ q.size)
    (item : α) :
    PqOk comp (pushItem comp q item) ∧ stored (pushItem comp q item) = item ::ₘ stored q := by
  have hcells := h.size_eq
  have hpq : ∀ k, 1 ≤ k → k ≤ q.nalloc → q.pq k = q.pq.write (q.nalloc + 1) [item] k := by
    intro k _ hk
    exact (if_neg (by omega)).symm
  have hnew : q.pq.write (q.nalloc + 1) [item] (q.nalloc + 1) = item := by simp [Mem.write]
  have htame : (q.wild || decide (q.cells ≤ q.nalloc + 1)) = false := by
    simp [h.tame]
    omega
  obtain ⟨hm, hh⟩ := swim_spec comp
    { q with
      pq := q.pq.write (q.nalloc + 1) [item], nalloc := q.nalloc + 1
      wild := q.wild || q.cells ≤ q.nalloc + 1 } (q.nalloc + 1) (Nat.le_refl _)
    (show q.nalloc + 1 + 1 ≤ q.cells by omega) htame (h.heap.congr hpq).upHeap
  have hsize := hm.size
  have hcell := hm.cells
  have hn := hm.nalloc
  dsimp only at hsize hcell hn
  refine ⟨⟨hh, ?_, ?_, ?_, hm.wild⟩, ?_⟩
  · show (swim comp _ _).nalloc + 1 ≤ (swim comp _ _).size
    rw [hn, hsize]
    omega
  · show (swim comp _ _).size = (swim comp _ _).cells
    rw [hsize, hcell]
    exact h.size_eq
  · show 8 * (swim comp _ _).cells < 2 ^ 63
    rw [hcell]
    exact h.bound
  · refine hm.stored.trans ?_
    show contents (q.pq.write (q.nalloc + 1) [item]) (q.nalloc + 1) = _
    rw [contents_succ, hnew, ← contents_congr hpq]
    rfl

/-- An insertion that is reported adds the item, and one that fails changes nothing that is
stored. -/
theorem zvPqInsert_spec {q : PriorityQueue α} (h : PqOk comp q) (item : α)
    (malloc : Option (Mem α)) :
    PqOk comp (zvPqInsert comp q item malloc).1 ∧
      stored (zvPqInsert comp q item malloc).1 =
        if (zvPqInsert comp q item malloc).2 then item ::ₘ stored q else stored q := by
  have hroom := h.room
  have hbound := h.bound
  rw [← h.size_eq] at hbound
  unfold zvPqInsert
  split
  · next hfull =>
    have hmod : q.size * 2 % 2 ^ 64 = q.size * 2 := Nat.mod_eq_of_lt (by omega)
    rw [hmod]
    obtain ⟨h1, h2, h3, h4⟩ := resize_spec h (q.size * 2) (by omega) (by omega) malloc
    generalize resize q (q.size * 2) malloc = res at h1 h2 h3 h4
    obtain ⟨q', ok⟩ := res
    dsimp only at h1 h2 h3 h4
    cases ok with
    | false => exact ⟨h1, by simpa using h2⟩
    | true =>
      obtain ⟨g1, g2⟩ := pushItem_spec h1 (by rw [h3, h4 rfl]; omega) item
      refine ⟨g1, ?_⟩
      rw [g2, h2]
      rfl
  · next hfull => exact pushItem_spec h (by omega) item

theorem stored_eq_zero_iff {q : PriorityQueue α} : stored q = 0 ↔ zvPqMin q = none := by
  rw [← Multiset.card_eq_zero, stored, card_contents, zvPqMin, zvPqIsEmpty]
  simp

/-- `zv_pq_min` shows a minimal element. -/
theorem zvPqMin_least {q : PriorityQueue α} (h : PqOk comp q) {x : α} (hx : zvPqMin q = some x) :
    IsLeast comp x (stored q) := by
  unfold zvPqMin at hx
  split at hx
  · cases hx
  · next hne =>
    obtain rfl := Option.some.inj hx
    have hpos : q.nalloc ≠ 0 := by simpa [zvPqIsEmpty] using hne
    refine ⟨mem_contents.mpr ⟨1, Nat.le_refl 1, by omega, rfl⟩, fun y hy => ?_⟩
    obtain ⟨k, hk1, hkn, rfl⟩ := mem_contents.mp hy
    simpa using h.heap.root_min k hk1 hkn

/-- `zv_pq_delmin` removes the element that `zv_pq_min` showed, whether or not the array
can be shrunk. -/
theorem zvPqDelmin_spec {q : PriorityQueue α} (h : PqOk comp q) (malloc : Option (Mem α)) :
    PqOk comp (zvPqDelmin comp q malloc).1 ∧
      stored (zvPqDelmin comp q malloc).1 + (zvPqMin q).toList = stored q := by
  unfold zvPqDelmin zvPqMin
  split
  · exact ⟨h, by simp⟩
  · next hne =>
    have hpos : q.nalloc ≠ 0 := by simpa [zvPqIsEmpty] using hne
    have hroom := h.room
    have hcells := h.size_eq
    obtain ⟨h1, h2, h3⟩ := cutRoot_spec h hpos
    obtain ⟨hm, hh⟩ := sink_spec comp (cutRoot q) 1 (Nat.le_refl 1)
      (show q.nalloc - 1 + 1 ≤ q.cells by omega) h3 h1
    have hsize : (sink comp (cutRoot q) 1).1.size = q.size := hm.size
    have hcell : (sink comp (cutRoot q) 1).1.cells = q.cells := hm.cells
    have hnalloc : (sink comp (cutRoot q) 1).1.nalloc = q.nalloc - 1 := hm.nalloc
    rw [← hm.stored] at h2
    have hwild := hm.wild
    dsimp only
    generalize (sink comp (cutRoot q) 1).1 = q' at hh hsize hcell hnalloc h2 hwild ⊢
    have hok : PqOk comp q' :=
      ⟨hh, by rw [hnalloc, hsize]; omega, by rw [hsize, hcell, hcells],
        by rw [hcell]; exact h.bound, hwild⟩
    have htotal : stored q' + ([q.pq 1] : List α) = stored q := by
      rw [h2, Multiset.coe_singleton, Multiset.add_comm, Multiset.singleton_add]
    split
    · next hshrink =>
      have hb := hok.bound
      rw [← hok.size_eq] at hb
      obtain ⟨g1, g2, -, -⟩ := resize_spec hok (q'.size / 2) (by omega) (by omega) malloc
      exact ⟨g1, by rw [g2]; exact htotal⟩
    · exact ⟨hok, htotal⟩

/-! ### Whole runs -/

/-- One call keeps the queue right and the account balanced. -/
theorem pqStep_ok {s : PqRun α} (h : PqOk comp s.q) (hs : stored s.q + s.removed = s.inserted)
    (call : PqCall α) :
    PqOk comp (pqStep comp s call).q ∧
      stored (pqStep comp s call).q + (pqStep comp s call).removed =
        (pqStep comp s call).inserted := by
  cases call with
  | insert item malloc =>
    obtain ⟨h1, h2⟩ := zvPqInsert_spec h item malloc
    refine ⟨h1, ?_⟩
    show stored (zvPqInsert comp s.q item malloc).1 + s.removed =
      if (zvPqInsert comp s.q item malloc).2 then item ::ₘ s.inserted else s.inserted
    rw [h2, ← hs]
    cases (zvPqInsert comp s.q item malloc).2 with
    | true =>
      rw [if_pos rfl, if_pos rfl]
      exact Multiset.cons_add item _ _
    | false => rfl
  | delmin malloc =>
    obtain ⟨h1, h2⟩ := zvPqDelmin_spec h malloc
    refine ⟨h1, ?_⟩
    show stored (zvPqDelmin comp s.q malloc).1 + ↑(s.removed ++ (zvPqMin s.q).toList) = s.inserted
    rw [← hs, ← h2, ← Multiset.coe_add, Multiset.add_comm (s.removed : Multiset α), add_assoc]

theorem pqRun_ok {q : PriorityQueue α} (h : PqOk comp q) (h0 : stored q = 0)
    (calls : List (PqCall α)) :
    PqOk comp (pqRun comp q calls).q ∧
      stored (pqRun comp q calls).q + (pqRun comp q calls).removed =
        (pqRun comp q calls).inserted := by
  have hfold : ∀ (calls : List (PqCall α)) (s : PqRun α), PqOk comp s.q →
      stored s.q + s.removed = s.inserted →
      PqOk comp (calls.foldl (pqStep comp) s).q ∧
        stored (calls.foldl (pqStep comp) s).q + (calls.foldl (pqStep comp) s).removed =
          (calls.foldl (pqStep comp) s).inserted := by
    intro calls
    induction calls with
    | nil => exact fun s h hs => ⟨h, hs⟩
    | cons call calls ih =>
      intro s h hs
      obtain ⟨h1, h2⟩ := pqStep_ok h hs call
      exact ih _ h1 h2
  refine hfold calls ⟨q, 0, []⟩ h ?_
  rw [h0]
  rfl

/-- A drained queue gives its elements in order, all of them when there are enough calls. -/
theorem drain_ok {q : PriorityQueue α} (h : PqOk comp q) (mallocs : List (Option (Mem α))) :
    (drain comp q mallocs).Pairwise (fun x y => comp y x = false) ∧
      (∀ x ∈ drain comp q mallocs, x ∈ stored q) ∧
      (q.nalloc ≤ mallocs.length → (drain comp q mallocs : Multiset α) = stored q) := by
  induction mallocs generalizing q with
  | nil =>
    refine ⟨List.Pairwise.nil, fun x hx => absurd hx List.not_mem_nil, fun hn => ?_⟩
    have h0 : (stored q).card = 0 := by
      rw [stored, card_contents]
      exact Nat.le_zero.mp hn
    rw [Multiset.card_eq_zero.mp h0]
    rfl
  | cons malloc mallocs ih =>
    obtain ⟨h1, h2⟩ := zvPqDelmin_spec h malloc
    obtain ⟨g1, g2, g3⟩ := ih h1
    unfold drain
    cases hmin : zvPqMin q with
    | none =>
      have h0 := stored_eq_zero_iff.mpr hmin
      have hempty : (zvPqDelmin comp q malloc).1 = q := by
        have hq : zvPqIsEmpty q = true := by
          by_contra hne
          rw [zvPqMin, if_neg hne] at hmin
          cases hmin
        rw [zvPqDelmin, if_pos hq]
      rw [hempty] at g1 g2 g3 ⊢
      rw [Option.toList_none, List.nil_append]
      refine ⟨g1, g2, fun _ => g3 ?_⟩
      have hcard := card_contents q.pq q.nalloc
      rw [show contents q.pq q.nalloc = 0 from h0] at hcard
      rw [← hcard]
      exact Nat.zero_le _
    | some x =>
      have hx := zvPqMin_least h hmin
      rw [hmin] at h2
      rw [Option.toList_some, List.singleton_append]
      have hsub : ∀ y ∈ stored (zvPqDelmin comp q malloc).1, y ∈ stored q := by
        intro y hy
        rw [← h2]
        exact Multiset.mem_add.mpr (Or.inl hy)
      refine ⟨List.pairwise_cons.mpr ⟨fun y hy => hx.2 y (hsub y (g2 y hy)), g1⟩, ?_, fun hn => ?_⟩
      · intro y hy
        cases List.mem_cons.mp hy with
        | inl heq => exact heq ▸ hx.1
        | inr hy => exact hsub y (g2 y hy)
      · have hcard := congrArg Multiset.card h2
        rw [Multiset.card_add, stored, stored, card_contents, card_contents] at hcard
        have hone : Multiset.card ((some x).toList : Multiset α) = 1 := rfl
        rw [List.length_cons] at hn
        rw [← Multiset.cons_coe, g3 (by omega), ← h2, Option.toList_some, Multiset.coe_singleton,
          ← Multiset.singleton_add, Multiset.add_comm]

end PriorityQueueLemmas

open PriorityQueueLemmas

/-- The queue is a min-priority multiset: after each call it is right and holds what was
inserted and not removed, `zv_pq_min` shows a minimal element, a failed insertion changes
nothing that is stored, `zv_pq_delmin` removes one minimal element, and a drained queue
gives its elements in order. -/
theorem pq_correct {α : Type} (comp : α → α → Bool)
    [IsStrictWeakOrder α fun x y => comp x y = true] (size : UInt64) (malloc : Option (Mem α))
    (q0 : PriorityQueue α) (hsize : 8 * (size.toNat + 1) < 2 ^ 64)
    (hinit : zvPqInit size malloc = some q0) (calls : List (PqCall α)) :
    let s := pqRun comp q0 calls
    PqOk comp s.q ∧ stored s.q + s.removed = s.inserted ∧
      (∀ x, zvPqMin s.q = some x → IsLeast comp x (stored s.q)) ∧
      (zvPqMin s.q = none ↔ stored s.q = 0) ∧
      (∀ item m, (zvPqInsert comp s.q item m).2 = false →
        stored (zvPqInsert comp s.q item m).1 = stored s.q) ∧
      (∀ m, stored s.q ≠ 0 →
        ∃ x, IsLeast comp x (stored s.q) ∧
          stored s.q = x ::ₘ stored (zvPqDelmin comp s.q m).1) ∧
      (∀ mallocs, (drain comp s.q mallocs).Pairwise (fun x y => comp y x = false) ∧
        (s.q.nalloc ≤ mallocs.length → (drain comp s.q mallocs : Multiset α) = stored s.q)) := by
  intro s
  obtain ⟨hok0, h0⟩ := zvPqInit_ok comp hsize hinit
  obtain ⟨hok, hbal⟩ := pqRun_ok hok0 h0 calls
  refine ⟨hok, hbal, fun x hx => zvPqMin_least hok hx, stored_eq_zero_iff.symm, ?_, ?_, ?_⟩
  · intro item m hfail
    have h2 := (zvPqInsert_spec hok item m).2
    rw [hfail] at h2
    simpa using h2
  · intro m hne
    have h2 := (zvPqDelmin_spec hok m).2
    cases hmin : zvPqMin (pqRun comp q0 calls).q with
    | none => exact absurd (stored_eq_zero_iff.mpr hmin) hne
    | some x =>
      rw [hmin, Option.toList_some, Multiset.coe_singleton, Multiset.add_comm,
        Multiset.singleton_add] at h2
      exact ⟨x, zvPqMin_least hok hmin, h2.symm⟩
  · intro mallocs
    obtain ⟨g1, -, g3⟩ := drain_ok hok mallocs
    exact ⟨g1, g3⟩

/-- The order of the numbers, as a comparator. -/
def natComp (x y : Nat) : Bool := decide (x < y)

instance : IsStrictWeakOrder Nat fun x y => natComp x y = true where
  irrefl x := by simp [natComp]
  trans x y z hxy hyz := by
    simp only [natComp, decide_eq_true_eq] at *
    exact hxy.trans hyz
  incomp_trans x y z hxy hyz := by
    simp only [natComp, decide_eq_true_eq] at *
    omega

theorem pq_correct_nat :
    ∃ q0, zvPqInit 0 (some fun _ => 0) = some q0 ∧
      let s := pqRun natComp q0 [.insert 5 (some fun _ => 0), .insert 3 (some fun _ => 0),
        .insert 4 (some fun _ => 0), .insert 2 none, .delmin none]
      PqOk natComp s.q ∧ stored s.q + s.removed = s.inserted ∧ stored s.q = {4, 5} := by
  refine ⟨_, rfl, ?_⟩
  have h := pq_correct natComp 0 (some fun _ => 0) _ (by decide) rfl
    [.insert 5 (some fun _ => 0), .insert 3 (some fun _ => 0), .insert 4 (some fun _ => 0),
      .insert 2 none, .delmin none]
  exact ⟨h.1, h.2.1, by decide +kernel⟩

/-- For `2 ^ 61 + 1` cells the number of bytes wraps to that of one cell. The initialisation
succeeds, and the first insertion writes outside of the array. -/
theorem pq_init_wraps :
    ∃ q0, zvPqInit (UInt64.ofNat (2 ^ 61)) (some fun _ => 0) = some q0 ∧
      (pqRun natComp q0 [.insert 5 none]).q.wild = true :=
  ⟨_, rfl, by decide +kernel⟩

end Zaver
