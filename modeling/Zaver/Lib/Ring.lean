import Mathlib

/-!
# Circular lists in a heap of links

A heap gives every address a successor and a predecessor. `Ring` says that the links lead
from a head through a list of addresses back to the head, and back again the other way;
insertion behind a head and removal of the first element keep it, and change no link
outside of the ring. `Rings` is a family of such rings that share no node: every node that
is owned is in one ring, or in the hand of the code that moves it.
-/

namespace LinkedRing

variable {α : Type}

/-- The links of all addresses. -/
structure Links (α : Type) where
  next : α → α
  prev : α → α

/-- Two heaps have the same links at an address. -/
def Links.Same (l l' : Links α) (p : α) : Prop := l'.next p = l.next p ∧ l'.prev p = l.prev p

/-- The links lead from `a` through `xs` to `b`, and back. -/
def Path (l : Links α) : α → List α → α → Prop
  | a, [], b => l.next a = b ∧ l.prev b = a
  | a, x :: xs, b => (l.next a = x ∧ l.prev x = a) ∧ Path l x xs b

/-- The ring of `head` with the nodes `xs`. -/
structure IsRing (l : Links α) (head : α) (xs : List α) : Prop where
  nodup : (head :: xs).Nodup
  path : Path l head xs head

variable {l l' : Links α} {a b head : α} {xs : List α}

theorem Path.congr (hnext : ∀ c ∈ a :: xs, l'.next c = l.next c)
    (hprev : ∀ c ∈ xs ++ [b], l'.prev c = l.prev c) (h : Path l a xs b) : Path l' a xs b := by
  induction xs generalizing a with
  | nil =>
    refine ⟨(hnext a List.mem_cons_self).trans h.1, (hprev b ?_).trans h.2⟩
    exact List.mem_cons_self
  | cons x xs ih =>
    refine ⟨⟨(hnext a List.mem_cons_self).trans h.1.1, (hprev x List.mem_cons_self).trans h.1.2⟩,
      ih (fun c hc => hnext c (List.mem_cons_of_mem _ hc))
        (fun c hc => hprev c (List.mem_cons_of_mem _ hc)) h.2⟩

/-- A ring depends on the links of its own addresses only. -/
theorem IsRing.congr (hsame : ∀ c ∈ head :: xs, l.Same l' c) (h : IsRing l head xs) :
    IsRing l' head xs := by
  refine ⟨h.nodup, h.path.congr (fun c hc => (hsame c hc).1) (fun c hc => (hsame c ?_).2)⟩
  rcases List.mem_append.mp hc with hc | hc
  · exact List.mem_cons_of_mem _ hc
  · rw [List.mem_singleton.mp hc]
    exact List.mem_cons_self

/-- The successor of the head is in the ring. -/
theorem IsRing.next_head (h : IsRing l head xs) : l.next head = xs.headD head := by
  cases xs with
  | nil => exact h.path.1
  | cons x xs => exact h.path.1.1

/-- The successor of the first node. -/
theorem IsRing.next_first {x : α} (h : IsRing l head (x :: xs)) : l.next x = xs.headD head := by
  cases xs with
  | nil => exact h.path.2.1
  | cons y ys => exact h.path.2.1.1

theorem IsRing.next_mem (h : IsRing l head xs) : l.next head ∈ head :: xs := by
  rw [h.next_head]
  cases xs with
  | nil => exact List.mem_cons_self
  | cons x xs => exact List.mem_cons_of_mem _ List.mem_cons_self

variable [DecidableEq α]

namespace Links

def setNext (l : Links α) (p q : α) : Links α :=
  { l with next := fun x => if x = p then q else l.next x }

def setPrev (l : Links α) (p q : α) : Links α :=
  { l with prev := fun x => if x = p then q else l.prev x }

/-- `INIT_LIST_HEAD`. -/
def init (l : Links α) (p : α) : Links α := (l.setNext p p).setPrev p p

/-- `__list_add`. -/
def addBetween (l : Links α) (new prev next : α) : Links α :=
  (((l.setNext new next).setPrev next new).setNext prev new).setPrev new prev

/-- `list_add`. -/
def add (l : Links α) (new head : α) : Links α := l.addBetween new head (l.next head)

/-- `list_del`. The links of the entry stay as they are. -/
def del (l : Links α) (entry : α) : Links α :=
  (l.setNext (l.prev entry) (l.next entry)).setPrev (l.next entry) (l.prev entry)

/-- `list_empty`. -/
def empty (l : Links α) (head : α) : Bool := l.next head == head && l.prev head == head

theorem init_other (l : Links α) {p q : α} (h : q ≠ p) : Same l (l.init p) q :=
  ⟨if_neg h, if_neg h⟩

theorem add_other (l : Links α) {new head q : α} (hnew : q ≠ new) (hhead : q ≠ head)
    (hnext : q ≠ l.next head) : Same l (l.add new head) q := by
  constructor
  · exact (if_neg hhead).trans (if_neg hnew)
  · exact (if_neg hnew).trans (if_neg hnext)

theorem del_other (l : Links α) {entry q : α} (hprev : q ≠ l.prev entry)
    (hnext : q ≠ l.next entry) : Same l (l.del entry) q :=
  ⟨if_neg hprev, if_neg hnext⟩

end Links

theorem isRing_init (l : Links α) (head : α) : IsRing (l.init head) head [] :=
  ⟨List.nodup_singleton head, if_pos rfl, if_pos rfl⟩

theorem IsRing.empty_iff (h : IsRing l head xs) : l.empty head = true ↔ xs = [] := by
  unfold Links.empty
  rw [Bool.and_eq_true, beq_iff_eq, beq_iff_eq]
  cases xs with
  | nil => exact ⟨fun _ => rfl, fun _ => h.path⟩
  | cons x xs =>
    refine ⟨fun he => absurd ?_ (List.nodup_cons.mp h.nodup).1, fun hx => by cases hx⟩
    rw [← he.1, h.path.1.1]
    exact List.mem_cons_self

/-- `list_add` puts a node in front. -/
theorem IsRing.add {new : α} (h : IsRing l head xs) (hnew : new ∉ head :: xs) :
    IsRing (l.add new head) head (new :: xs) := by
  obtain ⟨hhead, hxs⟩ := List.nodup_cons.mp h.nodup
  have hne : new ≠ head := fun heq => hnew (heq ▸ List.mem_cons_self)
  have hnewxs : new ∉ xs := fun hx => hnew (List.mem_cons_of_mem _ hx)
  refine ⟨?_, ?_⟩
  · refine List.nodup_cons.mpr ⟨fun hx => ?_, List.nodup_cons.mpr ⟨hnewxs, hxs⟩⟩
    cases List.mem_cons.mp hx with
    | inl heq => exact hne heq.symm
    | inr hx => exact hhead hx
  have hnext : (l.add new head).next head = new := if_pos rfl
  have hprev : (l.add new head).prev new = head := if_pos rfl
  have hnext' : (l.add new head).next new = l.next head := (if_neg hne).trans (if_pos rfl)
  have hfirst : l.next head ≠ new := by
    intro heq
    exact hnew (heq ▸ h.next_mem)
  have hprev' : (l.add new head).prev (l.next head) = new := (if_neg hfirst).trans (if_pos rfl)
  refine ⟨⟨hnext, hprev⟩, ?_⟩
  cases xs with
  | nil =>
    have heq : l.next head = head := h.path.1
    rw [heq] at hnext' hprev'
    exact ⟨hnext', hprev'⟩
  | cons x xs =>
    have heq : l.next head = x := h.path.1.1
    rw [heq] at hnext' hprev'
    refine ⟨⟨hnext', hprev'⟩, h.path.2.congr (fun c hc => ?_) (fun c hc => ?_)⟩
    · have hc1 : c ≠ new := fun hx => hnewxs (hx ▸ hc)
      have hc2 : c ≠ head := fun hx => hhead (hx ▸ hc)
      exact (if_neg hc2).trans (if_neg hc1)
    · have hx : x ∉ xs := (List.nodup_cons.mp hxs).1
      have hc1 : c ≠ new := by
        rintro rfl
        rcases List.mem_append.mp hc with hc | hc
        · exact hnewxs (List.mem_cons_of_mem _ hc)
        · exact hne (List.mem_singleton.mp hc)
      have hc2 : c ≠ l.next head := by
        rw [heq]
        rintro rfl
        rcases List.mem_append.mp hc with hc | hc
        · exact hx hc
        · exact hhead ((List.mem_singleton.mp hc) ▸ List.mem_cons_self)
      exact (if_neg hc1).trans (if_neg hc2)

/-- `list_del` takes the first node out. -/
theorem IsRing.del {x : α} (h : IsRing l head (x :: xs)) : IsRing (l.del x) head xs := by
  obtain ⟨hhead, hxs⟩ := List.nodup_cons.mp h.nodup
  obtain ⟨hx, hxs'⟩ := List.nodup_cons.mp hxs
  have hheadxs : head ∉ xs := fun hm => hhead (List.mem_cons_of_mem _ hm)
  have hback : l.prev x = head := h.path.1.2
  refine ⟨List.nodup_cons.mpr ⟨hheadxs, hxs'⟩, ?_⟩
  unfold Links.del
  rw [hback]
  cases xs with
  | nil =>
    have hnext : l.next x = head := h.path.2.1
    rw [hnext]
    exact ⟨if_pos rfl, if_pos rfl⟩
  | cons y ys =>
    have hnext : l.next x = y := h.path.2.1.1
    rw [hnext]
    refine ⟨⟨if_pos rfl, if_pos rfl⟩, h.path.2.2.congr (fun c hc => ?_) (fun c hc => ?_)⟩
    · have hne : c ≠ head := fun heq => hheadxs (heq ▸ hc)
      exact if_neg hne
    · refine if_neg fun heq => ?_
      subst heq
      rcases List.mem_append.mp hc with hc | hc
      · exact (List.nodup_cons.mp hxs').1 hc
      · exact hheadxs ((List.mem_singleton.mp hc) ▸ List.mem_cons_self)

/-- What `list_add` touches: the new node and the ring. -/
theorem IsRing.add_same {new q : α} (h : IsRing l head xs) (hnew : q ≠ new) (hq : q ∉ head :: xs) :
    l.Same (l.add new head) q := by
  refine l.add_other hnew ?_ ?_
  · rintro rfl
    exact hq List.mem_cons_self
  · rintro rfl
    exact hq h.next_mem

/-- What `list_del` touches: the rest of the ring. -/
theorem IsRing.del_same {x q : α} (h : IsRing l head (x :: xs)) (hq : q ∉ head :: xs) :
    l.Same (l.del x) q := by
  refine l.del_other (fun heq => hq ?_) fun heq => hq ?_
  · rw [heq, h.path.1.2]
    exact List.mem_cons_self
  · rw [heq]
    cases xs with
    | nil =>
      rw [h.path.2.1]
      exact List.mem_cons_self
    | cons y ys =>
      rw [h.path.2.1.1]
      exact List.mem_cons_of_mem _ List.mem_cons_self

/-! ## Families of rings -/

variable {κ ν : Type}

/-- The rings of the heads `heads`. A node that is owned is in one of them, or in the hand. -/
structure Rings (l : Links (κ ⊕ ν)) (heads : Set κ) (ring : κ → List ν) (hand : Option ν)
    (owned : Set ν) : Prop where
  rings : ∀ k ∈ heads, IsRing l (.inl k) ((ring k).map .inr)
  apart : ∀ k ∈ heads, ∀ k' ∈ heads, ∀ n, n ∈ ring k → n ∈ ring k' → k = k'
  in_hand : ∀ n ∈ hand, ∀ k ∈ heads, n ∉ ring k
  total : ∀ n, n ∈ owned ↔ n ∈ hand ∨ ∃ k ∈ heads, n ∈ ring k

namespace Rings

variable {l l' : Links (κ ⊕ ν)} {heads : Set κ} {ring : κ → List ν} {hand : Option ν}
  {owned : Set ν} {k : κ} {n : ν}

/-- The nodes of a ring are different. -/
theorem nodup (h : Rings l heads ring hand owned) (hk : k ∈ heads) : (ring k).Nodup :=
  List.Nodup.of_map _ (List.nodup_cons.mp (h.rings k hk).nodup).2

theorem inr_mem {xs : List ν} : (Sum.inr n : κ ⊕ ν) ∈ Sum.inl k :: xs.map Sum.inr ↔ n ∈ xs := by
  rw [List.mem_cons]
  simp

theorem inl_mem {xs : List ν} {k' : κ} :
    (Sum.inl k' : κ ⊕ ν) ∈ Sum.inl k :: xs.map Sum.inr ↔ k' = k := by
  rw [List.mem_cons]
  simp

/-- Links outside of a ring may change. -/
theorem congr_ring (h : Rings l heads ring hand owned) (hk : k ∈ heads)
    (hhead : l.Same l' (.inl k)) (hsame : ∀ m ∈ ring k, l.Same l' (.inr m)) :
    IsRing l' (.inl k) ((ring k).map .inr) := by
  refine (h.rings k hk).congr fun c hc => ?_
  cases c with
  | inl k' =>
    rw [inl_mem.mp hc]
    exact hhead
  | inr m => exact hsame m (inr_mem.mp hc)

/-- A node that nobody owned. -/
theorem take (h : Rings l heads ring none owned) (hn : n ∉ owned) :
    Rings l heads ring (some n) (insert n owned) := by
  have hout : ¬ ((n ∈ (none : Option ν)) ∨ ∃ k ∈ heads, n ∈ ring k) := fun hx => hn ((h.total n).mpr hx)
  refine ⟨h.rings, h.apart, fun m hm k hk hmem => ?_, fun m => ?_⟩
  · obtain rfl := Option.some.inj hm
    exact hout (Or.inr ⟨k, hk, hmem⟩)
  · rw [Set.mem_insert_iff, h.total m]
    constructor
    · rintro (rfl | hm | hm)
      · exact Or.inl rfl
      · cases hm
      · exact Or.inr hm
    · rintro (hm | hm)
      · exact Or.inl (Option.some.inj hm).symm
      · exact Or.inr (Or.inr hm)

/-- The node in the hand is given up. -/
theorem drop (h : Rings l heads ring (some n) owned) :
    Rings l heads ring none (owned \ {n}) := by
  refine ⟨h.rings, h.apart, (fun m hm => by cases hm), fun m => ?_⟩
  rw [Set.mem_sdiff, Set.mem_singleton_iff, h.total m]
  constructor
  · rintro ⟨hm | hm, hne⟩
    · exact absurd (Option.some.inj hm).symm hne
    · exact Or.inr hm
  · rintro (hm | ⟨k, hk, hm⟩)
    · cases hm
    · refine ⟨Or.inr ⟨k, hk, hm⟩, ?_⟩
      rintro rfl
      exact h.in_hand m rfl k hk hm

/-- A ring without nodes may be forgotten. -/
theorem forget (h : Rings l heads ring hand owned) (hempty : ring k = []) :
    Rings l (heads \ {k}) ring hand owned := by
  refine ⟨fun k' hk' => h.rings k' hk'.1, fun k1 hk1 k2 hk2 => h.apart k1 hk1.1 k2 hk2.1,
    fun m hm k' hk' => h.in_hand m hm k' hk'.1, fun m => ?_⟩
  rw [h.total m]
  refine or_congr_right ⟨?_, ?_⟩
  · rintro ⟨k', hk', hm⟩
    refine ⟨k', ⟨hk', ?_⟩, hm⟩
    rintro rfl
    rw [hempty] at hm
    exact absurd hm List.not_mem_nil
  · rintro ⟨k', hk', hm⟩
    exact ⟨k', hk'.1, hm⟩

variable [DecidableEq κ] [DecidableEq ν]

/-- The links of the node in the hand are free. -/
theorem init_hand (h : Rings l heads ring (some n) owned) :
    Rings (l.init (.inr n)) heads ring (some n) owned := by
  refine ⟨fun k hk => ?_, h.apart, h.in_hand, h.total⟩
  refine h.congr_ring hk (l.init_other (fun hx => by cases hx)) fun m hm => ?_
  refine l.init_other fun heq => h.in_hand n rfl k hk ?_
  rw [← Sum.inr.inj heq]
  exact hm

/-- The node in the hand goes to the front of a ring. -/
theorem add (h : Rings l heads ring (some n) owned) (hk : k ∈ heads) :
    Rings (l.add (.inr n) (.inl k)) heads (Function.update ring k (n :: ring k)) none owned := by
  have hn : n ∉ ring k := h.in_hand n rfl k hk
  refine ⟨fun k' hk' => ?_, fun k1 hk1 k2 hk2 m hm1 hm2 => ?_, (fun m hm => by cases hm), fun m => ?_⟩
  · by_cases heq : k' = k
    · subst heq
      rw [Function.update_self, List.map_cons]
      exact (h.rings k' hk).add fun hm => hn (inr_mem.mp hm)
    · rw [Function.update_of_ne heq]
      refine h.congr_ring hk' ((h.rings k hk).add_same (fun hx => by cases hx) ?_) fun m hm => ?_
      · exact fun hm => heq (inl_mem.mp hm)
      · refine (h.rings k hk).add_same (fun hx => ?_) fun hm' => ?_
        · exact h.in_hand n rfl k' hk' (Sum.inr.inj hx ▸ hm)
        · exact heq (h.apart k' hk' k hk m hm (inr_mem.mp hm'))
  · -- the new node is in no other ring
    have hother : ∀ k' ∈ heads, m ∈ Function.update ring k (n :: ring k) k' →
        m = n ∧ k' = k ∨ m ∈ ring k' := by
      intro k' hk' hm
      by_cases heq : k' = k
      · subst heq
        rw [Function.update_self] at hm
        exact (List.mem_cons.mp hm).imp (fun hx => ⟨hx, rfl⟩) id
      · rw [Function.update_of_ne heq] at hm
        exact Or.inr hm
    rcases hother k1 hk1 hm1 with ⟨rfl, rfl⟩ | h1
    · rcases hother k2 hk2 hm2 with ⟨-, rfl⟩ | h2
      · rfl
      · exact absurd h2 (h.in_hand m rfl k2 hk2)
    · rcases hother k2 hk2 hm2 with ⟨rfl, rfl⟩ | h2
      · exact absurd h1 (h.in_hand m rfl k1 hk1)
      · exact h.apart k1 hk1 k2 hk2 m h1 h2
  · rw [h.total m]
    constructor
    · rintro (hm | ⟨k', hk', hm⟩)
      · refine Or.inr ⟨k, hk, ?_⟩
        rw [Function.update_self, Option.some.inj hm]
        exact List.mem_cons_self
      · refine Or.inr ⟨k', hk', ?_⟩
        by_cases heq : k' = k
        · subst heq
          rw [Function.update_self]
          exact List.mem_cons_of_mem _ hm
        · rw [Function.update_of_ne heq]
          exact hm
    · rintro (hm | ⟨k', hk', hm⟩)
      · cases hm
      · by_cases heq : k' = k
        · subst heq
          rw [Function.update_self] at hm
          cases List.mem_cons.mp hm with
          | inl hx => exact Or.inl (by rw [hx]; rfl)
          | inr hm => exact Or.inr ⟨k', hk', hm⟩
        · rw [Function.update_of_ne heq] at hm
          exact Or.inr ⟨k', hk', hm⟩

/-- The first node of a ring is taken into the hand. -/
theorem del {ns : List ν} (h : Rings l heads ring none owned) (hk : k ∈ heads)
    (hring : ring k = n :: ns) :
    Rings (l.del (.inr n)) heads (Function.update ring k ns) (some n) owned := by
  have hfirst := h.rings k hk
  rw [hring, List.map_cons] at hfirst
  have hnodup := h.nodup hk
  rw [hring] at hnodup
  have hn : n ∉ ns := (List.nodup_cons.mp hnodup).1
  have hsub : ∀ k' m, m ∈ Function.update ring k ns k' → m ∈ ring k' := by
    intro k' m hm
    by_cases heq : k' = k
    · subst heq
      rw [Function.update_self] at hm
      rw [hring]
      exact List.mem_cons_of_mem _ hm
    · rw [Function.update_of_ne heq] at hm
      exact hm
  refine ⟨fun k' hk' => ?_, fun k1 hk1 k2 hk2 m hm1 hm2 => ?_, fun m hm k' hk' hmem => ?_,
    fun m => ?_⟩
  · by_cases heq : k' = k
    · subst heq
      rw [Function.update_self]
      exact hfirst.del
    · rw [Function.update_of_ne heq]
      refine h.congr_ring hk' (hfirst.del_same fun hm => heq (inl_mem.mp hm)) fun m hm => ?_
      refine hfirst.del_same fun hm' => heq (h.apart k' hk' k hk m hm ?_)
      rw [hring]
      exact List.mem_cons_of_mem _ (inr_mem.mp hm')
  · exact h.apart k1 hk1 k2 hk2 m (hsub k1 m hm1) (hsub k2 m hm2)
  · obtain rfl := Option.some.inj hm
    by_cases heq : k' = k
    · subst heq
      rw [Function.update_self] at hmem
      exact hn hmem
    · refine heq (h.apart k' hk' k hk n (hsub k' n hmem) ?_)
      rw [hring]
      exact List.mem_cons_self
  · rw [h.total m]
    constructor
    · rintro (hm | ⟨k', hk', hm⟩)
      · cases hm
      · by_cases heq : k' = k
        · subst heq
          rw [hring] at hm
          cases List.mem_cons.mp hm with
          | inl hx => exact Or.inl (by rw [hx]; rfl)
          | inr hm => exact Or.inr ⟨k', hk', by rw [Function.update_self]; exact hm⟩
        · exact Or.inr ⟨k', hk', by rw [Function.update_of_ne heq]; exact hm⟩
    · rintro (hm | ⟨k', hk', hm⟩)
      · refine Or.inr ⟨k, hk, ?_⟩
        rw [hring, Option.some.inj hm]
        exact List.mem_cons_self
      · exact Or.inr ⟨k', hk', hsub k' m hm⟩

/-- A new ring, or one that was empty. -/
theorem init_head (h : Rings l heads ring hand owned) (hempty : k ∈ heads → ring k = []) :
    Rings (l.init (.inl k)) (insert k heads) (Function.update ring k []) hand owned := by
  have hold : ∀ k', k' ∈ insert k heads → k' ≠ k → k' ∈ heads := by
    intro k' hk' hne
    exact (Set.mem_insert_iff.mp hk').resolve_left hne
  have hmem : ∀ k' m, m ∈ Function.update ring k [] k' → k' ≠ k ∧ m ∈ ring k' := by
    intro k' m hm
    by_cases heq : k' = k
    · subst heq
      rw [Function.update_self] at hm
      exact absurd hm List.not_mem_nil
    · rw [Function.update_of_ne heq] at hm
      exact ⟨heq, hm⟩
  refine ⟨fun k' hk' => ?_, fun k1 hk1 k2 hk2 m hm1 hm2 => ?_, fun m hm k' hk' hm' => ?_, fun m => ?_⟩
  · by_cases heq : k' = k
    · subst heq
      rw [Function.update_self]
      exact isRing_init l _
    · rw [Function.update_of_ne heq]
      refine h.congr_ring (hold k' hk' heq) (l.init_other fun hx => heq (Sum.inl.inj hx))
        fun m _ => l.init_other fun hx => by cases hx
  · obtain ⟨hne1, h1⟩ := hmem k1 m hm1
    obtain ⟨hne2, h2⟩ := hmem k2 m hm2
    exact h.apart k1 (hold k1 hk1 hne1) k2 (hold k2 hk2 hne2) m h1 h2
  · obtain ⟨hne, h1⟩ := hmem k' m hm'
    exact h.in_hand m hm k' (hold k' hk' hne) h1
  · rw [h.total m]
    refine or_congr_right ⟨?_, ?_⟩
    · rintro ⟨k', hk', hm⟩
      have hne : k' ≠ k := by
        rintro rfl
        rw [hempty hk'] at hm
        exact absurd hm List.not_mem_nil
      exact ⟨k', Set.mem_insert_of_mem _ hk', by rw [Function.update_of_ne hne]; exact hm⟩
    · rintro ⟨k', hk', hm⟩
      obtain ⟨hne, h1⟩ := hmem k' m hm
      exact ⟨k', hold k' hk' hne, h1⟩

end Rings

end LinkedRing
