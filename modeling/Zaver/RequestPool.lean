import Zaver.Lib.Ring

/-!
# The pool of request blocks

`http_request_cache.c`: the blocks of closed connections wait in a list until the events that
may still point to them are handled, and then go to a list of free blocks, or back to `malloc`
when that list is full. Both lists go through the field `freelist` of the blocks. `malloc`
answers with a block that is not in use, or not at all.

`PoolOk` is what every call keeps when a block is only given back by the one who has it: the
lists are rings that share no block, and a block that was handed out is in neither.
-/

namespace Zaver

open LinkedRing

/-- The heads: `g_free_requests` and `g_deferred_requests`. -/
inductive PoolHead
  | free
  | deferred
deriving DecidableEq, Repr

/-- The state of the cache. `blocks` are the blocks that came from `malloc` and were not
returned; `defers` and `puts` count how often a block was given to
`zv_http_request_put_deferred` and to `zv_http_request_put` since it was handed out. -/
structure RequestPool where
  links : Links (PoolHead ⊕ Nat)
  freeCount : Nat
  inited : Bool
  blocks : Finset Nat
  defers : Nat → Nat
  puts : Nat → Nat

def ZV_REQUEST_FREELIST_MAX : Nat := 65536

/-- Nothing is allocated yet; the memory holds anything. -/
def poolStart (links : Links (PoolHead ⊕ Nat)) : RequestPool :=
  { links := links, freeCount := 0, inited := false, blocks := ∅, defers := fun _ => 0
    puts := fun _ => 0 }

/-- `init_once`. -/
def initPool (p : RequestPool) : RequestPool :=
  if p.inited then p
  else
    { p with
      links := (p.links.init (.inl .free)).init (.inl .deferred), freeCount := 0, inited := true }

/-- `INIT_LIST_HEAD` and `list_add` of a block. -/
def pushBlock (p : RequestPool) (head : PoolHead) (r : Nat) : RequestPool :=
  { p with links := (p.links.init (.inr r)).add (.inr r) (.inl head) }

/-- `put_internal`. -/
def putInternal (p : RequestPool) (r : Nat) : RequestPool :=
  if p.freeCount ≥ ZV_REQUEST_FREELIST_MAX then { p with blocks := p.blocks.erase r }
  else { pushBlock p .free r with freeCount := p.freeCount + 1 }

/-- A block is handed out, and `zv_init_request_t` initialises its `freelist`. -/
def handOut (p : RequestPool) (r : Nat) : RequestPool :=
  { p with
    links := p.links.init (.inr r)
    defers := Function.update p.defers r 0, puts := Function.update p.puts r 0 }

/-- `zv_http_request_get`, as to the lists. -/
def zvHttpRequestGet (p : RequestPool) (malloc : Option Nat) : RequestPool × Option Nat :=
  let p := initPool p
  if p.links.empty (.inl .free) = false then
    match p.links.next (.inl .free) with
    | .inl _ => (p, none)
    | .inr r =>
      (handOut
        { p with
          links := p.links.del (.inr r)
          freeCount := if p.freeCount > 0 then p.freeCount - 1 else p.freeCount } r, some r)
  else
    match malloc with
    | none => (p, none)
    | some r => (handOut { p with blocks := insert r p.blocks } r, some r)

/-- `zv_http_request_put`. -/
def zvHttpRequestPut (p : RequestPool) (r : Nat) : RequestPool :=
  let p := initPool p
  putInternal { p with puts := Function.update p.puts r (p.puts r + 1) } r

/-- `zv_http_request_put_deferred`. -/
def zvHttpRequestPutDeferred (p : RequestPool) (r : Nat) : RequestPool :=
  let p := initPool p
  pushBlock { p with defers := Function.update p.defers r (p.defers r + 1) } .deferred r

/-- One round of the loop of `zv_http_request_deferred_flush`, none when the list is empty. -/
def flushRound (p : RequestPool) : Option RequestPool :=
  let p := initPool p
  if p.links.empty (.inl .deferred) then none
  else
    match p.links.next (.inl .deferred) with
    | .inl _ => none
    | .inr r => some (zvHttpRequestPut { p with links := p.links.del (.inr r) } r)

/-- A block that was handed out and not given back. -/
def RequestPool.Live (p : RequestPool) (r : Nat) : Prop :=
  r ∈ p.blocks ∧ p.defers r = 0 ∧ p.puts r = 0

/-- The heads that are initialised. -/
def RequestPool.heads (p : RequestPool) : Set PoolHead := fun _ => p.inited = true

/-- The lists are rings, the counter counts, and a block was given back at most once. `hand` is a
block between two lists. -/
structure PoolRings (p : RequestPool) (ring : PoolHead → List Nat) (hand : Option Nat) : Prop where
  rings : Rings p.links p.heads ring hand { n | n ∈ hand ∨ ∃ k, n ∈ ring k }
  count : p.freeCount = (ring .free).length
  bound : (ring .free).length ≤ ZV_REQUEST_FREELIST_MAX
  idle : p.inited = false → ∀ k, ring k = []

/-- What is known of the blocks by the lists they are in. -/
structure PoolOk (p : RequestPool) (ring : PoolHead → List Nat) : Prop extends
    PoolRings p ring none where
  owned : ∀ k, ∀ n ∈ ring k, n ∈ p.blocks
  free : ∀ n ∈ ring .free, p.defers n = 1 ∧ p.puts n = 1
  deferred : ∀ n ∈ ring .deferred, p.defers n = 1 ∧ p.puts n = 0
  live : ∀ n ∈ p.blocks, (∀ k, n ∉ ring k) → p.Live n
  once : ∀ n, p.defers n ≤ 1 ∧ p.puts n ≤ 1

namespace RequestPoolLemmas

variable {p p' : RequestPool} {ring : PoolHead → List Nat} {hand : Option Nat} {r : Nat}

theorem initPool_inited (p : RequestPool) : (initPool p).inited = true := by
  unfold initPool
  split
  · assumption
  · rfl

/-- What `init_once` leaves as it is. -/
theorem initPool_frame (p : RequestPool) :
    (initPool p).blocks = p.blocks ∧ (initPool p).defers = p.defers ∧ (initPool p).puts = p.puts := by
  unfold initPool
  split
  · exact ⟨rfl, rfl, rfl⟩
  · exact ⟨rfl, rfl, rfl⟩

theorem initPool_live (p : RequestPool) (r : Nat) : (initPool p).Live r ↔ p.Live r := by
  obtain ⟨hblocks, hdefers, hputs⟩ := initPool_frame p
  unfold RequestPool.Live
  rw [hblocks, hdefers, hputs]

theorem initPool_rings (h : PoolRings p ring hand) : PoolRings (initPool p) ring hand := by
  unfold initPool
  split
  · exact h
  · next hno =>
    have hring : ring = fun _ => [] := funext (h.idle (Bool.eq_false_of_not_eq_true hno))
    have hsame : ∀ k, Function.update ring k [] = ring := by
      intro k
      rw [show ([] : List Nat) = ring k by rw [hring], Function.update_eq_self]
    have hempty : ∀ k, ring k = [] := fun k => by rw [hring]
    have h₁ := h.rings.init_head (k := .free) fun _ => hempty .free
    rw [hsame] at h₁
    have h₂ := h₁.init_head (k := .deferred) fun _ => hempty .deferred
    rw [hsame] at h₂
    refine ⟨?_, ?_, h.bound, fun hx => by cases hx⟩
    · have hheads : insert PoolHead.deferred (insert PoolHead.free p.heads) =
          { p with
            links := (p.links.init (.inl .free)).init (.inl .deferred)
            freeCount := 0, inited := true }.heads := by
        refine Set.ext fun k => ⟨fun _ => rfl, fun _ => ?_⟩
        cases k with
        | free => exact Set.mem_insert_of_mem _ (Set.mem_insert _ _)
        | deferred => exact Set.mem_insert _ _
      rw [← hheads]
      exact h₂
    · rw [hempty]
      rfl

theorem initPool_ok (h : PoolOk p ring) : PoolOk (initPool p) ring := by
  obtain ⟨hblocks, hdefers, hputs⟩ := initPool_frame p
  refine ⟨initPool_rings h.toPoolRings, ?_, ?_, ?_, ?_, ?_⟩
  · rw [hblocks]
    exact h.owned
  · rw [hdefers, hputs]
    exact h.free
  · rw [hdefers, hputs]
    exact h.deferred
  · rw [hblocks]
    exact fun n hn hout => (initPool_live p n).mpr (h.live n hn hout)
  · rw [hdefers, hputs]
    exact h.once

/-- A block that was handed out is in no list. -/
theorem live_out (h : PoolOk p ring) (hr : p.Live r) (k : PoolHead) : r ∉ ring k := by
  intro hmem
  obtain ⟨-, hdefers, -⟩ := hr
  cases k with
  | free => cases hdefers.symm.trans (h.free r hmem).1
  | deferred => cases hdefers.symm.trans (h.deferred r hmem).1

/-- A block in no list can be taken in the hand. -/
theorem rings_take (h : PoolRings p ring none) (hout : ∀ k, r ∉ ring k) :
    PoolRings p ring (some r) := by
  refine ⟨?_, h.count, h.bound, h.idle⟩
  have htake := h.rings.take (n := r) fun hx => by
    cases hx with
    | inl hx => cases hx
    | inr hx =>
      obtain ⟨k, hk⟩ := hx
      exact hout k hk
  have hset : insert r { n | n ∈ (none : Option Nat) ∨ ∃ k, n ∈ ring k } =
      { n | n ∈ some r ∨ ∃ k, n ∈ ring k } := by
    refine Set.ext fun n => ⟨fun hn => ?_, fun hn => ?_⟩
    · cases Set.mem_insert_iff.mp hn with
      | inl heq => exact .inl (by rw [heq]; rfl)
      | inr hn =>
        cases hn with
        | inl hn => cases hn
        | inr hn => exact .inr hn
    · cases hn with
      | inl hn =>
        rw [Option.some.inj hn]
        exact Set.mem_insert _ _
      | inr hn => exact Set.mem_insert_of_mem _ (.inr hn)
  rw [← hset]
  exact htake

/-- The block in the hand is left. -/
theorem rings_drop (h : PoolRings p ring (some r)) (hin : p.inited = true) :
    PoolRings p ring none := by
  refine ⟨?_, h.count, h.bound, h.idle⟩
  have hdrop := h.rings.drop
  have hset : { n | n ∈ some r ∨ ∃ k, n ∈ ring k } \ {r} =
      { n | n ∈ (none : Option Nat) ∨ ∃ k, n ∈ ring k } := by
    refine Set.ext fun n => ⟨fun hn => ?_, fun hn => ?_⟩
    · obtain ⟨hn, hne⟩ := hn
      cases hn with
      | inl hn => exact absurd (Option.some.inj hn).symm hne
      | inr hn => exact .inr hn
    · cases hn with
      | inl hn => cases hn
      | inr hn =>
        obtain ⟨k, hk⟩ := hn
        refine ⟨.inr ⟨k, hk⟩, ?_⟩
        rintro rfl
        exact h.rings.in_hand n rfl k hin hk
  rw [hset] at hdrop
  exact hdrop

/-- The block in the hand goes to the front of a list. -/
theorem rings_push (h : PoolRings p ring (some r)) (hin : p.inited = true) (k : PoolHead) :
    Rings (pushBlock p k r).links p.heads (Function.update ring k (r :: ring k)) none
      { n | n ∈ (none : Option Nat) ∨ ∃ k', n ∈ Function.update ring k (r :: ring k) k' } := by
  have hadd := h.rings.init_hand.add (k := k) hin
  refine ⟨hadd.rings, hadd.apart, hadd.in_hand, fun n => ?_⟩
  constructor
  · rintro (hn | ⟨k', hk'⟩)
    · cases hn
    · exact .inr ⟨k', hin, hk'⟩
  · rintro (hn | ⟨k', -, hk'⟩)
    · cases hn
    · exact .inr ⟨k', hk'⟩

/-- The first block of a list is taken in the hand. -/
theorem rings_pop {rest : List Nat} (h : PoolRings p ring none) (hin : p.inited = true)
    {k : PoolHead} (hring : ring k = r :: rest) :
    Rings (p.links.del (.inr r)) p.heads (Function.update ring k rest) (some r)
      { n | n ∈ some r ∨ ∃ k', n ∈ Function.update ring k rest k' } := by
  have hdel := h.rings.del (k := k) hin hring
  refine ⟨hdel.rings, hdel.apart, hdel.in_hand, fun n => ?_⟩
  constructor
  · rintro (hn | ⟨k', hk'⟩)
    · exact .inl hn
    · exact .inr ⟨k', hin, hk'⟩
  · rintro (hn | ⟨k', -, hk'⟩)
    · exact .inl hn
    · exact .inr ⟨k', hk'⟩

/-- The list of a head and the first block of it. -/
theorem ring_first (h : PoolRings p ring none) (hin : p.inited = true) (k : PoolHead) :
    (p.links.empty (.inl k) = true ∧ ring k = []) ∨
      ∃ n rest, p.links.empty (.inl k) = false ∧ ring k = n :: rest ∧
        p.links.next (.inl k) = .inr n := by
  have hisring := h.rings.rings k hin
  cases hring : ring k with
  | nil =>
    rw [hring] at hisring
    exact .inl ⟨hisring.empty_iff.mpr rfl, rfl⟩
  | cons n rest =>
    rw [hring] at hisring
    refine .inr ⟨n, rest, ?_, rfl, hisring.next_head⟩
    refine Bool.eq_false_of_not_eq_true fun he => ?_
    cases hisring.empty_iff.mp he

/-- The pool while the block `r` is in the hand: nothing is known of its counters. -/
structure PoolHand (p : RequestPool) (ring : PoolHead → List Nat) (r : Nat) : Prop extends
    PoolRings p ring (some r) where
  inited : p.inited = true
  mine : r ∈ p.blocks
  owned : ∀ k, ∀ n ∈ ring k, n ∈ p.blocks
  free : ∀ n ∈ ring .free, p.defers n = 1 ∧ p.puts n = 1
  deferred : ∀ n ∈ ring .deferred, p.defers n = 1 ∧ p.puts n = 0
  live : ∀ n ∈ p.blocks, n ≠ r → (∀ k, n ∉ ring k) → p.Live n
  once : ∀ n, n ≠ r → p.defers n ≤ 1 ∧ p.puts n ≤ 1

theorem PoolHand.out (h : PoolHand p ring r) (k : PoolHead) : r ∉ ring k :=
  h.rings.in_hand r rfl k h.inited

theorem PoolHand.ne (h : PoolHand p ring r) {k : PoolHead} {n : Nat} (hn : n ∈ ring k) : n ≠ r :=
  fun heq => h.out k (heq ▸ hn)

/-! ### Into the hand -/

theorem hand_of_live (h : PoolOk p ring) (hin : p.inited = true) (hr : p.Live r) :
    PoolHand p ring r :=
  ⟨rings_take h.toPoolRings (live_out h hr), hin, hr.1, h.owned, h.free, h.deferred,
    fun n hn _ hout => h.live n hn hout, fun n _ => h.once n⟩

theorem hand_of_malloc (h : PoolOk p ring) (hin : p.inited = true) (hr : r ∉ p.blocks) :
    PoolHand { p with blocks := insert r p.blocks } ring r := by
  have hout : ∀ k, r ∉ ring k := fun k hk => hr (h.owned k r hk)
  have htake := rings_take h.toPoolRings hout
  refine ⟨⟨htake.rings, htake.count, htake.bound, htake.idle⟩, hin, Finset.mem_insert_self _ _,
    fun k n hn => Finset.mem_insert_of_mem (h.owned k n hn), h.free, h.deferred, ?_,
    fun n _ => h.once n⟩
  intro n hn hne hno
  obtain ⟨hmem, hdefers, hputs⟩ := h.live n (Finset.mem_of_mem_insert_of_ne hn hne) hno
  exact ⟨Finset.mem_insert_of_mem hmem, hdefers, hputs⟩

/-- The first block of a list, with the counter as it then must be. -/
theorem hand_of_pop (h : PoolOk p ring) (hin : p.inited = true) {k : PoolHead} {rest : List Nat}
    (hring : ring k = r :: rest) {freeCount : Nat}
    (hcount : freeCount = (Function.update ring k rest .free).length) :
    PoolHand { p with links := p.links.del (.inr r), freeCount := freeCount }
      (Function.update ring k rest) r := by
  have hpop := rings_pop h.toPoolRings hin hring
  have hsub : ∀ k', ∀ n ∈ Function.update ring k rest k', n ∈ ring k' := by
    intro k' n hn
    by_cases heq : k' = k
    · subst heq
      rw [Function.update_self] at hn
      rw [hring]
      exact List.mem_cons_of_mem _ hn
    · rw [Function.update_of_ne heq] at hn
      exact hn
  have hmine : r ∈ ring k := by
    rw [hring]
    exact List.mem_cons_self
  refine ⟨⟨hpop, hcount, ?_, fun hx => by cases hin.symm.trans hx⟩, hin, h.owned k r hmine,
    fun k' n hn => h.owned k' n (hsub k' n hn), fun n hn => h.free n (hsub _ n hn),
    fun n hn => h.deferred n (hsub _ n hn), ?_, fun n _ => h.once n⟩
  · refine Nat.le_trans ?_ h.bound
    cases k with
    | free =>
      rw [Function.update_self, hring, List.length_cons]
      exact Nat.le_succ _
    | deferred => rw [Function.update_of_ne fun hx => by cases hx]
  · intro n hn hne hno
    refine h.live n hn fun k' hk' => ?_
    by_cases heq : k' = k
    · subst heq
      rw [hring] at hk'
      cases List.mem_cons.mp hk' with
      | inl hx => exact hne hx
      | inr hx => exact hno k' (by rw [Function.update_self]; exact hx)
    · exact hno k' (by rw [Function.update_of_ne heq]; exact hk')

/-- The counters of the block in the hand are free. -/
theorem PoolHand.recount (h : PoolHand p ring r) (defers puts : Nat) :
    PoolHand
      { p with
        defers := Function.update p.defers r defers, puts := Function.update p.puts r puts }
      ring r := by
  have hother : ∀ n, n ≠ r → Function.update p.defers r defers n = p.defers n ∧
      Function.update p.puts r puts n = p.puts n :=
    fun n hne => ⟨Function.update_of_ne hne _ _, Function.update_of_ne hne _ _⟩
  refine ⟨⟨h.rings, h.count, h.bound, h.idle⟩, h.inited, h.mine, h.owned, fun n hn => ?_,
    fun n hn => ?_, fun n hn hne hno => ?_, fun n hne => ?_⟩
  · obtain ⟨hd, hp⟩ := hother n (h.ne hn)
    exact ⟨hd.trans (h.free n hn).1, hp.trans (h.free n hn).2⟩
  · obtain ⟨hd, hp⟩ := hother n (h.ne hn)
    exact ⟨hd.trans (h.deferred n hn).1, hp.trans (h.deferred n hn).2⟩
  · obtain ⟨hd, hp⟩ := hother n hne
    obtain ⟨hmem, hdefers, hputs⟩ := h.live n hn hne hno
    exact ⟨hmem, hd.trans hdefers, hp.trans hputs⟩
  · obtain ⟨hd, hp⟩ := hother n hne
    exact ⟨hd.trans_le (h.once n hne).1, hp.trans_le (h.once n hne).2⟩

/-! ### Out of the hand -/

theorem PoolHand.once_all (h : PoolHand p ring r) (hr : p.defers r ≤ 1 ∧ p.puts r ≤ 1) (n : Nat) :
    p.defers n ≤ 1 ∧ p.puts n ≤ 1 := by
  by_cases heq : n = r
  · rw [heq]
    exact hr
  · exact h.once n heq

/-- The block goes to the front of a list. -/
theorem PoolHand.push (h : PoolHand p ring r) (k : PoolHead) (hdefers : p.defers r = 1)
    (hputs : p.puts r = if k = .free then 1 else 0) {freeCount : Nat}
    (hcount : freeCount = (Function.update ring k (r :: ring k) .free).length)
    (hbound : freeCount ≤ ZV_REQUEST_FREELIST_MAX) :
    PoolOk { pushBlock p k r with freeCount := freeCount }
      (Function.update ring k (r :: ring k)) := by
  have hmem : ∀ k' n, n ∈ Function.update ring k (r :: ring k) k' → n = r ∧ k' = k ∨ n ∈ ring k' := by
    intro k' n hn
    by_cases heq : k' = k
    · subst heq
      rw [Function.update_self] at hn
      exact (List.mem_cons.mp hn).imp (fun hx => ⟨hx, rfl⟩) id
    · rw [Function.update_of_ne heq] at hn
      exact .inr hn
  refine ⟨⟨rings_push h.toPoolRings h.inited k, hcount, hcount ▸ hbound,
    fun hx => by cases h.inited.symm.trans hx⟩, ?_, ?_, ?_, ?_, ?_⟩
  · intro k' n hn
    rcases hmem k' n hn with ⟨rfl, -⟩ | hn
    · exact h.mine
    · exact h.owned k' n hn
  · intro n hn
    rcases hmem _ n hn with ⟨rfl, rfl⟩ | hn
    · exact ⟨hdefers, hputs⟩
    · exact h.free n hn
  · intro n hn
    rcases hmem _ n hn with ⟨rfl, rfl⟩ | hn
    · exact ⟨hdefers, hputs⟩
    · exact h.deferred n hn
  · intro n hn hno
    have hne : n ≠ r := by
      rintro rfl
      exact hno k (by rw [Function.update_self]; exact List.mem_cons_self)
    refine h.live n hn hne fun k' hk' => hno k' ?_
    by_cases heq : k' = k
    · subst heq
      rw [Function.update_self]
      exact List.mem_cons_of_mem _ hk'
    · rw [Function.update_of_ne heq]
      exact hk'
  · refine h.once_all ⟨hdefers.le, ?_⟩
    rw [hputs]
    split
    · exact Nat.le_refl _
    · exact Nat.zero_le _

/-- The block goes back to `malloc`. -/
theorem PoolHand.giveUp (h : PoolHand p ring r) (hr : p.defers r ≤ 1 ∧ p.puts r ≤ 1) :
    PoolOk { p with blocks := p.blocks.erase r } ring := by
  have hdrop := rings_drop h.toPoolRings h.inited
  refine ⟨⟨hdrop.rings, hdrop.count, hdrop.bound, hdrop.idle⟩, fun k n hn => ?_, h.free, h.deferred,
    fun n hn hno => ?_, h.once_all hr⟩
  · exact Finset.mem_erase.mpr ⟨h.ne hn, h.owned k n hn⟩
  · obtain ⟨hne, hmem⟩ := Finset.mem_erase.mp hn
    obtain ⟨-, hdefers, hputs⟩ := h.live n hmem hne hno
    exact ⟨hn, hdefers, hputs⟩

/-- The block is handed out. -/
theorem PoolHand.handOut (h : PoolHand p ring r) :
    PoolOk (handOut p r) ring ∧ (Zaver.handOut p r).Live r := by
  have hzero : (Zaver.handOut p r).Live r :=
    ⟨h.mine, Function.update_self _ _ _, Function.update_self _ _ _⟩
  have hcount := h.recount 0 0
  have hinit := hcount.rings.init_hand
  have hrings : PoolRings (Zaver.handOut p r) ring (some r) :=
    ⟨hinit, hcount.count, hcount.bound, hcount.idle⟩
  have hdrop := rings_drop hrings h.inited
  refine ⟨⟨hdrop, hcount.owned, hcount.free, hcount.deferred, fun n hn hno => ?_, ?_⟩, hzero⟩
  · by_cases heq : n = r
    · rw [heq]
      exact hzero
    · exact hcount.live n hn heq hno
  · exact hcount.once_all ⟨hzero.2.1.trans_le (Nat.zero_le _), hzero.2.2.trans_le (Nat.zero_le _)⟩

end RequestPoolLemmas

open RequestPoolLemmas

/-! ## The calls -/

/-- A block that is given back waits in the list of the closed ones. -/
theorem putDeferred_ok {p : RequestPool} {ring : PoolHead → List Nat} {r : Nat} (h : PoolOk p ring)
    (hr : p.Live r) :
    PoolOk (zvHttpRequestPutDeferred p r)
        (Function.update ring .deferred (r :: ring .deferred)) ∧
      (zvHttpRequestPutDeferred p r).blocks = p.blocks ∧
      ∀ n, (zvHttpRequestPutDeferred p r).Live n ↔ p.Live n ∧ n ≠ r := by
  have hin := initPool_inited p
  have hok := initPool_ok h
  have hlive := fun n => initPool_live p n
  have hblocks := (initPool_frame p).1
  unfold zvHttpRequestPutDeferred
  dsimp only
  generalize initPool p = q at hin hok hlive hblocks ⊢
  have hrq := (hlive r).mpr hr
  have hhand := (hand_of_live hok hin hrq).recount 1 0
  have hputs : Function.update q.puts r 0 = q.puts := by
    rw [← hrq.2.2, Function.update_eq_self]
  rw [hputs] at hhand
  rw [hrq.2.1]
  have hfree : Function.update ring .deferred (r :: ring .deferred) .free = ring .free :=
    Function.update_of_ne (fun hx => by cases hx) _ _
  refine ⟨?_, hblocks, fun n => ?_⟩
  · refine hhand.push .deferred (Function.update_self _ _ _) hrq.2.2 ?_ ?_
    · rw [hfree]
      exact hok.count
    · exact hok.count.trans_le hok.bound
  · rw [← hlive n]
    constructor
    · intro hx
      have hne : n ≠ r := by
        rintro rfl
        have hone : Function.update q.defers n 1 n = 0 := hx.2.1
        rw [Function.update_self] at hone
        cases hone
      have hdefers : Function.update q.defers r 1 n = 0 := hx.2.1
      rw [Function.update_of_ne hne] at hdefers
      exact ⟨⟨hx.1, hdefers, hx.2.2⟩, hne⟩
    · rintro ⟨hx, hne⟩
      exact ⟨hx.1, (Function.update_of_ne hne _ _).trans hx.2.1, hx.2.2⟩

/-- What is handed out was free or is new, and the list of the closed blocks is as it was. -/
theorem requestGet_ok {p p' : RequestPool} {ring : PoolHead → List Nat} {malloc : Option Nat}
    {res : Option Nat} (h : PoolOk p ring) (hnew : ∀ r ∈ malloc, r ∉ p.blocks)
    (hget : zvHttpRequestGet p malloc = (p', res)) :
    ∃ ring', PoolOk p' ring' ∧ ring' .deferred = ring .deferred ∧
      (∀ r ∈ res, ¬ p.Live r ∧ ∀ k, r ∉ ring' k) ∧ (res = none → p'.blocks = p.blocks) ∧
      (∀ r ∈ res, p'.blocks = insert r p.blocks) ∧
      ∀ n, p'.Live n ↔ n ∈ res ∨ p.Live n := by
  have hin := initPool_inited p
  have hok := initPool_ok h
  have hlive := fun n => initPool_live p n
  have hblocks := (initPool_frame p).1
  unfold zvHttpRequestGet at hget
  dsimp only at hget
  rw [← hblocks] at hnew ⊢
  generalize initPool p = q at hin hok hlive hblocks hget hnew ⊢
  -- the block comes into the hand, and `handOut` lets it go
  have hout : ∀ (g : RequestPool) (ring' : PoolHead → List Nat) (r : Nat), PoolHand g ring' r →
      g.defers = q.defers → g.puts = q.puts → g.blocks = insert r q.blocks → ¬ q.Live r →
      ring' .deferred = ring .deferred →
      ∃ ring', PoolOk (handOut g r) ring' ∧ ring' .deferred = ring .deferred ∧
        (∀ n ∈ some r, ¬ p.Live n ∧ ∀ k, n ∉ ring' k) ∧
        (some r = none → (handOut g r).blocks = q.blocks) ∧
        (∀ n ∈ some r, (handOut g r).blocks = insert n q.blocks) ∧
        ∀ n, (handOut g r).Live n ↔ n ∈ some r ∨ p.Live n := by
    intro g ring' r hhand hdefers hputs hins hdead hring
    obtain ⟨hok', hlive'⟩ := hhand.handOut
    refine ⟨ring', hok', hring, fun n hn => ?_, (fun hx => by cases hx), fun n hn => ?_, fun n => ?_⟩
    · obtain rfl := Option.some.inj hn
      exact ⟨fun hx => hdead ((hlive r).mpr hx), hhand.out⟩
    · obtain rfl := Option.some.inj hn
      exact hins
    · rw [← hlive n]
      by_cases heq : n = r
      · subst heq
        exact ⟨fun _ => .inl rfl, fun _ => hlive'⟩
      · constructor
        · intro hx
          have hmem : n ∈ insert r q.blocks := hins ▸ hx.1
          refine .inr ⟨Finset.mem_of_mem_insert_of_ne hmem heq, ?_, ?_⟩
          · rw [← hdefers]
            exact (Function.update_of_ne heq _ _).symm.trans hx.2.1
          · rw [← hputs]
            exact (Function.update_of_ne heq _ _).symm.trans hx.2.2
        · intro hx
          cases hx with
          | inl hx => exact absurd (Option.some.inj hx).symm heq
          | inr hx =>
            refine ⟨?_, ?_, ?_⟩
            · show n ∈ g.blocks
              rw [hins]
              exact Finset.mem_insert_of_mem hx.1
            · exact (Function.update_of_ne heq _ _).trans (hdefers ▸ hx.2.1)
            · exact (Function.update_of_ne heq _ _).trans (hputs ▸ hx.2.2)
  rcases ring_first hok.toPoolRings hin .free with ⟨hempty, hnil⟩ | ⟨n, rest, hempty, hring, hnext⟩
  · rw [if_neg (by rw [hempty]; exact fun hx => by cases hx)] at hget
    cases malloc with
    | none =>
      obtain ⟨rfl, rfl⟩ := Prod.mk.inj hget
      refine ⟨ring, hok, rfl, (fun r hr => by cases hr), fun _ => rfl, (fun r hr => by cases hr),
        fun n => ?_⟩
      rw [hlive n]
      exact ⟨.inr, fun hx => hx.elim (fun hx => by cases hx) id⟩
    | some r =>
      obtain ⟨rfl, rfl⟩ := Prod.mk.inj hget
      have hr : r ∉ q.blocks := hnew r rfl
      exact hout _ ring r (hand_of_malloc hok hin hr) rfl rfl rfl (fun hx => hr hx.1) rfl
  · rw [if_pos hempty, hnext] at hget
    obtain ⟨rfl, rfl⟩ := Prod.mk.inj hget
    have hmem : n ∈ ring .free := by
      rw [hring]
      exact List.mem_cons_self
    have hcount := hok.count
    rw [hring, List.length_cons] at hcount
    have hcount' : (if q.freeCount > 0 then q.freeCount - 1 else q.freeCount) =
        (Function.update ring .free rest .free).length := by
      rw [if_pos (by rw [hcount]; exact Nat.succ_pos _), hcount, Function.update_self,
        Nat.add_sub_cancel]
    refine hout _ _ n (hand_of_pop hok hin hring hcount') rfl rfl ?_ ?_ ?_
    · exact (Finset.insert_eq_of_mem (hok.owned .free n hmem)).symm
    · intro hx
      cases hx.2.2.symm.trans (hok.free n hmem).2
    · exact Function.update_of_ne (fun hx => by cases hx) _ _

/-- A round of `zv_http_request_deferred_flush` takes the first of the closed blocks. -/
theorem flushRound_ok {p : RequestPool} {ring : PoolHead → List Nat} (h : PoolOk p ring) :
    match flushRound p with
    | none => ring .deferred = []
    | some p' => ∃ r rest ring', ring .deferred = r :: rest ∧ PoolOk p' ring' ∧
        ring' .deferred = rest ∧ (p'.blocks = p.blocks ∨ p'.blocks = p.blocks.erase r) ∧
        ∀ n, p'.Live n ↔ p.Live n := by
  have hin := initPool_inited p
  have hok := initPool_ok h
  have hlive := fun n => initPool_live p n
  have hblocks := (initPool_frame p).1
  unfold flushRound
  dsimp only
  rw [← hblocks]
  generalize initPool p = q at hin hok hlive hblocks ⊢
  rcases ring_first hok.toPoolRings hin .deferred with ⟨hempty, hnil⟩ | ⟨r, rest, hempty, hring, hnext⟩
  · rw [if_pos hempty]
    exact hnil
  rw [if_neg (by rw [hempty]; exact fun hx => by cases hx), hnext]
  dsimp only
  have hmem : r ∈ ring .deferred := by
    rw [hring]
    exact List.mem_cons_self
  obtain ⟨hdefers, hputs⟩ := hok.deferred r hmem
  have hfree : Function.update ring .deferred rest .free = ring .free :=
    Function.update_of_ne (fun hx => by cases hx) _ _
  have hcount : q.freeCount = (Function.update ring .deferred rest .free).length := by
    rw [hfree]
    exact hok.count
  have hhand := hand_of_pop hok hin hring hcount
  unfold zvHttpRequestPut
  have hsame : initPool { q with links := q.links.del (.inr r) } =
      { q with links := q.links.del (.inr r) } := if_pos hin
  rw [hsame]
  dsimp only
  have hhand' := hhand.recount (q.defers r) (q.puts r + 1)
  dsimp only at hhand'
  rw [Function.update_eq_self] at hhand'
  have hone : Function.update q.puts r (q.puts r + 1) r = 1 := by
    rw [Function.update_self, hputs]
  have hlive' : ∀ (blocks : Finset Nat) n, (n ≠ r → (n ∈ blocks ↔ n ∈ q.blocks)) →
      (n ∈ blocks ∧ q.defers n = 0 ∧ Function.update q.puts r (q.puts r + 1) n = 0 ↔ p.Live n) := by
    intro blocks n hmem
    rw [← hlive n]
    by_cases heq : n = r
    · subst heq
      refine ⟨fun hx => ?_, fun hx => ?_⟩
      · cases hdefers.symm.trans hx.2.1
      · cases hdefers.symm.trans hx.2.1
    · rw [Function.update_of_ne heq, hmem heq]
      exact Iff.rfl
  unfold putInternal
  split
  · refine ⟨r, rest, _, hring, hhand'.giveUp ⟨hdefers.le, hone.le⟩, Function.update_self _ _ _,
      .inr rfl, fun n => ?_⟩
    refine hlive' (q.blocks.erase r) n fun hne => ?_
    rw [Finset.mem_erase]
    exact ⟨fun hx => hx.2, fun hx => ⟨hne, hx⟩⟩
  · next hroom =>
    refine ⟨r, rest, _, hring, hhand'.push .free hdefers hone ?_ (Nat.lt_of_not_le hroom), ?_, .inl rfl,
      fun n => hlive' q.blocks n fun _ => Iff.rfl⟩
    · rw [Function.update_self, hfree, List.length_cons, ← hok.count]
    · rw [Function.update_of_ne fun hx => by cases hx]
      exact Function.update_self _ _ _

theorem poolStart_ok (links : Links (PoolHead ⊕ Nat)) : PoolOk (poolStart links) fun _ => [] := by
  refine ⟨⟨⟨?_, ?_, ?_, ?_⟩, rfl, Nat.zero_le _, fun _ _ => rfl⟩, ?_, ?_, ?_, ?_, ?_⟩
  · exact fun k hk => by cases hk
  · exact fun k hk => by cases hk
  · exact fun n hn => by cases hn
  · intro n
    constructor
    · rintro (hn | ⟨k, hk⟩)
      · cases hn
      · exact absurd hk List.not_mem_nil
    · rintro (hn | ⟨k, hk, -⟩)
      · cases hn
      · cases hk
  · exact fun k n hn => absurd hn List.not_mem_nil
  · exact fun n hn => absurd hn List.not_mem_nil
  · exact fun n hn => absurd hn List.not_mem_nil
  · exact fun n hn => absurd hn (Finset.notMem_empty n)
  · exact fun n => ⟨Nat.zero_le _, Nat.zero_le _⟩

end Zaver
