import Zaver.Lib.Runs
import Zaver.PriorityQueue

/-!
# Timers

`timer.c`: a priority queue of pointers to nodes, ordered by the time a node expires. A
node that is not wanted any more is only marked, and leaves the queue when it comes to the
top. The clock is read again for each node that is looked at. The nodes are numbered in
the order of their allocation, and no number is used again; `malloc` succeeds for them,
as `zv_add_timer` relies on, while the array of the queue may not get its memory.

Result: `timers_exact`. Neither the order of the calls nor a clock that jumps makes a handler run
twice, early, or for a marked node.
-/

namespace Zaver

open CString BinaryHeap Runs

/-- `zv_timer_node`. -/
structure TimerNode (η ρ : Type) where
  key : UInt64
  deleted : Bool
  handler : η
  rq : ρ

/-- A call of a handler: the node, what the clock showed, the handler and its argument. -/
structure Expiry (η ρ : Type) where
  node : Nat
  clock : UInt64
  handler : η
  rq : ρ

/-- `zv_timer`, `zv_current_msec`, the nodes and the `timer` fields of the requests. `reads`
counts the readings of the clock; `calls` is what the handlers were called with. -/
structure Timers (η ρ : Type) where
  heap : PriorityQueue Nat
  nodes : Nat → TimerNode η ρ
  count : Nat
  timer : ρ → Option Nat
  now : UInt64
  reads : Nat
  calls : List (Expiry η ρ)

/-- What the clock shows at each reading, and what the allocator answers after it. -/
structure TimerEnv where
  clock : Nat → UInt64
  malloc : Nat → Option (Mem Nat)

def ZV_TIMER_INFINITE : Int := -1

def ZV_PQ_DEFAULT_SIZE : UInt64 := 10

variable {η ρ : Type}

/-- `timer_comp`. -/
def timerComp (nodes : Nat → TimerNode η ρ) (i j : Nat) : Bool :=
  decide ((nodes i).key < (nodes j).key)

/-- `zv_time_update`. -/
def zvTimeUpdate (env : TimerEnv) (s : Timers η ρ) : Timers η ρ :=
  { s with now := env.clock s.reads, reads := s.reads + 1 }

/-- `zv_timer_init`, over whatever the memory holds. -/
def zvTimerInit (env : TimerEnv) (nodes : Nat → TimerNode η ρ) : Option (Timers η ρ) :=
  (zvPqInit ZV_PQ_DEFAULT_SIZE (env.malloc 0)).map fun heap =>
    zvTimeUpdate env
      { heap := heap, nodes := nodes, count := 0, timer := fun _ => none, now := 0, reads := 0
        calls := [] }

/-- `zv_pq_delmin(&zv_timer)`. -/
def popTimer (env : TimerEnv) (s : Timers η ρ) : Timers η ρ :=
  { s with heap := (zvPqDelmin (timerComp s.nodes) s.heap (env.malloc s.reads)).1 }

/-- The time to wait: the difference is a `size_t`, and is cut to an `int`. -/
def waitTime (key now : UInt64) : Int :=
  let time := wrapInt (key - now).toNat
  if time > 0 then time else 0

/-- The loop of `zv_find_timer`, for a queue of `n` nodes. -/
def findLoop (env : TimerEnv) : Nat → Timers η ρ → Timers η ρ × Int
  | 0, s => (s, ZV_TIMER_INFINITE)
  | n + 1, s =>
    if zvPqIsEmpty s.heap then (s, ZV_TIMER_INFINITE)
    else
      let s := zvTimeUpdate env s
      match zvPqMin s.heap with
      | none => (s, ZV_TIMER_INFINITE)
      | some node =>
        if (s.nodes node).deleted then findLoop env n (popTimer env s)
        else (s, waitTime (s.nodes node).key s.now)

/-- `zv_find_timer`. -/
def zvFindTimer (env : TimerEnv) (s : Timers η ρ) : Timers η ρ × Int :=
  findLoop env s.heap.nalloc s

/-- The call of a handler; every caller of `zv_add_timer` gives one. -/
def callHandler [DecidableEq ρ] (s : Timers η ρ) (node : Nat) : Timers η ρ :=
  { s with
    timer := fun rq => if rq = (s.nodes node).rq then none else s.timer rq
    calls := s.calls ++ [⟨node, s.now, (s.nodes node).handler, (s.nodes node).rq⟩] }

/-- The loop of `zv_handle_expire_timers`, for a queue of `n` nodes. -/
def expireLoop [DecidableEq ρ] (env : TimerEnv) : Nat → Timers η ρ → Timers η ρ
  | 0, s => s
  | n + 1, s =>
    if zvPqIsEmpty s.heap then s
    else
      let s := zvTimeUpdate env s
      match zvPqMin s.heap with
      | none => s
      | some node =>
        if (s.nodes node).deleted then expireLoop env n (popTimer env s)
        else if (s.nodes node).key > s.now then s
        else expireLoop env n (popTimer env (callHandler s node))

/-- `zv_handle_expire_timers`. -/
def zvHandleExpireTimers [DecidableEq ρ] (env : TimerEnv) (s : Timers η ρ) : Timers η ρ :=
  expireLoop env s.heap.nalloc s

/-- `zv_add_timer`. -/
def zvAddTimer [DecidableEq ρ] (env : TimerEnv) (s : Timers η ρ) (rq : ρ) (timeout : UInt64)
    (handler : η) : Timers η ρ :=
  let s := zvTimeUpdate env s
  let nodes := fun i => if i = s.count then ⟨s.now + timeout, false, handler, rq⟩ else s.nodes i
  { s with
    timer := fun rq' => if rq' = rq then some s.count else s.timer rq'
    nodes := nodes
    heap := (zvPqInsert (timerComp nodes) s.heap s.count (env.malloc s.reads)).1
    count := s.count + 1 }

/-- `zv_del_timer`, none when `rq->timer` is null. -/
def zvDelTimer [DecidableEq ρ] (env : TimerEnv) (s : Timers η ρ) (rq : ρ) : Option (Timers η ρ) :=
  let s := zvTimeUpdate env s
  (s.timer rq).map fun node =>
    { s with
      nodes := fun i => if i = node then { s.nodes i with deleted := true } else s.nodes i
      timer := fun rq' => if rq' = rq then none else s.timer rq' }

/-- The calls of `timer.c`. -/
inductive TimerAct (η ρ : Type)
  | add (rq : ρ) (timeout : UInt64) (handler : η)
  | del (rq : ρ)
  | find
  | expire

/-- One call. -/
def timerStep [DecidableEq ρ] (env : TimerEnv) (s : Timers η ρ) :
    TimerAct η ρ → Option (Timers η ρ)
  | .add rq timeout handler => some (zvAddTimer env s rq timeout handler)
  | .del rq => zvDelTimer env s rq
  | .find => some (zvFindTimer env s).1
  | .expire => some (zvHandleExpireTimers env s)

/-- A node of the queue that is not marked. -/
def Timers.Live (s : Timers η ρ) (i : Nat) : Prop :=
  i ∈ stored s.heap ∧ (s.nodes i).deleted = false

/-- What `zv_find_timer` answers and leaves. -/
structure FindExact (s s' : Timers η ρ) (time : Int) : Prop where
  infinite : time = ZV_TIMER_INFINITE ↔ ∀ i, ¬ s.Live i
  wait : ∀ i, s.Live i → (∀ j, s.Live j → (s.nodes i).key ≤ (s.nodes j).key) →
    -2 ^ 31 ≤ ((s.nodes i).key.toNat : Int) - s'.now.toNat →
    ((s.nodes i).key.toNat : Int) - s'.now.toNat < 2 ^ 31 →
    time = max 0 (((s.nodes i).key.toNat : Int) - s'.now.toNat)
  discarded : s'.nodes = s.nodes ∧ ∃ gone, stored s.heap = gone + stored s'.heap ∧
    ∀ i ∈ gone, (s.nodes i).deleted = true

/-- What `zv_handle_expire_timers` does and leaves. -/
structure ExpireExact (env : TimerEnv) (s s' : Timers η ρ) (fired : List (Expiry η ρ)) : Prop where
  calls : s'.calls = s.calls ++ fired
  once : (fired.map Expiry.node).Nodup
  due : ∀ e ∈ fired, s.Live e.node ∧ (s.nodes e.node).key ≤ e.clock ∧
    e.handler = (s.nodes e.node).handler ∧ e.rq = (s.nodes e.node).rq ∧
    ∃ k, s.reads ≤ k ∧ k < s'.reads ∧ e.clock = env.clock k
  others : ∀ i, s.Live i → (s'.Live i ↔ i ∉ fired.map Expiry.node)
  none_left : ∀ i, s'.Live i → s'.now < (s.nodes i).key
  last : s.reads < s'.reads → s'.now = env.clock (s'.reads - 1)

namespace TimerLemmas

instance timerComp_order (nodes : Nat → TimerNode η ρ) :
    IsStrictWeakOrder Nat fun i j => timerComp nodes i j = true where
  irrefl i := by simp [timerComp]
  trans i j k hij hjk := by
    simp only [timerComp, decide_eq_true_eq, UInt64.lt_iff_toNat_lt] at *
    exact Nat.lt_trans hij hjk
  incomp_trans i j k hij hjk := by
    simp only [timerComp, decide_eq_true_eq, UInt64.lt_iff_toNat_lt, Nat.not_lt] at *
    exact ⟨Nat.le_trans hjk.1 hij.1, Nat.le_trans hij.2 hjk.2⟩

/-- A queue stays right when the order of its own elements does. -/
theorem pqOk_congr {comp comp' : Nat → Nat → Bool} {q : PriorityQueue Nat} (h : PqOk comp q)
    (heq : ∀ i ∈ stored q, ∀ j ∈ stored q, comp i j = comp' i j) : PqOk comp' q := by
  refine ⟨fun k hk hkn hlt => ?_, h.room, h.size_eq, h.bound, h.tame⟩
  refine h.heap k hk hkn ?_
  show comp _ _ = true
  rw [heq _ (mem_contents.mpr ⟨k, by omega, hkn, rfl⟩) _
    (mem_contents.mpr ⟨k / 2, by omega, by omega, rfl⟩)]
  exact hlt

/-- The queue is right, its nodes are allocated and in it once, and the time is what the clock
showed last. -/
structure TimerOk (env : TimerEnv) (s : Timers η ρ) : Prop where
  heap : PqOk (timerComp s.nodes) s.heap
  below : ∀ i ∈ stored s.heap, i < s.count
  nodup : (stored s.heap).Nodup
  clock : s.now = env.clock (s.reads - 1)

theorem zvTimeUpdate_ok {env : TimerEnv} {s : Timers η ρ} (h : TimerOk env s) :
    TimerOk env (zvTimeUpdate env s) :=
  ⟨h.heap, h.below, h.nodup, rfl⟩

theorem zvTimerInit_ok {env : TimerEnv} {nodes : Nat → TimerNode η ρ} {s : Timers η ρ}
    (h : zvTimerInit env nodes = some s) : TimerOk env s := by
  obtain ⟨heap, hheap, rfl⟩ := Option.map_eq_some_iff.mp h
  have hsize : 8 * (ZV_PQ_DEFAULT_SIZE.toNat + 1) < 2 ^ 64 := by decide
  obtain ⟨hok, hzero⟩ := PriorityQueueLemmas.zvPqInit_ok (timerComp nodes) hsize hheap
  refine ⟨hok, fun i hi => ?_, ?_, rfl⟩
  · have hi' : i ∈ stored heap := hi
    rw [hzero] at hi'
    exact absurd hi' (Multiset.notMem_zero i)
  · show (stored heap).Nodup
    rw [hzero]
    exact Multiset.nodup_zero

/-- The node on the top leaves the queue. -/
theorem popTimer_ok {env : TimerEnv} {s : Timers η ρ} {node : Nat} (h : TimerOk env s)
    (hmin : zvPqMin s.heap = some node) :
    TimerOk env (popTimer env s) ∧ stored s.heap = node ::ₘ stored (popTimer env s).heap := by
  obtain ⟨hok, hsum⟩ := PriorityQueueLemmas.zvPqDelmin_spec h.heap (env.malloc s.reads)
  rw [hmin, Option.toList_some, Multiset.coe_singleton, Multiset.add_comm,
    Multiset.singleton_add] at hsum
  have hnodup := h.nodup
  rw [← hsum] at hnodup
  refine ⟨⟨hok, fun i hi => h.below i ?_, (Multiset.nodup_cons.mp hnodup).2, h.clock⟩, hsum.symm⟩
  rw [← hsum]
  exact Multiset.mem_cons_of_mem hi

theorem popTimer_nalloc {env : TimerEnv} {s : Timers η ρ} {node n : Nat} (h : TimerOk env s)
    (hmin : zvPqMin s.heap = some node) (hn : s.heap.nalloc ≤ n + 1) :
    (popTimer env s).heap.nalloc ≤ n := by
  have hcard := congrArg Multiset.card (popTimer_ok h hmin).2
  rw [Multiset.card_cons, stored, stored, card_contents, card_contents] at hcard
  omega

theorem zvPqMin_none {q : PriorityQueue Nat} (h : zvPqMin q = none) : stored q = 0 :=
  PriorityQueueLemmas.stored_eq_zero_iff.mpr h

theorem isEmpty_stored {q : PriorityQueue Nat} (h : zvPqIsEmpty q = true) : stored q = 0 := by
  refine zvPqMin_none ?_
  rw [zvPqMin, if_pos h]

theorem stored_nalloc_zero {q : PriorityQueue Nat} (h : q.nalloc ≤ 0) : stored q = 0 := by
  refine isEmpty_stored ?_
  rw [zvPqIsEmpty, Nat.le_zero.mp h]
  rfl

/-! ## Finding the next timer -/

/-- What the loop of `zv_find_timer` leaves: the nodes it took were marked, and it ends with an
empty queue or with a node that is not. -/
structure Found (env : TimerEnv) (s s' : Timers η ρ) (time : Int) : Prop where
  ok : TimerOk env s'
  frame : { s' with heap := s.heap, now := s.now, reads := s.reads } = s
  gone : ∃ gone, stored s.heap = gone + stored s'.heap ∧ ∀ i ∈ gone, (s.nodes i).deleted = true
  answer : (time = ZV_TIMER_INFINITE ∧ stored s'.heap = 0) ∨
    ∃ node, zvPqMin s'.heap = some node ∧ (s.nodes node).deleted = false ∧
      time = waitTime (s.nodes node).key s'.now

theorem Found.stop {env : TimerEnv} {s : Timers η ρ} (h : TimerOk env s) (h0 : stored s.heap = 0) :
    Found env s s ZV_TIMER_INFINITE :=
  ⟨h, rfl, ⟨0, (Multiset.zero_add _).symm, fun i hi => absurd hi (Multiset.notMem_zero i)⟩,
    Or.inl ⟨rfl, h0⟩⟩

/-- The difference of two times that are close. -/
theorem wrapInt_sub {key now : UInt64} (h1 : -2 ^ 31 ≤ (key.toNat : Int) - now.toNat)
    (h2 : (key.toNat : Int) - now.toNat < 2 ^ 31) :
    wrapInt (key - now).toNat = (key.toNat : Int) - now.toNat := by
  have hkey := key.toNat_lt
  have hnow := now.toNat_lt
  rw [UInt64.toNat_sub]
  unfold wrapInt
  rw [Int.bmod_def]
  omega

theorem waitTime_eq {key now : UInt64} (h1 : -2 ^ 31 ≤ (key.toNat : Int) - now.toNat)
    (h2 : (key.toNat : Int) - now.toNat < 2 ^ 31) :
    waitTime key now = max 0 ((key.toNat : Int) - now.toNat) := by
  unfold waitTime
  dsimp only
  rw [wrapInt_sub h1 h2, max_def_lt]

theorem waitTime_nonneg (key now : UInt64) : 0 ≤ waitTime key now := by
  unfold waitTime
  dsimp only
  split
  · next h => exact Int.le_of_lt h
  · exact Int.le_refl 0

theorem findLoop_found {env : TimerEnv} (n : Nat) {s : Timers η ρ} (h : TimerOk env s)
    (hn : s.heap.nalloc ≤ n) : Found env s (findLoop env n s).1 (findLoop env n s).2 := by
  induction n generalizing s with
  | zero => exact Found.stop h (stored_nalloc_zero hn)
  | succ n ih =>
    unfold findLoop
    split
    · next hempty => exact Found.stop h (isEmpty_stored hempty)
    dsimp only
    have hup := zvTimeUpdate_ok h
    cases hmin : zvPqMin (zvTimeUpdate env s).heap with
    | none =>
      exact ⟨hup, rfl, ⟨0, (Multiset.zero_add _).symm, fun i hi => absurd hi (Multiset.notMem_zero i)⟩,
        Or.inl ⟨rfl, zvPqMin_none hmin⟩⟩
    | some node =>
      dsimp only
      split
      · next hdel =>
        obtain ⟨hpop, hcons⟩ := popTimer_ok hup hmin
        have hfound := ih hpop (popTimer_nalloc hup hmin hn)
        obtain ⟨gone, hgone, hmarked⟩ := hfound.gone
        refine ⟨hfound.ok, ?_, ⟨node ::ₘ gone, ?_, fun i hi => ?_⟩, hfound.answer⟩
        · have hframe := hfound.frame
          exact congrArg (fun t : Timers η ρ => { t with heap := s.heap, now := s.now, reads := s.reads })
            hframe
        · rw [Multiset.cons_add, ← hgone]
          exact hcons
        · cases Multiset.mem_cons.mp hi with
          | inl heq =>
            rw [heq]
            exact hdel
          | inr hmem => exact hmarked i hmem
      · next hlive =>
        refine ⟨hup, rfl, ⟨0, (Multiset.zero_add _).symm,
          fun i hi => absurd hi (Multiset.notMem_zero i)⟩, Or.inr ⟨node, hmin, ?_, ?_⟩⟩
        · exact Bool.eq_false_of_not_eq_true hlive
        · dsimp only [zvTimeUpdate]

/-! ## Calling the handlers -/

/-- What the loop of `zv_handle_expire_timers` leaves, with the calls it made. -/
structure Fired (env : TimerEnv) (s s' : Timers η ρ) (fired : List (Expiry η ρ)) : Prop where
  ok : TimerOk env s'
  nodes : s'.nodes = s.nodes
  count : s'.count = s.count
  calls : s'.calls = s.calls ++ fired
  split : ∃ gone : Multiset Nat, stored s.heap = gone + (fired.map Expiry.node + stored s'.heap) ∧
    ∀ i ∈ gone, (s.nodes i).deleted = true
  due : ∀ e ∈ fired, (s.nodes e.node).deleted = false ∧ (s.nodes e.node).key ≤ e.clock ∧
    e.handler = (s.nodes e.node).handler ∧ e.rq = (s.nodes e.node).rq ∧
    ∃ k, s.reads ≤ k ∧ k < s'.reads ∧ e.clock = env.clock k
  left : ∀ i ∈ stored s'.heap, (s.nodes i).deleted = false → s'.now < (s.nodes i).key
  reads : s.reads ≤ s'.reads
  timer : ∀ rq, (∀ e ∈ fired, e.rq ≠ rq) → s'.timer rq = s.timer rq
  cleared : ∀ e ∈ fired, s'.timer e.rq = none

/-- The loop ends: nothing was called, and nothing that is stored is due. -/
theorem Fired.stop {env : TimerEnv} {s : Timers η ρ} {now : UInt64} {reads : Nat}
    (h : TimerOk env { s with now := now, reads := reads }) (hreads : s.reads ≤ reads)
    (hleft : ∀ i ∈ stored s.heap, (s.nodes i).deleted = false → now < (s.nodes i).key) :
    Fired env s { s with now := now, reads := reads } [] := by
  refine ⟨h, rfl, rfl, (List.append_nil _).symm, ⟨0, ?_, ?_⟩, ?_, hleft, hreads, fun _ _ => rfl, ?_⟩
  · simp
  · exact fun i hi => absurd hi (Multiset.notMem_zero i)
  · exact fun e he => absurd he List.not_mem_nil
  · exact fun e he => absurd he List.not_mem_nil

theorem nothing_left {s : Timers η ρ} {now : UInt64} (h : stored s.heap = 0) :
    ∀ i ∈ stored s.heap, (s.nodes i).deleted = false → now < (s.nodes i).key := by
  intro i hi
  rw [h] at hi
  exact absurd hi (Multiset.notMem_zero i)

variable [DecidableEq ρ]

theorem callHandler_ok {env : TimerEnv} {s : Timers η ρ} (h : TimerOk env s) (node : Nat) :
    TimerOk env (callHandler s node) :=
  ⟨h.heap, h.below, h.nodup, h.clock⟩

theorem expireLoop_fired {env : TimerEnv} (n : Nat) {s : Timers η ρ} (h : TimerOk env s)
    (hn : s.heap.nalloc ≤ n) : ∃ fired, Fired env s (expireLoop env n s) fired := by
  induction n generalizing s with
  | zero => exact ⟨[], Fired.stop h (Nat.le_refl _) (nothing_left (stored_nalloc_zero hn))⟩
  | succ n ih =>
    unfold expireLoop
    split
    · next hempty =>
      exact ⟨[], Fired.stop h (Nat.le_refl _) (nothing_left (isEmpty_stored hempty))⟩
    dsimp only
    have hup := zvTimeUpdate_ok h
    cases hmin : zvPqMin (zvTimeUpdate env s).heap with
    | none =>
      exact ⟨[], Fired.stop hup (Nat.le_succ _) (nothing_left (zvPqMin_none hmin))⟩
    | some node =>
      dsimp only
      split
      · next hdel =>
        -- a marked node is dropped
        obtain ⟨hpop, hcons⟩ := popTimer_ok hup hmin
        obtain ⟨fired, hf⟩ := ih hpop (popTimer_nalloc hup hmin hn)
        obtain ⟨gone, hgone, hmarked⟩ := hf.split
        refine ⟨fired, hf.ok, hf.nodes, hf.count, hf.calls, ⟨node ::ₘ gone, ?_, fun i hi => ?_⟩,
          fun e he => ?_, hf.left, Nat.le_of_succ_le hf.reads, hf.timer, hf.cleared⟩
        · rw [Multiset.cons_add, ← hgone]
          exact hcons
        · cases Multiset.mem_cons.mp hi with
          | inl heq =>
            rw [heq]
            exact hdel
          | inr hmem => exact hmarked i hmem
        · obtain ⟨h1, h2, h3, h4, k, hk1, hk2, hk3⟩ := hf.due e he
          exact ⟨h1, h2, h3, h4, k, Nat.le_of_succ_le hk1, hk2, hk3⟩
      split
      · next hlater =>
        -- the first node that is not marked is not due, and no other comes before it
        refine ⟨[], Fired.stop hup (Nat.le_succ _) fun i hi _ => ?_⟩
        have hleast := (PriorityQueueLemmas.zvPqMin_least hup.heap hmin).2 i hi
        have hle : ¬ (s.nodes i).key < (s.nodes node).key := of_decide_eq_false hleast
        rw [UInt64.lt_iff_toNat_lt] at hle ⊢
        exact Nat.lt_of_lt_of_le (UInt64.lt_iff_toNat_lt.mp hlater) (Nat.not_lt.mp hle)
      · next hlive hdue =>
        have hcall := callHandler_ok hup node
        obtain ⟨hpop, hcons⟩ := popTimer_ok hcall hmin
        obtain ⟨fired, hf⟩ := ih hpop (popTimer_nalloc hcall hmin hn)
        obtain ⟨gone, hgone, hmarked⟩ := hf.split
        refine ⟨⟨node, env.clock s.reads, (s.nodes node).handler, (s.nodes node).rq⟩ :: fired,
          hf.ok, hf.nodes, hf.count, ?_, ⟨gone, ?_, hmarked⟩, fun e he => ?_, hf.left,
          Nat.le_of_succ_le hf.reads, fun rq hrq => ?_, fun e he => ?_⟩
        · rw [hf.calls]
          show s.calls ++ [_] ++ fired = _
          rw [List.append_assoc]
          rfl
        · rw [List.map_cons, ← Multiset.cons_coe, Multiset.cons_add, Multiset.add_cons, ← hgone]
          exact hcons
        · cases List.mem_cons.mp he with
          | inl heq =>
            subst heq
            refine ⟨Bool.eq_false_of_not_eq_true hlive, ?_, rfl, rfl, s.reads, Nat.le_refl _,
              hf.reads, rfl⟩
            have hle : ¬ (zvTimeUpdate env s).now < (s.nodes node).key := hdue
            rw [UInt64.lt_iff_toNat_lt] at hle
            exact UInt64.le_iff_toNat_le.mpr (Nat.not_lt.mp hle)
          | inr hmem =>
            obtain ⟨h1, h2, h3, h4, k, hk1, hk2, hk3⟩ := hf.due e hmem
            exact ⟨h1, h2, h3, h4, k, Nat.le_of_succ_le hk1, hk2, hk3⟩
        · rw [hf.timer rq fun e he => hrq e (List.mem_cons_of_mem _ he)]
          exact if_neg fun heq => hrq _ List.mem_cons_self heq.symm
        · cases List.mem_cons.mp he with
          | inl heq =>
            subst heq
            by_cases hagain : ∀ e ∈ fired, e.rq ≠ (s.nodes node).rq
            · rw [hf.timer _ hagain]
              exact if_pos rfl
            · obtain ⟨e, hmem, heq⟩ : ∃ e ∈ fired, e.rq = (s.nodes node).rq := by
                by_contra hno
                exact hagain fun e he heq => hno ⟨e, he, heq⟩
              rw [← heq]
              exact hf.cleared e hmem
          | inr hmem => exact hf.cleared e hmem

/-! ## Runs -/

theorem zvAddTimer_ok {env : TimerEnv} {s : Timers η ρ} (h : TimerOk env s) (rq : ρ)
    (timeout : UInt64) (handler : η) : TimerOk env (zvAddTimer env s rq timeout handler) := by
  unfold zvAddTimer
  dsimp only
  generalize hnodes : (fun i => if i = (zvTimeUpdate env s).count then
    (⟨(zvTimeUpdate env s).now + timeout, false, handler, rq⟩ : TimerNode η ρ)
    else (zvTimeUpdate env s).nodes i) = nodes
  have hold : ∀ i ∈ stored s.heap, nodes i = s.nodes i := by
    intro i hi
    rw [← hnodes]
    exact if_neg (Nat.ne_of_lt (h.below i hi))
  have hheap : PqOk (timerComp nodes) s.heap := by
    refine pqOk_congr h.heap fun i hi j hj => ?_
    unfold timerComp
    rw [hold i hi, hold j hj]
  obtain ⟨hok, hstored⟩ := PriorityQueueLemmas.zvPqInsert_spec hheap s.count
    (env.malloc (zvTimeUpdate env s).reads)
  have hnew : s.count ∉ stored s.heap := fun hi => Nat.lt_irrefl _ (h.below _ hi)
  refine ⟨hok, fun i hi => ?_, ?_, rfl⟩
  · have hi' := hi
    dsimp only [zvTimeUpdate] at hi'
    rw [show (zvTimeUpdate env s).reads = s.reads + 1 from rfl] at hstored
    rw [hstored] at hi'
    show i < s.count + 1
    split at hi'
    · cases Multiset.mem_cons.mp hi' with
      | inl heq => exact heq ▸ Nat.lt_succ_self _
      | inr hmem => exact Nat.lt_succ_of_lt (h.below i hmem)
    · exact Nat.lt_succ_of_lt (h.below i hi')
  · show (stored (zvPqInsert (timerComp nodes) s.heap s.count _).1).Nodup
    rw [hstored]
    split
    · exact Multiset.nodup_cons.mpr ⟨hnew, h.nodup⟩
    · exact h.nodup

theorem zvDelTimer_ok {env : TimerEnv} {s s' : Timers η ρ} {rq : ρ} (h : TimerOk env s)
    (hdel : zvDelTimer env s rq = some s') : TimerOk env s' := by
  obtain ⟨node, -, rfl⟩ := Option.map_eq_some_iff.mp hdel
  refine ⟨pqOk_congr h.heap fun i _ j _ => ?_, h.below, h.nodup, rfl⟩
  have hkey : ∀ k, (if k = node then { s.nodes k with deleted := true } else s.nodes k).key =
      (s.nodes k).key := by
    intro k
    split
    · rfl
    · rfl
  unfold timerComp
  show _ = decide ((if i = node then { s.nodes i with deleted := true } else s.nodes i).key <
    (if j = node then { s.nodes j with deleted := true } else s.nodes j).key)
  rw [hkey i, hkey j]

theorem timerStep_ok {env : TimerEnv} {s s' : Timers η ρ} {a : TimerAct η ρ} (h : TimerOk env s)
    (hstep : timerStep env s a = some s') : TimerOk env s' := by
  cases a with
  | add rq timeout handler =>
    obtain rfl := Option.some.inj hstep
    exact zvAddTimer_ok h rq timeout handler
  | del rq => exact zvDelTimer_ok h hstep
  | find =>
    obtain rfl := Option.some.inj hstep
    exact (findLoop_found _ h (Nat.le_refl _)).ok
  | expire =>
    obtain rfl := Option.some.inj hstep
    obtain ⟨fired, hf⟩ := expireLoop_fired _ h (Nat.le_refl _)
    exact hf.ok

omit [DecidableEq ρ] in
theorem Found.exact {env : TimerEnv} {s s' : Timers η ρ} {time : Int}
    (h : Found env s s' time) : FindExact s s' time := by
  obtain ⟨gone, hgone, hmarked⟩ := h.gone
  have hnodes : s'.nodes = s.nodes := by
    have hframe := congrArg Timers.nodes h.frame
    exact hframe
  -- a node that is not marked stays
  have hstays : ∀ i, s.Live i → i ∈ stored s'.heap := by
    rintro i ⟨hi, hlive⟩
    rw [hgone] at hi
    cases Multiset.mem_add.mp hi with
    | inl hi =>
      rw [hmarked i hi] at hlive
      cases hlive
    | inr hi => exact hi
  rcases h.answer with ⟨rfl, hzero⟩ | ⟨node, hmin, hlive, hanswer⟩
  · have hnone : ∀ i, ¬ s.Live i := by
      intro i hi
      have hmem := hstays i hi
      rw [hzero] at hmem
      exact Multiset.notMem_zero i hmem
    exact ⟨⟨fun _ => hnone, fun _ => rfl⟩, fun i hi => absurd hi (hnone i),
      hnodes, gone, hgone, hmarked⟩
  · have hleast := PriorityQueueLemmas.zvPqMin_least h.ok.heap hmin
    have hnode : s.Live node := by
      refine ⟨?_, hlive⟩
      rw [hgone]
      exact Multiset.mem_add.mpr (Or.inr hleast.1)
    refine ⟨⟨fun htime => ?_, fun hnone => absurd hnode (hnone node)⟩, fun i hi hfirst h1 h2 => ?_,
      hnodes, gone, hgone, hmarked⟩
    · have hpos := waitTime_nonneg (s.nodes node).key s'.now
      rw [← hanswer, htime] at hpos
      exact absurd hpos (by decide)
    · have hle : ¬ (s'.nodes i).key < (s'.nodes node).key :=
        of_decide_eq_false (hleast.2 i (hstays i hi))
      rw [hnodes, UInt64.lt_iff_toNat_lt] at hle
      have hkey : (s.nodes node).key = (s.nodes i).key := UInt64.toNat_inj.mp
        (Nat.le_antisymm (Nat.not_lt.mp hle) (UInt64.le_iff_toNat_le.mp (hfirst node hnode)))
      rw [hanswer, hkey]
      exact waitTime_eq h1 h2

omit [DecidableEq ρ] in
theorem Fired.exact {env : TimerEnv} {s s' : Timers η ρ} {fired : List (Expiry η ρ)}
    (hs : TimerOk env s) (h : Fired env s s' fired) : ExpireExact env s s' fired := by
  obtain ⟨gone, hsplit, hmarked⟩ := h.split
  have hnodup := hs.nodup
  rw [hsplit, Multiset.nodup_add] at hnodup
  obtain ⟨-, hrest, -⟩ := hnodup
  obtain ⟨honce, -, hdisj⟩ := Multiset.nodup_add.mp hrest
  refine ⟨h.calls, Multiset.coe_nodup.mp honce, fun e he => ?_, fun i hi => ?_, fun i hi => ?_,
    fun _ => h.ok.clock⟩
  · obtain ⟨hlive, hdue, hhandler, hrq, hclock⟩ := h.due e he
    refine ⟨⟨?_, hlive⟩, hdue, hhandler, hrq, hclock⟩
    rw [hsplit]
    refine Multiset.mem_add.mpr (Or.inr (Multiset.mem_add.mpr (Or.inl ?_)))
    exact List.mem_map_of_mem he
  · constructor
    · intro hi' hfired
      exact Multiset.disjoint_left.mp hdisj hfired hi'.1
    · intro hno
      refine ⟨?_, by rw [h.nodes]; exact hi.2⟩
      have hmem := hi.1
      rw [hsplit] at hmem
      rcases Multiset.mem_add.mp hmem with hgone | hmem
      · have hlive := hi.2
        rw [hmarked i hgone] at hlive
        cases hlive
      · cases Multiset.mem_add.mp hmem with
        | inl hf => exact absurd hf hno
        | inr hmem => exact hmem
  · have hlive := hi.2
    rw [h.nodes] at hlive
    exact h.left i hi.1 hlive

end TimerLemmas

open TimerLemmas

/-- In every state that calls of `timer.c` can reach, whatever the clock shows and whichever
allocations of the queue fail, `zv_find_timer` answers with the time until the first node
that is not marked, and `zv_handle_expire_timers` calls the handlers of the nodes that are
due, once each, and of no other node. -/
theorem timers_exact [DecidableEq ρ] (env : TimerEnv) (nodes : Nat → TimerNode η ρ)
    {s0 s : Timers η ρ} (hinit : zvTimerInit env nodes = some s0) (acts : List (TimerAct η ρ))
    (hrun : run (timerStep env) s0 acts = some s) :
    FindExact s (zvFindTimer env s).1 (zvFindTimer env s).2 ∧
      ∃ fired, ExpireExact env s (zvHandleExpireTimers env s) fired := by
  have hok : TimerOk env s :=
    run_invariant (fun _ _ _ h hstep => timerStep_ok h hstep) (zvTimerInit_ok hinit) hrun
  obtain ⟨fired, hf⟩ := expireLoop_fired _ hok (Nat.le_refl _)
  exact ⟨(findLoop_found _ hok (Nat.le_refl _)).exact, fired, hf.exact hok⟩

/-- A clock that shows the number of its readings. -/
def countingEnv : TimerEnv := { clock := fun n => UInt64.ofNat n, malloc := fun _ => some fun _ => 0 }

/-- Three timers, one of which is given up. -/
def threeTimers : List (TimerAct Unit Nat) :=
  [.add 1 50 (), .add 2 2 (), .add 3 9 (), .del 2]

theorem timers_exact_three :
    ∃ s0 s : Timers Unit Nat, zvTimerInit countingEnv (fun _ => ⟨0, false, (), 0⟩) = some s0 ∧
      run (timerStep countingEnv) s0 threeTimers = some s ∧ (zvFindTimer countingEnv s).2 = 6 ∧
      FindExact s (zvFindTimer countingEnv s).1 (zvFindTimer countingEnv s).2 ∧
      ∃ fired, ExpireExact countingEnv s (zvHandleExpireTimers countingEnv s) fired := by
  obtain ⟨s, hs⟩ : ∃ s, run (timerStep countingEnv)
      (zvTimeUpdate countingEnv
        { heap := ⟨fun _ => 0, 0, 11, 11, false⟩, nodes := fun _ => ⟨0, false, (), 0⟩, count := 0
          timer := fun _ => none, now := 0, reads := 0, calls := [] }) threeTimers = some s :=
    ⟨_, rfl⟩
  have hfind : (zvFindTimer countingEnv s).2 = 6 := by
    obtain rfl := Option.some.inj hs
    decide +kernel
  exact ⟨_, s, rfl, hs, hfind, timers_exact countingEnv _ rfl threeTimers hs⟩

end Zaver
