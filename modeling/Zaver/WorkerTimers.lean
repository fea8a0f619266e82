import Zaver.Worker

/-!
# The timers of the blocks

`Owned` says that the timers and the blocks are one to one: the blocks that have a timer, and no
others, have a node, which is not marked, is theirs, and was made for the connection that is in
the block; and every node of the queue that is not marked is the node of its block. It is
kept by each call of `timer.c` that the worker makes, for the blocks that have a timer after it.
-/

namespace Zaver

open TimerLemmas BinaryHeap

/-- The timers of the blocks `has`. `serial` is the connection in a block, `armer` the one that a
node was made for; a queue that did not get its memory may miss a node. -/
structure Owned (env : TimerEnv) (t : Timers Unit Nat) (serial armer : Nat → Nat) (starved : Bool)
    (has : Set Nat) : Prop where
  ok : TimerOk env t
  has_iff : ∀ r, r ∈ has ↔ ∃ n, t.timer r = some n
  node : ∀ r n, t.timer r = some n → n < t.count ∧ (t.nodes n).deleted = false ∧
    (t.nodes n).rq = r ∧ armer n = serial r
  stored : starved = false → ∀ r n, t.timer r = some n → n ∈ Zaver.stored t.heap
  live : ∀ n ∈ Zaver.stored t.heap, (t.nodes n).deleted = false → t.timer (t.nodes n).rq = some n

namespace WorkerTimersLemmas

variable {env : TimerEnv} {t t' : Timers Unit Nat} {serial armer : Nat → Nat} {starved : Bool}
  {has : Set Nat} {r : Nat}

/-- Nodes leave the queue that are marked. -/
theorem owned_shrink (h : Owned env t serial armer starved has) (hok : TimerOk env t')
    (hnodes : t'.nodes = t.nodes) (hcount : t'.count = t.count) (htimer : t'.timer = t.timer)
    (hgone : ∀ n ∈ stored t.heap, (t.nodes n).deleted = false → n ∈ stored t'.heap)
    (hsub : ∀ n ∈ stored t'.heap, n ∈ stored t.heap) :
    Owned env t' serial armer starved has := by
  refine ⟨hok, ?_, ?_, fun hs r n hn => ?_, fun n hn hd => ?_⟩
  · rw [htimer]
    exact h.has_iff
  · rw [hnodes, hcount, htimer]
    exact h.node
  · rw [htimer] at hn
    exact hgone n (h.stored hs r n hn) (h.node r n hn).2.1
  · rw [hnodes] at hd ⊢
    rw [htimer]
    exact h.live n (hsub n hn) hd

theorem owned_tick (h : Owned env t serial armer starved has) :
    Owned env (zvTimeUpdate env t) serial armer starved has :=
  ⟨zvTimeUpdate_ok h.ok, h.has_iff, h.node, h.stored, h.live⟩

theorem owned_find (h : Owned env t serial armer starved has) :
    Owned env (zvFindTimer env t).1 serial armer starved has := by
  have hfound := findLoop_found _ h.ok (Nat.le_refl _)
  obtain ⟨gone, hgone, hmarked⟩ := hfound.gone
  have hnodes := congrArg Timers.nodes hfound.frame
  have hcount := congrArg Timers.count hfound.frame
  have htimer := congrArg Timers.timer hfound.frame
  refine owned_shrink h hfound.ok hnodes hcount htimer (fun n hn hd => ?_) fun n hn => ?_
  · rw [hgone] at hn
    cases Multiset.mem_add.mp hn with
    | inl hn => cases hd.symm.trans (hmarked n hn)
    | inr hn => exact hn
  · rw [hgone]
    exact Multiset.mem_add.mpr (.inr hn)

/-- A marked node leaves the queue. -/
theorem owned_pop (h : Owned env t serial armer starved has) {node : Nat}
    (hmin : zvPqMin t.heap = some node) (hd : (t.nodes node).deleted = true) :
    Owned env (popTimer env t) serial armer starved has := by
  obtain ⟨hok, hcons⟩ := popTimer_ok h.ok hmin
  refine owned_shrink h hok rfl rfl rfl (fun n hn hd' => ?_) fun n hn => ?_
  · rw [hcons] at hn
    cases Multiset.mem_cons.mp hn with
    | inl heq =>
      rw [heq] at hd'
      cases hd.symm.trans hd'
    | inr hn => exact hn
  · rw [hcons]
    exact Multiset.mem_cons_of_mem hn

/-- The round of `zv_handle_expire_timers`. -/
inductive Rounds (env : TimerEnv) (t : Timers Unit Nat) : Timers Unit Nat × Round → Prop
  | empty : Rounds env t (t, .ended)
  | later : Rounds env t (zvTimeUpdate env t, .ended)
  | marked (node : Nat) : zvPqMin t.heap = some node → (t.nodes node).deleted = true →
      Rounds env t (popTimer env (zvTimeUpdate env t), .marked)
  | due (node : Nat) : zvPqMin t.heap = some node → (t.nodes node).deleted = false →
      (t.nodes node).key ≤ env.clock t.reads → Rounds env t (zvTimeUpdate env t, .due node)

theorem expireRound_cases (env : TimerEnv) (t : Timers Unit Nat) :
    Rounds env t (expireRound env t) := by
  unfold expireRound
  split
  · exact .empty
  · dsimp only
    cases hmin : zvPqMin (zvTimeUpdate env t).heap with
    | none => exact .later
    | some node =>
      dsimp only
      split
      · next hd => exact .marked node hmin hd
      · next hd =>
        split
        · exact .later
        · next hkey =>
          refine .due node hmin (Bool.eq_false_of_not_eq_true hd) ?_
          exact UInt64.not_lt.mp hkey

/-- A node whose handler was called leaves the queue, and its block has no timer. -/
theorem owned_expire (h : Owned env t serial armer starved has) {node : Nat}
    (hmin : zvPqMin t.heap = some node) (hd : (t.nodes node).deleted = false) :
    t.timer (t.nodes node).rq = some node ∧
      Owned env (popTimer env (callHandler t node)) serial armer starved
        (has \ {(t.nodes node).rq}) := by
  have hcall := callHandler_ok h.ok node
  obtain ⟨hok, hcons⟩ := popTimer_ok (s := callHandler t node) hcall hmin
  have hcons' : stored t.heap = node ::ₘ stored (popTimer env (callHandler t node)).heap := hcons
  have hmem : node ∈ stored t.heap := by
    rw [hcons']
    exact Multiset.mem_cons_self _ _
  have hmine := h.live node hmem hd
  have hnodup := h.ok.nodup
  rw [hcons'] at hnodup
  have hout := (Multiset.nodup_cons.mp hnodup).1
  -- the other blocks have their timers
  have htimer : ∀ r', r' ≠ (t.nodes node).rq →
      (popTimer env (callHandler t node)).timer r' = t.timer r' := fun r' hne => if_neg hne
  have hnone : (popTimer env (callHandler t node)).timer (t.nodes node).rq = none := if_pos rfl
  have hsome : ∀ r' n, (popTimer env (callHandler t node)).timer r' = some n →
      r' ≠ (t.nodes node).rq ∧ t.timer r' = some n := by
    intro r' n hn
    have hne : r' ≠ (t.nodes node).rq := by
      rintro rfl
      cases hnone.symm.trans hn
    exact ⟨hne, (htimer r' hne).symm.trans hn⟩
  refine ⟨hmine, hok, fun r' => ?_, fun r' n hn => ?_, fun hs r' n hn => ?_, fun n hn hd' => ?_⟩
  · constructor
    · rintro ⟨hr', hne⟩
      rw [htimer r' hne]
      exact (h.has_iff r').mp hr'
    · rintro ⟨n, hn⟩
      obtain ⟨hne, hn'⟩ := hsome r' n hn
      exact ⟨(h.has_iff r').mpr ⟨n, hn'⟩, hne⟩
  · exact h.node r' n (hsome r' n hn).2
  · obtain ⟨hne, hn'⟩ := hsome r' n hn
    have hold := h.stored hs r' n hn'
    rw [hcons'] at hold
    cases Multiset.mem_cons.mp hold with
    | inl heq =>
      rw [heq] at hn'
      exact absurd (h.node r' node hn').2.2.1.symm hne
    | inr hn => exact hn
  · have hn' : n ∈ stored t.heap := by
      rw [hcons']
      exact Multiset.mem_cons_of_mem hn
    have hnode := h.live n hn' hd'
    have hne : (t.nodes n).rq ≠ (t.nodes node).rq := by
      intro heq
      rw [heq, hmine] at hnode
      exact hout (Option.some.inj hnode ▸ hn)
    exact (htimer _ hne).trans hnode

/-- `zv_del_timer` finds the node of the block, and marks it. -/
theorem owned_del (h : Owned env t serial armer starved has) (hr : r ∈ has) :
    ∃ t', zvDelTimer env t r = some t' ∧ Owned env t' serial armer starved (has \ {r}) := by
  obtain ⟨node, hnode⟩ := (h.has_iff r).mp hr
  have hdel : zvDelTimer env t r = some
      { zvTimeUpdate env t with
        nodes := fun i => if i = node then { t.nodes i with deleted := true } else t.nodes i
        timer := fun rq => if rq = r then none else t.timer rq } := by
    unfold zvDelTimer
    show (t.timer r).map _ = _
    rw [hnode]
    rfl
  refine ⟨_, hdel, ?_⟩
  have hok := zvDelTimer_ok h.ok hdel
  have hsome : ∀ r' n, (if r' = r then none else t.timer r') = some n → r' ≠ r ∧ t.timer r' = some n := by
    intro r' n hn
    split at hn
    · cases hn
    · next hne => exact ⟨hne, hn⟩
  have hother : ∀ r' n, r' ≠ r → t.timer r' = some n → n ≠ node := by
    rintro r' n hne hn rfl
    exact hne ((h.node r' n hn).2.2.1.symm.trans (h.node r n hnode).2.2.1)
  have hkeep : ∀ n, n ≠ node →
      (if n = node then { t.nodes n with deleted := true } else t.nodes n) = t.nodes n :=
    fun n hne => if_neg hne
  refine ⟨hok, fun r' => ?_, fun r' n hn => ?_, fun hs r' n hn => ?_, fun n hn hd => ?_⟩
  · constructor
    · rintro ⟨hr', hne⟩
      obtain ⟨n, hn⟩ := (h.has_iff r').mp hr'
      exact ⟨n, (if_neg hne).trans hn⟩
    · rintro ⟨n, hn⟩
      obtain ⟨hne, hn'⟩ := hsome r' n hn
      exact ⟨(h.has_iff r').mpr ⟨n, hn'⟩, hne⟩
  · obtain ⟨hne, hn'⟩ := hsome r' n hn
    dsimp only
    rw [hkeep n (hother r' n hne hn')]
    exact h.node r' n hn'
  · exact h.stored hs r' n (hsome r' n hn).2
  · dsimp only at hd ⊢
    have hne : n ≠ node := by
      rintro rfl
      rw [if_pos rfl] at hd
      cases hd
    rw [hkeep n hne] at hd ⊢
    have hlive := h.live n hn hd
    have hner : (t.nodes n).rq ≠ r := by
      intro heq
      rw [heq, hnode] at hlive
      exact hne (Option.some.inj hlive).symm
    exact (if_neg hner).trans hlive

/-- What the queue holds after `zv_add_timer`. -/
theorem addTimer_stored (h : TimerOk env t) (r : Nat) (timeout : UInt64) :
    (∀ n ∈ stored (zvAddTimer env t r timeout ()).heap, n = t.count ∨ n ∈ stored t.heap) ∧
      (∀ n ∈ stored t.heap, n ∈ stored (zvAddTimer env t r timeout ()).heap) ∧
      ((zvAddTimer env t r timeout ()).heap.nalloc ≠ t.heap.nalloc →
        t.count ∈ stored (zvAddTimer env t r timeout ()).heap) := by
  unfold zvAddTimer
  dsimp only
  generalize hnodes : (fun i => if i = (zvTimeUpdate env t).count then
    (⟨(zvTimeUpdate env t).now + timeout, false, (), r⟩ : TimerNode Unit Nat)
    else (zvTimeUpdate env t).nodes i) = nodes
  have hheap : PqOk (timerComp nodes) t.heap := by
    refine pqOk_congr h.heap fun i hi j hj => ?_
    have hi' : nodes i = t.nodes i := by
      rw [← hnodes]
      exact if_neg (Nat.ne_of_lt (h.below i hi))
    have hj' : nodes j = t.nodes j := by
      rw [← hnodes]
      exact if_neg (Nat.ne_of_lt (h.below j hj))
    unfold timerComp
    rw [hi', hj']
  obtain ⟨-, hstored⟩ := PriorityQueueLemmas.zvPqInsert_spec hheap t.count
    (env.malloc (zvTimeUpdate env t).reads)
  show (∀ n ∈ stored (zvPqInsert (timerComp nodes) t.heap t.count _).1, _) ∧
    (∀ n ∈ stored t.heap, n ∈ stored (zvPqInsert (timerComp nodes) t.heap t.count _).1) ∧
    ((zvPqInsert (timerComp nodes) t.heap t.count _).1.nalloc ≠ _ →
      _ ∈ stored (zvPqInsert (timerComp nodes) t.heap t.count _).1)
  have hcard := congrArg Multiset.card hstored
  rw [stored, card_contents] at hcard
  rw [hstored]
  split at hcard
  · next hres =>
    rw [if_pos hres]
    exact ⟨fun n hn => Multiset.mem_cons.mp hn, fun n hn => Multiset.mem_cons_of_mem hn,
      fun _ => Multiset.mem_cons_self _ _⟩
  · next hres =>
    rw [if_neg hres]
    rw [stored, card_contents] at hcard
    exact ⟨fun n hn => .inr hn, fun n hn => hn, fun hne => absurd hcard hne⟩

/-- `zv_add_timer` gives a node to a block that has none. -/
theorem owned_add (h : Owned env t serial armer starved has) (hr : r ∉ has) (timeout : UInt64) :
    Owned env (zvAddTimer env t r timeout ()) serial (Function.update armer t.count (serial r))
      (starved || (zvAddTimer env t r timeout ()).heap.nalloc == t.heap.nalloc) (insert r has) := by
  obtain ⟨hnew, hold, hroom⟩ := addTimer_stored h.ok r timeout
  have hok := zvAddTimer_ok h.ok r timeout ()
  have hcount : (zvAddTimer env t r timeout ()).count = t.count + 1 := rfl
  have hself : (zvAddTimer env t r timeout ()).timer r = some t.count := if_pos rfl
  have htimer : ∀ r', r' ≠ r → (zvAddTimer env t r timeout ()).timer r' = t.timer r' :=
    fun r' hne => if_neg hne
  have hnode : (zvAddTimer env t r timeout ()).nodes t.count =
      ⟨env.clock t.reads + timeout, false, (), r⟩ := if_pos rfl
  have hnodes : ∀ n, n ≠ t.count → (zvAddTimer env t r timeout ()).nodes n = t.nodes n :=
    fun n hne => if_neg hne
  have hlt : ∀ r' n, t.timer r' = some n → n ≠ t.count :=
    fun r' n hn => Nat.ne_of_lt (h.node r' n hn).1
  generalize zvAddTimer env t r timeout () = t' at hnew hold hroom hok hcount hself htimer hnode hnodes
  refine ⟨hok, fun r' => ?_, fun r' n hn => ?_, fun hs r' n hn => ?_, fun n hn hd => ?_⟩
  · by_cases heq : r' = r
    · subst heq
      exact ⟨fun _ => ⟨t.count, hself⟩, fun _ => Set.mem_insert _ _⟩
    · rw [htimer r' heq, Set.mem_insert_iff, or_iff_right heq]
      exact h.has_iff r'
  · by_cases heq : r' = r
    · subst heq
      obtain rfl := Option.some.inj (hself.symm.trans hn)
      rw [hnode, Function.update_self, hcount]
      exact ⟨Nat.lt_succ_self _, rfl, rfl, rfl⟩
    · rw [htimer r' heq] at hn
      obtain ⟨hlt', hd, hrq, harm⟩ := h.node r' n hn
      rw [hnodes n (hlt r' n hn), Function.update_of_ne (hlt r' n hn), hcount]
      exact ⟨Nat.lt_succ_of_lt hlt', hd, hrq, harm⟩
  · obtain ⟨hs, hgrown⟩ := Bool.or_eq_false_iff.mp hs
    by_cases heq : r' = r
    · subst heq
      obtain rfl := Option.some.inj (hself.symm.trans hn)
      exact hroom (beq_eq_false_iff_ne.mp hgrown)
    · rw [htimer r' heq] at hn
      exact hold n (h.stored hs r' n hn)
  · by_cases heq : n = t.count
    · subst heq
      rw [hnode]
      exact hself
    · rw [hnodes n heq] at hd ⊢
      cases hnew n hn with
      | inl hx => exact absurd hx heq
      | inr hn =>
        have hlive := h.live n hn hd
        have hne : (t.nodes n).rq ≠ r := by
          intro hx
          rw [hx] at hlive
          exact hr ((h.has_iff r).mpr ⟨n, hlive⟩)
        rw [htimer _ hne]
        exact hlive

/-- A block without a timer is cleared, and gets another connection. -/
theorem owned_clear (h : Owned env t serial armer starved has) (hr : r ∉ has) :
    t.clear r = t := by
  have hnone : t.timer r = none := by
    cases ht : t.timer r with
    | none => rfl
    | some n => exact absurd ((h.has_iff r).mpr ⟨n, ht⟩) hr
  unfold Timers.clear
  rw [← hnone, Function.update_eq_self]

theorem owned_serial (h : Owned env t serial armer starved has) (hr : r ∉ has) (k : Nat) :
    Owned env t (Function.update serial r k) armer starved has := by
  refine ⟨h.ok, h.has_iff, fun r' n hn => ?_, h.stored, h.live⟩
  have hne : r' ≠ r := by
    rintro rfl
    exact hr ((h.has_iff r').mpr ⟨n, hn⟩)
  rw [Function.update_of_ne hne]
  exact h.node r' n hn

theorem owned_init {nodes : Nat → TimerNode Unit Nat} (h : zvTimerInit env nodes = some t) :
    Owned env t serial armer starved ∅ := by
  have hok := zvTimerInit_ok h
  obtain ⟨heap, hheap, rfl⟩ := Option.map_eq_some_iff.mp h
  have hzero : stored heap = 0 :=
    (PriorityQueueLemmas.zvPqInit_ok (timerComp nodes) (by decide) hheap).2
  refine ⟨hok, fun r => ⟨(fun hr => by cases hr), ?_⟩, (fun r n hn => by cases hn),
    (fun _ r n hn => by cases hn), fun n hn => ?_⟩
  · rintro ⟨n, hn⟩
    cases hn
  · have hn' : n ∈ stored heap := hn
    rw [hzero] at hn'
    exact absurd hn' (Multiset.notMem_zero n)

end WorkerTimersLemmas

end Zaver
