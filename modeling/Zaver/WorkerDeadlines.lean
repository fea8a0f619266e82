import Zaver.WorkerIsolation

/-!
# The deadlines of a worker

The deadline of a connection is what the last `zv_add_timer` read of the clock, and the time that was
asked for (`Armed`). The worker does not go to sleep over a deadline: when it has handled its
events no deadline has passed that it could see (`CaughtUp`), and the time for which it waits is not
longer than that to any deadline (`deadlines_kept`).
-/

namespace Zaver

open Runs ConnectionLemmas CallbacksLemmas PersistenceLemmas TimerLemmas WorkerEventsLemmas
open WorkerTimersLemmas WorkerRunsLemmas WorkerLedgerLemmas WorkerIsolationLemmas

/-! ## Invariants -/

/-- The last call of the timer module for a connection. -/
def lastMark (c : Conn) : Option Call := (marksOf c.tr).getLast?

/-- The timer of a connection ends at the time that its last `zv_add_timer` asked for, counted from
what this call read of the clock. -/
def Armed (env : TimerEnv) (w : Worker) : Prop :=
  ∀ r n, (w.conns r).isOpen = true → w.timers.timer r = some n → ∃ ms,
    w.armedAt r < w.timers.reads ∧ lastMark (w.conns r) = some (.addTimer ms) ∧
    (w.timers.nodes n).key = env.clock (w.armedAt r) + UInt64.ofNat ms

/-- No deadline in the queue has passed at the last reading of the clock. -/
def NothingDue (t : Timers Unit Nat) : Prop := ∀ n, t.Live n → t.now < (t.nodes n).key

/-- Between the last round of the timers and the next events no deadline has passed. -/
def CaughtUp (w : Worker) : Prop := w.stage = .waiting ∨ w.stage = .flushing → NothingDue w.timers

namespace WorkerDeadlinesLemmas

variable {lib : Libc} {cf : Conf} {env : TimerEnv} {w w' : Worker} {r : Nat}

/-! ### Rounds of the timers -/

/-- The rounds end when nothing is due. -/
theorem expireRound_ended {t t' : Timers Unit Nat} (hok : TimerOk env t)
    (h : expireRound env t = (t', .ended)) : NothingDue t' := by
  have hempty : ∀ s : Timers Unit Nat, stored s.heap = 0 → NothingDue s := by
    intro s hs n hn
    have hmem := hn.1
    rw [hs] at hmem
    exact absurd hmem (Multiset.notMem_zero n)
  unfold expireRound at h
  split at h
  · next he =>
    obtain ⟨rfl, -⟩ := Prod.mk.inj h
    exact hempty t (isEmpty_stored he)
  · have hup := zvTimeUpdate_ok hok
    dsimp only at h
    cases hmin : zvPqMin (zvTimeUpdate env t).heap with
    | none =>
      rw [hmin] at h
      obtain ⟨rfl, -⟩ := Prod.mk.inj h
      exact hempty _ (zvPqMin_none hmin)
    | some node =>
      rw [hmin] at h
      dsimp only at h
      split at h
      · cases (Prod.mk.inj h).2
      · split at h
        · next hkey =>
          obtain ⟨rfl, -⟩ := Prod.mk.inj h
          intro n hn
          -- every node is at or behind the first one
          have hleast := (PriorityQueueLemmas.zvPqMin_least hup.heap hmin).2 n hn.1
          have hle : ¬ ((zvTimeUpdate env t).nodes n).key < ((zvTimeUpdate env t).nodes node).key :=
            of_decide_eq_false hleast
          exact UInt64.lt_of_lt_of_le hkey (UInt64.not_lt.mp hle)
        · cases (Prod.mk.inj h).2

theorem expireEnd_due {reaped : Bool} (hok : WorkerOk lib env w)
    (hstep : workerStep lib cf env w (.expire reaped) = some w') (hs : w'.stage = .flushing) :
    NothingDue w'.timers := by
  simp only [workerStep] at hstep
  split at hstep
  · next hbatch =>
    split at hstep
    · next t ht =>
      obtain rfl := Option.some.inj hstep
      exact expireRound_ended hok.timers.ok ht
    · next t ht =>
      obtain rfl := Option.some.inj hstep
      cases hbatch.symm.trans hs
    · next t node ht =>
      obtain rfl := Option.some.inj hstep
      have hsame : (settleConn env (t.nodes node).rq (zvHttpCloseConn reaped
          (w.conns (t.nodes node).rq)) { w with timers := callHandler t node }).stage = w.stage :=
        settle_stage env _ _ _ _
      cases (hsame.trans hbatch).symm.trans hs
  · cases hstep

/-- The clock is only read. -/
theorem findLoop_reads (n : Nat) (t : Timers Unit Nat) : t.reads ≤ (findLoop env n t).1.reads := by
  induction n generalizing t with
  | zero => exact Nat.le_refl _
  | succ n ih =>
    unfold findLoop
    split
    · exact Nat.le_refl _
    · dsimp only
      split
      · exact Nat.le_succ _
      · split
        · exact (Nat.le_succ _).trans (ih (popTimer env (zvTimeUpdate env t)))
        · exact Nat.le_succ _

/-! ### Arming -/

/-- A block gives its timer up. -/
theorem del_frame {t t' : Timers Unit Nat} (h : zvDelTimer env t r = some t') :
    (∀ n, (t'.nodes n).key = (t.nodes n).key) ∧ (∀ r', r' ≠ r → t'.timer r' = t.timer r') ∧
      t'.count = t.count ∧ t.reads ≤ t'.reads := by
  unfold zvDelTimer at h
  obtain ⟨node, -, rfl⟩ := Option.map_eq_some_iff.mp h
  refine ⟨fun n => ?_, fun r' hne => if_neg hne, rfl, Nat.le_succ _⟩
  dsimp only
  split
  · rfl
  · rfl

/-- A block gets a timer. -/
theorem add_frame (env : TimerEnv) (t : Timers Unit Nat) (r : Nat) (timeout : UInt64) :
    (∀ n, n ≠ t.count → (zvAddTimer env t r timeout ()).nodes n = t.nodes n) ∧
      (∀ r', r' ≠ r → (zvAddTimer env t r timeout ()).timer r' = t.timer r') ∧
      (zvAddTimer env t r timeout ()).timer r = some t.count ∧
      ((zvAddTimer env t r timeout ()).nodes t.count).key = env.clock t.reads + timeout ∧
      (zvAddTimer env t r timeout ()).reads = t.reads + 1 := by
  refine ⟨fun n hne => if_neg hne, fun r' hne => if_neg hne, if_pos rfl, ?_, rfl⟩
  exact congrArg TimerNode.key (if_pos rfl)

/-- Only the block that asks for a timer gets another reading. -/
theorem settle_armedAt (env : TimerEnv) (w : Worker) (r : Nat) (c : Conn) (calls : List Call)
    {n : Nat} (hn : n ≠ r) : (settle env r c calls w).armedAt n = w.armedAt n := by
  refine marks_keep (fun w => w.armedAt n) (fun w x => ?_) _ _
  cases x with
  | delTimer =>
    simp only [mark]
    split
    · rfl
    · rfl
  | addTimer ms => exact Function.update_of_ne hn _ _
  | _ => rfl

/-- One block changes. -/
theorem armed_update (hok : WorkerOk lib env w) (h : Armed env w)
    (hconns : ∀ n, n ≠ r → w'.conns n = w.conns n)
    (htimer : ∀ n, n ≠ r → w'.timers.timer n = w.timers.timer n)
    (hkeys : ∀ n, n < w.timers.count → (w'.timers.nodes n).key = (w.timers.nodes n).key)
    (hreads : w.timers.reads ≤ w'.timers.reads)
    (hat : ∀ n, n ≠ r → w'.armedAt n = w.armedAt n)
    (hself : (w'.conns r).isOpen = true → ∀ n, w'.timers.timer r = some n → ∃ ms,
      w'.armedAt r < w'.timers.reads ∧ lastMark (w'.conns r) = some (.addTimer ms) ∧
        (w'.timers.nodes n).key = env.clock (w'.armedAt r) + UInt64.ofNat ms) : Armed env w' := by
  intro r' n hopen hn
  by_cases heq : r' = r
  · subst heq
    exact hself hopen n hn
  · rw [hconns r' heq] at hopen ⊢
    rw [htimer r' heq] at hn
    obtain ⟨ms, hk, hlast, hkey⟩ := h r' n hopen hn
    rw [hkeys n (hok.timers.node r' n hn).1, hat r' heq]
    exact ⟨ms, hk.trans_le hreads, hlast, hkey⟩

theorem lastMark_calls {c c' : Conn} {ms : Nat} (marks : List Call) (hgrow : c.tr <+: c'.tr)
    (hm : marksOf (c'.tr.drop c.tr.length) = marks ++ [.addTimer ms]) :
    lastMark c' = some (.addTimer ms) := by
  obtain ⟨calls, hcalls⟩ := hgrow
  rw [← hcalls, List.drop_left] at hm
  unfold lastMark
  rw [← hcalls, marksOf_append, hm, ← List.append_assoc]
  exact List.getLast?_concat

/-- A callback arms the timer again, or closes the connection. -/
theorem armed_event {a : ConnAct} {c : Conn} {rest : List Event} (hok : WorkerOk lib env w)
    (h : Armed env w) (ha : a.isEvent = true) (hopen : (w.conns r).isOpen = true)
    (hstep : connStep lib (w.conns r) a = some c) :
    Armed env (settleConn env r c { w with stage := .handling rest }) := by
  have hph := reached_phase (hok.conns.reached r hopen)
  obtain ⟨-, hends⟩ := event_calls hph ha hstep
  obtain ⟨t, hdel, -⟩ := owned_del hok.timers (r := r) hopen
  obtain ⟨hkeys, htimer, hcount, hreads⟩ := del_frame hdel
  obtain ⟨hothers, hself, -⟩ := settle_alone env { w with stage := .handling rest } r c
    (c.tr.drop (w.conns r).tr.length)
  have hdel' : zvDelTimer env ({ w with stage := .handling rest } : Worker).timers r = some t := hdel
  rcases hends with ⟨-, ms, hm⟩ | ⟨hshut, hm⟩
  · have htimers : (settleConn env r c { w with stage := .handling rest }).timers =
        zvAddTimer env t r (UInt64.ofNat ms) () := by
      unfold settleConn settle
      rw [hm, List.foldl_cons, List.foldl_cons, List.foldl_nil]
      simp only [mark, hdel']
    obtain ⟨hnodes, hother, hmine, hkey, hread⟩ := add_frame env t r (UInt64.ofNat ms)
    have hat : (settleConn env r c { w with stage := .handling rest }).armedAt r = t.reads := by
      unfold settleConn settle
      rw [hm, List.foldl_cons, List.foldl_cons, List.foldl_nil]
      simp only [mark, hdel', Function.update_self]
    refine armed_update hok h hothers (fun n hn => ?_) (fun n hn => ?_) ?_
      (fun n hn => settle_armedAt env _ r c _ hn) fun _ n hn => ?_
    · rw [htimers, hother n hn, htimer n hn]
    · rw [htimers, hnodes n (by rw [hcount]; exact Nat.ne_of_lt hn), hkeys]
    · rw [htimers, hread]
      exact hreads.trans (Nat.le_succ _)
    · rw [htimers] at hn ⊢
      rw [hat]
      obtain rfl := Option.some.inj (hmine.symm.trans hn)
      refine ⟨ms, by rw [hread]; exact Nat.lt_succ_self _, ?_, hkey⟩
      unfold settleConn
      rw [hself]
      exact lastMark_calls [.delTimer] (connStep_tr hph hstep) hm
  · have htimers : (settleConn env r c { w with stage := .handling rest }).timers = t.clear r := by
      unfold settleConn settle
      rw [hm, List.foldl_cons, List.foldl_cons, List.foldl_nil]
      simp only [mark, hdel']
    refine armed_update hok h hothers (fun n hn => ?_) (fun n hn => ?_) ?_
      (fun n hn => settle_armedAt env _ r c _ hn) fun hx => ?_
    · rw [htimers]
      exact (Function.update_of_ne hn _ _).trans (htimer n hn)
    · rw [htimers]
      exact hkeys n
    · rw [htimers]
      exact hreads
    · unfold settleConn at hx
      rw [hself] at hx
      cases hshut.symm.trans hx

/-- A block that is settled with its timer cleared holds no open connection. -/
theorem armed_put {c : Conn} {calls : List Call} (w₁ : Worker) (hok : WorkerOk lib env w)
    (h : Armed env w) (hshut : c.isOpen = false) (hm : marksOf calls = [.putDeferred])
    (hconns : w₁.conns = w.conns) (htimer : ∀ n, n ≠ r → w₁.timers.timer n = w.timers.timer n)
    (hkeys : w₁.timers.nodes = w.timers.nodes) (hreads : w.timers.reads ≤ w₁.timers.reads)
    (hat : w₁.armedAt = w.armedAt) :
    Armed env (settle env r c calls w₁) := by
  obtain ⟨hothers, hself, -⟩ := settle_alone env w₁ r c calls
  have htimers : (settle env r c calls w₁).timers = w₁.timers.clear r := by
    rw [settle_put env w₁ r c hm]
  rw [hconns] at hothers
  refine armed_update hok h hothers (fun n hn => ?_) (fun n hn => ?_) ?_ (fun n hn => ?_)
    fun hx => ?_
  · rw [htimers]
    exact (Function.update_of_ne hn _ _).trans (htimer n hn)
  · rw [htimers]
    exact congrArg TimerNode.key (congrFun hkeys n)
  · rw [htimers]
    exact hreads
  · rw [settle_armedAt env w₁ r c calls hn, hat]
  · rw [hself] at hx
    cases hshut.symm.trans hx

theorem armed_step {a : WorkerAct} (hok : WorkerOk lib env w) (h : Armed env w)
    (hstep : workerStep lib cf env w a = some w') : Armed env w' := by
  have hclear : ∀ r n, n ≠ r → (w.timers.clear r).timer n = w.timers.timer n :=
    fun r n hn => Function.update_of_ne hn _ _
  cases workerStep_cases hok hstep with
  | wait evs conns hs hnodup ht =>
    have hbatch := hok.batch
    rw [hs] at hbatch
    obtain ⟨-, -, hsame⟩ := takeEvents_ok hok.conns hbatch hnodup ht
    have hfound : Found env w.timers _ _ :=
      findLoop_found w.timers.heap.nalloc hok.timers.ok (Nat.le_refl _)
    have hnodes := congrArg Timers.nodes hfound.frame
    have htimer := congrArg Timers.timer hfound.frame
    intro r n hopen hn
    obtain ⟨hopen', htr, -⟩ := hsame r
    have hn' : w.timers.timer r = some n := (congrFun htimer r).symm.trans hn
    obtain ⟨ms, hk, hlast, hkey⟩ := h r n (hopen' ▸ hopen) hn'
    refine ⟨ms, hk.trans_le (findLoop_reads _ _), ?_, ?_⟩
    · show lastMark (conns r) = _
      unfold lastMark
      rw [htr]
      exact hlast
    · exact (congrArg TimerNode.key (congrFun hnodes n)).trans hkey
  | accept rest fd malloc item hs hnew =>
    have hacc := @acceptOne_cases lib cf env w rest fd malloc item hok hnew
    generalize acceptOne cf env w rest fd malloc item = w' at hacc
    cases hacc with
    | dropped pool rest => exact h
    | opened r old w₁ hshut hconns hlog ht hat hst =>
      obtain ⟨hothers, hself, -⟩ :=
        settle_alone env w₁ r (acceptConn old fd cf) (acceptConn old fd cf).tr
      obtain ⟨hnodes, hother, hmine, hkey, hread⟩ := add_frame env w₁.timers r
        (UInt64.ofNat (zvInitRequestT old fd cf).keepAliveTimeoutMs)
      have htimers : (settle env r (acceptConn old fd cf) (acceptConn old fd cf).tr w₁).timers =
          zvAddTimer env w₁.timers r (UInt64.ofNat (zvInitRequestT old fd cf).keepAliveTimeoutMs) () :=
        rfl
      rw [hconns] at hothers
      have hcount : w₁.timers.count = w.timers.count := by
        rw [ht]
        rfl
      have hread₁ : (settle env r (acceptConn old fd cf) (acceptConn old fd cf).tr w₁).armedAt r =
          w₁.timers.reads := Function.update_self _ _ _
      refine armed_update hok h hothers (fun n hn => ?_) (fun n hn => ?_) ?_ (fun n hn => ?_)
        fun _ n hn => ?_
      · rw [htimers, hother n hn, ht, hclear r n hn]
      · rw [htimers, hnodes n (by rw [hcount]; exact Nat.ne_of_lt hn), ht]
        rfl
      · rw [htimers, hread, ht]
        exact Nat.le_succ _
      · rw [settle_armedAt env w₁ r _ _ hn, hat]
      · rw [htimers] at hn ⊢
        rw [hread₁]
        obtain rfl := Option.some.inj (hmine.symm.trans hn)
        refine ⟨_, by rw [hread]; exact Nat.lt_succ_self _, ?_, hkey⟩
        rw [hself]
        rfl
    | failed r c w₁ rest hshut hc hconns hlog ht hat hst =>
      refine armed_put _ hok h hc rfl hconns (fun n hn => ?_) ?_ ?_ hat
      · rw [ht, hclear r n hn]
      · rw [ht]
        rfl
      · rw [ht]
        exact Nat.le_refl _
  | acceptEnd rest hs => exact h
  | event cb e rest r a c hs he ha hopen hca => exact armed_event hok h ha hopen hca
  | expireEnd reaped t hs hr =>
    cases hr with
    | empty => exact h
    | later =>
      intro r n hopen hn
      obtain ⟨ms, hk, hlast, hkey⟩ := h r n hopen hn
      exact ⟨ms, hk.trans (Nat.lt_succ_self _), hlast, hkey⟩
  | expireDrop reaped t hs hr =>
    cases hr with
    | marked node hmin hd =>
      intro r n hopen hn
      obtain ⟨ms, hk, hlast, hkey⟩ := h r n hopen hn
      exact ⟨ms, hk.trans (Nat.lt_succ_self _), hlast, hkey⟩
  | expire reaped t node w₁ hs hr hw₁ =>
    have hopen := (expire_ok hok hs hr hw₁).1
    cases hr with
    | due _ hmin hd hkey =>
      obtain ⟨-, hm⟩ := expire_calls (reached_phase (hok.conns.reached _ hopen)) hopen reaped
      have hput : Armed env w₁ := by
        rw [hw₁]
        refine armed_put { w with timers := callHandler (zvTimeUpdate env w.timers) node } hok h
          rfl hm rfl (fun n hn => ?_) rfl (Nat.le_succ _) rfl
        exact if_neg hn
      exact hput
  | flushEnd hs hp => exact h
  | flush pool hs hp => exact h

/-! ### Between the rounds and the next events -/

theorem caughtUp_step {a : WorkerAct} (hok : WorkerOk lib env w) (h : CaughtUp w)
    (hstep : workerStep lib cf env w a = some w') : CaughtUp w' := by
  have hbusy : ∀ {v : Worker} {batch : List Event}, v.stage = .handling batch → CaughtUp v := by
    intro v batch hv hx
    rw [hv] at hx
    rcases hx with hx | hx <;> cases hx
  cases workerStep_cases hok hstep with
  | wait evs conns hs hnodup ht => exact hbusy rfl
  | accept rest fd malloc item hs hnew =>
    have hacc := @acceptOne_cases lib cf env w rest fd malloc item hok hnew
    generalize acceptOne cf env w rest fd malloc item = w' at hacc
    cases hacc with
    | dropped pool rest => exact hbusy rfl
    | opened r old w₁ hshut hconns hlog ht hat hst =>
      exact hbusy ((settle_stage env w₁ r _ _).trans (hst.trans hs))
    | failed r c w₁ rest hshut hc hconns hlog ht hat hst =>
      exact hbusy ((settle_stage env w₁ r _ _).trans hst)
  | acceptEnd rest hs => exact hbusy rfl
  | event cb e rest r a c hs he ha hopen hca => exact hbusy (settle_stage env _ r c _)
  | expireEnd reaped t hs hr => exact fun _ => expireEnd_due hok hstep rfl
  | expireDrop reaped t hs hr => exact hbusy hs
  | expire reaped t node w₁ hs hr hw₁ =>
    have hstage : w₁.stage = .handling [] := by
      rw [hw₁]
      exact (settle_stage env _ _ _ _).trans hs
    exact hbusy hstage
  | flushEnd hs hp => exact fun _ => h (.inr hs)
  | flush pool hs hp => exact fun _ => h (.inr hs)

end WorkerDeadlinesLemmas

open WorkerDeadlinesLemmas

/-! ## Deadlines -/

/-- The difference of two times fits in an `int`. -/
def Near (key now : UInt64) : Prop :=
  -2 ^ 31 ≤ (key.toNat : Int) - now.toNat ∧ (key.toNat : Int) - now.toNat < 2 ^ 31

/-- Every deadline is the one that was asked for. From the last round of the timers up to
`zv_find_timer` none is left that the clock had reached when it was last read, in that round. What
`zv_find_timer` gives, with readings of its own, is no limit just when no connection is open, and
otherwise not longer than to any deadline. All but the first hold when the queue always got its
memory. -/
structure DeadlinesKept (env : TimerEnv) (w : Worker) : Prop where
  armed : Armed env w
  passed : w.starved = false → w.stage = .waiting ∨ w.stage = .flushing → ∀ r n,
    (w.conns r).isOpen = true → w.timers.timer r = some n → w.timers.now < (w.timers.nodes n).key
  asleep : w.starved = false →
    ((zvFindTimer env w.timers).2 = ZV_TIMER_INFINITE ↔ ∀ r, (w.conns r).isOpen = false)
  woken : w.starved = false → ∀ r n, (w.conns r).isOpen = true → w.timers.timer r = some n →
    (∀ m, w.timers.Live m → Near (w.timers.nodes m).key (zvFindTimer env w.timers).1.now) →
    (zvFindTimer env w.timers).2 ≤
      max 0 (((w.timers.nodes n).key.toNat : Int) - (zvFindTimer env w.timers).1.now.toNat)

namespace WorkerDeadlinesLemmas

variable {lib : Libc} {cf : Conf} {env : TimerEnv} {w w' : Worker} {r : Nat}

/-- The answer of `zv_find_timer` is not longer than the time to any deadline. -/
theorem findTimer_least {t : Timers Unit Nat} (hok : TimerOk env t) {n : Nat} (hn : t.Live n)
    (hnear : ∀ m, t.Live m → Near (t.nodes m).key (zvFindTimer env t).1.now) :
    (zvFindTimer env t).2 ≤ max 0 (((t.nodes n).key.toNat : Int) - (zvFindTimer env t).1.now.toNat) := by
  have hfound : Found env t _ _ := findLoop_found t.heap.nalloc hok (Nat.le_refl _)
  change Found env t (zvFindTimer env t).1 (zvFindTimer env t).2 at hfound
  obtain ⟨gone, hgone, hmarked⟩ := hfound.gone
  have hstays : n ∈ stored (zvFindTimer env t).1.heap := by
    have hmem := hn.1
    rw [hgone] at hmem
    cases Multiset.mem_add.mp hmem with
    | inl hx => cases hn.2.symm.trans (hmarked n hx)
    | inr hx => exact hx
  have hnodes := congrArg Timers.nodes hfound.frame
  rcases hfound.answer with ⟨-, hzero⟩ | ⟨node, hmin, hlive, hanswer⟩
  · rw [hzero] at hstays
    exact absurd hstays (Multiset.notMem_zero n)
  · obtain ⟨hmem, hleast⟩ := PriorityQueueLemmas.zvPqMin_least hfound.ok.heap hmin
    have hnode : t.Live node := by
      refine ⟨?_, hlive⟩
      rw [hgone]
      exact Multiset.mem_add.mpr (.inr hmem)
    have hle : (t.nodes node).key.toNat ≤ (t.nodes n).key.toNat := by
      have hlt := of_decide_eq_false (hleast n hstays)
      have heq : ∀ m, (zvFindTimer env t).1.nodes m = t.nodes m := congrFun hnodes
      rw [heq, heq] at hlt
      exact UInt64.le_iff_toNat_le.mp (UInt64.not_lt.mp hlt)
    obtain ⟨h1, h2⟩ := hnear node hnode
    rw [hanswer, waitTime_eq h1 h2]
    omega

end WorkerDeadlinesLemmas

open WorkerDeadlinesLemmas

/-- In every state that a worker reaches no deadline of an open connection is slept over. -/
theorem deadlines_kept {lib : Libc} {cf : Conf} {env : TimerEnv} {w : Worker}
    (h : WorkerReached lib cf env w) : DeadlinesKept env w := by
  have hok := workerReached_ok h
  obtain ⟨harmed, hcaught⟩ : Armed env w ∧ CaughtUp w := by
    obtain ⟨links, malloc, mem, pool, listen, nodes, timers, acts, hget, hinit, hrun⟩ := h
    have hstart : WorkerOk lib env (workerStart mem pool listen timers) :=
      workerStart_ok hget hinit
    refine (run_invariant (P := fun w => WorkerOk lib env w ∧ Armed env w ∧ CaughtUp w)
      (fun _ _ _ hw hstep => ⟨workerStep_ok hw.1 hstep, armed_step hw.1 hw.2.1 hstep,
        caughtUp_step hw.1 hw.2.2 hstep⟩)
      ⟨hstart, (fun r n hopen => by cases hopen), fun _ n hn => ?_⟩ hrun).2
    -- no node is in the queue at the start
    obtain ⟨hmem, hd⟩ := hn
    obtain ⟨r, hr⟩ : ∃ r, r = (timers.nodes n).rq := ⟨_, rfl⟩
    have hopen := (hstart.timers.has_iff r).mpr ⟨n, hr ▸ hstart.timers.live n hmem hd⟩
    cases hopen
  have hlive : w.starved = false → ∀ r n, w.timers.timer r = some n → w.timers.Live n :=
    fun hs r n hn => ⟨hok.timers.stored hs r n hn, (hok.timers.node r n hn).2.1⟩
  refine ⟨harmed, fun hs hst r n _ hn => hcaught hst n (hlive hs r n hn), fun hs => ?_,
    fun hs r n _ hn hnear => findTimer_least hok.timers.ok (hlive hs r n hn) hnear⟩
  have hfound : Found env w.timers _ _ :=
    findLoop_found w.timers.heap.nalloc hok.timers.ok (Nat.le_refl _)
  have hexact := hfound.exact
  refine hexact.infinite.trans ⟨fun hnone r => ?_, fun hshut n hn => ?_⟩
  · refine Bool.eq_false_of_not_eq_true fun hopen => ?_
    obtain ⟨n, hn⟩ := (hok.timers.has_iff r).mp hopen
    exact hnone n (hlive hs r n hn)
  · have hmine := hok.timers.live n hn.1 hn.2
    have hopen := (hok.timers.has_iff _).mpr ⟨n, hmine⟩
    cases (hshut (w.timers.nodes n).rq).symm.trans hopen

theorem deadlines_kept_reused : ∃ w, Reused w ∧ DeadlinesKept countingEnv w := by
  obtain ⟨w, hw⟩ := reuseRun_reused
  exact ⟨w, hw, deadlines_kept hw.reached⟩

end Zaver
