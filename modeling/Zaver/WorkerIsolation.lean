import Zaver.WorkerLedger

/-!
# Connections of a worker

The connections of a worker share its timers, its pool and its batch of events, and do not notice:
each of them is in a state that it also reaches alone, with the calls that the worker made for its
block, and a step of the worker is for one connection at most (`worker_isolates`). What holds of
every reached state of a connection therefore holds of the connections of a worker.
-/

namespace Zaver

open Runs ConnectionLemmas CallbacksLemmas PersistenceLemmas WorkerEventsLemmas WorkerRunsLemmas
open WorkerLedgerLemmas

/-- The calls for one block. -/
def callsOf (r : Nat) (log : List WorkerCall) : List Call :=
  log.filterMap fun
    | .of n call => if n = r then some call else none
    | _ => none

/-- The calls for other blocks than `r`. -/
def elsewhere (r : Nat) : WorkerCall → Bool
  | .of n _ => n != r
  | _ => false

/-- What one step of the worker does with a connection: nothing, some steps of its own, or it is the
one that was accepted. -/
inductive ConnMoved (lib : Libc) (cf : Conf) : Conn → Conn → Prop
  | steps {c c' : Conn} (acts : List ConnAct) : run (connStep lib) c acts = some c' →
      ConnMoved lib cf c c'
  | accepted {c : Conn} (old : Request) (fd : Fd) : c.isOpen = false →
      ConnMoved lib cf c (acceptConn old fd cf)
  | failed {c c' : Conn} : c.isOpen = false → c'.isOpen = false → ConnMoved lib cf c c'

/-- The connections of a worker and their steps. -/
structure Isolated (lib : Libc) (cf : Conf) (env : TimerEnv) (w : Worker) : Prop where
  reached : ∀ r, (w.conns r).isOpen = true → Reached lib (w.conns r)
  record : ∀ r, (w.conns r).isOpen = true → (w.conns r).tr <:+ callsOf r w.log
  moved : ∀ a w', workerStep lib cf env w a = some w' →
    ∀ r, ConnMoved lib cf (w.conns r) (w'.conns r)
  alone : ∀ a w', workerStep lib cf env w a = some w' → (∀ evs, a ≠ .wait evs) →
    ∃ r, (∀ n, n ≠ r → w'.conns n = w.conns n) ∧
      ∃ new, w'.log = w.log ++ new ∧ ∀ x ∈ new, elsewhere r x = false

/-- What comes of a socket that was accepted: there is no block for it, its connection is opened, or
it is closed again. The block is a free one. -/
inductive Accepted (cf : Conf) (env : TimerEnv) (w : Worker) (fd : Fd) : Worker → Prop
  | dropped (pool : RequestPool) (rest : List Event) :
      Accepted cf env w fd
        { w with pool := pool, log := w.log ++ [.accept fd] ++ [.drop fd], stage := .handling rest }
  | opened (r : Nat) (old : Request) (w₁ : Worker) : (w.conns r).isOpen = false →
      w₁.conns = w.conns → w₁.log = w.log ++ [.accept fd] → w₁.timers = w.timers.clear r →
      w₁.armedAt = w.armedAt → w₁.stage = w.stage →
      Accepted cf env w fd (settle env r (acceptConn old fd cf) (acceptConn old fd cf).tr w₁)
  | failed (r : Nat) (c : Conn) (w₁ : Worker) (rest : List Event) : (w.conns r).isOpen = false →
      c.isOpen = false → w₁.conns = w.conns → w₁.log = w.log ++ [.accept fd] →
      w₁.timers = w.timers.clear r → w₁.armedAt = w.armedAt → w₁.stage = .handling rest →
      Accepted cf env w fd (settle env r c [.close fd, .putDeferred] w₁)

namespace WorkerIsolationLemmas

variable {lib : Libc} {cf : Conf} {env : TimerEnv} {w w' : Worker} {r : Nat}

theorem acceptOne_cases {rest : List Event} {fd : Fd} {malloc : Option Nat} {item : Bool}
    (hok : WorkerOk lib env w) (hnew : ∀ r ∈ malloc, r ∉ w.pool.blocks) :
    Accepted cf env w fd (acceptOne cf env w rest fd malloc item) := by
  unfold acceptOne
  dsimp only
  generalize hget : zvHttpRequestGet w.pool malloc = res
  obtain ⟨pool, res⟩ := res
  cases res with
  | none => exact .dropped pool rest
  | some r =>
    have hshut := (get_fresh hok.blocks hnew hget).2.2.2
    dsimp only
    generalize (if r ∈ w.pool.blocks then (w.conns r).r else Request.zero) = old
    generalize ((if r ∈ w.pool.blocks then w.items r else false) || item) = hasItem
    cases hasItem with
    | true => exact .opened r old _ hshut rfl rfl rfl rfl rfl
    | false => exact .failed r _ _ rest hshut rfl rfl rfl rfl rfl rfl

theorem callsOf_append (r : Nat) (t u : List WorkerCall) :
    callsOf r (t ++ u) = callsOf r t ++ callsOf r u := List.filterMap_append

theorem callsOf_self (r : Nat) (calls : List Call) : callsOf r (calls.map (.of r)) = calls := by
  induction calls with
  | nil => rfl
  | cons x calls ih =>
    show callsOf r ([.of r x] ++ calls.map (.of r)) = _
    have hone : callsOf r [.of r x] = [x] := by simp [callsOf]
    rw [callsOf_append, hone, ih]
    rfl

theorem callsOf_other {n : Nat} (hne : n ≠ r) (calls : List Call) :
    callsOf r (calls.map (.of n)) = [] := by
  refine List.filterMap_eq_nil_iff.mpr fun x hx => ?_
  obtain ⟨call, -, rfl⟩ := List.mem_map.mp hx
  exact if_neg hne

theorem elsewhere_self (r : Nat) (calls : List Call) :
    ∀ x ∈ calls.map (WorkerCall.of r), elsewhere r x = false := by
  intro x hx
  obtain ⟨call, -, rfl⟩ := List.mem_map.mp hx
  exact bne_self_eq_false r

/-! ### The record -/

/-- The calls of the open connections stand at the end of the record of their blocks. -/
def Recorded (w : Worker) : Prop :=
  ∀ r, (w.conns r).isOpen = true → (w.conns r).tr <:+ callsOf r w.log

/-- A block is settled, and its connection has made the calls. -/
theorem recorded_settle {c : Conn} {calls : List Call} (h : Recorded w)
    (hc : c.isOpen = true → c.tr <:+ callsOf r w.log ++ calls) :
    Recorded (settle env r c calls w) := by
  obtain ⟨hlog, hconns, -⟩ := settle_frame env w r c calls
  intro n hn
  rw [hconns] at hn ⊢
  rw [hlog, callsOf_append]
  by_cases heq : n = r
  · subst heq
    rw [Function.update_self] at hn ⊢
    rw [callsOf_self]
    exact hc hn
  · rw [Function.update_of_ne heq] at hn ⊢
    rw [callsOf_other (Ne.symm heq), List.append_nil]
    exact h n hn

/-- A callback of an open connection. -/
theorem recorded_callback {a : ConnAct} {c : Conn} (h : Recorded w) (hph : Phase (w.conns r))
    (hopen : (w.conns r).isOpen = true) (hstep : connStep lib (w.conns r) a = some c) :
    Recorded (settleConn env r c w) := by
  refine recorded_settle h fun _ => ?_
  obtain ⟨calls, hcalls⟩ := connStep_tr hph hstep
  obtain ⟨front, hfront⟩ := h r hopen
  rw [← hcalls, List.drop_left]
  exact ⟨front, by rw [← hfront, List.append_assoc]⟩

theorem recorded_step {a : WorkerAct} (hok : WorkerOk lib env w) (h : Recorded w)
    (hstep : workerStep lib cf env w a = some w') : Recorded w' := by
  cases workerStep_cases hok hstep with
  | wait evs conns hs hnodup ht =>
    have hbatch := hok.batch
    rw [hs] at hbatch
    obtain ⟨-, -, hsame⟩ := takeEvents_ok hok.conns hbatch hnodup ht
    intro r hr
    obtain ⟨hopen, htr, -⟩ := hsame r
    show (conns r).tr <:+ _
    rw [htr]
    exact h r (hopen ▸ hr)
  | accept rest fd malloc item hs hnew =>
    have hlog : ∀ n, callsOf n (w.log ++ [.accept fd]) = callsOf n w.log := by
      intro n
      rw [callsOf_append]
      exact List.append_nil _
    have hold : ∀ w₁ : Worker, w₁.conns = w.conns → w₁.log = w.log ++ [.accept fd] → Recorded w₁ := by
      intro w₁ hconns hlog₁ n hn
      rw [hconns] at hn ⊢
      rw [hlog₁, hlog]
      exact h n hn
    have hacc := @acceptOne_cases lib cf env w rest fd malloc item hok hnew
    generalize acceptOne cf env w rest fd malloc item = w' at hacc
    cases hacc with
    | dropped pool rest =>
      intro n hn
      show (w.conns n).tr <:+ callsOf n (w.log ++ [.accept fd] ++ [.drop fd])
      rw [callsOf_append, hlog, show callsOf n [.drop fd] = [] from rfl, List.append_nil]
      exact h n hn
    | opened r old w₁ hshut hconns hlog₁ ht hat hst =>
      exact recorded_settle (hold w₁ hconns hlog₁) fun _ => List.suffix_append _ _
    | failed r c w₁ rest hshut hc hconns hlog₁ ht hat hst =>
      exact recorded_settle (hold w₁ hconns hlog₁) fun hx => by cases hc.symm.trans hx
  | acceptEnd rest hs => exact h
  | event cb e rest r a c hs he ha hopen hca =>
    exact recorded_callback (w := { w with stage := .handling rest }) h
      (reached_phase (hok.conns.reached r hopen)) hopen hca
  | expireEnd reaped t hs hr => exact h
  | expireDrop reaped t hs hr => exact h
  | expire reaped t node w₁ hs hr hw₁ =>
    have hopen := (expire_ok hok hs hr hw₁).1
    have hca : connStep lib (w.conns (t.nodes node).rq) (.expire reaped) =
        some (zvHttpCloseConn reaped (w.conns (t.nodes node).rq)) := if_pos hopen
    have hsettled : Recorded w₁ := by
      rw [hw₁]
      exact recorded_callback (w := { w with timers := callHandler t node }) h
        (reached_phase (hok.conns.reached _ hopen)) hopen hca
    exact hsettled
  | flushEnd hs hp => exact h
  | flush pool hs hp => exact h

/-! ### One step -/

theorem takeEvent_run {conns conns' : Nat → Conn} {e : Event} (h : takeEvent conns e = some conns')
    (r : Nat) : ∃ acts, run (connStep lib) (conns r) acts = some (conns' r) := by
  have hone : ∀ (n : Nat) (c : Conn) (a : ConnAct), connStep lib (conns n) a = some c →
      ∃ acts, run (connStep lib) (conns r) acts = some (Function.update conns n c r) := by
    intro n c a hstep
    by_cases heq : r = n
    · subst heq
      rw [Function.update_self]
      exact ⟨[a], run_cons.mpr ⟨c, hstep, rfl⟩⟩
    · rw [Function.update_of_ne heq]
      exact ⟨[], rfl⟩
  rcases takeEvent_cases h with ⟨-, rfl⟩ | ⟨n, x, ev, -, hev, -, rfl⟩ | ⟨n, ev, -, hev, rfl⟩
  · exact ⟨[], rfl⟩
  · refine hone n _ .takeSocket ?_
    show (conns n).sock.take.map _ = _
    rw [hev]
    rfl
  · refine hone n _ .takePipe ?_
    show (conns n).pipe.take.map _ = _
    rw [hev]
    rfl

theorem takeEvents_run {conns conns' : Nat → Conn} {evs : List Event}
    (h : evs.foldlM takeEvent conns = some conns') (r : Nat) :
    ∃ acts, run (connStep lib) (conns r) acts = some (conns' r) := by
  induction evs generalizing conns with
  | nil =>
    obtain rfl := Option.some.inj h
    exact ⟨[], rfl⟩
  | cons e evs ih =>
    rw [List.foldlM_cons] at h
    obtain ⟨conns₁, h₁, h₂⟩ := Option.bind_eq_some_iff.mp h
    obtain ⟨acts, hacts⟩ := @takeEvent_run lib conns conns₁ e h₁ r
    obtain ⟨acts', hacts'⟩ := ih h₂
    exact ⟨acts ++ acts', run_append.mpr ⟨_, hacts, hacts'⟩⟩

/-- One block is settled, the others keep their connections. -/
theorem settle_alone (env : TimerEnv) (w : Worker) (r : Nat) (c : Conn) (calls : List Call) :
    (∀ n, n ≠ r → (settle env r c calls w).conns n = w.conns n) ∧
      (settle env r c calls w).conns r = c ∧
      ∃ new, (settle env r c calls w).log = w.log ++ new ∧ ∀ x ∈ new, elsewhere r x = false := by
  obtain ⟨hlog, hconns, -⟩ := settle_frame env w r c calls
  rw [hlog, hconns]
  refine ⟨fun n hn => Function.update_of_ne hn _ _, Function.update_self _ _ _, _, rfl,
    elsewhere_self r calls⟩

theorem moved_of_update {conns conns' : Nat → Conn} (hothers : ∀ n, n ≠ r → conns' n = conns n)
    (hmoved : ConnMoved lib cf (conns r) (conns' r)) (n : Nat) :
    ConnMoved lib cf (conns n) (conns' n) := by
  by_cases heq : n = r
  · subst heq
    exact hmoved
  · rw [hothers n heq]
    exact .steps [] rfl

/-- What a step of the worker changes, when it is not a wait. -/
theorem step_alone {a : WorkerAct} (hok : WorkerOk lib env w)
    (hstep : workerStep lib cf env w a = some w') (hwait : ∀ evs, a ≠ .wait evs) :
    ∃ r, (∀ n, n ≠ r → w'.conns n = w.conns n) ∧ ConnMoved lib cf (w.conns r) (w'.conns r) ∧
      ∃ new, w'.log = w.log ++ new ∧ ∀ x ∈ new, elsewhere r x = false := by
  have hsame : w'.conns = w.conns → w'.log = w.log →
      ∃ r, (∀ n, n ≠ r → w'.conns n = w.conns n) ∧ ConnMoved lib cf (w.conns r) (w'.conns r) ∧
        ∃ new, w'.log = w.log ++ new ∧ ∀ x ∈ new, elsewhere r x = false := by
    intro hconns hlog
    rw [hconns, hlog]
    exact ⟨0, fun _ _ => rfl, .steps [] rfl, [], (List.append_nil _).symm,
      fun x hx => absurd hx List.not_mem_nil⟩
  cases workerStep_cases hok hstep with
  | wait evs => exact absurd rfl (hwait evs)
  | accept rest fd malloc item hs hnew =>
    have hacc := @acceptOne_cases lib cf env w rest fd malloc item hok hnew
    generalize acceptOne cf env w rest fd malloc item = w' at hacc
    -- the socket comes in front of the calls of the block
    have hfront : ∀ (n : Nat) (w₁ : Worker) (new : List WorkerCall),
        w₁.log = w.log ++ [.accept fd] → (∀ x ∈ new, elsewhere n x = false) →
        ∃ new', w₁.log ++ new = w.log ++ new' ∧ ∀ x ∈ new', elsewhere n x = false := by
      intro n w₁ new hlog hall
      refine ⟨.accept fd :: new, by rw [hlog, List.append_assoc]; rfl, fun x hx => ?_⟩
      cases List.mem_cons.mp hx with
      | inl heq =>
        rw [heq]
        rfl
      | inr hx => exact hall x hx
    cases hacc with
    | dropped pool rest =>
      refine ⟨0, fun _ _ => rfl, .steps [] rfl, [.accept fd, .drop fd], List.append_assoc _ _ _, ?_⟩
      simp [elsewhere]
    | opened r old w₁ hshut hconns hlog₁ ht hat hst =>
      obtain ⟨hothers, hself, new, hlog, hnew⟩ :=
        settle_alone env w₁ r (acceptConn old fd cf) (acceptConn old fd cf).tr
      rw [hconns] at hothers
      refine ⟨r, hothers, ?_, ?_⟩
      · rw [hself]
        exact .accepted old fd hshut
      · rw [hlog]
        exact hfront r w₁ new hlog₁ hnew
    | failed r c w₁ rest hshut hc hconns hlog₁ ht hat hst =>
      obtain ⟨hothers, hself, new, hlog, hnew⟩ := settle_alone env w₁ r c [.close fd, .putDeferred]
      rw [hconns] at hothers
      refine ⟨r, hothers, ?_, ?_⟩
      · rw [hself]
        exact .failed hshut hc
      · rw [hlog]
        exact hfront r w₁ new hlog₁ hnew
  | acceptEnd rest hs => exact hsame rfl rfl
  | event cb e rest r a c hs he ha hopen hca =>
    obtain ⟨hothers, hself, hlog⟩ := settle_alone env { w with stage := .handling rest } r c
      (c.tr.drop (w.conns r).tr.length)
    refine ⟨r, hothers, ?_, hlog⟩
    show ConnMoved lib cf (w.conns r) ((settleConn env r c { w with stage := .handling rest }).conns r)
    unfold settleConn
    rw [hself]
    exact .steps [a] (run_cons.mpr ⟨c, hca, rfl⟩)
  | expireEnd reaped t hs hr => exact hsame rfl rfl
  | expireDrop reaped t hs hr => exact hsame rfl rfl
  | expire reaped t node w₁ hs hr hw₁ =>
    have hopen := (expire_ok hok hs hr hw₁).1
    generalize hrq : (t.nodes node).rq = r at hopen hw₁
    have hca : connStep lib (w.conns r) (.expire reaped) =
        some (zvHttpCloseConn reaped (w.conns r)) := if_pos hopen
    obtain ⟨hothers, hself, hlog⟩ := settle_alone env { w with timers := callHandler t node } r
      (zvHttpCloseConn reaped (w.conns r))
      ((zvHttpCloseConn reaped (w.conns r)).tr.drop (w.conns r).tr.length)
    unfold settleConn at hw₁
    subst hw₁
    refine ⟨r, hothers, ?_, hlog⟩
    show ConnMoved lib cf (w.conns r) ((settle env r _ _ _).conns r)
    rw [hself]
    exact .steps [.expire reaped] (run_cons.mpr ⟨_, hca, rfl⟩)
  | flushEnd hs hp => exact hsame rfl rfl
  | flush pool hs hp => exact hsame rfl rfl

end WorkerIsolationLemmas

open WorkerIsolationLemmas

/-- In every state that a worker reaches its open connections are in states that they reach alone,
with the calls that were made for their blocks, and every step of the worker but the wait is for
one connection, which moves as it does alone. -/
theorem worker_isolates {lib : Libc} {cf : Conf} {env : TimerEnv} {w : Worker}
    (h : WorkerReached lib cf env w) : Isolated lib cf env w := by
  have hok := workerReached_ok h
  have hrecord : Recorded w := by
    obtain ⟨links, malloc, mem, pool, listen, nodes, timers, acts, hget, hinit, hrun⟩ := h
    refine (run_invariant (P := fun w => WorkerOk lib env w ∧ Recorded w)
      (fun _ _ _ hw hstep => ⟨workerStep_ok hw.1 hstep, recorded_step hw.1 hw.2 hstep⟩)
      ⟨workerStart_ok hget hinit, fun r hr => by cases hr⟩ hrun).2
  refine ⟨hok.conns.reached, hrecord, fun a w' hstep r => ?_, fun a w' hstep hwait => ?_⟩
  · by_cases hwait : ∃ evs, a = .wait evs
    · obtain ⟨evs, rfl⟩ := hwait
      cases workerStep_cases hok hstep with
      | wait _ conns hs hnodup ht =>
        obtain ⟨acts, hacts⟩ := @takeEvents_run lib w.conns conns evs ht r
        exact .steps acts hacts
    · obtain ⟨n, hothers, hmoved, -⟩ := step_alone hok hstep fun evs hx => hwait ⟨evs, hx⟩
      exact moved_of_update hothers hmoved r
  · obtain ⟨r, hothers, -, hlog⟩ := step_alone hok hstep hwait
    exact ⟨r, hothers, hlog⟩

theorem worker_isolates_reused :
    ∃ w, Reused w ∧ Isolated sampleLib reuseConf countingEnv w := by
  obtain ⟨w, hw⟩ := reuseRun_reused
  exact ⟨w, hw, worker_isolates hw.reached⟩

end Zaver
