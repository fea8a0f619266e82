import Zaver.WorkerRuns

/-!
# The descriptors of a worker

`workerLedger` plays the record of a worker back: a descriptor that is accepted, opened or made
by `pipe` is open until it is closed, and there is no result when one is closed that is not
open. Whatever ended the connections, the descriptors that are open are those in the fields of
the blocks with an open connection (`descriptors_exact`).
-/

namespace Zaver

open Runs ConnectionLemmas CallbacksLemmas RequestPoolLemmas WorkerEventsLemmas WorkerTimersLemmas
open WorkerRunsLemmas

/-! ## Descriptors in a record -/

/-- The open descriptors after some calls, none when one is closed that is not open. -/
def workerLedger : Multiset Fd → List WorkerCall → Option (Multiset Fd)
  | fds, [] => some fds
  | fds, .accept fd :: log => workerLedger (fd ::ₘ fds) log
  | fds, .drop fd :: log => if fd ∈ fds then workerLedger (fds.erase fd) log else none
  | fds, .of _ call :: log => (ledger fds [call]).bind fun fds => workerLedger fds log

/-- The kernel hands out descriptors that are not open. -/
def FreshFds : Multiset Fd → List WorkerCall → Prop
  | _, [] => True
  | fds, .accept fd :: log => fd ∉ fds ∧ FreshFds (fd ::ₘ fds) log
  | fds, .drop fd :: log => FreshFds (fds.erase fd) log
  | fds, .of _ (.openFile _ fd) :: log => fd ∉ fds ∧ FreshFds (fd ::ₘ fds) log
  | fds, .of _ (.pipe rd wr) :: log => rd ∉ fds ∧ wr ∉ fds ∧ rd ≠ wr ∧ FreshFds (rd ::ₘ wr ::ₘ fds) log
  | fds, .of _ (.close fd) :: log => FreshFds (fds.erase fd) log
  | fds, .of _ _ :: log => FreshFds fds log

/-- How often a call opens a descriptor. -/
def WorkerCall.opens (fd : Fd) : WorkerCall → Nat
  | .accept fd' => if fd' = fd then 1 else 0
  | .of _ (.openFile _ fd') => if fd' = fd then 1 else 0
  | .of _ (.pipe rd wr) => (if rd = fd then 1 else 0) + if wr = fd then 1 else 0
  | _ => 0

/-- How often a call closes a descriptor. -/
def WorkerCall.closes (fd : Fd) : WorkerCall → Nat
  | .drop fd' => if fd' = fd then 1 else 0
  | .of _ (.close fd') => if fd' = fd then 1 else 0
  | _ => 0

/-- The descriptors in the fields of the blocks. -/
def Worker.held (w : Worker) : Multiset Fd := ∑ r ∈ w.pool.blocks, (w.conns r).held

namespace WorkerLedgerLemmas

variable {lib : Libc} {cf : Conf} {env : TimerEnv} {w w' : Worker} {r : Nat}

theorem workerLedger_append (fds : Multiset Fd) (t u : List WorkerCall) :
    workerLedger fds (t ++ u) = (workerLedger fds t).bind fun fds => workerLedger fds u := by
  induction t generalizing fds with
  | nil => rfl
  | cons x t ih =>
    cases x with
    | accept fd => exact ih _
    | drop fd =>
      rw [List.cons_append, workerLedger, workerLedger]
      split
      · exact ih _
      · rfl
    | of r call =>
      rw [List.cons_append, workerLedger, workerLedger, Option.bind_assoc]
      exact Option.bind_congr fun fds' _ => ih fds'

theorem ledger_cons (fds : Multiset Fd) (x : Call) (t : List Call) :
    ledger fds (x :: t) = (ledger fds [x]).bind fun fds => ledger fds t :=
  ledger_append fds [x] t

/-- The calls of one block. -/
theorem workerLedger_of (fds : Multiset Fd) (r : Nat) (calls : List Call) :
    workerLedger fds (calls.map (.of r)) = ledger fds calls := by
  induction calls generalizing fds with
  | nil => rfl
  | cons x calls ih =>
    rw [List.map_cons, workerLedger]
    exact (Option.bind_congr fun fds' _ => ih fds').trans (ledger_cons fds x calls).symm

/-- One block changes. -/
theorem held_update (conns : Nat → Conn) {blocks : Finset Nat} (c : Conn) (hr : r ∈ blocks) :
    ∃ others, ∑ n ∈ blocks, (conns n).held = (conns r).held + others ∧
      ∑ n ∈ blocks, (Function.update conns r c n).held = c.held + others := by
  refine ⟨∑ n ∈ blocks.erase r, (conns n).held, (Finset.add_sum_erase _ _ hr).symm, ?_⟩
  rw [← Finset.add_sum_erase _ _ hr, Function.update_self]
  congr 1
  refine Finset.sum_congr rfl fun n hn => ?_
  rw [Function.update_of_ne (Finset.mem_erase.mp hn).1]

/-- The calls of a block account for what it holds. -/
theorem ledger_settle {conns : Nat → Conn} {blocks : Finset Nat} {c : Conn} {calls : List Call}
    {log : List WorkerCall} (hr : r ∈ blocks)
    (hlog : workerLedger 0 log = some (∑ n ∈ blocks, (conns n).held))
    (hcalls : ledger (conns r).held calls = some c.held) :
    workerLedger 0 (log ++ calls.map (.of r)) =
      some (∑ n ∈ blocks, (Function.update conns r c n).held) := by
  obtain ⟨others, hold, hnew⟩ := held_update conns c hr
  rw [workerLedger_append, hlog, Option.bind_some, workerLedger_of, hold, hnew]
  exact ledger_frame hcalls others

/-- What a call of the timers or of the pool leaves alone. -/
theorem mark_frame (env : TimerEnv) (r : Nat) (w : Worker) (x : Call) :
    (mark env r w x).log = w.log ∧ (mark env r w x).conns = w.conns ∧
      (mark env r w x).pool.blocks = w.pool.blocks ∧ (mark env r w x).stage = w.stage := by
  cases x with
  | delTimer =>
    unfold mark
    dsimp only
    split
    · exact ⟨rfl, rfl, rfl, rfl⟩
    · exact ⟨rfl, rfl, rfl, rfl⟩
  -- no block comes or goes when one is given back
  | putDeferred => exact ⟨rfl, rfl, (initPool_frame w.pool).1, rfl⟩
  | _ => exact ⟨rfl, rfl, rfl, rfl⟩

/-- What each of the calls leaves alone, all of them do. -/
theorem marks_keep {β : Type} (f : Worker → β) (hf : ∀ w x, f (mark env r w x) = f w)
    (marks : List Call) (w : Worker) : f (marks.foldl (mark env r) w) = f w := by
  induction marks generalizing w with
  | nil => rfl
  | cons x marks ih => exact (ih (mark env r w x)).trans (hf w x)

theorem settle_frame (env : TimerEnv) (w : Worker) (r : Nat) (c : Conn) (calls : List Call) :
    (settle env r c calls w).log = w.log ++ calls.map (.of r) ∧
      (settle env r c calls w).conns = Function.update w.conns r c ∧
      (settle env r c calls w).pool.blocks = w.pool.blocks :=
  ⟨marks_keep Worker.log (fun w x => (mark_frame env r w x).1) _ _,
    marks_keep Worker.conns (fun w x => (mark_frame env r w x).2.1) _ _,
    marks_keep (fun w => w.pool.blocks) (fun w x => (mark_frame env r w x).2.2.1) _ _⟩

theorem settle_stage (env : TimerEnv) (w : Worker) (r : Nat) (c : Conn) (calls : List Call) :
    (settle env r c calls w).stage = w.stage :=
  marks_keep Worker.stage (fun w x => (mark_frame env r w x).2.2.2) _ _

theorem open_mem (h : WorkerOk lib env w) (hopen : (w.conns r).isOpen = true) : r ∈ w.pool.blocks :=
  ((h.blocks.live r).mpr (.inr hopen)).1

theorem held_closed {c : Conn} (h : c.isOpen = false) : c.held = 0 := by
  unfold Conn.held
  rw [h]
  rfl

/-- A descriptor that is accepted comes to the others. -/
theorem workerLedger_accept {log : List WorkerCall} {fds : Multiset Fd} (fd : Fd)
    (h : workerLedger 0 log = some fds) : workerLedger 0 (log ++ [.accept fd]) = some (fd ::ₘ fds) := by
  rw [workerLedger_append, h]
  rfl

theorem held_accept (old : Request) (fd : Fd) (cf : Conf) : (acceptConn old fd cf).held = {fd} := by
  show (([fd] : List Fd) : Multiset Fd) + 0 + 0 = {fd}
  rw [Multiset.add_zero, Multiset.add_zero]
  rfl

/-- The sum over the blocks when one of them is handed out that held nothing. -/
theorem held_insert {conns : Nat → Conn} {blocks : Finset Nat} {c : Conn}
    (hshut : (conns r).isOpen = false) :
    ∑ n ∈ insert r blocks, (Function.update conns r c n).held =
      c.held + ∑ n ∈ blocks, (conns n).held := by
  obtain ⟨others, hold, hnew⟩ := held_update conns c (Finset.mem_insert_self r blocks)
  rw [hnew]
  have hsum : ∑ n ∈ insert r blocks, (conns n).held = ∑ n ∈ blocks, (conns n).held :=
    Finset.sum_insert_of_eq_zero_if_notMem fun _ => held_closed hshut
  rw [← hsum, hold, held_closed hshut, Multiset.zero_add]

theorem ledger_event {rest : List Event} {a : ConnAct} {c : Conn}
    (h : WorkerOk lib env w) (hl : workerLedger 0 w.log = some w.held) (ha : a.isEvent = true)
    (hopen : (w.conns r).isOpen = true) (hstep : connStep lib (w.conns r) a = some c)
    (hw' : w' = settleConn env r c { w with stage := .handling rest }) :
    workerLedger 0 w'.log = some w'.held := by
  obtain ⟨hled, -⟩ := event_calls (reached_phase (h.conns.reached r hopen)) ha hstep
  obtain ⟨hlog, hconns, hblocks⟩ := settle_frame env { w with stage := .handling rest } r c
    (c.tr.drop (w.conns r).tr.length)
  have hmem := open_mem h hopen
  subst hw'
  unfold settleConn Worker.held
  rw [hlog, hconns, hblocks]
  exact ledger_settle hmem hl hled

theorem ledger_expire {reaped : Bool} {t : Timers Unit Nat} {node : Nat} (h : WorkerOk lib env w)
    (hl : workerLedger 0 w.log = some w.held) (hopen : (w.conns (t.nodes node).rq).isOpen = true)
    (hw' : w' = settleConn env (t.nodes node).rq
      (zvHttpCloseConn reaped (w.conns (t.nodes node).rq)) { w with timers := callHandler t node }) :
    workerLedger 0 w'.log = some w'.held := by
  generalize (t.nodes node).rq = r at hopen hw'
  obtain ⟨hled, -⟩ := expire_calls (reached_phase (h.conns.reached r hopen)) hopen reaped
  obtain ⟨hlog, hconns, hblocks⟩ := settle_frame env { w with timers := callHandler t node } r
    (zvHttpCloseConn reaped (w.conns r))
    ((zvHttpCloseConn reaped (w.conns r)).tr.drop (w.conns r).tr.length)
  have hmem := open_mem h hopen
  subst hw'
  unfold settleConn Worker.held
  rw [hlog, hconns, hblocks]
  exact ledger_settle hmem hl hled

theorem ledger_acceptOne {rest : List Event} {fd : Fd} {malloc : Option Nat} {item : Bool}
    (h : WorkerOk lib env w) (hl : workerLedger 0 w.log = some w.held)
    (hnew : ∀ r ∈ malloc, r ∉ w.pool.blocks) :
    workerLedger 0 (acceptOne cf env w rest fd malloc item).log =
      some (acceptOne cf env w rest fd malloc item).held := by
  have haccept := workerLedger_accept fd hl
  obtain ⟨ring, hok, -⟩ := h.blocks.pool
  unfold acceptOne
  dsimp only
  generalize hget : zvHttpRequestGet w.pool malloc = res
  obtain ⟨pool, res⟩ := res
  obtain ⟨-, -, -, -, hnone, hsome, -⟩ := requestGet_ok hok hnew hget
  cases res with
  | none =>
    show workerLedger 0 (w.log ++ [.accept fd] ++ [.drop fd]) = some (∑ n ∈ pool.blocks, (w.conns n).held)
    rw [hnone rfl, workerLedger_append, haccept, Option.bind_some, workerLedger,
      if_pos (Multiset.mem_cons_self _ _), Multiset.erase_cons_head]
    rfl
  | some r =>
    obtain ⟨-, -, -, hshut⟩ := get_fresh h.blocks hnew hget
    have hblocks : pool.blocks = insert r w.pool.blocks := hsome r rfl
    dsimp only
    generalize (if r ∈ w.pool.blocks then (w.conns r).r else Request.zero) = old
    generalize ((if r ∈ w.pool.blocks then w.items r else false) || item) = hasItem
    cases hasItem with
    | true =>
      rw [if_pos rfl]
      unfold Worker.held
      obtain ⟨hlog, hconns, hsame⟩ := settle_frame _ _ _ _ _
      rw [hlog, hconns, hsame, workerLedger_append]
      dsimp only
      rw [haccept, Option.bind_some, workerLedger_of, hblocks, held_insert hshut, held_accept]
      rfl
    | false =>
      rw [if_neg fun hx => by cases hx]
      unfold Worker.held
      obtain ⟨hlog, hconns, hsame⟩ := settle_frame _ _ _ _ _
      rw [hlog, hconns, hsame, workerLedger_append]
      dsimp only
      rw [haccept, Option.bind_some, workerLedger_of, hblocks, held_insert hshut, ledger_close_cons,
        held_closed rfl, Multiset.zero_add]
      rfl

theorem ledger_wait {evs : List Event} {conns : Nat → Conn} (h : WorkerOk lib env w)
    (hs : w.stage = .waiting) (hnodup : (evs.map Event.item).Nodup)
    (ht : evs.foldlM takeEvent w.conns = some conns) :
    ∑ r ∈ w.pool.blocks, (conns r).held = w.held := by
  have hbatch := h.batch
  rw [hs] at hbatch
  obtain ⟨-, -, hsame⟩ := takeEvents_ok h.conns hbatch hnodup ht
  refine Finset.sum_congr rfl fun r _ => ?_
  obtain ⟨hopen, -, hr⟩ := hsame r
  unfold Conn.held
  rw [hopen, hr]

/-- A block that is flushed holds nothing. -/
theorem ledger_flush {pool : RequestPool} (h : WorkerOk lib env w)
    (hp : flushRound w.pool = some pool) : ∑ r ∈ pool.blocks, (w.conns r).held = w.held := by
  obtain ⟨ring, hok, -⟩ := h.blocks.pool
  have hround := flushRound_ok hok
  rw [hp] at hround
  obtain ⟨r, rest, ring', hring, -, -, hblocks, -⟩ := hround
  have hmem : r ∈ ring .deferred := by
    rw [hring]
    exact List.mem_cons_self
  have hshut : (w.conns r).isOpen = false := by
    refine Bool.eq_false_of_not_eq_true fun hx => ?_
    exact live_out hok ((h.blocks.live r).mpr (.inr hx)) .deferred hmem
  unfold Worker.held
  rcases hblocks with heq | heq
  · rw [heq]
  · rw [heq]
    exact Finset.sum_erase _ (held_closed hshut)

theorem ledger_step {a : WorkerAct} (h : WorkerOk lib env w)
    (hl : workerLedger 0 w.log = some w.held) (hstep : workerStep lib cf env w a = some w') :
    workerLedger 0 w'.log = some w'.held := by
  cases workerStep_cases h hstep with
  | wait evs conns hs hnodup ht => exact hl.trans (congrArg some (ledger_wait h hs hnodup ht).symm)
  | accept rest fd malloc item hs hnew => exact ledger_acceptOne h hl hnew
  | acceptEnd rest hs => exact hl
  | event cb e rest r a c hs he ha hopen hca => exact ledger_event h hl ha hopen hca rfl
  | expireEnd reaped t hs hr => exact hl
  | expireDrop reaped t hs hr => exact hl
  | expire reaped t node w₁ hs hr hw₁ =>
    have hopen := (expire_ok h hs hr hw₁).1
    have hsettled := ledger_expire h hl hopen hw₁
    exact hsettled
  | flushEnd hs hp => exact hl
  | flush pool hs hp => exact hl.trans (congrArg some (ledger_flush h hp).symm)

/-! ### What a record says of one descriptor -/

theorem workerLedger_cons (fds : Multiset Fd) (x : WorkerCall) (log : List WorkerCall) :
    workerLedger fds (x :: log) =
      (workerLedger fds [x]).bind fun fds => workerLedger fds log :=
  workerLedger_append fds [x] log

theorem count_close {fds : Multiset Fd} {fd fd' : Fd} (h : fd' ∈ fds) :
    fds.count fd = (if fd' = fd then 1 else 0) + (fds.erase fd').count fd := by
  obtain ⟨rest, rfl⟩ := Multiset.exists_cons_of_mem h
  rw [Multiset.erase_cons_head, Multiset.count_cons, Nat.add_comm]
  congr 1
  exact if_congr eq_comm rfl rfl

theorem count_open (fds : Multiset Fd) (fd fd' : Fd) :
    (fd' ::ₘ fds).count fd = fds.count fd + if fd' = fd then 1 else 0 := by
  rw [Multiset.count_cons]
  congr 1
  exact if_congr eq_comm rfl rfl

/-- One call. -/
theorem balance_one {fds fds' : Multiset Fd} {x : WorkerCall} (h : workerLedger fds [x] = some fds')
    (fd : Fd) : fds.count fd + x.opens fd = x.closes fd + fds'.count fd := by
  have hsame : ∀ r call, x = .of r call → keepsFds call = true →
      fds.count fd + x.opens fd = x.closes fd + fds'.count fd := by
    rintro r call rfl hk
    have heq : ledger fds [call] = some fds :=
      ledger_keeps (fun y hy => List.mem_singleton.mp hy ▸ hk) fds
    rw [workerLedger, heq] at h
    obtain rfl := Option.some.inj h
    cases call with
    | close fd' => cases hk
    | openFile file fd' => cases hk
    | pipe rd wr => cases hk
    | _ => exact (Nat.zero_add _).symm
  cases x with
  | accept fd' =>
    obtain rfl := Option.some.inj h
    show _ = 0 + _
    rw [Nat.zero_add]
    exact (count_open fds fd fd').symm
  | drop fd' =>
    rw [workerLedger] at h
    split at h
    · next hmem =>
      obtain rfl := Option.some.inj h
      exact count_close hmem
    · cases h
  | of r call =>
    cases call with
    | close fd' =>
      rw [workerLedger, ledger] at h
      split at h
      · next hmem =>
        obtain rfl := Option.some.inj h
        exact count_close hmem
      · cases h
    | openFile file fd' =>
      obtain rfl := Option.some.inj h
      show _ = 0 + _
      rw [Nat.zero_add]
      exact (count_open fds fd fd').symm
    | pipe rd wr =>
      obtain rfl := Option.some.inj h
      show _ = 0 + _
      rw [Nat.zero_add, count_open, count_open, Nat.add_assoc, Nat.add_comm (if wr = fd then 1 else 0)]
      rfl
    | _ => exact hsame r _ rfl rfl

/-- Every descriptor was closed as often as it was opened, but for the one that is open. -/
theorem balance {fds fds' : Multiset Fd} {log : List WorkerCall} (h : workerLedger fds log = some fds')
    (fd : Fd) : fds.count fd + (log.map (WorkerCall.opens fd)).sum =
      (log.map (WorkerCall.closes fd)).sum + fds'.count fd := by
  induction log generalizing fds with
  | nil =>
    obtain rfl := Option.some.inj h
    simp
  | cons x log ih =>
    rw [workerLedger_cons] at h
    obtain ⟨fds₁, h₁, h₂⟩ := Option.bind_eq_some_iff.mp h
    have hone := balance_one h₁ fd
    have hrest := ih h₂
    rw [List.map_cons, List.map_cons, List.sum_cons, List.sum_cons]
    omega

/-- A kernel that hands out no open descriptor leaves every descriptor open at most once. -/
theorem fresh_nodup {fds fds' : Multiset Fd} {log : List WorkerCall} (hn : fds.Nodup)
    (hf : FreshFds fds log) (h : workerLedger fds log = some fds') : fds'.Nodup := by
  induction log generalizing fds with
  | nil =>
    obtain rfl := Option.some.inj h
    exact hn
  | cons x log ih =>
    rw [workerLedger_cons] at h
    obtain ⟨fds₁, h₁, h₂⟩ := Option.bind_eq_some_iff.mp h
    have hsame : ∀ r call, x = .of r call → keepsFds call = true → FreshFds fds log → fds'.Nodup := by
      rintro r call rfl hk hf
      have heq : ledger fds [call] = some fds :=
        ledger_keeps (fun y hy => List.mem_singleton.mp hy ▸ hk) fds
      rw [workerLedger, heq] at h₁
      obtain rfl := Option.some.inj h₁
      exact ih hn hf h₂
    cases x with
    | accept fd =>
      obtain rfl := Option.some.inj h₁
      exact ih (Multiset.nodup_cons.mpr ⟨hf.1, hn⟩) hf.2 h₂
    | drop fd =>
      rw [workerLedger] at h₁
      split at h₁
      · obtain rfl := Option.some.inj h₁
        exact ih (hn.erase fd) hf h₂
      · cases h₁
    | of r call =>
      cases call with
      | close fd =>
        rw [workerLedger, ledger] at h₁
        split at h₁
        · obtain rfl := Option.some.inj h₁
          exact ih (hn.erase fd) hf h₂
        · cases h₁
      | openFile file fd =>
        obtain rfl := Option.some.inj h₁
        exact ih (Multiset.nodup_cons.mpr ⟨hf.1, hn⟩) hf.2 h₂
      | pipe rd wr =>
        obtain rfl := Option.some.inj h₁
        obtain ⟨hrd, hwr, hne, hf⟩ := hf
        refine ih (Multiset.nodup_cons.mpr ⟨fun hx => ?_, Multiset.nodup_cons.mpr ⟨hwr, hn⟩⟩) hf h₂
        exact (Multiset.mem_cons.mp hx).elim hne hrd
      | _ => exact hsame r _ rfl rfl hf

end WorkerLedgerLemmas

open WorkerLedgerLemmas

/-- The open descriptors of the clients are those that the open connections hold; each was closed
as often as it was opened, but for these, and no two connections hold one. -/
structure DescriptorsExact (w : Worker) : Prop where
  exact : workerLedger 0 w.log = some w.held
  owners : ∀ r, (w.conns r).isOpen = true → r ∈ w.pool.blocks
  balance : ∀ fd, (w.log.map (WorkerCall.opens fd)).sum =
    (w.log.map (WorkerCall.closes fd)).sum + w.held.count fd
  disjoint : FreshFds 0 w.log → w.held.Nodup

/-- In every state that a worker reaches the descriptors that were opened for clients and not closed
are those in the fields of the open connections, and none was closed that was not open. -/
theorem descriptors_exact {lib : Libc} {cf : Conf} {env : TimerEnv} {w : Worker}
    (h : WorkerReached lib cf env w) : DescriptorsExact w := by
  have hok := workerReached_ok h
  have hexact : workerLedger 0 w.log = some w.held := by
    obtain ⟨links, malloc, mem, pool, listen, nodes, timers, acts, hget, hinit, hrun⟩ := h
    have hstart : workerLedger 0 (workerStart mem pool listen timers).log =
        some (workerStart mem pool listen timers).held := by
      refine congrArg some (Eq.symm ?_)
      exact Finset.sum_eq_zero fun r _ => rfl
    exact (run_invariant (P := fun w => WorkerOk lib env w ∧ workerLedger 0 w.log = some w.held)
      (fun _ _ _ hw hstep => ⟨workerStep_ok hw.1 hstep, ledger_step hw.1 hw.2 hstep⟩)
      ⟨workerStart_ok hget hinit, hstart⟩ hrun).2
  refine ⟨hexact, fun r hr => open_mem hok hr, fun fd => ?_, fun hf => ?_⟩
  · have hbal := balance hexact fd
    rw [Multiset.count_zero, Nat.zero_add] at hbal
    exact hbal
  · exact fresh_nodup Multiset.nodup_zero hf hexact

end Zaver
