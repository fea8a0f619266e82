import Zaver.WorkerEvents
import Zaver.WorkerTimers

/-!
# Runs of the worker

What holds of a worker between two callbacks (`WorkerOk`): an open connection is in a state
that a single connection reaches, its block was handed out and not given back, it has one timer,
and its events in the batch are those of its registrations that were taken. Every step keeps it
(`workerStep_ok`), because the handling of an event or of a timer is a step of one connection
(`workerStep_cases`).

Results: `phases_exclusive`, `timers_owned` and `pool_disciplined`.
-/

namespace Zaver

open LinkedRing Runs ConnectionLemmas CallbacksLemmas RequestPoolLemmas WorkerEventsLemmas
open WorkerTimersLemmas

/-! ## The invariant -/

/-- The pool and the blocks it has handed out. -/
structure BlocksOk (p : RequestPool) (closed : List Nat) (listen : Nat) (conns : Nat → Conn) :
    Prop where
  pool : ∃ ring, PoolOk p ring ∧ ∀ r ∈ closed, r ∈ ring .deferred
  inited : p.inited = true
  live : ∀ r, p.Live r ↔ r = listen ∨ (conns r).isOpen = true
  listen : (conns listen).isOpen = false

/-- The blocks with an open connection. -/
def Worker.opens (w : Worker) : Set Nat := { r | (w.conns r).isOpen = true }

/-- What every step of the worker keeps. -/
structure WorkerOk (lib : Libc) (env : TimerEnv) (w : Worker) : Prop where
  conns : ConnsOk lib w.conns
  blocks : BlocksOk w.pool w.closed w.listen w.conns
  batch : BatchOk w.conns w.stage.batch
  timers : Owned env w.timers w.serial w.armer w.starved w.opens
  noNull : w.nullTimer = false
  flushed : w.stage = .flushing → w.closed = []

/-! ## The steps of the worker -/

/-- The action is the handling of an event. -/
def ConnAct.isEvent : ConnAct → Bool
  | .hangup _ => true
  | a => a.isCallback

/-- The steps, as steps of the connections. -/
inductive WorkerStepped (lib : Libc) (cf : Conf) (env : TimerEnv) (w : Worker) :
    WorkerAct → Worker → Prop
  | wait (evs : List Event) (conns : Nat → Conn) : w.stage = .waiting →
      (evs.map Event.item).Nodup → evs.foldlM takeEvent w.conns = some conns →
      WorkerStepped lib cf env w (.wait evs)
        { w with conns := conns, timers := (zvFindTimer env w.timers).1, stage := .handling evs }
  | accept (rest : List Event) (fd : Fd) (malloc : Option Nat) (item : Bool) :
      w.stage = .handling (.listen :: rest) → (∀ r ∈ malloc, r ∉ w.pool.blocks) →
      WorkerStepped lib cf env w (.accept fd malloc item) (acceptOne cf env w rest fd malloc item)
  | acceptEnd (rest : List Event) : w.stage = .handling (.listen :: rest) →
      WorkerStepped lib cf env w .acceptEnd { w with stage := .handling rest }
  | event (cb : CallbackEnv) (e : Event) (rest : List Event) (r : Nat) (a : ConnAct) (c : Conn) :
      w.stage = .handling (e :: rest) → About r e → a.isEvent = true →
      (w.conns r).isOpen = true → connStep lib (w.conns r) a = some c →
      WorkerStepped lib cf env w (.callback cb)
        (settleConn env r c { w with stage := .handling rest })
  | expireEnd (reaped : Bool) (t : Timers Unit Nat) : w.stage = .handling [] →
      Rounds env w.timers (t, .ended) →
      WorkerStepped lib cf env w (.expire reaped)
        { w with timers := t, stage := .flushing, closed := [] }
  | expireDrop (reaped : Bool) (t : Timers Unit Nat) : w.stage = .handling [] →
      Rounds env w.timers (t, .marked) →
      WorkerStepped lib cf env w (.expire reaped) { w with timers := t }
  | expire (reaped : Bool) (t : Timers Unit Nat) (node : Nat) (w' : Worker) :
      w.stage = .handling [] → Rounds env w.timers (t, .due node) →
      w' = settleConn env (t.nodes node).rq (zvHttpCloseConn reaped (w.conns (t.nodes node).rq))
        { w with timers := callHandler t node } →
      WorkerStepped lib cf env w (.expire reaped) { w' with timers := popTimer env w'.timers }
  | flushEnd : w.stage = .flushing → flushRound w.pool = none →
      WorkerStepped lib cf env w .flush { w with stage := .waiting }
  | flush (pool : RequestPool) : w.stage = .flushing → flushRound w.pool = some pool →
      WorkerStepped lib cf env w .flush { w with pool := pool }

namespace WorkerRunsLemmas

variable {lib : Libc} {cf : Conf} {env : TimerEnv} {w w' : Worker} {r : Nat}

/-- The callback of an event of a socket is a step of the connection. -/
theorem handleConn_step {cb : CallbackEnv} {x : Ready} {c c' : Conn} {ev : Interest}
    (hsock : c.sock = .fired ev) (hfits : x.fits ev = true) (h : handleConn lib cb x c = some c') :
    ∃ a, ConnAct.isEvent a = true ∧ connStep lib c a = some c' := by
  have hhangup : ∀ reaped, connStep lib c (.hangup reaped) = some (zvHttpCloseConn reaped c.delTimer) := by
    intro reaped
    simp only [connStep, hsock]
  unfold Ready.fits at hfits
  obtain ⟨hfits, hsome⟩ := Bool.and_eq_true_iff.mp hfits
  obtain ⟨hrd, hwr⟩ := Bool.and_eq_true_iff.mp hfits
  unfold handleConn at h
  split at h
  · exact ⟨.hangup cb.reaped, rfl, (hhangup _).trans h⟩
  · next herr =>
    split at h
    · next hx =>
      rw [hx, Bool.not_true, Bool.false_or, beq_iff_eq] at hrd
      subst hrd
      exact ⟨.request cb.passes, rfl, (if_pos hsock).trans h⟩
    · next hrd' =>
      split at h
      · next hx =>
        rw [hx, Bool.not_true, Bool.false_or, beq_iff_eq] at hwr
        subst hwr
        exact ⟨.write cb.write, rfl, (if_pos hsock).trans h⟩
      · next hwr' =>
        split at h
        · exact ⟨.hangup cb.reaped, rfl, (hhangup _).trans h⟩
        · next hhup =>
          rw [Bool.eq_false_of_not_eq_true herr, Bool.eq_false_of_not_eq_true hrd',
            Bool.eq_false_of_not_eq_true hwr', Bool.eq_false_of_not_eq_true hhup] at hsome
          cases hsome

end WorkerRunsLemmas

open WorkerRunsLemmas

theorem workerStep_cases {lib : Libc} {cf : Conf} {env : TimerEnv} {w w' : Worker} {a : WorkerAct}
    (h : WorkerOk lib env w) (hstep : workerStep lib cf env w a = some w') :
    WorkerStepped lib cf env w a w' := by
  have hbatch := h.batch
  cases a with
  | wait evs =>
    simp only [workerStep] at hstep
    split at hstep
    · next hs =>
      split at hstep
      · next hnodup =>
        obtain ⟨conns, hconns, rfl⟩ := Option.map_eq_some_iff.mp hstep
        exact .wait evs conns hs hnodup hconns
      · cases hstep
    · cases hstep
  | accept fd malloc item =>
    simp only [workerStep] at hstep
    split at hstep
    · next rest hs =>
      split at hstep
      · next hnew =>
        obtain rfl := Option.some.inj hstep
        exact .accept rest fd malloc item hs hnew
      · cases hstep
    · cases hstep
  | acceptEnd =>
    simp only [workerStep] at hstep
    split at hstep
    · next rest hs =>
      obtain rfl := Option.some.inj hstep
      exact .acceptEnd rest hs
    · cases hstep
  | callback cb =>
    simp only [workerStep] at hstep
    split at hstep
    · next r x rest hs =>
      rw [hs] at hbatch
      obtain ⟨c, hc, rfl⟩ := Option.map_eq_some_iff.mp hstep
      obtain ⟨ev, hev, hfits⟩ := hbatch.conn r x List.mem_cons_self
      obtain ⟨a, ha, hca⟩ := handleConn_step hev hfits hc
      have hopen := open_sock h.conns (r := r) (by rw [hev]; exact fun hx => by cases hx)
      exact .event cb _ rest r a c hs (.inl rfl) ha hopen hca
    · next r rest hs =>
      rw [hs] at hbatch
      obtain ⟨c, hc, rfl⟩ := Option.map_eq_some_iff.mp hstep
      obtain ⟨ev, hev⟩ := hbatch.cgi r List.mem_cons_self
      have hopen := open_pipe h.conns (r := r) (by rw [hev]; exact fun hx => by cases hx)
      have hin : ev = .epollin := by
        cases reached_phase (h.conns.reached r hopen) with
        | reading _ _ hpipe | writing _ _ hpipe | cgiWriting _ _ hpipe | closed _ _ hpipe =>
          cases hev.symm.trans hpipe
        | cgiReading _ _ hpipe => exact (fired_waits hev hpipe).symm
      subst hin
      exact .event cb _ rest r (.stdout cb.pipe cb.reaped) c hs (.inr rfl) rfl hopen
        ((if_pos hev).trans hc)
    · cases hstep
  | expire reaped =>
    simp only [workerStep] at hstep
    split at hstep
    · next hs =>
      have hrounds := expireRound_cases env w.timers
      split at hstep
      · next t ht =>
        rw [ht] at hrounds
        obtain rfl := Option.some.inj hstep
        exact .expireEnd reaped t hs hrounds
      · next t ht =>
        rw [ht] at hrounds
        obtain rfl := Option.some.inj hstep
        exact .expireDrop reaped t hs hrounds
      · next t node ht =>
        rw [ht] at hrounds
        obtain rfl := Option.some.inj hstep
        exact .expire reaped t node _ hs hrounds rfl
    · cases hstep
  | flush =>
    simp only [workerStep] at hstep
    split at hstep
    · next hs =>
      split at hstep
      · next hp =>
        obtain rfl := Option.some.inj hstep
        exact .flushEnd hs hp
      · next pool hp =>
        obtain rfl := Option.some.inj hstep
        exact .flush pool hs hp
    · cases hstep

namespace WorkerRunsLemmas

variable {lib : Libc} {cf : Conf} {env : TimerEnv} {w w' : Worker} {r : Nat}

/-! ### What a callback asks for -/

/-- The calls of a connection in the handling of an event. -/
theorem event_calls {c c' : Conn} {a : ConnAct} (h : Phase c) (ha : a.isEvent = true)
    (hstep : connStep lib c a = some c') :
    ledger c.held (c'.tr.drop c.tr.length) = some c'.held ∧
      ((c'.isOpen = true ∧ ∃ ms, marksOf (c'.tr.drop c.tr.length) = [.delTimer, .addTimer ms]) ∨
        (c'.isOpen = false ∧ marksOf (c'.tr.drop c.tr.length) = [.delTimer, .putDeferred])) := by
  obtain ⟨calls, ms, htr, hmarks, hled⟩ := connStep_shared h hstep
  rw [htr, List.drop_left, hmarks]
  refine ⟨hled, ?_⟩
  cases a with
  | takeSocket | takePipe | expire reaped => cases ha
  | request es | write e | stdout answers reaped =>
    rw [stepMarks_callback rfl]
    cases hopen : c'.isOpen with
    | true => exact .inl ⟨rfl, ms, rfl⟩
    | false => exact .inr ⟨rfl, rfl⟩
  | hangup reaped =>
    refine .inr ⟨?_, rfl⟩
    cases connStep_cases hstep with
    | hangup ev reaped hf => rfl

/-- The calls of a connection whose timer has expired. -/
theorem expire_calls {c : Conn} (h : Phase c) (hopen : c.isOpen = true) (reaped : Bool) :
    ledger c.held ((zvHttpCloseConn reaped c).tr.drop c.tr.length) = some (zvHttpCloseConn reaped c).held ∧
      marksOf ((zvHttpCloseConn reaped c).tr.drop c.tr.length) = [.putDeferred] := by
  have hstep : connStep sampleLib c (.expire reaped) = some (zvHttpCloseConn reaped c) :=
    if_pos hopen
  obtain ⟨calls, ms, htr, hmarks, hled⟩ := connStep_shared h hstep
  rw [htr, List.drop_left, hmarks]
  exact ⟨hled, rfl⟩

/-! ### Settling a block -/

theorem remove_insert {s : Set Nat} (h : r ∈ s) : insert r (s \ {r}) = s := by
  rw [Set.insert_sdiff_singleton, Set.insert_eq_of_mem h]

/-- A callback that goes on gives its timer up for another. -/
theorem settle_rests {has : Set Nat} {c : Conn} {calls : List Call} {ms : Nat}
    (h : Owned env w.timers w.serial w.armer w.starved has) (hr : r ∈ has)
    (hm : marksOf calls = [.delTimer, .addTimer ms]) :
    ∃ t armer armedAt starved, settle env r c calls w =
        { w with
          conns := Function.update w.conns r c, log := w.log ++ calls.map (.of r)
          timers := t, armer := armer, armedAt := armedAt, starved := starved } ∧
      Owned env t w.serial armer starved has := by
  obtain ⟨t, ht, hdel⟩ := owned_del h hr
  have hadd := owned_add hdel (fun hx => hx.2 rfl) (UInt64.ofNat ms)
  rw [remove_insert hr] at hadd
  refine ⟨_, _, Function.update w.armedAt r t.reads, _, ?_, hadd⟩
  unfold settle
  rw [hm, List.foldl_cons, List.foldl_cons, List.foldl_nil]
  simp only [mark, ht]

/-- A callback that closes gives its timer up, and its block back. -/
theorem settle_closes {has : Set Nat} {c : Conn} {calls : List Call}
    (h : Owned env w.timers w.serial w.armer w.starved has) (hr : r ∈ has)
    (hm : marksOf calls = [.delTimer, .putDeferred]) :
    ∃ t, settle env r c calls w =
        { w with
          conns := Function.update w.conns r c, log := w.log ++ calls.map (.of r)
          timers := t, pool := zvHttpRequestPutDeferred w.pool r, closed := r :: w.closed } ∧
      Owned env t w.serial w.armer w.starved (has \ {r}) := by
  obtain ⟨t, ht, hdel⟩ := owned_del h hr
  refine ⟨t, ?_, hdel⟩
  unfold settle
  rw [hm, List.foldl_cons, List.foldl_cons, List.foldl_nil]
  simp only [mark, ht]
  rw [owned_clear hdel fun hx => hx.2 rfl]

/-- A block that has no timer is given back. -/
theorem settle_put (env : TimerEnv) (w : Worker) (r : Nat) (c : Conn) {calls : List Call}
    (hm : marksOf calls = [.putDeferred]) :
    settle env r c calls w =
      { w with
        conns := Function.update w.conns r c, log := w.log ++ calls.map (.of r)
        timers := w.timers.clear r, pool := zvHttpRequestPutDeferred w.pool r
        closed := r :: w.closed } := by
  unfold settle
  rw [hm]
  rfl

/-! ### The pool and the blocks -/

theorem putDeferred_inited (p : RequestPool) (r : Nat) :
    (zvHttpRequestPutDeferred p r).inited = true := initPool_inited p

/-- A block that is closed is given back. -/
theorem blocks_close {p : RequestPool} {closed : List Nat} {listen : Nat} {conns : Nat → Conn}
    {c : Conn} (h : BlocksOk p closed listen conns) (hopen : (conns r).isOpen = true)
    (hc : c.isOpen = false) :
    BlocksOk (zvHttpRequestPutDeferred p r) (r :: closed) listen (Function.update conns r c) := by
  obtain ⟨ring, hok, hclosed⟩ := h.pool
  have hlive := (h.live r).mpr (.inr hopen)
  obtain ⟨hok', -, hlive'⟩ := putDeferred_ok hok hlive
  have hne : listen ≠ r := by
    rintro rfl
    cases hopen.symm.trans h.listen
  refine ⟨⟨_, hok', fun n hn => ?_⟩, putDeferred_inited p r, fun n => ?_, ?_⟩
  · rw [Function.update_self]
    cases List.mem_cons.mp hn with
    | inl heq =>
      rw [heq]
      exact List.mem_cons_self
    | inr hn => exact List.mem_cons_of_mem _ (hclosed n hn)
  · rw [hlive' n, h.live n]
    by_cases heq : n = r
    · subst heq
      rw [Function.update_self, hc]
      refine ⟨fun hx => absurd rfl hx.2, fun hx => ?_⟩
      rcases hx with hx | hx
      · exact absurd hx.symm hne
      · cases hx
    · rw [Function.update_of_ne heq]
      exact ⟨fun hx => hx.1, fun hx => ⟨hx, heq⟩⟩
  · rw [Function.update_of_ne hne]
    exact h.listen

/-- A connection that stays open keeps its block. -/
theorem blocks_keep {p : RequestPool} {closed : List Nat} {listen : Nat} {conns : Nat → Conn}
    {c : Conn} (h : BlocksOk p closed listen conns) (hopen : (conns r).isOpen = c.isOpen) :
    BlocksOk p closed listen (Function.update conns r c) := by
  have hsame : ∀ n, (Function.update conns r c n).isOpen = (conns n).isOpen := by
    intro n
    by_cases heq : n = r
    · subst heq
      rw [Function.update_self, hopen]
    · rw [Function.update_of_ne heq]
  refine ⟨h.pool, h.inited, fun n => ?_, ?_⟩
  · rw [hsame n]
    exact h.live n
  · rw [hsame]
    exact h.listen

/-- The sets of blocks with an open connection. -/
theorem opens_update {conns : Nat → Conn} {c : Conn} (hc : c.isOpen = true) :
    { n | (Function.update conns r c n).isOpen = true } = insert r { n | (conns n).isOpen = true } := by
  refine Set.ext fun n => ?_
  rw [Set.mem_insert_iff]
  by_cases heq : n = r
  · subst heq
    refine ⟨fun _ => .inl rfl, fun _ => ?_⟩
    show (Function.update conns n c n).isOpen = true
    rw [Function.update_self]
    exact hc
  · show (Function.update conns r c n).isOpen = true ↔ _
    rw [Function.update_of_ne heq, or_iff_right heq]
    exact Iff.rfl

theorem closes_update {conns : Nat → Conn} {c : Conn} (hc : c.isOpen = false) :
    { n | (Function.update conns r c n).isOpen = true } = { n | (conns n).isOpen = true } \ {r} := by
  refine Set.ext fun n => ?_
  rw [Set.mem_sdiff, Set.mem_singleton_iff]
  by_cases heq : n = r
  · subst heq
    refine ⟨fun hx => ?_, fun hx => absurd rfl hx.2⟩
    have hx' : (Function.update conns n c n).isOpen = true := hx
    rw [Function.update_self, hc] at hx'
    cases hx'
  · show (Function.update conns r c n).isOpen = true ↔ _
    rw [Function.update_of_ne heq]
    exact ⟨fun hx => ⟨hx, heq⟩, fun hx => hx.1⟩

/-! ### Steps -/

theorem event_isWorker {a : ConnAct} (ha : a.isEvent = true) : a.isWorker = true := by
  cases a with
  | takeSocket | takePipe => cases ha
  | _ => rfl

theorem event_ok {e : Event} {rest : List Event} {a : ConnAct} {c : Conn} (h : WorkerOk lib env w)
    (hs : w.stage = .handling (e :: rest)) (he : About r e) (ha : a.isEvent = true)
    (hopen : (w.conns r).isOpen = true) (hstep : connStep lib (w.conns r) a = some c) :
    WorkerOk lib env (settleConn env r c { w with stage := .handling rest }) := by
  have hphase := reached_phase (h.conns.reached r hopen)
  obtain ⟨-, hmarks⟩ := event_calls hphase ha hstep
  have hconns := conns_step h.conns hopen hstep
  have hbatch := h.batch
  rw [hs] at hbatch
  have hbatch' := batch_pop hbatch hphase he (connStep_unfired hphase (event_isWorker ha) hstep)
  unfold settleConn
  rcases hmarks with ⟨hc, ms, hm⟩ | ⟨hc, hm⟩
  · obtain ⟨t, armer, armedAt, starved, heq, htimers⟩ := settle_rests
      (w := { w with stage := .handling rest }) (c := c) h.timers hopen hm
    rw [heq]
    have hopens : { n | (Function.update w.conns r c n).isOpen = true } = w.opens := by
      rw [opens_update hc]
      exact Set.insert_eq_of_mem hopen
    refine ⟨hconns, blocks_keep h.blocks (hopen.trans hc.symm), hbatch', ?_, h.noNull,
      fun hx => by cases hx⟩
    show Owned env t w.serial armer starved { n | (Function.update w.conns r c n).isOpen = true }
    rw [hopens]
    exact htimers
  · obtain ⟨t, heq, htimers⟩ := settle_closes (w := { w with stage := .handling rest })
      (c := c) h.timers hopen hm
    rw [heq]
    refine ⟨hconns, blocks_close h.blocks hopen hc, hbatch', ?_, h.noNull,
      fun hx => by cases hx⟩
    show Owned env t w.serial w.armer w.starved { n | (Function.update w.conns r c n).isOpen = true }
    rw [closes_update hc]
    exact htimers

/-- The handler of a timer closes the connection that the timer is of. -/
theorem expire_ok {reaped : Bool} {t : Timers Unit Nat} {node : Nat} (h : WorkerOk lib env w)
    (hs : w.stage = .handling []) (hr : Rounds env w.timers (t, .due node))
    (hw' : w' = settleConn env (t.nodes node).rq
      (zvHttpCloseConn reaped (w.conns (t.nodes node).rq)) { w with timers := callHandler t node }) :
    (w.conns (t.nodes node).rq).isOpen = true ∧ w.armer node = w.serial (t.nodes node).rq ∧
      WorkerOk lib env { w' with timers := popTimer env w'.timers } := by
  cases hr with
  | due _ hmin hd hkey =>
    have htick := owned_tick h.timers
    obtain ⟨hmine, howned⟩ := owned_expire htick hmin hd
    generalize hrq : ((zvTimeUpdate env w.timers).nodes node).rq = r at hmine howned hw' ⊢
    have hopen : (w.conns r).isOpen = true := (htick.has_iff r).mpr ⟨node, hmine⟩
    have harm := (htick.node r node hmine).2.2.2
    refine ⟨hopen, harm, ?_⟩
    have hphase := reached_phase (h.conns.reached r hopen)
    have hstep : connStep lib (w.conns r) (.expire reaped) =
        some (zvHttpCloseConn reaped (w.conns r)) := if_pos hopen
    obtain ⟨-, hm⟩ := expire_calls hphase hopen reaped
    have hcleared : (callHandler (zvTimeUpdate env w.timers) node).clear r =
        callHandler (zvTimeUpdate env w.timers) node := by
      have hnone : (callHandler (zvTimeUpdate env w.timers) node).timer r = none :=
        if_pos hrq.symm
      unfold Timers.clear
      rw [← hnone, Function.update_eq_self]
    rw [settleConn, settle_put env _ r _ hm] at hw'
    subst hw'
    have hbatch := h.batch
    rw [hs] at hbatch
    have hquiet : Unfired (w.conns r) := by
      intro ev
      refine ⟨fun hx => ?_, fun hx => ?_⟩
      · obtain ⟨x, hx⟩ := hbatch.connFired r ev hx
        exact absurd hx List.not_mem_nil
      · exact absurd (hbatch.cgiFired r ev hx) List.not_mem_nil
    have hshut : Unfired (zvHttpCloseConn reaped (w.conns r)) :=
      fun ev => ⟨(fun hx => by cases hx), fun hx => by cases hx⟩
    refine ⟨conns_step h.conns hopen hstep, blocks_close h.blocks hopen rfl, ?_, ?_, h.noNull,
      fun hx => by cases hs.symm.trans hx⟩
    · show BatchOk _ w.stage.batch
      rw [hs]
      exact batch_quiet hbatch hquiet hshut (.inl rfl)
    · show Owned env (popTimer env ((callHandler (zvTimeUpdate env w.timers) node).clear r)) _ _ _
        { n | (Function.update w.conns r _ n).isOpen = true }
      rw [hcleared, closes_update rfl]
      exact howned

/-! ### Accepting -/

theorem requestGet_inited {p p' : RequestPool} {malloc res : Option Nat}
    (h : zvHttpRequestGet p malloc = (p', res)) : p'.inited = true := by
  have hin := initPool_inited p
  unfold zvHttpRequestGet at h
  dsimp only at h
  generalize initPool p = q at hin h
  split at h
  · split at h
    · obtain rfl := (Prod.mk.inj h).1
      exact hin
    · obtain rfl := (Prod.mk.inj h).1
      exact hin
  · split at h
    · obtain rfl := (Prod.mk.inj h).1
      exact hin
    · obtain rfl := (Prod.mk.inj h).1
      exact hin

/-- No block could be had. -/
theorem blocks_get_none {p p' : RequestPool} {closed : List Nat} {listen : Nat} {conns : Nat → Conn}
    {malloc : Option Nat} (h : BlocksOk p closed listen conns) (hnew : ∀ r ∈ malloc, r ∉ p.blocks)
    (hget : zvHttpRequestGet p malloc = (p', none)) : BlocksOk p' closed listen conns := by
  obtain ⟨ring, hok, hclosed⟩ := h.pool
  obtain ⟨ring', hok', hdeferred, -, -, -, hlive⟩ := requestGet_ok hok hnew hget
  refine ⟨⟨ring', hok', fun r hr => hdeferred ▸ hclosed r hr⟩, requestGet_inited hget, fun r => ?_,
    h.listen⟩
  rw [hlive r, ← h.live r]
  exact ⟨fun hx => hx.elim (fun hx => by cases hx) id, .inr⟩

/-- A block that is handed out was not in use, and was not closed in this batch. -/
theorem get_fresh {p p' : RequestPool} {closed : List Nat} {listen : Nat} {conns : Nat → Conn}
    {malloc : Option Nat} (h : BlocksOk p closed listen conns) (hnew : ∀ r ∈ malloc, r ∉ p.blocks)
    (hget : zvHttpRequestGet p malloc = (p', some r)) :
    ¬ p.Live r ∧ r ∉ closed ∧ r ≠ listen ∧ (conns r).isOpen = false := by
  obtain ⟨ring, hok, hclosed⟩ := h.pool
  obtain ⟨ring', -, hdeferred, hfresh, -, -, -⟩ := requestGet_ok hok hnew hget
  obtain ⟨hdead, hout⟩ := hfresh r rfl
  refine ⟨hdead, fun hr => hout .deferred (hdeferred ▸ hclosed r hr), fun heq => ?_, ?_⟩
  · exact hdead ((h.live r).mpr (.inl heq))
  · exact Bool.eq_false_of_not_eq_true fun hx => hdead ((h.live r).mpr (.inr hx))

/-- A block is handed out for a connection. -/
theorem blocks_open {p p' : RequestPool} {closed : List Nat} {listen : Nat} {conns : Nat → Conn}
    {malloc : Option Nat} {c : Conn} (h : BlocksOk p closed listen conns)
    (hnew : ∀ r ∈ malloc, r ∉ p.blocks) (hget : zvHttpRequestGet p malloc = (p', some r))
    (hc : c.isOpen = true) : BlocksOk p' closed listen (Function.update conns r c) := by
  obtain ⟨-, -, hne, -⟩ := get_fresh h hnew hget
  obtain ⟨ring, hok, hclosed⟩ := h.pool
  obtain ⟨ring', hok', hdeferred, -, -, -, hlive⟩ := requestGet_ok hok hnew hget
  refine ⟨⟨ring', hok', fun n hn => hdeferred ▸ hclosed n hn⟩, requestGet_inited hget, fun n => ?_, ?_⟩
  · rw [hlive n, h.live n]
    by_cases heq : n = r
    · subst heq
      rw [Function.update_self]
      exact ⟨fun _ => .inr hc, fun _ => .inl rfl⟩
    · rw [Function.update_of_ne heq]
      refine ⟨fun hx => hx.elim (fun hx => ?_) id, .inr⟩
      exact absurd (Option.some.inj hx).symm heq
  · rw [Function.update_of_ne hne.symm]
    exact h.listen

theorem closed_unfired {c : Conn} (h : c.sock = .off ∧ c.pipe = .off) : Unfired c := by
  intro ev
  rw [h.1, h.2]
  exact ⟨(fun hx => by cases hx), fun hx => by cases hx⟩

theorem accept_ok {rest : List Event} {fd : Fd} {malloc : Option Nat} {item : Bool}
    (h : WorkerOk lib env w) (hs : w.stage = .handling (.listen :: rest))
    (hnew : ∀ r ∈ malloc, r ∉ w.pool.blocks) :
    WorkerOk lib env (acceptOne cf env w rest fd malloc item) := by
  have hbatch := h.batch
  rw [hs] at hbatch
  unfold acceptOne
  dsimp only
  generalize hget : zvHttpRequestGet w.pool malloc = res
  obtain ⟨pool, res⟩ := res
  cases res with
  | none =>
    exact ⟨h.conns, blocks_get_none h.blocks hnew hget, batch_listen hbatch, h.timers, h.noNull,
      fun hx => by cases hx⟩
  | some r =>
    obtain ⟨-, -, -, hshut⟩ := get_fresh h.blocks hnew hget
    have hquiet := closed_unfired (h.conns.shut r hshut)
    have hno : r ∉ w.opens := fun hx => by cases hshut.symm.trans hx
    have hserial := owned_serial h.timers hno w.count
    have hclear := owned_clear h.timers hno
    dsimp only
    rw [hclear]
    generalize (if r ∈ w.pool.blocks then (w.conns r).r else Request.zero) = old
    generalize ((if r ∈ w.pool.blocks then w.items r else false) || item) = hasItem
    cases hasItem with
    | true =>
      rw [if_pos rfl]
      unfold settle
      have hadd := owned_add hserial hno (UInt64.ofNat (zvInitRequestT old fd cf).keepAliveTimeoutMs)
      refine ⟨conns_update h.conns (fun _ => reached_accept old fd cf) (fun hx => by cases hx),
        blocks_open h.blocks hnew hget rfl, ?_, ?_, h.noNull, fun hx => by cases hs.symm.trans hx⟩
      · show BatchOk (Function.update w.conns r (acceptConn old fd cf)) w.stage.batch
        rw [hs]
        refine batch_quiet hbatch hquiet (fun ev => ?_) (.inl rfl)
        exact ⟨(fun hx => by cases hx), fun hx => by cases hx⟩
      · show Owned env _ _ _ _ { n | (Function.update w.conns r (acceptConn old fd cf) n).isOpen = true }
        rw [opens_update rfl]
        exact hadd
    | false =>
      rw [if_neg fun hx => by cases hx]
      rw [settle_put env _ r _ rfl]
      have hopened := blocks_open (c := acceptConn old fd cf) h.blocks hnew hget rfl
      have hclosed := blocks_close (r := r)
        (c := { r := zvInitRequestT old fd cf, sock := .off, pipe := .off, isOpen := false, tr := [] })
        hopened (by rw [Function.update_self]; rfl) rfl
      rw [Function.update_idem] at hclosed
      refine ⟨conns_update h.conns (fun hx => by cases hx) fun _ => ⟨rfl, rfl⟩, hclosed,
        batch_quiet hbatch hquiet (closed_unfired ⟨rfl, rfl⟩) (.inr rfl), ?_, h.noNull,
        fun hx => by cases hx⟩
      show Owned env (w.timers.clear r) _ _ _ { n | (Function.update w.conns r _ n).isOpen = true }
      rw [hclear, closes_update rfl]
      have hsame : w.opens \ {r} = w.opens := Set.sdiff_singleton_eq_self hno
      show Owned env w.timers _ _ _ (w.opens \ {r})
      rw [hsame]
      exact hserial

/-! ### Waiting and flushing -/

theorem wait_ok {evs : List Event} {conns : Nat → Conn} (h : WorkerOk lib env w)
    (hs : w.stage = .waiting) (hnodup : (evs.map Event.item).Nodup)
    (ht : evs.foldlM takeEvent w.conns = some conns) :
    WorkerOk lib env
      { w with conns := conns, timers := (zvFindTimer env w.timers).1, stage := .handling evs } := by
  have hbatch := h.batch
  rw [hs] at hbatch
  obtain ⟨hconns, hbatch', hsame⟩ := takeEvents_ok h.conns hbatch hnodup ht
  refine ⟨hconns, ⟨h.blocks.pool, h.blocks.inited, fun n => ?_, ?_⟩, hbatch', ?_, h.noNull,
    fun hx => by cases hx⟩
  · show _ ↔ _ ∨ (conns n).isOpen = true
    rw [(hsame n).1]
    exact h.blocks.live n
  · exact (hsame _).1.trans h.blocks.listen
  · have hopens : { n | (conns n).isOpen = true } = w.opens := by
      refine Set.ext fun n => ?_
      show (conns n).isOpen = true ↔ _
      rw [(hsame n).1]
      exact Iff.rfl
    show Owned env _ _ _ _ { n | (conns n).isOpen = true }
    rw [hopens]
    exact owned_find h.timers

theorem flushRound_inited {p p' : RequestPool} (h : flushRound p = some p') : p'.inited = true := by
  unfold flushRound at h
  dsimp only at h
  split at h
  · cases h
  · split at h
    · cases h
    · obtain rfl := Option.some.inj h
      unfold zvHttpRequestPut putInternal
      dsimp only
      split
      · exact initPool_inited _
      · exact initPool_inited _

theorem flush_ok {pool : RequestPool} (h : WorkerOk lib env w) (hclosed : w.closed = [])
    (hp : flushRound w.pool = some pool) : WorkerOk lib env { w with pool := pool } := by
  obtain ⟨ring, hok, -⟩ := h.blocks.pool
  have hround := flushRound_ok hok
  rw [hp] at hround
  obtain ⟨r, rest, ring', -, hok', -, -, hlive⟩ := hround
  refine ⟨h.conns, ⟨⟨ring', hok', fun n hn => ?_⟩, flushRound_inited hp, fun n => ?_, h.blocks.listen⟩,
    h.batch, h.timers, h.noNull, h.flushed⟩
  · rw [hclosed] at hn
    exact absurd hn List.not_mem_nil
  · rw [hlive n]
    exact h.blocks.live n

end WorkerRunsLemmas

open WorkerRunsLemmas

theorem workerStep_ok {lib : Libc} {cf : Conf} {env : TimerEnv} {w w' : Worker} {a : WorkerAct}
    (h : WorkerOk lib env w) (hstep : workerStep lib cf env w a = some w') : WorkerOk lib env w' := by
  cases workerStep_cases h hstep with
  | wait evs conns hs hnodup ht => exact wait_ok h hs hnodup ht
  | accept rest fd malloc item hs hnew => exact accept_ok h hs hnew
  | acceptEnd rest hs =>
    have hbatch := h.batch
    rw [hs] at hbatch
    exact ⟨h.conns, h.blocks, batch_listen hbatch, h.timers, h.noNull, fun hx => by cases hx⟩
  | event cb e rest r a c hs he ha hopen hca => exact event_ok h hs he ha hopen hca
  | expireEnd reaped t hs hr =>
    obtain ⟨ring, hok, -⟩ := h.blocks.pool
    have hbatch := h.batch
    rw [hs] at hbatch
    refine ⟨h.conns, ⟨⟨ring, hok, fun n hn => ?_⟩, h.blocks.inited, h.blocks.live, h.blocks.listen⟩,
      hbatch, ?_, h.noNull, fun _ => rfl⟩
    · exact absurd hn List.not_mem_nil
    · cases hr with
      | empty => exact h.timers
      | later => exact owned_tick h.timers
  | expireDrop reaped t hs hr =>
    refine ⟨h.conns, h.blocks, h.batch, ?_, h.noNull, h.flushed⟩
    cases hr with
    | marked node hmin hd => exact owned_pop (owned_tick h.timers) hmin hd
  | expire reaped t node w₁ hs hr hw₁ => exact (expire_ok h hs hr hw₁).2.2
  | flushEnd hs hp =>
    have hbatch := h.batch
    rw [hs] at hbatch
    exact ⟨h.conns, h.blocks, hbatch, h.timers, h.noNull, fun hx => by cases hx⟩
  | flush pool hs hp => exact flush_ok h (h.flushed hs) hp

theorem workerStart_ok {lib : Libc} {env : TimerEnv} {links : Links (PoolHead ⊕ Nat)}
    {malloc : Option Nat} {mem : Nat → Request} {pool : RequestPool} {listen : Nat}
    {nodes : Nat → TimerNode Unit Nat} {timers : Timers Unit Nat}
    (hget : zvHttpRequestGet (poolStart links) malloc = (pool, some listen))
    (hinit : zvTimerInit env nodes = some timers) :
    WorkerOk lib env (workerStart mem pool listen timers) := by
  have hnone : ∀ r, ¬ (poolStart links).Live r := fun r hr => absurd hr.1 (Finset.notMem_empty r)
  obtain ⟨ring, hok, -, -, -, -, hlive⟩ :=
    requestGet_ok (poolStart_ok links) (fun r _ => Finset.notMem_empty r) hget
  refine ⟨⟨(fun r hr => by cases hr), fun r _ => ⟨rfl, rfl⟩⟩,
    ⟨⟨ring, hok, fun r hr => absurd hr List.not_mem_nil⟩, requestGet_inited hget, fun r => ?_, rfl⟩,
    ⟨fun r x hx => absurd hx List.not_mem_nil, fun r hx => absurd hx List.not_mem_nil,
      (fun r ev hx => by cases hx), (fun r ev hx => by cases hx), List.nodup_nil⟩, ?_, rfl,
    fun _ => rfl⟩
  · show pool.Live r ↔ _
    rw [hlive r]
    constructor
    · rintro (hr | hr)
      · exact .inl (Option.some.inj hr).symm
      · exact absurd hr (hnone r)
    · rintro (rfl | hr)
      · exact .inl rfl
      · cases hr
  · have hempty : (workerStart mem pool listen timers).opens = ∅ :=
      Set.ext fun r => ⟨(fun hx => by cases hx), fun hx => by cases hx⟩
    rw [hempty]
    exact owned_init hinit

/-- Every state that a worker reaches is right. -/
theorem workerReached_ok {lib : Libc} {cf : Conf} {env : TimerEnv} {w : Worker}
    (h : WorkerReached lib cf env w) : WorkerOk lib env w := by
  obtain ⟨links, malloc, mem, pool, listen, nodes, timers, acts, hget, hinit, hrun⟩ := h
  exact run_invariant (fun _ _ _ => workerStep_ok) (workerStart_ok hget hinit) hrun

/-! ## Phases of the connections -/

/-- The phases of an open connection. -/
inductive PhaseName
  | reading
  | writing
  | cgiReading
  | cgiWriting

/-- The socket of a block waits for `ev`, or its event waits for the callback. -/
def Worker.SockWaits (w : Worker) (r : Nat) (ev : Interest) : Prop :=
  (w.conns r).sock = .armed ev ∨
    (w.conns r).sock = .fired ev ∧ ∃ x, .conn r x ∈ w.stage.batch

/-- The CGI pipe of a block waits to be read, or its event waits for the callback. -/
def Worker.PipeWaits (w : Worker) (r : Nat) : Prop :=
  (w.conns r).pipe = .armed .epollin ∨ (w.conns r).pipe = .fired .epollin ∧ .cgiOut r ∈ w.stage.batch

/-- What epoll and the flags of a block say in each phase. -/
def InPhase (w : Worker) (r : Nat) : PhaseName → Prop
  | .reading => w.SockWaits r .epollin ∧ (w.conns r).pipe = .off ∧
      (w.conns r).r.out.writing = false ∧ (w.conns r).r.cgi.active = false ∧
      Clean (w.conns r).r.out
  | .writing => w.SockWaits r .epollout ∧ (w.conns r).pipe = .off ∧
      (w.conns r).r.out.writing = true ∧ (w.conns r).r.cgi.active = false
  | .cgiReading => (w.conns r).sock = .off ∧ w.PipeWaits r ∧ (w.conns r).r.cgi.active = true ∧
      unsentChunk (w.conns r).r.cgi = false
  | .cgiWriting => w.SockWaits r .epollout ∧ (w.conns r).pipe = .off ∧
      (w.conns r).r.cgi.active = true

/-- An open connection is in one phase, which says which callback can come, and no callback comes
for a block that was closed. -/
structure PhasesExclusive (w : Worker) : Prop where
  one : ∀ r, (w.conns r).isOpen = true → ∃! p, InPhase w r p
  oneItem : ∀ r, (w.conns r).sock = .off ∨ (w.conns r).pipe = .off
  conn : ∀ r x, .conn r x ∈ w.stage.batch → (w.conns r).isOpen = true ∧ r ∉ w.closed
  cgi : ∀ r, .cgiOut r ∈ w.stage.batch → (w.conns r).isOpen = true ∧ r ∉ w.closed
  request : ∀ r x, .conn r x ∈ w.stage.batch → x.rd = true → InPhase w r .reading
  write : ∀ r x, .conn r x ∈ w.stage.batch → x.wr = true →
    InPhase w r .writing ∨ InPhase w r .cgiWriting
  stdout : ∀ r, .cgiOut r ∈ w.stage.batch → InPhase w r .cgiReading

namespace WorkerRunsLemmas

variable {lib : Libc} {env : TimerEnv} {w : Worker} {r : Nat}

theorem waits_cases {g : Reg} {ev : Interest} (h : g.waits ev = true) :
    g = .armed ev ∨ g = .fired ev := by
  unfold Reg.waits at h
  exact (Bool.or_eq_true_iff.mp h).imp beq_iff_eq.mp beq_iff_eq.mp

theorem sock_waits {ev : Interest} (h : BatchOk w.conns w.stage.batch)
    (hw : (w.conns r).sock.waits ev = true) : w.SockWaits r ev :=
  (waits_cases hw).imp id fun hf => ⟨hf, h.connFired r ev hf⟩

theorem pipe_waits (h : BatchOk w.conns w.stage.batch)
    (hw : (w.conns r).pipe.waits .epollin = true) : w.PipeWaits r :=
  (waits_cases hw).imp id fun hf => ⟨hf, h.cgiFired r .epollin hf⟩

/-- The socket waits for one thing. -/
theorem sockWaits_unique {ev ev' : Interest} (h : w.SockWaits r ev) (h' : w.SockWaits r ev') :
    ev = ev' := by
  rcases h with h | ⟨h, -⟩
  · rcases h' with h' | ⟨h', -⟩
    · exact Reg.armed.inj (h.symm.trans h')
    · cases h.symm.trans h'
  · rcases h' with h' | ⟨h', -⟩
    · cases h.symm.trans h'
    · exact Reg.fired.inj (h.symm.trans h')

theorem sockWaits_on {ev : Interest} (h : w.SockWaits r ev) : (w.conns r).sock ≠ .off := by
  intro hx
  rcases h with h | ⟨h, -⟩
  · cases hx.symm.trans h
  · cases hx.symm.trans h

/-- The flags and the registrations of two phases do not agree. -/
theorem inPhase_unique {p p' : PhaseName} (h : InPhase w r p) (h' : InPhase w r p') : p = p' := by
  cases p with
  | reading =>
    obtain ⟨hs, -, -, ha, -⟩ := h
    cases p' with
    | reading => rfl
    | writing => cases sockWaits_unique hs h'.1
    | cgiReading => exact absurd h'.1 (sockWaits_on hs)
    | cgiWriting => cases sockWaits_unique hs h'.1
  | writing =>
    obtain ⟨hs, -, -, ha⟩ := h
    cases p' with
    | reading => cases sockWaits_unique hs h'.1
    | writing => rfl
    | cgiReading => exact absurd h'.1 (sockWaits_on hs)
    | cgiWriting => cases ha.symm.trans h'.2.2
  | cgiReading =>
    have hs := h.1
    cases p' with
    | reading => exact absurd hs (sockWaits_on h'.1)
    | writing => exact absurd hs (sockWaits_on h'.1)
    | cgiReading => rfl
    | cgiWriting => exact absurd hs (sockWaits_on h'.1)
  | cgiWriting =>
    obtain ⟨hs, -, ha⟩ := h
    cases p' with
    | reading => cases sockWaits_unique hs h'.1
    | writing => cases h'.2.2.2.symm.trans ha
    | cgiReading => exact absurd h'.1 (sockWaits_on hs)
    | cgiWriting => rfl

/-- The phase of an open connection, as the worker sees it. -/
theorem inPhase_of_phase (hb : BatchOk w.conns w.stage.batch) (hopen : (w.conns r).isOpen = true)
    (h : Phase (w.conns r)) : ∃ p, InPhase w r p := by
  cases h with
  | reading _ hsock hpipe hout hcgi _ =>
    exact ⟨.reading, sock_waits hb hsock, hpipe, hout.writing, noScript_active hcgi, hout⟩
  | writing _ hsock hpipe hout hcgi _ =>
    exact ⟨.writing, sock_waits hb hsock, hpipe, hout, noScript_active hcgi⟩
  | cgiReading _ hsock hpipe hs _ hu => exact ⟨.cgiReading, hsock, pipe_waits hb hpipe, hs.active, hu⟩
  | cgiWriting _ hsock hpipe hs _ _ => exact ⟨.cgiWriting, sock_waits hb hsock, hpipe, hs.active⟩
  | closed hclosed => cases hclosed.symm.trans hopen

theorem open_not_closed (h : WorkerOk lib env w) (hopen : (w.conns r).isOpen = true) :
    r ∉ w.closed := by
  obtain ⟨ring, hok, hclosed⟩ := h.blocks.pool
  have hlive := (h.blocks.live r).mpr (.inr hopen)
  exact fun hr => live_out hok hlive .deferred (hclosed r hr)

end WorkerRunsLemmas

open WorkerRunsLemmas

/-- Between two callbacks of a worker an open connection is in one of the four phases, at most one
of its registrations is armed, and callbacks come only in their phases, never to a block that
was closed in the same batch. -/
theorem phases_exclusive {lib : Libc} {cf : Conf} {env : TimerEnv} {w : Worker}
    (h : WorkerReached lib cf env w) : PhasesExclusive w := by
  have hok := workerReached_ok h
  have hphase : ∀ r, (w.conns r).isOpen = true → Phase (w.conns r) :=
    fun r hr => reached_phase (hok.conns.reached r hr)
  have hin : ∀ r, (w.conns r).isOpen = true → ∃ p, InPhase w r p :=
    fun r hr => inPhase_of_phase hok.batch hr (hphase r hr)
  have hopen : ∀ r x, .conn r x ∈ w.stage.batch → (w.conns r).isOpen = true := by
    intro r x hx
    obtain ⟨ev, hev, -⟩ := hok.batch.conn r x hx
    exact open_sock hok.conns (by rw [hev]; exact fun hx => by cases hx)
  have hopen' : ∀ r, .cgiOut r ∈ w.stage.batch → (w.conns r).isOpen = true := by
    intro r hx
    obtain ⟨ev, hev⟩ := hok.batch.cgi r hx
    exact open_pipe hok.conns (by rw [hev]; exact fun hx => by cases hx)
  -- the socket of an event waits for what the event says
  have hwaits : ∀ r x ev, .conn r x ∈ w.stage.batch → (w.conns r).sock = .fired ev → w.SockWaits r ev :=
    fun r x ev hx hev => .inr ⟨hev, x, hx⟩
  refine ⟨fun r hr => ?_, fun r => ?_, fun r x hx => ⟨hopen r x hx, open_not_closed hok (hopen r x hx)⟩,
    fun r hx => ⟨hopen' r hx, open_not_closed hok (hopen' r hx)⟩, fun r x hx hrd => ?_,
    fun r x hx hwr => ?_, fun r hx => ?_⟩
  · obtain ⟨p, hp⟩ := hin r hr
    exact ⟨p, hp, fun p' hp' => inPhase_unique hp' hp⟩
  · cases hr : (w.conns r).isOpen with
    | false => exact .inl (hok.conns.shut r hr).1
    | true =>
      cases hphase r hr with
      | reading _ _ hpipe | writing _ _ hpipe | cgiWriting _ _ hpipe | closed _ _ hpipe =>
        exact .inr hpipe
      | cgiReading _ hsock => exact .inl hsock
  · obtain ⟨ev, hev, hfits⟩ := hok.batch.conn r x hx
    have hin' : ev = .epollin := by
      unfold Ready.fits at hfits
      rw [hrd] at hfits
      simpa using (Bool.and_eq_true_iff.mp (Bool.and_eq_true_iff.mp hfits).1).1
    subst hin'
    obtain ⟨p, hp⟩ := hin r (hopen r x hx)
    cases p with
    | reading => exact hp
    | writing | cgiWriting => cases sockWaits_unique (hwaits r x _ hx hev) hp.1
    | cgiReading => exact absurd hp.1 (sockWaits_on (hwaits r x _ hx hev))
  · obtain ⟨ev, hev, hfits⟩ := hok.batch.conn r x hx
    have hout' : ev = .epollout := by
      unfold Ready.fits at hfits
      rw [hwr] at hfits
      simpa using (Bool.and_eq_true_iff.mp (Bool.and_eq_true_iff.mp hfits).1).2
    subst hout'
    obtain ⟨p, hp⟩ := hin r (hopen r x hx)
    cases p with
    | reading => cases sockWaits_unique (hwaits r x _ hx hev) hp.1
    | writing => exact .inl hp
    | cgiWriting => exact .inr hp
    | cgiReading => exact absurd hp.1 (sockWaits_on (hwaits r x _ hx hev))
  · obtain ⟨ev, hev⟩ := hok.batch.cgi r hx
    obtain ⟨p, hp⟩ := hin r (hopen' r hx)
    cases p with
    | cgiReading => exact hp
    | reading | writing | cgiWriting => cases hev.symm.trans hp.2.1

/-! ### A run -/

/-- Idle connections are closed soon, requests have time. -/
def reuseConf : Conf := ⟨some (ascii "/srv"), 8, 1000⟩

/-- The client of a connection has sent something. -/
def readable : Ready := ⟨false, true, false, false⟩

/-- A `do_request` that reads `bs`, and starts a script if it comes to one. -/
def starting (bs : Bytes) (start : CgiStartEnv) : CallbackEnv where
  passes := [{ missingPass with read := .ok bs, stat := some ⟨true, true, true, 10, 0⟩, start := start }]
  write := ⟨⟨[], []⟩, [], false, false⟩
  pipe := []
  reaped := false

/-- Two clients are accepted, and the second asks for a script; the first sends nothing and is closed,
and a third, accepted in its block, asks for a script, too. -/
def reuseRun : List WorkerAct :=
  [.wait [.listen], .accept 5 (some 1) true, .accept 6 (some 2) true, .acceptEnd, .expire false, .flush,
    .wait [.conn 2 readable],
    .callback (starting (ascii "GET /cgi-bin/x HTTP/1.1\r\n\r\n")
      ⟨some (10, 11), some (12, 13), some 42, true⟩), .expire false, .flush,
    .wait [], .expire false, .expire false, .expire false, .flush, .flush,
    .wait [.listen], .accept 7 none true, .acceptEnd, .expire false, .flush,
    .wait [.conn 1 readable],
    .callback (starting (ascii "GET /cgi-bin/x HTTP/1.1\r\n\r\n")
      ⟨some (14, 15), some (16, 17), some 43, true⟩), .expire false, .expire false, .flush]

/-- The state before the loop, with nothing in memory. -/
def reuseStart : Worker :=
  workerStart (fun _ => Request.zero) (zvHttpRequestGet (poolStart ⟨id, id⟩) (some 0)).1 0
    (zvTimeUpdate countingEnv
      { heap := ⟨fun _ => 0, 0, 11, 11, false⟩, nodes := fun _ => ⟨0, false, (), 0⟩, count := 0
        timer := fun _ => none, now := 0, reads := 0, calls := [] })

/-- The block of the first connection holds the third, whose script runs. -/
structure Reused (w : Worker) : Prop where
  reached : WorkerReached sampleLib reuseConf countingEnv w
  isOpen : (w.conns 1).isOpen = true
  serial : w.serial 1 = 2
  active : (w.conns 1).r.cgi.active = true
  fed : w.starved = false

theorem reuseRun_reused : ∃ w, Reused w := by
  have hsome : (run (workerStep sampleLib reuseConf countingEnv) reuseStart reuseRun).map (fun w =>
      ((w.conns 1).isOpen, w.serial 1, (w.conns 1).r.cgi.active, w.starved)) =
      some (true, 2, true, false) := by decide +kernel
  obtain ⟨w, hw, hshow⟩ := Option.map_eq_some_iff.mp hsome
  obtain ⟨hopen, hrest⟩ := Prod.mk.inj hshow
  obtain ⟨hserial, hrest⟩ := Prod.mk.inj hrest
  obtain ⟨hactive, hfed⟩ := Prod.mk.inj hrest
  exact ⟨w, ⟨⟨id, id⟩, some 0, fun _ => Request.zero, _, 0, fun _ => ⟨0, false, (), 0⟩, _, reuseRun,
    rfl, rfl, hw⟩, hopen, hserial, hactive, hfed⟩

theorem phases_exclusive_reused : ∃ w, Reused w ∧ PhasesExclusive w := by
  obtain ⟨w, hw⟩ := reuseRun_reused
  exact ⟨w, hw, phases_exclusive hw.reached⟩

/-! ## Timers of the connections -/

/-- Timers and open connections are one to one. `owned` holds when the queue of the timers always
got its memory. -/
structure TimersOwned (lib : Libc) (cf : Conf) (env : TimerEnv) (w : Worker) : Prop where
  noNull : w.nullTimer = false
  owned : w.starved = false → ∀ r, (w.conns r).isOpen = true → ∃ n, w.timers.timer r = some n ∧
    ∀ m, w.timers.Live m ∧ (w.timers.nodes m).rq = r ↔ m = n
  live : ∀ n, w.timers.Live n → (w.conns (w.timers.nodes n).rq).isOpen = true ∧
    w.pool.Live (w.timers.nodes n).rq ∧ w.timers.timer (w.timers.nodes n).rq = some n ∧
    w.armer n = w.serial (w.timers.nodes n).rq
  expiry : ∀ reaped w', workerStep lib cf env w (.expire reaped) = some w' → ∀ r,
    (w'.conns r).isOpen ≠ (w.conns r).isOpen → (w'.conns r).isOpen = false ∧
      ∃ n, w.timers.Live n ∧ (w.timers.nodes n).rq = r ∧ w.armer n = w.serial r ∧
        (w.timers.nodes n).key ≤ env.clock w.timers.reads

/-- In every state that a worker reaches no block without a timer is asked to drop one, every open
connection has one node in the queue, every node that is not marked is that of an open connection
and was made for it, and a timer that expires closes the connection that it was made for. -/
theorem timers_owned {lib : Libc} {cf : Conf} {env : TimerEnv} {w : Worker}
    (h : WorkerReached lib cf env w) : TimersOwned lib cf env w := by
  have hok := workerReached_ok h
  have hlive : ∀ n, w.timers.Live n → w.timers.timer (w.timers.nodes n).rq = some n :=
    fun n hn => hok.timers.live n hn.1 hn.2
  have hopen : ∀ n, w.timers.Live n → (w.conns (w.timers.nodes n).rq).isOpen = true :=
    fun n hn => (hok.timers.has_iff _).mpr ⟨n, hlive n hn⟩
  refine ⟨hok.noNull, fun hs r hr => ?_, fun n hn => ?_, fun reaped w' hstep r hr => ?_⟩
  · obtain ⟨n, hn⟩ := (hok.timers.has_iff r).mp hr
    obtain ⟨-, hd, hrq, -⟩ := hok.timers.node r n hn
    refine ⟨n, hn, fun m => ⟨fun hm => ?_, fun heq => ?_⟩⟩
    · obtain ⟨hm, hrm⟩ := hm
      have hmine := hlive m hm
      rw [hrm] at hmine
      exact Option.some.inj (hmine.symm.trans hn)
    · rw [heq]
      exact ⟨⟨hok.timers.stored hs r n hn, hd⟩, hrq⟩
  · have hmine := hlive n hn
    exact ⟨hopen n hn, (hok.blocks.live _).mpr (.inr (hopen n hn)), hmine,
      (hok.timers.node _ n hmine).2.2.2⟩
  · cases workerStep_cases hok hstep with
    | expireEnd _ t hs hr' => exact absurd rfl hr
    | expireDrop _ t hs hr' => exact absurd rfl hr
    | expire _ t node w₁ hs hround hw₁ =>
      obtain ⟨hopen', harm, -⟩ := expire_ok hok hs hround hw₁
      obtain ⟨-, hm⟩ := expire_calls (reached_phase (hok.conns.reached _ hopen')) hopen' reaped
      have hconns : w₁.conns = Function.update w.conns (t.nodes node).rq
          (zvHttpCloseConn reaped (w.conns (t.nodes node).rq)) := by
        rw [hw₁, settleConn, settle_put env _ _ _ hm]
      -- the block that changes is the one of the node
      have heq : r = (t.nodes node).rq := by
        by_contra hne
        refine hr ?_
        show (w₁.conns r).isOpen = _
        rw [hconns, Function.update_of_ne hne]
      cases hround with
      | due _ hmin hd hkey =>
        have hmem := (PriorityQueueLemmas.zvPqMin_least hok.timers.ok.heap hmin).1
        refine ⟨?_, node, ⟨hmem, hd⟩, heq.symm, ?_, hkey⟩
        · show (w₁.conns r).isOpen = false
          rw [hconns, heq, Function.update_self]
          rfl
        · rw [heq]
          exact harm

theorem timers_owned_reused :
    ∃ w, Reused w ∧ TimersOwned sampleLib reuseConf countingEnv w := by
  obtain ⟨w, hw⟩ := reuseRun_reused
  exact ⟨w, hw, timers_owned hw.reached⟩

/-! ## The states of the blocks -/

/-- Where a block can be. -/
inductive BlockState
  | live
  | deferred
  | free
  | returned

/-- The state of a block, by the lists of the pool. -/
def InState (p : RequestPool) (free deferred : List Nat) (r : Nat) : BlockState → Prop
  | .live => p.Live r
  | .deferred => r ∈ deferred
  | .free => r ∈ free
  | .returned => r ∉ p.blocks

/-- Both lists of the pool are rings, the counter counts the free blocks, every block is in one
state, was given back at most once since it was handed out, and is not handed out again in the
batch in which it was closed. -/
structure PoolDisciplined (lib : Libc) (cf : Conf) (env : TimerEnv) (w : Worker) : Prop where
  lists : ∃ free deferred : List Nat,
    IsRing w.pool.links (.inl .free) (free.map .inr) ∧
      IsRing w.pool.links (.inl .deferred) (deferred.map .inr) ∧
      w.pool.freeCount = free.length ∧ free.length ≤ ZV_REQUEST_FREELIST_MAX ∧
      (∀ r ∈ w.closed, r ∈ deferred) ∧ ∀ r, ∃! s, InState w.pool free deferred r s
  live : ∀ r, w.pool.Live r ↔ r = w.listen ∨ (w.conns r).isOpen = true
  once : ∀ r, w.pool.defers r ≤ 1 ∧ w.pool.puts r ≤ 1
  fresh : ∀ fd malloc item w', workerStep lib cf env w (.accept fd malloc item) = some w' →
    ∀ r, (zvHttpRequestGet w.pool malloc).2 = some r → ¬ w.pool.Live r ∧ r ∉ w.closed

namespace WorkerRunsLemmas

/-- The lists and the counters tell the states apart. -/
theorem state_unique {p : RequestPool} {ring : PoolHead → List Nat} (h : PoolOk p ring)
    (hin : p.inited = true) (r : Nat) :
    ∃! s, InState p (ring .free) (ring .deferred) r s := by
  have happart : ¬ (r ∈ ring .free ∧ r ∈ ring .deferred) := by
    rintro ⟨hf, hd⟩
    cases h.rings.apart .free hin .deferred hin r hf hd
  by_cases hf : r ∈ ring .free
  · refine ⟨.free, hf, fun s hs => ?_⟩
    cases s with
    | live => exact absurd hf (live_out h hs .free)
    | deferred => exact absurd ⟨hf, hs⟩ happart
    | free => rfl
    | returned => exact absurd (h.owned .free r hf) hs
  by_cases hd : r ∈ ring .deferred
  · refine ⟨.deferred, hd, fun s hs => ?_⟩
    cases s with
    | live => exact absurd hd (live_out h hs .deferred)
    | deferred => rfl
    | free => exact absurd hs hf
    | returned => exact absurd (h.owned .deferred r hd) hs
  by_cases hb : r ∈ p.blocks
  · have hout : ∀ k, r ∉ ring k := by
      intro k
      cases k with
      | free => exact hf
      | deferred => exact hd
    refine ⟨.live, h.live r hb hout, fun s hs => ?_⟩
    cases s with
    | live => rfl
    | deferred => exact absurd hs hd
    | free => exact absurd hs hf
    | returned => exact absurd hb hs
  · refine ⟨.returned, hb, fun s hs => ?_⟩
    cases s with
    | live => exact absurd hs.1 hb
    | deferred => exact absurd hs hd
    | free => exact absurd hs hf
    | returned => rfl

end WorkerRunsLemmas

open WorkerRunsLemmas

/-- In every state that a worker reaches the pool of its blocks is in order. -/
theorem pool_disciplined {lib : Libc} {cf : Conf} {env : TimerEnv} {w : Worker}
    (h : WorkerReached lib cf env w) : PoolDisciplined lib cf env w := by
  have hok := workerReached_ok h
  obtain ⟨ring, hpool, hclosed⟩ := hok.blocks.pool
  have hin := hok.blocks.inited
  refine ⟨⟨ring .free, ring .deferred, hpool.rings.rings .free hin, hpool.rings.rings .deferred hin,
    hpool.count, hpool.bound, hclosed, state_unique hpool hin⟩, hok.blocks.live, hpool.once,
    fun fd malloc item w' hstep r hr => ?_⟩
  cases workerStep_cases hok hstep with
  | accept rest _ _ _ hs hnew =>
    have hget : zvHttpRequestGet w.pool malloc = ((zvHttpRequestGet w.pool malloc).1, some r) := by
      rw [← hr]
    obtain ⟨hdead, hnot, -, -⟩ := get_fresh hok.blocks hnew hget
    exact ⟨hdead, hnot⟩

theorem pool_disciplined_reused :
    ∃ w, Reused w ∧ PoolDisciplined sampleLib reuseConf countingEnv w := by
  obtain ⟨w, hw⟩ := reuseRun_reused
  exact ⟨w, hw, pool_disciplined hw.reached⟩

end Zaver
