import Zaver.Callbacks
import Zaver.RequestPool
import Zaver.Timer

/-!
# The worker

The loop of `worker.c` over the blocks of all connections: `epoll_wait` takes a batch of
events, their callbacks run one after another, then the timers that are due, and then the
blocks that were closed go to the list of free ones. A callback works on its own block
(`handleConn`); what it asks of the timers and of the pool is done in the order in which it
asked for it (`settle`). The worker does not look at the state of a connection before it calls.

The kernel reports a registration at most once in a batch, and only for what it was armed for.
`epoll_ctl` succeeds. It is assumed that `close` ends a registration, which it does unless the process
of a script holds the socket; the events that then come are in `StaleEvents`.
-/

namespace Zaver

open Runs

/-! ## Events -/

/-- The bits of an event that the worker looks at, in its order. -/
structure Ready where
  err : Bool
  rd : Bool
  wr : Bool
  hup : Bool

/-- An event of a batch, by the kind of its item. -/
inductive Event
  | listen
  | conn (r : Nat) (ready : Ready)
  | cgiOut (r : Nat)

/-- The registrations of the worker. -/
inductive Item
  | listen
  | conn (r : Nat)
  | cgiOut (r : Nat)
deriving DecidableEq, Repr

def Event.item : Event → Item
  | .listen => .listen
  | .conn r _ => .conn r
  | .cgiOut r => .cgiOut r

/-- What the kernel may report of a registration for `ev`. Errors are always reported. -/
def Ready.fits (x : Ready) (ev : Interest) : Bool :=
  (!x.rd || ev == .epollin) && (!x.wr || ev == .epollout) && (x.err || x.rd || x.wr || x.hup)

/-- The answers that a callback gets. -/
structure CallbackEnv where
  passes : List PassEnv
  write : WriteEnv
  pipe : List (Ans Bytes)
  reaped : Bool

/-- The callback of an event of a client socket; none while it has not returned. -/
def handleConn (lib : Libc) (env : CallbackEnv) (x : Ready) (c : Conn) : Option Conn :=
  if x.err then some (zvHttpCloseConn env.reaped c.delTimer)
  else if x.rd then returned (doRequest lib env.passes { c with sock := .off })
  else if x.wr then returned (doWrite env.write { c with sock := .off })
  else if x.hup then some (zvHttpCloseConn env.reaped c.delTimer)
  else some c

/-- The callback of an event of a CGI pipe. -/
def handleCgi (env : CallbackEnv) (c : Conn) : Option Conn :=
  returned (zvCgiOnStdoutReady env.pipe env.reaped { c with pipe := .off })

/-! ## States -/

/-- Where the worker is in its loop. The timers that are due are handled when no event is left. -/
inductive Stage
  | waiting
  | handling (batch : List Event)
  | flushing

def Stage.batch : Stage → List Event
  | .handling batch => batch
  | _ => []

/-- A call of the worker: `accept` and the `close` of a socket without a block, and the calls of
the callbacks of a block. -/
inductive WorkerCall
  | accept (fd : Fd)
  | drop (fd : Fd)
  | of (r : Nat) (call : Call)

/-- The worker. `conns` holds what is in each block, `items` whether `conn_item` of a block was
allocated, and `listen` is the block of the listening socket. The rest is a record of the past:
the connections are numbered as they are accepted, `serial` is the number of the one that was
last in a block and `armer` the one that a timer node was made for; `armedAt` is the reading of the
clock of the last `zv_add_timer` of a block; `closed` are the blocks that were closed since the
last flush began; `nullTimer` says that `zv_del_timer` was called without a timer, and `starved`
that the queue of the timers did not get its memory. -/
structure Worker where
  conns : Nat → Conn
  pool : RequestPool
  timers : Timers Unit Nat
  items : Nat → Bool
  listen : Nat
  stage : Stage
  log : List WorkerCall
  count : Nat
  serial : Nat → Nat
  armer : Nat → Nat
  armedAt : Nat → Nat
  closed : List Nat
  nullTimer : Bool
  starved : Bool

/-- `r->timer = NULL`. -/
def Timers.clear {η : Type} (t : Timers η Nat) (r : Nat) : Timers η Nat :=
  { t with timer := Function.update t.timer r none }

/-- A call of the timers or of the pool, from the block `r`. -/
def mark (env : TimerEnv) (r : Nat) (w : Worker) : Call → Worker
  | .delTimer =>
    match zvDelTimer env w.timers r with
    | none => { w with nullTimer := true }
    | some t => { w with timers := t }
  | .addTimer ms =>
    let t := zvAddTimer env w.timers r (UInt64.ofNat ms) ()
    { w with
      timers := t
      armer := Function.update w.armer w.timers.count (w.serial r)
      armedAt := Function.update w.armedAt r w.timers.reads
      starved := w.starved || t.heap.nalloc == w.timers.heap.nalloc }
  | .putDeferred =>
    { w with
      pool := zvHttpRequestPutDeferred w.pool r
      timers := w.timers.clear r
      closed := r :: w.closed }
  | _ => w

/-- The block `r` after a callback that made some calls. -/
def settle (env : TimerEnv) (r : Nat) (c : Conn) (calls : List Call) (w : Worker) : Worker :=
  (marksOf calls).foldl (mark env r)
    { w with conns := Function.update w.conns r c, log := w.log ++ calls.map (.of r) }

/-- The block `r` after a callback. -/
def settleConn (env : TimerEnv) (r : Nat) (c : Conn) (w : Worker) : Worker :=
  settle env r c (c.tr.drop (w.conns r).tr.length) w

/-! ## Steps -/

/-- An event is taken: its registration is disarmed. It is one of a descriptor that is open. -/
def takeEvent (conns : Nat → Conn) : Event → Option (Nat → Conn)
  | .listen => some conns
  | .conn r x =>
    match (conns r).sock with
    | .armed ev =>
      if x.fits ev then some (Function.update conns r { conns r with sock := .fired ev }) else none
    | _ => none
  | .cgiOut r =>
    match (conns r).pipe with
    | .armed ev => some (Function.update conns r { conns r with pipe := .fired ev })
    | _ => none

/-- A round of the loop over `accept`: a socket, the answer of `malloc` for a block, and whether
it had memory for a `conn_item`. A new block is cleared. -/
def acceptOne (cf : Conf) (env : TimerEnv) (w : Worker) (rest : List Event) (fd : Fd)
    (malloc : Option Nat) (item : Bool) : Worker :=
  let log := w.log ++ [.accept fd]
  match zvHttpRequestGet w.pool malloc with
  | (pool, none) =>
    { w with pool := pool, log := log ++ [.drop fd], stage := .handling rest }
  | (pool, some r) =>
    let used := r ∈ w.pool.blocks
    let old := if used then (w.conns r).r else Request.zero
    let hasItem := (if used then w.items r else false) || item
    let w :=
      { w with
        pool := pool, log := log, items := Function.update w.items r hasItem
        timers := w.timers.clear r, count := w.count + 1
        serial := Function.update w.serial r w.count }
    if hasItem then
      let c := acceptConn old fd cf
      settle env r c c.tr w
    else
      settle env r
        { r := zvInitRequestT old fd cf, sock := .off, pipe := .off, isOpen := false, tr := [] }
        [.close fd, .putDeferred] { w with stage := .handling rest }

/-- What a round of `zv_handle_expire_timers` does: it ends, drops a marked node, or calls the
handler of a node. -/
inductive Round
  | ended
  | marked
  | due (node : Nat)

/-- The start of a round of `zv_handle_expire_timers`, up to the call of the handler. -/
def expireRound {η ρ : Type} (env : TimerEnv) (s : Timers η ρ) : Timers η ρ × Round :=
  if zvPqIsEmpty s.heap then (s, .ended)
  else
    let s := zvTimeUpdate env s
    match zvPqMin s.heap with
    | none => (s, .ended)
    | some node =>
      if (s.nodes node).deleted then (popTimer env s, .marked)
      else if (s.nodes node).key > s.now then (s, .ended)
      else (s, .due node)

/-- `expireLoop` is made of these rounds. -/
theorem expireLoop_round {η ρ : Type} [DecidableEq ρ] (env : TimerEnv) (n : Nat) (s : Timers η ρ) :
    expireLoop env (n + 1) s =
      match expireRound env s with
      | (s, .ended) => s
      | (s, .marked) => expireLoop env n s
      | (s, .due node) => expireLoop env n (popTimer env (callHandler s node)) := by
  rw [expireLoop, expireRound]
  split
  · rfl
  · dsimp only
    cases zvPqMin (zvTimeUpdate env s).heap with
    | none => rfl
    | some node =>
      dsimp only
      split
      · rfl
      · split
        · rfl
        · rfl

/-- What the worker does next, with the answers of the kernel. -/
inductive WorkerAct
  | wait (evs : List Event)
  | accept (fd : Fd) (malloc : Option Nat) (item : Bool)
  | acceptEnd
  | callback (env : CallbackEnv)
  | expire (reaped : Bool)
  | flush

/-- One step of the worker. -/
def workerStep (lib : Libc) (cf : Conf) (env : TimerEnv) (w : Worker) : WorkerAct → Option Worker
  | .wait evs =>
    match w.stage with
    | .waiting =>
      if (evs.map Event.item).Nodup then
        (evs.foldlM takeEvent w.conns).map fun conns =>
          { w with conns := conns, timers := (zvFindTimer env w.timers).1, stage := .handling evs }
      else none
    | _ => none
  | .accept fd malloc item =>
    match w.stage with
    | .handling (.listen :: rest) =>
      if ∀ r ∈ malloc, r ∉ w.pool.blocks then some (acceptOne cf env w rest fd malloc item) else none
    | _ => none
  | .acceptEnd =>
    match w.stage with
    | .handling (.listen :: rest) => some { w with stage := .handling rest }
    | _ => none
  | .callback cb =>
    match w.stage with
    | .handling (.conn r x :: rest) =>
      (handleConn lib cb x (w.conns r)).map fun c =>
        settleConn env r c { w with stage := .handling rest }
    | .handling (.cgiOut r :: rest) =>
      (handleCgi cb (w.conns r)).map fun c => settleConn env r c { w with stage := .handling rest }
    | _ => none
  | .expire reaped =>
    match w.stage with
    | .handling [] =>
      match expireRound env w.timers with
      | (t, .ended) => some { w with timers := t, stage := .flushing, closed := [] }
      | (t, .marked) => some { w with timers := t }
      | (t, .due node) =>
        let r := (t.nodes node).rq
        let w := settleConn env r (zvHttpCloseConn reaped (w.conns r))
          { w with timers := callHandler t node }
        some { w with timers := popTimer env w.timers }
    | _ => none
  | .flush =>
    match w.stage with
    | .flushing =>
      match flushRound w.pool with
      | none => some { w with stage := .waiting }
      | some pool => some { w with pool := pool }
    | _ => none

/-- The worker before its loop: it has a block for the listening socket, and the memory of the
other blocks holds anything. -/
def workerStart (mem : Nat → Request) (pool : RequestPool) (listen : Nat) (timers : Timers Unit Nat) :
    Worker :=
  { conns := fun r => { r := mem r, sock := .off, pipe := .off, isOpen := false, tr := [] }
    pool := pool, timers := timers, items := fun _ => false, listen := listen, stage := .waiting
    log := [], count := 0, serial := fun _ => 0, armer := fun _ => 0
    armedAt := fun _ => 0, closed := [], nullTimer := false, starved := false }

/-- The states between two callbacks that a worker reaches. -/
def WorkerReached (lib : Libc) (cf : Conf) (env : TimerEnv) (w : Worker) : Prop :=
  ∃ links malloc mem pool listen nodes timers acts,
    zvHttpRequestGet (poolStart links) malloc = (pool, some listen) ∧
      zvTimerInit env nodes = some timers ∧
      run (workerStep lib cf env) (workerStart mem pool listen timers) acts = some w

end Zaver
