import Zaver.WorkerLedger

/-!
# Events of closed sockets

The sockets of the clients are not closed by `execve`: the process of a script keeps those that were
open when it was started. When the worker closes one of them, its registration stays, and
still points to the block. If it was armed, the kernel may report it when the block holds another
connection (`sharedStep`).

`Worker` is the worker without such reports. A run in which `epoll_wait` brings none is one of its
runs (`quiet_reached`), and the descriptors are exact (`descriptors_exact_quiet`). With one they are
not: a script is started for a connection that has one, and the pipe of the first is lost
(`descriptors_lost`). The pipes themselves are closed in every child, by `zv_cgi_start` or by
`execve`.
-/

namespace Zaver

open Runs WorkerRunsLemmas

/-! ## Registrations -/

/-- The worker, and what the kernel knows besides. `shared` says whether a child holds the socket of
the connection in a block; `left` are the armed registrations of closed sockets, by the block
that they point to, and `late` their events in the batch. -/
structure SharedWorker where
  worker : Worker
  shared : Nat → Bool
  left : Nat → List Interest
  late : List (Nat × Ready)

/-- A process is started. -/
def WorkerCall.isFork : WorkerCall → Bool
  | .of _ (.fork _ _ _) => true
  | _ => false

/-- The registration that stays when a connection is closed. -/
def leaves (shared : Bool) (c c' : Conn) : List Interest :=
  if shared && c.isOpen && !c'.isOpen then
    match c.sock with
    | .armed ev => [ev]
    | _ => []
  else []

/-- The worker goes on to `w`; it does not when it has followed a null pointer. -/
def SharedWorker.goOn (s : SharedWorker) (w : Worker) : Option SharedWorker :=
  let forked := (w.log.drop s.worker.log.length).any WorkerCall.isFork
  if w.nullTimer then none
  else
    some
      { s with
        worker := w
        shared := fun r =>
          (s.worker.conns r).isOpen && (w.conns r).isOpen && (s.shared r || forked)
        left := fun r => s.left r ++ leaves (s.shared r) (s.worker.conns r) (w.conns r) }

/-- A registration is reported, and is not armed any more. -/
def takeLate (left : Nat → List Interest) (e : Nat × Ready) : Option (Nat → List Interest) :=
  ((left e.1).find? e.2.fits).map fun ev => Function.update left e.1 ((left e.1).erase ev)

/-! ## Steps -/

/-- The callback of an event of a closed socket, with the connection that is in the block now. It
is the one of `handleConn`, but the registration of this connection is as it was. -/
def handleLate (lib : Libc) (env : CallbackEnv) (x : Ready) (c : Conn) : Option Conn :=
  if x.err then some (zvHttpCloseConn env.reaped c.delTimer)
  else if x.rd then returned (doRequest lib env.passes c)
  else if x.wr then returned (doWrite env.write c)
  else if x.hup then some (zvHttpCloseConn env.reaped c.delTimer)
  else some c

def WorkerAct.isWait : WorkerAct → Bool
  | .wait _ => true
  | _ => false

def WorkerAct.isExpire : WorkerAct → Bool
  | .expire _ => true
  | _ => false

/-- A step of the worker, where a wait may bring events of closed sockets, or the handling of one. -/
inductive SharedAct
  | own (a : WorkerAct) (evs : List (Nat × Ready))
  | late (env : CallbackEnv)

/-- The events of closed sockets that a step brings. -/
def SharedAct.brings : SharedAct → List (Nat × Ready)
  | .own _ evs => evs
  | .late _ => []

/-- One step. The events of a batch are in any order; the timers come when all are handled. A block
without a timer is closed, and there the process ends. -/
def sharedStep (lib : Libc) (cf : Conf) (env : TimerEnv) (s : SharedWorker) :
    SharedAct → Option SharedWorker
  | .own a evs =>
    if (evs = [] ∨ a.isWait = true) ∧ (s.late = [] ∨ a.isExpire = false) then
      (workerStep lib cf env s.worker a).bind fun w =>
        (s.goOn w).bind fun t =>
          (evs.foldlM takeLate t.left).map fun left => { t with left := left, late := s.late ++ evs }
    else none
  | .late cb =>
    match s.late with
    | [] => none
    | (r, x) :: rest =>
      if (s.worker.timers.timer r).isSome then
        (handleLate lib cb x (s.worker.conns r)).bind fun c =>
          (s.goOn (settleConn env r c s.worker)).map fun t => { t with late := rest }
      else
        -- `zv_del_timer` follows the null pointer.
        none

/-- No script runs yet. -/
def sharedStart (w : Worker) : SharedWorker :=
  { worker := w, shared := fun _ => false, left := fun _ => [], late := [] }

/-- The states that a worker reaches with the steps `acts`. -/
def SharedReached (lib : Libc) (cf : Conf) (env : TimerEnv) (acts : List SharedAct)
    (s : SharedWorker) : Prop :=
  ∃ links malloc mem pool listen nodes timers,
    zvHttpRequestGet (poolStart links) malloc = (pool, some listen) ∧
      zvTimerInit env nodes = some timers ∧
      run (sharedStep lib cf env) (sharedStart (workerStart mem pool listen timers)) acts = some s

namespace StaleEventsLemmas

variable {lib : Libc} {cf : Conf} {env : TimerEnv}

theorem goOn_worker {s t : SharedWorker} {w : Worker} (h : s.goOn w = some t) :
    t.worker = w ∧ t.late = s.late := by
  unfold SharedWorker.goOn at h
  dsimp only at h
  split at h
  · cases h
  · obtain rfl := Option.some.inj h
    exact ⟨rfl, rfl⟩

/-- Without late events a step is one of the worker. -/
theorem sharedStep_quiet {s s' : SharedWorker} {a : SharedAct} (hs : s.late = [])
    (ha : a.brings = []) (hstep : sharedStep lib cf env s a = some s') :
    s'.late = [] ∧ ∃ b, workerStep lib cf env s.worker b = some s'.worker := by
  cases a with
  | late cb =>
    unfold sharedStep at hstep
    rw [hs] at hstep
    cases hstep
  | own b evs =>
    obtain rfl : evs = [] := ha
    simp only [sharedStep] at hstep
    split at hstep
    · obtain ⟨w, hw, hstep⟩ := Option.bind_eq_some_iff.mp hstep
      obtain ⟨t, ht, hstep⟩ := Option.bind_eq_some_iff.mp hstep
      obtain ⟨left, -, rfl⟩ := Option.map_eq_some_iff.mp hstep
      refine ⟨?_, b, ?_⟩
      · show s.late ++ [] = []
        rw [hs]
        rfl
      · rw [hw]
        exact congrArg some (goOn_worker ht).1.symm
    · cases hstep

/-- Without late events a run is one of the worker. -/
theorem run_quiet {s s' : SharedWorker} {acts : List SharedAct} (hs : s.late = [])
    (hquiet : ∀ a ∈ acts, a.brings = []) (hrun : run (sharedStep lib cf env) s acts = some s') :
    ∃ own, run (workerStep lib cf env) s.worker own = some s'.worker := by
  induction acts generalizing s with
  | nil =>
    obtain rfl := Option.some.inj hrun
    exact ⟨[], rfl⟩
  | cons a acts ih =>
    obtain ⟨t, ht, hrest⟩ := run_cons.mp hrun
    obtain ⟨hlate, b, hb⟩ := sharedStep_quiet hs (hquiet a List.mem_cons_self) ht
    obtain ⟨own, hown⟩ := ih hlate (fun a ha => hquiet a (List.mem_cons_of_mem _ ha)) hrest
    exact ⟨b :: own, run_cons.mpr ⟨t.worker, hb, hown⟩⟩

end StaleEventsLemmas

open StaleEventsLemmas

/-- When no event of a closed socket comes, the worker is in a state of `Worker`. -/
theorem quiet_reached {lib : Libc} {cf : Conf} {env : TimerEnv} {acts : List SharedAct}
    {s : SharedWorker} (h : SharedReached lib cf env acts s)
    (hquiet : ∀ a ∈ acts, a.brings = []) : WorkerReached lib cf env s.worker := by
  obtain ⟨links, malloc, mem, pool, listen, nodes, timers, hget, hinit, hrun⟩ := h
  obtain ⟨own, hown⟩ := run_quiet rfl hquiet hrun
  exact ⟨links, malloc, mem, pool, listen, nodes, timers, own, hget, hinit, hown⟩

/-! ## Descriptors -/

/-- As long as no event of a closed socket comes, the descriptors that were opened for clients and
not closed are those in the fields of the open connections, and none was closed that was not
open. -/
theorem descriptors_exact_quiet {lib : Libc} {cf : Conf} {env : TimerEnv} {acts : List SharedAct}
    {s : SharedWorker} (h : SharedReached lib cf env acts s)
    (hquiet : ∀ a ∈ acts, a.brings = []) : DescriptorsExact s.worker :=
  descriptors_exact (quiet_reached h hquiet)

/-- `reuseRun`, where the first connection is closed while the script of the second runs. -/
def quietRun : List SharedAct := reuseRun.map fun a => .own a []

/-- Then its client sends something, and that of the third connection, too. -/
def lateRun : List SharedAct :=
  quietRun ++ [.own (.wait []) [(1, readable)],
    .late (starting (ascii "x") ⟨some (18, 19), some (20, 21), some 44, true⟩)]

theorem descriptors_exact_quiet_reused : ∃ s, SharedReached sampleLib reuseConf countingEnv quietRun s ∧
    s.left 1 = [.epollin] ∧ DescriptorsExact s.worker := by
  have hsome : (run (sharedStep sampleLib reuseConf countingEnv) (sharedStart reuseStart) quietRun).map
      (fun s => s.left 1) = some [.epollin] := by decide +kernel
  obtain ⟨s, hs, hleft⟩ := Option.map_eq_some_iff.mp hsome
  have hreached : SharedReached sampleLib reuseConf countingEnv quietRun s :=
    ⟨⟨id, id⟩, some 0, fun _ => Request.zero, _, 0, fun _ => ⟨0, false, (), 0⟩, _, rfl, rfl, hs⟩
  refine ⟨s, hreached, hleft, descriptors_exact_quiet hreached fun a ha => ?_⟩
  obtain ⟨b, -, rfl⟩ := List.mem_map.mp ha
  rfl

/-- The late event has the second script of the third connection started: the pipe of its first is
open, and in no field. -/
theorem descriptors_lost : ∃ s, SharedReached sampleLib reuseConf countingEnv lateRun s ∧
    s.late = [] ∧ (s.worker.log.map (WorkerCall.opens 16)).sum = 1 ∧
    (s.worker.log.map (WorkerCall.closes 16)).sum = 0 ∧ s.worker.held.count 16 = 0 ∧
    ¬ DescriptorsExact s.worker := by
  have hsome : (run (sharedStep sampleLib reuseConf countingEnv) (sharedStart reuseStart) lateRun).map
      (fun s => (s.late.length, (s.worker.log.map (WorkerCall.opens 16)).sum,
        (s.worker.log.map (WorkerCall.closes 16)).sum, s.worker.held.count 16)) =
      some (0, 1, 0, 0) := by decide +kernel
  obtain ⟨s, hs, hshow⟩ := Option.map_eq_some_iff.mp hsome
  obtain ⟨hlate, hshow⟩ := Prod.mk.inj hshow
  obtain ⟨hopens, hshow⟩ := Prod.mk.inj hshow
  obtain ⟨hcloses, hheld⟩ := Prod.mk.inj hshow
  refine ⟨s, ⟨⟨id, id⟩, some 0, fun _ => Request.zero, _, 0, fun _ => ⟨0, false, (), 0⟩, _, rfl, rfl, hs⟩,
    List.eq_nil_of_length_eq_zero hlate, hopens, hcloses, hheld, fun hx => ?_⟩
  -- one pipe end is open, and no field holds it
  have hbal := hx.balance 16
  rw [hopens, hcloses, hheld] at hbal
  cases hbal

end Zaver
