import Zaver.Lib.Runs

/-!
# The master process

`zv_run_server` of `process.c`, when there is more than one worker: the master forks its
workers, waits until one of them ends or a signal asks it to stop, sends `SIGTERM` to all
of them and waits for each. A signal, the end of a worker and the start or the end of any
other process can come between any two calls of the master; `waitpid` is interrupted by a
signal, since the handlers are installed without `SA_RESTART`.

The workers are the only children of the master. What `sysconf` says is a parameter;
installing the handlers and allocating `pids` are taken to succeed.
-/

namespace Zaver

open Runs

/-! ## The number of workers -/

/-- `cpu_count`; the argument is the answer of `sysconf`. -/
def cpuCount (online : Int) : Int := if 0 < online ∧ online < 1024 then online else 1

/-- The number of workers of `zv_run_server`. -/
def workerCount (online workers : Int) : Int :=
  let workers := if workers = 0 then cpuCount online else workers
  if workers < 0 then cpuCount online else workers

/-! ## Steps -/

/-- Where the master is: in the loop of forks, at the test of `zv_stop`, in `waitpid(-1)`, in
the loop of kills, in the loop of waits, or behind them. -/
inductive MasterPc
  | fork (i : Nat)
  | test
  | waitAny
  | kill (i : Nat)
  | wait (i : Nat)
  | done
deriving DecidableEq

/-- What a pid stands for when a signal is sent to it. -/
inductive Target
  | child | other | nobody
deriving DecidableEq

/-- The calls of the master that have an effect. `interrupted` is a wait of the last loop that
a signal ended. -/
inductive MasterCall
  | fork (pid : Nat)
  | reapAny (pid : Nat)
  | kill (pid : Nat) (target : Target)
  | reap (pid : Nat)
  | interrupted (pid : Nat)
deriving DecidableEq

/-- The master, its children that run, those that have ended and were not waited for, and the
other processes of the system. -/
structure Master where
  pids : List Nat
  pc : MasterPc
  stop : Bool
  running : Finset Nat
  zombies : Finset Nat
  others : Finset Nat
  log : List MasterCall

namespace Master

/-- `pids[i]`; `calloc` has cleared the array. -/
def pid (m : Master) (i : Nat) : Nat := m.pids.getD i 0

/-- What a pid stands for. -/
def target (m : Master) (pid : Nat) : Target :=
  if pid ∈ m.running ∨ pid ∈ m.zombies then .child
  else if pid ∈ m.others then .other
  else .nobody

/-- The next pass of a loop over `pids`, or what follows the loop. -/
def next (m : Master) (loop : Nat → MasterPc) (i : Nat) (after : MasterPc) : MasterPc :=
  if i + 1 < m.pids.length then loop (i + 1) else after

/-- A child that has ended is waited for. -/
def collect (m : Master) (pid : Nat) (call : MasterCall) : Master :=
  { m with zombies := m.zombies.erase pid, log := m.log ++ [call] }

end Master

/-- The steps of the master, with the answers of `fork` and of `waitpid(-1)`, and what happens
around it. A signal interrupts the call in which the master sleeps, or comes before it. -/
inductive MasterAct
  | fork (ans : Option Nat)
  | test
  | waitAny (pid : Nat)
  | waitFailed
  | kill
  | wait
  | signal (interrupts : Bool)
  | exit (pid : Nat)
  | start (pid : Nat)
  | leave (pid : Nat)
deriving DecidableEq

/-- The steps of the master itself. -/
def MasterAct.isOwn : MasterAct → Bool
  | .signal _ | .exit _ | .start _ | .leave _ => false
  | _ => true

/-- One pass of the loop of forks. -/
def forkPass (m : Master) (i : Nat) : Option Nat → Option Master
  | none => some { m with stop := true, pc := .test }
  | some pid =>
    if 0 < pid ∧ pid ∉ m.running ∧ pid ∉ m.zombies ∧ pid ∉ m.others then
      some { m with
        pids := m.pids.set i pid, running := insert pid m.running
        pc := m.next .fork i .test, log := m.log ++ [.fork pid] }
    else none

/-- One pass of the loop of kills. -/
def killPass (m : Master) (i : Nat) : Master :=
  if 0 < m.pid i then
    { m with pc := m.next .kill i (.wait 0), log := m.log ++ [.kill (m.pid i) (m.target (m.pid i))] }
  else { m with pc := m.next .kill i (.wait 0) }

/-- One pass of the loop of waits. It sleeps while the child runs, and goes on at once when
there is no such child. -/
def waitPass (m : Master) (i : Nat) : Option Master :=
  if 0 < m.pid i then
    if m.pid i ∈ m.zombies then
      some { m.collect (m.pid i) (.reap (m.pid i)) with pc := m.next .wait i .done }
    else if m.pid i ∈ m.running then none
    else some { m with pc := m.next .wait i .done }
  else some { m with pc := m.next .wait i .done }

/-- A signal ends the call in which the master sleeps: the test of `zv_stop` comes next, or the
next pass. -/
def interrupt (m : Master) : Option Master :=
  match m.pc with
  | .waitAny =>
    if m.zombies = ∅ ∧ m.running ≠ ∅ then some { m with stop := true, pc := .test } else none
  | .wait i =>
    if m.pid i ∈ m.running then
      some { m with
        stop := true, pc := m.next .wait i .done, log := m.log ++ [.interrupted (m.pid i)] }
    else none
  | _ => none

/-- One step, none when it is not possible. -/
def masterStep (m : Master) : MasterAct → Option Master
  | .fork ans =>
    match m.pc with
    | .fork i => forkPass m i ans
    | _ => none
  | .test =>
    match m.pc with
    | .test => some { m with pc := if m.stop then .kill 0 else .waitAny }
    | _ => none
  | .waitAny pid =>
    match m.pc with
    | .waitAny =>
      if pid ∈ m.zombies then
        some { m.collect pid (.reapAny pid) with stop := true, pc := .kill 0 }
      else none
    | _ => none
  | .waitFailed =>
    match m.pc with
    | .waitAny =>
      if m.zombies = ∅ ∧ m.running = ∅ then some { m with pc := .kill 0 } else none
    | _ => none
  | .kill =>
    match m.pc with
    | .kill i => some (killPass m i)
    | _ => none
  | .wait =>
    match m.pc with
    | .wait i => waitPass m i
    | _ => none
  | .signal interrupts => if interrupts then interrupt m else some { m with stop := true }
  | .exit pid =>
    if pid ∈ m.running then
      some { m with running := m.running.erase pid, zombies := insert pid m.zombies }
    else none
  | .start pid =>
    if pid ∉ m.running ∧ pid ∉ m.zombies ∧ pid ∉ m.others then
      some { m with others := insert pid m.others }
    else none
  | .leave pid => some { m with others := m.others.erase pid }

/-- `zv_run_server` in front of its loops, or none when the server is this process. -/
def zvRunServer (online workers : Int) (others : Finset Nat) : Option Master :=
  if workerCount online workers ≤ 1 then none
  else
    some
      { pids := List.replicate (workerCount online workers).toNat 0, pc := .fork 0, stop := false
        running := ∅, zombies := ∅, others := others, log := [] }

/-! ## The record -/

/-- The pids of the workers, in the order in which they were forked. -/
def forks (log : List MasterCall) : List Nat :=
  log.filterMap fun
    | .fork pid => some pid
    | _ => none

/-- The signals that were sent, with what they met. -/
def kills (log : List MasterCall) : List (Nat × Target) :=
  log.filterMap fun
    | .kill pid target => some (pid, target)
    | _ => none

/-- The worker with whose end the first loop of waits ended. -/
def earlyReaps (log : List MasterCall) : List Nat :=
  log.filterMap fun
    | .reapAny pid => some pid
    | _ => none

/-- The workers that were waited for. -/
def reaps (log : List MasterCall) : List Nat :=
  log.filterMap fun
    | .reapAny pid => some pid
    | .reap pid => some pid
    | _ => none

/-- The workers for which the wait was interrupted. -/
def interrupts (log : List MasterCall) : List Nat :=
  log.filterMap fun
    | .interrupted pid => some pid
    | _ => none

@[simp] theorem forks_append (l l' : List MasterCall) : forks (l ++ l') = forks l ++ forks l' :=
  List.filterMap_append

@[simp] theorem kills_append (l l' : List MasterCall) : kills (l ++ l') = kills l ++ kills l' :=
  List.filterMap_append

@[simp] theorem earlyReaps_append (l l' : List MasterCall) :
    earlyReaps (l ++ l') = earlyReaps l ++ earlyReaps l' :=
  List.filterMap_append

@[simp] theorem reaps_append (l l' : List MasterCall) : reaps (l ++ l') = reaps l ++ reaps l' :=
  List.filterMap_append

@[simp] theorem interrupts_append (l l' : List MasterCall) :
    interrupts (l ++ l') = interrupts l ++ interrupts l' :=
  List.filterMap_append

/-! ## Invariants -/

/-- The first `k` workers were waited for, and just those whose wait was interrupted are left. -/
structure Waited (k : Nat) (log : List MasterCall) : Prop where
  reaped : ∀ pid ∈ (forks log).take k, pid ∈ reaps log ↔ pid ∉ interrupts log
  interrupted : ∀ pid ∈ interrupts log, pid ∈ (forks log).take k

/-- Nothing but forks is in the record. -/
structure OnlyForks (log : List MasterCall) : Prop where
  kills : kills log = []
  reaps : reaps log = []
  early : earlyReaps log = []
  interrupts : interrupts log = []

/-- What was done up to a place of the code. -/
def DoneUpTo (n : Nat) (stop : Bool) (log : List MasterCall) : MasterPc → Prop
  | .fork i => i < n ∧ (forks log).length = i ∧ OnlyForks log
  | .test => (stop = true ∨ forks log ≠ []) ∧ OnlyForks log
  | .waitAny => forks log ≠ [] ∧ OnlyForks log
  | .kill i =>
    i < n ∧ (kills log).map Prod.fst = (forks log).take i ∧ reaps log = earlyReaps log ∧
      interrupts log = []
  | .wait i => i < n ∧ (kills log).map Prod.fst = forks log ∧ Waited i log
  | .done => (kills log).map Prod.fst = forks log ∧ Waited n log

/-- The record, the array and the processes agree. -/
structure MasterOk (n : Nat) (m : Master) : Prop where
  workers : 0 < n
  length : m.pids.length = n
  pid : ∀ i, m.pid i = (forks m.log).getD i 0
  count : (forks m.log).length ≤ n
  pos : ∀ pid ∈ forks m.log, 0 < pid
  nodup : (forks m.log).Nodup
  children : ∀ pid, pid ∈ m.running ∨ pid ∈ m.zombies ↔ pid ∈ forks m.log ∧ pid ∉ reaps m.log
  apart : ∀ pid ∈ m.running, pid ∉ m.zombies
  reaped : (reaps m.log).Nodup ∧ reaps m.log ⊆ forks m.log
  early : (earlyReaps m.log).length ≤ 1
  targets : ∀ x ∈ kills m.log, x.2 = .child ↔ x.1 ∉ earlyReaps m.log
  upTo : DoneUpTo n m.stop m.log m.pc

/-- The number of steps that the master has before it at most. -/
def stepsLeft (n : Nat) (stop : Bool) : MasterPc → Nat
  | .fork i => n - i + (2 * n + 3)
  | .test => if stop then 2 * n + 1 else 2 * n + 3
  | .waitAny => 2 * n + 2
  | .kill i => n - i + n
  | .wait i => n - i
  | .done => 0

/-- The master sleeps until a worker that runs ends. -/
def Asleep (m : Master) : Prop :=
  (m.pc = .waitAny ∧ m.zombies = ∅ ∧ m.running ≠ ∅) ∨ ∃ i, m.pc = .wait i ∧ m.pid i ∈ m.running

namespace MasterLemmas

variable {n : Nat} {m m' : Master}

/-! ### The loops -/

theorem pid_mem (h : MasterOk n m) {i : Nat} (hpos : 0 < m.pid i) : m.pid i ∈ forks m.log := by
  rw [h.pid] at hpos ⊢
  rw [List.getD_eq_getElem?_getD] at hpos ⊢
  cases hget : (forks m.log)[i]? with
  | none =>
    rw [hget] at hpos
    exact absurd hpos (Nat.lt_irrefl 0)
  | some pid => exact List.mem_of_getElem? hget

/-- One more pass of a loop over `pids` has reached one more worker, or there is none. -/
theorem take_succ (h : MasterOk n m) (i : Nat) :
    (forks m.log).take (i + 1) =
      (forks m.log).take i ++ if 0 < m.pid i then [m.pid i] else [] := by
  rw [List.take_add_one, h.pid, List.getD_eq_getElem?_getD]
  cases hget : (forks m.log)[i]? with
  | none => rfl
  | some pid =>
    have hpos := h.pos pid (List.mem_of_getElem? hget)
    simp [hpos]

/-- The pid at hand is not one of the passes before. -/
theorem pid_new (h : MasterOk n m) {i : Nat} (hpos : 0 < m.pid i) :
    m.pid i ∉ (forks m.log).take i := by
  have hnodup := (List.take_sublist (i + 1) (forks m.log)).nodup h.nodup
  rw [take_succ h, if_pos hpos] at hnodup
  intro hmem
  exact List.disjoint_of_nodup_append hnodup hmem (List.mem_singleton_self _)

theorem take_all (h : MasterOk n m) {i : Nat} (hi : ¬ i + 1 < m.pids.length) :
    (forks m.log).take (i + 1) = forks m.log := by
  rw [h.length] at hi
  exact List.take_of_length_le (h.count.trans (Nat.not_lt.mp hi))

/-- The invariant for another place. -/
theorem ok_moved (h : MasterOk n m) (stop : Bool) (pc : MasterPc)
    (hpc : DoneUpTo n stop m.log pc) : MasterOk n { m with stop := stop, pc := pc } :=
  ⟨h.workers, h.length, h.pid, h.count, h.pos, h.nodup, h.children, h.apart, h.reaped, h.early, h.targets, hpc⟩

/-- The place after a pass of the last loop. -/
theorem upTo_wait (h : MasterOk n m) {i : Nat} {log : List MasterCall}
    (hforks : forks log = forks m.log) (hkills : (kills log).map Prod.fst = forks log)
    (hw : Waited (i + 1) log) {stop : Bool} : DoneUpTo n stop log (m.next .wait i .done) := by
  unfold Master.next
  split
  · next hlt => exact ⟨h.length ▸ hlt, hkills, hw⟩
  · next hlt =>
    have hall := take_all h hlt
    have htake : (forks log).take n = (forks log).take (i + 1) := by
      rw [hforks, hall]
      exact List.take_of_length_le h.count
    exact ⟨hkills, ⟨fun pid hp => hw.reaped pid (htake ▸ hp), fun pid hp => htake ▸ hw.interrupted pid hp⟩⟩


/-- A call that forks nothing and waits for nobody was made. -/
theorem ok_logged (h : MasterOk n m) {call : MasterCall} {stop : Bool} {pc : MasterPc}
    (hforks : forks [call] = []) (hreaps : reaps [call] = [])
    (htargets : ∀ x ∈ kills [call], x.2 = .child ↔ x.1 ∉ earlyReaps m.log)
    (hpc : DoneUpTo n stop (m.log ++ [call]) pc) :
    MasterOk n { m with stop := stop, pc := pc, log := m.log ++ [call] } := by
  have hearly : earlyReaps [call] = [] := by
    cases call with
    | reapAny pid => cases hreaps
    | fork pid => rfl
    | kill pid target => rfl
    | reap pid => rfl
    | interrupted pid => rfl
  have hf : forks (m.log ++ [call]) = forks m.log := by rw [forks_append, hforks, List.append_nil]
  have hr : reaps (m.log ++ [call]) = reaps m.log := by rw [reaps_append, hreaps, List.append_nil]
  have he : earlyReaps (m.log ++ [call]) = earlyReaps m.log := by
    rw [earlyReaps_append, hearly, List.append_nil]
  refine ⟨h.workers, h.length, fun i => ?_, ?_, ?_, ?_, fun pid => ?_, h.apart, ?_, ?_, fun x hx => ?_, hpc⟩
  · exact (h.pid i).trans (by rw [hf])
  · exact hf ▸ h.count
  · exact hf ▸ h.pos
  · exact hf ▸ h.nodup
  · show pid ∈ m.running ∨ pid ∈ m.zombies ↔ _
    rw [hf, hr]
    exact h.children pid
  · show (reaps (m.log ++ [call])).Nodup ∧ reaps (m.log ++ [call]) ⊆ forks (m.log ++ [call])
    rw [hf, hr]
    exact h.reaped
  · exact he ▸ h.early
  · show x.2 = .child ↔ x.1 ∉ earlyReaps (m.log ++ [call])
    rw [he]
    rcases List.mem_append.mp (kills_append m.log [call] ▸ hx) with hx | hx
    · exact h.targets x hx
    · exact htargets x hx

/-- A child that had ended was waited for. -/
theorem ok_collected (h : MasterOk n m) {pid : Nat} {call : MasterCall} {stop : Bool}
    {pc : MasterPc} (hz : pid ∈ m.zombies) (hforks : forks [call] = [])
    (hreaps : reaps [call] = [pid]) (hkills : kills [call] = [])
    (hearly : earlyReaps [call] = [] ∨ (earlyReaps m.log = [] ∧ kills m.log = []))
    (hpc : DoneUpTo n stop (m.log ++ [call]) pc) :
    MasterOk n { m.collect pid call with stop := stop, pc := pc } := by
  have hchild := (h.children pid).mp (.inr hz)
  have hf : forks (m.log ++ [call]) = forks m.log := by rw [forks_append, hforks, List.append_nil]
  have hr : reaps (m.log ++ [call]) = reaps m.log ++ [pid] := by rw [reaps_append, hreaps]
  have hk : kills (m.log ++ [call]) = kills m.log := by rw [kills_append, hkills, List.append_nil]
  have hone : (earlyReaps [call]).length ≤ 1 := List.length_filterMap_le _ _
  refine ⟨h.workers, h.length, fun i => ?_, ?_, ?_, ?_, fun q => ?_, fun q hq => ?_, ⟨?_, ?_⟩, ?_,
    fun x hx => ?_, hpc⟩
  · exact (h.pid i).trans (by show _ = (forks (m.log ++ [call])).getD i 0; rw [hf])
  · show (forks (m.log ++ [call])).length ≤ n
    exact hf ▸ h.count
  · show ∀ q ∈ forks (m.log ++ [call]), 0 < q
    exact hf ▸ h.pos
  · show (forks (m.log ++ [call])).Nodup
    exact hf ▸ h.nodup
  · show q ∈ m.running ∨ q ∈ m.zombies.erase pid ↔ q ∈ forks (m.log ++ [call]) ∧ q ∉ reaps (m.log ++ [call])
    rw [hf, hr, List.mem_append, List.mem_singleton, not_or, ← and_assoc, ← h.children q,
      Finset.mem_erase]
    constructor
    · rintro (hrun | ⟨hne, hzq⟩)
      · exact ⟨.inl hrun, fun heq => h.apart q hrun (heq ▸ hz)⟩
      · exact ⟨.inr hzq, hne⟩
    · rintro ⟨hrun | hzq, hne⟩
      · exact .inl hrun
      · exact .inr ⟨hne, hzq⟩
  · exact fun hmem => h.apart q hq (Finset.mem_of_mem_erase hmem)
  · show (reaps (m.log ++ [call])).Nodup
    rw [hr, List.nodup_append]
    refine ⟨h.reaped.1, List.nodup_singleton _, fun a ha b hb heq => hchild.2 ?_⟩
    rw [← List.mem_singleton.mp hb, ← heq]
    exact ha
  · show reaps (m.log ++ [call]) ⊆ forks (m.log ++ [call])
    rw [hf, hr]
    intro q hq
    rcases List.mem_append.mp hq with hq | hq
    · exact h.reaped.2 hq
    · rw [List.mem_singleton.mp hq]
      exact hchild.1
  · show (earlyReaps (m.log ++ [call])).length ≤ 1
    rw [earlyReaps_append]
    rcases hearly with he | ⟨he, -⟩
    · rw [he, List.append_nil]
      exact h.early
    · rw [he]
      exact hone
  · change x ∈ kills (m.log ++ [call]) at hx
    show x.2 = .child ↔ x.1 ∉ earlyReaps (m.log ++ [call])
    rw [hk] at hx
    rcases hearly with he | ⟨-, hnone⟩
    · rw [earlyReaps_append, he, List.append_nil]
      exact h.targets x hx
    · rw [hnone] at hx
      cases hx

/-! ### The passes -/

theorem target_child (h : MasterOk n m) (pid : Nat) :
    m.target pid = .child ↔ pid ∈ forks m.log ∧ pid ∉ reaps m.log := by
  rw [← h.children pid]
  unfold Master.target
  constructor
  · intro hx
    split at hx
    · next hc => exact hc
    · split at hx
      · cases hx
      · cases hx
  · intro hc
    rw [if_pos hc]

theorem forkPass_ok (h : MasterOk n m) {i : Nat} {ans : Option Nat} (hpc : m.pc = .fork i)
    (hstep : forkPass m i ans = some m') : MasterOk n m' := by
  obtain ⟨hi, hlen, honly⟩ : DoneUpTo n m.stop m.log (.fork i) := hpc ▸ h.upTo
  cases ans with
  | none =>
    obtain rfl := Option.some.inj hstep
    exact ok_moved h true .test ⟨.inl rfl, honly⟩
  | some pid =>
    unfold forkPass at hstep
    dsimp only at hstep
    split at hstep
    · next hnew =>
      obtain rfl := Option.some.inj hstep
      obtain ⟨hpos, hrun, hzombie, -⟩ := hnew
      have hfresh : pid ∉ forks m.log := by
        intro hmem
        have hchild := (h.children pid).mpr ⟨hmem, by rw [honly.reaps]; exact List.not_mem_nil⟩
        exact hchild.elim hrun hzombie
      have hf : forks (m.log ++ [.fork pid]) = forks m.log ++ [pid] := forks_append _ _
      have hr : reaps (m.log ++ [.fork pid]) = [] := by
        rw [reaps_append, honly.reaps]
        rfl
      have honly' : OnlyForks (m.log ++ [.fork pid]) := by
        refine ⟨?_, hr, ?_, ?_⟩
        · rw [kills_append, honly.kills]
          rfl
        · rw [earlyReaps_append, honly.early]
          rfl
        · rw [interrupts_append, honly.interrupts]
          rfl
      refine ⟨h.workers, ?_, fun j => ?_, ?_, fun q hq => ?_, ?_, fun q => ?_, fun q hq => ?_, ?_, ?_,
        fun x hx => ?_, ?_⟩
      · exact (List.length_set ..).trans h.length
      · show (m.pids.set i pid).getD j 0 = (forks (m.log ++ [.fork pid])).getD j 0
        have hold := h.pid j
        unfold Master.pid at hold
        rw [List.getD_eq_getElem?_getD] at hold ⊢
        rw [hf, List.getElem?_set, List.getD_eq_getElem?_getD, List.getElem?_append, hlen]
        split
        · next heq =>
          subst heq
          rw [if_pos (by rw [h.length]; exact hi), if_neg (Nat.lt_irrefl _), Nat.sub_self]
          rfl
        · next hne =>
          rw [hold, List.getD_eq_getElem?_getD]
          split
          · rfl
          · next hge =>
            rw [List.getElem?_eq_none (by omega), List.getElem?_eq_none]
            rw [List.length_singleton]
            omega
      · show (forks (m.log ++ [.fork pid])).length ≤ n
        rw [hf, List.length_append, hlen]
        exact hi
      · change q ∈ forks (m.log ++ [.fork pid]) at hq
        rw [hf] at hq
        rcases List.mem_append.mp hq with hq | hq
        · exact h.pos q hq
        · rw [List.mem_singleton.mp hq]
          exact hpos
      · show (forks (m.log ++ [.fork pid])).Nodup
        rw [hf, List.nodup_append]
        refine ⟨h.nodup, List.nodup_singleton _, fun a ha b hb heq => hfresh ?_⟩
        rw [← List.mem_singleton.mp hb, ← heq]
        exact ha
      · show q ∈ insert pid m.running ∨ q ∈ m.zombies ↔ q ∈ forks (m.log ++ [.fork pid]) ∧ q ∉ reaps _
        have hold := h.children q
        rw [honly.reaps] at hold
        rw [hf, hr, Finset.mem_insert, List.mem_append, List.mem_singleton, or_assoc, hold]
        simp only [List.not_mem_nil, not_false_eq_true, and_true]
        exact or_comm
      · change q ∈ insert pid m.running at hq
        rcases Finset.mem_insert.mp hq with rfl | hq
        · exact hzombie
        · exact h.apart q hq
      · show (reaps (m.log ++ [.fork pid])).Nodup ∧ reaps (m.log ++ [.fork pid]) ⊆ _
        rw [hr]
        exact ⟨List.nodup_nil, List.nil_subset _⟩
      · show (earlyReaps (m.log ++ [.fork pid])).length ≤ 1
        rw [honly'.early]
        exact Nat.zero_le _
      · change x ∈ kills (m.log ++ [.fork pid]) at hx
        rw [honly'.kills] at hx
        cases hx
      · show DoneUpTo n m.stop (m.log ++ [.fork pid]) (m.next .fork i .test)
        unfold Master.next
        split
        · next hlt => exact ⟨h.length ▸ hlt, by rw [hf, List.length_append, hlen]; rfl, honly'⟩
        · exact ⟨.inr (by rw [hf]; exact List.concat_ne_nil _ _), honly'⟩
    · cases hstep

theorem killPass_ok (h : MasterOk n m) {i : Nat} (hpc : m.pc = .kill i) :
    MasterOk n (killPass m i) := by
  obtain ⟨hi, hkills, hreaps, hint⟩ : DoneUpTo n m.stop m.log (.kill i) := hpc ▸ h.upTo
  have hupTo : ∀ log, forks log = forks m.log → reaps log = reaps m.log →
      earlyReaps log = earlyReaps m.log → interrupts log = interrupts m.log →
      (kills log).map Prod.fst = (forks m.log).take (i + 1) →
      DoneUpTo n m.stop log (m.next .kill i (.wait 0)) := by
    intro log hf hr he hin hk
    unfold Master.next
    split
    · next hlt => exact ⟨h.length ▸ hlt, hf ▸ hk, by rw [hr, he, hreaps], hin.trans hint⟩
    · next hlt =>
      refine ⟨Nat.zero_lt_of_lt hi, hk.trans ((take_all h hlt).trans hf.symm), ⟨fun q hq => ?_, fun q hq => ?_⟩⟩
      · cases hq
      · rw [hin.trans hint] at hq
        cases hq
  unfold killPass
  split
  · next hpos =>
    refine ok_logged h rfl rfl (fun x hx => ?_) (hupTo _ ?_ ?_ ?_ ?_ ?_)
    · obtain rfl : x = (m.pid i, m.target (m.pid i)) := List.mem_singleton.mp hx
      have hmem := pid_mem h hpos
      rw [target_child h, ← hreaps]
      exact and_iff_right hmem
    · exact (forks_append _ _).trans (List.append_nil _)
    · exact (reaps_append _ _).trans (List.append_nil _)
    · exact (earlyReaps_append _ _).trans (List.append_nil _)
    · exact (interrupts_append _ _).trans (List.append_nil _)
    · rw [kills_append, List.map_append, hkills, take_succ h, if_pos hpos]
      rfl
  · next hpos =>
    refine ok_moved h m.stop _ (hupTo m.log rfl rfl rfl rfl ?_)
    rw [hkills, take_succ h, if_neg hpos, List.append_nil]

theorem waitPass_ok (h : MasterOk n m) {i : Nat} (hpc : m.pc = .wait i)
    (hstep : waitPass m i = some m') : MasterOk n m' := by
  obtain ⟨-, hkills, hw⟩ : DoneUpTo n m.stop m.log (.wait i) := hpc ▸ h.upTo
  unfold waitPass at hstep
  split at hstep
  · next hpos =>
    have hnew := pid_new h hpos
    have htake := take_succ h i
    rw [if_pos hpos] at htake
    have hint : m.pid i ∉ interrupts m.log := fun hmem => hnew (hw.interrupted _ hmem)
    split at hstep
    · next hz =>
      obtain rfl := Option.some.inj hstep
      have hf : forks (m.log ++ [.reap (m.pid i)]) = forks m.log :=
        (forks_append _ _).trans (List.append_nil _)
      have hin : interrupts (m.log ++ [.reap (m.pid i)]) = interrupts m.log :=
        (interrupts_append _ _).trans (List.append_nil _)
      refine ok_collected h hz rfl rfl rfl (.inl rfl) (upTo_wait h hf ?_ ⟨fun q hq => ?_, fun q hq => ?_⟩)
      · rw [hf, kills_append]
        exact (congrArg _ (List.append_nil _)).trans hkills
      · rw [hf, htake] at hq
        rw [reaps_append, hin, List.mem_append]
        rcases List.mem_append.mp hq with hq | hq
        · have hne : q ≠ m.pid i := fun heq => hnew (heq ▸ hq)
          rw [← hw.reaped q hq]
          exact or_iff_left fun hx => hne (List.mem_singleton.mp hx)
        · obtain rfl := List.mem_singleton.mp hq
          exact iff_of_true (.inr (List.mem_singleton_self _)) hint
      · rw [hin] at hq
        rw [hf, htake]
        exact List.mem_append_left _ (hw.interrupted q hq)
    · next hz =>
      split at hstep
      · cases hstep
      · next hrun =>
        obtain rfl := Option.some.inj hstep
        have hreaped : m.pid i ∈ reaps m.log := by
          refine Classical.byContradiction fun hno => ?_
          exact ((h.children (m.pid i)).mpr ⟨pid_mem h hpos, hno⟩).elim hrun hz
        refine ok_moved h m.stop _ (upTo_wait h rfl hkills ⟨fun q hq => ?_, fun q hq => ?_⟩)
        · rw [htake] at hq
          rcases List.mem_append.mp hq with hq | hq
          · exact hw.reaped q hq
          · obtain rfl := List.mem_singleton.mp hq
            exact iff_of_true hreaped hint
        · rw [htake]
          exact List.mem_append_left _ (hw.interrupted q hq)
  · next hpos =>
    obtain rfl := Option.some.inj hstep
    have htake := take_succ h i
    rw [if_neg hpos, List.append_nil] at htake
    refine ok_moved h m.stop _ (upTo_wait h rfl hkills ⟨fun q hq => ?_, fun q hq => ?_⟩)
    · exact hw.reaped q (htake ▸ hq)
    · exact htake ▸ hw.interrupted q hq

theorem interrupt_ok (h : MasterOk n m) (hstep : interrupt m = some m') : MasterOk n m' := by
  have hupTo := h.upTo
  unfold interrupt at hstep
  split at hstep
  · next hpc =>
    obtain ⟨-, honly⟩ : DoneUpTo n m.stop m.log .waitAny := hpc ▸ hupTo
    split at hstep
    · obtain rfl := Option.some.inj hstep
      exact ok_moved h true .test ⟨.inl rfl, honly⟩
    · cases hstep
  · next i hpc =>
    obtain ⟨-, hkills, hw⟩ : DoneUpTo n m.stop m.log (.wait i) := hpc ▸ hupTo
    split at hstep
    · next hrun =>
      obtain rfl := Option.some.inj hstep
      obtain ⟨hfork, hreap⟩ := (h.children (m.pid i)).mp (.inl hrun)
      have hpos := h.pos _ hfork
      have hnew := pid_new h hpos
      have htake := take_succ h i
      rw [if_pos hpos] at htake
      have hf : forks (m.log ++ [.interrupted (m.pid i)]) = forks m.log :=
        (forks_append _ _).trans (List.append_nil _)
      have hr : reaps (m.log ++ [.interrupted (m.pid i)]) = reaps m.log :=
        (reaps_append _ _).trans (List.append_nil _)
      refine ok_logged h rfl rfl (fun x hx => by cases hx)
        (upTo_wait h hf ?_ ⟨fun q hq => ?_, fun q hq => ?_⟩)
      · rw [hf, kills_append]
        exact (congrArg _ (List.append_nil _)).trans hkills
      · rw [hf, htake] at hq
        rw [hr, interrupts_append, List.mem_append]
        rcases List.mem_append.mp hq with hq | hq
        · have hne : q ≠ m.pid i := fun heq => hnew (heq ▸ hq)
          rw [hw.reaped q hq]
          exact not_congr (or_iff_left fun hx => hne (List.mem_singleton.mp hx)).symm
        · obtain rfl := List.mem_singleton.mp hq
          exact iff_of_false hreap fun hx => hx (.inr (List.mem_singleton_self _))
      · rw [hf, htake]
        rcases List.mem_append.mp (interrupts_append _ _ ▸ hq) with hq | hq
        · exact List.mem_append_left _ (hw.interrupted q hq)
        · exact List.mem_append_right _ hq
    · cases hstep
  · cases hstep

/-- A signal that comes between two calls sets `zv_stop` and no more. -/
theorem upTo_stop {stop : Bool} {log : List MasterCall} {pc : MasterPc}
    (h : DoneUpTo n stop log pc) : DoneUpTo n true log pc := by
  cases pc with
  | fork i => exact h
  | test => exact ⟨.inl rfl, h.2⟩
  | waitAny => exact h
  | kill i => exact h
  | wait i => exact h
  | done => exact h

/-- The children are there when the master waits for any of them. -/
theorem waitFailed_none (h : MasterOk n m) : masterStep m .waitFailed = none := by
  have hupTo := h.upTo
  simp only [masterStep]
  split
  · next hpc =>
    obtain ⟨hne, honly⟩ : DoneUpTo n m.stop m.log .waitAny := hpc ▸ hupTo
    obtain ⟨pid, hpid⟩ := List.exists_mem_of_ne_nil _ hne
    have hchild := (h.children pid).mpr ⟨hpid, by rw [honly.reaps]; exact List.not_mem_nil⟩
    refine if_neg fun ⟨hz, hr⟩ => ?_
    rw [hz, hr] at hchild
    exact hchild.elim (Finset.notMem_empty pid) (Finset.notMem_empty pid)
  · rfl

/-- One step keeps the invariant. -/
theorem masterStep_ok {a : MasterAct} (h : MasterOk n m) (hstep : masterStep m a = some m') :
    MasterOk n m' := by
  have hupTo := h.upTo
  cases a with
  | fork ans =>
    simp only [masterStep] at hstep
    split at hstep
    · next i hpc => exact forkPass_ok h hpc hstep
    · cases hstep
  | test =>
    simp only [masterStep] at hstep
    split at hstep
    · next hpc =>
      obtain ⟨hgo, honly⟩ : DoneUpTo n m.stop m.log .test := hpc ▸ hupTo
      obtain rfl := Option.some.inj hstep
      refine ok_moved h m.stop _ ?_
      split
      · refine ⟨h.workers, ?_, honly.reaps.trans honly.early.symm, honly.interrupts⟩
        · rw [honly.kills]
          rfl
      · next hstop => exact ⟨hgo.resolve_left hstop, honly⟩
    · cases hstep
  | waitAny pid =>
    simp only [masterStep] at hstep
    split at hstep
    · next hpc =>
      obtain ⟨hne, honly⟩ : DoneUpTo n m.stop m.log .waitAny := hpc ▸ hupTo
      split at hstep
      · next hz =>
        obtain rfl := Option.some.inj hstep
        refine ok_collected h hz rfl rfl rfl (.inr ⟨honly.early, honly.kills⟩) ⟨h.workers, ?_, ?_, ?_⟩
        · rw [kills_append, honly.kills]
          rfl
        · rw [reaps_append, earlyReaps_append, honly.reaps, honly.early]
          rfl
        · rw [interrupts_append, honly.interrupts]
          rfl
      · cases hstep
    · cases hstep
  | waitFailed =>
    rw [waitFailed_none h] at hstep
    cases hstep
  | kill =>
    simp only [masterStep] at hstep
    split at hstep
    · next i hpc =>
      obtain rfl := Option.some.inj hstep
      exact killPass_ok h hpc
    · cases hstep
  | wait =>
    simp only [masterStep] at hstep
    split at hstep
    · next i hpc => exact waitPass_ok h hpc hstep
    · cases hstep
  | signal interrupts =>
    simp only [masterStep] at hstep
    split at hstep
    · exact interrupt_ok h hstep
    · obtain rfl := Option.some.inj hstep
      exact ok_moved h true m.pc (upTo_stop hupTo)
  | exit pid =>
    simp only [masterStep] at hstep
    split at hstep
    · next hrun =>
      obtain rfl := Option.some.inj hstep
      refine { h with children := fun q => ?_, apart := fun q hq => ?_ }
      · show q ∈ m.running.erase pid ∨ q ∈ insert pid m.zombies ↔ _
        rw [← h.children q, Finset.mem_erase, Finset.mem_insert]
        constructor
        · rintro (⟨-, hq⟩ | rfl | hq)
          · exact .inl hq
          · exact .inl hrun
          · exact .inr hq
        · rintro (hq | hq)
          · rcases eq_or_ne q pid with rfl | hne
            · exact .inr (.inl rfl)
            · exact .inl ⟨hne, hq⟩
          · exact .inr (.inr hq)
      · obtain ⟨hne, hq⟩ := Finset.mem_erase.mp hq
        exact fun hz => (Finset.mem_insert.mp hz).elim hne (h.apart q hq)
    · cases hstep
  | start pid =>
    simp only [masterStep] at hstep
    split at hstep
    · obtain rfl := Option.some.inj hstep
      exact { h with }
    · cases hstep
  | leave pid =>
    obtain rfl := Option.some.inj hstep
    exact { h with }

/-! ### Termination -/

/-- A pass of a loop over `pids` leaves fewer passes. -/
theorem next_left {loop : Nat → MasterPc} {i : Nat} {after : MasterPc} {stop : Bool} {k : Nat}
    (hloop : stepsLeft n stop (loop (i + 1)) + 1 ≤ k)
    (hafter : stepsLeft n stop after + 1 ≤ k) : stepsLeft n stop (m.next loop i after) + 1 ≤ k := by
  unfold Master.next
  split
  · exact hloop
  · exact hafter

/-- The steps of the master use its steps up, and what happens around it gives it no new ones. -/
theorem masterStep_left {a : MasterAct} (h : MasterOk n m) (hstep : masterStep m a = some m') :
    stepsLeft n m'.stop m'.pc + (if a.isOwn then 1 else 0) ≤ stepsLeft n m.stop m.pc := by
  have hupTo := h.upTo
  cases a with
  | fork ans =>
    simp only [masterStep] at hstep
    split at hstep
    · next i hpc =>
      obtain ⟨hi, -⟩ : DoneUpTo n m.stop m.log (.fork i) := hpc ▸ hupTo
      rw [hpc]
      cases ans with
      | none =>
        obtain rfl := Option.some.inj hstep
        show 2 * n + 1 + 1 ≤ n - i + (2 * n + 3)
        omega
      | some pid =>
        unfold forkPass at hstep
        dsimp only at hstep
        split at hstep
        · obtain rfl := Option.some.inj hstep
          exact next_left (by simp only [stepsLeft]; omega) (by
            simp only [stepsLeft]
            split <;> omega)
        · cases hstep
    · cases hstep
  | test =>
    simp only [masterStep] at hstep
    split at hstep
    · next hpc =>
      obtain rfl := Option.some.inj hstep
      rw [hpc]
      cases m.stop with
      | true =>
        show n - 0 + n + 1 ≤ 2 * n + 1
        omega
      | false =>
        show 2 * n + 2 + 1 ≤ 2 * n + 3
        omega
    · cases hstep
  | waitAny pid =>
    simp only [masterStep] at hstep
    split at hstep
    · next hpc =>
      split at hstep
      · obtain rfl := Option.some.inj hstep
        rw [hpc]
        show n - 0 + n + 1 ≤ 2 * n + 2
        omega
      · cases hstep
    · cases hstep
  | waitFailed =>
    rw [waitFailed_none h] at hstep
    cases hstep
  | kill =>
    simp only [masterStep] at hstep
    split at hstep
    · next i hpc =>
      obtain ⟨hi, -⟩ : DoneUpTo n m.stop m.log (.kill i) := hpc ▸ hupTo
      obtain rfl := Option.some.inj hstep
      have hpass : (killPass m i).pc = m.next .kill i (.wait 0) ∧ (killPass m i).stop = m.stop := by
        unfold killPass
        split <;> exact ⟨rfl, rfl⟩
      rw [hpass.1, hpc]
      exact next_left (by simp only [stepsLeft]; omega) (by simp only [stepsLeft]; omega)
    · cases hstep
  | wait =>
    simp only [masterStep] at hstep
    split at hstep
    · next i hpc =>
      obtain ⟨hi, -⟩ : DoneUpTo n m.stop m.log (.wait i) := hpc ▸ hupTo
      have hpass : m'.pc = m.next .wait i .done := by
        unfold waitPass at hstep
        split at hstep
        · split at hstep
          · obtain rfl := Option.some.inj hstep
            rfl
          · split at hstep
            · cases hstep
            · obtain rfl := Option.some.inj hstep
              rfl
        · obtain rfl := Option.some.inj hstep
          rfl
      rw [hpass, hpc]
      exact next_left (by simp only [stepsLeft]; omega) (by simp only [stepsLeft]; omega)
    · cases hstep
  | signal interrupts =>
    simp only [masterStep] at hstep
    split at hstep
    · unfold interrupt at hstep
      split at hstep
      · next hpc =>
        split at hstep
        · obtain rfl := Option.some.inj hstep
          rw [hpc]
          exact Nat.le_succ _
        · cases hstep
      · next i hpc =>
        obtain ⟨hi, -⟩ : DoneUpTo n m.stop m.log (.wait i) := hpc ▸ hupTo
        split at hstep
        · obtain rfl := Option.some.inj hstep
          rw [hpc]
          refine (Nat.le_succ _).trans (next_left ?_ ?_)
          · simp only [stepsLeft]
            omega
          · simp only [stepsLeft]
            omega
        · cases hstep
      · cases hstep
    · obtain rfl := Option.some.inj hstep
      cases m.pc with
      | test =>
        show 2 * n + 1 ≤ if m.stop then 2 * n + 1 else 2 * n + 3
        split <;> omega
      | fork i => exact Nat.le_refl _
      | waitAny => exact Nat.le_refl _
      | kill i => exact Nat.le_refl _
      | wait i => exact Nat.le_refl _
      | done => exact Nat.le_refl _
  | exit pid =>
    simp only [masterStep] at hstep
    split at hstep
    · obtain rfl := Option.some.inj hstep
      exact Nat.le_refl _
    · cases hstep
  | start pid =>
    simp only [masterStep] at hstep
    split at hstep
    · obtain rfl := Option.some.inj hstep
      exact Nat.le_refl _
    · cases hstep
  | leave pid =>
    obtain rfl := Option.some.inj hstep
    exact Nat.le_refl _

/-! ### Sleep -/

/-- The master makes a step, or it sleeps, or it has returned. -/
theorem moves_or_sleeps (h : MasterOk n m) :
    m.pc = .done ∨ (∃ a, a.isOwn = true ∧ (masterStep m a).isSome = true) ∨ Asleep m := by
  have hfailed := waitFailed_none h
  cases hpc : m.pc with
  | fork i => exact .inr (.inl ⟨.fork none, rfl, by simp only [masterStep, hpc, forkPass, Option.isSome]⟩)
  | test => exact .inr (.inl ⟨.test, rfl, by simp only [masterStep, hpc, Option.isSome]⟩)
  | waitAny =>
    by_cases hz : m.zombies = ∅
    · refine .inr (.inr (.inl ⟨hpc, hz, fun hr => ?_⟩))
      simp only [masterStep, hpc, hz, hr, and_self, if_true] at hfailed
      cases hfailed
    · obtain ⟨pid, hpid⟩ := Finset.nonempty_iff_ne_empty.mpr hz
      exact .inr (.inl ⟨.waitAny pid, rfl, by simp only [masterStep, hpc, hpid, if_true, Option.isSome]⟩)
  | kill i => exact .inr (.inl ⟨.kill, rfl, by simp only [masterStep, hpc, Option.isSome]⟩)
  | wait i =>
    by_cases hr : m.pid i ∈ m.running
    · exact .inr (.inr (.inr ⟨i, hpc, hr⟩))
    · -- there is nothing to wait for, or nobody
      have hgo : (waitPass m i).isSome = true := by
        unfold waitPass
        split
        · split
          · rfl
          · rfl
        · rfl
      exact .inr (.inl ⟨.wait, rfl, by simp only [masterStep, hpc, hgo]⟩)
  | done => exact .inl rfl

/-- The signals go to the workers in the order in which they were forked. -/
theorem kills_prefix (h : MasterOk n m) :
    (kills m.log).map Prod.fst <+: forks m.log := by
  have hupTo := h.upTo
  have hnone : kills m.log = [] → (kills m.log).map Prod.fst <+: forks m.log := fun hk => by
    rw [hk]
    exact List.nil_prefix
  cases hpc : m.pc with
  | fork i => exact hnone (by rw [hpc] at hupTo; exact hupTo.2.2.kills)
  | test => exact hnone (by rw [hpc] at hupTo; exact hupTo.2.kills)
  | waitAny => exact hnone (by rw [hpc] at hupTo; exact hupTo.2.kills)
  | kill i =>
    rw [hpc] at hupTo
    rw [hupTo.2.1]
    exact List.take_prefix _ _
  | wait i =>
    rw [hpc] at hupTo
    rw [hupTo.2.1]
  | done =>
    rw [hpc] at hupTo
    rw [hupTo.1]

theorem earlyReaps_subset (log : List MasterCall) : earlyReaps log ⊆ reaps log := by
  intro pid hpid
  obtain ⟨call, hcall, hx⟩ := List.mem_filterMap.mp hpid
  refine List.mem_filterMap.mpr ⟨call, hcall, ?_⟩
  cases call with
  | reapAny q => exact hx
  | fork q => cases hx
  | kill q target => cases hx
  | reap q => cases hx
  | interrupted q => cases hx

theorem runServer_ok {online workers : Int} {others : Finset Nat}
    (h : zvRunServer online workers others = some m) :
    MasterOk m.pids.length m ∧ m.stop = false ∧ m.pc = .fork 0 := by
  unfold zvRunServer at h
  split at h
  · cases h
  · next hmany =>
    obtain rfl := Option.some.inj h
    have hpos : 0 < (workerCount online workers).toNat := by omega
    refine ⟨⟨?_, rfl, fun i => ?_, Nat.zero_le _, (fun pid hp => by cases hp), List.nodup_nil,
      fun pid => ?_, (fun pid hp => by cases hp), ⟨List.nodup_nil, List.nil_subset _⟩, Nat.zero_le _,
      (fun x hx => by cases hx), ?_, rfl, ⟨rfl, rfl, rfl, rfl⟩⟩, rfl, rfl⟩
    · rw [List.length_replicate]
      exact hpos
    · show (List.replicate _ 0).getD i 0 = [].getD i 0
      rw [List.getD_eq_getElem?_getD, List.getElem?_replicate]
      split <;> rfl
    · refine iff_of_false ?_ fun hx => by cases hx.1
      exact fun hx => hx.elim (Finset.notMem_empty pid) (Finset.notMem_empty pid)
    · rw [List.length_replicate]
      exact hpos

end MasterLemmas

open MasterLemmas

/-! ## Shutting down -/

/-- The record of the master against its processes. The children are the workers that were forked
and not waited for; the signals go to the workers in their order, and one meets something else
than its worker (another process with this pid, or none) exactly when it is for the worker with
whose end the first loop of waits ended. When the master has returned each worker was sent its
signal once, and was waited for unless that wait was interrupted. `waitpid(-1)` always has a child to
wait for; only the wait for the worker that had ended early finds none. The master moves, or sleeps
until a worker ends, or has returned. -/
structure Shepherds (m : Master) : Prop where
  children : ∀ pid, pid ∈ m.running ∨ pid ∈ m.zombies ↔ pid ∈ forks m.log ∧ pid ∉ reaps m.log
  once : (forks m.log).Nodup ∧ (reaps m.log).Nodup ∧ reaps m.log ⊆ forks m.log
  signals : (kills m.log).map Prod.fst <+: forks m.log
  targets : ∀ x ∈ kills m.log, x.2 = .child ↔ x.1 ∉ earlyReaps m.log
  early : (earlyReaps m.log).length ≤ 1
  returned : m.pc = .done → (kills m.log).map Prod.fst = forks m.log ∧
    ((∀ x ∈ kills m.log, x.2 = .child) ↔ earlyReaps m.log = []) ∧
    ∀ pid ∈ forks m.log, pid ∈ reaps m.log ↔ pid ∉ interrupts m.log
  hasChild : masterStep m .waitFailed = none
  moves : m.pc = .done ∨ (∃ a, a.isOwn = true ∧ (masterStep m a).isSome = true) ∨ Asleep m

/-- Whatever comes between its calls, the master keeps its record right, and it makes not more than
three steps for each worker and three others. -/
theorem master_shepherds {online workers : Int} {others : Finset Nat} {start m : Master}
    {acts : List MasterAct} (hstart : zvRunServer online workers others = some start)
    (hrun : run masterStep start acts = some m) :
    Shepherds m ∧ acts.countP MasterAct.isOwn ≤ 3 * start.pids.length + 3 := by
  obtain ⟨hok, hstop, hpc⟩ := runServer_ok hstart
  have h := run_invariant (fun _ _ _ h hstep => masterStep_ok h hstep) hok hrun
  have hleft : stepsLeft start.pids.length m.stop m.pc + acts.countP MasterAct.isOwn ≤
      stepsLeft start.pids.length start.stop start.pc :=
    run_countP_le MasterAct.isOwn (fun s => stepsLeft start.pids.length s.stop s.pc)
      (fun _ _ _ h hstep => masterStep_ok h hstep)
      (fun _ _ _ h hstep => masterStep_left h hstep) hok hrun
  refine ⟨⟨h.children, ⟨h.nodup, h.reaped⟩, kills_prefix h, h.targets, h.early, fun hdone => ?_,
    waitFailed_none h, moves_or_sleeps h⟩, ?_⟩
  · obtain ⟨hkills, hw⟩ : DoneUpTo _ m.stop m.log .done := hdone ▸ h.upTo
    refine ⟨hkills, ⟨fun hall => ?_, fun hnone x hx => ?_⟩, fun pid hp => ?_⟩
    · refine List.eq_nil_iff_forall_not_mem.mpr fun pid hpid => ?_
      have hfork := h.reaped.2 (earlyReaps_subset _ hpid)
      rw [← hkills] at hfork
      obtain ⟨x, hx, rfl⟩ := List.mem_map.mp hfork
      exact (h.targets x hx).mp (hall x hx) hpid
    · rw [h.targets x hx, hnone]
      exact List.not_mem_nil
    · exact hw.reaped pid (by rw [List.take_of_length_le h.count]; exact hp)
  · rw [hpc, hstop] at hleft
    simp only [stepsLeft] at hleft
    omega

/-- Two workers are forked, the second one ends, and its pid goes to another process before the
signals are sent; the wait for the first one is interrupted. -/
def lostWorker : List MasterAct :=
  [.fork (some 10), .fork (some 11), .test, .exit 11, .waitAny 11, .start 11, .kill, .kill,
    .signal true, .wait]

theorem master_shepherds_lostWorker : ∃ start m, zvRunServer 4 2 {1} = some start ∧
    run masterStep start lostWorker = some m ∧ m.pc = .done ∧
    kills m.log = [(10, .child), (11, .other)] ∧ interrupts m.log = [10] ∧ Shepherds m := by
  obtain ⟨start, hstart⟩ : ∃ start, zvRunServer 4 2 {1} = some start := ⟨_, rfl⟩
  obtain ⟨m, hrun, hfacts⟩ : ∃ m, run masterStep start lostWorker = some m ∧ m.pc = .done ∧
      kills m.log = [(10, .child), (11, .other)] ∧ interrupts m.log = [10] := by
    obtain rfl := Option.some.inj hstart
    exact ⟨_, rfl, by decide, by decide, by decide⟩
  exact ⟨start, m, hstart, hrun, hfacts.1, hfacts.2.1, hfacts.2.2, (master_shepherds hstart hrun).1⟩

end Zaver
