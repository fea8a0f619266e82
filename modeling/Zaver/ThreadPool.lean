import Zaver.Lib.Bytes
import Zaver.Lib.Runs

/-!
# The thread pool

`threadpool.c`. Each section between `pthread_mutex_lock` and `pthread_mutex_unlock` (or
the wait that releases the mutex) is one step; so is the return of a task, and each
`pthread_join`. A wait may end at any time: the section is the same whether the worker
comes from the top of its loop or from `pthread_cond_wait`, and it looks at the state
again. A task is a function pointer with its argument; `ticket` numbers the calls of
`threadpool_add` that returned `0`. Behind its last `pthread_join` `threadpool_destroy` frees
the pool: its last state is the one that is freed, with the tasks that an immediate shutdown leaves
in the queue.

Result: `threadpool_graceful`. No task is lost or run twice, as long as the number of
queued tasks fits an `int` (`threadpool_queue_size_wraps`).
-/

namespace Zaver

open CString Runs

/-- `zv_threadpool_sd_t`, and `0` for a pool that takes tasks. -/
inductive Shutdown
  | no | immediate | graceful
deriving DecidableEq, Repr

/-- `zv_task_t`. -/
structure Task (τ : Type) where
  ticket : Nat
  work : τ
deriving DecidableEq, Repr

/-- Where a worker is: before `pthread_mutex_lock`, in `pthread_cond_wait`, in a task, or
past its loop. -/
inductive WorkerState (τ : Type)
  | locking
  | waiting
  | running (t : Task τ)
  | exited
deriving DecidableEq, Repr

/-- `zv_threadpool_t`. The queue is the chain behind the dummy head; `held` is true once a
thread has left with the mutex locked; `joined` counts the workers that the thread in
`threadpool_destroy` has joined. The last two fields record the tasks that were taken
and those that have returned. -/
structure ThreadPool (τ : Type) where
  queue : List (Task τ)
  queueSize : Int
  shutdown : Shutdown
  started : Int
  workers : List (WorkerState τ)
  held : Bool
  joined : Option Nat
  accepted : List (Task τ)
  finished : List (Task τ)

variable {τ : Type}

/-- `threadpool_init`, when its allocations succeed. -/
def threadpoolInit (threadNum : Int) : Option (ThreadPool τ) :=
  if threadNum ≤ 0 then none
  else
    some
      { queue := [], queueSize := 0, shutdown := .no, started := threadNum
        workers := List.replicate threadNum.toNat .locking
        held := false, joined := none, accepted := [], finished := [] }

/-- The locked section of `threadpool_add` and its return value. -/
def threadpoolAdd (p : ThreadPool τ) (work : τ) : ThreadPool τ × Int :=
  if p.shutdown ≠ .no then (p, -3)
  else
    let task : Task τ := ⟨p.accepted.length, work⟩
    ({ p with
        queue := task :: p.queue, queueSize := wrapInt (p.queueSize + 1)
        accepted := p.accepted ++ [task] }, 0)

/-- The locked section of `threadpool_destroy`. A second call leaves the loop with
`break`, and does not unlock. -/
def threadpoolDestroy (p : ThreadPool τ) (graceful : Bool) : ThreadPool τ × Int :=
  if p.shutdown ≠ .no then ({ p with held := true }, -3)
  else
    ({ p with shutdown := if graceful then .graceful else .immediate, joined := some 0 }, 0)

/-- The locked section of `threadpool_worker`, up to the wait, the end of the thread or the
call of a task. -/
def threadpoolWorker (p : ThreadPool τ) (i : Nat) : ThreadPool τ :=
  if p.queueSize = 0 ∧ p.shutdown = .no then { p with workers := p.workers.set i .waiting }
  else if p.shutdown = .immediate ∨ p.shutdown = .graceful ∧ p.queueSize = 0 then
    { p with workers := p.workers.set i .exited, started := p.started - 1 }
  else
    match p.queue with
    | [] => { p with workers := p.workers.set i .locking }
    | task :: rest =>
      { p with
        queue := rest, queueSize := wrapInt (p.queueSize - 1)
        workers := p.workers.set i (.running task) }

/-- The steps of producers, destroyers and workers. -/
inductive PoolAct (τ : Type)
  | add (work : τ)
  | destroy (graceful : Bool)
  | join
  | worker (i : Nat)
  | finish (i : Nat)

/-- One step, none when it is not possible. -/
def poolStep (p : ThreadPool τ) : PoolAct τ → Option (ThreadPool τ)
  | .add work => if p.held then none else some (threadpoolAdd p work).1
  | .destroy graceful => if p.held then none else some (threadpoolDestroy p graceful).1
  | .join =>
    match p.joined with
    | none => none
    | some k =>
      match p.workers[k]? with
      | some .exited => some { p with joined := some (k + 1) }
      | _ => none
  | .worker i =>
    match p.workers[i]? with
    | some .locking => if p.held then none else some (threadpoolWorker p i)
    | some .waiting => if p.held then none else some (threadpoolWorker p i)
    | _ => none
  | .finish i =>
    match p.workers[i]? with
    | some (.running t) =>
      some { p with workers := p.workers.set i .locking, finished := p.finished ++ [t] }
    | _ => none

/-- The task a worker is in. -/
def WorkerState.task : WorkerState τ → Option (Task τ)
  | .running t => some t
  | _ => none

/-- The tasks that are being run. -/
def ThreadPool.running (p : ThreadPool τ) : List (Task τ) := p.workers.filterMap WorkerState.task

/-- A task that is taken leaves the number of queued tasks an `int`. -/
def PoolFits (p : ThreadPool τ) : PoolAct τ → Prop
  | .add _ => p.shutdown = .no → p.queue.length + 1 < 2 ^ 31
  | _ => True

instance (p : ThreadPool τ) : (a : PoolAct τ) → Decidable (PoolFits p a)
  | .add _ => inferInstanceAs (Decidable (p.shutdown = .no → p.queue.length + 1 < 2 ^ 31))
  | .destroy _ => isTrue trivial
  | .join => isTrue trivial
  | .worker _ => isTrue trivial
  | .finish _ => isTrue trivial

namespace ThreadPoolLemmas

/-- The invariant of a pool. -/
structure PoolInv (p : ThreadPool τ) : Prop where
  size : p.queueSize = p.queue.length
  fits : p.queue.length < 2 ^ 31
  places : (p.queue ++ (p.running ++ p.finished)).Perm p.accepted
  tickets : p.accepted.map Task.ticket = List.range p.accepted.length
  exited : .exited ∈ p.workers → p.shutdown ≠ .no ∧ (p.shutdown = .graceful → p.queue = [])
  joined : ∀ k, p.joined = some k → ∀ j < k, p.workers[j]? = some .exited
  manned : p.workers ≠ []

theorem wrapInt_of_lt {n : Nat} (h : n < 2 ^ 31) : wrapInt n = n := by
  unfold wrapInt
  rw [Int.bmod_eq_of_le] <;> omega

theorem init_inv {n : Int} {p : ThreadPool τ} (h : threadpoolInit n = some p) : PoolInv p := by
  unfold threadpoolInit at h
  split at h
  · cases h
  · next hn =>
    obtain rfl := Option.some.inj h
    have hrun : (List.replicate n.toNat (WorkerState.locking (τ := τ))).filterMap
        WorkerState.task = [] := by
      rw [List.filterMap_replicate_of_none rfl]
    refine ⟨rfl, Nat.two_pow_pos 31, ?_, rfl, fun hx => ?_, (fun k hk => by cases hk), fun hx => ?_⟩
    · show ([] ++ (List.filterMap _ (List.replicate _ _) ++ [])).Perm []
      rw [hrun]
      exact List.Perm.refl _
    · cases (List.mem_replicate.mp hx).2
    · have hlen := congrArg List.length hx
      rw [List.length_replicate, List.length_nil] at hlen
      omega

/-- A worker stands between the others. -/
theorem workers_split {ws : List (WorkerState τ)} {i : Nat} {w : WorkerState τ}
    (h : ws[i]? = some w) : ∃ l r, ws = l ++ w :: r ∧ ∀ w', ws.set i w' = l ++ w' :: r := by
  obtain ⟨hi, hw⟩ := List.getElem?_eq_some_iff.mp h
  refine ⟨ws.take i, ws.drop (i + 1), ?_, fun w' => ?_⟩
  · rw [← hw, List.cons_getElem_drop_succ, List.take_append_drop]
  · exact List.set_eq_take_append_cons_drop.trans (if_pos hi)

theorem running_split (l r : List (WorkerState τ)) (w : WorkerState τ) :
    ((l ++ w :: r).filterMap WorkerState.task).Perm
      (w.task.toList ++ (l ++ r).filterMap WorkerState.task) := by
  have hw : (w :: r).filterMap WorkerState.task =
      w.task.toList ++ r.filterMap WorkerState.task := by
    cases w with
    | locking => rfl
    | waiting => rfl
    | running t => rfl
    | exited => rfl
  rw [List.filterMap_append, hw, List.filterMap_append]
  exact List.perm_append_comm_assoc _ _ _

/-- One worker moves and the others stay: the tasks that are run change by its own. -/
theorem set_running {ws : List (WorkerState τ)} {i : Nat} {w : WorkerState τ}
    (h : ws[i]? = some w) (w' : WorkerState τ) :
    (w.task.toList ++ (ws.set i w').filterMap WorkerState.task).Perm
      (w'.task.toList ++ ws.filterMap WorkerState.task) := by
  obtain ⟨l, r, rfl, hset⟩ := workers_split h
  rw [hset w']
  refine ((running_split l r w').append_left _).trans ?_
  refine List.Perm.trans ?_ ((running_split l r w).append_left _).symm
  exact List.perm_append_comm_assoc _ _ _

/-- A worker that moves was not past its loop. -/
theorem set_exited {ws : List (WorkerState τ)} {i j : Nat} {w : WorkerState τ}
    (h : ws[i]? = some w) (hw : w ≠ .exited) (w' : WorkerState τ) (hj : ws[j]? = some .exited) :
    (ws.set i w')[j]? = some .exited := by
  have hij : i ≠ j := by
    rintro rfl
    exact hw (Option.some.inj (h.symm.trans hj))
  rw [List.getElem?_set_ne hij]
  exact hj

/-- The invariant when one worker moves between places other than the end of its loop. -/
theorem PoolInv.move {p : ThreadPool τ} (h : PoolInv p) {i : Nat} {w : WorkerState τ}
    (hi : p.workers[i]? = some w) (hw : w ≠ .exited) (w' : WorkerState τ) (hw' : w' ≠ .exited)
    {queue finished : List (Task τ)} {queueSize : Int} (hsize : queueSize = queue.length)
    (hfits : queue.length < 2 ^ 31) (hsub : p.queue = [] → queue = [])
    (hplaces : (queue ++ ((p.workers.set i w').filterMap WorkerState.task ++ finished)).Perm
      (p.queue ++ (p.running ++ p.finished))) :
    PoolInv { p with
      queue := queue, queueSize := queueSize, workers := p.workers.set i w'
      finished := finished } := by
  refine ⟨hsize, hfits, hplaces.trans h.places, h.tickets, fun hx => ?_, fun k hk j hj => ?_, ?_⟩
  · have hold : WorkerState.exited ∈ p.workers := by
      cases List.mem_or_eq_of_mem_set hx with
      | inl hmem => exact hmem
      | inr heq => exact absurd heq.symm hw'
    exact ⟨(h.exited hold).1, fun hg => hsub ((h.exited hold).2 hg)⟩
  · exact set_exited hi hw w' (h.joined k hk j hj)
  · intro hnil
    exact h.manned (by simpa using hnil)

/-- The section of a worker. -/
theorem threadpoolWorker_inv {p : ThreadPool τ} (h : PoolInv p) {i : Nat} {w : WorkerState τ}
    (hi : p.workers[i]? = some w) (hw : w = .locking ∨ w = .waiting) :
    PoolInv (threadpoolWorker p i) := by
  have hne : w ≠ .exited := by
    rcases hw with rfl | rfl
    · exact fun hx => by cases hx
    · exact fun hx => by cases hx
  have htask : w.task = none := by
    rcases hw with rfl | rfl
    · rfl
    · rfl
  have hperm := set_running hi
  rw [htask] at hperm
  unfold threadpoolWorker
  split
  · exact h.move hi hne .waiting (fun hx => by cases hx) h.size h.fits id
      (((hperm .waiting).append_right _).append_left _)
  split
  · next hleave =>
    have hgone : p.shutdown ≠ .no ∧ (p.shutdown = .graceful → p.queue = []) := by
      refine ⟨fun hno => ?_, fun hg => ?_⟩
      · rw [hno] at hleave
        simp at hleave
      · rw [hg] at hleave
        have hzero : p.queueSize = 0 := by simpa using hleave
        have hlen := h.size
        rw [hzero] at hlen
        exact List.length_eq_zero_iff.mp (by omega)
    refine ⟨h.size, h.fits, ?_, h.tickets, fun _ => hgone, fun k hk j hj => ?_, ?_⟩
    · refine List.Perm.trans ?_ h.places
      exact ((hperm .exited).append_right _).append_left _
    · exact set_exited hi hne .exited (h.joined k hk j hj)
    · intro hnil
      exact h.manned (by simpa using hnil)
  · cases hq : p.queue with
    | nil =>
      dsimp only
      have hmove := h.move hi hne .locking (fun hx => by cases hx) h.size h.fits id
        (((hperm .locking).append_right _).append_left _)
      rw [hq] at hmove
      exact hmove
    | cons task rest =>
      dsimp only
      have hsize := h.size
      have hfits := h.fits
      rw [hq, List.length_cons] at hsize hfits
      have hone : p.queueSize - 1 = rest.length := by
        rw [hsize]
        omega
      refine h.move hi hne (.running task) (fun hx => by cases hx) ?_ (by omega) (fun hx => ?_) ?_
      · rw [hone]
        exact wrapInt_of_lt (by omega)
      · rw [hq] at hx
        cases hx
      · rw [hq]
        refine List.Perm.trans (((hperm (.running task)).append_right _).append_left rest) ?_
        exact List.perm_middle

/-- Every step that keeps the queue within an `int` keeps the invariant. -/
theorem poolStep_inv {p p' : ThreadPool τ} {a : PoolAct τ} (h : PoolInv p) (hfits : PoolFits p a)
    (hstep : poolStep p a = some p') : PoolInv p' := by
  unfold poolStep at hstep
  cases a with
  | add work =>
    dsimp only at hstep
    split at hstep
    · cases hstep
    · obtain rfl := Option.some.inj hstep
      unfold threadpoolAdd
      split
      · exact h
      · next hno =>
        have hlt : p.queue.length + 1 < 2 ^ 31 := hfits (not_not.mp hno)
        have hsize : p.queueSize + 1 = ((p.queue.length + 1 : Nat) : Int) := by
          rw [h.size]
          rfl
        refine ⟨?_, hlt, ?_, ?_, fun hx => absurd (h.exited hx).1 hno, h.joined, h.manned⟩
        · dsimp only
          rw [hsize]
          exact wrapInt_of_lt hlt
        · exact (h.places.cons _).trans (List.perm_append_singleton _ _).symm
        · dsimp only
          rw [List.map_append, h.tickets, List.length_append, List.length_singleton,
            List.range_succ]
          rfl
  | destroy graceful =>
    dsimp only at hstep
    split at hstep
    · cases hstep
    · obtain rfl := Option.some.inj hstep
      unfold threadpoolDestroy
      split
      · exact ⟨h.size, h.fits, h.places, h.tickets, h.exited, h.joined, h.manned⟩
      · next hno =>
        refine ⟨h.size, h.fits, h.places, h.tickets, fun hx => absurd (h.exited hx).1 hno,
          fun k hk j hj => ?_, h.manned⟩
        obtain rfl := Option.some.inj hk
        exact absurd hj (Nat.not_lt_zero j)
  | join =>
    dsimp only at hstep
    split at hstep
    · cases hstep
    · next k hk =>
      split at hstep
      · next hexit =>
        obtain rfl := Option.some.inj hstep
        refine ⟨h.size, h.fits, h.places, h.tickets, h.exited, fun k' hk' j hj => ?_, h.manned⟩
        obtain rfl := Option.some.inj hk'
        by_cases hjk : j = k
        · rw [hjk]
          exact hexit
        · exact h.joined k hk j (by omega)
      · cases hstep
  | worker i =>
    dsimp only at hstep
    split at hstep
    · next hi =>
      split at hstep
      · cases hstep
      · obtain rfl := Option.some.inj hstep
        exact threadpoolWorker_inv h hi (Or.inl rfl)
    · next hi =>
      split at hstep
      · cases hstep
      · obtain rfl := Option.some.inj hstep
        exact threadpoolWorker_inv h hi (Or.inr rfl)
    · cases hstep
  | finish i =>
    dsimp only at hstep
    split at hstep
    · next t hi =>
      obtain rfl := Option.some.inj hstep
      have hperm := set_running hi .locking
      refine h.move hi (fun hx => by cases hx) .locking (fun hx => by cases hx) h.size h.fits id ?_
      refine List.Perm.append_left p.queue ?_
      have hswap : ((p.workers.set i .locking).filterMap WorkerState.task ++
          (p.finished ++ [t])).Perm
          (t :: ((p.workers.set i .locking).filterMap WorkerState.task ++ p.finished)) := by
        rw [← List.append_assoc]
        exact List.perm_append_singleton _ _
      exact hswap.trans (hperm.append_right p.finished)
    · cases hstep

theorem count_eq_one {p : ThreadPool τ} [DecidableEq τ] (h : PoolInv p) {t : Task τ}
    (ht : t ∈ p.accepted) : (p.queue ++ (p.running ++ p.finished)).count t = 1 := by
  have hnodup : p.accepted.Nodup := by
    refine List.Nodup.of_map Task.ticket ?_
    rw [h.tickets]
    exact List.nodup_range
  rw [h.places.count_eq]
  exact List.count_eq_one_of_mem hnodup ht

end ThreadPoolLemmas

open ThreadPoolLemmas

/-- In every run in which the number of queued tasks fits an `int`, `queue_size` is the
number of linked tasks, and every task that was taken is in exactly one place: queued,
run or returned. When a graceful `threadpool_destroy` has joined all workers, the queue is
empty and each task has been run once. -/
theorem threadpool_graceful [DecidableEq τ] {n : Int} {p0 p : ThreadPool τ}
    (hinit : threadpoolInit n = some p0) (acts : List (PoolAct τ))
    (hfits : Along poolStep PoolFits p0 acts) (hrun : run poolStep p0 acts = some p) :
    p.queueSize = p.queue.length ∧
      (∀ t ∈ p.accepted, p.queue.count t + p.running.count t + p.finished.count t = 1) ∧
      (p.shutdown = .graceful → p.joined = some p.workers.length →
        p.queue = [] ∧ ∀ t ∈ p.accepted, p.finished.count t = 1) := by
  have h : PoolInv p :=
    run_invariant_along (fun s a s' hs hG hstep => poolStep_inv hs hG hstep) (init_inv hinit)
      hfits hrun
  have hcount : ∀ t ∈ p.accepted, p.queue.count t + p.running.count t + p.finished.count t = 1 := by
    intro t ht
    have hone := count_eq_one h ht
    rw [List.count_append, List.count_append] at hone
    omega
  refine ⟨h.size, hcount, fun hg hj => ?_⟩
  have hall : ∀ w ∈ p.workers, w = .exited := by
    intro w hw
    obtain ⟨j, hjlt, hwj⟩ := List.getElem_of_mem hw
    have hexit := h.joined _ hj j hjlt
    rw [List.getElem?_eq_getElem hjlt, hwj] at hexit
    exact Option.some.inj hexit
  obtain ⟨w, hw⟩ := List.exists_mem_of_ne_nil _ h.manned
  have hq : p.queue = [] := (h.exited (hall w hw ▸ hw)).2 hg
  have hr : p.running = [] := by
    refine List.filterMap_eq_nil_iff.mpr fun w hw => ?_
    rw [hall w hw]
    rfl
  refine ⟨hq, fun t ht => ?_⟩
  have hone := hcount t ht
  rw [hq, hr] at hone
  simpa using hone

/-- A pool of two workers that takes two tasks and is then shut down. -/
def twoTasks : List (PoolAct Nat) :=
  [.worker 0, .add 10, .add 20, .worker 0, .destroy true, .worker 1, .finish 0, .worker 0,
    .finish 1, .worker 1, .join, .join]

theorem threadpool_graceful_two :
    ∃ p0 p : ThreadPool Nat, threadpoolInit 2 = some p0 ∧ Along poolStep PoolFits p0 twoTasks ∧
      run poolStep p0 twoTasks = some p ∧ p.shutdown = .graceful ∧
      p.joined = some p.workers.length ∧ p.accepted.length = 2 ∧
      p.queue = [] ∧ ∀ t ∈ p.accepted, p.finished.count t = 1 := by
  have hfits : Along poolStep PoolFits
      { queue := [], queueSize := 0, shutdown := .no, started := 2
        workers := List.replicate 2 .locking, held := false, joined := none, accepted := []
        finished := [] } twoTasks := by decide
  exact ⟨_, _, rfl, hfits, rfl, rfl, rfl, rfl,
    (threadpool_graceful (n := 2) rfl twoTasks hfits rfl).2.2 rfl rfl⟩

namespace ThreadPoolLemmas

/-- Tasks that no worker takes. -/
theorem run_adds (p : ThreadPool τ) (work : τ) (k : Nat) (hno : p.shutdown = .no)
    (hheld : p.held = false) (hq : p.queueSize = wrapInt p.queue.length) :
    ∃ p', run poolStep p (List.replicate k (.add work)) = some p' ∧
      p'.queue.length = p.queue.length + k ∧ p'.queueSize = wrapInt p'.queue.length := by
  induction k generalizing p with
  | zero => exact ⟨p, rfl, rfl, hq⟩
  | succ k ih =>
    have hstep : poolStep p (.add work) = some (threadpoolAdd p work).1 := by
      unfold poolStep
      dsimp only
      rw [if_neg (by rw [hheld]; exact fun hx => by cases hx)]
    have hadd : (threadpoolAdd p work).1 = { p with
        queue := ⟨p.accepted.length, work⟩ :: p.queue, queueSize := wrapInt (p.queueSize + 1)
        accepted := p.accepted ++ [⟨p.accepted.length, work⟩] } := by
      unfold threadpoolAdd
      rw [if_neg (fun hx => hx hno)]
    have hwrap : wrapInt (p.queueSize + 1) = wrapInt (p.queue.length + 1 : Nat) := by
      rw [hq]
      unfold wrapInt
      rw [Int.bmod_add_bmod]
      rfl
    obtain ⟨p', hrun, hlen, hsize⟩ := ih (threadpoolAdd p work).1 (by rw [hadd]; exact hno)
      (by rw [hadd]; exact hheld) (by rw [hadd]; exact hwrap)
    refine ⟨p', ?_, ?_, hsize⟩
    · rw [List.replicate_succ]
      exact run_cons.mpr ⟨_, hstep, hrun⟩
    · rw [hlen, hadd]
      show p.queue.length + 1 + k = _
      omega

end ThreadPoolLemmas

/-- After `2 ^ 31` tasks that no worker has taken, `queue_size` is not their number. -/
theorem threadpool_queue_size_wraps :
    ∃ p0 p : ThreadPool Nat, threadpoolInit 1 = some p0 ∧
      run poolStep p0 (List.replicate (2 ^ 31) (.add 0)) = some p ∧
      p.queueSize ≠ p.queue.length := by
  obtain ⟨p, hrun, hlen, hsize⟩ := run_adds
    { queue := [], queueSize := 0, shutdown := .no, started := 1, workers := [.locking]
      held := false, joined := none, accepted := [], finished := [] } (0 : Nat) (2 ^ 31) rfl rfl rfl
  refine ⟨_, p, rfl, hrun, ?_⟩
  rw [hsize, hlen]
  decide

end Zaver
