import Zaver.ThreadPool

/-!
# How the calls of the thread pool return

`threadpool.c` again, now with what may fail between `pthread_mutex_lock` and
`pthread_mutex_unlock`: `malloc` in `threadpool_add`, `pthread_cond_broadcast` in
`threadpool_destroy`. A failing `pthread_cond_signal` is only logged. A step carries the
value of the call that returns in it. The mutex is destroyed when `threadpool_destroy` has
joined all workers; what a call does after that is undefined, so there is no such step.

Result: `threadpool_calls_iff`. Every call of a run gives back the mutex and reports what
it did exactly when no task is refused memory, no `pthread_cond_broadcast` fails and
`threadpool_destroy` is called once (`threadpool_calls_fail`).
-/

namespace Zaver

open Runs

variable {τ : Type}

/-- `threadpool_add`; `none` is a null `func`. Without memory for the task it goes to `out`
with `err` still `0`. -/
def threadpoolAddCall (p : ThreadPool τ) (func : Option τ) (allocated : Bool) :
    ThreadPool τ × Int :=
  match func with
  | none => (p, -1)
  | some work =>
    if p.shutdown ≠ .no then (p, -3)
    else if allocated = false then (p, 0)
    else threadpoolAdd p work

/-- `threadpool_destroy` up to its loop of `pthread_join`, with the value it returns when it
does not get there. Both `break`s leave the mutex locked. -/
def threadpoolDestroyCall (p : ThreadPool τ) (graceful broadcast : Bool) :
    ThreadPool τ × Option Int :=
  if p.shutdown ≠ .no then ({ p with held := true }, some (-3))
  else
    let p := { p with shutdown := if graceful then .graceful else .immediate }
    if broadcast = false then ({ p with held := true }, some (-4))
    else ({ p with joined := some 0 }, none)

/-- `threadpool_free`. -/
def threadpoolFree (p : ThreadPool τ) : ThreadPool τ :=
  if 0 < p.started then p else { p with queue := [] }

/-- The mutex has been destroyed. -/
def ThreadPool.gone (p : ThreadPool τ) : Bool := p.joined == some p.workers.length

/-- The steps of producers, destroyers and workers, with what fails in them. -/
inductive CallAct (τ : Type)
  | add (func : Option τ) (allocated : Bool)
  | destroy (graceful broadcast : Bool)
  | join
  | worker (i : Nat)
  | finish (i : Nat)

/-- One step and the value of the call that returns in it, none when the step is not
possible. -/
def callStep (p : ThreadPool τ) : CallAct τ → Option (ThreadPool τ × Option Int)
  | .add none allocated =>
    some ((threadpoolAddCall p none allocated).1, some (threadpoolAddCall p none allocated).2)
  | .add (some work) allocated =>
    if p.held || p.gone then none
    else
      some ((threadpoolAddCall p (some work) allocated).1,
        some (threadpoolAddCall p (some work) allocated).2)
  | .destroy graceful broadcast =>
    if p.held || p.gone then none else some (threadpoolDestroyCall p graceful broadcast)
  | .join =>
    match p.joined with
    | none => none
    | some k =>
      match p.workers[k]? with
      | some .exited =>
        let p := { p with joined := some (k + 1) }
        some (if p.gone then (threadpoolFree p, some 0) else (p, none))
      | _ => none
  | .worker i => (poolStep p (.worker i)).map fun p' => (p', none)
  | .finish i => (poolStep p (.finish i)).map fun p' => (p', none)

/-- The state after one step. -/
def callNext (p : ThreadPool τ) (a : CallAct τ) : Option (ThreadPool τ) :=
  (callStep p a).map Prod.fst

/-- The mutex is free after the step if it was free before, and a `threadpool_add` has
returned `0` if and only if it has linked its task, with the queue as it was otherwise. -/
structure Truthful (p : ThreadPool τ) (a : CallAct τ) (p' : ThreadPool τ) (rc : Option Int) :
    Prop where
  released : p.held = false → p'.held = false
  linked : ∀ func allocated, a = .add func allocated →
    (rc = some 0 ↔ ∃ work, func = some work ∧ p'.queue = ⟨p.accepted.length, work⟩ :: p.queue)
  unchanged : ∀ func allocated, a = .add func allocated → rc ≠ some 0 →
    p'.queue = p.queue ∧ p'.queueSize = p.queueSize

/-- What the step does is truthful. -/
def CallTruthful (p : ThreadPool τ) (a : CallAct τ) : Prop :=
  ∀ p' rc, callStep p a = some (p', rc) → Truthful p a p' rc

/-- The exits that go wrong are not taken. -/
def CallSafe (p : ThreadPool τ) : CallAct τ → Prop
  | .add func allocated => func = none ∨ p.shutdown ≠ .no ∨ allocated = true
  | .destroy _ broadcast => p.shutdown = .no ∧ broadcast = true
  | _ => True

instance (p : ThreadPool τ) : (a : CallAct τ) → Decidable (CallSafe p a)
  | .add func allocated =>
    have : Decidable (func = none) := decidable_of_iff (func.isNone = true) Option.isNone_iff_eq_none
    inferInstanceAs (Decidable (func = none ∨ p.shutdown ≠ .no ∨ allocated = true))
  | .destroy _ broadcast => inferInstanceAs (Decidable (p.shutdown = .no ∧ broadcast = true))
  | .join => isTrue trivial
  | .worker _ => isTrue trivial
  | .finish _ => isTrue trivial

namespace ThreadPoolCallsLemmas

/-- Where every allocation succeeds, `threadpool_add` is the section of the pool. -/
theorem threadpoolAddCall_allocated (p : ThreadPool τ) (work : τ) :
    threadpoolAddCall p (some work) true = threadpoolAdd p work := by
  unfold threadpoolAddCall threadpoolAdd
  dsimp only
  split
  · rfl
  · rfl

theorem ne_cons_self {α : Type} (x : α) (xs : List α) : xs ≠ x :: xs := by
  intro h
  have hlen := congrArg List.length h
  rw [List.length_cons] at hlen
  exact Nat.succ_ne_self _ hlen.symm

/-- A section that is no `threadpool_add`. -/
theorem Truthful.of_held {p p' : ThreadPool τ} {a : CallAct τ} {rc : Option Int}
    (hadd : ∀ func allocated, a ≠ .add func allocated) (hheld : p.held = false → p'.held = false) :
    Truthful p a p' rc :=
  ⟨hheld, fun func allocated h => absurd h (hadd func allocated),
    fun func allocated h => absurd h (hadd func allocated)⟩

theorem poolStep_worker_held {p p' : ThreadPool τ} {i : Nat}
    (h : poolStep p (.worker i) = some p') : p'.held = p.held := by
  have hsection : (threadpoolWorker p i).held = p.held := by
    unfold threadpoolWorker
    split
    · rfl
    split
    · rfl
    split
    · rfl
    · rfl
  unfold poolStep at h
  dsimp only at h
  split at h
  · split at h
    · cases h
    · obtain rfl := Option.some.inj h
      exact hsection
  · split at h
    · cases h
    · obtain rfl := Option.some.inj h
      exact hsection
  · cases h

theorem poolStep_finish_held {p p' : ThreadPool τ} {i : Nat}
    (h : poolStep p (.finish i) = some p') : p'.held = p.held := by
  unfold poolStep at h
  dsimp only at h
  split at h
  · obtain rfl := Option.some.inj h
    rfl
  · cases h

/-- `threadpool_add` never keeps the mutex; it tells the truth unless it had no memory. -/
theorem threadpoolAddCall_truthful (p : ThreadPool τ) (func : Option τ) (allocated : Bool) :
    Truthful p (.add func allocated) (threadpoolAddCall p func allocated).1
        (some (threadpoolAddCall p func allocated).2) ↔
      CallSafe p (.add func allocated) := by
  cases func with
  | none =>
    refine ⟨fun _ => Or.inl rfl, fun _ => ⟨id, ?_, ?_⟩⟩
    · rintro _ _ ⟨⟩
      exact ⟨(fun h => by cases h), fun ⟨_, h, _⟩ => by cases h⟩
    · rintro _ _ ⟨⟩ _
      exact ⟨rfl, rfl⟩
  | some work =>
    unfold threadpoolAddCall
    dsimp only
    by_cases hdown : p.shutdown ≠ .no
    · rw [if_pos hdown]
      refine ⟨fun _ => Or.inr (Or.inl hdown), fun _ => ⟨id, ?_, ?_⟩⟩
      · rintro _ _ ⟨⟩
        exact ⟨(fun h => by cases h), fun ⟨_, _, h⟩ => absurd h (ne_cons_self _ _)⟩
      · rintro _ _ ⟨⟩ _
        exact ⟨rfl, rfl⟩
    rw [if_neg hdown]
    cases allocated with
    | false =>
      -- `err` is still `0` here, and the queue is as it was
      refine ⟨fun h => ?_, fun h => ?_⟩
      · obtain ⟨_, _, hq⟩ := (h.linked _ _ rfl).mp rfl
        exact absurd hq (ne_cons_self _ _)
      · rcases h with hnull | hno | hmem
        · cases hnull
        · exact absurd hno hdown
        · cases hmem
    | true =>
      rw [if_neg (fun hx => by cases hx)]
      unfold threadpoolAdd
      rw [if_neg hdown]
      refine ⟨fun _ => Or.inr (Or.inr rfl), fun _ => ⟨id, ?_, ?_⟩⟩
      · rintro _ _ ⟨⟩
        exact ⟨fun _ => ⟨work, rfl, rfl⟩, fun _ => rfl⟩
      · rintro _ _ ⟨⟩ hrc
        exact absurd rfl hrc

/-- `threadpool_destroy` gives back the mutex unless it takes one of its two `break`s. -/
theorem threadpoolDestroyCall_held (p : ThreadPool τ) (graceful broadcast : Bool)
    (hfree : p.held = false) :
    (threadpoolDestroyCall p graceful broadcast).1.held = false ↔
      CallSafe p (.destroy graceful broadcast) := by
  unfold threadpoolDestroyCall
  by_cases hdown : p.shutdown ≠ .no
  · rw [if_pos hdown]
    exact ⟨(fun h => by cases h), fun h => absurd h.1 hdown⟩
  rw [if_neg hdown]
  have hno : p.shutdown = .no := not_not.mp hdown
  cases broadcast with
  | false => exact ⟨(fun h => by cases h), fun h => by cases h.2⟩
  | true => exact ⟨fun _ => ⟨hno, rfl⟩, fun _ => hfree⟩

/-- A step that is possible is truthful if and only if it is safe. -/
theorem callStep_truthful {p p' : ThreadPool τ} {a : CallAct τ} {rc : Option Int}
    (h : callStep p a = some (p', rc)) : Truthful p a p' rc ↔ CallSafe p a := by
  unfold callStep at h
  cases a with
  | add func allocated =>
    cases func with
    | none =>
      obtain ⟨rfl, rfl⟩ := Prod.mk.inj (Option.some.inj h)
      exact threadpoolAddCall_truthful p none allocated
    | some work =>
      dsimp only at h
      split at h
      · cases h
      · obtain ⟨rfl, rfl⟩ := Prod.mk.inj (Option.some.inj h)
        exact threadpoolAddCall_truthful p (some work) allocated
  | destroy graceful broadcast =>
    dsimp only at h
    split at h
    · cases h
    · next hfree =>
      have hheld : p.held = false := (Bool.or_eq_false_iff.mp (Bool.eq_false_of_not_eq_true hfree)).1
      have hp : (threadpoolDestroyCall p graceful broadcast).1 = p' :=
        congrArg Prod.fst (Option.some.inj h)
      rw [← threadpoolDestroyCall_held p graceful broadcast hheld, hp]
      exact ⟨fun ht => ht.released hheld,
        fun ht => Truthful.of_held (fun _ _ hx => by cases hx) fun _ => ht⟩
  | join =>
    refine ⟨fun _ => trivial, fun _ => Truthful.of_held (fun _ _ hx => by cases hx) fun hheld => ?_⟩
    dsimp only at h
    split at h
    · cases h
    split at h
    · split at h
      · obtain ⟨rfl, -⟩ := Prod.mk.inj (Option.some.inj h)
        unfold threadpoolFree
        split
        · exact hheld
        · exact hheld
      · obtain ⟨rfl, -⟩ := Prod.mk.inj (Option.some.inj h)
        exact hheld
    · cases h
  | worker i =>
    refine ⟨fun _ => trivial, fun _ => Truthful.of_held (fun _ _ hx => by cases hx) fun hheld => ?_⟩
    obtain ⟨q, hq, heq⟩ := Option.map_eq_some_iff.mp h
    obtain ⟨rfl, -⟩ := Prod.mk.inj heq
    rw [poolStep_worker_held hq]
    exact hheld
  | finish i =>
    refine ⟨fun _ => trivial, fun _ => Truthful.of_held (fun _ _ hx => by cases hx) fun hheld => ?_⟩
    obtain ⟨q, hq, heq⟩ := Option.map_eq_some_iff.mp h
    obtain ⟨rfl, -⟩ := Prod.mk.inj heq
    rw [poolStep_finish_held hq]
    exact hheld

theorem callNext_truthful {p p' : ThreadPool τ} {a : CallAct τ} (h : callNext p a = some p') :
    CallTruthful p a ↔ CallSafe p a := by
  obtain ⟨⟨q, rc⟩, hq, -⟩ := Option.map_eq_some_iff.mp h
  refine ⟨fun ht => (callStep_truthful hq).mp (ht q rc hq), fun hs p'' rc'' hstep => ?_⟩
  exact (callStep_truthful hstep).mpr hs

end ThreadPoolCallsLemmas

open ThreadPoolCallsLemmas

/-- In every run of a pool, every call gives back the mutex it took, and every
`threadpool_add` returns `0` if and only if it linked its task, exactly when no step takes
one of the exits that `CallSafe` excludes; the mutex is then free in the state reached. -/
theorem threadpool_calls_iff {n : Int} {p0 p : ThreadPool τ} (hinit : threadpoolInit n = some p0)
    (acts : List (CallAct τ)) (hrun : run callNext p0 acts = some p) :
    (Along callNext CallTruthful p0 acts ↔ Along callNext CallSafe p0 acts) ∧
      (Along callNext CallSafe p0 acts → p.held = false) := by
  refine ⟨along_congr (fun _ _ _ h => callNext_truthful h) hrun, fun hsafe => ?_⟩
  have hfree : p0.held = false := by
    unfold threadpoolInit at hinit
    split at hinit
    · cases hinit
    · obtain rfl := Option.some.inj hinit
      rfl
  refine run_invariant_along (P := fun q => q.held = false) (fun s a s' hs hG hstep => ?_) hfree
    hsafe hrun
  obtain ⟨⟨q, rc⟩, hq, rfl⟩ := Option.map_eq_some_iff.mp hstep
  exact ((callStep_truthful hq).mpr hG).released hs

/-- One worker, one task, and one call of `threadpool_destroy`. -/
def oneTask : List (CallAct Nat) :=
  [.add (some 7) true, .worker 0, .destroy true true, .add (some 8) false, .finish 0, .worker 0,
    .join]

theorem threadpool_calls_iff_one :
    ∃ p0 p : ThreadPool Nat, threadpoolInit 1 = some p0 ∧ run callNext p0 oneTask = some p ∧
      Along callNext CallTruthful p0 oneTask ∧ p.held = false := by
  have hsafe : Along callNext CallSafe
      { queue := [], queueSize := 0, shutdown := .no, started := 1
        workers := List.replicate 1 .locking, held := false, joined := none, accepted := []
        finished := [] } oneTask := by decide
  have h := threadpool_calls_iff (n := 1) rfl oneTask rfl
  exact ⟨_, _, rfl, rfl, h.1.mpr hsafe, h.2 hsafe⟩

/-- A task that gets no memory is reported as taken, and a second `threadpool_destroy`
returns with the mutex locked: no worker can then reach its end, and the first call waits
for it. -/
theorem threadpool_calls_fail :
    (∃ p0 p1 : ThreadPool Nat, threadpoolInit 1 = some p0 ∧
      callStep p0 (.add (some 7) false) = some (p1, some 0) ∧ p1.queue = p0.queue ∧
      ¬ CallTruthful p0 (.add (some 7) false)) ∧
    (∃ p0 p1 p2 : ThreadPool Nat, threadpoolInit 1 = some p0 ∧
      callStep p0 (.destroy true true) = some (p1, none) ∧
      callStep p1 (.destroy true true) = some (p2, some (-3)) ∧
      ¬ CallTruthful p1 (.destroy true true) ∧
      p2.held = true ∧ callStep p2 (.worker 0) = none ∧ callStep p2 .join = none) := by
  refine ⟨⟨_, _, rfl, rfl, rfl, fun h => ?_⟩, ⟨_, _, _, rfl, rfl, rfl, fun h => ?_, rfl, rfl, rfl⟩⟩
  · have hsafe := (callStep_truthful rfl).mp (h _ _ rfl)
    exact absurd hsafe (by decide)
  · have hsafe := (callStep_truthful rfl).mp (h _ _ rfl)
    exact absurd hsafe (by decide)

end Zaver
