import Mathlib

/-!
# CPU affinity of the workers

`maybe_set_cpu_affinity` pins a worker to one of the CPUs on which it may run: it counts the bits of
its mask and takes the bit with the number of the worker, modulo that count. The mask is the same for
all workers, which are numbered from 0 on, so that each CPU gets its share of them
(`affinity_spreads`).
-/

namespace Zaver

/-- The size of a `cpu_set_t` in bits. -/
def CPU_SETSIZE : Nat := 1024

/-- The loop that counts the CPUs of the mask. -/
def countCpus (available : Nat → Bool) : Nat :=
  (List.range CPU_SETSIZE).foldl (fun count cpu => if available cpu then count + 1 else count) 0

/-- The loop that looks for the CPU with the number `pick`. -/
def chooseCpu (available : Nat → Bool) : Nat → List Nat → Option Nat
  | _, [] => none
  | pick, cpu :: cpus =>
    if available cpu = false then chooseCpu available pick cpus
    else if pick = 0 then some cpu
    else chooseCpu available (pick - 1) cpus

/-- `maybe_set_cpu_affinity`: the CPU that is handed to `sched_setaffinity`, if it is called. `mask`
is the answer of `sched_getaffinity`. -/
def maybeSetCpuAffinity (cpuAffinity : Int) (mask : Option (Nat → Bool)) (workerId : Nat) :
    Option Nat :=
  if cpuAffinity = 0 then none
  else
    match mask with
    | none => none
    | some available =>
      if countCpus available = 0 then none
      else chooseCpu available (workerId % countCpus available) (List.range CPU_SETSIZE)

/-- The workers among the first `workers` that are pinned to `cpu`. -/
def pinnedTo (cpuAffinity : Int) (available : Nat → Bool) (workers cpu : Nat) : Nat :=
  workers.count fun i => maybeSetCpuAffinity cpuAffinity (some available) i = some cpu

namespace AffinityLemmas

/-- The CPUs of the mask. -/
def cpusOf (available : Nat → Bool) : List Nat := (List.range CPU_SETSIZE).filter available

variable (available : Nat → Bool)

theorem countCpus_eq : countCpus available = (cpusOf available).length := by
  have hfold : ∀ (cpus : List Nat) (count : Nat),
      cpus.foldl (fun count cpu => if available cpu then count + 1 else count) count =
        count + (cpus.filter available).length := by
    intro cpus
    induction cpus with
    | nil => exact fun _ => rfl
    | cons cpu cpus ih =>
      intro count
      rw [List.foldl_cons, ih, List.filter_cons]
      cases available cpu with
      | false => rfl
      | true =>
        show count + 1 + _ = count + (_ + 1)
        omega
  rw [countCpus, hfold, Nat.zero_add]
  rfl

theorem chooseCpu_eq (pick : Nat) (cpus : List Nat) :
    chooseCpu available pick cpus = (cpus.filter available)[pick]? := by
  induction cpus generalizing pick with
  | nil => rfl
  | cons cpu cpus ih =>
    rw [chooseCpu, List.filter_cons]
    cases available cpu with
    | false => exact ih pick
    | true =>
      cases pick with
      | zero => rfl
      | succ pick => exact ih pick

theorem mem_cpusOf {cpu : Nat} :
    cpu ∈ cpusOf available ↔ cpu < CPU_SETSIZE ∧ available cpu = true := by
  rw [cpusOf, List.mem_filter, List.mem_range]

/-- A worker is pinned to the CPU with its number, modulo the number of CPUs. -/
theorem maybeSetCpuAffinity_eq {cpuAffinity : Int} (h : cpuAffinity ≠ 0)
    (hpos : 0 < (cpusOf available).length) (i : Nat) :
    maybeSetCpuAffinity cpuAffinity (some available) i =
      (cpusOf available)[i % (cpusOf available).length]? := by
  unfold maybeSetCpuAffinity
  rw [if_neg h]
  dsimp only
  rw [countCpus_eq, if_neg hpos.ne', chooseCpu_eq]
  rfl

/-- The workers on the CPU with the number `v` are those with that number, modulo the number of
CPUs. -/
theorem pinned_iff {cpuAffinity : Int} (h : cpuAffinity ≠ 0)
    (hpos : 0 < (cpusOf available).length) {v : Nat} (hv : v < (cpusOf available).length) (i : Nat) :
    maybeSetCpuAffinity cpuAffinity (some available) i = some (cpusOf available)[v] ↔
      i ≡ v [MOD (cpusOf available).length] := by
  have hlt : i % (cpusOf available).length < (cpusOf available).length := Nat.mod_lt i hpos
  have hnodup : (cpusOf available).Nodup := List.nodup_range.filter _
  rw [maybeSetCpuAffinity_eq available h hpos, List.getElem?_eq_getElem hlt, Option.some.injEq,
    hnodup.getElem_inj_iff]
  unfold Nat.ModEq
  rw [Nat.mod_eq_of_lt hv]

end AffinityLemmas

open AffinityLemmas

/-- Every worker is pinned to a CPU of the mask, and the CPUs of the mask get the same number of
workers, but for one that some have more than the others. -/
structure SpreadEvenly (cpuAffinity : Int) (available : Nat → Bool) (workers : Nat) : Prop where
  pinned : ∀ i, ∃ cpu < CPU_SETSIZE, available cpu = true ∧
    maybeSetCpuAffinity cpuAffinity (some available) i = some cpu
  shares : ∀ cpu < CPU_SETSIZE, available cpu = true →
    pinnedTo cpuAffinity available workers cpu = workers / countCpus available ∨
      pinnedTo cpuAffinity available workers cpu = workers / countCpus available + 1

/-- With `cpu_affinity` set, the workers are spread evenly over the CPUs. -/
theorem affinity_spreads {cpuAffinity : Int} {available : Nat → Bool} (workers : Nat)
    (h : cpuAffinity ≠ 0) (hone : ∃ cpu < CPU_SETSIZE, available cpu = true) :
    SpreadEvenly cpuAffinity available workers := by
  have hpos : 0 < (cpusOf available).length := by
    obtain ⟨cpu, hcpu⟩ := hone
    exact List.length_pos_of_mem ((mem_cpusOf available).mpr hcpu)
  refine ⟨fun i => ?_, fun cpu hlt havail => ?_⟩
  · have hlt : i % (cpusOf available).length < (cpusOf available).length := Nat.mod_lt i hpos
    obtain ⟨hcpu, havail⟩ := (mem_cpusOf available).mp (List.getElem_mem hlt)
    refine ⟨_, hcpu, havail, ?_⟩
    rw [maybeSetCpuAffinity_eq available h hpos, List.getElem?_eq_getElem hlt]
  · obtain ⟨v, hv, hcpu⟩ := List.getElem_of_mem ((mem_cpusOf available).mpr ⟨hlt, havail⟩)
    have hcount : pinnedTo cpuAffinity available workers cpu =
        workers / (cpusOf available).length +
          if v % (cpusOf available).length < workers % (cpusOf available).length then 1 else 0 := by
      rw [← Nat.count_modEq_card workers hpos v]
      unfold pinnedTo
      rw [← hcpu]
      simp only [pinned_iff available h hpos hv]
    rw [countCpus_eq, hcount]
    split
    · exact .inr rfl
    · exact .inl rfl

/-- Five workers on the CPUs 2 and 5. -/
theorem affinity_spreads_two :
    pinnedTo 1 (fun cpu => cpu == 2 || cpu == 5) 5 2 = 3 ∧
      SpreadEvenly 1 (fun cpu => cpu == 2 || cpu == 5) 5 :=
  ⟨by decide +kernel, affinity_spreads 5 (by decide) ⟨2, by decide, rfl⟩⟩

end Zaver
