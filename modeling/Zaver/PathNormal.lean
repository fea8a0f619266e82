import Zaver.PathSafety

/-!
# Normalization is exact

`normalize_abs_path` can fail for want of room in its buffer or on its stack. For a path
that is shorter than the buffer, and a buffer of at most 512 bytes, it does not: what is
written never gets ahead of what was read, and a name takes at least two bytes.

Results:
1. `normalize_exact`: it is the walk over the segments, and leaves its own results alone.
-/

namespace Zaver

open CString DotSegments

namespace PathNormalLemmas

open PathSafetyLemmas

theorem length_join_append (ns ms : List Bytes) :
    (join SLASH (ns ++ ms)).length = (join SLASH ns).length + (join SLASH ms).length := by
  rw [join_append, List.length_append]

theorem length_join_single (n : Bytes) : (join SLASH [n]).length = n.length + 1 := by
  rw [join_cons, join_nil, List.append_nil, List.length_cons]

/-- A step writes no more than it reads. -/
theorem length_enter_le {ns ns' : List Bytes} {seg : Bytes} (h : enter segKind ns seg = some ns') :
    (join SLASH ns').length ≤ (join SLASH ns).length + (join SLASH [seg]).length := by
  unfold enter at h
  split at h
  · obtain rfl := Option.some.inj h
    exact Nat.le_add_right _ _
  · split at h
    · cases h
    · next hne =>
      obtain rfl := Option.some.inj h
      have hns : ns ≠ [] := fun hx => hne (by rw [hx]; rfl)
      have hlen := length_join_append ns.dropLast [ns.getLast hns]
      rw [List.dropLast_append_getLast hns] at hlen
      omega
  · obtain rfl := Option.some.inj h
    exact (length_join_append ns [seg]).le

/-- A name takes at least two bytes. -/
theorem two_mul_length_le {ns : List Bytes} (h : ∀ n ∈ ns, n ≠ []) :
    2 * ns.length ≤ (join SLASH ns).length := by
  induction ns with
  | nil => exact Nat.le_refl _
  | cons n ns ih =>
    have hn := List.length_pos_iff.mpr (h n List.mem_cons_self)
    have hrest := ih fun x hx => h x (List.mem_cons_of_mem _ hx)
    rw [join_cons, List.length_cons, List.length_cons, List.length_append]
    omega

theorem stacked_length {ns : List Bytes} {stack : List Nat} (h : Stacked ns stack) :
    stack.length = ns.length := by
  induction h with
  | nil => rfl
  | push n _ ih => rw [List.length_cons, List.length_append, List.length_singleton, ih]

/-- A step of the walk that stays in the buffer is one of the loop. -/
theorem normSegment_complete {outCap : Nat} (hcap : outCap ≤ 512) {s : NormState} {ns ns' : List Bytes}
    {seg : Bytes} (h : NormOk outCap s ns) (hseg : seg ≠ []) (he : enter segKind ns seg = some ns')
    (hfits : (join SLASH ns).length + (join SLASH [seg]).length < outCap) :
    ∃ s', normSegment outCap s seg = some s' ∧ NormOk outCap s' ns' := by
  have hsome : ∃ s', normSegment outCap s seg = some s' := by
    unfold normSegment
    split
    · exact ⟨_, rfl⟩
    · next hdot =>
      split
      · next hup =>
        have hk : segKind seg = .up := by rw [segKind, if_neg hdot, if_pos hup]
        have hstack := h.stack
        cases hst : s.stack with
        | nil =>
          rw [hst] at hstack
          cases hstack
          unfold enter at he
          rw [hk] at he
          cases he
        | cons k stack => exact ⟨_, rfl⟩
      · rw [length_join_single] at hfits
        have hroom : ¬ (s.out.length > 1 ∧ s.out.length + 1 ≥ outCap) := by
          rintro ⟨hlt, hge⟩
          rw [h.out, if_neg (h.length_gt_one.mp hlt)] at hge
          have hpos := List.length_pos_iff.mpr hseg
          omega
        have hwrite : ¬ (if s.out.length > 1 then s.out ++ [SLASH] else s.out).length + seg.length ≥
            outCap := by
          have hout := h.out
          by_cases hne : ns = []
          · rw [if_pos hne] at hout
            have hone : s.out.length = 1 := by rw [hout]; rfl
            rw [if_neg (by omega), hone]
            omega
          · rw [if_neg hne] at hout
            rw [if_pos (h.length_gt_one.mpr hne), List.length_append, hout, List.length_singleton]
            omega
        have hdepth : ¬ s.stack.length ≥ 256 := by
          have htwo := two_mul_length_le h.names
          have hpos := List.length_pos_iff.mpr hseg
          rw [stacked_length h.stack]
          omega
        rw [if_neg hroom]
        dsimp only
        rw [if_neg hwrite, if_neg hdepth]
        exact ⟨_, rfl⟩
  obtain ⟨s', hs'⟩ := hsome
  obtain ⟨ns'', he', hok⟩ := normSegment_enter h hseg hs'
  obtain rfl := Option.some.inj (he.symm.trans he')
  exact ⟨s', hs', hok⟩

/-- The walk over segments that fit the buffer is the loop. -/
theorem normLoop_complete {outCap : Nat} (hcap : outCap ≤ 512) {segs : List Bytes} {s : NormState}
    {ns ns' : List Bytes} (h : NormOk outCap s ns) (hsegs : ∀ seg ∈ segs, seg ≠ [])
    (hr : resolve segKind ns segs = some ns')
    (hfits : (join SLASH ns).length + (join SLASH segs).length < outCap) :
    ∃ s', segs.foldlM (normSegment outCap) s = some s' ∧ NormOk outCap s' ns' ∧
      (join SLASH ns').length ≤ (join SLASH ns).length + (join SLASH segs).length := by
  induction segs generalizing s ns with
  | nil =>
    obtain rfl := Option.some.inj hr
    exact ⟨s, rfl, h, Nat.le_refl _⟩
  | cons seg segs ih =>
    unfold resolve at hr
    rw [List.foldlM_cons] at hr
    obtain ⟨ns₁, he, hr⟩ := Option.bind_eq_some_iff.mp hr
    have hlen := length_join_append [seg] segs
    rw [List.singleton_append] at hlen
    have hstep := length_enter_le he
    obtain ⟨s₁, hs₁, hok₁⟩ := normSegment_complete hcap h (hsegs seg List.mem_cons_self) he (by omega)
    obtain ⟨s', hs', hok', hle⟩ := ih hok₁ (fun x hx => hsegs x (List.mem_cons_of_mem _ hx)) hr
      (by omega)
    refine ⟨s', ?_, hok', by omega⟩
    rw [List.foldlM_cons, hs₁]
    exact hs'

/-- What is left of a path that ends in a slash leaves room for the slash. -/
theorem length_segments_le (path : Bytes) (h : path.head? = some SLASH) :
    (join SLASH (segments SLASH path.tail)).length ≤ path.length ∧
      (path.getLast? = some SLASH → segments SLASH path.tail ≠ [] →
        (join SLASH (segments SLASH path.tail)).length + 1 ≤ path.length) := by
  cases path with
  | nil => cases h
  | cons c rest =>
    rw [List.tail_cons, List.length_cons]
    refine ⟨length_join_segments_le SLASH rest, fun hlast hne => ?_⟩
    rcases List.eq_nil_or_concat rest with rfl | ⟨t, x, rfl⟩
    · exact absurd rfl hne
    · have hx : x = SLASH := by
        rw [List.concat_eq_append, ← List.cons_append, List.getLast?_concat] at hlast
        exact Option.some.inj hlast
      rw [List.concat_eq_append, hx, segments_concat_sep, List.length_append, List.length_singleton]
      exact Nat.succ_le_succ (length_join_segments_le SLASH t)

theorem normalize_eq {path : Bytes} {outCap : Nat} (hhead : path.head? = some SLASH)
    (hlen : path.length < outCap) (hcap : outCap ≤ 512) :
    normalizeAbsPath path outCap =
      (resolve segKind [] (segments SLASH path.tail)).map fun ns =>
        join SLASH (normParts ns (path.getLast? = some SLASH)) := by
  cases hr : resolve segKind [] (segments SLASH path.tail) with
  | none =>
    cases hn : normalizeAbsPath path outCap with
    | none => rfl
    | some norm =>
      obtain ⟨-, -, ns, hns, -⟩ := normalizeAbsPath_spec hn
      cases hr.symm.trans hns
  | some ns =>
    have hpos : 1 ≤ path.length := List.length_pos_iff.mpr fun hx => by
      rw [hx] at hhead
      cases hhead
    obtain ⟨hfits, htrail⟩ := length_segments_le path hhead
    have h0 : NormOk outCap ⟨[SLASH], []⟩ [] :=
      ⟨rfl, Stacked.nil, fun n hn => absurd hn List.not_mem_nil, by show 1 < outCap; omega⟩
    have hroom : (join SLASH ([] : List Bytes)).length +
        (join SLASH (segments SLASH path.tail)).length < outCap := by
      rw [join_nil, List.length_nil]
      omega
    obtain ⟨s, hs, hok, hle⟩ := normLoop_complete hcap h0 (fun seg hseg => (mem_segments hseg).1) hr hroom
    have hsome : ∃ norm, normalizeAbsPath path outCap = some norm := by
      unfold normalizeAbsPath
      rw [if_neg (by omega), if_neg (by simpa using hhead), hs]
      dsimp only
      split
      · next htr =>
        -- A slash is only added behind a name, and was read as well.
        have hne : ns ≠ [] := hok.length_gt_one.mp htr.2.1
        have hseg : segments SLASH path.tail ≠ [] := by
          intro hx
          rw [hx] at hr
          exact hne (Option.some.inj hr).symm
        have hone := htrail htr.1 hseg
        rw [join_nil, List.length_nil, Nat.zero_add] at hle
        have hout := hok.out
        rw [if_neg hne] at hout
        rw [if_neg (by rw [hout]; omega)]
        exact ⟨_, rfl⟩
      · exact ⟨_, rfl⟩
    obtain ⟨norm, hnorm⟩ := hsome
    obtain ⟨-, -, ns', hns', rfl⟩ := normalizeAbsPath_spec hnorm
    obtain rfl := Option.some.inj (hr.symm.trans hns')
    exact hnorm

/-- The components of a normalized path are read back, and so is its end. -/
theorem join_normParts_read {ns : List Bytes} (hns : ∀ n ∈ ns, n ≠ [] ∧ SLASH ∉ n) (b : Bool) :
    (join SLASH (normParts ns b)).head? = some SLASH ∧
      segments SLASH (join SLASH (normParts ns b)).tail = ns ∧
      normParts ns (decide ((join SLASH (normParts ns b)).getLast? = some SLASH)) =
        normParts ns b := by
  cases ns with
  | nil => exact ⟨rfl, rfl, rfl⟩
  | cons n ns =>
    have hslash : ∀ q ∈ n :: ns, SLASH ∉ q := fun q hq => (hns q hq).2
    have hfilter : (n :: ns).filter (· ≠ []) = n :: ns := by
      rw [List.filter_eq_self]
      intro q hq
      simpa using (hns q hq).1
    have hne : n :: ns ≠ [] := List.cons_ne_nil _ _
    cases b with
    | false =>
      have hparts : normParts (n :: ns) false = n :: ns := rfl
      have hlast : (join SLASH (n :: ns)).getLast? ≠ some SLASH := by
        have hmem := List.getLast_mem hne
        rw [← List.dropLast_append_getLast hne, getLast?_join (hns _ hmem).1]
        exact fun hx => (hns _ hmem).2 (List.mem_of_getLast? hx)
      rw [hparts]
      refine ⟨rfl, ?_, ?_⟩
      · rw [join_cons, List.tail_cons, segments, split_join (hslash n List.mem_cons_self) fun q hq =>
          hslash q (List.mem_cons_of_mem _ hq), hfilter]
      · rw [decide_eq_false hlast]
        rfl
    | true =>
      have hparts : normParts (n :: ns) true = (n :: ns) ++ [[]] := rfl
      have hjoin : join SLASH ((n :: ns) ++ [[]]) = join SLASH (n :: ns) ++ [SLASH] :=
        join_append SLASH (n :: ns) [[]]
      rw [hparts, hjoin]
      refine ⟨rfl, ?_, ?_⟩
      · rw [join_cons, List.cons_append, List.tail_cons, segments_concat_sep, segments,
          split_join (hslash n List.mem_cons_self) fun q hq => hslash q (List.mem_cons_of_mem _ hq),
          hfilter]
      · rw [List.getLast?_concat]
        rfl

end PathNormalLemmas

open PathNormalLemmas PathSafetyLemmas

/-- For a path shorter than the buffer, in a buffer of at most 512 bytes, `normalize_abs_path`
fails exactly when a segment leads above the root, and else gives the names that are left, each
behind a slash, with a slash at the end where the path has one and a name is left. What it gives
it gives again. -/
theorem normalize_exact {path : Bytes} {outCap : Nat} (hhead : path.head? = some SLASH)
    (hlen : path.length < outCap) (hcap : outCap ≤ 512) :
    normalizeAbsPath path outCap =
        (resolve segKind [] (segments SLASH path.tail)).map (fun ns =>
          join SLASH (normParts ns (path.getLast? = some SLASH))) ∧
      ∀ norm, normalizeAbsPath path outCap = some norm →
        normalizeAbsPath norm outCap = some norm := by
  refine ⟨normalize_eq hhead hlen hcap, fun norm hnorm => ?_⟩
  obtain ⟨-, hfits, ns, hns, rfl⟩ := normalizeAbsPath_spec hnorm
  have hnames : ∀ n ∈ ns, (n ≠ [] ∧ SLASH ∉ n) ∧ segKind n = .down :=
    mem_resolve hns (fun n hn => absurd hn List.not_mem_nil) fun seg hseg hk =>
      ⟨⟨(mem_segments hseg).1, (mem_segments hseg).2.1⟩, hk⟩
  obtain ⟨hh, hsegs, hparts⟩ := join_normParts_read (fun n hn => (hnames n hn).1)
    (decide (path.getLast? = some SLASH))
  rw [normalize_eq hh hfits hcap, hsegs, resolve_down fun n hn => (hnames n hn).2]
  exact congrArg (fun ps => some (join SLASH ps)) hparts

theorem normalize_exact_dots :
    normalizeAbsPath (ascii "/a/./b//../c/") 14 = some (ascii "/a/c/") ∧
      normalizeAbsPath (ascii "/a/c/") 14 = some (ascii "/a/c/") := by
  have h : normalizeAbsPath (ascii "/a/./b//../c/") 14 = some (ascii "/a/c/") := by decide +kernel
  exact ⟨h, (normalize_exact (by decide) (by decide) (by decide)).2 _ h⟩

end Zaver
