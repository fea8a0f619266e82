import Zaver.HttpPath

/-!
# What the file names look like

`normalize_abs_path` works on a byte buffer and a stack of lengths. It is a walk
over the segments of the decoded path (`normalizeAbsPath_spec`), and the buffer
holds at every step the names on the way, each behind a slash.
-/

namespace Zaver

open CString DotSegments

/-! ## Well-formed paths -/

/-- A byte that `percent_decode` lets through. -/
def CleanByte (c : UInt8) : Prop := c ≠ 0 ∧ c ≠ '\\'.toUInt8 ∧ c ≠ CR ∧ c ≠ LF

/-- A path that stays where it begins: it starts with a slash, only its last component
may be empty, no component is a dot segment, and no byte is harmful. -/
structure SafePath (path : Bytes) : Prop where
  absolute : path.head? = some SLASH
  nonempty : ∀ p ∈ (split SLASH path.tail).dropLast, p ≠ []
  noDots : ∀ p ∈ split SLASH path.tail, p ≠ ascii "." ∧ p ≠ ascii ".."
  clean : ∀ c ∈ path, CleanByte c

/-- What a segment does to the place reached. -/
def segKind (seg : Bytes) : Move :=
  if seg = ascii "." then .stay else if seg = ascii ".." then .up else .down

/-- The components of a normalized path. -/
def normParts (ns : List Bytes) (trailing : Bool) : List Bytes :=
  if ns = [] then [[]] else if trailing then ns ++ [[]] else ns

namespace PathSafetyLemmas

/-! ### Decoding -/

theorem putDecoded_clean {outCap : Nat} {out out' : Bytes} {ch : UInt8}
    (h : putDecoded outCap out ch = some out') (hout : ∀ c ∈ out, CleanByte c) :
    ∀ c ∈ out', CleanByte c := by
  unfold putDecoded at h
  split at h
  · cases h
  · next hbad =>
    split at h
    · cases h
    · obtain rfl := Option.some.inj h
      intro c hc
      cases List.mem_append.mp hc with
      | inl hc => exact hout c hc
      | inr hc =>
        rw [List.mem_singleton] at hc
        subst hc
        exact ⟨fun hx => hbad (Or.inl hx), fun hx => hbad (Or.inr (Or.inl hx)),
          fun hx => hbad (Or.inr (Or.inr (Or.inl hx))),
          fun hx => hbad (Or.inr (Or.inr (Or.inr hx)))⟩

theorem percentDecodeLoop_clean {outCap : Nat} {out s d : Bytes}
    (h : percentDecodeLoop outCap out s = some d) (hout : ∀ c ∈ out, CleanByte c) :
    ∀ c ∈ d, CleanByte c := by
  fun_induction percentDecodeLoop outCap out s with
  | case1 out =>
    obtain rfl := Option.some.inj h
    exact hout
  | case2 out hi lo rest x y hx hy ih =>
    obtain ⟨out', hput, h⟩ := Option.bind_eq_some_iff.mp h
    exact ih out' h (putDecoded_clean hput hout)
  | case3 => cases h
  | case4 => cases h
  | case5 out ch rest hch ih =>
    obtain ⟨out', hput, h⟩ := Option.bind_eq_some_iff.mp h
    exact ih out' h (putDecoded_clean hput hout)

theorem percentDecode_clean {s d : Bytes} {outCap : Nat} (h : percentDecode s outCap = some d) :
    ∀ c ∈ d, CleanByte c := by
  unfold percentDecode at h
  split at h
  · cases h
  · exact percentDecodeLoop_clean h fun c hc => absurd hc List.not_mem_nil

/-! ### Normalizing -/

/-- The stack of lengths that belongs to a list of names. -/
inductive Stacked : List Bytes → List Nat → Prop
  | nil : Stacked [] []
  | push {ns : List Bytes} {stack : List Nat} (n : Bytes) : Stacked ns stack →
      Stacked (ns ++ [n]) ((join SLASH (ns ++ [n])).length :: stack)

/-- The buffer and the stack of `normalize_abs_path` show the names `ns`. -/
structure NormOk (outCap : Nat) (s : NormState) (ns : List Bytes) : Prop where
  out : s.out = if ns = [] then [SLASH] else join SLASH ns
  stack : Stacked ns s.stack
  names : ∀ n ∈ ns, n ≠ []
  fits : s.out.length < outCap

theorem length_join_pos {ns : List Bytes} (hne : ns ≠ []) (hns : ∀ n ∈ ns, n ≠ []) :
    1 < (join SLASH ns).length := by
  cases ns with
  | nil => exact absurd rfl hne
  | cons n ns =>
    have hn := List.length_pos_iff.mpr (hns n List.mem_cons_self)
    rw [join_cons, List.length_cons, List.length_append]
    omega

theorem NormOk.length_gt_one {outCap : Nat} {s : NormState} {ns : List Bytes}
    (h : NormOk outCap s ns) : s.out.length > 1 ↔ ns ≠ [] := by
  rw [h.out]
  by_cases hne : ns = []
  · simp [hne]
  · rw [if_neg hne]
    exact ⟨fun _ => hne, fun _ => length_join_pos hne h.names⟩

/-- One segment of the loop is one step of the walk. -/
theorem normSegment_enter {outCap : Nat} {s s' : NormState} {ns : List Bytes} {seg : Bytes}
    (h : NormOk outCap s ns) (hseg : seg ≠ []) (hs : normSegment outCap s seg = some s') :
    ∃ ns', enter segKind ns seg = some ns' ∧ NormOk outCap s' ns' := by
  unfold normSegment at hs
  split at hs
  · next hdot =>
    obtain rfl := Option.some.inj hs
    exact ⟨ns, by simp [enter, segKind, hdot], h⟩
  · next hdot =>
    split at hs
    · next hup =>
      have hk : segKind seg = .up := by
        rw [segKind, if_neg hdot, if_pos hup]
      have hstack := h.stack
      rcases hst : s.stack with _ | ⟨k, stack⟩
      · rw [hst] at hs
        cases hs
      · rw [hst] at hs hstack
        obtain rfl := Option.some.inj hs
        -- The last name was pushed on what the shorter stack shows.
        generalize hms : ns = ms at hstack
        cases hstack with
        | @push ns' _ n hst' =>
          subst hms
          refine ⟨ns', by simp [enter, hk], ?_, hst', fun m hm => h.names m (by simp [hm]), ?_⟩
          · have hout := h.out
            rw [if_neg (by simp)] at hout
            rw [hout]
            cases hst' with
            | nil => rfl
            | @push ms st' m hst'' =>
              rw [if_neg (by simp), join_append SLASH (ms ++ [m])]
              exact List.take_left
          · dsimp only
            rw [List.length_take]
            exact Nat.lt_of_le_of_lt (Nat.min_le_right _ _) h.fits
    · next hup =>
      have hk : segKind seg = .down := by
        rw [segKind, if_neg hdot, if_neg hup]
      split at hs
      · cases hs
      · have hout : (if s.out.length > 1 then s.out ++ [SLASH] else s.out) ++ seg =
            join SLASH (ns ++ [seg]) := by
          by_cases hne : ns = []
          · have hone : ¬ s.out.length > 1 := fun hx => h.length_gt_one.mp hx hne
            rw [if_neg hone, h.out, if_pos hne, hne]
            simp
          · rw [if_pos (h.length_gt_one.mpr hne), h.out, if_neg hne]
            simp
        dsimp only at hs
        generalize (if s.out.length > 1 then s.out ++ [SLASH] else s.out) = out at hs hout
        split at hs
        · cases hs
        · next hcap =>
          split at hs
          · cases hs
          · obtain rfl := Option.some.inj hs
            refine ⟨ns ++ [seg], by simp [enter, hk], ?_, ?_, ?_, ?_⟩
            · rw [if_neg (by simp)]
              exact hout
            · dsimp only
              rw [hout]
              exact Stacked.push seg h.stack
            · intro n hn
              cases List.mem_append.mp hn with
              | inl hn => exact h.names n hn
              | inr hn => exact List.mem_singleton.mp hn ▸ hseg
            · dsimp only
              rw [List.length_append]
              omega

theorem normLoop_resolve {outCap : Nat} {segs : List Bytes} {s s' : NormState} {ns : List Bytes}
    (h : NormOk outCap s ns) (hsegs : ∀ seg ∈ segs, seg ≠ [])
    (hs : segs.foldlM (normSegment outCap) s = some s') :
    ∃ ns', resolve segKind ns segs = some ns' ∧ NormOk outCap s' ns' := by
  induction segs generalizing s ns with
  | nil =>
    obtain rfl := Option.some.inj hs
    exact ⟨ns, rfl, h⟩
  | cons seg segs ih =>
    rw [List.foldlM_cons] at hs
    obtain ⟨s1, hs1, hs⟩ := Option.bind_eq_some_iff.mp hs
    obtain ⟨ns1, hns1, hok1⟩ := normSegment_enter h (hsegs seg List.mem_cons_self) hs1
    obtain ⟨ns', hns', hok'⟩ := ih hok1 (fun x hx => hsegs x (List.mem_cons_of_mem _ hx)) hs
    refine ⟨ns', ?_, hok'⟩
    unfold resolve at hns' ⊢
    rw [List.foldlM_cons, hns1]
    exact hns'

/-- The last byte of a joined path belongs to its last component. -/
theorem getLast?_join {ns : List Bytes} {n : Bytes} (hn : n ≠ []) :
    (join SLASH (ns ++ [n])).getLast? = n.getLast? := by
  rw [join_append, join_cons, join_nil, List.append_nil, List.getLast?_append]
  cases n with
  | nil => exact absurd rfl hn
  | cons c n =>
    rw [List.getLast?_cons_cons, List.getLast?_cons]
    rfl

end PathSafetyLemmas

open PathSafetyLemmas

/-- `normalize_abs_path` walks over the segments of the path. What it writes are the names
on the way, with a slash at the end where the path has one. -/
theorem normalizeAbsPath_spec {path norm : Bytes} {outCap : Nat}
    (h : normalizeAbsPath path outCap = some norm) :
    path.head? = some SLASH ∧ norm.length < outCap ∧
      ∃ ns, resolve segKind [] (segments SLASH path.tail) = some ns ∧
        norm = join SLASH (normParts ns (path.getLast? = some SLASH)) := by
  unfold normalizeAbsPath at h
  split at h
  · cases h
  · next hcap =>
    split at h
    · cases h
    · next hhead =>
      refine ⟨by simpa using hhead, ?_⟩
      split at h
      · cases h
      · next s hs =>
        have h0 : NormOk outCap ⟨[SLASH], []⟩ [] :=
          ⟨rfl, Stacked.nil, fun n hn => absurd hn List.not_mem_nil, by simp; omega⟩
        obtain ⟨ns, hns, hok⟩ := normLoop_resolve h0 (fun seg hseg => (mem_segments hseg).1) hs
        have hnames : ∀ n ∈ ns, SLASH ∉ n := mem_resolve hns
          (fun n hn => absurd hn List.not_mem_nil) fun seg hseg _ => (mem_segments hseg).2.1
        by_cases hne : ns = []
        · have hone : ¬ s.out.length > 1 := fun hx => hok.length_gt_one.mp hx hne
          rw [if_neg fun hx => hone hx.2.1] at h
          obtain rfl := Option.some.inj h
          refine ⟨hok.fits, ns, hns, ?_⟩
          rw [hok.out, if_pos hne, normParts, if_pos hne]
          rfl
        · have hlen := hok.length_gt_one.mpr hne
          have hout := hok.out
          rw [if_neg hne] at hout
          -- The last name holds no slash, so the buffer does not end in one.
          have hlast : s.out.getLast? ≠ some SLASH := by
            have hsplit := List.dropLast_append_getLast hne
            have hmem := List.getLast_mem hne
            rw [hout, ← hsplit, getLast?_join (hok.names _ hmem)]
            exact fun hx => hnames _ hmem (List.mem_of_getLast? hx)
          by_cases htr : path.getLast? = some SLASH
          · rw [if_pos ⟨htr, hlen, hlast⟩] at h
            split at h
            · cases h
            · next hroom =>
              obtain rfl := Option.some.inj h
              refine ⟨by simp; omega, ns, hns, ?_⟩
              simp [normParts, hne, htr, hout]
          · rw [if_neg fun hx => htr hx.1] at h
            obtain rfl := Option.some.inj h
            refine ⟨hok.fits, ns, hns, ?_⟩
            simp [normParts, hne, htr, hout]

namespace PathSafetyLemmas

/-! ### Components -/

/-- Components of a safe path. -/
structure Parts (ps : List Bytes) : Prop where
  nonempty : ps ≠ []
  noSlash : ∀ p ∈ ps, SLASH ∉ p
  inner : ∀ p ∈ ps.dropLast, p ≠ []
  noDots : ∀ p ∈ ps, p ≠ ascii "." ∧ p ≠ ascii ".."
  clean : ∀ p ∈ ps, ∀ c ∈ p, CleanByte c

theorem Parts.safePath {ps : List Bytes} (h : Parts ps) : SafePath (join SLASH ps) := by
  cases ps with
  | nil => exact absurd rfl h.nonempty
  | cons p ps =>
    have hsplit : split SLASH (join SLASH (p :: ps)).tail = p :: ps :=
      split_join (h.noSlash p List.mem_cons_self)
        fun q hq => h.noSlash q (List.mem_cons_of_mem _ hq)
    refine ⟨rfl, ?_, ?_, ?_⟩
    · rw [hsplit]
      exact h.inner
    · rw [hsplit]
      exact h.noDots
    · intro c hc
      obtain ⟨q, hq, hc⟩ := List.mem_flatMap.mp hc
      cases List.mem_cons.mp hc with
      | inl hslash => exact hslash ▸ (by decide : SLASH ≠ 0 ∧ SLASH ≠ '\\'.toUInt8 ∧ SLASH ≠ CR ∧
          SLASH ≠ LF)
      | inr hc => exact h.clean q hq c hc

/-- A name: what a component of a normalized path is when it is not the empty one. -/
structure Name (n : Bytes) : Prop where
  nonempty : n ≠ []
  noSlash : SLASH ∉ n
  noDots : n ≠ ascii "." ∧ n ≠ ascii ".."
  clean : ∀ c ∈ n, CleanByte c

/-- Names with one more component, which may be empty. -/
theorem parts_snoc {ns : List Bytes} (hns : ∀ n ∈ ns, Name n) {p : Bytes} (hp : p = [] ∨ Name p) :
    Parts (ns ++ [p]) := by
  have hslash : SLASH ∉ p := by
    cases hp with
    | inl hp => exact hp ▸ List.not_mem_nil
    | inr hp => exact hp.noSlash
  have hdots : p ≠ ascii "." ∧ p ≠ ascii ".." := by
    cases hp with
    | inl hp => exact hp ▸ (by decide : ([] : Bytes) ≠ ascii "." ∧ ([] : Bytes) ≠ ascii "..")
    | inr hp => exact hp.noDots
  have hclean : ∀ c ∈ p, CleanByte c := by
    cases hp with
    | inl hp => exact hp ▸ fun c hc => absurd hc List.not_mem_nil
    | inr hp => exact hp.clean
  have hall : ∀ {P : Bytes → Prop}, (∀ n ∈ ns, P n) → P p → ∀ q ∈ ns ++ [p], P q := by
    intro P h1 h2 q hq
    cases List.mem_append.mp hq with
    | inl hq => exact h1 q hq
    | inr hq => exact List.mem_singleton.mp hq ▸ h2
  refine ⟨by simp, hall (fun n hn => (hns n hn).noSlash) hslash, ?_,
    hall (fun n hn => (hns n hn).noDots) hdots, hall (fun n hn => (hns n hn).clean) hclean⟩
  rw [List.dropLast_concat]
  exact fun n hn => (hns n hn).nonempty

theorem parts_of_names {ns : List Bytes} (hns : ∀ n ∈ ns, Name n) (hne : ns ≠ []) : Parts ns := by
  have hsplit := List.dropLast_append_getLast hne
  rw [← hsplit]
  exact parts_snoc (fun n hn => hns n (List.dropLast_subset _ hn))
    (Or.inr (hns _ (List.getLast_mem hne)))

/-- The names of a decoded path. -/
theorem names_of_decoded {s decoded : Bytes} {outCap : Nat} {ns : List Bytes}
    (hd : percentDecode s outCap = some decoded)
    (hns : resolve segKind [] (segments SLASH decoded.tail) = some ns) : ∀ n ∈ ns, Name n := by
  refine mem_resolve hns (fun n hn => absurd hn List.not_mem_nil) fun seg hseg hk => ?_
  obtain ⟨hne, hslash, hmem⟩ := mem_segments hseg
  refine ⟨hne, hslash, ?_, fun c hc => percentDecode_clean hd c (List.mem_of_mem_tail (hmem c hc))⟩
  unfold segKind at hk
  split at hk
  · cases hk
  · next hdot =>
    split at hk
    · cases hk
    · next hup => exact ⟨hdot, hup⟩

theorem name_index : Name (ascii "index.html") := by
  refine ⟨by decide, by decide, by decide, ?_⟩
  unfold CleanByte
  decide +kernel

theorem snprintf_of_lt {cap : Nat} {text : Bytes} (h : text.length < cap) :
    snprintf cap text = text := List.take_of_length_le (by omega)

/-- A joined list of names does not end in a slash. -/
theorem getLast?_join_names {ns : List Bytes} (hns : ∀ n ∈ ns, Name n) (hne : ns ≠ []) :
    (join SLASH ns).getLast? ≠ some SLASH := by
  have hsplit := List.dropLast_append_getLast hne
  have hlast := hns _ (List.getLast_mem hne)
  rw [← hsplit, getLast?_join hlast.nonempty]
  exact fun hx => hlast.noSlash (List.mem_of_getLast? hx)

/-- The last step of `pathFinal`. -/
theorem index_names {ns : List Bytes} (hns : ∀ n ∈ ns, Name n) {p path : Bytes}
    (hp : p = join SLASH ns ++ [SLASH] ∨ ns ≠ [] ∧ p = join SLASH ns)
    (h : (if p.length = 0 then none
      else if p.getLast? = some SLASH then
        if p.length + 10 + 1 ≥ SHORTLINE then none else some (p ++ ascii "index.html")
      else some p) = some path) :
    ∃ ms, (∀ m ∈ ms, Name m) ∧ ms ≠ [] ∧ path = join SLASH ms := by
  split at h
  · cases h
  · cases hp with
    | inl hp =>
      rw [if_pos (by rw [hp]; simp)] at h
      split at h
      · cases h
      · obtain rfl := Option.some.inj h
        refine ⟨ns ++ [ascii "index.html"], fun m hm => ?_, by simp, by simp [hp]⟩
        cases List.mem_append.mp hm with
        | inl hm => exact hns m hm
        | inr hm => exact List.mem_singleton.mp hm ▸ name_index
    | inr hp =>
      obtain ⟨hne, rfl⟩ := hp
      rw [if_neg (getLast?_join_names hns hne)] at h
      obtain rfl := Option.some.inj h
      exact ⟨ns, hns, hne, rfl⟩

/-- Where a directory or a name without an extension gets `index.html`, the result is
again a list of names. -/
theorem pathFinal_names {ns : List Bytes} {trailing : Bool} {path : Bytes}
    (hns : ∀ n ∈ ns, Name n) (hlen : (join SLASH (normParts ns trailing)).length < SHORTLINE)
    (h : pathFinal (join SLASH (normParts ns trailing)) = some path) :
    ∃ ms, (∀ m ∈ ms, Name m) ∧ ms ≠ [] ∧ path = join SLASH ms := by
  -- Either the path ends in a slash, or it is a list of names.
  have hparts : join SLASH (normParts ns trailing) = join SLASH ns ++ [SLASH] ∨
      ns ≠ [] ∧ join SLASH (normParts ns trailing) = join SLASH ns := by
    unfold normParts
    split
    · next hnil => exact Or.inl (by simp [hnil])
    · next hne =>
      split
      · exact Or.inl (by simp)
      · exact Or.inr ⟨hne, rfl⟩
  generalize join SLASH (normParts ns trailing) = norm at hlen hparts h
  unfold pathFinal at h
  split at h
  · cases h
  · dsimp only at h
    rw [snprintf_of_lt hlen] at h
    refine index_names hns ?_ h
    split
    · next hext =>
      cases hparts with
      | inl hdir => exact absurd (by rw [hdir]; simp) hext.1
      | inr hfile =>
        obtain ⟨hne, rfl⟩ := hfile
        -- A slash that does not fit is cut off again.
        by_cases hroom : (join SLASH ns ++ [SLASH]).length < SHORTLINE
        · exact Or.inl (snprintf_of_lt hroom)
        · refine Or.inr ⟨hne, ?_⟩
          rw [List.length_append, List.length_singleton] at hroom
          have hfull : SHORTLINE - 1 = (join SLASH ns).length := by omega
          rw [snprintf, hfull, List.take_left]
    · exact hparts

/-- The comparison with `/cgi-bin/` is a prefix test. -/
theorem cgiBin_iff {s : Bytes} :
    strncmpEq s (ascii "/cgi-bin/") 9 = true ↔ ascii "/cgi-bin/" <+: s := by
  have hlit : (ascii "/cgi-bin/").length = 9 := by decide
  have hiff := @strncmpEq_length_iff s (ascii "/cgi-bin/") (by decide)
  rwa [hlit] at hiff

end PathSafetyLemmas

/-! ## Containment -/

/-- What the file name of a static request is. -/
theorem parseUri_safe {root uri file : Bytes} {cap : Nat}
    (h : parseUri (some root) uri cap = some file) :
    ∃ path, SafePath path ∧
      file = cstr root ++ if (cstr root).getLast? = some SLASH then path.drop 1 else path := by
  unfold parseUri at h
  dsimp only at h
  split_ifs at h
  split at h
  · cases h
  · next decoded hd =>
    split at h
    · cases h
    · split at h
      · cases h
      · next path hpath =>
        obtain ⟨norm, hnorm, hfin⟩ := Option.bind_eq_some_iff.mp hpath
        obtain ⟨_, hlen, ns, hns, rfl⟩ := normalizeAbsPath_spec hnorm
        obtain ⟨ms, hms, hne, rfl⟩ := pathFinal_names (names_of_decoded hd hns) hlen hfin
        have hsafe := (parts_of_names hms hne).safePath
        refine ⟨_, hsafe, ?_⟩
        simp only [hsafe.absolute, and_true] at h
        generalize (if (cstr root).getLast? = some SLASH then (join SLASH ms).drop 1
          else join SLASH ms) = part at h ⊢
        split at h
        · cases h
        · exact (Option.some.inj h).symm

/-- What the file name of a CGI request is. -/
theorem cgiFilename_safe {root uri file : Bytes} {cap : Nat}
    (h : cgiFilename (some root) uri cap = .ok file) :
    ∃ path, SafePath path ∧ ascii "/cgi-bin/" <+: path ∧ file = cstr root ++ path := by
  unfold cgiFilename at h
  split at h
  · cases h
  · split at h
    · cases h
    · next decoded hd =>
      split at h
      · cases h
      · next norm hnorm =>
        split at h
        · cases h
        · next hcgi =>
          split at h
          · cases h
          · obtain rfl := Except.ok.inj h
            obtain ⟨_, _, ns, hns, rfl⟩ := normalizeAbsPath_spec hnorm
            have hnames := names_of_decoded hd hns
            have hparts : Parts (normParts ns (decoded.getLast? = some SLASH)) := by
              unfold normParts
              split
              · exact parts_snoc (fun n hn => absurd hn List.not_mem_nil) (Or.inl rfl)
              · next hne =>
                split
                · exact parts_snoc hnames (Or.inl rfl)
                · exact parts_of_names hnames hne
            refine ⟨_, hparts.safePath, ?_, rfl⟩
            exact cgiBin_iff.mp (by simpa using hcgi)

/-! ## Which paths lie under `/cgi-bin/` -/

/-- A path with every escape replaced by the byte it stands for. -/
def unescape : Bytes → Bytes
  | [] => []
  | ch :: rest =>
    if ch = '%'.toUInt8 then
      match rest with
      | h :: l :: rest =>
        UInt8.ofNat (((Chunked.digitVal h).getD 0) * 16 + (Chunked.digitVal l).getD 0) ::
          unescape rest
      | _ => []
    else ch :: unescape rest

/-- A path that enters `cgi-bin` from the top, does not leave it again, and has something
or a slash behind it. -/
def EntersCgiBin (path : Bytes) : Prop :=
  ∃ pre post k, segments SLASH path = pre ++ ascii "cgi-bin" :: post ∧
    walk segKind 0 pre = some 0 ∧ walk segKind 0 post = some k ∧
    (0 < k ∨ path.getLast? = some SLASH)

namespace PathSafetyLemmas

theorem hexVal_eq (c : UInt8) : hexVal c = Chunked.digitVal c := by
  have hall : ∀ n : Fin 256, hexVal (UInt8.ofNat n) = Chunked.digitVal (UInt8.ofNat n) := by
    decide +kernel
  have hc := hall ⟨c.toNat, c.toNat_lt⟩
  simpa using hc

theorem percentDecodeLoop_unescape {outCap : Nat} {out s d : Bytes}
    (h : percentDecodeLoop outCap out s = some d) : d = out ++ unescape s := by
  have hput : ∀ {out out' : Bytes} {ch : UInt8}, putDecoded outCap out ch = some out' →
      out' = out ++ [ch] := by
    intro out out' ch h
    unfold putDecoded at h
    split at h
    · cases h
    · split at h
      · cases h
      · exact (Option.some.inj h).symm
  fun_induction percentDecodeLoop outCap out s with
  | case1 out => simpa [unescape] using h.symm
  | case2 out hi lo rest x y hx hy ih =>
    obtain ⟨out', ho, h⟩ := Option.bind_eq_some_iff.mp h
    rw [hexVal_eq] at hx hy
    rw [ih out' h, hput ho, unescape]
    simp [hx, hy]
  | case3 => cases h
  | case4 => cases h
  | case5 out ch rest hch ih =>
    obtain ⟨out', ho, h⟩ := Option.bind_eq_some_iff.mp h
    have hun : unescape (ch :: rest) = ch :: unescape rest := by
      rw [unescape.eq_def]
      exact if_neg hch
    rw [ih out' h, hput ho, hun]
    simp

theorem percentDecode_unescape {s d : Bytes} {outCap : Nat}
    (h : percentDecode s outCap = some d) : d = unescape s := by
  unfold percentDecode at h
  split at h
  · cases h
  · exact percentDecodeLoop_unescape h

/-- A normalized path under `/cgi-bin/`, by its names. -/
theorem cgiBin_join_iff {ns : List Bytes} (hns : ∀ n ∈ ns, Name n) (trailing : Bool) :
    ascii "/cgi-bin/" <+: join SLASH (normParts ns trailing) ↔
      ∃ rest, ns = ascii "cgi-bin" :: rest ∧ (0 < rest.length ∨ trailing = true) := by
  have hlit : ascii "/cgi-bin/" = SLASH :: (ascii "cgi-bin" ++ [SLASH]) := by decide
  cases ns with
  | nil =>
    constructor
    · intro hp
      exact absurd hp.length_le (by cases trailing <;> decide)
    · rintro ⟨rest, hrest, _⟩
      cases hrest
  | cons n rest =>
    obtain ⟨rest', hparts, hrest'⟩ : ∃ rest', normParts (n :: rest) trailing = n :: rest' ∧
        (rest' ≠ [] ↔ 0 < rest.length ∨ trailing = true) := by
      cases trailing with
      | true => exact ⟨rest ++ [[]], rfl, by simp⟩
      | false => exact ⟨rest, rfl, by simp [List.length_pos_iff]⟩
    have htail : join SLASH rest' = [] ∨ ∃ t, join SLASH rest' = SLASH :: t := by
      cases rest' with
      | nil => exact Or.inl rfl
      | cons p ps => exact Or.inr ⟨_, join_cons SLASH p ps⟩
    have hne : join SLASH rest' ≠ [] ↔ rest' ≠ [] := by
      cases rest' <;> simp
    rw [hparts, join_cons, hlit, List.cons_prefix_cons,
      part_before_sep_iff (by decide) (hns n List.mem_cons_self).noSlash htail, hne, hrest']
    constructor
    · rintro ⟨-, rfl, hr⟩
      exact ⟨rest, rfl, hr⟩
    · rintro ⟨rest'', heq, hr⟩
      obtain ⟨rfl, rfl⟩ := List.cons.inj heq
      exact ⟨rfl, rfl, hr⟩

/-- The decoded and normalized path lies under `/cgi-bin/` exactly when the decoded path
enters it and stays there. -/
theorem uriNorm_cgiBin_iff {uri norm : Bytes} (h : uriNorm uri = some norm) :
    ascii "/cgi-bin/" <+: norm ↔ EntersCgiBin (unescape (uriPath uri)) := by
  obtain ⟨decoded, hd, hnorm⟩ := Option.bind_eq_some_iff.mp h
  obtain ⟨hhead, _, ns, hns, rfl⟩ := normalizeAbsPath_spec hnorm
  rw [cgiBin_join_iff (names_of_decoded hd hns), ← percentDecode_unescape hd]
  -- The leading slash adds no segment.
  have hsegs : segments SLASH decoded = segments SLASH decoded.tail := by
    cases decoded with
    | nil => rfl
    | cons c cs =>
      obtain rfl := Option.some.inj hhead
      exact segments_sep SLASH cs
  have hdown : segKind (ascii "cgi-bin") = .down := by decide
  unfold EntersCgiBin
  rw [hsegs]
  constructor
  · rintro ⟨rest, hcgi, htr⟩
    obtain ⟨pre, post, hss, _, hpre, hpost⟩ :=
      (resolve_cons_iff hns (ascii "cgi-bin") rest.length).mp ⟨rest, hcgi, rfl⟩
    exact ⟨pre, post, rest.length, hss, hpre, hpost, by simpa using htr⟩
  · rintro ⟨pre, post, k, hss, hpre, hpost, htr⟩
    obtain ⟨rest, hcgi, hk⟩ :=
      (resolve_cons_iff hns (ascii "cgi-bin") k).mpr ⟨pre, post, hss, hdown, hpre, hpost⟩
    exact ⟨rest, hcgi, by simpa [hk] using htr⟩

end PathSafetyLemmas

end Zaver
