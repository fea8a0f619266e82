import Zaver.PathNormal
import Zaver.PercentDecode

/-!
# The file of a URI, and the check against the docroot

For URIs that `parse_uri` does not refuse for their length, no buffer on the way from the URI
to the file name is ever full, so the stages compose to one equation (`parseUri_eq`).

The check that follows compares the bytes of two canonical paths and looks at one more byte.
That is component containment, except when the docroot is `/`: its only byte is already the
separator, and the byte behind it is then the first of a name (`docroot_check_iff`).
-/

namespace Zaver

open CString DotSegments

/-! ## Names -/

/-- What stands behind the last slash. -/
def lastComponent (s : Bytes) : Bytes := s.rtakeWhile (· != SLASH)

/-- The file that a normalized path names. -/
def indexName (norm : Bytes) : Bytes :=
  if norm.getLast? = some SLASH then norm ++ ascii "index.html"
  else if '.'.toUInt8 ∉ lastComponent norm then norm ++ ascii "/index.html"
  else norm

/-- A path under a root, with one slash between them. -/
def joinRoot (root path : Bytes) : Bytes :=
  root ++ if root.getLast? = some SLASH then path.drop 1 else path

/-- A decoded path without its dot segments and doubled slashes, none if it leads above the
root. -/
def normalPath (decoded : Bytes) : Option Bytes :=
  (resolve segKind [] (segments SLASH decoded.tail)).map fun ns =>
    join SLASH (normParts ns (decoded.getLast? = some SLASH))

namespace UriFileLemmas

open PathSafetyLemmas PathNormalLemmas PercentDecodeLemmas

/-! ### Components -/

theorem lastComponent_slash (a b : Bytes) :
    lastComponent (a ++ SLASH :: b) = lastComponent b := by
  unfold lastComponent List.rtakeWhile
  rw [List.reverse_append, List.reverse_cons, List.append_assoc, List.takeWhile_append]
  split
  · next hall =>
    have hb : b.reverse.takeWhile (· != SLASH) = b.reverse :=
      (List.takeWhile_sublist _).eq_of_length hall
    rw [List.singleton_append, List.takeWhile_cons, if_neg (by simp), List.append_nil, hb]
  · rfl

/-- Joining keeps the last component. -/
theorem lastComponent_joinRoot (root : Bytes) {path : Bytes} (h : path.head? = some SLASH) :
    lastComponent (joinRoot root path) = lastComponent path := by
  cases path with
  | nil => cases h
  | cons c path =>
    obtain rfl := Option.some.inj h
    have hself : lastComponent (SLASH :: path) = lastComponent path := lastComponent_slash [] path
    unfold joinRoot
    split
    · next hlast =>
      obtain ⟨r, rfl⟩ := List.getLast?_eq_some_iff.mp hlast
      rw [List.drop_one, List.tail_cons, List.append_assoc, List.singleton_append,
        lastComponent_slash, hself]
    · rw [lastComponent_slash, hself]

theorem indexName_head {norm : Bytes} (h : norm.head? = some SLASH) :
    (indexName norm).head? = some SLASH := by
  have happend : ∀ t, (norm ++ t).head? = some SLASH := fun t => by rw [List.head?_append, h]; rfl
  unfold indexName
  split
  · exact happend _
  · split
    · exact happend _
    · exact h

theorem dot_indexName (norm : Bytes) : '.'.toUInt8 ∈ lastComponent (indexName norm) := by
  have hindex : '.'.toUInt8 ∈ lastComponent (ascii "index.html") := by decide
  have hlit : ascii "/index.html" = SLASH :: ascii "index.html" := by decide
  unfold indexName
  split
  · next hlast =>
    obtain ⟨t, rfl⟩ := List.getLast?_eq_some_iff.mp hlast
    rw [List.append_assoc, List.singleton_append, lastComponent_slash]
    exact hindex
  · split
    · rw [hlit, lastComponent_slash]
      exact hindex
    · next hdot => exact Decidable.not_not.mp hdot

/-! ### Lengths -/

theorem length_unescape_le (s : Bytes) : (unescape s).length ≤ s.length := by
  fun_induction unescape s with
  | case1 => exact Nat.le_refl _
  | case2 h l rest ih =>
    simp only [List.length_cons]
    omega
  | case3 rest => exact Nat.zero_le _
  | case4 ch rest hch ih =>
    rw [List.length_cons, List.length_cons]
    exact Nat.succ_le_succ ih

/-- What the normalized path of a short path is, and that it is no longer. -/
theorem normalPath_some {decoded norm : Bytes} (hhead : decoded.head? = some SLASH)
    (hlen : decoded.length ≤ 256) (h : normalPath decoded = some norm) :
    norm.length ≤ decoded.length ∧ norm.head? = some SLASH := by
  have heq := @normalize_eq decoded (decoded.length + 1) hhead (Nat.lt_succ_self _) (by omega)
  obtain ⟨-, hlt, ns, -, rfl⟩ := normalizeAbsPath_spec (heq.trans h)
  refine ⟨Nat.le_of_lt_succ hlt, ?_⟩
  generalize decide (decoded.getLast? = some SLASH) = trailing
  cases ns with
  | nil => rfl
  | cons n ns =>
    cases trailing with
    | false => rfl
    | true => rfl

theorem length_indexName_le (norm : Bytes) : (indexName norm).length ≤ norm.length + 11 := by
  unfold indexName
  split
  · rw [List.length_append]
    exact Nat.add_le_add_left (by decide) _
  · split
    · rw [List.length_append]
      exact Nat.le_of_eq rfl
    · exact Nat.le_add_right _ _

/-- No buffer is full on the way from a short path to the file it names. -/
theorem pathFinal_eq {norm : Bytes} (hhead : norm.head? = some SLASH) (hlen : norm.length ≤ 256) :
    pathFinal norm = some (indexName norm) := by
  have hne : norm.length ≠ 0 := by
    cases norm with
    | nil => cases hhead
    | cons c norm => exact Nat.succ_ne_zero _
  have hshort : SHORTLINE = 512 := rfl
  have hcut : snprintf SHORTLINE norm = norm := snprintf_of_lt (by omega)
  have hcut' : snprintf SHORTLINE (norm ++ [SLASH]) = norm ++ [SLASH] :=
    snprintf_of_lt (by rw [List.length_append, List.length_singleton]; omega)
  have hlit : ascii "/index.html" = [SLASH] ++ ascii "index.html" := by decide
  unfold pathFinal indexName
  rw [if_neg hne]
  dsimp only
  by_cases hdir : norm.getLast? = some SLASH
  · have hext : ¬ (¬ norm.getLast? = some SLASH ∧
        '.'.toUInt8 ∉ norm.rtakeWhile (· != SLASH)) := fun hx => hx.1 hdir
    rw [if_neg hext, hcut, if_neg hne, if_pos hdir, if_pos hdir, if_neg (by omega)]
  · rw [if_neg hdir]
    by_cases hdot : '.'.toUInt8 ∉ lastComponent norm
    · have hext : ¬ norm.getLast? = some SLASH ∧
          '.'.toUInt8 ∉ norm.rtakeWhile (· != SLASH) := ⟨hdir, hdot⟩
      have hlen' : (norm ++ [SLASH]).length = norm.length + 1 := List.length_append
      rw [if_pos hext, if_pos hdot, hcut', hlen', if_neg (Nat.succ_ne_zero _),
        if_pos List.getLast?_concat, if_neg (by omega), hlit, List.append_assoc]
    · have hext : ¬ (¬ norm.getLast? = some SLASH ∧
          '.'.toUInt8 ∉ norm.rtakeWhile (· != SLASH)) := fun hx => hdot hx.2
      rw [if_neg hext, if_neg hdot, hcut, if_neg hne, if_neg hdir]

theorem uriPath_head {uri : Bytes} (h : uri.head? = some SLASH) :
    ∃ rest, uriPath uri = SLASH :: rest ∧ (uriPath uri).length ≤ uri.length := by
  cases uri with
  | nil => cases h
  | cons c uri =>
    obtain rfl := Option.some.inj h
    refine ⟨uri.takeWhile (· != '?'.toUInt8), ?_, (List.takeWhile_sublist _).length_le⟩
    unfold uriPath
    rw [List.takeWhile_cons, if_pos (by decide)]

end UriFileLemmas

open UriFileLemmas PathSafetyLemmas PathNormalLemmas PercentDecodeLemmas

/-- The stages of `parse_uri` for a URI that is not too long. -/
theorem parseUri_eq {root uri : Bytes} {cap : Nat} (hhead : uri.head? = some SLASH)
    (hlen : uri.length ≤ 256) :
    parseUri (some root) uri cap =
      (percentDecode (uriPath uri) SHORTLINE).bind fun decoded => (normalPath decoded).bind fun norm =>
        if cap ≤ (joinRoot (cstr root) (indexName norm)).length then none
        else some (joinRoot (cstr root) (indexName norm)) := by
  obtain ⟨rest, hpath, hle⟩ := uriPath_head hhead
  have hne : uri.length ≠ 0 := by
    cases uri with
    | nil => cases hhead
    | cons c uri => exact Nat.succ_ne_zero _
  have hne' : (uriPath uri).length ≠ 0 := by
    rw [hpath]
    exact Nat.succ_ne_zero _
  unfold parseUri
  dsimp only
  by_cases hcap : cap = 0
  · rw [if_pos hcap]
    cases percentDecode (uriPath uri) SHORTLINE with
    | none => rfl
    | some decoded =>
      cases hnorm : normalPath decoded with
      | none => simp [hnorm]
      | some norm => simp [hcap]
  · rw [if_neg hcap, if_neg hne, if_neg (show ¬ uri.length > SHORTLINE / 2 from Nat.not_lt.mpr hlen),
      if_neg hne']
    cases hdec : percentDecode (uriPath uri) SHORTLINE with
    | none => rfl
    | some decoded =>
      obtain ⟨-, -, -, rfl⟩ := (percentDecode_iff (by decide)).mp hdec
      have hdlen : (unescape (uriPath uri)).length ≤ 256 :=
        (length_unescape_le _).trans (hle.trans hlen)
      have hdhead : (unescape (uriPath uri)).head? = some SLASH := by
        rw [hpath, unescape_plain (by decide)]
        rfl
      have hnormal : normalizeAbsPath (unescape (uriPath uri)) SHORTLINE =
          normalPath (unescape (uriPath uri)) :=
        normalize_eq hdhead (Nat.lt_of_le_of_lt hdlen (by decide)) (by decide)
      dsimp only
      rw [if_neg (fun hx => hx hdhead), hnormal, Option.bind_some]
      cases hnorm : normalPath (unescape (uriPath uri)) with
      | none => rfl
      | some norm =>
        obtain ⟨hnlen, hnhead⟩ := normalPath_some hdhead hdlen hnorm
        rw [Option.bind_some, Option.bind_some, pathFinal_eq hnhead (hnlen.trans hdlen)]
        dsimp only
        rw [indexName_head hnhead]
        simp only [and_true]
        rfl

/-- For every root and every URI of at most 256 bytes that begins with a slash: `parse_uri` fails
exactly when the path has a malformed escape, a decoded byte that is NUL, a backslash, CR or LF,
leads above the root, or gives a name that does not fit; else the name is the root joined with the
normalized path and its `index.html`. The last component has a dot, the query does not matter, and
no buffer on the way is cut. -/
theorem uri_to_file {root uri : Bytes} {cap : Nat} (hhead : uri.head? = some SLASH)
    (hlen : uri.length ≤ 256) :
    let decoded := unescape (uriPath uri)
    (parseUri (some root) uri cap = none ↔
      wellEscaped (uriPath uri) = false ∨ (∃ c ∈ decoded, ¬ CleanByte c) ∨ normalPath decoded = none ∨
        ∃ norm, normalPath decoded = some norm ∧
          cap ≤ (joinRoot (cstr root) (indexName norm)).length) ∧
    (∀ file, parseUri (some root) uri cap = some file → ∃ norm, normalPath decoded = some norm ∧
      file = joinRoot (cstr root) (indexName norm) ∧ '.'.toUInt8 ∈ lastComponent file) ∧
    (∀ uri', uri'.length ≤ 256 → uriPath uri' = uriPath uri →
      parseUri (some root) uri' cap = parseUri (some root) uri cap) ∧
    decoded.length < SHORTLINE ∧
    ∀ norm, normalPath decoded = some norm →
      snprintf SHORTLINE norm = norm ∧ snprintf SHORTLINE (norm ++ [SLASH]) = norm ++ [SLASH] ∧
        (indexName norm).length < SHORTLINE := by
  intro decoded
  obtain ⟨rest, hpath, hle⟩ := uriPath_head hhead
  have hdlen : decoded.length ≤ 256 := (length_unescape_le _).trans (hle.trans hlen)
  have hdhead : decoded.head? = some SLASH := by
    show (unescape (uriPath uri)).head? = _
    rw [hpath, unescape_plain (by decide)]
    rfl
  have hshort : SHORTLINE = 512 := rfl
  have hcap : (unescape (uriPath uri)).length < SHORTLINE := by
    show decoded.length < SHORTLINE
    omega
  refine ⟨?_, ?_, ?_, hcap, ?_⟩
  · rw [parseUri_eq hhead hlen]
    cases hdec : percentDecode (uriPath uri) SHORTLINE with
    | none =>
      refine ⟨fun _ => ?_, fun _ => rfl⟩
      -- The decoder fails for one of the first two reasons only.
      by_contra hno
      simp only [not_or, not_exists, not_and, not_not] at hno
      have hsome := (percentDecode_iff (by decide) (s := uriPath uri)).mpr
        ⟨Bool.eq_true_of_not_eq_false hno.1, hno.2.1, hcap, rfl⟩
      cases hdec.symm.trans hsome
    | some d =>
      obtain ⟨hwell, hclean, -, rfl⟩ := (percentDecode_iff (by decide)).mp hdec
      rw [Option.bind_some]
      cases hnorm : normalPath (unescape (uriPath uri)) with
      | none => exact ⟨fun _ => .inr (.inr (.inl rfl)), fun _ => rfl⟩
      | some norm =>
        rw [Option.bind_some, ite_eq_left_iff]
        constructor
        · intro hnone
          refine .inr (.inr (.inr ⟨norm, rfl, ?_⟩))
          by_contra hno
          cases hnone hno
        · rintro (hbad | ⟨c, hc, hbad⟩ | hbad | ⟨norm', hsome, hfull⟩) hroom
          · cases hwell.symm.trans hbad
          · exact absurd (hclean c hc) hbad
          · cases hbad
          · obtain rfl := Option.some.inj hsome
            exact absurd hfull hroom
  · intro file hfile
    rw [parseUri_eq hhead hlen] at hfile
    obtain ⟨d, hdec, hfile⟩ := Option.bind_eq_some_iff.mp hfile
    obtain ⟨-, -, -, rfl⟩ := (percentDecode_iff (by decide)).mp hdec
    obtain ⟨norm, hnorm, hfile⟩ := Option.bind_eq_some_iff.mp hfile
    split at hfile
    · cases hfile
    · obtain rfl := Option.some.inj hfile
      have hnhead := (normalPath_some hdhead hdlen hnorm).2
      refine ⟨norm, hnorm, rfl, ?_⟩
      rw [lastComponent_joinRoot _ (indexName_head hnhead)]
      exact dot_indexName norm
  · intro uri' hlen' heq
    have hhead' : uri'.head? = some SLASH := by
      cases uri' with
      | nil =>
        rw [hpath] at heq
        cases heq
      | cons c uri' =>
        unfold uriPath at heq hpath
        rw [hpath, List.takeWhile_cons] at heq
        split at heq
        · exact congrArg List.head? heq
        · cases heq
    rw [parseUri_eq hhead' hlen', parseUri_eq hhead hlen, heq]
  · intro norm hnorm
    have hnlen := (normalPath_some hdhead hdlen hnorm).1
    have hindex := length_indexName_le norm
    refine ⟨snprintf_of_lt (by omega), snprintf_of_lt ?_, by omega⟩
    rw [List.length_append, List.length_singleton]
    omega

theorem uri_to_file_docs :
    parseUri (some (ascii "/srv/")) (ascii "/a/../d%6fcs?x=1") 512 =
        some (ascii "/srv/docs/index.html") ∧
      parseUri (some (ascii "/srv/")) (ascii "/a/../d%6fcs") 512 =
        parseUri (some (ascii "/srv/")) (ascii "/a/../d%6fcs?x=1") 512 := by
  refine ⟨by decide +kernel, ?_⟩
  exact (@uri_to_file (ascii "/srv/") (ascii "/a/../d%6fcs?x=1") 512 (by decide)
    (by decide)).2.2.1 (ascii "/a/../d%6fcs") (by decide) (by decide)

/-! ## The check against the docroot -/

/-- A path as `realpath` gives it. -/
structure Canonical (p : Bytes) : Prop where
  absolute : p.head? = some SLASH
  components : p = [SLASH] ∨ ∀ n ∈ split SLASH p.tail, n ≠ [] ∧ n ≠ ascii "." ∧ n ≠ ascii ".."
  noNul : 0 ∉ p

namespace UriFileLemmas

/-- A canonical path by its components. -/
theorem canonical_cases {p : Bytes} (h : Canonical p) :
    (p = [SLASH] ∧ segments SLASH p = []) ∨
      ∃ n ns, p = join SLASH (n :: ns) ∧ segments SLASH p = n :: ns ∧ n ≠ [] ∧
        ∀ m ∈ n :: ns, SLASH ∉ m := by
  rcases h.components with rfl | hnames
  · exact .inl ⟨rfl, rfl⟩
  · have habs := h.absolute
    cases p with
    | nil => cases habs
    | cons c t =>
      obtain rfl := Option.some.inj habs
      rw [List.tail_cons] at hnames
      have hfilter : (split SLASH t).filter (· ≠ []) = split SLASH t := by
        rw [List.filter_eq_self]
        intro n hn
        simpa using (hnames n hn).1
      cases hs : split SLASH t with
      | nil => exact absurd hs (split_ne_nil SLASH t)
      | cons n ns =>
        refine .inr ⟨n, ns, ?_, ?_, ?_, ?_⟩
        · rw [← hs, join_split]
        · rw [segments_sep, segments, hfilter, hs]
        · exact (hnames n (by rw [hs]; exact List.mem_cons_self)).1
        · intro m hm
          exact (mem_split (hs ▸ hm)).1

theorem join_injective {ns ms : List Bytes} (hns : ∀ n ∈ ns, SLASH ∉ n) (hms : ∀ m ∈ ms, SLASH ∉ m)
    (h : join SLASH ns = join SLASH ms) : ns = ms := by
  cases ns with
  | nil =>
    cases ms with
    | nil => rfl
    | cons m ms => cases h
  | cons n ns =>
    cases ms with
    | nil => cases h
    | cons m ms =>
      rw [join_cons, join_cons] at h
      have hsplit := congrArg (split SLASH) (List.cons.inj h).2
      rw [split_join (hns n List.mem_cons_self) fun q hq => hns q (List.mem_cons_of_mem _ hq),
        split_join (hms m List.mem_cons_self) fun q hq => hms q (List.mem_cons_of_mem _ hq)] at hsplit
      exact hsplit

/-- A joined list in front of a separator or of the end is a list in front. -/
theorem join_front_iff {ns ms : List Bytes} (hns : ∀ n ∈ ns, SLASH ∉ n) (hms : ∀ m ∈ ms, SLASH ∉ m) :
    (∃ rest, join SLASH ms = join SLASH ns ++ rest ∧ (rest = [] ∨ rest.head? = some SLASH)) ↔
      ns <+: ms := by
  constructor
  · rintro ⟨rest, heq, hrest⟩
    obtain ⟨ks, rfl, hks⟩ : ∃ ks, rest = join SLASH ks ∧ ∀ k ∈ ks, SLASH ∉ k := by
      rcases hrest with rfl | hhead
      · exact ⟨[], rfl, fun _ hk => by cases hk⟩
      · cases rest with
        | nil => cases hhead
        | cons c t =>
          obtain rfl := Option.some.inj hhead
          exact ⟨split SLASH t, (join_split SLASH t).symm, fun k hk => (mem_split hk).1⟩
    rw [← join_append] at heq
    refine ⟨ks, (join_injective hms ?_ heq).symm⟩
    intro k hk
    cases List.mem_append.mp hk with
    | inl hk => exact hns k hk
    | inr hk => exact hks k hk
  · rintro ⟨ks, rfl⟩
    refine ⟨join SLASH ks, join_append SLASH ns ks, ?_⟩
    cases ks with
    | nil => exact .inl rfl
    | cons k ks => exact .inr rfl

/-- The check on two answers of `realpath`. -/
theorem underRoot_iff {realpath : Bytes → Option Bytes} {root path rootReal pathReal : Bytes}
    (hr : realpath root = some rootReal) (hp : realpath path = some pathReal)
    (hroot : 0 ∉ rootReal) (hpath : 0 ∉ pathReal) :
    isPathUnderRootReal realpath (some root) path = true ↔
      ∃ rest, pathReal = rootReal ++ rest ∧ (rest = [] ∨ rest.head? = some SLASH) := by
  have hstep : isPathUnderRootReal realpath (some root) path =
      (strncmpEq pathReal rootReal rootReal.length &&
        ((pathReal.drop rootReal.length).headD 0 == 0 ||
          (pathReal.drop rootReal.length).headD 0 == SLASH)) := by
    unfold isPathUnderRootReal
    dsimp only
    rw [hr, hp]
  rw [hstep, Bool.and_eq_true, strncmpEq_length_iff hroot]
  constructor
  · rintro ⟨⟨rest, rfl⟩, hnext⟩
    refine ⟨rest, rfl, ?_⟩
    rw [List.drop_left] at hnext
    cases rest with
    | nil => exact .inl rfl
    | cons c rest =>
      have hc : c ≠ 0 := fun hx => hpath (by rw [hx]; simp)
      have hor : c = 0 ∨ c = SLASH := by simpa using hnext
      exact .inr (congrArg some (hor.resolve_left hc))
  · rintro ⟨rest, rfl, hrest⟩
    refine ⟨⟨rest, rfl⟩, ?_⟩
    rw [List.drop_left]
    rcases hrest with rfl | hhead
    · rfl
    · cases rest with
      | nil => cases hhead
      | cons c rest =>
        obtain rfl := Option.some.inj hhead
        rfl

end UriFileLemmas

open UriFileLemmas

/-- For all canonical paths that `realpath` answers with: `is_path_under_root_real` returns 1
exactly when the components of the root come first among those of the path, if and only if the
root is not `/` or the path is `/` too. -/
theorem docroot_check_iff {realpath : Bytes → Option Bytes} {root path rootReal pathReal : Bytes}
    (hr : realpath root = some rootReal) (hp : realpath path = some pathReal)
    (hroot : Canonical rootReal) (hpath : Canonical pathReal) :
    (isPathUnderRootReal realpath (some root) path = true ↔
      segments SLASH rootReal <+: segments SLASH pathReal) ↔
    (rootReal ≠ [SLASH] ∨ pathReal = [SLASH]) := by
  rw [underRoot_iff hr hp hroot.noNul hpath.noNul]
  rcases canonical_cases hroot with ⟨rfl, hnone⟩ | ⟨n, ns, rfl, hsegs, hn, hslash⟩
  · rw [hnone]
    rcases canonical_cases hpath with ⟨rfl, -⟩ | ⟨m, ms, rfl, -, hm, hslash⟩
    · exact iff_of_true (iff_of_true ⟨[], rfl, .inl rfl⟩ List.nil_prefix) (.inr rfl)
    · -- The byte behind the slash is the first one of a name.
      cases m with
      | nil => exact absurd rfl hm
      | cons c m =>
        refine iff_of_false (fun hiff => ?_) ?_
        · obtain ⟨rest, heq, hrest⟩ := hiff.mpr List.nil_prefix
          rw [join_cons, List.cons_append, List.singleton_append] at heq
          obtain ⟨-, rfl⟩ := List.cons.inj heq
          rcases hrest with hnil | hhead
          · cases hnil
          · exact hslash _ List.mem_cons_self (by rw [← Option.some.inj hhead]; exact List.mem_cons_self)
        · rintro (hne | heq)
          · exact hne rfl
          · cases heq
  · have hne : join SLASH (n :: ns) ≠ [SLASH] := by
      cases n with
      | nil => exact absurd rfl hn
      | cons c n => exact fun hx => by cases hx
    rw [hsegs]
    refine iff_of_true ?_ (.inl hne)
    rcases canonical_cases hpath with ⟨rfl, hnone⟩ | ⟨m, ms, rfl, hsegs', -, hslash'⟩
    · rw [hnone]
      refine iff_of_false ?_ fun hx => by cases List.prefix_nil.mp hx
      rintro ⟨rest, heq, -⟩
      rw [join_cons, List.cons_append] at heq
      cases n with
      | nil => exact absurd rfl hn
      | cons c n => cases (List.cons.inj heq).2
    · rw [hsegs']
      exact join_front_iff hslash hslash'

theorem docroot_check_iff_srv :
    isPathUnderRootReal some (some (ascii "/srv")) (ascii "/srv/a") = true ∧
      segments SLASH (ascii "/srv") <+: segments SLASH (ascii "/srv/a") := by
  have hroot : Canonical (ascii "/srv") := ⟨by decide, .inr (by decide), by decide⟩
  have hpath : Canonical (ascii "/srv/a") := ⟨by decide, .inr (by decide), by decide⟩
  have hunder : isPathUnderRootReal some (some (ascii "/srv")) (ascii "/srv/a") = true := by decide
  exact ⟨hunder, ((docroot_check_iff rfl rfl hroot hpath).mpr (.inl (by decide))).mp hunder⟩

/-- With the docroot `/` no file is under it. -/
theorem docroot_slash_refuses : Canonical (ascii "/") ∧ Canonical (ascii "/index.html") ∧
    ¬ (isPathUnderRootReal some (some (ascii "/")) (ascii "/index.html") = true ↔
      segments SLASH (ascii "/") <+: segments SLASH (ascii "/index.html")) :=
  ⟨⟨by decide, .inl (by decide), by decide⟩, ⟨by decide, .inr (by decide), by decide⟩, by decide⟩

end Zaver
