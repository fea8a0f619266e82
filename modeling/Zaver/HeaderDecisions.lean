import Zaver.Containment
import Zaver.HeaderLines

/-!
# What the headers decide

`zv_http_handle_header` sets the persistence of the connection from the version and the
`Connection` header, and the status 304 from `If-Modified-Since`. It compares names and
values over the length that they have in the request, so that a shorter text passes for
the whole one; and it reads the modification time before `do_request` has written it.

Results:
1. `version_exact_iff`: when the version numbers are those that the client sent.
2. `keep_alive_iff`: when the persistence follows the `Connection` header alone.
3. `conditional_iff`: when a conditional request is decided by the file.
-/

namespace Zaver

open CString Chunked HeaderBlock

/-- A value of the C type `int`. -/
def FitsInt (x : Int) : Prop := -2 ^ 31 ≤ x ∧ x < 2 ^ 31

/-- No operation of `acc * 10 + ch - '0'` overflows, at any digit behind the first. -/
def NoOverflow (ds : Bytes) : Prop :=
  ∀ t c u, ds = t ++ c :: u → t ≠ [] →
    FitsInt (accumulate t * 10) ∧ FitsInt (accumulate t * 10 + c.toNat) ∧
      FitsInt (accumulate t * 10 + c.toNat - 48)

/-- The version of a line is read as it was sent: both numbers are those of the digits, without
an overflow on the way, and the persistence goes by the version of the line. -/
structure VersionExact (l : RequestLine) (j : Input) : Prop where
  major : j.httpMajor = decimal l.major
  minor : j.httpMinor = decimal l.minor
  major_fits : NoOverflow l.major
  minor_fits : NoOverflow l.minor
  keepAlive : defaultKeepAlive j = true ↔
    1 < decimal l.major ∨ (decimal l.major = 1 ∧ 1 ≤ decimal l.minor)

/-- A C library that knows one date. -/
def epochLib : Libc where
  strftime _ := ascii "Thu, 01 Jan 1970 00:00:05 GMT"
  strftime_lt _ := by decide
  strftime_plain _ := by decide
  strptime _ data := if ascii "Thu, 01 Jan 1970 00:00:05 GMT" <+: data then some 5 else none

/-- What a header says about the persistence, by its name and its value. -/
def connectionVerdict (h : Bytes × Bytes) : Option Bool :=
  if h.1 = ascii "Connection" then
    if h.2.map toLower = ascii "keep-alive" then some true
    else if h.2.map toLower = ascii "close" then some false
    else none
  else none

/-- A header that is taken for a `Connection` header with one of the two values. -/
structure TakenForConnection (h : Bytes × Bytes) : Prop where
  ne : h.1 ≠ []
  key : Abbreviates id h.1 (ascii "Connection")
  value : Abbreviates toLower h.2 (ascii "keep-alive") ∨ Abbreviates toLower h.2 (ascii "close")

/-- The persistence follows the `Connection` header: the earliest one that says something, or
else the version; and no other header changes it. -/
structure FollowsConnection (lib : Libc) (isdst : Header → Int) (i : Input) (o : HttpOut) :
    Prop where
  value : (zvHttpHandleHeader lib isdst i o).keepAlive =
    ((storedHeaders i).findSome? connectionVerdict).getD (defaultKeepAlive i)
  others : ∀ hd ∈ i.list, connectionVerdict (i.headerBytes hd) = none →
    ∀ o', (handleOne lib isdst i o' hd).keepAlive = o'.keepAlive

/-- A request that resolves to a regular file that can be read and is opened as `fd`. -/
structure Resolves (e : PassEnv) (c : Conn) (filename : Bytes) (sb : FileStat) (fd : Fd) : Prop where
  static : isCgiUri (c.r.inp.span c.r.inp.uriStart c.r.inp.uriEnd) = false
  file : parseUri c.r.root (c.r.inp.span c.r.inp.uriStart c.r.inp.uriEnd) SHORTLINE = some filename
  stat : e.stat = some sb
  inside : isPathUnderRootReal e.realpath c.r.root filename = true
  regular : sb.isReg = true
  readable : sb.userRead = true
  opens : e.openAns = some fd

/-- The `zv_http_out_t` that `prepare_static` is given. -/
def staticOut (lib : Libc) (e : PassEnv) (i : Input) (sb : FileStat) : HttpOut :=
  let out := zvHttpHandleHeader lib e.tmIsdst i
    (zvInitOutT { keepAlive := false, mtime := e.outMtime, modified := false, status := 0 })
  { out with mtime := sb.mtime, status := if out.status = 0 then 200 else out.status }

/-- The connection when the response to such a request is about to be sent. -/
def staticReply (lib : Libc) (e : PassEnv) (filename : Bytes) (sb : FileStat) (c : Conn) : Conn :=
  let c := c.emit [.serve c.r.inp.served c.r.inp.method]
  let out := staticOut lib e c.r.inp sb
  let c := { c with r := { c.r with inp := { c.r.inp with list := [] } } }
  ((c.emit [.stat filename]).prepareStatic lib e.openAns filename sb.size out).1

/-- A response of status 304 without payload. -/
structure NotModified (o : Output) : Prop where
  status : ascii "HTTP/1.1 304 Not Modified\r\n" <+: headerText o
  body : o.outBody = none
  file : o.outFileFd = none

/-- A response of status 200 with the whole file. -/
structure WholeFile (fd : Fd) (size : Nat) (o : Output) : Prop where
  status : ascii "HTTP/1.1 200 OK\r\n" <+: headerText o
  body : o.outBody = none
  file : o.outFileFd = some fd
  offset : o.outFileOffset = 0
  size : o.outFileSize = size

/-- Some `If-Modified-Since` header has the time `m`. -/
def AsksSince (date : Bytes → Option Int) (headers : List (Bytes × Bytes)) (m : Int) : Prop :=
  ∃ h ∈ headers, h.1 = ascii "If-Modified-Since" ∧ date h.2 = some m

/-- Some header that is taken for `If-Modified-Since` has the time `m`. -/
def TakenSince (date : Bytes → Option Int) (headers : List (Bytes × Bytes)) (m : Int) : Prop :=
  ∃ h ∈ headers, (h.1 ≠ [] ∧ Abbreviates id h.1 (ascii "If-Modified-Since")) ∧ date h.2 = some m

namespace HeaderDecisionsLemmas

open RequestLineLemmas ResponseHeaderLemmas AnswerLemmas

/-! ### Digits -/

theorem digits_fit {ds : Bytes} (h : ∀ c ∈ ds, isDigit c = true) (hlt : decimal ds + 48 < 2 ^ 31) :
    NoOverflow ds := by
  induction ds using List.reverseRecOn with
  | nil =>
    intro t c u heq
    exact absurd heq.symm (by simp)
  | append_singleton ds d ih =>
    have hds : ∀ c ∈ ds, isDigit c = true := fun c hc => h c (List.mem_append_left _ hc)
    have hge := digit_ge (h d (List.mem_append_right _ List.mem_cons_self))
    rw [decimal_snoc] at hlt
    have hexact := (accumulate_exact_iff hds).mpr (by omega)
    intro t c u heq hne
    rcases List.eq_nil_or_concat u with rfl | ⟨u, e, rfl⟩
    · obtain ⟨rfl, hc⟩ := List.append_inj' heq rfl
      obtain rfl : d = c := (List.cons.inj hc).1
      rw [hexact]
      refine ⟨⟨?_, ?_⟩, ⟨?_, ?_⟩, ?_, ?_⟩ <;> omega
    · have hsplit : ds ++ [d] = (t ++ c :: u) ++ [e] := by
        rw [heq, List.concat_eq_append, List.append_assoc, List.cons_append]
      exact ih hds (by omega) t c u (List.append_inj' hsplit rfl).1 hne

theorem fit_digits {ds : Bytes} (h : ∀ c ∈ ds, isDigit c = true) (hfit : NoOverflow ds) :
    decimal ds + 48 < 2 ^ 31 := by
  induction ds using List.reverseRecOn with
  | nil => decide
  | append_singleton ds d ih =>
    have hds : ∀ c ∈ ds, isDigit c = true := fun c hc => h c (List.mem_append_left _ hc)
    have hd := h d (List.mem_append_right _ List.mem_cons_self)
    have hge := digit_ge hd
    have hlt : decimal ds + 48 < 2 ^ 31 := by
      refine ih hds fun t c u heq hne => hfit t c (u ++ [d]) ?_ hne
      rw [heq, List.append_assoc, List.cons_append]
    rw [decimal_snoc]
    by_cases hne : ds = []
    · subst hne
      have hle := d.toNat_lt
      show 0 * 10 + (d.toNat - 48) + 48 < 2 ^ 31
      omega
    · have hexact := (accumulate_exact_iff hds).mpr (by omega)
      obtain ⟨-, ⟨-, hsum⟩, -⟩ := hfit ds d [] rfl hne
      rw [hexact] at hsum
      omega

theorem noOverflow_iff {ds : Bytes} (h : ∀ c ∈ ds, isDigit c = true) :
    NoOverflow ds ↔ decimal ds + 48 < 2 ^ 31 := ⟨fit_digits h, digits_fit h⟩

/-! ### Names and values -/

theorem strncmpEq_iff {key name : Bytes} (h : (0 : UInt8) ∉ name) :
    strncmpEq key name key.length = true ↔ Abbreviates id key name :=
  eqN_length_iff (fun _ hx => hx) h

theorem strncasecmpEq_iff {value text : Bytes} (h : (0 : UInt8) ∉ text) :
    strncasecmpEq text value value.length = true ↔ Abbreviates toLower value text := by
  unfold strncasecmpEq
  rw [eqN_comm toLower_zero]
  exact eqN_length_iff toLower_zero h

/-- A key that is not empty and abbreviates a name begins as the name does. -/
theorem abbreviates_head {key name : Bytes} (hk : key ≠ []) (hn : name ≠ [])
    (h : Abbreviates id key name) : key.head? = name.head? := by
  cases key with
  | nil => exact absurd rfl hk
  | cons k key =>
    cases name with
    | nil => exact absurd rfl hn
    | cons x name =>
      rcases h with h | ⟨t, u, heq, ht⟩
      · exact congrArg some (List.cons_prefix_cons.mp h).1
      · cases t with
        | nil => cases ht
        | cons y t =>
          obtain rfl : k = y := (List.cons.inj heq).1
          exact congrArg some (List.cons.inj ht).1

/-- A key does not pass for two names that begin differently. -/
theorem strncmpEq_other {key name other : Bytes} (hk : key ≠ []) (h : Abbreviates id key name)
    (hne : name.head? ≠ other.head?) (hn : name ≠ []) (ho : other ≠ []) (h0 : (0 : UInt8) ∉ other) :
    strncmpEq key other key.length = false := by
  rw [Bool.eq_false_iff]
  intro hx
  have hother := abbreviates_head hk ho ((strncmpEq_iff h0).mp hx)
  exact hne ((abbreviates_head hk hn h).symm.trans hother)

section Handlers

variable (lib : Libc) (isdst : Header → Int) (i : Input) (o : HttpOut) (hd : Header)

theorem handleOne_connection (hk : i.span hd.keyStart hd.keyEnd ≠ [])
    (h : Abbreviates id (i.span hd.keyStart hd.keyEnd) (ascii "Connection")) :
    handleOne lib isdst i o hd = zvHttpProcessConnection (i.span hd.valueStart hd.valueEnd) o := by
  have hhost := @strncmpEq_other _ _ (ascii "Host") hk h (by decide) (by decide) (by decide)
    (by decide)
  have hconn := (strncmpEq_iff (by decide)).mpr h
  unfold handleOne zvHttpHeadersIn
  dsimp only
  rw [List.find?_cons, hhost, List.find?_cons, hconn]

theorem handleOne_since (hk : i.span hd.keyStart hd.keyEnd ≠ [])
    (h : Abbreviates id (i.span hd.keyStart hd.keyEnd) (ascii "If-Modified-Since")) :
    handleOne lib isdst i o hd =
      zvHttpProcessIfModifiedSince lib (isdst hd) (i.buf.slice (hd.valueStart.getD 0) MAX_BUF)
        o := by
  have hhost := @strncmpEq_other _ _ (ascii "Host") hk h (by decide) (by decide) (by decide)
    (by decide)
  have hconn := @strncmpEq_other _ _ (ascii "Connection") hk h (by decide) (by decide) (by decide)
    (by decide)
  have hsince := (strncmpEq_iff (by decide)).mpr h
  unfold handleOne zvHttpHeadersIn
  dsimp only
  rw [List.find?_cons, hhost, List.find?_cons, hconn, List.find?_cons, hsince]

theorem handleOne_other
    (hconn : i.span hd.keyStart hd.keyEnd ≠ [] →
      ¬ Abbreviates id (i.span hd.keyStart hd.keyEnd) (ascii "Connection"))
    (hsince : i.span hd.keyStart hd.keyEnd ≠ [] →
      ¬ Abbreviates id (i.span hd.keyStart hd.keyEnd) (ascii "If-Modified-Since")) :
    handleOne lib isdst i o hd = o := by
  unfold handleOne zvHttpHeadersIn
  dsimp only
  generalize i.span hd.keyStart hd.keyEnd = key at hconn hsince ⊢
  by_cases hk : key = []
  · rw [hk]
    rfl
  · have h1 : strncmpEq key (ascii "Connection") key.length = false := by
      rw [Bool.eq_false_iff]
      exact fun hx => hconn hk ((strncmpEq_iff (by decide)).mp hx)
    have h2 : strncmpEq key (ascii "If-Modified-Since") key.length = false := by
      rw [Bool.eq_false_iff]
      exact fun hx => hsince hk ((strncmpEq_iff (by decide)).mp hx)
    rw [List.find?_cons]
    cases strncmpEq key (ascii "Host") key.length with
    | true => rfl
    | false => rw [List.find?_cons, h1, List.find?_cons, h2, List.find?_nil]

end Handlers

/-! ### The persistence -/

/-- What `zv_http_handle_header` makes of a header. -/
def takenVerdict (h : Bytes × Bytes) : Option Bool :=
  if h.1 ≠ [] ∧ strncmpEq h.1 (ascii "Connection") h.1.length then
    if strncasecmpEq (ascii "keep-alive") h.2 h.2.length then some true
    else if strncasecmpEq (ascii "close") h.2 h.2.length then some false
    else none
  else none

theorem since_keepAlive (lib : Libc) (isdst : Int) (data : Bytes) (o : HttpOut) :
    (zvHttpProcessIfModifiedSince lib isdst data o).keepAlive = o.keepAlive := by
  unfold zvHttpProcessIfModifiedSince
  split
  · rfl
  · split
    · rfl
    · rfl

theorem handleOne_keepAlive (lib : Libc) (isdst : Header → Int) (i : Input) (o : HttpOut)
    (hd : Header) :
    (handleOne lib isdst i o hd).keepAlive = (takenVerdict (i.headerBytes hd)).getD o.keepAlive := by
  unfold takenVerdict Input.headerBytes
  dsimp only
  by_cases h : i.span hd.keyStart hd.keyEnd ≠ [] ∧
      strncmpEq (i.span hd.keyStart hd.keyEnd) (ascii "Connection")
        (i.span hd.keyStart hd.keyEnd).length = true
  · rw [if_pos h, handleOne_connection lib isdst i o hd h.1 ((strncmpEq_iff (by decide)).mp h.2)]
    unfold zvHttpProcessConnection
    cases strncasecmpEq (ascii "keep-alive") (i.span hd.valueStart hd.valueEnd)
        (i.span hd.valueStart hd.valueEnd).length with
    | true => rfl
    | false =>
      cases strncasecmpEq (ascii "close") (i.span hd.valueStart hd.valueEnd)
          (i.span hd.valueStart hd.valueEnd).length with
      | true => rfl
      | false => rfl
  · rw [if_neg h]
    have hconn : i.span hd.keyStart hd.keyEnd ≠ [] →
        ¬ Abbreviates id (i.span hd.keyStart hd.keyEnd) (ascii "Connection") :=
      fun hk hx => h ⟨hk, (strncmpEq_iff (by decide)).mpr hx⟩
    by_cases hsince : i.span hd.keyStart hd.keyEnd ≠ [] ∧
        Abbreviates id (i.span hd.keyStart hd.keyEnd) (ascii "If-Modified-Since")
    · rw [handleOne_since lib isdst i o hd hsince.1 hsince.2, since_keepAlive]
      rfl
    · rw [handleOne_other lib isdst i o hd hconn fun hk hx => hsince ⟨hk, hx⟩]
      rfl

/-- The list begins with the last header, so that the earliest verdict stays. -/
theorem foldl_keepAlive (lib : Libc) (isdst : Header → Int) (i : Input) (l : List Header)
    (o : HttpOut) : (l.foldl (handleOne lib isdst i) o).keepAlive =
      ((l.map i.headerBytes).reverse.findSome? takenVerdict).getD o.keepAlive := by
  induction l generalizing o with
  | nil => rfl
  | cons hd l ih =>
    rw [List.foldl_cons, ih, handleOne_keepAlive, List.map_cons, List.reverse_cons,
      List.findSome?_append, List.findSome?_singleton]
    cases (l.map i.headerBytes).reverse.findSome? takenVerdict with
    | none => rfl
    | some b => rfl

theorem takenVerdict_isSome_iff (h : Bytes × Bytes) :
    (takenVerdict h).isSome ↔ TakenForConnection h := by
  have hkey := @strncmpEq_iff h.1 (ascii "Connection") (by decide)
  have hkeep := @strncasecmpEq_iff h.2 (ascii "keep-alive") (by decide)
  have hclose := @strncasecmpEq_iff h.2 (ascii "close") (by decide)
  unfold takenVerdict
  constructor
  · intro hx
    split at hx
    · next hk =>
      split at hx
      · next hv => exact ⟨hk.1, hkey.mp hk.2, .inl (hkeep.mp hv)⟩
      · split at hx
        · next hv => exact ⟨hk.1, hkey.mp hk.2, .inr (hclose.mp hv)⟩
        · cases hx
    · cases hx
  · intro hx
    rw [if_pos ⟨hx.ne, hkey.mpr hx.key⟩]
    split
    · rfl
    · next hno =>
      rw [if_pos (hclose.mpr (hx.value.resolve_left fun hk => hno (hkeep.mpr hk)))]
      rfl

/-- An exact header is taken for what it is. -/
theorem takenVerdict_exact {h : Bytes × Bytes} {b : Bool} (hv : connectionVerdict h = some b) :
    takenVerdict h = some b := by
  have hkeep := @strncasecmpEq_iff h.2 (ascii "keep-alive") (by decide)
  have hclose := @strncasecmpEq_iff h.2 (ascii "close") (by decide)
  unfold connectionVerdict at hv
  split at hv
  · next hname =>
    have htaken : h.1 ≠ [] ∧ strncmpEq h.1 (ascii "Connection") h.1.length = true := by
      rw [hname]
      decide
    unfold takenVerdict
    rw [if_pos htaken]
    split at hv
    · next hval =>
      have habb : Abbreviates toLower h.2 (ascii "keep-alive") :=
        (abbreviates_map_iff hval (by decide)).mpr (by decide)
      rw [if_pos (hkeep.mpr habb)]
      exact hv
    · split at hv
      · next hval =>
        have hno : ¬ Abbreviates toLower h.2 (ascii "keep-alive") :=
          fun hx => absurd ((abbreviates_map_iff hval (by decide)).mp hx) (by decide)
        have habb : Abbreviates toLower h.2 (ascii "close") :=
          (abbreviates_map_iff hval (by decide)).mpr (by decide)
        rw [if_neg fun hx => hno (hkeep.mp hx), if_pos (hclose.mpr habb)]
        exact hv
      · cases hv
  · cases hv

/-! ### The modification time -/

theorem connection_since (value : Bytes) (o : HttpOut) :
    (zvHttpProcessConnection value o).modified = o.modified ∧
      (zvHttpProcessConnection value o).mtime = o.mtime := by
  unfold zvHttpProcessConnection
  split
  · exact ⟨rfl, rfl⟩
  · split
    · exact ⟨rfl, rfl⟩
    · exact ⟨rfl, rfl⟩

theorem handleOne_modified (lib : Libc) (isdst : Header → Int) (i : Input) (o : HttpOut)
    (hd : Header) :
    (handleOne lib isdst i o hd).mtime = o.mtime ∧
      ((handleOne lib isdst i o hd).modified = false ↔ o.modified = false ∨
        ((i.span hd.keyStart hd.keyEnd ≠ [] ∧
            Abbreviates id (i.span hd.keyStart hd.keyEnd) (ascii "If-Modified-Since")) ∧
          lib.strptime (isdst hd) (i.buf.slice (hd.valueStart.getD 0) MAX_BUF) =
            some o.mtime)) := by
  by_cases hsince : i.span hd.keyStart hd.keyEnd ≠ [] ∧
      Abbreviates id (i.span hd.keyStart hd.keyEnd) (ascii "If-Modified-Since")
  · rw [handleOne_since lib isdst i o hd hsince.1 hsince.2]
    unfold zvHttpProcessIfModifiedSince
    cases lib.strptime (isdst hd) (i.buf.slice (hd.valueStart.getD 0) MAX_BUF) with
    | none => exact ⟨rfl, ⟨.inl, fun hx => hx.resolve_right fun hx => by cases hx.2⟩⟩
    | some t =>
      by_cases ht : o.mtime = t
      · dsimp only
        rw [if_pos ht]
        exact ⟨rfl, ⟨fun _ => .inr ⟨hsince, by rw [ht]⟩, fun _ => rfl⟩⟩
      · dsimp only
        rw [if_neg ht]
        exact ⟨rfl, ⟨.inl, fun hx => hx.resolve_right fun hx => ht (Option.some.inj hx.2).symm⟩⟩
  · have hkeep : (handleOne lib isdst i o hd).modified = o.modified ∧
        (handleOne lib isdst i o hd).mtime = o.mtime := by
      by_cases hconn : i.span hd.keyStart hd.keyEnd ≠ [] ∧
          Abbreviates id (i.span hd.keyStart hd.keyEnd) (ascii "Connection")
      · rw [handleOne_connection lib isdst i o hd hconn.1 hconn.2]
        exact connection_since _ _
      · rw [handleOne_other lib isdst i o hd (fun hk hx => hconn ⟨hk, hx⟩) fun hk hx => hsince ⟨hk, hx⟩]
        exact ⟨rfl, rfl⟩
    rw [hkeep.1]
    exact ⟨hkeep.2, .inl, fun hx => hx.resolve_right fun hx => hsince hx.1⟩

/-- The flag after the headers: the time in the block is the one that it held before. -/
theorem foldl_modified (lib : Libc) (isdst : Header → Int) (i : Input) (l : List Header)
    (o : HttpOut) : (l.foldl (handleOne lib isdst i) o).modified = false ↔ o.modified = false ∨
      ∃ hd ∈ l, (i.span hd.keyStart hd.keyEnd ≠ [] ∧
          Abbreviates id (i.span hd.keyStart hd.keyEnd) (ascii "If-Modified-Since")) ∧
        lib.strptime (isdst hd) (i.buf.slice (hd.valueStart.getD 0) MAX_BUF) = some o.mtime := by
  induction l generalizing o with
  | nil =>
    refine ⟨.inl, fun hx => hx.resolve_right ?_⟩
    rintro ⟨hd, hmem, -⟩
    cases hmem
  | cons hd l ih =>
    obtain ⟨hm, hone⟩ := handleOne_modified lib isdst i o hd
    rw [List.foldl_cons, ih, hone, hm, or_assoc]
    simp only [List.mem_cons, exists_eq_or_imp]

theorem staticOut_modified (lib : Libc) (e : PassEnv) (sb : FileStat) {i : Input}
    {date : Bytes → Option Int}
    (hdate : ∀ hd ∈ i.list,
      lib.strptime (e.tmIsdst hd) (i.buf.slice (hd.valueStart.getD 0) MAX_BUF) =
        date (i.headerBytes hd).2) :
    (staticOut lib e i sb).modified = false ↔ TakenSince date (storedHeaders i) e.outMtime := by
  refine (foldl_modified lib e.tmIsdst i i.list _).trans ⟨fun hx => ?_, fun hx => .inr ?_⟩
  · obtain ⟨hd, hmem, hkey, ht⟩ := hx.resolve_left fun hx => by cases hx
    refine ⟨i.headerBytes hd, List.mem_reverse.mpr (List.mem_map_of_mem hmem), hkey, ?_⟩
    rw [← hdate hd hmem]
    exact ht
  · obtain ⟨h, hmem, hkey, ht⟩ := hx
    obtain ⟨hd, hhd, rfl⟩ := List.mem_map.mp (List.mem_reverse.mp hmem)
    refine ⟨hd, hhd, hkey, ?_⟩
    rw [hdate hd hhd]
    exact ht

theorem staticOut_status (lib : Libc) (e : PassEnv) (i : Input) (sb : FileStat) :
    (staticOut lib e i sb).status = if (staticOut lib e i sb).modified then 200 else 304 :=
  final_status (fresh_status lib e i)

/-- The header begins with the status line. -/
theorem headerText_status {lib : Libc} {openAns : Option Fd} {filename : Bytes} {size : UInt64}
    {out : HttpOut} {ms : Nat} {o : Output} (hs : out.status < 2 ^ 31) :
    ascii "HTTP/1.1 " ++ numeral 10 out.status ++ ascii " " ++
        getShortmsgFromStatusCode out.status ++ CRLF <+:
      headerText (prepareStatic lib.strftime openAns filename size out ms o).1 := by
  rw [headerText_prepareStatic (lib.strftime_lt _) hs, staticFields, List.singleton_append,
    List.cons_append, List.cons_append, block_cons, ← List.append_assoc]
  exact List.prefix_append _ _

theorem notModified_iff {lib : Libc} {fd : Fd} {filename : Bytes} {size : UInt64} {out : HttpOut}
    {ms : Nat} {o : Output} (hs : out.status = if out.modified then 200 else 304) :
    NotModified (prepareStatic lib.strftime (some fd) filename size out ms o).1 ↔
      out.modified = false := by
  cases hm : out.modified with
  | false =>
    rw [hm] at hs
    have hstatus := @headerText_status lib (some fd) filename size out ms o (by rw [hs]; decide)
    rw [hs] at hstatus
    refine ⟨fun _ => rfl, fun _ => ⟨hstatus, ?_, ?_⟩⟩
    · simp only [prepareStatic, hm]
      rfl
    · simp only [prepareStatic, hm]
      rfl
  | true =>
    refine ⟨fun hx => ?_, fun hx => by cases hx⟩
    have hfile := hx.file
    simp only [prepareStatic, hm] at hfile
    cases hfile

theorem wholeFile_iff {lib : Libc} {fd : Fd} {filename : Bytes} {size : UInt64} {out : HttpOut}
    {ms : Nat} {o : Output} (hs : out.status = if out.modified then 200 else 304) :
    WholeFile fd size.toNat (prepareStatic lib.strftime (some fd) filename size out ms o).1 ↔
      out.modified = true := by
  cases hm : out.modified with
  | true =>
    rw [hm] at hs
    have hstatus := @headerText_status lib (some fd) filename size out ms o (by rw [hs]; decide)
    rw [hs] at hstatus
    refine ⟨fun _ => rfl, fun _ => ⟨hstatus, ?_, ?_, ?_, ?_⟩⟩
    · simp only [prepareStatic, hm]
      rfl
    · simp only [prepareStatic, hm]
      rfl
    · simp only [prepareStatic, hm]
      rfl
    · simp only [prepareStatic, hm]
      rfl
  | false =>
    refine ⟨fun hx => ?_, fun hx => by cases hx⟩
    have hfile := hx.file
    simp only [prepareStatic, hm] at hfile
    cases hfile

/-- `prepare_static` succeeds when the file is opened. -/
theorem prepareStatic_opened (lib : Libc) (fd : Fd) (filename : Bytes) (size : UInt64) (out : HttpOut)
    (c : Conn) : (c.prepareStatic lib (some fd) filename size out).2 = true := by
  unfold Conn.prepareStatic prepareStatic
  dsimp only
  split
  · rfl
  · rfl

theorem serveFile_resolves {lib : Libc} {e : PassEnv} {c : Conn} {filename : Bytes} {sb : FileStat}
    {fd : Fd} (h : Resolves e c filename sb fd) :
    serveFile lib e filename (c.emit [.serve c.r.inp.served c.r.inp.method]) =
      sendAndFinish e (staticOut lib e c.r.inp sb).keepAlive (staticReply lib e filename sb c) := by
  unfold serveFile
  dsimp only
  split
  · next hno => cases h.stat.symm.trans hno
  · next sb' hsb =>
    obtain rfl : sb = sb' := Option.some.inj (h.stat.symm.trans hsb)
    split
    · next hout => cases h.inside.symm.trans hout
    · split
      · next hno =>
        cases hno with
        | inl hno => cases h.regular.symm.trans hno
        | inr hno => cases h.readable.symm.trans hno
      · split
        · next c₁ hp =>
          rw [h.opens] at hp
          cases (prepareStatic_opened _ _ _ _ _ _).symm.trans (congrArg Prod.snd hp)
        · next c₁ hp =>
          have hreply : staticReply lib e filename sb c = c₁ := congrArg Prod.fst hp
          rw [hreply]
          rfl

/-- The answer to a request for a file is the static branch. -/
theorem answer_static {lib : Libc} {e : PassEnv} {c : Conn} {filename : Bytes}
    (hstatic : isCgiUri (c.r.inp.span c.r.inp.uriStart c.r.inp.uriEnd) = false)
    (hname : parseUri c.r.root (c.r.inp.span c.r.inp.uriStart c.r.inp.uriEnd) SHORTLINE =
      some filename) :
    answer lib e c = serveFile lib e filename (c.emit [.serve c.r.inp.served c.r.inp.method]) := by
  have hnot : handleCgiMvp e (c.emit [.serve c.r.inp.served c.r.inp.method]) =
      (c.emit [.serve c.r.inp.served c.r.inp.method], .not) := by
    unfold handleCgiMvp
    dsimp only
    split
    · rfl
    · split
      · rfl
      · next hno => exact absurd hstatic hno
  have hfile : parseUri (c.emit [.serve c.r.inp.served c.r.inp.method]).r.root
      ((c.emit [.serve c.r.inp.served c.r.inp.method]).r.inp.span
        (c.emit [.serve c.r.inp.served c.r.inp.method]).r.inp.uriStart
        (c.emit [.serve c.r.inp.served c.r.inp.method]).r.inp.uriEnd) SHORTLINE = some filename :=
    hname
  unfold answer
  dsimp only
  rw [hnot]
  dsimp only
  rw [hfile]

/-- The answer to a request that resolves to a file. -/
theorem answer_resolves {lib : Libc} {e : PassEnv} {c : Conn} {filename : Bytes} {sb : FileStat}
    {fd : Fd} (h : Resolves e c filename sb fd) :
    answer lib e c = sendAndFinish e (staticOut lib e c.r.inp sb).keepAlive
      (staticReply lib e filename sb c) := by
  rw [answer_static h.static h.file]
  exact serveFile_resolves h

end HeaderDecisionsLemmas

open HeaderDecisionsLemmas RequestLineLemmas

/-! ## The version -/

/-- The version numbers are those that the client sent exactly when both are less than
`2 ^ 31 - 48`: the digits are added up in an `int`, and `'0'` is taken off last. -/
theorem version_exact_iff (old : Request) (fd : Fd) (cf : Conf) {ps : List Bytes}
    (hsize : ps.flatten.length ≤ 8123) {j : Input}
    (h : feedWith zvHttpParseRequestLine (zvInitRequestT old fd cf).inp ps = (j, .ok)) :
    (∃ l u, RequestLine.Ok l ∧ ps.flatten = l.render ++ u) ∧
      ∀ l u, RequestLine.Ok l → ps.flatten = l.render ++ u →
        (VersionExact l j ↔ decimal l.major + 48 < 2 ^ 31 ∧ decimal l.minor + 48 < 2 ^ 31) := by
  cases feed_line hsize h with
  | done l u hl hu _ hfields =>
    refine ⟨⟨l, u, hl, hu⟩, fun l u hl hu => ?_⟩
    have hf := hfields l hl u hu
    constructor
    · intro hv
      exact ⟨(noOverflow_iff hl.major).mp hv.major_fits, (noOverflow_iff hl.minor).mp hv.minor_fits⟩
    · rintro ⟨hmajor, hminor⟩
      have hma : j.httpMajor = decimal l.major := by
        rw [hf.major]
        exact (accumulate_exact_iff hl.major).mpr (by omega)
      have hmi : j.httpMinor = decimal l.minor := by
        rw [hf.minor]
        exact (accumulate_exact_iff hl.minor).mpr (by omega)
      refine ⟨hma, hmi, (noOverflow_iff hl.major).mpr hmajor, (noOverflow_iff hl.minor).mpr hminor, ?_⟩
      simp only [defaultKeepAlive, hma, hmi, Bool.or_eq_true, Bool.and_eq_true, decide_eq_true_eq]
      omega
  | error _ herr => rcases herr with herr | herr <;> cases herr

theorem version_exact_iff_hello :
    let ps := [ascii "GET /a HTTP/1", ascii ".1\r\n"]
    ∃ j, feedWith zvHttpParseRequestLine (zvInitRequestT Request.zero 7 ⟨none, 0, 0⟩).inp ps =
        (j, .ok) ∧
      (∃ l u, RequestLine.Ok l ∧ ps.flatten = l.render ++ u) ∧
      ∀ l u, RequestLine.Ok l → ps.flatten = l.render ++ u →
        (VersionExact l j ↔ decimal l.major + 48 < 2 ^ 31 ∧ decimal l.minor + 48 < 2 ^ 31) := by
  intro ps
  have hrc : (feedWith zvHttpParseRequestLine (zvInitRequestT Request.zero 7 ⟨none, 0, 0⟩).inp
      ps).2 = .ok := by decide +kernel
  exact ⟨_, Prod.ext rfl hrc, version_exact_iff Request.zero 7 ⟨none, 0, 0⟩ (by decide)
    (Prod.ext rfl hrc)⟩

/-- The version 4294967297.0 is read as 1.0, and the connection is not kept. -/
theorem version_overflows :
    let ps := [ascii "GET / HTTP/4294967297.0\r\n"]
    let l : RequestLine :=
      ⟨[], ascii "GET", [], ascii "/", [], ascii "4294967297", ascii "0", [], true⟩
    ∃ j, feedWith zvHttpParseRequestLine (zvInitRequestT Request.zero 7 ⟨none, 0, 0⟩).inp ps =
        (j, .ok) ∧
      ps.flatten = l.render ∧ j.httpMajor = 1 ∧ decimal l.major = 4294967297 ∧
      defaultKeepAlive j = false ∧ ¬ VersionExact l j := by
  intro ps l
  have hrc : (feedWith zvHttpParseRequestLine (zvInitRequestT Request.zero 7 ⟨none, 0, 0⟩).inp
      ps).2 = .ok := by decide +kernel
  have hmaj : (feedWith zvHttpParseRequestLine (zvInitRequestT Request.zero 7 ⟨none, 0, 0⟩).inp
      ps).1.httpMajor = 1 := by decide +kernel
  have hka : defaultKeepAlive (feedWith zvHttpParseRequestLine
      (zvInitRequestT Request.zero 7 ⟨none, 0, 0⟩).inp ps).1 = false := by decide +kernel
  have hdec : decimal l.major = 4294967297 := by decide +kernel
  generalize feedWith zvHttpParseRequestLine (zvInitRequestT Request.zero 7 ⟨none, 0, 0⟩).inp ps =
    res at hrc hmaj hka
  obtain ⟨j, rc⟩ := res
  obtain rfl : rc = .ok := hrc
  refine ⟨j, rfl, by decide +kernel, hmaj, hdec, hka, fun hv => ?_⟩
  have hx := hv.major
  rw [show j.httpMajor = 1 from hmaj, hdec] at hx
  exact absurd hx (by decide)

/-! ## The persistence -/

/-- The persistence follows the `Connection` header exactly when every header that is taken for
one is one: a name or a value that is cut short, or goes on with a NUL, passes too. -/
theorem keep_alive_iff (lib : Libc) (isdst : Header → Int) (i : Input) (o : HttpOut) :
    FollowsConnection lib isdst i o ↔
      ∀ h ∈ storedHeaders i, TakenForConnection h → connectionVerdict h ≠ none := by
  constructor
  · intro hf h hmem htaken hnone
    obtain ⟨hd, hhd, rfl⟩ := List.mem_map.mp (List.mem_reverse.mp hmem)
    obtain ⟨b, hb⟩ := Option.isSome_iff_exists.mp ((takenVerdict_isSome_iff _).mpr htaken)
    have hother := hf.others hd hhd hnone { o with keepAlive := !b }
    rw [handleOne_keepAlive, hb] at hother
    exact absurd hother (by simp)
  · intro hexact
    have hsame : ∀ h ∈ storedHeaders i, takenVerdict h = connectionVerdict h := by
      intro h hmem
      cases hv : connectionVerdict h with
      | some b => exact takenVerdict_exact hv
      | none =>
        cases ht : takenVerdict h with
        | none => rfl
        | some b => exact absurd hv (hexact h hmem ((takenVerdict_isSome_iff h).mp (by rw [ht]; rfl)))
    refine ⟨?_, fun hd hhd hnone o' => ?_⟩
    · unfold zvHttpHandleHeader
      rw [foldl_keepAlive]
      show Option.getD ((storedHeaders i).findSome? takenVerdict) _ = _
      rw [← Function.id_comp takenVerdict, ← List.findSome?_map, List.map_congr_left hsame,
        List.findSome?_map, Function.id_comp]
    · have hmem : i.headerBytes hd ∈ storedHeaders i :=
        List.mem_reverse.mpr (List.mem_map_of_mem hhd)
      rw [handleOne_keepAlive, hsame _ hmem, hnone]
      rfl

/-- A header `C: c` closes the connection of a request of version 1.1. -/
theorem keep_alive_abbreviated :
    let i := (parsedConn (ascii "GET / HTTP/1.1\r\nC: c\r\n\r\n")).r.inp
    let o : HttpOut := zvInitOutT { keepAlive := false, mtime := 0, modified := false, status := 0 }
    storedHeaders i = [(ascii "C", ascii "c")] ∧ defaultKeepAlive i = true ∧
      (zvHttpHandleHeader epochLib (fun _ => 0) i o).keepAlive = false ∧
      ¬ FollowsConnection epochLib (fun _ => 0) i o := by
  intro i o
  have hst : storedHeaders i = [(ascii "C", ascii "c")] := by decide +kernel
  have hdef : defaultKeepAlive i = true := by decide +kernel
  have hka : (zvHttpHandleHeader epochLib (fun _ => 0) i o).keepAlive = false := by decide +kernel
  refine ⟨hst, hdef, hka, fun hf => ?_⟩
  have hval := hf.value
  rw [hka, hst, hdef] at hval
  exact absurd hval (by decide)

/-! ## Conditional requests -/

/-- A conditional request is decided by the file exactly when the time that the allocated block
happened to hold leads to the same decision as the time of the file: the headers are handled
before the time of the file is written to the block. -/
theorem conditional_iff {lib : Libc} {e : PassEnv} {c : Conn} {filename : Bytes} {sb : FileStat}
    {fd : Fd} (h : Resolves e c filename sb fd) {date : Bytes → Option Int}
    (hdate : ∀ hd ∈ c.r.inp.list,
      lib.strptime (e.tmIsdst hd) (c.r.inp.buf.slice (hd.valueStart.getD 0) MAX_BUF) =
        date (c.r.inp.headerBytes hd).2) :
    answer lib e c = sendAndFinish e (staticOut lib e c.r.inp sb).keepAlive
        (staticReply lib e filename sb c) ∧
      (((AsksSince date (storedHeaders c.r.inp) sb.mtime →
            NotModified (staticReply lib e filename sb c).r.out) ∧
          (¬ AsksSince date (storedHeaders c.r.inp) sb.mtime →
            WholeFile fd sb.size.toNat (staticReply lib e filename sb c).r.out)) ↔
        (TakenSince date (storedHeaders c.r.inp) e.outMtime ↔
          AsksSince date (storedHeaders c.r.inp) sb.mtime)) := by
  refine ⟨answer_resolves h, ?_⟩
  have hstatus := staticOut_status lib e c.r.inp sb
  have htaken := staticOut_modified lib e sb hdate
  have hout : (staticReply lib e filename sb c).r.out = (prepareStatic lib.strftime (some fd) filename
      sb.size (staticOut lib e c.r.inp sb) c.r.keepAliveTimeoutMs c.r.out).1 := by
    unfold staticReply
    rw [h.opens]
    rfl
  rw [hout, notModified_iff hstatus, wholeFile_iff hstatus, ← htaken]
  cases (staticOut lib e c.r.inp sb).modified with
  | false =>
    refine ⟨fun hx => ⟨fun _ => ?_, fun _ => rfl⟩, fun hx => ⟨fun _ => rfl, fun hno => ?_⟩⟩
    · by_contra hno
      cases hx.2 hno
    · exact absurd (hx.mp rfl) hno
  | true =>
    refine ⟨fun hx => ⟨(fun ht => by cases ht), fun ha => hx.1 ha⟩, fun hx => ⟨hx.mpr, fun _ => rfl⟩⟩

/-- A conditional request for `/a.html`. -/
def sinceConn : Conn :=
  parsedConn (ascii
    "GET /a.html HTTP/1.1\r\nIf-Modified-Since: Thu, 01 Jan 1970 00:00:05 GMT\r\n\r\n")

/-- A pass that finds a file of time 5, with a block that holds the time `mtime`. -/
def sincePass (mtime : Int) : PassEnv :=
  { failingPass with
    stat := some ⟨true, true, false, 3, 5⟩, realpath := some, openAns := some 9, outMtime := mtime }

/-- The time of that date. -/
def sinceDate (value : Bytes) : Option Int :=
  if value = ascii "Thu, 01 Jan 1970 00:00:05 GMT" then some 5 else none

theorem conditional_iff_since :
    Resolves (sincePass 5) sinceConn (ascii "/srv/a.html") ⟨true, true, false, 3, 5⟩ 9 ∧
      (((AsksSince sinceDate (storedHeaders sinceConn.r.inp) 5 →
            NotModified (staticReply epochLib (sincePass 5) (ascii "/srv/a.html")
              ⟨true, true, false, 3, 5⟩ sinceConn).r.out) ∧
          (¬ AsksSince sinceDate (storedHeaders sinceConn.r.inp) 5 →
            WholeFile 9 3 (staticReply epochLib (sincePass 5) (ascii "/srv/a.html")
              ⟨true, true, false, 3, 5⟩ sinceConn).r.out)) ↔
        (TakenSince sinceDate (storedHeaders sinceConn.r.inp) 5 ↔
          AsksSince sinceDate (storedHeaders sinceConn.r.inp) 5)) := by
  have h : Resolves (sincePass 5) sinceConn (ascii "/srv/a.html") ⟨true, true, false, 3, 5⟩ 9 :=
    { static := by decide +kernel, file := by decide +kernel, stat := rfl
      inside := by decide +kernel, regular := rfl, readable := rfl, opens := rfl }
  exact ⟨h, (@conditional_iff epochLib _ _ _ _ _ h sinceDate (by decide +kernel)).2⟩

/-- The file of time 5 is sent whole although the request asks for it since that time, because
the block held the time 0. -/
theorem conditional_ignored :
    Resolves (sincePass 0) sinceConn (ascii "/srv/a.html") ⟨true, true, false, 3, 5⟩ 9 ∧
      AsksSince sinceDate (storedHeaders sinceConn.r.inp) 5 ∧
      (staticReply epochLib (sincePass 0) (ascii "/srv/a.html") ⟨true, true, false, 3, 5⟩
        sinceConn).r.out.outFileFd = some 9 ∧
      ¬ NotModified (staticReply epochLib (sincePass 0) (ascii "/srv/a.html")
        ⟨true, true, false, 3, 5⟩ sinceConn).r.out := by
  have hst : storedHeaders sinceConn.r.inp =
      [(ascii "If-Modified-Since", ascii "Thu, 01 Jan 1970 00:00:05 GMT")] := by decide +kernel
  have hfd : (staticReply epochLib (sincePass 0) (ascii "/srv/a.html") ⟨true, true, false, 3, 5⟩
      sinceConn).r.out.outFileFd = some 9 := by decide +kernel
  refine ⟨?_, ?_, hfd, fun hx => by cases hfd.symm.trans hx.file⟩
  · exact
      { static := by decide +kernel, file := by decide +kernel, stat := rfl
        inside := by decide +kernel, regular := rfl, readable := rfl, opens := rfl }
  · rw [hst]
    exact ⟨_, List.mem_cons_self, rfl, by decide⟩

end Zaver
