import Zaver.Containment
import Zaver.PercentDecode
import Zaver.WholeRequest

/-!
# The environment of a script

A script learns what was asked from `QUERY_STRING` and `SCRIPT_NAME`. The path of the URI was
checked before: it is shorter than its buffer and has no NUL, so it arrives whole. The query is
copied into a buffer of 512 bytes without a check and handed on as a C string, so a longer query
is cut, and so is one with a NUL (`cgi_query_exact_iff`).
-/

namespace Zaver

open CString AnswerLemmas ContainmentLemmas PathSafetyLemmas PercentDecodeLemmas

/-- What stands behind the first `?` of a URI. -/
def uriQuery (uri : Bytes) : Bytes := (uri.dropWhile (· != '?'.toUInt8)).tail

/-- The value of a variable in an environment: what follows `name=` in the first entry that
begins so. -/
def getenv (name : Bytes) (envp : List Bytes) : Option Bytes :=
  (envp.find? fun s => (name ++ ascii "=").isPrefixOf s).map (·.drop (name.length + 1))

namespace CgiEnvironmentLemmas

/-! ### What is started -/

/-- A call that starts no process. -/
def Call.noFork : Call → Bool
  | .fork _ _ _ => false
  | _ => true

theorem replyAndClose_noFork (e : PassEnv) (page : ErrorPage) (c : Conn) :
    Adds Call.noFork c (replyAndClose e page c).1 := by
  obtain ⟨calls, heq, hplain⟩ := replyAndClose_plain e page c
  refine ⟨calls, heq, fun x hx => ?_⟩
  cases x with
  | fork pid file envp => cases hplain _ hx
  | _ => rfl

/-- The calls that `c'` adds to the record of `c` start at most this process. -/
def OnlyFork (file : Bytes) (envp : List Bytes) (c c' : Conn) : Prop :=
  ∃ calls, c'.tr = c.tr ++ calls ∧
    ∀ pid f env, Call.fork pid f env ∈ calls → f = file ∧ env = envp

theorem onlyFork_refl (file : Bytes) (envp : List Bytes) (c : Conn) : OnlyFork file envp c c :=
  ⟨[], (List.append_nil _).symm, fun _ _ _ hx => by cases hx⟩

theorem onlyFork_more {file : Bytes} {envp : List Bytes} {c c' c'' : Conn} {more : List Call}
    (h : OnlyFork file envp c c') (htr : c''.tr = c'.tr ++ more)
    (hmore : ∀ pid f env, Call.fork pid f env ∈ more → f = file ∧ env = envp) :
    OnlyFork file envp c c'' := by
  obtain ⟨calls, htr', hall⟩ := h
  refine ⟨calls ++ more, by rw [htr, htr', List.append_assoc], fun pid f env hx => ?_⟩
  cases List.mem_append.mp hx with
  | inl hx => exact hall pid f env hx
  | inr hx => exact hmore pid f env hx

theorem onlyFork_noFork {file : Bytes} {envp : List Bytes} {c c' c'' : Conn}
    (h : OnlyFork file envp c c') (h' : Adds Call.noFork c' c'') : OnlyFork file envp c c'' := by
  obtain ⟨more, htr, hno⟩ := h'
  exact onlyFork_more h htr fun pid f env hx => by cases hno _ hx

theorem zvCgiStart_fork (e : CgiStartEnv) (file name : Bytes) (query : Option Bytes) (c : Conn) :
    OnlyFork file (cgiEnvp file name query) c (zvCgiStart e file name query c).1 := by
  have hpipe : ∀ {c' : Conn} (a b : Fd), OnlyFork file (cgiEnvp file name query) c c' →
      OnlyFork file (cgiEnvp file name query) c (c'.emit [.pipe a b]) :=
    fun a b h => onlyFork_more h rfl (by simp)
  unfold zvCgiStart
  split
  · exact onlyFork_refl _ _ _
  · next inR inW hin =>
    have h₁ := hpipe inR inW (onlyFork_refl _ _ c)
    dsimp only
    split
    · exact onlyFork_more h₁ rfl (by simp)
    · next outR outW hout =>
      have h₂ := hpipe outR outW h₁
      split
      · exact onlyFork_more h₂ rfl (by simp)
      · next pid hpid =>
        have h₃ : OnlyFork file (cgiEnvp file name query) c
            (((c.emit [.pipe inR inW]).emit [.pipe outR outW]).emit
              [.fork pid file (cgiEnvp file name query), .close inR, .close outW]) :=
          onlyFork_more h₂ rfl (by simp)
        split
        · exact onlyFork_more h₃ rfl (by simp)
        · have hrest : ∀ p f env,
              Call.fork p f env ∈ [Call.close inW, .watchPipe, .addTimer c.r.requestTimeoutMs] →
              f = file ∧ env = cgiEnvp file name query := by simp
          refine onlyFork_more h₃ ?_ hrest
          simp [Conn.emit, Conn.watchPipe, Conn.addTimer]

theorem startScript_fork (e : PassEnv) (file : Bytes) (c : Conn) :
    OnlyFork file (cgiEnvp file (uriPath (c.r.inp.span c.r.inp.uriStart c.r.inp.uriEnd))
      (cgiQueryString (c.r.inp.span c.r.inp.uriStart c.r.inp.uriEnd))) c (startScript e file c).1 := by
  have hstat : ∀ {envp}, OnlyFork file envp c (c.emit [.stat file]) :=
    onlyFork_more (onlyFork_refl _ _ c) rfl (by simp)
  unfold startScript
  dsimp only
  split
  · exact onlyFork_noFork hstat (replyAndClose_noFork ..)
  · split
    · exact onlyFork_noFork hstat (replyAndClose_noFork ..)
    · split
      · exact onlyFork_noFork hstat (replyAndClose_noFork ..)
      · have hstart := zvCgiStart_fork e.start file
          (uriPath (c.r.inp.span c.r.inp.uriStart c.r.inp.uriEnd))
          (cgiQueryString (c.r.inp.span c.r.inp.uriStart c.r.inp.uriEnd)) (c.emit [.stat file])
        obtain ⟨calls, htr, hall⟩ := hstart
        split
        · next c₁ heq =>
          rw [heq] at htr
          exact onlyFork_more hstat htr hall
        · next c₁ heq =>
          rw [heq] at htr
          exact onlyFork_noFork (onlyFork_more hstat htr hall) (replyAndClose_noFork ..)

/-- A process that `handle_cgi_mvp` starts is the script of the URI, and its environment is made
of the URI. -/
theorem handleCgiMvp_fork {e : PassEnv} {c : Conn} {calls : List Call} {pid : Pid} {file : Bytes}
    {envp : List Bytes} (h : (handleCgiMvp e c).1.tr = c.tr ++ calls)
    (hmem : Call.fork pid file envp ∈ calls) :
    let uri := c.r.inp.span c.r.inp.uriStart c.r.inp.uriEnd
    cgiFilename c.r.root uri SHORTLINE = .ok file ∧
      envp = cgiEnvp file (uriPath uri) (cgiQueryString uri) := by
  intro uri
  have hnone : ∀ {c' : Conn}, Adds Call.noFork c c' → c'.tr = c.tr ++ calls → False := by
    rintro c' ⟨more, hmore, hno⟩ heq
    have hcalls := List.append_cancel_left (hmore.symm.trans heq)
    have hbad := hno (.fork pid file envp) (hcalls ▸ hmem)
    cases hbad
  unfold handleCgiMvp at h
  split at h
  · exact (hnone (adds_refl _ c) h).elim
  · dsimp only at h
    split at h
    · exact (hnone (adds_refl _ c) h).elim
    · split at h
      · exact (hnone (replyAndClose_noFork ..) h).elim
      · split at h
        · next page hpage =>
          have hno := replyAndClose_noFork e page
            { c with r := { c.r with inp := { c.r.inp with list := [] } } }
          exact (hnone hno h).elim
        · next f hfile =>
          obtain ⟨more, htr, hall⟩ := startScript_fork e f
            { c with r := { c.r with inp := { c.r.inp with list := [] } } }
          obtain rfl := List.append_cancel_left (htr.symm.trans h)
          obtain ⟨rfl, rfl⟩ := hall pid file envp hmem
          exact ⟨hfile, rfl⟩

/-- A request for a script that is found and can be started. -/
theorem handleCgiMvp_starts {e : PassEnv} {c : Conn} {uri file : Bytes} {sb : FileStat} {pid : Pid}
    {inPipe outPipe : Fd × Fd} (hs : c.r.inp.uriStart ≠ none) (he : c.r.inp.uriEnd ≠ none)
    (huri : c.r.inp.span c.r.inp.uriStart c.r.inp.uriEnd = uri) (hcgi : isCgiUri uri = true)
    (hm : c.r.inp.method = .get) (hfile : cgiFilename c.r.root uri SHORTLINE = .ok file)
    (hstat : e.stat = some sb) (hreg : sb.isReg = true) (hexec : sb.userExec = true)
    (hunder : isPathUnderRootReal e.realpath c.r.root file = true)
    (hstart : e.start = ⟨some inPipe, some outPipe, some pid, true⟩) :
    Call.fork pid file (cgiEnvp file (uriPath uri) (cgiQueryString uri)) ∈
      (handleCgiMvp e c).1.tr := by
  have hnone : ¬ (c.r.inp.uriStart = none ∨ c.r.inp.uriEnd = none) := fun hx => hx.elim hs he
  have hno : ¬ (sb.isReg = false ∨ sb.userExec = false) := by
    rw [hreg, hexec]
    exact fun hx => hx.elim (fun hx => by cases hx) fun hx => by cases hx
  subst huri
  unfold handleCgiMvp
  rw [if_neg hnone]
  dsimp only
  rw [if_neg (fun hx => by cases hx.symm.trans hcgi), if_neg (fun hx => hx hm), hfile]
  unfold startScript
  dsimp only [Conn.emit]
  rw [hstat]
  dsimp only
  rw [if_neg hno, if_neg (fun hx => by cases hx.symm.trans hunder), hstart]
  simp [zvCgiStart, Conn.emit, Conn.watchPipe, Conn.addTimer, Input.span]

/-! ### The path and the query -/

/-- A raw path that decodes has no NUL. -/
theorem noNul_of_decoded {s : Bytes} (hwell : wellEscaped s = true)
    (hclean : ∀ c ∈ unescape s, CleanByte c) : 0 ∉ s := by
  fun_induction wellEscaped s with
  | case1 => exact List.not_mem_nil
  | case2 h l rest ih =>
    rw [Bool.and_eq_true, Bool.and_eq_true] at hwell
    rw [unescape, if_pos rfl] at hclean
    have hdigit : Chunked.digitVal 0 = none := by decide
    intro hx
    rcases List.mem_cons.mp hx with hx | hx
    · exact absurd hx (by decide)
    · rcases List.mem_cons.mp hx with rfl | hx
      · rw [hdigit] at hwell
        cases hwell.1.1
      · rcases List.mem_cons.mp hx with rfl | hx
        · rw [hdigit] at hwell
          cases hwell.1.2
        · exact ih hwell.2 (fun c hc => hclean c (List.mem_cons_of_mem _ hc)) hx
  | case3 => cases hwell
  | case4 ch rest hch ih =>
    rw [unescape_plain hch] at hclean
    intro hx
    rcases List.mem_cons.mp hx with rfl | hx
    · exact (hclean 0 List.mem_cons_self).1 rfl
    · exact ih hwell (fun c hc => hclean c (List.mem_cons_of_mem _ hc)) hx

/-- The path of a URI that names a script is short and has no NUL. -/
theorem cgiFilename_path {root : Option Bytes} {uri file : Bytes} {cap : Nat}
    (h : cgiFilename root uri cap = .ok file) :
    (uriPath uri).length < SHORTLINE ∧ 0 ∉ uriPath uri := by
  unfold cgiFilename at h
  split at h
  · cases h
  · next hlen =>
    split at h
    · cases h
    · next decoded hdec =>
      obtain ⟨hwell, hclean, -, -⟩ := (percentDecode_iff (by decide)).mp hdec
      exact ⟨Nat.not_le.mp hlen, noNul_of_decoded hwell hclean⟩

theorem uriQuery_eq (uri : Bytes) : uriQuery uri = uri.drop ((uriPath uri).length + 1) := by
  unfold uriQuery uriPath
  have hsplit := List.takeWhile_append_dropWhile (p := (· != '?'.toUInt8)) (l := uri)
  have hdrop : uri.drop (uri.takeWhile (· != '?'.toUInt8)).length =
      uri.dropWhile (· != '?'.toUInt8) := by
    have hleft : (uri.takeWhile (· != '?'.toUInt8) ++ uri.dropWhile (· != '?'.toUInt8)).drop
        (uri.takeWhile (· != '?'.toUInt8)).length = uri.dropWhile (· != '?'.toUInt8) :=
      List.drop_left
    rw [hsplit] at hleft
    exact hleft
  rw [← List.drop_drop, hdrop, List.drop_one]

/-- What is handed to `zv_cgi_start` for the query. -/
theorem queryString_eq (uri : Bytes) :
    (cgiQueryString uri).getD [] = (uriQuery uri).take (SHORTLINE - 1) := by
  unfold cgiQueryString
  rw [uriQuery_eq]
  dsimp only
  split
  · rfl
  · next hno =>
    have hnil : uri.drop ((uriPath uri).length + 1) = [] := by
      by_contra hne
      have hpos := List.length_pos_iff.mpr hne
      refine hno ⟨?_, hpos⟩
      rw [List.length_drop] at hpos
      omega
    rw [hnil]
    rfl

/-- A variable whose entry was not cut. -/
theorem snprintf_entry {name value : Bytes} (hname : name.length ≤ 20) (hvalue : value.length ≤ 1000) :
    snprintf 1024 (name ++ value) = name ++ value :=
  snprintf_of_lt (by rw [List.length_append]; omega)

theorem getenv_query (file name : Bytes) (query : Option Bytes)
    (hlen : (cstr (query.getD [])).length ≤ 1000) :
    getenv (ascii "QUERY_STRING") (cgiEnvp file name query) = some (cstr (query.getD [])) := by
  unfold getenv cgiEnvp
  rw [snprintf_entry (by decide) hlen]
  rfl

theorem getenv_script (file name : Bytes) (query : Option Bytes) (hlen : (cstr name).length ≤ 1000)
    (hquery : (cstr (query.getD [])).length ≤ 1000) :
    getenv (ascii "SCRIPT_NAME") (cgiEnvp file name query) = some (cstr name) := by
  unfold getenv cgiEnvp
  rw [snprintf_entry (by decide) hlen, snprintf_entry (by decide) hquery]
  rfl

end CgiEnvironmentLemmas

open CgiEnvironmentLemmas

/-- For every process that `handle_cgi_mvp` starts: its environment has the query and the path of
the URI exactly when the query is shorter than 512 bytes and has no NUL. -/
theorem cgi_query_exact_iff {e : PassEnv} {c : Conn} {calls : List Call} {pid : Pid} {file : Bytes}
    {envp : List Bytes} (h : (handleCgiMvp e c).1.tr = c.tr ++ calls)
    (hmem : Call.fork pid file envp ∈ calls) :
    let uri := c.r.inp.span c.r.inp.uriStart c.r.inp.uriEnd
    (getenv (ascii "QUERY_STRING") envp = some (uriQuery uri) ∧
      getenv (ascii "SCRIPT_NAME") envp = some (uriPath uri)) ↔
    ((uriQuery uri).length < SHORTLINE ∧ 0 ∉ uriQuery uri) := by
  intro uri
  obtain ⟨hfile, rfl⟩ := handleCgiMvp_fork h hmem
  obtain ⟨hpath, hnul⟩ := cgiFilename_path hfile
  have hshort : SHORTLINE = 512 := rfl
  have hcut : ((uriQuery uri).take (SHORTLINE - 1)).length ≤ 511 := List.length_take_le _ _
  have hquery : (cstr ((cgiQueryString uri).getD [])).length ≤ 511 := by
    rw [queryString_eq]
    exact (List.takeWhile_sublist _).length_le.trans hcut
  have hname : (cstr (uriPath uri)).length ≤ 1000 := by
    rw [cstr_of_no_nul hnul]
    omega
  rw [getenv_query _ _ _ (hquery.trans (by decide)),
    getenv_script _ _ _ hname (hquery.trans (by decide)), cstr_of_no_nul hnul, queryString_eq]
  constructor
  · rintro ⟨heq, -⟩
    have heq := Option.some.inj heq
    refine ⟨?_, fun hx => ?_⟩
    · rw [← heq]
      exact Nat.lt_of_le_of_lt ((List.takeWhile_sublist _).length_le.trans hcut) (by decide)
    · rw [← heq] at hx
      simpa using List.mem_takeWhile_imp hx
  · rintro ⟨hlen, hno⟩
    rw [List.take_of_length_le (by omega), cstr_of_no_nul hno]
    exact ⟨rfl, rfl⟩

/-- A pass in which a script is found and started. -/
def startingPass : PassEnv :=
  { failingPass with
    stat := some { isReg := true, userRead := true, userExec := true, size := 0, mtime := 0 }
    realpath := some, start := ⟨some (10, 11), some (12, 13), some 42, true⟩ }

/-- A query that fits. -/
def shortQuery : Conn := parsedConn (ascii "GET /cgi-bin/x?a=1 HTTP/1.1\r\n\r\n")

/-- The environment that the script gets. -/
def shortEnvp : List Bytes :=
  cgiEnvp (ascii "/srv/cgi-bin/x") (ascii "/cgi-bin/x") (some (ascii "a=1"))

theorem cgi_query_exact_iff_short :
    Call.fork 42 (ascii "/srv/cgi-bin/x") shortEnvp ∈ (handleCgiMvp startingPass shortQuery).1.tr ∧
      getenv (ascii "QUERY_STRING") shortEnvp = some (ascii "a=1") ∧
      getenv (ascii "SCRIPT_NAME") shortEnvp = some (ascii "/cgi-bin/x") := by
  have hmem : Call.fork 42 (ascii "/srv/cgi-bin/x") shortEnvp ∈
      (handleCgiMvp startingPass shortQuery).1.tr := by decide +kernel
  have huri : shortQuery.r.inp.span shortQuery.r.inp.uriStart shortQuery.r.inp.uriEnd =
      ascii "/cgi-bin/x?a=1" := by decide +kernel
  have hiff := @cgi_query_exact_iff startingPass shortQuery _ 42 _ _ rfl hmem
  dsimp only at hiff
  rw [huri] at hiff
  exact ⟨hmem, hiff.mpr (by decide)⟩

/-- A request with a query of 512 bytes. -/
def longRequest : RequestText where
  line :=
    { lead := [], token := ascii "GET", gap := []
      uri := ascii "/cgi-bin/x?" ++ List.replicate 512 'a'.toUInt8, gap' := []
      major := ascii "1", minor := ascii "1", blanks := [], cr := true }
  headers := []

theorem longRequest_ok : longRequest.Ok where
  line :=
    { lead := fun _ hx => by cases hx
      token_ne := by decide +kernel
      token := by unfold IsTokenByte; decide +kernel
      gap := fun _ hx => by cases hx
      uri_head := rfl
      uri := by decide +kernel
      gap' := fun _ hx => by cases hx
      major_ne := by decide +kernel
      major := by decide +kernel
      major_head := by decide +kernel
      minor_ne := by decide +kernel
      minor := by decide +kernel
      blanks := fun _ hx => by cases hx }
  headers := ⟨(fun _ hl => by cases hl), fun _ hl => by cases hl⟩

/-- The parser accepts it, and the script gets all of the query but its last byte. -/
theorem cgi_query_cut : ∃ i,
    parsePhases ((zvInitRequestT Request.zero 7 ⟨some (ascii "/srv"), 0, 0⟩).inp.load
      (longRequest.render ++ [])) = (i, .ok) ∧
    ∃ c : Conn, c.r.inp = i ∧ ∃ pid file envp,
      Call.fork pid file envp ∈ (handleCgiMvp startingPass c).1.tr ∧
      getenv (ascii "QUERY_STRING") envp ≠ some (uriQuery (i.span i.uriStart i.uriEnd)) := by
  have hlen : (longRequest.render ++ []).length ≤ MAX_BUF := by decide +kernel
  obtain ⟨i, hparse, hshow⟩ := parse_fresh Request.zero 7 ⟨some (ascii "/srv"), 0, 0⟩ longRequest_ok hlen
  have huri : i.span i.uriStart i.uriEnd = longRequest.line.uri :=
    congrArg Served.uri hshow.served
  have hmethod : i.method = .get := by
    rw [hshow.method]
    rfl
  have hfile : cgiFilename shortQuery.r.root longRequest.line.uri SHORTLINE =
      .ok (ascii "/srv/cgi-bin/x") := by decide +kernel
  have hunder : isPathUnderRootReal startingPass.realpath shortQuery.r.root
      (ascii "/srv/cgi-bin/x") = true := by decide +kernel
  refine ⟨i, hparse, { shortQuery with r := { shortQuery.r with inp := i } }, rfl, 42,
    ascii "/srv/cgi-bin/x", _, handleCgiMvp_starts hshow.uriStart hshow.uriEnd huri
      (by decide +kernel) hmethod hfile rfl rfl rfl hunder rfl, ?_⟩
  rw [huri]
  decide +kernel

end Zaver
