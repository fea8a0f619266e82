import Zaver.Answer
import Zaver.PathSafety

/-!
# What the two branches open

The static branch and the CGI branch of `do_request` each build a file name under the
document root. `docroot_contained` says what these names look like.

Which branch a request takes is decided on the raw bytes of the URI, while the name is
made of the decoded and normalized path. `cgi_not_static_iff` says on which requests the
two agree about `/cgi-bin/`.
-/

namespace Zaver

open CString DotSegments PathSafetyLemmas SendCompleteLemmas AnswerLemmas

namespace ContainmentLemmas

/-! ### Look-ups -/

/-- A call that looks no file up. -/
def Call.noStat : Call → Bool
  | .stat _ => false
  | _ => true

theorem replyAndClose_noStat (e : PassEnv) (page : ErrorPage) (c : Conn) :
    Adds Call.noStat c (replyAndClose e page c).1 := by
  obtain ⟨calls, heq, hplain⟩ := replyAndClose_plain e page c
  refine ⟨calls, heq, fun x hx => ?_⟩
  cases x with
  | stat file => cases hplain _ hx
  | _ => rfl

theorem zvCgiStart_noStat {e : CgiStartEnv} {file name : Bytes} {query : Option Bytes}
    {c c₁ : Conn} {ok : Bool} (h : zvCgiStart e file name query c = (c₁, ok)) :
    Adds Call.noStat c c₁ := by
  rcases zvCgiStart_cases e file name query c with ⟨calls, hfail, heq⟩ | ⟨_, _, _, _, _, -, -, -, heq⟩
  · obtain ⟨rfl, -⟩ := Prod.mk.inj (heq.symm.trans h)
    refine ⟨calls, rfl, ?_⟩
    cases hfail <;> simp [Call.noStat]
  · obtain ⟨rfl, -⟩ := Prod.mk.inj (heq.symm.trans h)
    exact ⟨_, rfl, by simp [Call.noStat]⟩

/-- The only file that the CGI branch looks up is the one it was given. -/
theorem startScript_stat {e : PassEnv} {file f : Bytes} {c : Conn} {calls : List Call}
    (h : (startScript e file c).1.tr = c.tr ++ calls) (hmem : Call.stat f ∈ calls) : f = file := by
  have hno : Adds Call.noStat (c.emit [.stat file]) (startScript e file c).1 := by
    unfold startScript
    dsimp only
    split
    · exact replyAndClose_noStat ..
    · split
      · exact replyAndClose_noStat ..
      · split
        · exact replyAndClose_noStat ..
        · split
          · next c₁ heq => exact zvCgiStart_noStat heq
          · next c₁ heq => exact adds_trans (zvCgiStart_noStat heq) (replyAndClose_noStat ..)
  obtain ⟨more, hmore, hno⟩ := hno
  have hcalls : calls = .stat file :: more := by
    have hsum : c.tr ++ calls = c.tr ++ (.stat file :: more) := by
      rw [← h, hmore]
      simp [Conn.emit]
    exact List.append_cancel_left hsum
  rw [hcalls] at hmem
  cases List.mem_cons.mp hmem with
  | inl hx => exact Call.stat.inj hx
  | inr hx => cases hno _ hx

/-- A look-up of `handle_cgi_mvp` is of a name that `cgiFilename` made. -/
theorem handleCgiMvp_stat {e : PassEnv} {f : Bytes} {c : Conn} {calls : List Call}
    (h : (handleCgiMvp e c).1.tr = c.tr ++ calls) (hmem : Call.stat f ∈ calls) :
    cgiFilename c.r.root (c.r.inp.span c.r.inp.uriStart c.r.inp.uriEnd) SHORTLINE = .ok f := by
  have hnone : ∀ {c' : Conn}, Adds Call.noStat c c' → c'.tr = c.tr ++ calls → False := by
    rintro c' ⟨more, hmore, hno⟩ heq
    have hcalls := List.append_cancel_left (hmore.symm.trans heq)
    cases hno (.stat f) (hcalls ▸ hmem)
  unfold handleCgiMvp at h
  split at h
  · exact (hnone (adds_refl _ c) h).elim
  · dsimp only at h
    split at h
    · exact (hnone (adds_refl _ c) h).elim
    · split at h
      · exact (hnone (replyAndClose_noStat ..) h).elim
      · split at h
        · next page hpage =>
          refine (hnone ?_ h).elim
          have hno := replyAndClose_noStat e page
            { c with r := { c.r with inp := { c.r.inp with list := [] } } }
          exact hno
        · next file hfile =>
          have hfile' : cgiFilename c.r.root (c.r.inp.span c.r.inp.uriStart c.r.inp.uriEnd)
              SHORTLINE = .ok file := hfile
          rw [hfile', startScript_stat (c := { c with
            r := { c.r with inp := { c.r.inp with list := [] } } }) h hmem]

/-! ### The raw test -/

theorem parseUri_norm {root : Option Bytes} {uri file : Bytes} {cap : Nat}
    (h : parseUri root uri cap = some file) : ∃ norm, uriNorm uri = some norm := by
  unfold parseUri at h
  split at h
  · cases h
  · dsimp only at h
    split_ifs at h
    split at h
    · cases h
    · next decoded hd =>
      split at h
      · cases h
      · split at h
        · cases h
        · next path hpath =>
          obtain ⟨norm, hnorm, -⟩ := Option.bind_eq_some_iff.mp hpath
          exact ⟨norm, by rw [uriNorm, hd]; exact hnorm⟩

theorem isCgiUri_iff (uri : Bytes) : isCgiUri uri = true ↔ ascii "/cgi-bin/" <+: uriPath uri := by
  have hpre : uriPath uri <+: uri := List.takeWhile_prefix _
  have hlen : (ascii "/cgi-bin/").length = 9 := by decide
  unfold isCgiUri
  rw [Bool.and_eq_true, decide_eq_true_eq, cgiBin_iff]
  constructor
  · rintro ⟨hge, huri⟩
    exact List.prefix_of_prefix_length_le huri hpre (by rw [hlen]; exact hge)
  · intro h
    exact ⟨by rw [← hlen]; exact h.length_le, h.trans hpre⟩

theorem handleCgiMvp_not_iff {e : PassEnv} {c : Conn} (hs : c.r.inp.uriStart ≠ none)
    (he : c.r.inp.uriEnd ≠ none) :
    (handleCgiMvp e c).2 = .not ↔
      isCgiUri (c.r.inp.span c.r.inp.uriStart c.r.inp.uriEnd) = false := by
  have hnot : ¬ (c.r.inp.uriStart = none ∨ c.r.inp.uriEnd = none) := fun h => h.elim hs he
  unfold handleCgiMvp
  rw [if_neg hnot]
  dsimp only
  split
  · next hu => exact ⟨fun _ => hu, fun _ => rfl⟩
  · next hu =>
    refine ⟨fun h => ?_, fun h => absurd h hu⟩
    split at h
    · exact absurd h (replyAndClose_ne_not _ _ _)
    · split at h
      · exact absurd h (replyAndClose_ne_not _ _ _)
      · exact absurd h (startScript_ne_not _ _ _)

end ContainmentLemmas

open ContainmentLemmas

/-- Every file name is the document root followed by a path that stays under it. -/
theorem docroot_contained (root uri file : Bytes) (cap : Nat) :
    (parseUri (some root) uri cap = some file →
      ∃ path, SafePath path ∧
        file = cstr root ++ if (cstr root).getLast? = some SLASH then path.drop 1 else path) ∧
    ∀ (e : PassEnv) (c : Conn) (calls : List Call), c.r.root = some root →
      (handleCgiMvp e c).1.tr = c.tr ++ calls → Call.stat file ∈ calls →
      ∃ path, SafePath path ∧ ascii "/cgi-bin/" <+: path ∧ file = cstr root ++ path := by
  refine ⟨parseUri_safe, fun e c calls hroot htr hmem => ?_⟩
  have hfile := handleCgiMvp_stat htr hmem
  rw [hroot] at hfile
  exact cgiFilename_safe hfile

/-- A connection on which the bytes of one request were received and parsed. -/
def parsedConn (text : Bytes) : Conn :=
  let r := zvInitRequestT Request.zero 7 ⟨some (ascii "/srv"), 0, 0⟩
  { r := { r with inp := (parsePhases (r.inp.load text)).1 }
    sock := .off, pipe := .off, isOpen := true, tr := [] }

/-- The return value of the parsers there. -/
def parsedRc (text : Bytes) : ParseRc :=
  (parsePhases ((zvInitRequestT Request.zero 7 ⟨some (ascii "/srv"), 0, 0⟩).inp.load text)).2

/-- A pass in which every call fails. -/
def failingPass : PassEnv where
  read := .error
  malloc := false
  stat := none
  realpath := fun _ => none
  openAns := none
  send := ⟨[], []⟩
  start := ⟨none, none, none, false⟩
  outMtime := 0
  tmIsdst := fun _ => 0
  reaped := false

theorem docroot_contained_srv :
    (∃ path, SafePath path ∧ ascii "/srv/a/index.html" = cstr (ascii "/srv") ++
      if (cstr (ascii "/srv")).getLast? = some SLASH then path.drop 1 else path) ∧
    ∃ path, SafePath path ∧ ascii "/cgi-bin/" <+: path ∧
      ascii "/srv/cgi-bin/x" = cstr (ascii "/srv") ++ path :=
  ⟨(docroot_contained (ascii "/srv") (ascii "/b/../%61") _ SHORTLINE).1 (by decide +kernel),
    (docroot_contained (ascii "/srv") [] _ 0).2 failingPass
      (parsedConn (ascii "GET /cgi-bin/./x?q HTTP/1.1\r\n\r\n"))
      [.stat (ascii "/srv/cgi-bin/x")] rfl (by decide +kernel) (by decide +kernel)⟩

/-! ## Scripts as files -/

/-- A request that the raw test leaves to the static branch is not for a script, exactly
when its raw path begins with `/cgi-bin/` (and the test takes it) or its decoded path does
not enter `cgi-bin`. -/
theorem cgi_not_static_iff {e : PassEnv} {c : Conn} {file : Bytes}
    (hs : c.r.inp.uriStart ≠ none) (he : c.r.inp.uriEnd ≠ none)
    (hfile : parseUri c.r.root (c.r.inp.span c.r.inp.uriStart c.r.inp.uriEnd) SHORTLINE =
      some file) :
    ((handleCgiMvp e c).2 = .not →
      ∀ norm, uriNorm (c.r.inp.span c.r.inp.uriStart c.r.inp.uriEnd) = some norm →
        ¬ ascii "/cgi-bin/" <+: norm) ↔
    ascii "/cgi-bin/" <+: uriPath (c.r.inp.span c.r.inp.uriStart c.r.inp.uriEnd) ∨
      ¬ EntersCgiBin (unescape (uriPath (c.r.inp.span c.r.inp.uriStart c.r.inp.uriEnd))) := by
  rw [handleCgiMvp_not_iff hs he]
  generalize c.r.inp.span c.r.inp.uriStart c.r.inp.uriEnd = uri at hfile ⊢
  obtain ⟨norm, hnorm⟩ := parseUri_norm hfile
  rw [← isCgiUri_iff, ← uriNorm_cgiBin_iff hnorm]
  constructor
  · intro h
    cases hu : isCgiUri uri with
    | true => exact .inl rfl
    | false => exact .inr (h hu norm hnorm)
  · rintro (hu | hno) hnot norm' hnorm'
    · cases hu.symm.trans hnot
    · obtain rfl := Option.some.inj (hnorm.symm.trans hnorm')
      exact hno

theorem cgi_not_static_iff_index :
    ((handleCgiMvp failingPass (parsedConn (ascii "GET /a.html HTTP/1.1\r\n\r\n"))).2 = .not →
      ∀ norm, uriNorm (ascii "/a.html") = some norm → ¬ ascii "/cgi-bin/" <+: norm) ↔
    ascii "/cgi-bin/" <+: uriPath (ascii "/a.html") ∨
      ¬ EntersCgiBin (unescape (uriPath (ascii "/a.html"))) := by
  have huri : ascii "/a.html" = (parsedConn (ascii "GET /a.html HTTP/1.1\r\n\r\n")).r.inp.span
      (parsedConn (ascii "GET /a.html HTTP/1.1\r\n\r\n")).r.inp.uriStart
      (parsedConn (ascii "GET /a.html HTTP/1.1\r\n\r\n")).r.inp.uriEnd := by decide +kernel
  rw [huri]
  exact @cgi_not_static_iff _ _ (ascii "/srv/a.html") (by decide +kernel) (by decide +kernel)
    (by decide +kernel)

/-- The script `/cgi-bin/hello.sh` is served as a file when one letter of its path is
escaped. -/
theorem cgi_served_as_static :
    let text := ascii "GET /%63gi-bin/hello.sh HTTP/1.1\r\n\r\n"
    let c := parsedConn text
    let uri := c.r.inp.span c.r.inp.uriStart c.r.inp.uriEnd
    parsedRc text = .ok ∧ (handleCgiMvp failingPass c).2 = .not ∧
      parseUri c.r.root uri SHORTLINE = some (ascii "/srv/cgi-bin/hello.sh") ∧
      uriNorm uri = some (ascii "/cgi-bin/hello.sh") ∧
      ¬ ((handleCgiMvp failingPass c).2 = .not → ∀ norm, uriNorm uri = some norm →
        ¬ ascii "/cgi-bin/" <+: norm) := by
  intro text c uri
  have h1 : (handleCgiMvp failingPass c).2 = .not := by decide +kernel
  have h2 : uriNorm uri = some (ascii "/cgi-bin/hello.sh") := by decide +kernel
  exact ⟨by decide +kernel, h1, by decide +kernel, h2, fun h => h h1 _ h2 (by decide)⟩

end Zaver
