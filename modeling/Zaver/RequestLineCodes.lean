import Zaver.RefusedLine
import Zaver.RequestLine

/-!
# The codes of the request line

The grammar tells which `return` statement `zv_http_parse_request_line` reaches. A caller sees the
code only, and `ZV_HTTP_PARSE_INVALID_REQUEST` is the code of `ZV_AGAIN`: a string that leaves the
grammar behind the method is taken for one that has not come to its end
(`request_line_grammar_iff`). In front of the space behind the method the error has a code of its
own.
-/

namespace Zaver

open CString Scan

/-- A parser is called after each piece, as long as it returns the code `ZV_AGAIN`. -/
def feedByCode (parse : Input → Input × ParseRc) (i : Input) : List Bytes → Input × Int
  | [] => (i, ZV_AGAIN)
  | p :: ps =>
    let (i, rc) := parse (i.load p)
    if rc.code = ZV_AGAIN then feedByCode parse i ps else (i, rc.code)

namespace RequestLineCodesLemmas

open ParseResumeLemmas RefusedLineLemmas

/-- A refused line stays refused when more bytes follow. -/
theorem stuck_load {i : Input} (h : Stuck i) {bs : Bytes} (hroom : i.last + bs.length ≤ MAX_BUF) :
    Stuck (i.load bs) := by
  have hrc := h.refused
  rw [parseLine_eq] at hrc
  refine ⟨h.phase, h.unparsed.trans_le (Nat.le_add_right _ _), ?_⟩
  rw [parseLine_eq, lineParser.call_extend h.unparsed.le hroom (by rw [hrc]; exact fun hx => by cases hx)]
  exact hrc

theorem feedByCode_stuck {i : Input} (h : Stuck i) {ps : List Bytes}
    (hroom : i.last + ps.flatten.length ≤ MAX_BUF) :
    (feedByCode zvHttpParseRequestLine i ps).2 = ZV_AGAIN := by
  induction ps generalizing i with
  | nil => rfl
  | cons p ps ih =>
    rw [List.flatten_cons, List.length_append] at hroom
    have hs := @stuck_load i h p (by omega)
    have hlast := hs.window.2
    rw [feedByCode, hs.line]
    refine ih hs.again ?_
    rw [hlast]
    show i.last + p.length + _ ≤ MAX_BUF
    omega

/-- The calls by the codes are the calls by the `return` statements up to a line that is refused;
from there on the code is that of `ZV_AGAIN`. -/
theorem feedByCode_eq {i j : Input} {ps : List Bytes} {rc : ParseRc} (hph : i.parsePhase = .line)
    (hroom : i.last + ps.flatten.length ≤ MAX_BUF)
    (h : feedWith zvHttpParseRequestLine i ps = (j, rc)) :
    (rc ≠ .invalidRequest → feedByCode zvHttpParseRequestLine i ps = (j, rc.code)) ∧
      (rc = .invalidRequest → (feedByCode zvHttpParseRequestLine i ps).2 = ZV_AGAIN) := by
  induction ps generalizing i with
  | nil =>
    obtain ⟨rfl, rfl⟩ := Prod.mk.inj h
    exact ⟨fun _ => rfl, fun hx => by cases hx⟩
  | cons p ps ih =>
    rw [List.flatten_cons, List.length_append] at hroom
    have hframe := lineParser.call_frame (i.load p)
    obtain ⟨k, rc', hk⟩ : ∃ k rc', zvHttpParseRequestLine (i.load p) = (k, rc') := ⟨_, _, rfl⟩
    rw [← parseLine_eq, hk] at hframe
    have hphase : k.parsePhase = .line := (congrArg (fun x => x.2.2) hframe).trans hph
    have hlast : k.last = i.last + p.length := congrArg (fun x => x.2.1) hframe
    rw [feedWith, hk] at h
    rw [feedByCode, hk]
    cases rc' with
    | again => exact ih hphase (by omega) h
    | invalidRequest =>
      -- The loop takes the code for `ZV_AGAIN` and feeds the pieces that are left.
      obtain ⟨rfl, rfl⟩ := Prod.mk.inj h
      have hs : Stuck (i.load p) :=
        ⟨hph, refused_unparsed hk (fun hx => by cases hx) (fun hx => by cases hx), congrArg Prod.snd hk⟩
      have hagain := hs.again
      rw [hk] at hagain
      have hfits : k.last + ps.flatten.length ≤ MAX_BUF := by omega
      exact ⟨fun hx => absurd rfl hx, fun _ => feedByCode_stuck hagain hfits⟩
    | ok | invalidMethod | invalidHeader =>
      obtain ⟨rfl, rfl⟩ := Prod.mk.inj h
      exact ⟨fun _ => rfl, fun hx => by cases hx⟩

end RequestLineCodesLemmas

open RequestLineLemmas RequestLineCodesLemmas

/-! ## The language of the parser -/

/-- What the parser leaves and the code that it returns are told by the grammar: it returns
`ZV_OK` at offset `k` exactly when the first `k` bytes are a line of the grammar, and at most one
front is one; when no front is one, it returns `ZV_AGAIN` exactly if the string can be continued
to one, and an error code if not; on `ZV_OK` the spans of the method and of the URI are the parts
of the line. -/
structure ByGrammar (s : Bytes) (j : Input) (code : Int) : Prop where
  accepts : ∀ k, code = ZV_OK ∧ j.parsePos = k ↔ k ≤ s.length ∧ InGrammar (s.take k)
  unique : ∀ k k', k ≤ s.length → k' ≤ s.length → InGrammar (s.take k) → InGrammar (s.take k') →
    k = k'
  again : (∀ k ≤ s.length, ¬ InGrammar (s.take k)) → (code = ZV_AGAIN ↔ ∃ t, InGrammar (s ++ t))
  error : (∀ k ≤ s.length, ¬ InGrammar (s.take k)) → (¬ ∃ t, InGrammar (s ++ t)) →
    code ≠ ZV_OK ∧ code ≠ ZV_AGAIN
  spans : code = ZV_OK → ∀ l : RequestLine, l.Ok → l.render = s.take j.parsePos →
    j.span j.requestStart j.methodEnd = l.token ∧ j.span j.uriStart j.uriEnd = l.uri

/-- The string leaves the grammar behind a method and its space. -/
structure BrokenOff (s : Bytes) : Prop where
  method : MethodRead s
  noLine : ∀ k ≤ s.length, ¬ InGrammar (s.take k)
  noMore : ∀ t, ¬ InGrammar (s ++ t)

/-- For every byte string that fits the buffer, in whatever pieces it arrives on a new request, the
grammar tells what the parser returns, unless the string leaves it behind the method: there the
error code is `ZV_HTTP_PARSE_INVALID_REQUEST`, which is `ZV_AGAIN`. -/
theorem request_line_grammar_iff (old : Request) (fd : Fd) (cf : Conf) {s : Bytes}
    (hsize : s.length ≤ 8123) {ps : List Bytes} (hps : ps.flatten = s) {j : Input} {code : Int}
    (h : feedByCode zvHttpParseRequestLine (zvInitRequestT old fd cf).inp ps = (j, code)) :
    ByGrammar s j code ↔ ¬ BrokenOff s := by
  subst hps
  have hroom : (zvInitRequestT old fd cf).inp.last + ps.flatten.length ≤ MAX_BUF := by
    show 0 + _ ≤ _
    exact (Nat.zero_add _).le.trans (hsize.trans (by decide))
  obtain ⟨j', rc, hrc⟩ : ∃ j' rc,
      feedWith zvHttpParseRequestLine (zvInitRequestT old fd cf).inp ps = (j', rc) := ⟨_, _, rfl⟩
  obtain ⟨hsame, hstuck⟩ := feedByCode_eq rfl hroom hrc
  rw [h] at hsame hstuck
  cases feed_line hsize hrc with
  | more hex hno =>
    obtain ⟨rfl, rfl⟩ := Prod.mk.inj (hsame fun hx => by cases hx)
    refine ⟨fun _ hb => hex.elim hb.noMore, fun _ => ⟨fun k => ⟨(fun hx => by cases hx.1), ?_⟩,
      fun k _ hk _ hg _ => absurd hg (hno k hk), fun _ => ⟨fun _ => hex, fun _ => rfl⟩,
      fun _ hx => absurd hex hx, fun hx => by cases hx⟩⟩
    exact fun hx => absurd hx.2 (hno k hx.1)
  | done l u hl hu huniq hfields =>
    obtain ⟨rfl, rfl⟩ := Prod.mk.inj (hsame fun hx => by cases hx)
    have hpos := (hfields l hl u hu).pos
    have hle : l.render.length ≤ ps.flatten.length := by
      rw [hu, List.length_append]
      exact Nat.le_add_right _ _
    have hg : InGrammar (ps.flatten.take l.render.length) := ⟨l, hl, by rw [hu, List.take_left]⟩
    refine ⟨fun _ hb => hb.noLine _ hle hg, fun _ => ⟨fun k => ⟨?_, fun hx =>
        ⟨rfl, hpos.trans (huniq k hx.1 hx.2).symm⟩⟩,
      fun k k' hk hk' hgk hgk' => (huniq k hk hgk).trans (huniq k' hk' hgk').symm,
      fun hno => absurd hg (hno _ hle), fun hno => absurd hg (hno _ hle), fun _ l' hl' hr => ?_⟩⟩
    · rintro ⟨-, rfl⟩
      rw [hpos]
      exact ⟨hle, hg⟩
    · have hf := hfields l' hl' (ps.flatten.drop j.parsePos) (by rw [hr, List.take_append_drop])
      exact ⟨hf.method, hf.uri⟩
  | error _ herr hext hno hmethod =>
    rcases herr with rfl | rfl
    · -- `ZV_HTTP_PARSE_INVALID_METHOD` has a code of its own.
      obtain ⟨rfl, rfl⟩ := Prod.mk.inj (hsame fun hx => by cases hx)
      refine ⟨fun _ hb => ?_, fun _ => ⟨fun k => ⟨(fun hx => by cases hx.1), ?_⟩,
        fun k _ hk _ hg _ => absurd hg (hno k hk), fun _ => ⟨(fun hx => by cases hx), ?_⟩,
        fun _ _ => ⟨(fun hx => by cases hx), fun hx => by cases hx⟩, fun hx => by cases hx⟩⟩
      · cases hmethod.mpr hb.method
      · exact fun hx => absurd hx.2 (hno k hx.1)
      · exact fun hx => hx.elim fun t ht => absurd ht (hext t)
    · -- The code is `ZV_AGAIN`, and no byte string continues the line.
      obtain rfl : code = ZV_AGAIN := hstuck rfl
      refine ⟨fun hg => absurd rfl ((hg.error hno fun hx => hx.elim hext).2), fun hb => ?_⟩
      exact absurd ⟨hmethod.mp rfl, hno, hext⟩ hb

/-- A request line in two pieces, with an empty line in front of it. -/
theorem request_line_grammar_iff_hello :
    let ps := [ascii "\r\nGET  /a", ascii "b HTTP/1.1 \nHost"]
    let res := feedByCode zvHttpParseRequestLine (zvInitRequestT Request.zero 7 ⟨none, 0, 0⟩).inp ps
    ps.flatten.length ≤ 8123 ∧ res.2 = ZV_OK ∧
      (ByGrammar ps.flatten res.1 res.2 ↔ ¬ BrokenOff ps.flatten) := by
  intro ps res
  exact ⟨by decide, by decide +kernel,
    request_line_grammar_iff Request.zero 7 ⟨none, 0, 0⟩ (by decide) rfl rfl⟩

/-- A request line without a slash is refused with the code that asks for more bytes. -/
theorem request_line_refused_again :
    let s := ascii "GET x HTTP/1.1\r\n"
    let res := feedByCode zvHttpParseRequestLine (zvInitRequestT Request.zero 7 ⟨none, 0, 0⟩).inp [s]
    res.2 = ZV_AGAIN ∧ (∀ t, ¬ InGrammar (s ++ t)) ∧ ¬ ByGrammar s res.1 res.2 := by
  intro s res
  have hcode : res.2 = ZV_AGAIN := by decide +kernel
  obtain ⟨j', rc, hrc⟩ : ∃ j' rc, feedWith zvHttpParseRequestLine
      (zvInitRequestT Request.zero 7 ⟨none, 0, 0⟩).inp [s] = (j', rc) := ⟨_, _, rfl⟩
  have hbad : rc = .invalidRequest := by
    have hbad : (feedWith zvHttpParseRequestLine (zvInitRequestT Request.zero 7 ⟨none, 0, 0⟩).inp
        [s]).2 = .invalidRequest := by decide +kernel
    rw [hrc] at hbad
    exact hbad
  have hline := @feed_line Request.zero 7 ⟨none, 0, 0⟩ [s] _ _ (by decide) hrc
  rw [hbad] at hline
  cases hline with
  | error _ herr hext hno hmethod =>
    have hext' : ∀ t, ¬ InGrammar (s ++ t) := hext
    refine ⟨hcode, hext', fun hg => ?_⟩
    exact (hg.error hno fun hx => hx.elim hext').2 hcode

end Zaver
