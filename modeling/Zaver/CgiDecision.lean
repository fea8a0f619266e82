import Zaver.CgiHeaderLines
import Zaver.CgiOutput

/-!
# What a script's output decides

The pipe is read in pieces of any size, and the reader searches what it has collected
after each of them. What it decides does not depend on the pieces: `Answers` says for
each output how it is answered, in terms of the output alone.

Result: `cgi_answer_by_output_iff`. Every run of the callbacks comes to the answer due as soon as
it has read enough, unless the status is set by a number that is valid only once it went through
an `int` (`cgi_status_cut`).
-/

namespace Zaver

open CString Chunked Gather ChunkWriterLemmas CgiReaderLemmas CgiRelayLemmas CgiOutputLemmas
open CgiHeaderLinesLemmas

/-! ## The answer to an output -/

/-- The answer to a script: the connection is closed, a header made of the script's own lines
is sent in front of its body, or a plain text. -/
inductive CgiReply
  | close
  | header (status : Nat) (contentType : Bytes)
  | plain (status : Nat) (body : Bytes)

/-- The lines set the status: that of the last valid `Status:` line, 200 if there is none. -/
def DueStatus : List Bytes → Nat → Prop := LastOf ValidStatus 200

/-- The status of the lines, by the numbers that are valid as an `int`. -/
def ReadStatus : List Bytes → Nat → Prop := LastOf CutStatus 200

/-- The answer to the output `s`, where `Status` says which status its header lines set. -/
inductive Answers (Status : List Bytes → Nat → Prop) (s : Bytes) : CgiReply → Prop
  | header (b status : Nat) (contentType : Bytes) : FirstEnd s b → b ≤ CGI_HDR_SIZE →
      (∀ l ∈ splitLines (s.take b), l.length < 512) → Status (splitLines (s.take b)) status →
      LastOf FittingType (ascii "text/plain") (splitLines (s.take b)) contentType →
      Answers Status s (.header status contentType)
  | longLine (b : Nat) (l : Bytes) : FirstEnd s b → b ≤ CGI_HDR_SIZE →
      l ∈ splitLines (s.take b) → 512 ≤ l.length → Answers Status s .close
  | tooLong : (∀ b ≤ CGI_HDR_SIZE, ¬ FirstEnd s b) → CGI_HDR_SIZE ≤ s.length →
      Answers Status s .close
  | plain : (∀ b ≤ CGI_HDR_SIZE, ¬ FirstEnd s b) → s.length < CGI_HDR_SIZE → s ≠ [] →
      Answers Status s (.plain 200 s)
  | empty : s = [] → Answers Status s (.plain 500 (ascii "cgi produced no output\n"))

/-- The header of `s` sets one status, whether its numbers are taken as they are written or go
through an `int`. -/
def StatusKept (s : Bytes) : Prop :=
  ∀ b ≤ CGI_HDR_SIZE, FirstEnd s b → (∀ l ∈ splitLines (s.take b), l.length < 512) →
    ∃ status, DueStatus (splitLines (s.take b)) status ∧ ReadStatus (splitLines (s.take b)) status

/-- The reads so far take the output `s` from its front, and end of file is read behind it. -/
structure ReadsOf (s : Bytes) (reads : List Bytes) : Prop where
  front : reads.flatten <+: s
  eof : [] ∈ reads → reads.flatten = s

/-- Enough was read to decide: the first blank line, as much as the header buffer takes, or end
of file. -/
def Enough (s : Bytes) (reads : List Bytes) : Prop :=
  (∃ b ≤ CGI_HDR_SIZE, FirstEnd s b ∧ b ≤ reads.flatten.length) ∨
    CGI_HDR_SIZE ≤ reads.flatten.length ∨ [] ∈ reads

/-- No read of the pipe fails, other than by being interrupted or having nothing to read. -/
def NoReadError (evs : List CgiEvent) : Prop :=
  ∀ answers reaped, CgiEvent.stdoutReady answers reaped ∈ evs → Ans.error ∉ answers

/-- The connection has come to the answer `reply`. -/
def Replied (c : Conn) : CgiReply → Prop
  | .close => c.isOpen = false ∧ accepted c.tr = []
  | .header status contentType =>
    c.r.cgi.active = true ∧ builtHeader c.r.cgi = cgiHeaderText status contentType ∧
      accepted c.tr ++ owed c.r.cgi =
        cgiHeaderText status contentType ++ encode (pieces c.tr)
  | .plain status body =>
    c.r.cgi.active = true ∧ pieces c.tr = [body] ∧
      accepted c.tr ++ owed c.r.cgi = cgiHeaderText status (ascii "text/plain") ++ encode [body]

namespace CgiDecisionLemmas

/-! ### The lines of the header -/

/-- The status that the loop over the lines comes to. -/
def readStatus (lines : List Bytes) : Nat := (lines.filterMap parseStatusCode).getLast?.getD 200

/-- The type that the loop over the lines comes to. -/
def readType (lines : List Bytes) : Bytes :=
  (lines.filterMap (parseContentType · 256)).getLast?.getD (ascii "text/plain")

theorem readStatus_eq (lines : List Bytes) : ReadStatus lines (readStatus lines) :=
  lastOf_filterMap (fun _ _ => parseStatusCode_iff) _ _

theorem readType_eq (lines : List Bytes) :
    LastOf FittingType (ascii "text/plain") lines (readType lines) :=
  lastOf_filterMap (fun _ _ => parseContentType_iff) _ _

theorem getLast?_cons_getD {α : Type} (x : α) (xs : List α) (d : α) :
    (x :: xs).getLast?.getD d = xs.getLast?.getD x := by
  rw [List.getLast?_cons]
  rfl

theorem filterMap_getLast? {α β : Type} (f : α → Option β) (x : α) (xs : List α) (d : β) :
    ((x :: xs).filterMap f).getLast?.getD d = (xs.filterMap f).getLast?.getD ((f x).getD d) := by
  cases hf : f x with
  | none => rw [List.filterMap_cons_none hf, Option.getD_none]
  | some y => rw [List.filterMap_cons_some hf, getLast?_cons_getD, Option.getD_some]

theorem typeOf_unique {lines : List Bytes} {dflt v w : Bytes} (h : LastOf FittingType dflt lines v)
    (h' : LastOf FittingType dflt lines w) : v = w :=
  @LastOf.unique _ FittingType _ (fun _ _ _ => FittingType.unique) _ _ _ h h'

/-- The loop over the lines keeps the last of each kind. -/
theorem readCgiHeader_eq {lines : List Bytes} (h : ∀ l ∈ lines, l.length < 512) (status : Nat)
    (contentType : Bytes) :
    readCgiHeader status contentType lines =
      some ((lines.filterMap parseStatusCode).getLast?.getD status,
        (lines.filterMap (parseContentType · 256)).getLast?.getD contentType) := by
  induction lines generalizing status contentType with
  | nil => rfl
  | cons line rest ih =>
    have hrest := ih fun l hl => h l (List.mem_cons_of_mem _ hl)
    rw [readCgiHeader, filterMap_getLast?, filterMap_getLast?]
    split
    · rw [if_neg (by have := h line List.mem_cons_self; omega), hrest]
    · next hnil =>
      have hline : line = [] := List.length_eq_zero_iff.mp (by omega)
      have h1 : parseStatusCode [] = none := by decide
      have h2 : parseContentType [] 256 = none := by decide
      rw [hline, h1, h2, hrest]
      rfl

theorem readCgiHeader_none {lines : List Bytes} {l : Bytes} (hl : l ∈ lines) (hlong : 512 ≤ l.length)
    (status : Nat) (contentType : Bytes) : readCgiHeader status contentType lines = none := by
  induction lines generalizing status contentType with
  | nil => cases hl
  | cons line rest ih =>
    rw [readCgiHeader]
    cases List.mem_cons.mp hl with
    | inl heq =>
      subst heq
      rw [if_pos (by omega), if_pos hlong]
    | inr hrest =>
      split
      · split
        · rfl
        · exact ih hrest _ _
      · exact ih hrest _ _

theorem readStatus_lt (lines : List Bytes) : readStatus lines < 1000 := by
  unfold readStatus
  cases hl : (lines.filterMap parseStatusCode).getLast? with
  | none => decide
  | some code =>
    obtain ⟨line, -, hcode⟩ := List.mem_filterMap.mp (List.mem_of_getLast? hl)
    unfold parseStatusCode at hcode
    dsimp only at hcode
    split at hcode
    · split at hcode
      · next hrange =>
        obtain rfl := Option.some.inj hcode
        show (atoi _).toNat < 1000
        omega
      · cases hcode
    · cases hcode

theorem readType_lt (lines : List Bytes) :
    ((lines.filterMap (parseContentType · 256)).getLast?.getD []).length < 256 := by
  cases hl : (lines.filterMap (parseContentType · 256)).getLast? with
  | none => decide
  | some v =>
    obtain ⟨line, -, hv⟩ := List.mem_filterMap.mp (List.mem_of_getLast? hl)
    unfold parseContentType at hv
    dsimp only at hv
    split at hv
    · split at hv
      · cases hv
      · split at hv
        · cases hv
        · next hlt =>
          obtain rfl := Option.some.inj hv
          rw [Option.getD_some]
          omega
    · cases hv

/-- Without a type the text is plain. -/
theorem cgiHeaderText_type (status : Nat) (type : Option Bytes) :
    cgiHeaderText status (type.getD []) = cgiHeaderText status (type.getD (ascii "text/plain")) := by
  cases type with
  | none =>
    have hne : ascii "text/plain" ≠ [] := by decide
    unfold cgiHeaderText
    dsimp only [Option.getD_none]
    rw [if_pos rfl, if_neg hne]
  | some v => rfl

/-! ### The functions of the reader -/

/-- The header that the lines make. -/
theorem finishHeader_text {c : CgiState} {b : Nat} (hl : c.hdrLen ≤ CGI_HDR_SIZE)
    (hlines : ∀ l ∈ splitLines (c.hdrBuf.slice 0 b), l.length < 512) :
    (finishHeader c b).2.2 = .armClient ∧ (finishHeader c b).1.headersDone = true ∧
      (finishHeader c b).1.outTotal = c.outTotal ∧
      builtHeader (finishHeader c b).1 =
        cgiHeaderText (readStatus (splitLines (c.hdrBuf.slice 0 b)))
          (readType (splitLines (c.hdrBuf.slice 0 b))) := by
  generalize hls : splitLines (c.hdrBuf.slice 0 b) = lines at hlines
  have hread := readCgiHeader_eq hlines 200 []
  have hfits := cgiHeader_fits (readStatus_lt lines) (readType_lt lines)
  have htype : cgiHeaderText (readStatus lines)
      ((lines.filterMap (parseContentType · 256)).getLast?.getD []) =
      cgiHeaderText (readStatus lines) (readType lines) := cgiHeaderText_type _ _
  have hstatus : (lines.filterMap parseStatusCode).getLast?.getD 200 = readStatus lines := rfl
  rw [hstatus] at hread
  generalize (lines.filterMap (parseContentType · 256)).getLast?.getD [] = ct at hread hfits htype
  have htext : ∀ m : Mem UInt8, (m.write 0 (cgiHeaderText (readStatus lines) ct ++ [0])).slice 0
      (cgiHeaderText (readStatus lines) ct).length = cgiHeaderText (readStatus lines) ct := by
    intro m
    rw [Mem.slice_write_zero m _ (by simp), List.take_left]
  unfold finishHeader
  rw [hls, hread]
  dsimp only
  unfold buildHttpHeader
  dsimp only
  rw [if_neg (by omega)]
  dsimp only
  split
  · next hrem =>
    have hmin : ¬ c.hdrLen - b > CGI_BODY_SIZE := by
      have := hdr_le_body
      omega
    rw [if_neg hmin]
    rw [loadPiece_eq hrem (by omega)]
    exact ⟨rfl, rfl, rfl, (htext _).trans htype⟩
  · exact ⟨rfl, rfl, rfl, (htext _).trans htype⟩

theorem finishHeader_refuses {c : CgiState} {b : Nat} {l : Bytes}
    (hl : l ∈ splitLines (c.hdrBuf.slice 0 b)) (hlong : 512 ≤ l.length) :
    finishHeader c b = (c, [], .closeConn) := by
  unfold finishHeader
  rw [readCgiHeader_none hl hlong]

/-! ### What is known while the output comes in -/

/-- The CGI fields show the answer `reply`. -/
def Shows (c : CgiState) (reads ps : List Bytes) : CgiReply → Prop
  | .close => False
  | .header status contentType => builtHeader c = cgiHeaderText status contentType
  | .plain status body =>
    builtHeader c = cgiHeaderText status (ascii "text/plain") ∧ ps = [body] ∧ c.eof = true ∧
      [] ∈ reads

/-- The state of the reader after the reads `reads`: everything read is in the header buffer, or
the answer is decided. -/
structure Heading (c : CgiState) (reads ps : List Bytes) : Prop where
  total : c.outTotal = reads.flatten.length
  early : c.headersDone = false → Collected c reads.flatten ∧ [] ∉ reads
  done : c.headersDone = true → ∃ reply, Answers ReadStatus reads.flatten reply ∧ Shows c reads ps reply

theorem FirstEnd.append {s : Bytes} {b : Nat} (h : FirstEnd s b) (t : Bytes) :
    FirstEnd (s ++ t) b := by
  refine ⟨?_, ?_, fun b' hb' => ?_⟩
  · rw [List.length_append]
    exact Nat.le_add_right_of_le h.le
  · rw [List.take_append_of_le_length h.le]
    exact h.ends
  · rw [List.take_append_of_le_length (by have := h.le; omega)]
    exact h.first b' hb'

/-- A terminator within the first `k` bytes. -/
theorem firstEnd_take_iff {s : Bytes} {b k : Nat} : FirstEnd (s.take k) b ↔ FirstEnd s b ∧ b ≤ k := by
  constructor
  · intro h
    have hle := h.le
    rw [List.length_take] at hle
    have happ := FirstEnd.append h (s.drop k)
    rw [List.take_append_drop] at happ
    exact ⟨happ, by omega⟩
  · rintro ⟨h, hk⟩
    exact h.take hk

theorem headerEnd_none_iff (l : Bytes) : headerEnd l = none ↔ ∀ b, ¬ FirstEnd l b := by
  constructor
  · intro h b hb
    rw [(headerEnd_iff l b).mpr hb] at h
    cases h
  · intro h
    cases hs : headerEnd l with
    | none => rfl
    | some b => exact absurd ((headerEnd_iff l b).mp hs) (h b)

/-- No terminator ends within the header buffer. -/
theorem no_firstEnd {s : Bytes} (h : headerEnd (s.take CGI_HDR_SIZE) = none) :
    ∀ b ≤ CGI_HDR_SIZE, ¬ FirstEnd s b :=
  fun b hb hf => (headerEnd_none_iff _).mp h b (hf.take hb)

/-- An answer other than a plain text stands, whatever comes behind. -/
theorem Answers.append {Status : List Bytes → Nat → Prop} {s : Bytes} {reply : CgiReply}
    (h : Answers Status s reply) (hr : ∀ status body, reply ≠ .plain status body) (t : Bytes) :
    Answers Status (s ++ t) reply := by
  cases h with
  | header b status contentType hb hle hlines hst hct =>
    have htake : (s ++ t).take b = s.take b := List.take_append_of_le_length hb.le
    have ha := @Answers.header Status (s ++ t) b status contentType
      (FirstEnd.append hb t) hle
    rw [htake] at ha
    exact ha hlines hst hct
  | longLine b l hb hle hl hlong =>
    have htake : (s ++ t).take b = s.take b := List.take_append_of_le_length hb.le
    exact Answers.longLine b l (FirstEnd.append hb t) hle (htake.symm ▸ hl) hlong
  | tooLong hno hlen =>
    refine Answers.tooLong (fun b hb hf => ?_) (by rw [List.length_append]; omega)
    have hk := hf.take hb
    rw [List.take_append_of_le_length hlen] at hk
    exact hno b hb (firstEnd_take_iff.mp hk).1
  | plain => exact absurd rfl (hr _ _)
  | empty => exact absurd rfl (hr _ _)

/-- An output has one answer. -/
theorem Answers.unique {Status : List Bytes → Nat → Prop}
    (hS : ∀ ls m n, Status ls m → Status ls n → m = n) {s : Bytes} {r r' : CgiReply}
    (h : Answers Status s r) (h' : Answers Status s r') : r = r' := by
  have hnil : ∀ b, ¬ FirstEnd [] b := by
    intro b hb
    have h2 := two_le_of_endsHeader hb.ends
    rw [List.take_nil] at h2
    exact absurd h2 (by decide)
  have hsize : ¬ CGI_HDR_SIZE ≤ ([] : Bytes).length := by decide
  cases h with
  | header b status contentType hb hle hlines hst hct =>
    cases h' with
    | header b' status' contentType' hb' _ _ hst' hct' =>
      obtain rfl := hb.unique hb'
      rw [hS _ _ _ hst hst', typeOf_unique hct hct']
    | longLine b' l hb' _ hl hlong =>
      obtain rfl := hb.unique hb'
      exact absurd (hlines l hl) (by omega)
    | tooLong hno _ => exact absurd hb (hno b hle)
    | plain hno _ _ => exact absurd hb (hno b hle)
    | empty hs => exact absurd (hs ▸ hb) (hnil b)
  | longLine b l hb hle hl hlong =>
    cases h' with
    | header b' _ _ hb' _ hlines _ _ =>
      obtain rfl := hb.unique hb'
      exact absurd (hlines l hl) (by omega)
    | longLine => rfl
    | tooLong => rfl
    | plain hno _ _ => exact absurd hb (hno b hle)
    | empty hs => exact absurd (hs ▸ hb) (hnil b)
  | tooLong hno hlen =>
    cases h' with
    | header b _ _ hb hle _ _ _ => exact absurd hb (hno b hle)
    | longLine => rfl
    | tooLong => rfl
    | plain _ hlt _ => omega
    | empty hs => exact absurd (hs ▸ hlen) hsize
  | plain hno hlt hne =>
    cases h' with
    | header b _ _ hb hle _ _ _ => exact absurd hb (hno b hle)
    | longLine b l hb hle _ _ => exact absurd hb (hno b hle)
    | tooLong _ hlen => omega
    | plain => rfl
    | empty hs => exact absurd hs hne
  | empty hs =>
    subst hs
    cases h' with
    | header b _ _ hb _ _ _ _ => exact absurd hb (hnil b)
    | longLine b l hb _ _ _ => exact absurd hb (hnil b)
    | tooLong _ hlen => exact absurd hlen hsize
    | plain _ _ hne => exact absurd rfl hne
    | empty => rfl

/-- Every output has an answer. -/
theorem answers_exists {Status : List Bytes → Nat → Prop} (hS : ∀ ls, ∃ n, Status ls n)
    (s : Bytes) : ∃ reply, Answers Status s reply := by
  by_cases hfirst : ∃ b ≤ CGI_HDR_SIZE, FirstEnd s b
  · obtain ⟨b, hle, hb⟩ := hfirst
    by_cases hlines : ∀ l ∈ splitLines (s.take b), l.length < 512
    · obtain ⟨status, hst⟩ := hS (splitLines (s.take b))
      obtain ⟨contentType, hct⟩ :=
        lastOf_exists FittingType (ascii "text/plain") (splitLines (s.take b))
      exact ⟨_, .header b status contentType hb hle hlines hst hct⟩
    · push Not at hlines
      obtain ⟨l, hl, hlong⟩ := hlines
      exact ⟨_, .longLine b l hb hle hl hlong⟩
  · have hno : ∀ b ≤ CGI_HDR_SIZE, ¬ FirstEnd s b := fun b hle hb => hfirst ⟨b, hle, hb⟩
    by_cases hlen : CGI_HDR_SIZE ≤ s.length
    · exact ⟨_, .tooLong hno hlen⟩
    · by_cases hs : s = []
      · exact ⟨_, .empty hs⟩
      · exact ⟨_, .plain hno (by omega) hs⟩

/-! ### A read that brings bytes -/

/-- What a read behind `reads` leads to: the connection is refused for good, or the state still
agrees with what was read. -/
structure Decides (sent : Bytes) (reads ps : List Bytes)
    (res : CgiState × List Call × Option ReadExit) : Prop where
  refused : res.2.2 = some .closeConn → sent = [] ∧ Answers ReadStatus reads.flatten .close
  agrees : res.2.2 ≠ some .closeConn → Heading res.1 reads (ps ++ pieces res.2.1)

theorem Decides.refuse {sent : Bytes} {reads ps : List Bytes} {c : CgiState} {calls : List Call}
    (hs : sent = []) (h : Answers ReadStatus reads.flatten .close) :
    Decides sent reads ps (c, calls, some .closeConn) :=
  ⟨fun _ => ⟨hs, h⟩, fun hx => absurd rfl hx⟩

theorem Decides.agree {sent : Bytes} {reads ps : List Bytes} {c : CgiState} {calls : List Call}
    {e : Option ReadExit} (he : e ≠ some .closeConn)
    (h : Heading c reads (ps ++ pieces calls)) : Decides sent reads ps (c, calls, e) :=
  ⟨fun hx => absurd hx he, fun _ => h⟩

theorem collectHeader_decides {c : CgiState} {sent : Bytes} {ps : List Bytes}
    (h : Early c sent ps) {reads : List Bytes} {d : Bytes} (hd : d ≠ [])
    (hcol : Collected c reads.flatten) (heof : [] ∉ reads)
    (htot : c.outTotal = (reads ++ [d]).flatten.length) :
    Decides sent (reads ++ [d]) ps (collectHeader c d) := by
  have hslice := collected_slice (d := d) hcol
  have hflat : (reads ++ [d]).flatten = reads.flatten ++ d := by simp
  have hlen := hcol.len
  have hroom := hcol.room
  rw [← hflat] at hslice
  unfold collectHeader
  dsimp only
  generalize hn : (if d.length > CGI_HDR_SIZE - c.hdrLen
    then CGI_HDR_SIZE - c.hdrLen else d.length) = n at hslice ⊢
  have hle : c.hdrLen + n ≤ CGI_HDR_SIZE := by split at hn <;> omega
  rw [findHeaderEnd_eq, hslice]
  cases hend : headerEnd ((reads ++ [d]).flatten.take CGI_HDR_SIZE) with
  | some b =>
    obtain ⟨hfirst, hb⟩ := firstEnd_take_iff.mp ((headerEnd_iff _ _).mp hend)
    -- The lines are those of the output.
    have htake : (c.hdrBuf.write c.hdrLen (d.take n)).slice 0 b =
        (reads ++ [d]).flatten.take b := by
      have hlen' := congrArg List.length hslice
      have hble := ((headerEnd_iff _ _).mp hend).le
      rw [Mem.length_slice] at hlen'
      have hsub := congrArg (List.take b) hslice
      rw [Mem.take_slice _ (by omega), Nat.zero_add, List.take_take, Nat.min_eq_left hb] at hsub
      exact hsub
    dsimp only
    by_cases hlines : ∀ l ∈ splitLines ((reads ++ [d]).flatten.take b), l.length < 512
    · obtain ⟨hexit, hdone, hout, htext⟩ := finishHeader_text
        (c := { c with hdrBuf := c.hdrBuf.write c.hdrLen (d.take n), hdrLen := c.hdrLen + n })
        (b := b) hle (by dsimp only; rw [htake]; exact hlines)
      dsimp only at htext
      rw [htake] at htext
      rw [hexit]
      refine Decides.agree (fun hx => by cases hx) ⟨hout.trans htot,
        fun hx => absurd (hdone.symm.trans hx) (by decide), fun _ => ?_⟩
      exact ⟨_, .header b _ _ hfirst hb hlines (readStatus_eq _) (readType_eq _), htext⟩
    · push Not at hlines
      obtain ⟨l, hl, hlong⟩ := hlines
      rw [finishHeader_refuses (l := l) (by dsimp only; rw [htake]; exact hl) hlong]
      exact Decides.refuse h.sentNil (.longLine b l hfirst hb hl hlong)
  | none =>
    have hno := no_firstEnd hend
    dsimp only
    split
    · next hfull =>
      refine Decides.refuse h.sentNil (.tooLong hno ?_)
      rw [hflat, List.length_append]
      split at hn <;> omega
    · next hfull =>
      have hshort : (reads ++ [d]).flatten.length < CGI_HDR_SIZE := by
        rw [hflat, List.length_append]
        split at hn <;> omega
      rw [List.take_of_length_le (Nat.le_of_lt hshort)] at hslice hend
      refine Decides.agree (fun hx => by cases hx)
        ⟨htot, fun _ => ⟨⟨hslice, ?_, hshort, hend⟩, ?_⟩, fun hx => ?_⟩
      · have hl := congrArg List.length hslice
        rw [Mem.length_slice] at hl
        exact hl
      · rw [List.mem_append, List.mem_singleton]
        rintro (hmem | hmem)
        · exact heof hmem
        · exact hd hmem.symm
      · exact absurd (h.notDone.symm.trans hx) (by decide)

theorem onPipeBytes_decides {c : CgiState} {sent : Bytes} {ps : List Bytes} (h : Relay c sent ps)
    (hb : c.bodyLen = 0) (he : c.eof = false) {reads : List Bytes} {d : Bytes} (hd : d ≠ [])
    (hlen : d.length ≤ CGI_BODY_SIZE) (hh : Heading c reads ps)
    (hlim : (reads ++ [d]).flatten.length ≤ c.outLimit) :
    Decides sent (reads ++ [d]) ps (onPipeBytes c d) := by
  have htot : c.outTotal + d.length = (reads ++ [d]).flatten.length := by
    simp [hh.total]
  have hr1 := (ready_of_balanced h.toBalanced hb he).scratch c.outFd c.eof (c.outTotal + d.length)
    c.headersDone c.hdrBuf c.hdrLen (c.bodyBuf.write 0 d)
  have hrel1 := hr1.relay (fun hx => ⟨(h.early hx).1, (h.early hx).2.2⟩) h.fdOpen h.hdrRoom
  unfold onPipeBytes
  dsimp only
  rw [if_neg (by omega)]
  split
  · next hdone =>
    obtain ⟨hcol, heof⟩ := hh.early hdone
    exact collectHeader_decides (early_of_relay hrel1 hdone) hd
      ⟨hcol.bytes, hcol.len, hcol.room, hcol.incomplete⟩ heof htot
  · next hdone =>
    have hdone : c.headersDone = true := by simpa using hdone
    rw [loadPiece_eq (List.length_pos_iff.mpr hd) hlen]
    refine Decides.agree (fun hx => by cases hx) ⟨htot,
      fun hx => absurd (hdone.symm.trans hx) (by decide), fun _ => ?_⟩
    obtain ⟨reply, hans, hshow⟩ := hh.done hdone
    cases reply with
    | close => exact absurd hshow id
    | header status contentType =>
      refine ⟨.header status contentType, ?_, hshow⟩
      rw [List.flatten_append]
      exact Answers.append hans (fun _ _ hx => by cases hx) _
    | plain status body => exact absurd (he.symm.trans hshow.2.2.1) (by decide)

/-! ### End of file -/

/-- A body of the server's own, with the header in front of it. -/
theorem loadMessage_text {c : CgiState} {status : Nat} (hs : status < 1000) {msg : Bytes}
    (hpos : 0 < msg.length) (hle : msg.length ≤ CGI_BODY_SIZE) :
    (loadMessage c status msg).2.2 = .armClient ∧
      builtHeader (loadMessage c status msg).1 = cgiHeaderText status (ascii "text/plain") ∧
      (loadMessage c status msg).1.outTotal = c.outTotal ∧
      (loadMessage c status msg).1.headersDone = true ∧
      pieces (loadMessage c status msg).2.1 = [msg] := by
  have hfits := plainHeader_fits hs
  unfold loadMessage buildHttpHeader
  dsimp only
  rw [if_neg (by omega)]
  dsimp only
  rw [loadPiece_eq hpos hle]
  refine ⟨rfl, ?_, rfl, rfl, ?_⟩
  · unfold builtHeader
    dsimp only
    rw [Mem.slice_write_zero _ _ (by simp), List.take_left]
  · dsimp only
    rw [Mem.slice_write_zero _ _ (Nat.le_refl _), List.take_of_length_le (Nat.le_refl _)]
    rfl

theorem onPipeEof_decides {c : CgiState} {sent : Bytes} {ps : List Bytes} (h : Relay c sent ps)
    (hb : c.bodyLen = 0) (he : c.eof = false) {reads : List Bytes} (hh : Heading c reads ps) :
    Heading (onPipeEof c).1 (reads ++ [[]]) (ps ++ pieces (onPipeEof c).2.1) := by
  have heof := (onPipeEof_onEof h hb he).eof
  have hflat : (reads ++ [[]]).flatten = reads.flatten := by simp
  have hmem : [] ∈ reads ++ [([] : Bytes)] := List.mem_append_right _ List.mem_cons_self
  have hbody := hdr_le_body
  unfold onPipeEof at heof ⊢
  dsimp only at heof ⊢
  by_cases hd : c.headersDone = false
  · obtain ⟨hcol, -⟩ := hh.early hd
    obtain ⟨-, -, hps, -⟩ := h.early hd
    have hlen := hcol.len
    have hroom := hcol.room
    have hno : ∀ b ≤ CGI_HDR_SIZE, ¬ FirstEnd reads.flatten b := fun b _ =>
      (headerEnd_none_iff _).mp hcol.incomplete b
    rw [if_pos hd] at heof ⊢
    subst hps
    split
    · next hpos =>
      rw [if_neg (by omega)]
      rw [if_pos hpos, if_neg (by omega)] at heof
      rw [hcol.bytes] at heof ⊢
      obtain ⟨harm, htext, htot, hdone, hps⟩ := loadMessage_text
        (c := { c with eof := true, outFd := none }) (show 200 < 1000 by decide)
        (show 0 < reads.flatten.length by omega) (by omega)
      generalize loadMessage { c with eof := true, outFd := none } 200 reads.flatten = res at *
      obtain ⟨c1, calls, e⟩ := res
      dsimp only at harm
      subst harm
      refine ⟨hflat ▸ htot.trans hh.total, fun hx => absurd (hdone.symm.trans hx) (by decide),
        fun _ => ⟨.plain 200 reads.flatten, ?_, htext, ?_, heof, hmem⟩⟩
      · rw [hflat]
        exact .plain hno hroom (List.ne_nil_of_length_pos (by omega))
      · dsimp only
        rw [pieces_append, pieces_closeFd]
        exact hps
    · next hpos =>
      rw [if_neg hpos] at heof
      obtain ⟨harm, htext, htot, hdone, hps⟩ := loadMessage_text
        (c := { c with eof := true, outFd := none }) (show 500 < 1000 by decide)
        (show 0 < (ascii "cgi produced no output\n").length by decide) (by decide)
      generalize loadMessage { c with eof := true, outFd := none } 500
        (ascii "cgi produced no output\n") = res at *
      obtain ⟨c1, calls, e⟩ := res
      refine ⟨hflat ▸ htot.trans hh.total, fun hx => absurd (hdone.symm.trans hx) (by decide),
        fun _ => ⟨.plain 500 (ascii "cgi produced no output\n"), ?_, htext, ?_, heof, hmem⟩⟩
      · rw [hflat]
        exact .empty (List.eq_nil_of_length_eq_zero (by omega))
      · dsimp only
        rw [pieces_append, pieces_closeFd]
        exact hps
  · rw [if_neg hd]
    have hd : c.headersDone = true := by simpa using hd
    obtain ⟨_, _, _, _, _, _, _, _, _, hfr⟩ :=
      ensureFinalChunk_frame { c with eof := true, outFd := none }
    rw [hfr]
    refine ⟨hflat ▸ hh.total, fun hx => absurd (hd.symm.trans hx) (by decide), fun _ => ?_⟩
    obtain ⟨reply, hans, hshow⟩ := hh.done hd
    refine ⟨reply, hflat.symm ▸ hans, ?_⟩
    cases reply with
    | close => exact hshow
    | header status contentType => exact hshow
    | plain status body => exact absurd (he.symm.trans hshow.2.2.1) (by decide)

/-! ### The loop -/

/-- The loop, on answers without a failed read. -/
theorem readerLoop_decides {c : CgiState} {sent : Bytes} {ps : List Bytes} (h : Relay c sent ps)
    (hfd : c.outFd ≠ none) {reads : List Bytes} (hh : Heading c reads ps)
    {answers : List (Ans Bytes)} (hok : Ans.error ∉ answers)
    (hlim : (reads ++ pipeReads (readerLoop c answers).2.1).flatten.length ≤ c.outLimit) :
    Decides sent (reads ++ pipeReads (readerLoop c answers).2.1) ps
      ((readerLoop c answers).1, (readerLoop c answers).2.1, some (readerLoop c answers).2.2) := by
  have hstay : ∀ {c : CgiState} {reads : List Bytes} {e : ReadExit}, Heading c reads ps →
      e ≠ .closeConn → Decides sent (reads ++ pipeReads []) ps (c, [], some e) := by
    intro c reads e hh he
    refine Decides.agree (fun hx => he (Option.some.inj hx)) ?_
    rw [pieces_nil, List.append_nil]
    exact (List.append_nil reads).symm ▸ hh
  induction answers generalizing c reads with
  | nil =>
    unfold readerLoop
    split
    · exact hstay hh (fun hx => by cases hx)
    · exact hstay hh (fun hx => by cases hx)
  | cons a answers ih =>
    have he := h.fdOpen hfd
    have hok' : Ans.error ∉ answers := fun hx => hok (List.mem_cons_of_mem _ hx)
    unfold readerLoop at hlim ⊢
    split at hlim
    · next hu =>
      rw [if_pos hu]
      exact hstay hh (fun hx => by cases hx)
    · next hu =>
      rw [if_neg hu]
      have hu : unsentChunk c = false := by simpa using hu
      have hb := bodyLen_of_not_unsent h.writer hu
      cases a with
      | ok bs =>
        dsimp only at hlim ⊢
        have hlen : (bs.take CGI_BODY_SIZE).length ≤ CGI_BODY_SIZE := by simp
        generalize bs.take CGI_BODY_SIZE = d at hlim hlen ⊢
        split at hlim
        · next hd =>
          subst hd
          rw [if_pos rfl]
          have harms := (onPipeEof_onEof h hb he).arms
          have hnoRead := (onPipeEof_onEof h hb he).noRead
          have hhead := onPipeEof_decides h hb he hh
          generalize onPipeEof c = res at *
          obtain ⟨c', calls, e⟩ := res
          dsimp only at harms hnoRead hhead ⊢
          subst harms
          rw [pipeReads_pipeRead, hnoRead]
          exact Decides.agree (fun hx => by cases hx) hhead
        · next hd =>
          rw [if_neg hd]
          have hon := onPipeBytes_onBytes h hb he hd hlen
          have hdec := @onPipeBytes_decides c sent ps h hb he reads d hd hlen hh
          generalize onPipeBytes c d = res at *
          obtain ⟨c', calls, e⟩ := res
          cases e with
          | some e =>
            dsimp only at hlim ⊢
            rw [pipeReads_pipeRead, hon.noRead] at hlim ⊢
            exact ⟨(hdec hlim).refused, (hdec hlim).agrees⟩
          | none =>
            obtain ⟨rfl, -⟩ := hon.goesOn rfl
            have hrel := hon.relay
            dsimp only at hlim hrel ⊢
            rw [pieces_nil, List.append_nil] at hrel
            have happ : reads ++ pipeReads (.pipeRead d :: [] ++ (readerLoop c' answers).2.1) =
                reads ++ [d] ++ pipeReads (readerLoop c' answers).2.1 := by
              rw [List.append_assoc]
              rfl
            have hps : pieces (.pipeRead d :: [] ++ (readerLoop c' answers).2.1) =
                pieces (readerLoop c' answers).2.1 := rfl
            rw [happ] at hlim ⊢
            have hhead : Heading c' (reads ++ [d]) ps := by
              have hx := hdec (by
                rw [List.flatten_append, List.length_append] at hlim
                omega)
              have hx := hx.agrees (fun hc => by cases hc)
              rw [pieces_nil, List.append_nil] at hx
              exact hx
            have hrec := ih hrel (hon.outFd ▸ hfd) hhead hok' (hon.outLimit ▸ hlim)
            exact ⟨hrec.refused, fun hx => hps ▸ hrec.agrees hx⟩
      | eintr => exact ih h hfd hh hok' hlim
      | eagain => exact hstay hh (fun hx => by cases hx)
      | error => exact absurd List.mem_cons_self hok

/-! ### The connection -/

/-- The connection of a running script: it is open and agrees with what was read, or it was
closed without an answer. -/
def Deciding (c : Conn) : Prop :=
  (c.r.cgi.active = true ∧ Heading c.r.cgi (pipeReads c.tr) (pieces c.tr)) ∨
    (c.isOpen = false ∧ c.r.cgi.active = false ∧ accepted c.tr = [] ∧
      Answers ReadStatus (pipeReads c.tr).flatten .close)

theorem deciding_started {c : Conn} (h : Started c) : Deciding c := by
  obtain ⟨htr, old, fd, cf, pid, outR, hst⟩ := started_cgi h
  rw [Deciding, hst, htr]
  refine Or.inl ⟨rfl, rfl, fun _ => ⟨⟨rfl, rfl, by decide, by decide⟩, List.not_mem_nil⟩, ?_⟩
  exact fun hx => by cases hx

/-- Calls that move no bytes change nothing. -/
theorem deciding_quiet {c c' : Conn} (h : c.r.cgi.active = true)
    (hh : Heading c.r.cgi (pipeReads c.tr) (pieces c.tr)) {t : List Call} (hq : Quiet t)
    (htr : c'.tr = c.tr ++ t) (hcgi : c'.r.cgi = c.r.cgi) : Deciding c' := by
  refine Or.inl ⟨hcgi ▸ h, ?_⟩
  rw [htr, hcgi, pipeReads_append, pieces_append, hq.pieces, hq.pipeReads, List.append_nil,
    List.append_nil]
  exact hh

theorem deciding_stdoutReady {c : Conn} (h : CgiInv c) (hc : Deciding c)
    {answers : List (Ans Bytes)} (hok : Ans.error ∉ answers) (reaped : Bool)
    (hlim : (pipeReads (zvCgiOnStdoutReady answers reaped c).1.tr).flatten.length ≤
      c.r.cgi.outLimit) :
    Deciding (zvCgiOnStdoutReady answers reaped c).1 ∧
      (zvCgiOnStdoutReady answers reaped c).1.r.cgi.outLimit = c.r.cgi.outLimit := by
  unfold zvCgiOnStdoutReady at hlim ⊢
  split at hlim
  · next hclosed =>
    rw [if_pos hclosed]
    exact ⟨hc, rfl⟩
  · next hopen =>
    rw [if_neg hopen]
    have hact : c.r.cgi.active = true := by
      cases hx : c.r.cgi.active with
      | false => exact absurd (Or.inl hx) hopen
      | true => rfl
    have hfd : c.r.cgi.outFd ≠ none := fun hx => hopen (Or.inr hx)
    have hh : Heading c.r.cgi (pipeReads c.tr) (pieces c.tr) := by
      cases hc with
      | inl hrun => exact hrun.2
      | inr hoff => exact absurd (hact.symm.trans hoff.2.1) (by decide)
    have hspec := readerLoop_spec h.relay hfd answers
    have hdec := @readerLoop_decides c.r.cgi _ _ h.relay hfd _ hh answers hok
    have hsame : c.delTimer.r.cgi = c.r.cgi := rfl
    dsimp only at hlim ⊢
    rw [hsame] at hlim ⊢
    generalize readerLoop c.r.cgi answers = res at *
    obtain ⟨cgi, calls, e⟩ := res
    dsimp only at hlim hspec hdec ⊢
    generalize hc1 : (if cgi.outFd = none then _ else _ : Conn) = c1 at hlim ⊢
    have htr : c1.tr = c.tr ++ [.delTimer] ++ calls := by
      rw [← hc1]
      split <;> rfl
    have hcgi : c1.r.cgi = cgi := by
      rw [← hc1]
      split <;> rfl
    have hreads : pipeReads c1.tr = pipeReads c.tr ++ pipeReads calls := by
      rw [htr, pipeReads_append, pipeReads_append]
      exact congrArg (· ++ _) (List.append_nil _)
    have hps : pieces c1.tr = pieces c.tr ++ pieces calls := by
      rw [htr, pieces_append, pieces_append]
      exact congrArg (· ++ _) (List.append_nil _)
    have hagree : e ≠ .closeConn →
        (pipeReads c.tr ++ pipeReads calls).flatten.length ≤ c.r.cgi.outLimit →
        c1.r.cgi.active = true ∧ Heading c1.r.cgi (pipeReads c1.tr) (pieces c1.tr) := by
      intro he hl
      rw [hcgi, hreads, hps]
      exact ⟨hspec.active.trans hact, (hdec hl).agrees fun hx => he (Option.some.inj hx)⟩
    have hlimit : c1.r.cgi.outLimit = c.r.cgi.outLimit := by
      rw [hcgi]
      exact hspec.outLimit
    cases e with
    | armClient =>
      have hrd : pipeReads ((c1.rearmEvent .epollout).addTimer c1.r.requestTimeoutMs).tr =
          pipeReads c.tr ++ pipeReads calls := by
        rw [← hreads]
        simp [Conn.addTimer, Conn.rearmEvent, Conn.emit, pipeReads]
      obtain ⟨ha, hhead⟩ := hagree (fun hx => by cases hx) (hrd ▸ hlim)
      exact ⟨deciding_quiet ha hhead (t := [.rearm .epollout, .addTimer _]) ⟨rfl, rfl, rfl⟩
        (List.append_assoc _ _ _) rfl, hlimit⟩
    | rearmPipe =>
      dsimp only at hlim ⊢
      split at hlim
      · next hw =>
        rw [if_pos hw]
        have hrd : pipeReads (c1.watchPipe.addTimer c1.watchPipe.r.requestTimeoutMs).tr =
            pipeReads c.tr ++ pipeReads calls := by
          rw [← hreads]
          simp [Conn.addTimer, Conn.watchPipe, Conn.emit, pipeReads]
        obtain ⟨ha, hhead⟩ := hagree (fun hx => by cases hx) (hrd ▸ hlim)
        exact ⟨deciding_quiet ha hhead (t := [.watchPipe, .addTimer _]) ⟨rfl, rfl, rfl⟩
          (List.append_assoc _ _ _) rfl, hlimit⟩
      · next hw =>
        rw [if_neg hw]
        have hrd : pipeReads (c1.addTimer c1.r.requestTimeoutMs).tr =
            pipeReads c.tr ++ pipeReads calls := by
          rw [← hreads]
          simp [Conn.addTimer, Conn.emit, pipeReads]
        obtain ⟨ha, hhead⟩ := hagree (fun hx => by cases hx) (hrd ▸ hlim)
        exact ⟨deciding_quiet ha hhead (t := [.addTimer _]) ⟨rfl, rfl, rfl⟩ rfl rfl, hlimit⟩
    | closeConn =>
      dsimp only at hlim ⊢
      obtain ⟨more, hquiet, hmore⟩ := zvHttpCloseConn_tr reaped c1
      have hrd : pipeReads (zvHttpCloseConn reaped c1).tr =
          pipeReads c.tr ++ pipeReads calls := by
        rw [hmore, pipeReads_append, hquiet.pipeReads, List.append_nil, hreads]
      obtain ⟨hs, hans⟩ := (hdec (hrd ▸ hlim)).refused rfl
      refine ⟨Or.inr ⟨rfl, ?_, ?_, hrd.symm ▸ hans⟩, ?_⟩
      · rw [(zvHttpCloseConn_cgi reaped c1).1]
      · rw [hmore, htr, accepted_append, accepted_append, accepted_append, hs, hspec.silent,
          hquiet.accepted]
        rfl
      · rw [(zvHttpCloseConn_cgi reaped c1).1]
        exact hlimit
    | inCall =>
      exact ⟨Or.inl (hagree (fun hx => by cases hx) (hreads ▸ hlim)), hlimit⟩

/-- The writer leaves alone what the reader decided. -/
theorem writerLoop_heading {c : CgiState} {sent : Bytes} {ps reads : List Bytes}
    (h : Relay c sent ps) (hh : Heading c reads ps) (answers : List (Ans Nat)) :
    Heading (writerLoop c answers).1 reads ps := by
  by_cases hd : c.headersDone = true
  · obtain ⟨_, _, _, _, _, _, _, _, _, hfr⟩ := (writerLoop_spec h.writer answers).frame
    rw [hfr]
    refine ⟨hh.total, fun hx => absurd (hd.symm.trans hx) (by decide), fun _ => ?_⟩
    obtain ⟨reply, hans, hshow⟩ := hh.done hd
    refine ⟨reply, hans, ?_⟩
    cases reply with
    | close => exact hshow
    | header status contentType => exact hshow
    | plain status body => exact hshow
  · obtain ⟨_, hb, _, he⟩ := h.early (by simpa using hd)
    rw [writerLoop_idle hb he answers]
    exact hh

theorem deciding_clientWritable {c : Conn} (h : CgiInv c) (hc : Deciding c)
    (answers : List (Ans Nat)) (reaped : Bool) :
    Deciding (zvCgiOnClientWritable answers reaped c).1 ∧
      (zvCgiOnClientWritable answers reaped c).1.r.cgi.outLimit = c.r.cgi.outLimit := by
  unfold zvCgiOnClientWritable
  split
  · exact ⟨hc, rfl⟩
  · next hact =>
    have hact : c.r.cgi.active = true := by simpa using hact
    have hh : Heading c.r.cgi (pipeReads c.tr) (pieces c.tr) := by
      cases hc with
      | inl hrun => exact hrun.2
      | inr hoff => exact absurd (hact.symm.trans hoff.2.1) (by decide)
    have hspec := writerLoop_spec h.relay.writer answers
    obtain ⟨hps, hrd⟩ := onlyWrites_nil hspec.onlyWrites
    obtain ⟨_, _, _, _, _, _, _, _, _, hfr⟩ := hspec.frame
    have hlimit : (writerLoop c.r.cgi answers).1.outLimit = c.r.cgi.outLimit := by rw [hfr]
    have hrun : (writerLoop c.r.cgi answers).1.active = true := by
      rw [hfr]
      exact hact
    have hhead := writerLoop_heading h.relay hh answers
    generalize writerLoop c.r.cgi answers = res at *
    obtain ⟨cgi, calls, e⟩ := res
    dsimp only at hps hrd hlimit hrun hhead ⊢
    generalize hc1 : ({ c.emit calls with r := { c.r with cgi := cgi } } : Conn) = c1
    have hcgi : c1.r.cgi = cgi := by rw [← hc1]
    have htr : c1.tr = c.tr ++ calls := by rw [← hc1]; rfl
    have hhead1 : Heading c1.r.cgi (pipeReads c1.tr) (pieces c1.tr) := by
      rw [hcgi, htr, pipeReads_append, pieces_append, hps, hrd, List.append_nil, List.append_nil]
      exact hhead
    have hrun1 : c1.r.cgi.active = true := hcgi ▸ hrun
    have hlimit1 : c1.r.cgi.outLimit = c.r.cgi.outLimit := hcgi ▸ hlimit
    cases e with
    | finished =>
      dsimp only
      split
      · exact ⟨deciding_quiet hrun1 hhead1 (t := [.waitpid _ _]) ⟨rfl, rfl, rfl⟩ rfl rfl, hlimit1⟩
      · exact ⟨deciding_quiet hrun1 hhead1 (t := []) ⟨rfl, rfl, rfl⟩ rfl rfl, hlimit1⟩
    | needMore =>
      dsimp only
      split
      · exact ⟨deciding_quiet hrun1 hhead1 (t := [.watchPipe]) ⟨rfl, rfl, rfl⟩ rfl rfl, hlimit1⟩
      · exact ⟨Or.inl ⟨hrun1, hhead1⟩, hlimit1⟩
    | wouldBlock => exact ⟨Or.inl ⟨hrun1, hhead1⟩, hlimit1⟩
    | error => exact ⟨Or.inl ⟨hrun1, hhead1⟩, hlimit1⟩
    | inCall => exact ⟨Or.inl ⟨hrun1, hhead1⟩, hlimit1⟩

theorem length_pipeReads_le {t u : List Call} (h : t <+: u) :
    (pipeReads t).flatten.length ≤ (pipeReads u).flatten.length := by
  obtain ⟨v, rfl⟩ := h
  rw [pipeReads_append, List.flatten_append, List.length_append]
  exact Nat.le_add_right _ _

/-- Every run agrees with what was read, as long as that is within the limit. -/
theorem deciding_run {c : Conn} (h : CgiInv c) (hc : Deciding c) {evs : List CgiEvent}
    (hok : NoReadError evs)
    (hlim : (pipeReads (cgiRun c evs).tr).flatten.length ≤ c.r.cgi.outLimit) :
    Deciding (cgiRun c evs) := by
  induction evs generalizing c with
  | nil => exact hc
  | cons ev evs ih =>
    have hok' : NoReadError evs := fun answers reaped hx => hok answers reaped (List.mem_cons_of_mem _ hx)
    have hgrow : ∀ c, c.tr <+: (cgiRun c evs).tr := by
      clear ih hlim hok hok'
      induction evs with
      | nil => exact fun c => List.prefix_refl _
      | cons ev evs ih => exact fun c => (cgiStep_tr c ev).trans (ih _)
    have hfirst := (length_pipeReads_le (hgrow (cgiStep c ev))).trans hlim
    have hstep : Deciding (cgiStep c ev) ∧
        (cgiStep c ev).r.cgi.outLimit = c.r.cgi.outLimit := by
      cases ev with
      | stdoutReady answers reaped =>
        exact deciding_stdoutReady h hc (hok answers reaped List.mem_cons_self) reaped hfirst
      | clientWritable answers reaped => exact deciding_clientWritable h hc answers reaped
    exact ih (cgiInv_step h ev) hstep.1 hok' (hstep.2.symm ▸ hlim)

/-- Once the answer is decided, enough was read. -/
theorem enough_of_answers {s : Bytes} {reads : List Bytes} (hs : ReadsOf s reads)
    {reply : CgiReply} (h : Answers ReadStatus reads.flatten reply)
    (hr : ∀ status body, reply ≠ .plain status body) : Enough s reads := by
  obtain ⟨t, rfl⟩ := hs.front
  cases h with
  | header b _ _ hb hle => exact Or.inl ⟨b, hle, FirstEnd.append hb t, hb.le⟩
  | longLine b l hb hle _ _ => exact Or.inl ⟨b, hle, FirstEnd.append hb t, hb.le⟩
  | tooLong _ hlen => exact Or.inr (Or.inl hlen)
  | plain => exact absurd rfl (hr _ _)
  | empty => exact absurd rfl (hr _ _)

/-- The answer that the reads decided is that of the whole output. -/
theorem answers_of_reads {s : Bytes} {reads : List Bytes} (hs : ReadsOf s reads)
    {reply : CgiReply} (h : Answers ReadStatus reads.flatten reply)
    (hr : ∀ status body, reply ≠ .plain status body) : Answers ReadStatus s reply := by
  obtain ⟨t, rfl⟩ := hs.front
  exact Answers.append h hr t

/-- While the header is collected, not enough was read. -/
theorem not_enough {c : CgiState} {s : Bytes} {reads : List Bytes} (hs : ReadsOf s reads)
    (hcol : Collected c reads.flatten) (heof : [] ∉ reads) : ¬ Enough s reads := by
  rintro (⟨b, -, hb, hlen⟩ | hlen | hx)
  · have htake := hb.take hlen
    rw [← List.prefix_iff_eq_take.mp hs.front] at htake
    exact (headerEnd_none_iff _).mp hcol.incomplete b htake
  · exact absurd hcol.room (by omega)
  · exact heof hx

theorem dueStatus_unique (ls : List Bytes) (m n : Nat) (h : DueStatus ls m) (h' : DueStatus ls n) :
    m = n := @LastOf.unique _ ValidStatus _ (fun _ _ _ => ValidStatus.unique) _ _ _ h h'

theorem readStatus_unique (ls : List Bytes) (m n : Nat) (h : ReadStatus ls m)
    (h' : ReadStatus ls n) : m = n := @LastOf.unique _ CutStatus _ (fun _ _ _ => CutStatus.unique) _ _ _ h h'

/-- Every run comes to the answer by the numbers as the code reads them. -/
theorem run_replies {c : Conn} (hc : Started c) {evs : List CgiEvent} (hok : NoReadError evs)
    {s : Bytes} (hlim : s.length ≤ c.r.cgi.outLimit)
    (hs : ReadsOf s (pipeReads (cgiRun c evs).tr)) :
    ∃ reply, Answers ReadStatus s reply ∧
      (¬ Enough s (pipeReads (cgiRun c evs).tr) →
        accepted (cgiRun c evs).tr = [] ∧ (cgiRun c evs).r.cgi.active = true ∧
        (cgiRun c evs).r.cgi.headersDone = false) ∧
      (Enough s (pipeReads (cgiRun c evs).tr) → Replied (cgiRun c evs) reply) := by
  have hinv := cgiInv_run (cgiInv_started hc) evs
  have hdec := deciding_run (cgiInv_started hc) (deciding_started hc) hok
    (hs.front.length_le.trans hlim)
  generalize cgiRun c evs = c' at *
  obtain ⟨reply, hans⟩ := answers_exists (fun ls => ⟨_, readStatus_eq ls⟩) s
  refine ⟨reply, hans, ?_⟩
  cases hdec with
  | inr hoff =>
    obtain ⟨hopen, -, hacc, hclose⟩ := hoff
    have hplain : ∀ status body, CgiReply.close ≠ .plain status body := fun _ _ hx => by cases hx
    obtain rfl := Answers.unique readStatus_unique hans (answers_of_reads hs hclose hplain)
    exact ⟨fun hno => absurd (enough_of_answers hs hclose hplain) hno, fun _ => ⟨hopen, hacc⟩⟩
  | inl hrun =>
    obtain ⟨hact, hh⟩ := hrun
    have htotal := hinv.relay.total
    cases hd : c'.r.cgi.headersDone with
    | false =>
      obtain ⟨hcol, heof⟩ := hh.early hd
      exact ⟨fun _ => ⟨sent_nil hinv.relay hd, hact, rfl⟩,
        fun he => absurd he (not_enough hs hcol heof)⟩
    | true =>
      obtain ⟨r, hr, hshow⟩ := hh.done hd
      cases r with
      | close => exact absurd hshow id
      | header status contentType =>
        have hplain : ∀ st body, CgiReply.header status contentType ≠ .plain st body :=
          fun _ _ hx => by cases hx
        obtain rfl := Answers.unique readStatus_unique hans (answers_of_reads hs hr hplain)
        have hshow : builtHeader c'.r.cgi = cgiHeaderText status contentType := hshow
        rw [hshow] at htotal
        exact ⟨fun hno => absurd (enough_of_answers hs hr hplain) hno, fun _ => ⟨hact, hshow, htotal⟩⟩
      | plain status body =>
        obtain ⟨htext, hps, -, hmem⟩ := hshow
        obtain rfl := Answers.unique readStatus_unique hans (hs.eof hmem ▸ hr)
        rw [htext, hps] at htotal
        exact ⟨fun hno => absurd (Or.inr (Or.inr hmem)) hno, fun _ => ⟨hact, hps, htotal⟩⟩

/-! ### The two readings of the numbers -/

/-- The status can be read off the header text. -/
theorem status_of_text (status : Nat) (contentType : Bytes) :
    ((cgiHeaderText status contentType).drop 9).takeWhile (fun c => (digitVal c).isSome) =
      numeral 10 status := by
  unfold cgiHeaderText
  dsimp only
  have hlen : (ascii "HTTP/1.1 ").length = 9 := by decide
  simp only [List.append_assoc]
  rw [← hlen, List.drop_left]
  refine takeWhile_front (fun c hc => digitVal_of_mem_numeral (by decide) (by decide) hc) ?_
  intro c hc
  obtain rfl := Option.some.inj (Option.mem_def.mp hc)
  decide

theorem cgiHeaderText_status {m n : Nat} {v w : Bytes}
    (h : cgiHeaderText m v = cgiHeaderText n w) : m = n := by
  have hm := parseNumeral_numeral (b := 10) (by decide) (by decide) m
  rw [← status_of_text m v, h, status_of_text,
    parseNumeral_numeral (by decide) (by decide)] at hm
  exact (Option.some.inj hm).symm

/-- The answer due and the one by the numbers as they are read: they agree, or they are two headers
that differ in the status. -/
theorem answers_cases {s : Bytes} {due read : CgiReply} (h : Answers DueStatus s due)
    (h' : Answers ReadStatus s read) :
    (due = read ∧ StatusKept s) ∨
      (¬ StatusKept s ∧ ∃ m n v, due = .header m v ∧ read = .header n v ∧ m ≠ n) := by
  by_cases hk : StatusKept s
  · refine .inl ⟨Answers.unique readStatus_unique ?_ h', hk⟩
    cases h with
    | header b status contentType hb hle hlines hst hct =>
      obtain ⟨status', hdue, hread⟩ := hk b hle hb hlines
      obtain rfl := dueStatus_unique _ _ _ hst hdue
      exact .header b status contentType hb hle hlines hread hct
    | longLine b l hb hle hl hlong => exact .longLine b l hb hle hl hlong
    | tooLong hno hlen => exact .tooLong hno hlen
    | plain hno hlt hne => exact .plain hno hlt hne
    | empty hs => exact .empty hs
  · refine .inr ⟨hk, ?_⟩
    unfold StatusKept at hk
    push Not at hk
    obtain ⟨b, hle, hb, hlines, hdiff⟩ := hk
    obtain ⟨m, hm⟩ := lastOf_exists ValidStatus 200 (splitLines (s.take b))
    have hn := readStatus_eq (splitLines (s.take b))
    have hv := readType_eq (splitLines (s.take b))
    refine ⟨m, _, _, Answers.unique dueStatus_unique h (.header b _ _ hb hle hlines hm hv),
      Answers.unique readStatus_unique h' (.header b _ _ hb hle hlines hn hv), ?_⟩
    rintro rfl
    exact hdiff _ hm hn

end CgiDecisionLemmas

open CgiDecisionLemmas

/-! ## The answer does not depend on the reads -/

/-- For every output `s` within the limit, every run of the two callbacks in which the reads of
the pipe take `s` from its front, cut and interrupted in any way, and none fails: `s` has
exactly one answer, nothing is sent and the connection stays until enough of `s` was read,
and from then on the connection has come to that answer if and only if the status of `s` does
not depend on the numbers going through an `int`. -/
theorem cgi_answer_by_output_iff {c : Conn} (hc : Started c) {evs : List CgiEvent}
    (hok : NoReadError evs) {s : Bytes} (hlim : s.length ≤ c.r.cgi.outLimit)
    (hs : ReadsOf s (pipeReads (cgiRun c evs).tr)) :
    ∃ reply, Answers DueStatus s reply ∧ (∀ r, Answers DueStatus s r → r = reply) ∧
      (¬ Enough s (pipeReads (cgiRun c evs).tr) →
        accepted (cgiRun c evs).tr = [] ∧ (cgiRun c evs).r.cgi.active = true ∧
        (cgiRun c evs).r.cgi.headersDone = false) ∧
      (Enough s (pipeReads (cgiRun c evs).tr) →
        (Replied (cgiRun c evs) reply ↔ StatusKept s)) := by
  obtain ⟨read, hread, hwait, hcome⟩ := run_replies hc hok hlim hs
  obtain ⟨reply, hdue⟩ := answers_exists (lastOf_exists ValidStatus 200) s
  refine ⟨reply, hdue, fun r hr => Answers.unique dueStatus_unique hr hdue, hwait, fun hen => ?_⟩
  have hrep := hcome hen
  rcases answers_cases hdue hread with ⟨rfl, hk⟩ | ⟨hk, m, n, v, rfl, rfl, hne⟩
  · exact ⟨fun _ => hk, fun _ => hrep⟩
  · refine ⟨fun hr => absurd ?_ hne, fun h => absurd h hk⟩
    exact cgiHeaderText_status (hr.2.1.symm.trans hrep.2.1)

/-- A script whose output comes in two reads, cut inside its blank line. -/
theorem cgi_answer_by_output_iff_cut : Replied
    (cgiRun helloConn [.stdoutReady [.ok (ascii "Status: 404\n"), .eintr, .ok (ascii "\nhi"), .eagain]
      false]) (.header 404 (ascii "text/plain")) := by
  have hreads : pipeReads (cgiRun helloConn [.stdoutReady [.ok (ascii "Status: 404\n"), .eintr,
      .ok (ascii "\nhi"), .eagain] false]).tr = [ascii "Status: 404\n", ascii "\nhi"] := by
    decide +kernel
  have hok : NoReadError [.stdoutReady [.ok (ascii "Status: 404\n"), .eintr, .ok (ascii "\nhi"),
      .eagain] false] := by
    intro answers reaped hx
    obtain ⟨rfl, -⟩ := CgiEvent.stdoutReady.inj (List.mem_singleton.mp hx)
    simp
  have hs : ReadsOf (ascii "Status: 404\n\nhi") [ascii "Status: 404\n", ascii "\nhi"] :=
    ⟨⟨[], by decide⟩, fun hx => absurd hx (by decide)⟩
  have hfirst : FirstEnd (ascii "Status: 404\n\nhi") 13 := (headerEnd_iff _ _).mp (by decide)
  have hlines : splitLines ((ascii "Status: 404\n\nhi").take 13) = [ascii "Status: 404", []] := by
    decide
  have hstatus : DueStatus [ascii "Status: 404", []] 404 :=
    lastOf_filterMap (fun _ _ => validCode_iff) 200 [ascii "Status: 404", []]
  have htype : LastOf FittingType (ascii "text/plain") [ascii "Status: 404", []]
      (ascii "text/plain") := readType_eq [ascii "Status: 404", []]
  have hans : Answers DueStatus (ascii "Status: 404\n\nhi") (.header 404 (ascii "text/plain")) :=
    .header 13 404 (ascii "text/plain") hfirst (by decide) (by decide) (hlines ▸ hstatus)
      (hlines ▸ htype)
  obtain ⟨reply, -, huniq, -, hen⟩ := cgi_answer_by_output_iff helloConn_started hok
    (s := ascii "Status: 404\n\nhi") (by decide +kernel) (hreads.symm ▸ hs)
  rw [hreads] at hen
  have hkept : StatusKept (ascii "Status: 404\n\nhi") := by
    intro b _ hb _
    obtain rfl := hb.unique hfirst
    exact ⟨404, hlines ▸ hstatus, hlines ▸ readStatus_eq [ascii "Status: 404", []]⟩
  rw [huniq _ hans]
  exact (hen (Or.inl ⟨13, by decide, hfirst, by decide⟩)).mpr hkept

/-- A second `Status:` line that is far out of range sets the status. -/
theorem cgi_status_cut :
    ∃ s, Started helloConn ∧ NoReadError [.stdoutReady [.ok s, .eagain] false] ∧
      s.length ≤ helloConn.r.cgi.outLimit ∧
      ReadsOf s (pipeReads (cgiRun helloConn [.stdoutReady [.ok s, .eagain] false]).tr) ∧
      Enough s (pipeReads (cgiRun helloConn [.stdoutReady [.ok s, .eagain] false]).tr) ∧
      Answers DueStatus s (.header 404 (ascii "text/plain")) ∧
      ¬ Replied (cgiRun helloConn [.stdoutReady [.ok s, .eagain] false])
        (.header 404 (ascii "text/plain")) ∧
      builtHeader (cgiRun helloConn [.stdoutReady [.ok s, .eagain] false]).r.cgi =
        cgiHeaderText 504 (ascii "text/plain") := by
  have hfirst : FirstEnd (ascii "Status: 404\nStatus: 4294967800\n\nhi") 32 :=
    (headerEnd_iff _ _).mp (by decide +kernel)
  have hlines : splitLines ((ascii "Status: 404\nStatus: 4294967800\n\nhi").take 32) =
      [ascii "Status: 404", ascii "Status: 4294967800", []] := by decide +kernel
  have hreads : pipeReads (cgiRun helloConn [.stdoutReady
      [.ok (ascii "Status: 404\nStatus: 4294967800\n\nhi"), .eagain] false]).tr =
      [ascii "Status: 404\nStatus: 4294967800\n\nhi"] := by decide +kernel
  have hbuilt : builtHeader (cgiRun helloConn [.stdoutReady
      [.ok (ascii "Status: 404\nStatus: 4294967800\n\nhi"), .eagain] false]).r.cgi =
      cgiHeaderText 504 (ascii "text/plain") := by decide +kernel
  have hstatus : DueStatus [ascii "Status: 404", ascii "Status: 4294967800", []] 404 :=
    lastOf_filterMap (fun _ _ => validCode_iff) 200 _
  have htype : LastOf FittingType (ascii "text/plain")
      [ascii "Status: 404", ascii "Status: 4294967800", []] (ascii "text/plain") :=
    readType_eq _
  refine ⟨ascii "Status: 404\nStatus: 4294967800\n\nhi", helloConn_started, ?_, by decide +kernel,
    ?_, ?_, ?_, ?_, hbuilt⟩
  · intro answers reaped hx
    obtain ⟨rfl, -⟩ := CgiEvent.stdoutReady.inj (List.mem_singleton.mp hx)
    simp
  · rw [hreads]
    exact ⟨⟨[], by decide⟩, fun hx => absurd hx (by decide)⟩
  · rw [hreads]
    exact .inl ⟨32, by decide, hfirst, by decide⟩
  · exact .header 32 404 (ascii "text/plain") hfirst (by decide) (by decide +kernel)
      (hlines ▸ hstatus) (hlines ▸ htype)
  · intro h
    exact absurd (cgiHeaderText_status (h.2.1.symm.trans hbuilt)) (by decide)

end Zaver
