import Zaver.ChunkWriter

/-!
# The CGI reader

One call of `zv_cgi_on_stdout_ready` against the invariant `Relay`: whatever the
reads from the pipe return, the call keeps the sum of accepted and owed bytes
right and says nothing to the client (`readerLoop_spec`).

What becomes of the bytes that were read is said by `Intake`, a description of the
reader that knows neither buffers nor counters: before the CGI header is complete
the bytes are collected; the read that completes it turns the rest of the first
4096 bytes into the first body piece; every later read is a piece of its own. The
same specification states that the loop follows it (`ReaderSpec.tracks`).
-/

namespace Zaver

open CString Chunked Gather ChunkWriterLemmas

/-! ## What the reader makes of the reads -/

/-- The search of `findHeaderEnd` as a function of the bytes searched. -/
def headerEnd (l : Bytes) : Option Nat := findHeaderEnd (fun i => l.getD i 0) l.length

/-- The reads so far: the header bytes collected, whether the end of the header was
seen among them, and the body pieces. -/
structure Intake where
  header : Bytes
  done : Bool
  pieces : List Bytes

/-- One more read. -/
def Intake.read (a : Intake) (d : Bytes) : Intake :=
  if a.done then { a with pieces := a.pieces ++ if d = [] then [] else [d] }
  else
    let hdr := (a.header ++ d).take CGI_HDR_SIZE
    match headerEnd hdr with
    | some b => { header := hdr, done := true, pieces := if hdr.drop b = [] then [] else [hdr.drop b] }
    | none => { a with header := a.header ++ d }

/-- All reads. -/
def intake (reads : List Bytes) : Intake := reads.foldl Intake.read ⟨[], false, []⟩

theorem intake_append (reads : List Bytes) (d : Bytes) :
    intake (reads ++ [d]) = (intake reads).read d := by
  unfold intake
  rw [List.foldl_append]
  rfl

/-- The bytes `acc` stand in `cgi_hdr_buf`, and the header is not complete. -/
structure Collected (c : CgiState) (acc : Bytes) : Prop where
  bytes : c.hdrBuf.slice 0 c.hdrLen = acc
  len : c.hdrLen = acc.length
  room : acc.length < CGI_HDR_SIZE
  incomplete : headerEnd acc = none

/-- The state agrees with the reads. A script that ended without a complete header
is left out: the server then answers with a body of its own. -/
def Tracks (c : CgiState) (reads ps : List Bytes) : Prop :=
  (c.eof = true ∧ (intake reads).done = false) ∨
    (c.headersDone = (intake reads).done ∧ ps = (intake reads).pieces ∧
      ((intake reads).done = false → Collected c (intake reads).header))

/-- The header is one that `build_http_header` wrote. -/
def BuiltOk (c : CgiState) : Prop :=
  c.headersDone = true → ∃ status contentType, builtHeader c = cgiHeaderText status contentType

/-- The header is one that `build_http_header` wrote for a content type of one line. -/
def BuiltLine (c : CgiState) : Prop :=
  c.headersDone = true →
    ∃ status contentType, LF ∉ contentType ∧ builtHeader c = cgiHeaderText status contentType

theorem BuiltLine.ok {c : CgiState} (h : BuiltLine c) : BuiltOk c := by
  intro hd
  obtain ⟨status, contentType, -, htext⟩ := h hd
  exact ⟨status, contentType, htext⟩

/-- What every step of the reader keeps. -/
structure ReaderStep (c : CgiState) (sent : Bytes) (ps : List Bytes) (c' : CgiState)
    (calls : List Call) : Prop where
  relay : Relay c' sent (ps ++ pieces calls)
  silent : accepted calls = []
  active : c'.active = c.active
  pid : c'.pid = c.pid
  outLimit : c'.outLimit = c.outLimit
  built : c.headersDone = true → c'.headersDone = true ∧ builtHeader c' = builtHeader c
  text : BuiltLine c → BuiltLine c'

/-- A read of the pipe or a piece that it brought. -/
def Call.isPipe : Call → Bool
  | .pipeRead _ => true
  | .load _ => true
  | _ => false

/-- The calls of the reader apart from these. -/
def others (calls : List Call) : List Call := calls.filter fun x => !x.isPipe

namespace CgiReaderLemmas

theorem findSome?_congr_mem {α β : Type} {l : List α} {f g : α → Option β}
    (h : ∀ x ∈ l, f x = g x) : l.findSome? f = l.findSome? g := by
  induction l with
  | nil => rfl
  | cons x xs ih =>
    rw [List.findSome?_cons, List.findSome?_cons, h x List.mem_cons_self,
      ih fun y hy => h y (List.mem_cons_of_mem _ hy)]

theorem findHeaderEnd_eq (m : Mem UInt8) (hl : Nat) :
    findHeaderEnd m hl = headerEnd (m.slice 0 hl) := by
  have hget : ∀ i, i < hl → (m.slice 0 hl).getD i 0 = m i := by
    intro i hi
    rw [List.getD_eq_getElem?_getD, Mem.getElem?_slice, if_pos (by omega), Nat.zero_add]
    rfl
  unfold headerEnd findHeaderEnd
  rw [Mem.length_slice, Nat.sub_zero]
  refine findSome?_congr_mem fun i hi => ?_
  rw [List.mem_range] at hi
  simp only [hget i (by omega), hget (i + 1) (by omega)]
  by_cases h3 : i + 3 < hl
  · simp only [hget (i + 2) (by omega), hget (i + 3) h3]
  · simp only [h3, false_and]

theorem pieces_nil : pieces [] = [] := rfl

/-- Before the header is complete nothing has been accepted. -/
theorem sent_nil {c : CgiState} {sent : Bytes} {ps : List Bytes} (h : Relay c sent ps)
    (hd : c.headersDone = false) : sent = [] := by
  obtain ⟨hl, hb, rfl, he⟩ := h.early hd
  have hr := (ready_of_balanced h.toBalanced hb he).total
  have hs : c.httpHeaderSent = 0 := Nat.le_zero.mp (hl ▸ h.writer.header)
  simpa [headerOwed, builtHeader, hl, hs] using hr

/-- A built header is ready for the first piece. -/
theorem buildHttpHeader_ready {c c' : CgiState} (h : WriterOk c) (hb : c.bodyLen = 0)
    {status : Nat} {ct : Bytes} (hbuild : buildHttpHeader c status ct = (c', true)) :
    Ready c' [] [] ∧ builtHeader c' = cgiHeaderText status ct ∧ ∃ m, c' =
      { c with httpHeader := m, httpHeaderLen := (cgiHeaderText status ct).length
               httpHeaderSent := 0, chunkPrefixLen := 0, chunkPrefixSent := 0
               chunkSuffixSent := 0, finalChunkLen := 0, finalChunkSent := 0 } := by
  unfold buildHttpHeader at hbuild
  dsimp only at hbuild
  split at hbuild
  · exact absurd (congrArg Prod.snd hbuild) (by simp)
  · have hc := (congrArg Prod.fst hbuild).symm
    dsimp only at hc
    subst hc
    refine ⟨⟨⟨Nat.zero_le _, Nat.le_refl 0, h.body, Nat.zero_le 2, fun hpos => ?_,
      Or.inl ⟨rfl, rfl⟩, fun hpos => absurd hpos (Nat.lt_irrefl 0)⟩, hb, rfl, by
        simp [headerOwed, builtHeader], (fun p hp => absurd hp List.not_mem_nil),
        fun hne => absurd rfl hne⟩, ?_, _, rfl⟩
    · exact absurd hpos (by simp [hb])
    · unfold builtHeader
      dsimp only
      rw [Mem.slice_write_zero _ _ (by simp), List.take_left]

/-- A header that does not fit leaves the counters alone. -/
theorem buildHttpHeader_fail {c c' : CgiState} {status : Nat} {ct : Bytes}
    (hbuild : buildHttpHeader c status ct = (c', false)) :
    ∃ m, c' = { c with httpHeader := m } := by
  unfold buildHttpHeader at hbuild
  dsimp only at hbuild
  split at hbuild
  · exact ⟨_, (congrArg Prod.fst hbuild).symm⟩
  · exact absurd (congrArg Prod.snd hbuild) (by simp)

/-! ### The lines of a CGI header -/

theorem splitLines_plain (text : Bytes) : ∀ l ∈ splitLines text, LF ∉ l := by
  induction text with
  | nil => exact fun l hl => absurd hl List.not_mem_nil
  | cons ch rest ih =>
    unfold splitLines
    split
    · intro l hl
      cases List.mem_cons.mp hl with
      | inl hl => exact hl ▸ List.not_mem_nil
      | inr hl => exact ih l hl
    · next hch =>
      have hne : LF ≠ ch := fun hx => hch hx.symm
      split
      · intro l hl
        obtain rfl := List.mem_singleton.mp hl
        exact fun hx => hne (List.mem_singleton.mp hx)
      · next l' ls heq =>
        rw [heq] at ih
        intro l hl
        cases List.mem_cons.mp hl with
        | inl hl =>
          rw [hl]
          intro hx
          cases List.mem_cons.mp hx with
          | inl hx => exact hne hx
          | inr hx => exact ih l' List.mem_cons_self hx
        | inr hl => exact ih l (List.mem_cons_of_mem _ hl)

/-- The content type is a part of its line. -/
theorem parseContentType_plain {line v : Bytes} {cap : Nat} (hl : LF ∉ line)
    (h : parseContentType line cap = some v) : LF ∉ v := by
  unfold parseContentType at h
  dsimp only at h
  split at h
  · split at h
    · cases h
    · split at h
      · cases h
      · obtain rfl := Option.some.inj h
        intro hx
        have hx := (List.rdropWhile_prefix _ _).subset hx
        have hx := (List.dropWhile_suffix _).subset hx
        have hx := List.mem_of_mem_drop hx
        have hx := (List.dropWhile_suffix _).subset hx
        exact hl ((List.takeWhile_prefix _).subset hx)
  · cases h

theorem readCgiHeader_plain {lines : List Bytes} (hl : ∀ l ∈ lines, LF ∉ l) {status st : Nat}
    {contentType ct : Bytes} (hct : LF ∉ contentType)
    (h : readCgiHeader status contentType lines = some (st, ct)) : LF ∉ ct := by
  induction lines generalizing status contentType with
  | nil =>
    obtain ⟨-, rfl⟩ := Prod.mk.inj (Option.some.inj h)
    exact hct
  | cons line rest ih =>
    have hrest : ∀ l ∈ rest, LF ∉ l := fun l hx => hl l (List.mem_cons_of_mem _ hx)
    unfold readCgiHeader at h
    split at h
    · split at h
      · cases h
      · refine ih hrest ?_ h
        cases hp : parseContentType line 256 with
        | none => exact hct
        | some v => exact parseContentType_plain (hl line List.mem_cons_self) hp
    · exact ih hrest hct h

/-! ### A read that brings bytes -/

/-- What is known when a step of the reader has an exit. -/
structure Arrival (c : CgiState) (sent : Bytes) (ps : List Bytes)
    (res : CgiState × List Call × ReadExit) : Prop extends
    ReaderStep c sent ps res.1 res.2.1 where
  noRead : pipeReads res.2.1 = []
  exits : res.2.2 = .closeConn ∨ res.2.2 = .armClient ∧ res.1.headersDone = true

/-- A piece that fits is loaded. -/
theorem loadPiece_arrival {c : CgiState} {sent : Bytes} {ps : List Bytes} (h : Ready c sent ps)
    (hd : c.headersDone = true) (hfd : c.outFd ≠ none → c.eof = false)
    (hl : c.hdrLen ≤ CGI_HDR_SIZE) {len : Nat} (hpos : 0 < len) (hle : len ≤ CGI_BODY_SIZE) :
    Arrival c sent ps (loadPiece c len) ∧
      (loadPiece c len).2 = ([.load (c.bodyBuf.slice 0 len)], .armClient) ∧
      (loadPiece c len).1.eof = c.eof ∧ (loadPiece c len).1.outFd = c.outFd := by
  obtain ⟨m, n, heq, hbal⟩ := h.load hpos hle
  rw [heq]
  exact ⟨⟨⟨⟨hbal, fun hx => absurd (hd.symm.trans hx) (by simp), hfd, hl⟩, rfl, rfl, rfl, rfl,
    fun _ => ⟨hd, rfl⟩, id⟩, rfl, Or.inr ⟨rfl, hd⟩⟩, rfl, rfl, rfl⟩

/-- The header buffer is smaller than the body buffer, so what follows the header in it
fits. -/
theorem hdr_le_body : CGI_HDR_SIZE ≤ CGI_BODY_SIZE := by decide

/-- The pieces that remain of the header buffer after a header of `b` bytes. -/
def restOf (hdr : Bytes) (b : Nat) : List Bytes := if hdr.drop b = [] then [] else [hdr.drop b]

/-- Dropping the header buffer after the header changes nothing that is owed. -/
theorem Relay.dropHeader {c : CgiState} {sent : Bytes} {ps : List Bytes} (h : Relay c sent ps) :
    Relay { c with hdrLen := 0 } sent ps :=
  ⟨h.toBalanced.reader c.active c.pid c.outFd c.outTotal c.headersDone c.hdrBuf 0, h.early,
    h.fdOpen, Nat.zero_le _⟩

theorem finishHeader_arrival {c : CgiState} (h : Ready c [] []) (hd : c.headersDone = false)
    (hh : c.httpHeaderLen = 0) (he : c.eof = false) {b : Nat} (hle : c.hdrLen ≤ CGI_HDR_SIZE) :
    Arrival c [] [] (finishHeader c b) ∧ (finishHeader c b).1.eof = false ∧
      (finishHeader c b).1.outFd = c.outFd ∧
      ((finishHeader c b).2.2 = .armClient →
        pieces (finishHeader c b).2.1 = restOf (c.hdrBuf.slice 0 c.hdrLen) b) := by
  have hnot : ∀ {P : Prop}, c.headersDone = true → P := fun hx =>
    absurd (hd.symm.trans hx) (by simp)
  unfold finishHeader
  split
  · exact ⟨⟨⟨h.relay (fun _ => ⟨hh, rfl, he⟩) (fun _ => he) hle, rfl, rfl, rfl, rfl, hnot,
        fun _ hx => hnot hx⟩, rfl,
      Or.inl rfl⟩, he, rfl, (fun hx => by cases hx)⟩
  · next status ct hread =>
    have hct : LF ∉ ct := readCgiHeader_plain (splitLines_plain _) List.not_mem_nil hread
    rcases hbuild : buildHttpHeader c status ct with ⟨c1, _ | _⟩
    · obtain ⟨m, rfl⟩ := buildHttpHeader_fail hbuild
      have hr : Ready { c with httpHeader := m } [] [] :=
        ⟨⟨h.writer.header, h.writer.sizeLine, h.writer.body, h.writer.suffix, h.writer.pending,
          h.writer.final, h.writer.last⟩, h.free, h.unsent, by
          simp [headerOwed, builtHeader, hh, Mem.slice_of_le], h.nonempty, h.headerFirst⟩
      exact ⟨⟨⟨hr.relay (fun _ => ⟨hh, rfl, he⟩) (fun _ => he) hle, rfl, rfl, rfl, rfl, hnot,
        fun _ hx => hnot hx⟩, rfl,
        Or.inl rfl⟩, he, rfl, (fun hx => by cases hx)⟩
    · obtain ⟨hr, htext, m, rfl⟩ := buildHttpHeader_ready h.writer h.free hbuild
      dsimp only
      split
      · next hrem =>
        have hmin : ¬ c.hdrLen - b > CGI_BODY_SIZE := by
          have := hdr_le_body
          omega
        rw [if_neg hmin]
        have hpiece : (c.bodyBuf.write 0 (c.hdrBuf.slice b (b + (c.hdrLen - b)))).slice 0
            (c.hdrLen - b) = (c.hdrBuf.slice 0 c.hdrLen).drop b := by
          rw [Mem.slice_write_zero _ _ (by simp), Mem.drop_slice, Nat.zero_add,
            List.take_of_length_le (by simp), Nat.add_sub_cancel' (by omega)]
        obtain ⟨harr, hres, heof, hfd⟩ := loadPiece_arrival
          (hr.scratch c.outFd c.eof c.outTotal true c.hdrBuf c.hdrLen
            (c.bodyBuf.write 0 (c.hdrBuf.slice b (b + (c.hdrLen - b)))))
          rfl (fun _ => he) hle hrem (by omega)
        generalize loadPiece _ _ = res at harr hres heof hfd ⊢
        obtain ⟨c2, calls, e⟩ := res
        obtain ⟨rfl, rfl⟩ := Prod.mk.inj hres
        dsimp only at harr heof hfd ⊢
        refine ⟨⟨⟨Relay.dropHeader harr.relay, rfl, harr.active, harr.pid, harr.outLimit, hnot,
          fun _ => harr.text fun _ => ⟨status, ct, hct, htext⟩⟩, rfl,
          Or.inr ⟨rfl, (harr.built rfl).1⟩⟩, heof.trans he, hfd, fun _ => ?_⟩
        have hne : (c.hdrBuf.slice 0 c.hdrLen).drop b ≠ [] :=
          List.ne_nil_of_length_pos (by simp; omega)
        rw [restOf, if_neg hne, ← hpiece]
        rfl
      · next hrem =>
        have hr2 := hr.scratch c.outFd c.eof c.outTotal true c.hdrBuf 0 c.bodyBuf
        have hr3 : Ready { c with
            httpHeader := m, httpHeaderLen := (cgiHeaderText status ct).length
            httpHeaderSent := 0, chunkPrefixLen := 0, chunkPrefixSent := 0
            chunkSuffixSent := 0, finalChunkLen := 0, finalChunkSent := 0
            headersDone := true, bodyLen := 0, bodySent := 0, hdrLen := 0 } [] [] :=
          ⟨⟨hr2.writer.header, hr2.writer.sizeLine, Nat.le_refl 0, hr2.writer.suffix,
            fun hpos => absurd hpos (Nat.lt_irrefl 0), hr2.writer.final,
            fun hpos => absurd hpos (Nat.lt_irrefl 0)⟩, rfl, rfl, hr2.total, hr2.nonempty,
            fun hne => absurd rfl hne⟩
        have hnil : restOf (c.hdrBuf.slice 0 c.hdrLen) b = [] := by
          have hdrop : (c.hdrBuf.slice 0 c.hdrLen).drop b = [] :=
            List.drop_of_length_le (by simp; omega)
          rw [restOf, if_pos hdrop]
        rw [prepareChunkPrefix, if_pos rfl, hnil]
        exact ⟨⟨⟨hr3.relay (fun hx => by cases hx) (fun _ => he) (Nat.zero_le _), rfl, rfl, rfl, rfl, hnot,
          fun _ _ => ⟨status, ct, hct, htext⟩⟩, rfl,
          Or.inr ⟨rfl, rfl⟩⟩, he, rfl, fun _ => rfl⟩

/-- A state in which the header is still being collected. -/
structure Early (c : CgiState) (sent : Bytes) (ps : List Bytes) : Prop where
  ready : Ready c [] []
  sentNil : sent = []
  psNil : ps = []
  notDone : c.headersDone = false
  noHeader : c.httpHeaderLen = 0
  notEof : c.eof = false
  hdrRoom : c.hdrLen ≤ CGI_HDR_SIZE

theorem early_of_relay {c : CgiState} {sent : Bytes} {ps : List Bytes} (h : Relay c sent ps)
    (hd : c.headersDone = false) : Early c sent ps := by
  obtain ⟨hh, hb, rfl, he⟩ := h.early hd
  obtain rfl := sent_nil h hd
  exact ⟨ready_of_balanced h.toBalanced hb he, rfl, rfl, hd, hh, he, h.hdrRoom⟩

/-- What a read of `d` bytes leads to. Without an exit the loop goes on reading. -/
structure OnBytes (c : CgiState) (sent : Bytes) (ps : List Bytes) (d : Bytes)
    (res : CgiState × List Call × Option ReadExit) : Prop extends
    ReaderStep c sent ps res.1 res.2.1 where
  noRead : pipeReads res.2.1 = []
  notEof : res.1.eof = false
  outFd : res.1.outFd = c.outFd
  exits : ∀ e, res.2.2 = some e → e = .closeConn ∨ e = .armClient ∧ res.1.headersDone = true
  goesOn : res.2.2 = none → res.2.1 = [] ∧ res.1.bodyLen = 0
  tracks : ∀ reads, Tracks c reads ps → res.2.2 ≠ some .closeConn →
    Tracks res.1 (reads ++ [d]) (ps ++ pieces res.2.1)

theorem tracks_early {c : CgiState} {reads ps : List Bytes} (h : Tracks c reads ps)
    (hd : c.headersDone = false) (he : c.eof = false) :
    (intake reads).done = false ∧ Collected c (intake reads).header := by
  rcases h with ⟨ht, _⟩ | ⟨hdone, _, hcol⟩
  · exact absurd (he.symm.trans ht) (by simp)
  · have hf := hdone.symm.trans hd
    exact ⟨hf, hcol hf⟩

/-- The bytes that fit are appended to the header buffer. -/
theorem collected_slice {c : CgiState} {acc d : Bytes} (h : Collected c acc) :
    (c.hdrBuf.write c.hdrLen (d.take (if d.length > CGI_HDR_SIZE - c.hdrLen
        then CGI_HDR_SIZE - c.hdrLen else d.length))).slice 0
      (c.hdrLen + if d.length > CGI_HDR_SIZE - c.hdrLen
        then CGI_HDR_SIZE - c.hdrLen else d.length) = (acc ++ d).take CGI_HDR_SIZE := by
  have hroom := h.room
  have hlen := h.len
  generalize hn : (if d.length > CGI_HDR_SIZE - c.hdrLen
    then CGI_HDR_SIZE - c.hdrLen else d.length) = n
  have hnd : (d.take n).length = n := by
    rw [List.length_take]
    split at hn <;> omega
  have happ := Mem.slice_write_append c.hdrBuf (d.take n) (Nat.zero_le c.hdrLen)
  rw [hnd, h.bytes] at happ
  rw [happ, List.take_append, List.take_of_length_le (Nat.le_of_lt hroom)]
  congr 1
  split at hn
  · rw [← hn, hlen]
  · rw [← hn, List.take_of_length_le (Nat.le_refl _), List.take_of_length_le (by omega)]

theorem collectHeader_onBytes {c : CgiState} {sent : Bytes} {ps : List Bytes}
    (h : Early c sent ps) (d : Bytes) : OnBytes c sent ps d (collectHeader c d) := by
  obtain ⟨hr, rfl, rfl, hd, hh, he, hroom⟩ := h
  have hnot : ∀ {P : Prop}, c.headersDone = true → P := fun hx =>
    absurd (hd.symm.trans hx) (by simp)
  unfold collectHeader
  dsimp only
  generalize hn : (if d.length > CGI_HDR_SIZE - c.hdrLen
    then CGI_HDR_SIZE - c.hdrLen else d.length) = n
  have hle : c.hdrLen + n ≤ CGI_HDR_SIZE := by split at hn <;> omega
  have hr1 := hr.scratch c.outFd c.eof c.outTotal c.headersDone
    (c.hdrBuf.write c.hdrLen (d.take n)) (c.hdrLen + n) c.bodyBuf
  -- What the header buffer holds, when the state agrees with the reads.
  have hslice : ∀ {acc : Bytes}, Collected c acc →
      (c.hdrBuf.write c.hdrLen (d.take n)).slice 0 (c.hdrLen + n) =
        (acc ++ d).take CGI_HDR_SIZE := fun hcol => hn ▸ collected_slice hcol
  split
  · next b hb =>
    obtain ⟨harr, heof, hfd, hpieces⟩ := finishHeader_arrival hr1 hd hh he (b := b) hle
    refine ⟨⟨harr.relay, harr.silent, harr.active, harr.pid, harr.outLimit, hnot, harr.text⟩,
      harr.noRead, heof, hfd, fun e hx => Option.some.inj hx ▸ harr.exits, (fun hx => by cases hx),
      fun reads ht hclose => ?_⟩
    obtain ⟨hdone, hcol⟩ := tracks_early ht hd he
    have harm := harr.exits.resolve_left fun hx => hclose (congrArg some hx)
    rw [findHeaderEnd_eq, hslice hcol] at hb
    have hread : intake (reads ++ [d]) =
        ⟨((intake reads).header ++ d).take CGI_HDR_SIZE, true,
          restOf (((intake reads).header ++ d).take CGI_HDR_SIZE) b⟩ := by
      rw [intake_append, Intake.read, if_neg (by simp [hdone])]
      dsimp only
      rw [hb]
      rfl
    refine Or.inr ⟨?_, ?_, ?_⟩
    · rw [hread]
      exact harm.2
    · rw [hread, List.nil_append, hpieces harm.1, hslice hcol]
    · rw [hread]
      exact fun hx => by cases hx
  · next hb =>
    have hrelay := hr1.relay (fun _ => ⟨hh, rfl, he⟩) (fun _ => he) hle
    split
    · exact ⟨⟨hrelay, rfl, rfl, rfl, rfl, hnot, id⟩, rfl, he, rfl,
        fun e hx => Or.inl (Option.some.inj hx).symm, (fun hx => by cases hx),
        fun _ _ hclose => absurd rfl hclose⟩
    · next hfull =>
      refine ⟨⟨hrelay, rfl, rfl, rfl, rfl, hnot, id⟩, rfl, he, rfl, (fun _ hx => by cases hx),
        fun _ => ⟨rfl, hr.free⟩, fun reads ht _ => ?_⟩
      obtain ⟨hdone, hcol⟩ := tracks_early ht hd he
      have hbytes := hslice hcol
      rw [findHeaderEnd_eq, hbytes] at hb
      have hlen : (intake reads).header.length + d.length < CGI_HDR_SIZE := by
        have := hcol.len
        split at hn <;> omega
      have htake : ((intake reads).header ++ d).take CGI_HDR_SIZE = (intake reads).header ++ d :=
        List.take_of_length_le (by rw [List.length_append]; omega)
      rw [htake] at hb hbytes
      have hread : intake (reads ++ [d]) = { intake reads with
          header := (intake reads).header ++ d } := by
        rw [intake_append, Intake.read, if_neg (by simp [hdone])]
        dsimp only
        rw [htake, hb]
      have hps : [] = (intake reads).pieces := by
        rcases ht with ⟨hx, _⟩ | ⟨_, hx, _⟩
        · exact absurd (he.symm.trans hx) (by simp)
        · exact hx
      refine Or.inr ⟨?_, ?_, fun _ => ?_⟩
      · rw [hread]
        exact hd.trans hdone.symm
      · rw [hread]
        exact hps
      · rw [hread]
        refine ⟨hbytes, ?_, ?_, hb⟩
        · have := hcol.len
          rw [List.length_append]
          dsimp only
          split at hn <;> omega
        · rw [List.length_append]
          exact hlen

theorem onPipeBytes_onBytes {c : CgiState} {sent : Bytes} {ps : List Bytes} (h : Relay c sent ps)
    (hb : c.bodyLen = 0) (he : c.eof = false) {d : Bytes} (hd : d ≠ [])
    (hlen : d.length ≤ CGI_BODY_SIZE) : OnBytes c sent ps d (onPipeBytes c d) := by
  have hr := ready_of_balanced h.toBalanced hb he
  have hr1 := hr.scratch c.outFd c.eof (c.outTotal + d.length) c.headersDone c.hdrBuf c.hdrLen
    (c.bodyBuf.write 0 d)
  have hrel1 := hr1.relay (fun hx => ⟨(h.early hx).1, (h.early hx).2.2⟩) h.fdOpen h.hdrRoom
  unfold onPipeBytes
  dsimp only
  split
  · exact ⟨⟨by rw [pieces_nil, List.append_nil]; exact hrel1, rfl, rfl, rfl, rfl,
      fun hx => ⟨hx, rfl⟩, id⟩, rfl, he, rfl, fun e hx => Or.inl (Option.some.inj hx).symm,
      (fun hx => by cases hx), fun _ _ hclose => absurd rfl hclose⟩
  · split
    · next hdone =>
      have hcol := collectHeader_onBytes (early_of_relay hrel1 hdone) d
      exact ⟨⟨hcol.relay, hcol.silent, hcol.active, hcol.pid, hcol.outLimit, hcol.built,
        hcol.text⟩,
        hcol.noRead, hcol.notEof, hcol.outFd, hcol.exits, hcol.goesOn, fun reads ht hclose =>
          hcol.tracks reads (ht.imp_right fun ⟨h1, h2, h3⟩ => ⟨h1, h2, fun hf =>
            let hc := h3 hf
            ⟨hc.bytes, hc.len, hc.room, hc.incomplete⟩⟩) hclose⟩
    · next hdone =>
      have hdone : c.headersDone = true := by simpa using hdone
      have hpos := List.length_pos_iff.mpr hd
      obtain ⟨harr, hres, heof, hfd⟩ := loadPiece_arrival hr1 hdone h.fdOpen h.hdrRoom hpos hlen
      generalize loadPiece _ _ = res at harr hres heof hfd ⊢
      obtain ⟨c2, calls, e⟩ := res
      obtain ⟨rfl, rfl⟩ := Prod.mk.inj hres
      dsimp only at harr heof hfd ⊢
      have hpiece : (c.bodyBuf.write 0 d).slice 0 d.length = d := by
        rw [Mem.slice_write_zero _ _ (Nat.le_refl _), List.take_of_length_le (Nat.le_refl _)]
      refine ⟨⟨harr.relay, harr.silent, harr.active, harr.pid, harr.outLimit, harr.built,
        harr.text⟩,
        harr.noRead, heof.trans he, hfd, fun e hx => Option.some.inj hx ▸ harr.exits,
        (fun hx => by cases hx), fun reads ht _ => ?_⟩
      rw [hpiece]
      rcases ht with ⟨hx, _⟩ | ⟨hx, hps, _⟩
      · exact absurd (he.symm.trans hx) (by simp)
      · have hdn := hx.symm.trans hdone
        have hread : intake (reads ++ [d]) =
            { intake reads with pieces := (intake reads).pieces ++ [d] } := by
          rw [intake_append, Intake.read, if_pos hdn, if_neg hd]
        refine Or.inr ⟨?_, ?_, ?_⟩
        · rw [hread]
          exact (harr.built hdone).1.trans hdn.symm
        · rw [hread, hps]
          rfl
        · rw [hread]
          exact fun hf => absurd (hdn.symm.trans hf) (by simp)

/-! ### End of file -/

/-- A header with a type of less than 256 bytes fits its buffer. -/
theorem cgiHeader_fits {status : Nat} (h : status < 1000) {ct : Bytes} (hct : ct.length < 256) :
    (cgiHeaderText status ct).length < CGI_HTTP_HEADER_SIZE := by
  have hn : (numeral 10 status).length ≤ 3 := length_numeral_le (by decide) (by decide) h
  have hr : (cgiReason status).length ≤ 21 := by
    unfold cgiReason getShortmsgFromStatusCode
    dsimp only
    split_ifs <;> decide
  have ht : (if ct = [] then ascii "text/plain" else ct).length < 256 := by
    split
    · decide
    · exact hct
  have h1 : (ascii "HTTP/1.1 ").length = 9 := by decide
  have h2 : (ascii " ").length = 1 := by decide
  have h3 : (ascii "\r\nServer: Zaver\r\nConnection: close\r\nContent-Type: ").length = 50 := by
    decide
  have h5 : (ascii "\r\nTransfer-Encoding: chunked\r\n\r\n").length = 32 := by decide
  have hc : CGI_HTTP_HEADER_SIZE = 4096 := rfl
  unfold cgiHeaderText
  dsimp only
  simp only [List.length_append, h1, h2, h3, h5]
  omega

/-- So does the header of the server's own bodies. -/
theorem plainHeader_fits {status : Nat} (h : status < 1000) :
    (cgiHeaderText status (ascii "text/plain")).length < CGI_HTTP_HEADER_SIZE :=
  cgiHeader_fits h (by decide)

theorem buildHttpHeader_snd {c : CgiState} {status : Nat} {ct : Bytes}
    (h : (cgiHeaderText status ct).length < CGI_HTTP_HEADER_SIZE) :
    (buildHttpHeader c status ct).2 = true := by
  unfold buildHttpHeader
  dsimp only
  rw [if_neg (by omega)]

/-- A body of the server's own. -/
theorem loadMessage_arrival {c : CgiState} (h : Ready c [] []) (hd : c.headersDone = false)
    (hfd : c.outFd = none) (hl : c.hdrLen ≤ CGI_HDR_SIZE) {status : Nat} (hs : status < 1000)
    {msg : Bytes} (hpos : 0 < msg.length) (hle : msg.length ≤ CGI_BODY_SIZE) :
    Arrival c [] [] (loadMessage c status msg) ∧ (loadMessage c status msg).2.2 = .armClient ∧
      (loadMessage c status msg).1.eof = c.eof ∧ (loadMessage c status msg).1.outFd = none := by
  have hnot : ∀ {P : Prop}, c.headersDone = true → P := fun hx =>
    absurd (hd.symm.trans hx) (by simp)
  have hok := buildHttpHeader_snd (c := c) (plainHeader_fits hs)
  unfold loadMessage
  rcases hbuild : buildHttpHeader c status (ascii "text/plain") with ⟨c1, _ | _⟩
  · rw [hbuild] at hok
    cases hok
  · obtain ⟨hr, htext, m, rfl⟩ := buildHttpHeader_ready h.writer h.free hbuild
    obtain ⟨m', n', heq, hbal⟩ := (hr.scratch c.outFd c.eof c.outTotal c.headersDone c.hdrBuf
      c.hdrLen (c.bodyBuf.write 0 msg)).load hpos hle
    dsimp only at heq hbal ⊢
    rw [heq]
    exact ⟨⟨⟨⟨hbal.reader c.active c.pid c.outFd c.outTotal true c.hdrBuf c.hdrLen,
      (fun hx => by cases hx), fun hx => absurd hfd hx, hl⟩, rfl, rfl, rfl, rfl, hnot,
      fun _ _ => ⟨status, _, by decide, htext⟩⟩, rfl,
      Or.inr ⟨rfl, rfl⟩⟩, rfl, rfl, hfd⟩

/-- What end of file leads to. -/
structure OnEof (c : CgiState) (sent : Bytes) (ps : List Bytes)
    (res : CgiState × List Call × ReadExit) : Prop extends
    ReaderStep c sent ps res.1 res.2.1 where
  noRead : pipeReads res.2.1 = []
  eof : res.1.eof = true
  outFd : res.1.outFd = none
  arms : res.2.2 = .armClient
  headersDone : res.1.headersDone = true
  tracks : ∀ reads, Tracks c reads ps → Tracks res.1 (reads ++ [[]]) (ps ++ pieces res.2.1)

/-- An empty read completes no header. -/
theorem intake_eof {c : CgiState} {reads ps : List Bytes} (h : Tracks c reads ps)
    (hd : c.headersDone = false) (he : c.eof = false) : (intake (reads ++ [[]])).done = false := by
  obtain ⟨hdone, hcol⟩ := tracks_early h hd he
  rw [intake_append, Intake.read, if_neg (by simp [hdone]), List.append_nil,
    List.take_of_length_le (Nat.le_of_lt hcol.room)]
  dsimp only
  rw [hcol.incomplete]
  exact hdone

theorem onPipeEof_onEof {c : CgiState} {sent : Bytes} {ps : List Bytes} (h : Relay c sent ps)
    (hb : c.bodyLen = 0) (he : c.eof = false) : OnEof c sent ps (onPipeEof c) := by
  have hr := (ready_of_balanced h.toBalanced hb he).scratch none true c.outTotal c.headersDone
    c.hdrBuf c.hdrLen c.bodyBuf
  unfold onPipeEof
  dsimp only
  by_cases hd : c.headersDone = false
  · rw [if_pos hd]
    obtain ⟨_, rfl, rfl, _, hh, _, hl⟩ := early_of_relay h hd
    -- Each of the three bodies of the server's own ends the same way.
    have hmsg : ∀ (status : Nat) (msg : Bytes) (hdrLen : Nat → Nat), status < 1000 →
        0 < msg.length → msg.length ≤ CGI_BODY_SIZE → (∀ n, hdrLen n ≤ n) →
        ∀ c1 calls e, loadMessage { c with eof := true, outFd := none } status msg =
          (c1, calls, e) → e = .armClient ∧
        OnEof c [] [] ({ c1 with hdrLen := hdrLen c1.hdrLen }, closeFd c.outFd ++ calls, .armClient) := by
      intro status msg hdrLen hs hpos hle hmono c1 calls e hload
      obtain ⟨harr, harm, heof, hfd⟩ := loadMessage_arrival hr hd rfl hl hs hpos hle
      rw [hload] at harr harm heof hfd
      have hsilent : accepted (closeFd c.outFd ++ calls) = [] := by simp [harr.silent]
      have hnoRead : pipeReads (closeFd c.outFd ++ calls) = [] := by simp [harr.noRead]
      refine ⟨harm, ⟨⟨?_, hsilent, harr.active, harr.pid, harr.outLimit, fun hx =>
        absurd (hd.symm.trans hx) (by simp), harr.text⟩, hnoRead, heof, hfd, rfl,
        (harr.exits.resolve_left fun hx => by cases harm.symm.trans hx).2,
        fun reads ht => Or.inl ⟨heof, intake_eof ht hd he⟩⟩⟩
      dsimp only
      rw [pieces_append, pieces_closeFd, List.nil_append]
      have hrel := harr.relay
      exact ⟨hrel.toBalanced.reader c1.active c1.pid c1.outFd c1.outTotal c1.headersDone c1.hdrBuf _,
        hrel.early, hrel.fdOpen, (hmono _).trans hrel.hdrRoom⟩
    split
    · next hlen =>
      have hbig : ¬ c.hdrLen > CGI_BODY_SIZE := by
        have := hdr_le_body
        omega
      rw [if_neg hbig]
      have hbytes : (c.hdrBuf.slice 0 c.hdrLen).length = c.hdrLen := by simp
      rcases hload : loadMessage { c with eof := true, outFd := none } 200
        (c.hdrBuf.slice 0 c.hdrLen) with ⟨c1, calls, e⟩
      obtain ⟨rfl, hres⟩ := hmsg 200 (c.hdrBuf.slice 0 c.hdrLen) (fun _ => 0) (by decide)
        (by omega) (by omega) (fun _ => Nat.zero_le _) c1 calls e hload
      exact hres
    · rcases hload : loadMessage { c with eof := true, outFd := none } 500
        (ascii "cgi produced no output\n") with ⟨c1, calls, e⟩
      obtain ⟨rfl, hres⟩ := hmsg 500 (ascii "cgi produced no output\n") id (by decide)
        (by decide) (by decide) (fun _ => Nat.le_refl _) c1 calls e hload
      exact hres
  · rw [if_neg hd]
    have hd : c.headersDone = true := by simpa using hd
    obtain ⟨hok, howed, _⟩ := ensureFinalChunk_ok hr.writer
    have hbal := hr.balanced
    have hout := headerOut_ensureFinalChunk { c with eof := true, outFd := none }
    obtain ⟨_, _, _, _, _, _, _, _, _, hfr⟩ :=
      ensureFinalChunk_frame { c with eof := true, outFd := none }
    refine ⟨⟨?_, accepted_closeFd _, by rw [hfr], by rw [hfr], by rw [hfr], fun _ => ⟨by rw [hfr]; exact hd,
      by rw [hfr]; rfl⟩, fun hx => by rw [hfr]; exact hx⟩, pipeReads_closeFd _, by rw [hfr], by rw [hfr], rfl,
      by rw [hfr]; exact hd, fun reads ht => Or.inr ?_⟩
    · dsimp only
      rw [pieces_closeFd, List.append_nil]
      refine ⟨⟨hok, ?_, hbal.nonempty, fun hps => hout ▸ hbal.headerFirst hps⟩, ?_, ?_, ?_⟩
      · rw [howed, hbal.total, hfr]
        rfl
      · rw [hfr]
        exact fun hx => absurd (hd.symm.trans hx) (by simp)
      · rw [hfr]
        exact fun hx => absurd rfl hx
      · rw [hfr]
        exact h.hdrRoom
    · rcases ht with ⟨hx, _⟩ | ⟨hx, hps, _⟩
      · exact absurd (he.symm.trans hx) (by simp)
      · have hdn := hx.symm.trans hd
        have hread : intake (reads ++ [[]]) = intake reads := by
          rw [intake_append, Intake.read, if_pos hdn, if_pos rfl, List.append_nil]
        dsimp only
        rw [hread, pieces_closeFd, List.append_nil, hfr]
        exact ⟨hx, hps, fun hf => absurd (hdn.symm.trans hf) (by simp)⟩

/-! ### The loop -/

/-! ### The calls of the reader -/

theorem loadPiece_calls {c c' : CgiState} {len : Nat} {calls : List Call} {e : ReadExit}
    (h : loadPiece c len = (c', calls, e)) : ∀ x ∈ calls, x.isPipe = true := by
  unfold loadPiece at h
  split at h
  · obtain ⟨-, rfl, -⟩ := h
    simp [Call.isPipe]
  · obtain ⟨-, rfl, -⟩ := h
    exact fun x hx => absurd hx List.not_mem_nil

theorem finishHeader_calls (c : CgiState) (bodyOff : Nat) :
    ∀ x ∈ (finishHeader c bodyOff).2.1, x.isPipe = true := by
  unfold finishHeader
  split
  · exact fun x hx => absurd hx List.not_mem_nil
  · split
    · exact fun x hx => absurd hx List.not_mem_nil
    · dsimp only
      split
      · split
        · next heq => exact loadPiece_calls heq
        · exact loadPiece_calls rfl
      · exact fun x hx => absurd hx List.not_mem_nil

theorem onPipeBytes_calls (c : CgiState) (d : Bytes) :
    ∀ x ∈ (onPipeBytes c d).2.1, x.isPipe = true := by
  unfold onPipeBytes
  dsimp only
  split
  · exact fun x hx => absurd hx List.not_mem_nil
  · split
    · unfold collectHeader
      dsimp only
      generalize (if d.length > _ then _ else _ : Nat) = copy
      split
      · exact finishHeader_calls _ _
      · split
        · exact fun x hx => absurd hx List.not_mem_nil
        · exact fun x hx => absurd hx List.not_mem_nil
    · exact loadPiece_calls rfl

theorem loadMessage_calls (c : CgiState) (status : Nat) (msg : Bytes) :
    ∀ x ∈ (loadMessage c status msg).2.1, x.isPipe = true := by
  unfold loadMessage
  split
  · exact fun x hx => absurd hx List.not_mem_nil
  · split
    · next heq => exact loadPiece_calls heq
    · exact loadPiece_calls rfl

/-- End of file closes the pipe, and nothing else is called than a piece loaded. -/
theorem onPipeEof_calls (c : CgiState) :
    ∃ calls, (onPipeEof c).2.1 = closeFd c.outFd ++ calls ∧ ∀ x ∈ calls, x.isPipe = true := by
  unfold onPipeEof
  dsimp only
  split
  · split
    · generalize hres : (if c.hdrLen > CGI_BODY_SIZE then _ else _ :
        CgiState × List Call × ReadExit) = res
      have hcalls : ∀ x ∈ res.2.1, x.isPipe = true := by
        rw [← hres]
        split
        · exact loadMessage_calls _ _ _
        · exact loadMessage_calls _ _ _
      obtain ⟨c', calls, e⟩ := res
      cases e <;> exact ⟨calls, rfl, hcalls⟩
    · have hcalls := loadMessage_calls { c with eof := true, outFd := none } 500
        (ascii "cgi produced no output\n")
      generalize loadMessage { c with eof := true, outFd := none } 500
        (ascii "cgi produced no output\n") = res at hcalls ⊢
      exact ⟨res.2.1, rfl, hcalls⟩
  · exact ⟨[], (List.append_nil _).symm, fun x hx => absurd hx List.not_mem_nil⟩

theorem others_of_pipe {calls : List Call} (h : ∀ x ∈ calls, x.isPipe = true) :
    others calls = [] :=
  List.filter_eq_nil_iff.mpr fun x hx => by simp [h x hx]

theorem others_pipeRead (d : Bytes) (calls : List Call) :
    others (.pipeRead d :: calls) = others calls := rfl

theorem others_onPipeEof (c : CgiState) : others (onPipeEof c).2.1 = closeFd c.outFd := by
  obtain ⟨calls, heq, hpipe⟩ := onPipeEof_calls c
  have hclose : others (closeFd c.outFd) = closeFd c.outFd := by
    cases c.outFd <;> rfl
  have hsum : others (closeFd c.outFd ++ calls) = others (closeFd c.outFd) ++ others calls :=
    List.filter_append _ _
  rw [heq, hsum, hclose, others_of_pipe hpipe, List.append_nil]

end CgiReaderLemmas

open CgiReaderLemmas

/-- What a call of the reader does, whatever the answers to its reads. -/
structure ReaderSpec (c : CgiState) (sent : Bytes) (ps : List Bytes)
    (res : CgiState × List Call × ReadExit) : Prop extends
    ReaderStep c sent ps res.1 res.2.1 where
  guarded : ∀ t bs u, res.2.1 = t ++ .pipeRead bs :: u → unsentChunk c = false ∧ pieces t = []
  outFd : res.1.outFd = c.outFd ∧ res.1.eof = false ∨
    res.1.outFd = none ∧ res.1.eof = true ∧ res.2.2 = .armClient
  arms : res.2.2 = .armClient → res.1.headersDone = true
  others : others res.2.1 = if res.1.eof then closeFd c.outFd else []
  free : res.2.2 = .rearmPipe → unsentChunk c = false → unsentChunk res.1 = false
  tracks : ∀ reads, Tracks c reads ps → res.2.2 ≠ .closeConn →
    Tracks res.1 (reads ++ pipeReads res.2.1) (ps ++ pieces res.2.1)

namespace CgiReaderLemmas

/-- A call that makes no system call. -/
theorem ReaderSpec.stay {c : CgiState} {sent : Bytes} {ps : List Bytes} (h : Relay c sent ps)
    (he : c.eof = false) {e : ReadExit} (hne : e ≠ .armClient) :
    ReaderSpec c sent ps (c, [], e) := by
  refine ⟨⟨?_, rfl, rfl, rfl, rfl, fun hx => ⟨hx, rfl⟩, id⟩, ?_, Or.inl ⟨rfl, he⟩,
    fun hx => absurd hx hne, ?_, fun _ hu => hu, fun reads ht _ => ?_⟩
  · rw [pieces_nil, List.append_nil]
    exact h
  · intro t bs u hcall
    exact absurd hcall (by simp)
  · dsimp only
    rw [he]
    rfl
  · rw [pieces_nil, List.append_nil]
    exact (List.append_nil reads).symm ▸ ht

theorem pipeReads_pipeRead (d : Bytes) (calls : List Call) :
    pipeReads (.pipeRead d :: calls) = d :: pipeReads calls := rfl

/-- In `d :: calls` with no read in `calls`, the only read comes first. -/
theorem read_first {d bs : Bytes} {calls t u : List Call} (hno : pipeReads calls = [])
    (h : Call.pipeRead d :: calls = t ++ .pipeRead bs :: u) : pieces t = [] := by
  cases t with
  | nil => rfl
  | cons x t =>
    rw [List.cons_append] at h
    have hc := (List.cons.inj h).2
    rw [hc, pipeReads_append] at hno
    exact absurd (List.append_eq_nil_iff.mp hno).2 (by simp [pipeReads])

theorem readerLoop_spec {c : CgiState} {sent : Bytes} {ps : List Bytes} (h : Relay c sent ps)
    (hfd : c.outFd ≠ none) (answers : List (Ans Bytes)) :
    ReaderSpec c sent ps (readerLoop c answers) := by
  induction answers generalizing c with
  | nil =>
    unfold readerLoop
    split
    · exact ReaderSpec.stay h (h.fdOpen hfd) (fun hx => by cases hx)
    · exact ReaderSpec.stay h (h.fdOpen hfd) (fun hx => by cases hx)
  | cons a answers ih =>
    have he := h.fdOpen hfd
    unfold readerLoop
    split
    · exact ReaderSpec.stay h he (fun hx => by cases hx)
    · next hu =>
      have hu : unsentChunk c = false := by simpa using hu
      have hb := bodyLen_of_not_unsent h.writer hu
      cases a with
      | ok bs =>
        dsimp only
        split
        · next hd =>
          have heof := onPipeEof_onEof h hb he
          have hoth := others_onPipeEof c
          rcases hres : onPipeEof c with ⟨c', calls, e⟩
          rw [hres] at heof hoth
          rw [hd]
          exact ⟨⟨heof.relay, heof.silent, heof.active, heof.pid, heof.outLimit, heof.built,
            heof.text⟩,
            fun t bs u hcall => ⟨hu, read_first heof.noRead hcall⟩,
            Or.inr ⟨heof.outFd, heof.eof, heof.arms⟩, fun _ => heof.headersDone,
            by rw [others_pipeRead]; exact hoth.trans (if_pos heof.eof).symm,
            (fun hx => by cases heof.arms.symm.trans hx), fun reads ht _ => by
              rw [pipeReads_pipeRead, heof.noRead]
              exact heof.tracks reads ht⟩
        · next hd =>
          have hlen : (bs.take CGI_BODY_SIZE).length ≤ CGI_BODY_SIZE := by simp
          have hon := onPipeBytes_onBytes h hb he hd hlen
          have hpipe := onPipeBytes_calls c (bs.take CGI_BODY_SIZE)
          rcases hres : onPipeBytes c (bs.take CGI_BODY_SIZE) with ⟨c', calls, _ | e⟩
          · rw [hres] at hon
            obtain ⟨hcalls, hb'⟩ := hon.goesOn rfl
            dsimp only at hcalls
            subst hcalls
            have hrel := hon.relay
            rw [pieces_nil, List.append_nil] at hrel
            have hrec := ih hrel (hon.outFd.symm ▸ hfd)
            dsimp only
            rcases hloop : readerLoop c' answers with ⟨c'', more, e⟩
            rw [hloop] at hrec
            refine ⟨⟨hrec.relay, hrec.silent, hrec.active.trans hon.active, hrec.pid.trans hon.pid,
              hrec.outLimit.trans hon.outLimit, fun hx => ?_, fun hx => hrec.text (hon.text hx)⟩, fun t bs' u hcall => ⟨hu, ?_⟩, ?_,
              hrec.arms, ?_, fun hx _ => hrec.free hx ?_, fun reads ht hclose => ?_⟩
            · have h1 := hon.built hx
              have h2 := hrec.built h1.1
              exact ⟨h2.1, h2.2.trans h1.2⟩
            · cases t with
              | nil => rfl
              | cons x t =>
                obtain ⟨rfl, htail⟩ := List.cons.inj hcall
                exact (hrec.guarded t bs' u htail).2
            · rw [← hon.outFd]
              exact hrec.outFd
            · rw [← hon.outFd]
              exact hrec.others
            · dsimp only at hb'
              simp [unsentChunk, hb']
            · have ht' := hon.tracks reads ht (fun hx => by cases hx)
              rw [pieces_nil, List.append_nil] at ht'
              have := hrec.tracks _ ht' hclose
              rwa [List.append_assoc] at this
          · rw [hres] at hon hpipe
            dsimp only
            have hex := hon.exits e rfl
            exact ⟨⟨hon.relay, hon.silent, hon.active, hon.pid, hon.outLimit, hon.built,
              hon.text⟩,
              fun t bs u hcall => ⟨hu, read_first hon.noRead hcall⟩, Or.inl ⟨hon.outFd, hon.notEof⟩,
              fun hx => (hex.resolve_left fun hc => by rw [hc] at hx; cases hx).2,
              (others_of_pipe hpipe).trans (by rw [hon.notEof]; rfl),
              (fun hx => hex.elim (fun hc => by cases hc.symm.trans hx)
                fun hc => by cases hc.1.symm.trans hx),
              fun reads ht hclose => by
                rw [pipeReads_pipeRead, hon.noRead]
                exact hon.tracks reads ht fun hx => hclose (Option.some.inj hx)⟩
      | eintr => exact ih h hfd
      | eagain => exact ReaderSpec.stay h he (fun hx => by cases hx)
      | error => exact ReaderSpec.stay h he (fun hx => by cases hx)

end CgiReaderLemmas

end Zaver
