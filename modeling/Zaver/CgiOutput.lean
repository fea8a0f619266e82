import Zaver.CgiRelay

/-!
# The CGI output, end to end

What the client decodes, compared with what the script wrote. The pipe may be read
in pieces of any size; `readEnd reads b` is the offset at which the read that
reaches offset `b` ends. The header buffer takes 4096 bytes, and a read is up to
8192 bytes long: when the read that brings in the end of the CGI header goes past
offset 4096, its bytes from there on are dropped.

Results:
1. `headerEnd_iff`: the search of the reader finds the first blank line.
2. `intake_pieces`: which bytes of the output reach the client.
3. `cgi_relay_exact_iff`: the decoded body is the output behind the header if and
   only if the read that completes the header ends within the header buffer.
-/

namespace Zaver

open CString Chunked Gather ChunkWriterLemmas CgiReaderLemmas CgiRelayLemmas

/-! ## The end of the CGI header -/

/-- A byte string that ends in a blank line. -/
def EndsHeader (l : Bytes) : Prop := [LF, LF] <:+ l ∨ [CR, LF, CR, LF] <:+ l

/-- The first header terminator of `s` ends at offset `b`. -/
structure FirstEnd (s : Bytes) (b : Nat) : Prop where
  le : b ≤ s.length
  ends : EndsHeader (s.take b)
  first : ∀ b' < b, ¬ EndsHeader (s.take b')

/-- The offset at which the read that reaches offset `b` ends. -/
def readEnd : List Bytes → Nat → Nat
  | [], _ => 0
  | d :: reads, b => if b ≤ d.length then d.length else d.length + readEnd reads (b - d.length)

namespace CgiOutputLemmas

/-- A suffix of a prefix, byte by byte. -/
theorem suffix_take_iff {l pat : Bytes} {b : Nat} (hb : b ≤ l.length) :
    pat <:+ l.take b ↔ ∃ x, x + pat.length = b ∧ (l.drop x).take pat.length = pat := by
  constructor
  · rintro ⟨pre, hpre⟩
    have hlen := congrArg List.length hpre
    rw [List.length_append, List.length_take, Nat.min_eq_left hb] at hlen
    refine ⟨pre.length, hlen, ?_⟩
    have hdrop := congrArg (List.drop pre.length) hpre
    rw [List.drop_left, List.drop_take] at hdrop
    rw [← hlen, Nat.add_sub_cancel_left] at hdrop
    exact hdrop.symm
  · rintro ⟨x, rfl, hx⟩
    refine ⟨l.take x, ?_⟩
    rw [List.take_add, hx]

theorem drop_take_succ {l : Bytes} {x n : Nat} {p : UInt8} {ps : Bytes} :
    (l.drop x).take (n + 1) = p :: ps ↔
      x < l.length ∧ l.getD x 0 = p ∧ (l.drop (x + 1)).take n = ps := by
  by_cases hx : x < l.length
  · rw [List.drop_eq_getElem_cons hx, List.take_succ_cons, List.cons.injEq]
    simp [hx, List.getD_eq_getElem?_getD]
  · rw [List.drop_of_length_le (by omega)]
    simp [hx]

/-- The two tests of the search, at offset `x`. -/
theorem endsHeader_iff {l : Bytes} {b : Nat} (hb : b ≤ l.length) :
    EndsHeader (l.take b) ↔
      (∃ x, x + 2 = b ∧ l.getD x 0 = LF ∧ l.getD (x + 1) 0 = LF) ∨
      (∃ x, x + 4 = b ∧ l.getD x 0 = CR ∧ l.getD (x + 1) 0 = LF ∧ l.getD (x + 2) 0 = CR ∧
        l.getD (x + 3) 0 = LF) := by
  unfold EndsHeader
  rw [suffix_take_iff hb, suffix_take_iff hb]
  refine or_congr (exists_congr fun x => and_congr_right fun hx => ?_)
    (exists_congr fun x => and_congr_right fun hx => ?_)
  · change x + 2 = b at hx
    change (l.drop x).take 2 = _ ↔ _
    rw [drop_take_succ, drop_take_succ]
    simp only [List.take_zero, and_true]
    constructor
    · rintro ⟨_, h1, _, h2⟩
      exact ⟨h1, h2⟩
    · rintro ⟨h1, h2⟩
      exact ⟨by omega, h1, by omega, h2⟩
  · change x + 4 = b at hx
    change (l.drop x).take 4 = _ ↔ _
    rw [drop_take_succ, drop_take_succ, drop_take_succ, drop_take_succ]
    simp only [List.take_zero, and_true]
    constructor
    · rintro ⟨_, h1, _, h2, _, h3, _, h4⟩
      exact ⟨h1, h2, h3, h4⟩
    · rintro ⟨h1, h2, h3, h4⟩
      exact ⟨by omega, h1, by omega, h2, by omega, h3, by omega, h4⟩

theorem two_le_of_endsHeader {l : Bytes} (h : EndsHeader l) : 2 ≤ l.length := by
  rcases h with h | h
  · exact h.length_le
  · exact Nat.le_trans (by decide) h.length_le

/-- The test of the search at offset `i`. -/
def endAt (l : Bytes) (i : Nat) : Option Nat :=
  if l.getD i 0 = LF ∧ l.getD (i + 1) 0 = LF then some (i + 2)
  else if i + 3 < l.length ∧ l.getD i 0 = CR ∧ l.getD (i + 1) 0 = LF ∧ l.getD (i + 2) 0 = CR ∧
      l.getD (i + 3) 0 = LF then some (i + 4)
  else none

theorem headerEnd_eq (l : Bytes) : headerEnd l = (List.range (l.length - 1)).findSome? (endAt l) :=
  rfl

theorem endAt_some {l : Bytes} {i b : Nat} (hi : i + 1 < l.length) (h : endAt l i = some b) :
    b ≤ l.length ∧ EndsHeader (l.take b) := by
  unfold endAt at h
  split at h
  · next hlf =>
    obtain rfl := Option.some.inj h
    exact ⟨by omega, (endsHeader_iff (by omega)).mpr (Or.inl ⟨i, rfl, hlf⟩)⟩
  · split at h
    · next hcr =>
      obtain rfl := Option.some.inj h
      exact ⟨by omega, (endsHeader_iff (by omega)).mpr (Or.inr ⟨i, rfl, hcr.2⟩)⟩
    · cases h

/-- A blank line that ends at `b'` is seen by the test at its first byte. -/
theorem endAt_of_ends {l : Bytes} {b' : Nat} (hb : b' ≤ l.length) (h : EndsHeader (l.take b')) :
    ∃ x, x + 1 < l.length ∧ endAt l x = some b' := by
  rcases (endsHeader_iff hb).mp h with ⟨x, rfl, hlf⟩ | ⟨x, rfl, hcr⟩
  · exact ⟨x, by omega, if_pos hlf⟩
  · have hne : ¬ (l.getD x 0 = LF ∧ l.getD (x + 1) 0 = LF) := by
      rw [hcr.1]
      exact fun hx => absurd hx.1 (by decide)
    refine ⟨x, by omega, ?_⟩
    rw [endAt, if_neg hne, if_pos ⟨by omega, hcr⟩]

/-- Two blank lines that start in order end in order. -/
theorem endAt_mono {l : Bytes} {a x b b' : Nat} (hax : a ≤ x) (ha : endAt l a = some b)
    (hx : endAt l x = some b') : b ≤ b' := by
  unfold endAt at ha hx
  split_ifs at ha hx with h1 h2 h3 h4 h5
  · obtain rfl := Option.some.inj ha
    obtain rfl := Option.some.inj hx
    omega
  · obtain rfl := Option.some.inj ha
    obtain rfl := Option.some.inj hx
    omega
  · obtain rfl := Option.some.inj ha
    obtain rfl := Option.some.inj hx
    -- A pair of line feeds cannot start inside `\r\n\r\n` before its last byte.
    have h0 : x ≠ a := by
      rintro rfl
      exact absurd (h4.2.1.symm.trans h5.1) (by decide)
    have h1 : x ≠ a + 1 := by
      rintro rfl
      exact absurd (h4.2.2.2.1.symm.trans h5.2) (by decide)
    omega
  · obtain rfl := Option.some.inj ha
    obtain rfl := Option.some.inj hx
    omega

/-- A search through the first numbers finds the least hit. -/
theorem findSome?_range {α : Type} (f : Nat → Option α) (n : Nat) (b : α) :
    (List.range n).findSome? f = some b ↔ ∃ a < n, f a = some b ∧ ∀ x < a, f x = none := by
  induction n with
  | zero => simp
  | succ n ih =>
    rw [List.range_succ, List.findSome?_append, Option.or_eq_some_iff, ih]
    constructor
    · rintro (⟨a, ha, hf, hbelow⟩ | ⟨hnone, hf⟩)
      · exact ⟨a, by omega, hf, hbelow⟩
      · refine ⟨n, by omega, by simpa using hf, fun x hx => ?_⟩
        exact List.findSome?_eq_none_iff.mp hnone x (List.mem_range.mpr hx)
    · rintro ⟨a, ha, hf, hbelow⟩
      by_cases han : a < n
      · exact Or.inl ⟨a, han, hf, hbelow⟩
      · obtain rfl : a = n := by omega
        refine Or.inr ⟨List.findSome?_eq_none_iff.mpr fun x hx => ?_, by simpa using hf⟩
        exact hbelow x (List.mem_range.mp hx)

end CgiOutputLemmas

open CgiOutputLemmas

theorem FirstEnd.unique {s : Bytes} {b b' : Nat} (h : FirstEnd s b) (h' : FirstEnd s b') :
    b = b' := by
  rcases Nat.lt_trichotomy b b' with hlt | heq | hgt
  · exact absurd h.ends (h'.first b hlt)
  · exact heq
  · exact absurd h'.ends (h.first b' hgt)

/-- The first terminator of a prefix that is long enough. -/
theorem FirstEnd.take {s : Bytes} {b k : Nat} (h : FirstEnd s b) (hk : b ≤ k) :
    FirstEnd (s.take k) b := by
  refine ⟨?_, ?_, fun b' hb' => ?_⟩
  · rw [List.length_take]
    exact Nat.le_min.mpr ⟨hk, h.le⟩
  · rw [List.take_take, Nat.min_eq_left hk]
    exact h.ends
  · rw [List.take_take, Nat.min_eq_left (by omega)]
    exact h.first b' hb'

/-- The search finds the first blank line and nothing else. -/
theorem headerEnd_iff (l : Bytes) (b : Nat) : headerEnd l = some b ↔ FirstEnd l b := by
  have hsound : ∀ {b}, headerEnd l = some b → FirstEnd l b := by
    intro b h
    rw [headerEnd_eq, findSome?_range] at h
    obtain ⟨a, ha, hf, hbelow⟩ := h
    obtain ⟨hle, hends⟩ := endAt_some (by omega) hf
    refine ⟨hle, hends, fun b' hb' he => ?_⟩
    obtain ⟨x, _, hx⟩ := endAt_of_ends (by omega) he
    by_cases hxa : x < a
    · rw [hbelow x hxa] at hx
      cases hx
    · have := endAt_mono (by omega) hf hx
      omega
  refine ⟨hsound, fun h => ?_⟩
  rcases hs : headerEnd l with _ | b'
  · obtain ⟨x, hx, hf⟩ := endAt_of_ends h.le h.ends
    rw [headerEnd_eq, List.findSome?_eq_none_iff] at hs
    rw [hs x (List.mem_range.mpr (by omega))] at hf
    cases hf
  · rw [h.unique (hsound hs)]

/-- Before the first terminator the search finds nothing. -/
theorem headerEnd_take_none {s : Bytes} {b k : Nat} (h : FirstEnd s b) (hk : k < b) :
    headerEnd (s.take k) = none := by
  rcases hs : headerEnd (s.take k) with _ | b'
  · rfl
  · obtain ⟨hle, hends, _⟩ := (headerEnd_iff _ _).mp hs
    rw [List.length_take] at hle
    rw [List.take_take, Nat.min_eq_left (by omega)] at hends
    exact absurd hends (h.first b' (by omega))

/-! ## Which bytes reach the client -/

namespace CgiOutputLemmas

theorem readEnd_le {reads : List Bytes} {b : Nat} (hb : b ≤ reads.flatten.length) :
    b ≤ readEnd reads b ∧ readEnd reads b ≤ reads.flatten.length := by
  induction reads generalizing b with
  | nil => simpa [readEnd] using hb
  | cons d reads ih =>
    rw [List.flatten_cons, List.length_append] at hb ⊢
    unfold readEnd
    split
    · omega
    · have := ih (b := b - d.length) (by omega)
      omega

/-- Once the header is complete, every read adds its bytes. -/
theorem foldl_read_done {a : Intake} (h : a.done = true) (reads : List Bytes) :
    (reads.foldl Intake.read a).done = true ∧
      (reads.foldl Intake.read a).pieces.flatten = a.pieces.flatten ++ reads.flatten := by
  induction reads generalizing a with
  | nil => simp [h]
  | cons d reads ih =>
    have hread : a.read d = { a with pieces := a.pieces ++ if d = [] then [] else [d] } := by
      rw [Intake.read, if_pos h]
    obtain ⟨h1, h2⟩ := ih (a := a.read d) (by rw [hread]; exact h)
    refine ⟨h1, ?_⟩
    rw [List.foldl_cons, h2, hread]
    by_cases hd : d = []
    · simp [hd]
    · simp [hd, List.append_assoc]

theorem flatten_restOf (hdr : Bytes) (b : Nat) :
    (if hdr.drop b = [] then [] else [hdr.drop b]).flatten = hdr.drop b := by
  split
  · next h => rw [h]; rfl
  · simp

/-- The reads from a state in which the bytes `acc` are collected. -/
theorem foldl_read_pieces {b : Nat} (hb : b ≤ CGI_HDR_SIZE) (reads : List Bytes) (acc : Bytes)
    (hacc : acc.length < b) (h : FirstEnd (acc ++ reads.flatten) b) :
    (reads.foldl Intake.read ⟨acc, false, []⟩).done = true ∧
      (reads.foldl Intake.read ⟨acc, false, []⟩).pieces.flatten =
        ((acc ++ reads.flatten).take
          (min (acc.length + readEnd reads (b - acc.length)) CGI_HDR_SIZE)).drop b ++
        (acc ++ reads.flatten).drop (acc.length + readEnd reads (b - acc.length)) := by
  induction reads generalizing acc with
  | nil =>
    have hle := h.le
    rw [List.flatten_nil, List.append_nil] at hle
    omega
  | cons d reads ih =>
    have hs : acc ++ (d :: reads).flatten = (acc ++ d) ++ reads.flatten := by
      rw [List.flatten_cons, List.append_assoc]
    rw [hs] at h ⊢
    -- The bytes searched are the first ones of the output.
    have htake : (acc ++ d).take CGI_HDR_SIZE =
        ((acc ++ d) ++ reads.flatten).take (min (acc.length + d.length) CGI_HDR_SIZE) := by
      rw [Nat.min_comm, ← List.take_take, ← List.length_append, List.take_left]
    rw [List.foldl_cons]
    by_cases hd : b ≤ acc.length + d.length
    · have hend : headerEnd ((acc ++ d).take CGI_HDR_SIZE) = some b := by
        rw [htake]
        exact (headerEnd_iff _ _).mpr (h.take (Nat.le_min.mpr ⟨hd, hb⟩))
      have hread : Intake.read ⟨acc, false, []⟩ d = ⟨(acc ++ d).take CGI_HDR_SIZE, true,
          if ((acc ++ d).take CGI_HDR_SIZE).drop b = [] then []
          else [((acc ++ d).take CGI_HDR_SIZE).drop b]⟩ := by
        rw [Intake.read, if_neg (by simp)]
        dsimp only
        rw [hend]
      obtain ⟨h1, h2⟩ := foldl_read_done (a := Intake.read ⟨acc, false, []⟩ d) (by rw [hread]) reads
      have hre : readEnd (d :: reads) (b - acc.length) = d.length := by
        rw [readEnd, if_pos (by omega)]
      refine ⟨h1, ?_⟩
      rw [h2, hread, hre]
      dsimp only
      rw [flatten_restOf, htake, ← List.length_append, List.drop_left]
    · have hnone : headerEnd ((acc ++ d).take CGI_HDR_SIZE) = none := by
        rw [htake]
        exact headerEnd_take_none h (by omega)
      have hread : Intake.read ⟨acc, false, []⟩ d = ⟨acc ++ d, false, []⟩ := by
        rw [Intake.read, if_neg (by simp)]
        dsimp only
        rw [hnone]
      have hlen : (acc ++ d).length = acc.length + d.length := List.length_append
      have hre : acc.length + readEnd (d :: reads) (b - acc.length) =
          (acc ++ d).length + readEnd reads (b - (acc ++ d).length) := by
        rw [readEnd, if_neg (by omega), hlen, Nat.add_assoc, Nat.sub_sub]
      rw [hread, hre]
      exact ih (acc ++ d) (by omega) h

end CgiOutputLemmas

/-- The output behind the header reaches the client, except for the part of the read that
completed the header that lies past the header buffer. -/
theorem intake_pieces {reads : List Bytes} {b : Nat} (h : FirstEnd reads.flatten b)
    (hb : b ≤ CGI_HDR_SIZE) :
    (intake reads).done = true ∧ (intake reads).pieces.flatten =
      (reads.flatten.take (min (readEnd reads b) CGI_HDR_SIZE)).drop b ++
        reads.flatten.drop (readEnd reads b) := by
  have hpos : 0 < b := by
    rcases Nat.eq_zero_or_pos b with rfl | hpos
    · exact absurd (two_le_of_endsHeader h.ends) (by simp)
    · exact hpos
  have hf := foldl_read_pieces hb reads [] hpos h
  simp only [List.nil_append, List.length_nil, Nat.zero_add, Nat.sub_zero] at hf
  exact hf

/-- Nothing is missing exactly when that read ends within the header buffer. -/
theorem intake_pieces_iff {reads : List Bytes} {b : Nat} (h : FirstEnd reads.flatten b)
    (hb : b ≤ CGI_HDR_SIZE) :
    (intake reads).pieces.flatten = reads.flatten.drop b ↔ readEnd reads b ≤ CGI_HDR_SIZE := by
  obtain ⟨hle, hend⟩ := readEnd_le h.le
  rw [(intake_pieces h hb).2]
  constructor
  · intro heq
    have hlen := congrArg List.length heq
    simp only [List.length_append, List.length_drop, List.length_take] at hlen
    omega
  · intro hfit
    rw [Nat.min_eq_left hfit]
    calc (reads.flatten.take (readEnd reads b)).drop b ++ reads.flatten.drop (readEnd reads b)
        = (reads.flatten.take (readEnd reads b) ++ reads.flatten.drop (readEnd reads b)).drop b := by
          rw [List.drop_append_of_le_length (by rw [List.length_take]; omega)]
      _ = reads.flatten.drop b := by rw [List.take_append_drop]

/-! ## The relay -/

namespace CgiOutputLemmas

/-- What the client decodes is what the reader took in. -/
theorem dechunk_intake {c : Conn} (hc : Started c) (evs : List CgiEvent)
    {answers : List (Ans Nat)} {reaped : Bool} {c' : Conn}
    (hfin : zvCgiOnClientWritable answers reaped (cgiRun c evs) = (c', .finished)) {b : Nat}
    (hb : FirstEnd (pipeReads c'.tr).flatten b) (hle : b ≤ CGI_HDR_SIZE) :
    dechunk ((accepted c'.tr).drop (builtHeader c'.r.cgi).length) =
      some (intake (pipeReads c'.tr)).pieces.flatten := by
  obtain ⟨hinv, hact, hsent⟩ := finished_sent (cgiInv_run (cgiInv_started hc) evs) hfin
  have hdone := (intake_pieces hb hle).1
  rcases hinv.tracks hact with ⟨_, hnot⟩ | ⟨_, hps, _⟩
  · exact absurd (hdone.symm.trans hnot) (by simp)
  · rw [dechunk_finished hinv hsent, hps]

/-! ### A run with one read -/

theorem finishHeader_arms {c : CgiState} (h : Ready c [] []) (hle : c.hdrLen ≤ CGI_HDR_SIZE)
    {b status : Nat} {ct : Bytes}
    (hlines : readCgiHeader 200 [] (splitLines (c.hdrBuf.slice 0 b)) = some (status, ct))
    (hfit : (cgiHeaderText status ct).length < CGI_HTTP_HEADER_SIZE) :
    (finishHeader c b).2.2 = .armClient := by
  have hok := buildHttpHeader_snd (c := c) hfit
  unfold finishHeader
  rw [hlines]
  dsimp only
  rcases hbuild : buildHttpHeader c status ct with ⟨c1, _ | _⟩
  · rw [hbuild] at hok
    cases hok
  · obtain ⟨hr, _, m, rfl⟩ := buildHttpHeader_ready h.writer h.free hbuild
    dsimp only
    split
    · next hrem =>
      have hmin : ¬ c.hdrLen - b > CGI_BODY_SIZE := by
        have := hdr_le_body
        omega
      rw [if_neg hmin]
      obtain ⟨_, _, heq, _⟩ := (hr.scratch c.outFd c.eof c.outTotal true c.hdrBuf c.hdrLen
        (c.bodyBuf.write 0 (c.hdrBuf.slice b (b + (c.hdrLen - b))))).load hrem (by omega)
      dsimp only at heq ⊢
      rw [heq]
    · rfl

/-- A first read that holds a complete header with lines that fit. -/
theorem readerLoop_header {c : CgiState} {d : Bytes} (h : Relay c [] [])
    (hd : c.headersDone = false) (hcol : Collected c []) (hne : d ≠ [])
    (hlen : d.length ≤ CGI_BODY_SIZE) (htot : c.outTotal + d.length ≤ c.outLimit)
    {b status : Nat} {ct : Bytes} (hend : headerEnd (d.take CGI_HDR_SIZE) = some b)
    (hlines : readCgiHeader 200 [] (splitLines ((d.take CGI_HDR_SIZE).take b)) = some (status, ct))
    (hfit : (cgiHeaderText status ct).length < CGI_HTTP_HEADER_SIZE) :
    (readerLoop c [.ok d]).2.2 = .armClient ∧ pipeReads (readerLoop c [.ok d]).2.1 = [d] ∧
      (readerLoop c [.ok d]).1.eof = false ∧ (readerLoop c [.ok d]).1.outFd = c.outFd ∧
      (readerLoop c [.ok d]).1.active = c.active := by
  obtain ⟨hr, _, _, _, _, he, hroom⟩ := early_of_relay h hd
  have hu : unsentChunk c = false := by simp [unsentChunk, hr.free]
  have hon := onPipeBytes_onBytes h hr.free he hne hlen
  have hexit : (onPipeBytes c d).2.2 = some .armClient := by
    unfold onPipeBytes
    dsimp only
    rw [if_neg (by omega), if_pos hd]
    have hcol1 : Collected { c with bodyBuf := c.bodyBuf.write 0 d
                                    outTotal := c.outTotal + d.length } [] :=
      ⟨hcol.bytes, hcol.len, hcol.room, hcol.incomplete⟩
    have hslice := collected_slice (d := d) hcol1
    have hr1 := hr.scratch c.outFd c.eof (c.outTotal + d.length) c.headersDone
    unfold collectHeader
    dsimp only at hslice ⊢
    generalize hn : (if d.length > CGI_HDR_SIZE - c.hdrLen
      then CGI_HDR_SIZE - c.hdrLen else d.length) = n at hslice ⊢
    have hle : c.hdrLen + n ≤ CGI_HDR_SIZE := by split at hn <;> omega
    rw [List.nil_append] at hslice
    rw [findHeaderEnd_eq, hslice, hend]
    dsimp only
    have hb := ((headerEnd_iff _ _).mp hend).le
    have htake : (c.hdrBuf.write c.hdrLen (d.take n)).slice 0 b =
        (d.take CGI_HDR_SIZE).take b := by
      have hlen' := congrArg List.length hslice
      rw [Mem.length_slice] at hlen'
      rw [← hslice, Mem.take_slice _ (by omega), Nat.zero_add]
    have harm := finishHeader_arms (hr1 (c.hdrBuf.write c.hdrLen (d.take n)) (c.hdrLen + n)
      (c.bodyBuf.write 0 d)) hle (htake.symm ▸ hlines) hfit
    rw [harm]
  have htd : d.take CGI_BODY_SIZE = d := List.take_of_length_le hlen
  unfold readerLoop
  rw [if_neg (by simp [hu])]
  dsimp only
  rw [htd, if_neg hne]
  rcases hres : onPipeBytes c d with ⟨c', calls, e⟩
  rw [hres] at hexit hon
  dsimp only at hexit
  subst hexit
  refine ⟨rfl, ?_, hon.notEof, hon.outFd, hon.active⟩
  dsimp only
  rw [pipeReads_pipeRead, hon.noRead]

/-- End of file with nothing waiting to be sent. -/
theorem readerLoop_eof {c : CgiState} {sent : Bytes} {ps : List Bytes} (h : Relay c sent ps)
    (hb : c.bodyLen = 0) (he : c.eof = false) :
    (readerLoop c [.ok []]).2.2 = .armClient ∧ pipeReads (readerLoop c [.ok []]).2.1 = [[]] ∧
      (readerLoop c [.ok []]).1.eof = true ∧ (readerLoop c [.ok []]).1.active = c.active := by
  have hu : unsentChunk c = false := by simp [unsentChunk, hb]
  have heof := onPipeEof_onEof h hb he
  unfold readerLoop
  rw [if_neg (by simp [hu])]
  dsimp only
  rw [List.take_nil, if_pos rfl]
  exact ⟨heof.arms, by rw [pipeReads_pipeRead, heof.noRead], heof.eof, heof.active⟩

/-- The callback around a read that ends with the client armed. -/
theorem stdoutReady_arms {c : Conn} (hact : c.r.cgi.active = true) (hfd : c.r.cgi.outFd ≠ none)
    {answers : List (Ans Bytes)} (reaped : Bool)
    (harm : (readerLoop c.r.cgi answers).2.2 = .armClient) :
    (zvCgiOnStdoutReady answers reaped c).1.r.cgi = (readerLoop c.r.cgi answers).1 ∧
      pipeReads (zvCgiOnStdoutReady answers reaped c).1.tr =
        pipeReads c.tr ++ pipeReads (readerLoop c.r.cgi answers).2.1 := by
  unfold zvCgiOnStdoutReady
  rw [if_neg (by simp [hact, hfd])]
  have hsame : c.delTimer.r = c.r := rfl
  dsimp only
  rw [hsame]
  rcases hres : readerLoop c.r.cgi answers with ⟨cgi, calls, e⟩
  rw [hres] at harm
  dsimp only at harm ⊢
  subst harm
  dsimp only
  split
  · exact ⟨rfl, by simp [Conn.addTimer, Conn.rearmEvent, Conn.emit, Conn.delTimer, pipeReads]⟩
  · exact ⟨rfl, by simp [Conn.addTimer, Conn.rearmEvent, Conn.emit, Conn.delTimer, pipeReads]⟩

/-- The callback around a writer that gets everything out. -/
theorem clientWritable_drains {c : Conn} (h : CgiInv c) (hact : c.r.cgi.active = true) {n : Nat}
    (hn : (owed c.r.cgi).length < n) (reaped : Bool) :
    (zvCgiOnClientWritable (List.replicate n (.ok 1)) reaped c).2 =
        (if c.r.cgi.eof then .finished else .needMore) ∧
      pipeReads (zvCgiOnClientWritable (List.replicate n (.ok 1)) reaped c).1.tr =
        pipeReads c.tr ∧
      (zvCgiOnClientWritable (List.replicate n (.ok 1)) reaped c).1.r.cgi =
        (writerLoop c.r.cgi (List.replicate n (.ok 1))).1 := by
  have hdrain := writerLoop_drains h.relay.writer hn
  have hspec := writerLoop_spec h.relay.writer (List.replicate n (.ok 1))
  refine ⟨(zvCgiOnClientWritable_snd hact _ _).trans hdrain, ?_⟩
  unfold zvCgiOnClientWritable
  rw [if_neg (by simp [hact])]
  rcases hres : writerLoop c.r.cgi (List.replicate n (.ok 1)) with ⟨cgi, calls, e⟩
  rw [hres] at hspec hdrain
  have hrd := (onlyWrites_nil hspec.onlyWrites).2
  dsimp only at hrd hdrain ⊢
  have htr : pipeReads (c.emit calls).tr = pipeReads c.tr := by
    simp [Conn.emit, hrd]
  rcases he : c.r.cgi.eof with _ | _
  · have hmore : e = .needMore := by simpa [he] using hdrain
    subst hmore
    dsimp only
    split
    · exact ⟨by simpa [Conn.watchPipe, Conn.emit, pipeReads] using htr, rfl⟩
    · exact ⟨htr, rfl⟩
  · have hfin : e = .finished := by simpa [he] using hdrain
    subst hfin
    dsimp only
    split
    · exact ⟨by simpa [Conn.emit, pipeReads] using htr, rfl⟩
    · exact ⟨by simpa [Conn.emit] using htr, rfl⟩

/-- A script whose whole output arrives in one read, for a client that takes every byte. -/
theorem relay_once {c : Conn} (hc : Started c) {d : Bytes} (hne : d ≠ [])
    (hlen : d.length ≤ CGI_BODY_SIZE) {b status : Nat} {ct : Bytes}
    (hend : headerEnd (d.take CGI_HDR_SIZE) = some b)
    (hlines : readCgiHeader 200 [] (splitLines ((d.take CGI_HDR_SIZE).take b)) = some (status, ct))
    (hfit : (cgiHeaderText status ct).length < CGI_HTTP_HEADER_SIZE) :
    ∃ m n c', zvCgiOnClientWritable (List.replicate n (.ok 1)) true
        (cgiRun c [.stdoutReady [.ok d] true, .clientWritable (List.replicate m (.ok 1)) true,
          .stdoutReady [.ok []] true]) = (c', .finished) ∧ pipeReads c'.tr = [d, []] := by
  obtain ⟨htr, old, fd, cf, pid, outR, hst⟩ := started_cgi hc
  have h0 := cgiInv_started hc
  have hact0 : c.r.cgi.active = true := by rw [hst]; rfl
  have hfd0 : c.r.cgi.outFd ≠ none := by rw [hst]; exact fun hx => by cases hx
  have hd0 : c.r.cgi.headersDone = false := by rw [hst]; rfl
  have he0 := h0.relay.fdOpen hfd0
  -- The read completes the header.
  have hrel0 := h0.relay
  have hcol0 := (tracks_early (h0.tracks hact0) hd0 he0).2
  rw [htr] at hrel0 hcol0
  have htot : c.r.cgi.outTotal + d.length ≤ c.r.cgi.outLimit := by
    rw [hst]
    change 0 + d.length ≤ 1024 * 1024
    have : CGI_BODY_SIZE = 8192 := rfl
    omega
  obtain ⟨harm1, hread1, he1, hfd1, hact1⟩ :=
    readerLoop_header hrel0 hd0 hcol0 hne hlen htot hend hlines hfit
  obtain ⟨hcgi1, htr1⟩ := stdoutReady_arms hact0 hfd0 true harm1
  have h1 := cgiInv_stdoutReady h0 [.ok d] true
  rw [← hcgi1] at he1 hfd1 hact1
  rw [hread1, htr] at htr1
  obtain ⟨c1, hc1⟩ : ∃ c1, c1 = (zvCgiOnStdoutReady [.ok d] true c).1 := ⟨_, rfl⟩
  rw [← hc1] at h1 he1 hfd1 hact1 htr1
  -- The client takes the header and the piece.
  obtain ⟨m, hm⟩ : ∃ m, (owed c1.r.cgi).length < m := ⟨_, Nat.lt_succ_self _⟩
  have hactc1 : c1.r.cgi.active = true := hact1.trans hact0
  obtain ⟨hex2, htr2, hcgi2⟩ := clientWritable_drains h1 hactc1 hm true
  have h2 := cgiInv_clientWritable h1 (List.replicate m (.ok 1)) true
  have hspec2 := writerLoop_spec h1.relay.writer (List.replicate m (.ok 1))
  have hdrain2 := writerLoop_drains h1.relay.writer hm
  rw [he1] at hdrain2
  obtain ⟨hb2, he2⟩ := hspec2.needMore hdrain2
  obtain ⟨_, _, _, _, _, _, _, _, _, hfr2⟩ := hspec2.frame
  obtain ⟨c2, hc2⟩ : ∃ c2, c2 = (zvCgiOnClientWritable (List.replicate m (.ok 1)) true c1).1 :=
    ⟨_, rfl⟩
  rw [← hcgi2, ← hc2] at hb2 he2 hfr2
  rw [← hc2] at h2 htr2
  have hactc2 : c2.r.cgi.active = true := by rw [hfr2]; exact hactc1
  have hfd2 : c2.r.cgi.outFd ≠ none := by rw [hfr2]; exact hfd1 ▸ hfd0
  -- End of file.
  obtain ⟨harm3, hread3, he3, hact3⟩ := readerLoop_eof h2.relay hb2 he2
  obtain ⟨hcgi3, htr3⟩ := stdoutReady_arms hactc2 hfd2 true harm3
  have h3 := cgiInv_stdoutReady h2 [.ok []] true
  obtain ⟨c3, hc3⟩ : ∃ c3, c3 = (zvCgiOnStdoutReady [.ok []] true c2).1 := ⟨_, rfl⟩
  rw [← hcgi3, ← hc3] at he3 hact3
  rw [← hc3, hread3, htr2, htr1] at htr3
  rw [← hc3] at h3
  -- The client takes the final chunk.
  obtain ⟨n, hn⟩ : ∃ n, (owed c3.r.cgi).length < n := ⟨_, Nat.lt_succ_self _⟩
  obtain ⟨hex4, htr4, _⟩ := clientWritable_drains h3 (hact3.trans hactc2) hn true
  rw [he3, if_pos rfl] at hex4
  refine ⟨m, n, _, ?_, htr4.trans htr3⟩
  have hrun : cgiRun c [.stdoutReady [.ok d] true, .clientWritable (List.replicate m (.ok 1)) true,
      .stdoutReady [.ok []] true] = c3 := by
    rw [hc3, hc2, hc1]
    rfl
  rw [hrun, ← hex4]

end CgiOutputLemmas

/-- For every run of the two callbacks, in any order and with any answers, that ends with
`zv_cgi_on_client_writable` returning `0`: if the first header terminator of the
output ends at `b`, within the header buffer, then the client decodes the output
behind it exactly when the read that brings in offset `b` ends at offset 4096 or before. -/
theorem cgi_relay_exact_iff {c : Conn} (hc : Started c) (evs : List CgiEvent)
    {answers : List (Ans Nat)} {reaped : Bool} {c' : Conn}
    (hfin : zvCgiOnClientWritable answers reaped (cgiRun c evs) = (c', .finished)) {b : Nat}
    (hb : FirstEnd (pipeReads c'.tr).flatten b) (hle : b ≤ CGI_HDR_SIZE) :
    dechunk ((accepted c'.tr).drop (builtHeader c'.r.cgi).length) =
        some ((pipeReads c'.tr).flatten.drop b) ↔
      readEnd (pipeReads c'.tr) b ≤ CGI_HDR_SIZE := by
  rw [dechunk_intake hc evs hfin hb hle, Option.some.injEq]
  exact intake_pieces_iff hb hle

/-- A script that writes the two bytes `Hi` behind its header. -/
theorem cgi_relay_exact_iff_hi : ∃ evs answers reaped c',
    zvCgiOnClientWritable answers reaped (cgiRun helloConn evs) = (c', .finished) ∧
    pipeReads c'.tr = [ascii "\n\nHi", []] ∧
    (dechunk ((accepted c'.tr).drop (builtHeader c'.r.cgi).length) = some (ascii "Hi") ↔
      readEnd (pipeReads c'.tr) 2 ≤ CGI_HDR_SIZE) := by
  obtain ⟨m, n, c', hfin, hreads⟩ := relay_once helloConn_started (d := ascii "\n\nHi")
    (b := 2) (by decide) (by decide) (by decide) rfl (plainHeader_fits (by decide))
  have hflat : (pipeReads c'.tr).flatten = ascii "\n\nHi" := by rw [hreads]; decide
  have hb : FirstEnd (pipeReads c'.tr).flatten 2 := by
    rw [hflat]
    exact (headerEnd_iff _ _).mp (by decide)
  have h := cgi_relay_exact_iff helloConn_started _ hfin hb (by decide)
  rw [hflat] at h
  exact ⟨_, _, _, c', hfin, hreads, h⟩

/-- An output whose header is the empty line and whose body is 4095 letters. -/
def longOutput : Bytes := LF :: LF :: List.replicate 4095 'a'.toUInt8

/-- When `longOutput` arrives in one read, its last byte is lost. -/
theorem cgi_relay_loses_byte : ∃ evs answers reaped c',
    zvCgiOnClientWritable answers reaped (cgiRun helloConn evs) = (c', .finished) ∧
    pipeReads c'.tr = [longOutput, []] ∧ FirstEnd longOutput 2 ∧
    longOutput.length ≤ 1024 * 1024 ∧
    (∀ line ∈ splitLines (longOutput.take 2), line.length < 512) ∧
    dechunk ((accepted c'.tr).drop (builtHeader c'.r.cgi).length) ≠ some (longOutput.drop 2) := by
  have hlen : longOutput.length = 4097 := by
    rw [longOutput, List.length_cons, List.length_cons, List.length_replicate]
  have htake : longOutput.take 2 = [LF, LF] := rfl
  have hfirst : FirstEnd longOutput 2 := by
    refine ⟨by omega, Or.inl (htake ▸ List.suffix_refl _), fun b' hb' he => ?_⟩
    have h2 := two_le_of_endsHeader he
    rw [List.length_take] at h2
    omega
  have hend := (headerEnd_iff _ _).mpr (hfirst.take (show 2 ≤ CGI_HDR_SIZE by decide))
  have hlines : readCgiHeader 200 [] (splitLines ((longOutput.take CGI_HDR_SIZE).take 2)) =
      some (200, []) := by
    rw [List.take_take, Nat.min_eq_left (by decide), htake]
    rfl
  have hne : longOutput ≠ [] := List.ne_nil_of_length_pos (by omega)
  have hfits : longOutput.length ≤ CGI_BODY_SIZE := by
    have : CGI_BODY_SIZE = 8192 := rfl
    omega
  obtain ⟨m, n, c', hfin, hreads⟩ := relay_once helloConn_started hne hfits hend
    hlines (plainHeader_fits (by decide))
  refine ⟨_, _, _, c', hfin, hreads, hfirst, by omega, by rw [htake]; decide, fun hx => ?_⟩
  have hflat : (pipeReads c'.tr).flatten = longOutput := by
    rw [hreads]
    exact List.append_nil _
  have hb : FirstEnd (pipeReads c'.tr).flatten 2 := hflat.symm ▸ hfirst
  have hle : 2 ≤ CGI_HDR_SIZE := by decide
  rw [dechunk_intake helloConn_started _ hfin hb hle, ← hflat] at hx
  have hread := (intake_pieces_iff hb hle).mp (Option.some.inj hx)
  rw [hreads, readEnd, if_pos (by omega), hlen] at hread
  exact absurd hread (by decide)

end Zaver
