import Zaver.Cgi

/-!
# The chunk writer

What `zv_cgi_on_client_writable` owes the client is spread over five buffers and
five sent-counters. `owed` puts the rest of all of them behind each other, the
final chunk included. Every `writev` then removes exactly the accepted bytes from
the front of `owed` (`owed_chargeSent`), and `zv_cgi_on_stdout_ready` only ever
inserts a whole chunk in front of the final one. So at any time

  accepted ++ owed = header ++ chunks of the pieces loaded ++ final chunk,

which is the field `total` of the invariant `Balanced`.

Results:
1. `writerLoop_spec`: one call of the writer, whatever `writev` answers.
2. `writerLoop_returns`: a call ends after finitely many answers that are not `EINTR`.
3. `Ready.load`: loading a piece keeps the sum.

The reader's side is in `Zaver.CgiReader`, runs of both in `Zaver.CgiRelay`.
-/

namespace Zaver

open CString Chunked Gather

/-! ## What is owed -/

/-- The rest of the HTTP header. -/
def headerOwed (c : CgiState) : Bytes := c.httpHeader.slice c.httpHeaderSent c.httpHeaderLen

/-- The rest of the chunk in `cgi_body_buf`. -/
def chunkOwed (c : CgiState) : Bytes :=
  if c.bodyLen > 0 then
    c.chunkPrefix.slice c.chunkPrefixSent c.chunkPrefixLen ++
      (c.bodyBuf.slice c.bodySent c.bodyLen ++ CRLF.drop c.chunkSuffixSent)
  else []

/-- The rest of the final chunk, which need not have been written to its buffer yet. -/
def finalOwed (c : CgiState) : Bytes :=
  if c.finalChunkLen = 0 then lastChunk
  else c.finalChunk.slice c.finalChunkSent c.finalChunkLen

/-- Everything owed if no further piece comes. -/
def owed (c : CgiState) : Bytes := headerOwed c ++ (chunkOwed c ++ finalOwed c)

/-- The HTTP header, once built. -/
def builtHeader (c : CgiState) : Bytes := c.httpHeader.slice 0 c.httpHeaderLen

/-- The counters of the writer are in range and agree with each other. -/
structure WriterOk (c : CgiState) : Prop where
  header : c.httpHeaderSent ≤ c.httpHeaderLen
  sizeLine : c.chunkPrefixSent ≤ c.chunkPrefixLen
  body : c.bodySent ≤ c.bodyLen
  suffix : c.chunkSuffixSent ≤ 2
  pending : 0 < c.bodyLen → unsentChunk c = true
  final : c.finalChunkLen = 0 ∧ c.finalChunkSent = 0 ∨
    c.finalChunkLen = 5 ∧ c.finalChunkSent ≤ 5 ∧ c.finalChunk.slice 0 5 = lastChunk
  last : 0 < c.finalChunkSent →
    c.eof = true ∧ c.bodyLen = 0 ∧ c.httpHeaderSent = c.httpHeaderLen

/-- The header goes out before the chunk behind it gives its buffer free. -/
def HeaderOut (c : CgiState) : Prop := c.bodyLen = 0 → c.httpHeaderSent = c.httpHeaderLen

namespace ChunkWriterLemmas

theorem unsentChunk_iff (c : CgiState) :
    unsentChunk c = true ↔ 0 < c.bodyLen ∧
      (c.chunkPrefixSent < c.chunkPrefixLen ∨ c.bodySent < c.bodyLen ∨ c.chunkSuffixSent < 2) := by
  simp [unsentChunk, or_assoc]

/-- A buffer with no unsent chunk is free. -/
theorem bodyLen_of_not_unsent {c : CgiState} (h : WriterOk c) (hu : unsentChunk c = false) :
    c.bodyLen = 0 := by
  by_contra hne
  rw [h.pending (Nat.pos_of_ne_zero hne)] at hu
  exact Bool.noConfusion hu

theorem finalOwed_of_unsent {c : CgiState} (h : WriterOk c) (hs : c.finalChunkSent = 0) :
    finalOwed c = lastChunk := by
  unfold finalOwed
  rcases h.final with ⟨h0, _⟩ | ⟨h5, _, htext⟩
  · rw [if_pos h0]
  · rw [if_neg (by omega), h5, hs, htext]

theorem finalSent_of_not_eof {c : CgiState} (h : WriterOk c) (he : c.eof = false) :
    c.finalChunkSent = 0 := by
  by_contra hne
  rw [(h.last (Nat.pos_of_ne_zero hne)).1] at he
  exact Bool.noConfusion he

/-! ### The final chunk -/

theorem ensureFinalChunk_ok {c : CgiState} (h : WriterOk c) :
    WriterOk (ensureFinalChunk c) ∧ owed (ensureFinalChunk c) = owed c ∧
      (ensureFinalChunk c).finalChunkLen = 5 := by
  have hlen : (ascii "0\r\n\r\n").length = 5 := by decide
  have hw := Mem.slice_write_self c.finalChunk 0 (ascii "0\r\n\r\n")
  rw [hlen, Nat.zero_add] at hw
  unfold ensureFinalChunk
  rcases h.final with ⟨h0, _⟩ | ⟨h5, hle, htext⟩
  · rw [if_pos h0]
    refine ⟨⟨h.header, h.sizeLine, h.body, h.suffix, h.pending,
      Or.inr ⟨rfl, Nat.zero_le 5, hw⟩, fun hpos => absurd hpos (by simp)⟩, ?_, rfl⟩
    have hf : finalOwed { c with
        finalChunk := c.finalChunk.write 0 (ascii "0\r\n\r\n"), finalChunkLen := 5
        finalChunkSent := 0 } = finalOwed c := by
      simp only [finalOwed, h0, if_true]
      exact hw
    unfold owed
    rw [hf]
    rfl
  · rw [if_neg (by omega)]
    exact ⟨h, rfl, h5⟩

/-! ### One `writev` -/

theorem flatten_iovec (m : Mem UInt8) (sent len : Nat) :
    (iovec m sent len).flatten = m.slice sent len := by
  unfold iovec
  split
  · simp
  · next h => rw [Mem.slice_of_le m (by omega)]; rfl

theorem flatten_suffix {k : Nat} (h : k ≤ 2) :
    (if k < 2 then [CRLF.drop k] else []).flatten = CRLF.drop k := by
  split
  · simp
  · next hk =>
    have h2 : k = 2 := by omega
    subst h2
    rfl

/-- What one pass offers to `writev`: everything owed, except that the final chunk
waits until the body buffer is free. -/
inductive Offer (c : CgiState) : CgiState × Option (List Bytes) → Prop
  | chunk (iov : List Bytes) : 0 < c.bodyLen → iov.flatten = headerOwed c ++ chunkOwed c →
      iov ≠ [] → Offer c (c, some iov)
  | final (iov : List Bytes) : c.bodyLen = 0 → c.eof = true →
      iov.flatten = owed (ensureFinalChunk c) → Offer c (ensureFinalChunk c, some iov)
  | nothing : c.bodyLen = 0 → c.eof = false → Offer c (c, none)

theorem clientIov_offer {c : CgiState} (h : WriterOk c) : Offer c (clientIov c) := by
  unfold clientIov
  dsimp only
  split
  · next hb =>
    refine Offer.chunk _ hb ?_ ?_
    · simp only [List.flatten_append, flatten_iovec, flatten_suffix h.suffix, headerOwed, chunkOwed,
        if_pos hb, List.append_assoc]
    · -- An unsent chunk contributes at least one entry.
      intro hnil
      have hu := ((unsentChunk_iff c).mp (h.pending hb)).2
      simp only [List.append_eq_nil_iff, iovec] at hnil
      obtain ⟨⟨⟨-, hp⟩, hbd⟩, hs⟩ := hnil
      rcases hu with hu | hu | hu
      · simp [hu] at hp
      · simp [hu] at hbd
      · simp [hu] at hs
  · next hb =>
    have hb0 : c.bodyLen = 0 := by omega
    split
    · next he =>
      refine Offer.final _ hb0 he ?_
      have h5 := (ensureFinalChunk_ok h).2.2
      have hbody : (ensureFinalChunk c).bodyLen = 0 := by
        unfold ensureFinalChunk
        split <;> exact hb0
      have hh : headerOwed (ensureFinalChunk c) = headerOwed c := by
        unfold ensureFinalChunk
        split <;> rfl
      have hc : chunkOwed (ensureFinalChunk c) = [] := by
        simp [chunkOwed, hbody]
      have hf : finalOwed (ensureFinalChunk c) = (ensureFinalChunk c).finalChunk.slice
          (ensureFinalChunk c).finalChunkSent (ensureFinalChunk c).finalChunkLen := by
        unfold finalOwed
        rw [if_neg (by omega)]
      rw [List.flatten_append, flatten_iovec, flatten_iovec, owed, hc, hh, hf]
      rfl
    · next he => exact Offer.nothing hb0 (by simpa using he)

/-- The writer only moves its counters and fills the buffer of the final chunk. -/
def WriterFrame (c c' : CgiState) : Prop :=
  ∃ hs pl ps ss bl bs fc fl fs, c' =
    { c with
      httpHeaderSent := hs, chunkPrefixLen := pl, chunkPrefixSent := ps, chunkSuffixSent := ss
      bodyLen := bl, bodySent := bs, finalChunk := fc, finalChunkLen := fl, finalChunkSent := fs }

theorem WriterFrame.refl (c : CgiState) : WriterFrame c c := ⟨_, _, _, _, _, _, _, _, _, rfl⟩

theorem WriterFrame.trans {c c' c'' : CgiState} (h : WriterFrame c c') (h' : WriterFrame c' c'') :
    WriterFrame c c'' := by
  obtain ⟨_, _, _, _, _, _, _, _, _, rfl⟩ := h
  obtain ⟨_, _, _, _, _, _, _, _, _, rfl⟩ := h'
  exact ⟨_, _, _, _, _, _, _, _, _, rfl⟩

theorem ensureFinalChunk_frame (c : CgiState) : WriterFrame c (ensureFinalChunk c) := by
  unfold ensureFinalChunk
  split
  · exact ⟨_, _, _, _, _, _, _, _, _, rfl⟩
  · exact WriterFrame.refl c

theorem chargeChunk_frame (c : CgiState) (left : Nat) : ∃ pl ps ss bl bs, (chargeChunk c left).1 =
    { c with
      chunkPrefixLen := pl, chunkPrefixSent := ps, chunkSuffixSent := ss
      bodyLen := bl, bodySent := bs } := by
  unfold chargeChunk
  dsimp only
  split
  · exact ⟨_, _, _, _, _, rfl⟩
  · exact ⟨_, _, _, _, _, rfl⟩

theorem chargeSent_frame (c : CgiState) (n : Nat) : WriterFrame c (chargeSent c n) := by
  have hbody : ∀ (c : CgiState) (left : Nat), WriterFrame c (chargeBody c left).1 := by
    intro c left
    unfold chargeBody
    split
    · obtain ⟨_, _, _, _, _, h⟩ := chargeChunk_frame c left
      rw [h]
      exact ⟨_, _, _, _, _, _, _, _, _, rfl⟩
    · exact WriterFrame.refl c
  have hfinal : ∀ (c : CgiState) (left : Nat), WriterFrame c (chargeFinal c left) := by
    intro c left
    unfold chargeFinal
    split
    · exact ⟨_, _, _, _, _, _, _, _, _, rfl⟩
    · exact WriterFrame.refl c
  have hheader : WriterFrame c (chargeHeader c n).1 := ⟨_, _, _, _, _, _, _, _, _, rfl⟩
  exact (hheader.trans (hbody _ _)).trans (hfinal _ _)

/-- The chunk counters move over the accepted bytes. -/
theorem chargeChunk_ok {c : CgiState} (h : WriterOk c) (hb : 0 < c.bodyLen) {left : Nat}
    (hle : left ≤ (chunkOwed c).length) (hf : c.finalChunkSent = 0) :
    chunkOwed (chargeChunk c left).1 = (chunkOwed c).drop left ∧ (chargeChunk c left).2 = 0 ∧
      WriterOk (chargeChunk c left).1 := by
  have hlen : (chunkOwed c).length =
      (c.chunkPrefixLen - c.chunkPrefixSent) + (c.bodyLen - c.bodySent) +
        (2 - c.chunkSuffixSent) := by
    simp [chunkOwed, hb, CRLF, Nat.add_assoc]
  have h1 := slice_advance c.chunkPrefix (k := left) h.sizeLine
    (c.bodyBuf.slice c.bodySent c.bodyLen ++ CRLF.drop c.chunkSuffixSent)
  have e1 := advance_snd (k := left) h.sizeLine
  have l1 := advance_le (k := left) h.sizeLine
  rcases ha1 : advance c.chunkPrefixLen c.chunkPrefixSent left with ⟨ps, left1⟩
  rw [ha1] at h1 e1 l1
  have h2 := slice_advance c.bodyBuf (k := left1) h.body (CRLF.drop c.chunkSuffixSent)
  have e2 := advance_snd (k := left1) h.body
  have l2 := advance_le (k := left1) h.body
  rcases ha2 : advance c.bodyLen c.bodySent left1 with ⟨bs, left2⟩
  rw [ha2] at h2 e2 l2
  have h3 := drop_advance (d := CRLF) (k := left2) rfl h.suffix []
  have e3 := advance_snd (k := left2) h.suffix
  have l3 := advance_le (k := left2) h.suffix
  rcases ha3 : advance 2 c.chunkSuffixSent left2 with ⟨ss, left3⟩
  have ha3' : advance CRLF.length c.chunkSuffixSent left2 = (ss, left3) := ha3
  rw [ha3'] at h3
  rw [ha3] at e3 l3
  simp only [List.append_nil, List.drop_nil] at h3
  dsimp only at h1 h2 h3 e1 e2 e3 l1 l2 l3
  have hleft : left3 = 0 := by omega
  have hdrop : (chunkOwed c).drop left =
      c.chunkPrefix.slice ps c.chunkPrefixLen ++ (c.bodyBuf.slice bs c.bodyLen ++ CRLF.drop ss) := by
    rw [chunkOwed, if_pos hb, h1, h2, h3]
  simp only [chargeChunk, ha1, ha2, ha3]
  split
  · next hall =>
    obtain ⟨rfl, rfl, rfl⟩ := hall
    refine ⟨?_, hleft, ⟨h.header, Nat.le_refl 0, Nat.le_refl 0, Nat.zero_le 2,
      fun hpos => absurd hpos (Nat.lt_irrefl 0), h.final, fun hpos => absurd hpos ?_⟩⟩
    · rw [hdrop]
      simp [chunkOwed, CRLF]
    · simp [hf]
  · next hnot =>
    refine ⟨?_, hleft, ⟨h.header, l1, l2, l3, fun _ => ?_, h.final, fun hpos => absurd hpos ?_⟩⟩
    · rw [hdrop, chunkOwed, if_pos hb]
    · refine (unsentChunk_iff _).mpr ⟨hb, ?_⟩
      dsimp only
      omega
    · simp [hf]

/-- After a `writev` that took `k` bytes, the first `k` bytes are owed no more. -/
theorem owed_chargeSent {c : CgiState} (h : WriterOk c) {k : Nat}
    (hk : 0 < c.bodyLen ∧ k ≤ (headerOwed c ++ chunkOwed c).length ∨
      c.bodyLen = 0 ∧ c.eof = true ∧ c.finalChunkLen = 5) :
    owed (chargeSent c k) = (owed c).drop k ∧ WriterOk (chargeSent c k) ∧
      (HeaderOut c → HeaderOut (chargeSent c k)) := by
  have h1 := slice_advance c.httpHeader (k := k) h.header (chunkOwed c ++ finalOwed c)
  have e1 := advance_snd (k := k) h.header
  have l1 := advance_le (k := k) h.header
  have g1 := le_advance c.httpHeaderLen c.httpHeaderSent k
  have f1 := advance_left (k := k) h.header
  rcases ha1 : advance c.httpHeaderLen c.httpHeaderSent k with ⟨hs, left⟩
  rw [ha1] at h1 e1 l1 g1 f1
  dsimp only at h1 e1 l1 g1 f1
  -- The header is charged first; `c1` is the state with its counter moved.
  obtain ⟨c1, hc1⟩ : ∃ c1, c1 = { c with httpHeaderSent := hs } := ⟨_, rfl⟩
  have hhdr : chargeHeader c k = (c1, left) := by
    unfold chargeHeader
    rw [ha1, hc1]
  have hok1 : WriterOk c1 := by
    subst hc1
    refine ⟨l1, h.sizeLine, h.body, h.suffix, h.pending, h.final, fun hpos => ?_⟩
    obtain ⟨he, hb, hh⟩ := h.last hpos
    exact ⟨he, hb, Nat.le_antisymm l1 (hh ▸ g1)⟩
  have howed1 : owed c1 = headerOwed c1 ++ (chunkOwed c ++ finalOwed c) := by
    subst hc1
    rfl
  have hdrop : (owed c).drop k = headerOwed c1 ++ (chunkOwed c ++ finalOwed c).drop left := by
    subst hc1
    exact h1
  have hsent : chargeSent c k = chargeFinal (chargeBody c1 left).1 (chargeBody c1 left).2 := by
    unfold chargeSent
    rw [hhdr]
  rw [hsent]
  by_cases hleft : left = 0
  · have hb : chargeBody c1 left = (c1, 0) := by simp [chargeBody, hleft]
    have hf : chargeFinal c1 0 = c1 := by simp [chargeFinal]
    rw [hb, hf, hdrop, hleft, howed1]
    refine ⟨rfl, hok1, fun hout hb0 => ?_⟩
    subst hc1
    exact Nat.le_antisymm l1 (hout hb0 ▸ g1)
  have hpos : left > 0 := Nat.pos_of_ne_zero hleft
  rcases hk with ⟨hb, hle⟩ | ⟨hb, he, hf5⟩
  · -- The chunk is charged next, and nothing is left for the final chunk.
    have hb1 : 0 < c1.bodyLen := by subst hc1; exact hb
    have hco : chunkOwed c1 = chunkOwed c := by subst hc1; rfl
    have hle' : left ≤ (chunkOwed c1).length := by
      rw [List.length_append, headerOwed, Mem.length_slice] at hle
      rw [hco]
      omega
    have hf0 : c1.finalChunkSent = 0 := by
      by_contra hne
      have := (hok1.last (Nat.pos_of_ne_zero hne)).2.1
      omega
    obtain ⟨ho, hz, hok⟩ := chargeChunk_ok hok1 hb1 hle' hf0
    have hbody : chargeBody c1 left = chargeChunk c1 left := if_pos ⟨hpos, hb1⟩
    have hf : chargeFinal (chargeChunk c1 left).1 0 = (chargeChunk c1 left).1 := by
      simp [chargeFinal]
    rw [hbody, hz, hf]
    obtain ⟨_, _, _, _, _, hfr⟩ := chargeChunk_frame c1 left
    refine ⟨?_, hok, fun _ _ => by rw [hfr, hc1]; exact f1 hleft⟩
    have hh : headerOwed (chargeChunk c1 left).1 = headerOwed c1 := by rw [hfr]; rfl
    have hfin : finalOwed (chargeChunk c1 left).1 = finalOwed c := by rw [hfr, hc1]; rfl
    rw [owed, ho, hh, hfin, hdrop, hco, List.drop_append_of_le_length (hco ▸ hle')]
  · -- The body buffer is free: what is left goes to the final chunk.
    have hbody : chargeBody c1 left = (c1, left) := by
      refine if_neg fun hcon => ?_
      rw [hc1] at hcon
      exact absurd hcon.2 (by simp [hb])
    have hf1 : chargeFinal c1 left =
        { c1 with finalChunkSent := (advance c1.finalChunkLen c1.finalChunkSent left).1 } := by
      refine if_pos ?_
      rw [hc1]
      exact ⟨hpos, he, hb, by simp [hf5]⟩
    have hfl : c.finalChunkSent ≤ c.finalChunkLen := by
      rcases h.final with ⟨_, hz⟩ | ⟨_, hz, _⟩ <;> omega
    have h2 := slice_advance c.finalChunk (k := left) hfl []
    have l2 := advance_le (k := left) hfl
    simp only [List.append_nil, List.drop_nil] at h2
    have hfin : finalOwed c = c.finalChunk.slice c.finalChunkSent c.finalChunkLen := by
      simp [finalOwed, hf5]
    have hco : chunkOwed c = [] := by simp [chunkOwed, hb]
    rw [hbody, hf1, hdrop, hco, List.nil_append, hfin, h2, hc1]
    refine ⟨?_, ⟨l1, h.sizeLine, h.body, h.suffix, h.pending, Or.inr ⟨hf5, ?_, ?_⟩, fun _ => ?_⟩,
      fun _ _ => f1 hleft⟩
    · simp [owed, headerOwed, chunkOwed, finalOwed, hb, hf5]
    · dsimp only
      omega
    · rcases h.final with ⟨hz, _⟩ | ⟨_, _, htext⟩
      · omega
      · exact htext
    · exact ⟨he, hb, f1 hleft⟩

theorem headerOut_ensureFinalChunk (c : CgiState) :
    HeaderOut (ensureFinalChunk c) = HeaderOut c := by
  unfold ensureFinalChunk
  split <;> rfl

/-- One pass of the writer that took the bytes `bs`. -/
theorem charge_offer {c c' : CgiState} {iov : List Bytes} (h : WriterOk c)
    (ho : Offer c (c', some iov)) (n : Nat) :
    iov.flatten.take n ++ owed (chargeSent c' (iov.flatten.take n).length) = owed c ∧
      WriterOk (chargeSent c' (iov.flatten.take n).length) ∧
      WriterFrame c (chargeSent c' (iov.flatten.take n).length) ∧
      (HeaderOut c → HeaderOut (chargeSent c' (iov.flatten.take n).length)) := by
  have hframe : WriterFrame c c' := by
    cases ho with
    | chunk => exact WriterFrame.refl c
    | final => exact ensureFinalChunk_frame c
  suffices hs : ∃ rest, owed c = iov.flatten ++ rest ∧
      owed (chargeSent c' (iov.flatten.take n).length) =
        (owed c).drop (iov.flatten.take n).length ∧
      WriterOk (chargeSent c' (iov.flatten.take n).length) ∧
      (HeaderOut c → HeaderOut (chargeSent c' (iov.flatten.take n).length)) by
    obtain ⟨rest, hrest, howed, hok, hout⟩ := hs
    refine ⟨?_, hok, hframe.trans (chargeSent_frame _ _), hout⟩
    have htake : iov.flatten.take n = (owed c).take (iov.flatten.take n).length := by
      rw [hrest, List.length_take, List.take_append_of_le_length (Nat.min_le_right _ _),
        List.take_eq_take_min]
    rw [howed]
    generalize (iov.flatten.take n).length = k at htake ⊢
    rw [htake, List.take_append_drop]
  cases ho with
  | chunk _ hb hflat _ =>
    refine ⟨finalOwed c, by rw [hflat, owed, List.append_assoc], ?_⟩
    refine owed_chargeSent h (Or.inl ⟨hb, ?_⟩)
    rw [← hflat, List.length_take]
    exact Nat.min_le_right _ _
  | final _ hb he hflat =>
    obtain ⟨hok, howed, h5⟩ := ensureFinalChunk_ok h
    obtain ⟨_, _, _, _, _, _, _, _, _, hfr⟩ := ensureFinalChunk_frame c
    refine ⟨[], by rw [hflat, List.append_nil, howed], ?_⟩
    rw [← howed, ← headerOut_ensureFinalChunk c]
    refine owed_chargeSent hok (Or.inr ⟨?_, ?_, h5⟩)
    · unfold ensureFinalChunk
      split <;> exact hb
    · rw [hfr]
      exact he

/-! ### One call of the writer -/

/-- What a call of the writer does, whatever the answers to its `writev` calls. -/
structure WriterSpec (c : CgiState) (res : CgiState × List Call × WriteExit) : Prop where
  ok : WriterOk res.1
  frame : WriterFrame c res.1
  sent : accepted res.2.1 ++ owed res.1 = owed c
  onlyWrites : ∀ call ∈ res.2.1, ∃ bs, call = .writev bs
  finished : res.2.2 = .finished → owed res.1 = []
  needMore : res.2.2 = .needMore → res.1.bodyLen = 0 ∧ res.1.eof = false
  headerOut : HeaderOut c → HeaderOut res.1
  busy : res.2.2 = .wouldBlock ∨ res.2.2 = .inCall → 0 < res.1.bodyLen ∨ res.1.eof = true

theorem writerEnd_spec {c : CgiState} (h : WriterOk c)
    (hidle : c.eof = true → owed c = []) (hbody : c.eof = false → c.bodyLen = 0) :
    WriterSpec c (writerEnd c) := by
  obtain ⟨hok, howed, h5⟩ := ensureFinalChunk_ok h
  unfold writerEnd
  split
  · next he =>
    have hframe := ensureFinalChunk_frame c
    have heof : (ensureFinalChunk c).eof = true := by
      obtain ⟨_, _, _, _, _, _, _, _, _, hfr⟩ := hframe
      rw [hfr]
      exact he
    have hout : HeaderOut c → HeaderOut (ensureFinalChunk c) :=
      (headerOut_ensureFinalChunk c).symm ▸ id
    dsimp only
    split
    · exact ⟨hok, hframe, howed, fun _ hc => absurd hc List.not_mem_nil,
        fun _ => howed.trans (hidle he), (fun hx => by cases hx), hout, (fun hx => by rcases hx with h | h <;> cases h)⟩
    · exact ⟨hok, hframe, howed, fun _ hc => absurd hc List.not_mem_nil, (fun hx => by cases hx),
        (fun hx => by cases hx), hout, fun _ => Or.inr heof⟩
  · next he =>
    have heof : c.eof = false := by simpa using he
    exact ⟨h, WriterFrame.refl c, rfl, fun _ hc => absurd hc List.not_mem_nil,
      (fun hx => by cases hx), fun _ => ⟨hbody heof, heof⟩, id, (fun hx => by rcases hx with h | h <;> cases h)⟩

/-- Leaving the loop with nothing offered. -/
theorem writerEnd_of_offer {c c' : CgiState} {o : Option (List Bytes)} (h : WriterOk c)
    (ho : Offer c (c', o)) (hnone : o = none ∨ o = some []) : WriterSpec c (writerEnd c') := by
  cases ho with
  | chunk iov _ _ hne =>
    rcases hnone with hn | hn
    · cases hn
    · exact absurd (Option.some.inj hn) hne
  | final iov hb he hflat =>
    obtain ⟨hok, howed, _⟩ := ensureFinalChunk_ok h
    have hnil : iov = [] := by
      rcases hnone with hn | hn
      · cases hn
      · exact Option.some.inj hn
    have hempty : owed (ensureFinalChunk c) = [] := by rw [← hflat, hnil]; rfl
    have hframe := ensureFinalChunk_frame c
    have heof : (ensureFinalChunk c).eof = true := by
      obtain ⟨_, _, _, _, _, _, _, _, _, hfr⟩ := hframe
      rw [hfr]
      exact he
    have hend := writerEnd_spec hok (fun _ => hempty) (fun hf => by rw [heof] at hf; cases hf)
    exact ⟨hend.ok, hframe.trans hend.frame, hend.sent.trans howed, hend.onlyWrites, hend.finished,
      hend.needMore, (headerOut_ensureFinalChunk c) ▸ hend.headerOut, hend.busy⟩
  | nothing hb he =>
    exact writerEnd_spec h (fun hf => by rw [he] at hf; cases hf) (fun _ => hb)

/-- A state that offers something holds an unsent chunk or has seen end of file. -/
theorem busy_of_offer {c c' : CgiState} {iov : List Bytes} (ho : Offer c (c', some iov)) :
    0 < c'.bodyLen ∨ c'.eof = true := by
  cases ho with
  | chunk _ hb _ _ => exact Or.inl hb
  | final _ _ he _ =>
    obtain ⟨_, _, _, _, _, _, _, _, _, hfr⟩ := ensureFinalChunk_frame c
    refine Or.inr ?_
    rw [hfr]
    exact he

/-- A pass that accepted nothing leaves what is owed. -/
theorem stay_of_offer {c c' : CgiState} {o : Option (List Bytes)} (h : WriterOk c)
    (ho : Offer c (c', o)) :
    WriterOk c' ∧ owed c' = owed c ∧ WriterFrame c c' ∧ (HeaderOut c → HeaderOut c') := by
  cases ho with
  | chunk => exact ⟨h, rfl, WriterFrame.refl c, id⟩
  | final =>
    obtain ⟨hok, howed, _⟩ := ensureFinalChunk_ok h
    exact ⟨hok, howed, ensureFinalChunk_frame c, (headerOut_ensureFinalChunk c).symm ▸ id⟩
  | nothing => exact ⟨h, rfl, WriterFrame.refl c, id⟩

theorem writerLoop_spec {c : CgiState} (h : WriterOk c) (answers : List (Ans Nat)) :
    WriterSpec c (writerLoop c answers) := by
  induction answers generalizing c with
  | nil =>
    have ho := clientIov_offer h
    unfold writerLoop
    rcases hio : clientIov c with ⟨c', _ | _ | ⟨b, iov⟩⟩ <;> rw [hio] at ho
    · exact writerEnd_of_offer h ho (Or.inl rfl)
    · exact writerEnd_of_offer h ho (Or.inr rfl)
    · obtain ⟨hok, howed, hframe, hout⟩ := stay_of_offer h ho
      exact ⟨hok, hframe, howed, fun _ hc => absurd hc List.not_mem_nil, (fun hx => by cases hx),
        (fun hx => by cases hx), hout, fun _ => busy_of_offer ho⟩
  | cons a answers ih =>
    have ho := clientIov_offer h
    unfold writerLoop
    rcases hio : clientIov c with ⟨c', _ | _ | ⟨b, iov⟩⟩ <;> rw [hio] at ho
    · exact writerEnd_of_offer h ho (Or.inl rfl)
    · exact writerEnd_of_offer h ho (Or.inr rfl)
    · obtain ⟨hok, howed, hframe, hout⟩ := stay_of_offer h ho
      cases a with
      | ok n =>
        dsimp only
        split
        · exact ⟨hok, hframe, howed, fun _ hc => absurd hc List.not_mem_nil,
            (fun hx => by cases hx), (fun hx => by cases hx), hout, (fun hx => by rcases hx with h | h <;> cases h)⟩
        · obtain ⟨htake, hok', hframe', hout'⟩ := charge_offer h ho n
          have hrec := ih hok'
          refine ⟨hrec.ok, hframe'.trans hrec.frame, ?_, ?_, hrec.finished, hrec.needMore,
            fun hc => hrec.headerOut (hout' hc), hrec.busy⟩
          · have hcons : accepted (Call.writev ((b :: iov).flatten.take n) ::
                (writerLoop (chargeSent c' ((b :: iov).flatten.take n).length) answers).2.1) =
                (b :: iov).flatten.take n ++ accepted
                  (writerLoop (chargeSent c' ((b :: iov).flatten.take n).length) answers).2.1 := rfl
            rw [hcons, List.append_assoc, hrec.sent, htake]
          · intro call hcall
            rcases List.mem_cons.mp hcall with rfl | hcall
            · exact ⟨_, rfl⟩
            · exact hrec.onlyWrites call hcall
      | eintr =>
        have hrec := ih hok
        exact ⟨hrec.ok, hframe.trans hrec.frame, hrec.sent.trans howed, hrec.onlyWrites,
          hrec.finished, hrec.needMore, fun hc => hrec.headerOut (hout hc), hrec.busy⟩
      | eagain =>
        exact ⟨hok, hframe, howed, fun _ hc => absurd hc List.not_mem_nil, (fun hx => by cases hx),
          (fun hx => by cases hx), hout, fun _ => busy_of_offer ho⟩
      | error =>
        exact ⟨hok, hframe, howed, fun _ hc => absurd hc List.not_mem_nil, (fun hx => by cases hx),
          (fun hx => by cases hx), hout, (fun hx => by rcases hx with h | h <;> cases h)⟩

/-! ### How a call of the writer ends -/

theorem clientIov_entries {c c' : CgiState} {iov : List Bytes}
    (hio : clientIov c = (c', some iov)) : ∀ b ∈ iov, b ≠ [] := by
  have hvec : ∀ (m : Mem UInt8) (sent len : Nat), ∀ b ∈ iovec m sent len, b ≠ [] := by
    intro m sent len b hb
    unfold iovec at hb
    split at hb
    · next hlt =>
      rw [List.mem_singleton] at hb
      subst hb
      exact List.ne_nil_of_length_pos (by simp; omega)
    · exact absurd hb List.not_mem_nil
  have hsuf : ∀ b ∈ (if c.chunkSuffixSent < 2 then [CRLF.drop c.chunkSuffixSent] else []),
      b ≠ [] := by
    intro b hb
    split at hb
    · next hlt =>
      rw [List.mem_singleton] at hb
      subst hb
      exact List.ne_nil_of_length_pos (by simp [CRLF]; omega)
    · exact absurd hb List.not_mem_nil
  unfold clientIov at hio
  dsimp only at hio
  split at hio
  · obtain ⟨-, rfl⟩ := Prod.mk.inj hio |>.imp id Option.some.inj
    intro b hb
    rcases List.mem_append.mp hb with hb | hb
    · rcases List.mem_append.mp hb with hb | hb
      · rcases List.mem_append.mp hb with hb | hb
        · exact hvec _ _ _ b hb
        · exact hvec _ _ _ b hb
      · exact hvec _ _ _ b hb
    · exact hsuf b hb
  · split at hio
    · obtain ⟨-, rfl⟩ := Prod.mk.inj hio |>.imp id Option.some.inj
      intro b hb
      rcases List.mem_append.mp hb with hb | hb
      · exact hvec _ _ _ b hb
      · exact hvec _ _ _ b hb
    · cases (Prod.mk.inj hio).2

/-- The answers of a `writev` that works: at least one byte taken, or `EINTR`, or `EAGAIN`. -/
def Working (answers : List (Ans Nat)) : Prop :=
  ∀ a ∈ answers, a ≠ .error ∧ a ≠ .ok 0

/-- The answers that are not `EINTR`. -/
def uninterrupted (answers : List (Ans Nat)) : Nat :=
  (answers.filter (· ≠ Ans.eintr)).length

theorem writerEnd_returns (c : CgiState) :
    (writerEnd c).2.2 = .finished ∨ (writerEnd c).2.2 = .wouldBlock ∨
      (writerEnd c).2.2 = .needMore := by
  unfold writerEnd
  dsimp only
  split
  · split
    · exact Or.inl rfl
    · exact Or.inr (Or.inl rfl)
  · exact Or.inr (Or.inr rfl)

/-- Every answer but `EINTR` either ends the call or takes a byte, and only as many
bytes as are owed can be taken. -/
theorem writerLoop_returns {c : CgiState} (h : WriterOk c) {answers : List (Ans Nat)}
    (hw : Working answers) :
    (writerLoop c answers).2.2 ≠ .error ∧
      ((owed c).length < uninterrupted answers → (writerLoop c answers).2.2 ≠ .inCall) := by
  induction answers generalizing c with
  | nil =>
    refine ⟨?_, fun hlt => absurd hlt (Nat.not_lt_zero _)⟩
    unfold writerLoop
    rcases hio : clientIov c with ⟨c', _ | _ | ⟨b, iov⟩⟩
    · rcases writerEnd_returns c' with he | he | he <;> simp [he]
    · rcases writerEnd_returns c' with he | he | he <;> simp [he]
    · simp
  | cons a answers ih =>
    have hrest : Working answers := fun x hx => hw x (List.mem_cons_of_mem _ hx)
    have ha := hw a (List.mem_cons_self)
    have ho := clientIov_offer h
    unfold writerLoop
    rcases hio : clientIov c with ⟨c', _ | _ | ⟨b, iov⟩⟩
    · rcases writerEnd_returns c' with he | he | he <;> simp [he]
    · rcases writerEnd_returns c' with he | he | he <;> simp [he]
    · rw [hio] at ho
      obtain ⟨hok, howed, _, _⟩ := stay_of_offer h ho
      cases a with
      | ok n =>
        have hn : n ≠ 0 := fun hz => ha.2 (by rw [hz])
        have hb : b ≠ [] := clientIov_entries hio b (List.mem_cons_self)
        have hbs : (b :: iov).flatten.take n ≠ [] := by
          rw [ne_eq, List.take_eq_nil_iff]
          simp [hn, hb]
        obtain ⟨htake, hok', _, _⟩ := charge_offer h ho n
        have hlen := congrArg List.length htake
        rw [List.length_append] at hlen
        have hpos := List.length_pos_iff.mpr hbs
        obtain ⟨hne, hret⟩ := ih hok' hrest
        dsimp only
        rw [if_neg hbs]
        refine ⟨hne, fun hlt => hret ?_⟩
        have hcount : uninterrupted (Ans.ok n :: answers) = uninterrupted answers + 1 := by
          simp [uninterrupted]
        omega
      | eintr =>
        obtain ⟨hne, hret⟩ := ih hok hrest
        refine ⟨hne, fun hlt => hret ?_⟩
        rw [howed]
        simpa [uninterrupted] using hlt
      | eagain => simp
      | error => exact absurd rfl ha.1

theorem eof_of_owed_nil {c : CgiState} (h : WriterOk c) (ho : owed c = []) : c.eof = true := by
  have hf : finalOwed c = [] :=
    (List.append_eq_nil_iff.mp (List.append_eq_nil_iff.mp ho).2).2
  rcases h.final with ⟨h0, _⟩ | ⟨h5, hle, _⟩
  · rw [finalOwed, if_pos h0] at hf
    exact absurd hf (by decide)
  · rw [finalOwed, if_neg (by omega)] at hf
    have hlen := congrArg List.length hf
    rw [Mem.length_slice] at hlen
    exact (h.last (by simp at hlen; omega)).1

/-- Behind a pass that offers nothing the writer does not report that it would block. -/
theorem writerEnd_not_blocked {c c' : CgiState} {o : Option (List Bytes)} (h : WriterOk c)
    (ho : Offer c (c', o)) (hnone : o = none ∨ o = some []) :
    (writerEnd c').2.2 ≠ .wouldBlock := by
  have hspec := writerEnd_of_offer h ho hnone
  unfold writerEnd at hspec ⊢
  dsimp only at hspec ⊢
  split
  · next he =>
    rw [if_pos he] at hspec
    split
    · exact fun hx => by cases hx
    · next hlt =>
      rw [if_neg hlt] at hspec
      exfalso
      cases ho with
      | chunk iov _ _ hne =>
        rcases hnone with hn | hn
        · cases hn
        · exact hne (Option.some.inj hn)
      | final iov hb he hflat =>
        have hnil : iov = [] := by
          rcases hnone with hn | hn
          · cases hn
          · exact Option.some.inj hn
        rw [hnil] at hflat
        obtain ⟨hok, _, _⟩ := ensureFinalChunk_ok h
        obtain ⟨hok', howed', h5⟩ := ensureFinalChunk_ok hok
        rw [← hflat] at howed'
        have hf : finalOwed (ensureFinalChunk (ensureFinalChunk c)) = [] :=
          (List.append_eq_nil_iff.mp (List.append_eq_nil_iff.mp howed').2).2
        rw [finalOwed, if_neg (by omega)] at hf
        have hlen := congrArg List.length hf
        rw [Mem.length_slice] at hlen
        simp only [List.length_nil] at hlen
        omega
      | nothing _ hf => exact absurd (hf.symm.trans he) (by simp)
  · exact fun hx => by cases hx

/-- The writer reports that it would block only when a `writev` would have. -/
theorem writerLoop_wouldBlock {c : CgiState} (h : WriterOk c) {answers : List (Ans Nat)}
    (hna : Ans.eagain ∉ answers) : (writerLoop c answers).2.2 ≠ .wouldBlock := by
  induction answers generalizing c with
  | nil =>
    have ho := clientIov_offer h
    unfold writerLoop
    rcases hio : clientIov c with ⟨c', _ | _ | ⟨b, iov⟩⟩ <;> rw [hio] at ho
    · exact writerEnd_not_blocked h ho (Or.inl rfl)
    · exact writerEnd_not_blocked h ho (Or.inr rfl)
    · exact fun hx => by cases hx
  | cons a answers ih =>
    have hrest : Ans.eagain ∉ answers := fun hx => hna (List.mem_cons_of_mem _ hx)
    have ho := clientIov_offer h
    unfold writerLoop
    rcases hio : clientIov c with ⟨c', _ | _ | ⟨b, iov⟩⟩ <;> rw [hio] at ho
    · exact writerEnd_not_blocked h ho (Or.inl rfl)
    · exact writerEnd_not_blocked h ho (Or.inr rfl)
    · cases a with
      | ok n =>
        dsimp only
        split
        · exact fun hx => by cases hx
        · exact ih (charge_offer h ho n).2.1 hrest
      | eintr => exact ih (stay_of_offer h ho).1 hrest
      | eagain => exact absurd List.mem_cons_self hna
      | error => exact fun hx => by cases hx

/-- What a pass offers is owed. -/
theorem owed_of_offer {c c' : CgiState} {b : Bytes} {iov : List Bytes} (h : WriterOk c)
    (hio : clientIov c = (c', some (b :: iov))) : owed c' ≠ [] := by
  have ho := clientIov_offer h
  rw [hio] at ho
  have hb : b ≠ [] := clientIov_entries hio b List.mem_cons_self
  obtain ⟨htake, -⟩ := charge_offer h ho (b :: iov).flatten.length
  intro hnil
  rw [(stay_of_offer h ho).2.1] at hnil
  rw [hnil, List.take_length] at htake
  have hflat := (List.append_eq_nil_iff.mp htake).1
  rw [List.flatten_cons] at hflat
  exact hb (List.append_eq_nil_iff.mp hflat).1

/-- A call of the writer that does not report the end has left something. -/
theorem writerLoop_unfinished {c : CgiState} (h : WriterOk c) {answers : List (Ans Nat)}
    (hex : (writerLoop c answers).2.2 ≠ .finished) : owed (writerLoop c answers).1 ≠ [] := by
  have hend : ∀ {c c' : CgiState} {o : Option (List Bytes)}, WriterOk c → Offer c (c', o) →
      o = none ∨ o = some [] → (writerEnd c').2.2 ≠ .finished → owed (writerEnd c').1 ≠ [] := by
    intro c c' o h ho hnone hex hnil
    have hspec := writerEnd_of_offer h ho hnone
    cases writerEnd_returns c' with
    | inl hfin => exact hex hfin
    | inr hrest =>
      have hmore := hrest.resolve_left (writerEnd_not_blocked h ho hnone)
      exact absurd ((eof_of_owed_nil hspec.ok hnil).symm.trans (hspec.needMore hmore).2) (by decide)
  induction answers generalizing c with
  | nil =>
    have ho := clientIov_offer h
    unfold writerLoop at hex ⊢
    rcases hio : clientIov c with ⟨c', _ | _ | ⟨b, iov⟩⟩ <;> rw [hio] at ho hex
    · exact hend h ho (Or.inl rfl) hex
    · exact hend h ho (Or.inr rfl) hex
    · exact owed_of_offer h hio
  | cons a answers ih =>
    have ho := clientIov_offer h
    unfold writerLoop at hex ⊢
    rcases hio : clientIov c with ⟨c', _ | _ | ⟨b, iov⟩⟩ <;> rw [hio] at ho hex
    · exact hend h ho (Or.inl rfl) hex
    · exact hend h ho (Or.inr rfl) hex
    · cases a with
      | ok n =>
        dsimp only at hex ⊢
        split at hex
        · next hbs =>
          rw [if_pos hbs]
          exact owed_of_offer h hio
        · next hbs =>
          rw [if_neg hbs]
          exact ih (charge_offer h ho n).2.1 hex
      | eintr => exact ih (stay_of_offer h ho).1 hex
      | eagain => exact owed_of_offer h hio
      | error => exact owed_of_offer h hio

/-- A client that keeps taking bytes gets everything there is: the writer then reports the
end, or asks for more before end of file. -/
theorem writerLoop_drains {c : CgiState} (h : WriterOk c) {n : Nat} (hn : (owed c).length < n) :
    (writerLoop c (List.replicate n (.ok 1))).2.2 = if c.eof then .finished else .needMore := by
  have hw : Working (List.replicate n (.ok 1)) := by
    intro a ha
    rw [List.eq_of_mem_replicate ha]
    exact ⟨(fun hx => by cases hx), (fun hx => by cases hx)⟩
  have hu : uninterrupted (List.replicate n (.ok 1)) = n := by simp [uninterrupted]
  have hspec := writerLoop_spec h (List.replicate n (.ok 1))
  have hna : Ans.eagain ∉ List.replicate n (Ans.ok 1) := fun hx =>
    by cases List.eq_of_mem_replicate hx
  have hblock := writerLoop_wouldBlock h hna
  obtain ⟨herr, hret⟩ := writerLoop_returns h hw
  have hcall := hret (hu.symm ▸ hn)
  generalize writerLoop c (List.replicate n (.ok 1)) = res at hspec hblock herr hcall ⊢
  have heof : res.1.eof = c.eof := by
    obtain ⟨_, _, _, _, _, _, _, _, _, hfr⟩ := hspec.frame
    rw [hfr]
  rcases hres : res.2.2 with _ | _ | _ | _ | _
  · rw [if_pos (heof ▸ eof_of_owed_nil hspec.ok (hspec.finished hres))]
  · exact absurd hres hblock
  · rw [if_neg (by rw [← heof, (hspec.needMore hres).2]; simp)]
  · exact absurd hres herr
  · exact absurd hres hcall

end ChunkWriterLemmas

open ChunkWriterLemmas

/-! ## The invariant of the relay -/

/-- What the client has accepted and what it is still owed add up to the header, the
chunks of the pieces loaded so far, and the final chunk. -/
structure Balanced (c : CgiState) (sent : Bytes) (ps : List Bytes) : Prop where
  writer : WriterOk c
  total : sent ++ owed c = builtHeader c ++ (ps.flatMap chunk ++ lastChunk)
  nonempty : ∀ p ∈ ps, p ≠ []
  headerFirst : ps ≠ [] → HeaderOut c

/-- The invariant of a CGI response: the sums are right, and nothing is prepared
before the CGI header is complete. -/
structure Relay (c : CgiState) (sent : Bytes) (ps : List Bytes) : Prop extends
    Balanced c sent ps where
  early : c.headersDone = false → c.httpHeaderLen = 0 ∧ c.bodyLen = 0 ∧ ps = [] ∧ c.eof = false
  fdOpen : c.outFd ≠ none → c.eof = false
  hdrRoom : c.hdrLen ≤ CGI_HDR_SIZE

/-- The fields that only the reader looks at do not matter to the writer. -/
theorem WriterOk.reader {c : CgiState} (h : WriterOk c) (a : Bool) (p : Option Pid)
    (fd : Option Fd) (ot : Nat) (hd : Bool) (hb : Mem UInt8) (hl : Nat) :
    WriterOk { c with active := a, pid := p, outFd := fd, outTotal := ot, headersDone := hd,
                      hdrBuf := hb, hdrLen := hl } :=
  ⟨h.header, h.sizeLine, h.body, h.suffix, h.pending, h.final, h.last⟩

theorem Balanced.reader {c : CgiState} {sent : Bytes} {ps : List Bytes} (h : Balanced c sent ps)
    (a : Bool) (p : Option Pid) (fd : Option Fd) (ot : Nat) (hd : Bool) (hb : Mem UInt8) (hl : Nat) :
    Balanced { c with active := a, pid := p, outFd := fd, outTotal := ot, headersDone := hd,
                      hdrBuf := hb, hdrLen := hl } sent ps :=
  ⟨h.writer.reader a p fd ot hd hb hl, h.total, h.nonempty, h.headerFirst⟩

namespace ChunkWriterLemmas

/-- The body buffer is free and the final chunk untouched: a piece may be loaded. -/
structure Ready (c : CgiState) (sent : Bytes) (ps : List Bytes) : Prop where
  writer : WriterOk c
  free : c.bodyLen = 0
  unsent : c.finalChunkSent = 0
  total : sent ++ headerOwed c = builtHeader c ++ ps.flatMap chunk
  nonempty : ∀ p ∈ ps, p ≠ []
  headerFirst : ps ≠ [] → HeaderOut c

theorem Ready.balanced {c : CgiState} {sent : Bytes} {ps : List Bytes} (h : Ready c sent ps) :
    Balanced c sent ps := by
  refine ⟨h.writer, ?_, h.nonempty, h.headerFirst⟩
  have hc : chunkOwed c = [] := by simp [chunkOwed, h.free]
  rw [owed, hc, finalOwed_of_unsent h.writer h.unsent, List.nil_append, ← List.append_assoc,
    h.total, List.append_assoc]

/-- The fields that only the reader looks at, the body buffer included while it is
free, do not matter to the sums. -/
theorem Ready.scratch {c : CgiState} {sent : Bytes} {ps : List Bytes} (h : Ready c sent ps)
    (fd : Option Fd) (eof : Bool) (ot : Nat) (hd : Bool) (hb : Mem UInt8) (hl : Nat)
    (bb : Mem UInt8) :
    Ready { c with outFd := fd, eof := eof, outTotal := ot, headersDone := hd, hdrBuf := hb
                   hdrLen := hl, bodyBuf := bb } sent ps :=
  ⟨⟨h.writer.header, h.writer.sizeLine, h.writer.body, h.writer.suffix, h.writer.pending,
    h.writer.final, fun hpos => absurd hpos (by simp [h.unsent])⟩,
    h.free, h.unsent, h.total, h.nonempty, h.headerFirst⟩

/-- The invariant of the relay in a state that is ready for a piece. -/
theorem Ready.relay {c : CgiState} {sent : Bytes} {ps : List Bytes} (h : Ready c sent ps)
    (hd : c.headersDone = false → c.httpHeaderLen = 0 ∧ ps = [] ∧ c.eof = false)
    (hfd : c.outFd ≠ none → c.eof = false) (hl : c.hdrLen ≤ CGI_HDR_SIZE) : Relay c sent ps :=
  ⟨h.balanced, fun he => ⟨(hd he).1, h.free, (hd he).2⟩, hfd, hl⟩

theorem ready_of_balanced {c : CgiState} {sent : Bytes} {ps : List Bytes} (h : Balanced c sent ps)
    (hb : c.bodyLen = 0) (he : c.eof = false) : Ready c sent ps := by
  have hf := finalSent_of_not_eof h.writer he
  refine ⟨h.writer, hb, hf, ?_, h.nonempty, h.headerFirst⟩
  have hc : chunkOwed c = [] := by simp [chunkOwed, hb]
  have ht := h.total
  rw [owed, hc, finalOwed_of_unsent h.writer hf, List.nil_append, ← List.append_assoc,
    ← List.append_assoc] at ht
  exact List.append_cancel_right ht

/-- The size line of a piece fits its buffer. -/
theorem sizeLine_fits {len : Nat} (h : len ≤ CGI_BODY_SIZE) :
    (numeral 16 len ++ CRLF).length < CGI_CHUNK_PREFIX_SIZE := by
  have hn : (numeral 16 len).length ≤ 4 :=
    length_numeral_le (by decide) (by decide) (by
      have : CGI_BODY_SIZE < 16 ^ 4 := by decide
      omega)
  have h2 : CRLF.length = 2 := rfl
  have hc : CGI_CHUNK_PREFIX_SIZE = 32 := rfl
  rw [List.length_append]
  omega

/-- A piece that fits is loaded with its size line. -/
theorem loadPiece_eq {c : CgiState} {len : Nat} (hpos : 0 < len) (hle : len ≤ CGI_BODY_SIZE) :
    loadPiece c len =
      ({ c with bodyLen := len, bodySent := 0
                chunkPrefix := c.chunkPrefix.write 0 (numeral 16 len ++ CRLF ++ [0])
                chunkPrefixLen := (numeral 16 len ++ CRLF).length
                chunkPrefixSent := 0, chunkSuffixSent := 0 },
        [.load (c.bodyBuf.slice 0 len)], .armClient) := by
  have hfit := sizeLine_fits hle
  have hprep : prepareChunkPrefix { c with bodyLen := len, bodySent := 0 } len =
      ({ c with bodyLen := len, bodySent := 0
                chunkPrefix := c.chunkPrefix.write 0 (numeral 16 len ++ CRLF ++ [0])
                chunkPrefixLen := (numeral 16 len ++ CRLF).length
                chunkPrefixSent := 0, chunkSuffixSent := 0 }, true) := by
    unfold prepareChunkPrefix
    rw [if_neg (by omega)]
    dsimp only
    rw [if_neg (by omega)]
  unfold loadPiece
  rw [hprep]

/-- Loading a piece puts exactly its chunk in front of the final one. -/
theorem Ready.load {c : CgiState} {sent : Bytes} {ps : List Bytes} (h : Ready c sent ps)
    {len : Nat} (hpos : 0 < len) (hle : len ≤ CGI_BODY_SIZE) :
    ∃ m n, loadPiece c len =
        ({ c with bodyLen := len, bodySent := 0, chunkPrefix := m, chunkPrefixLen := n
                  chunkPrefixSent := 0, chunkSuffixSent := 0 },
          [.load (c.bodyBuf.slice 0 len)], .armClient) ∧
      Balanced { c with bodyLen := len, bodySent := 0, chunkPrefix := m, chunkPrefixLen := n
                        chunkPrefixSent := 0, chunkSuffixSent := 0 }
        sent (ps ++ [c.bodyBuf.slice 0 len]) := by
  have htext := Mem.slice_write_zero c.chunkPrefix (numeral 16 len ++ CRLF ++ [0])
    (k := (numeral 16 len ++ CRLF).length) (by simp)
  rw [List.take_left] at htext
  refine ⟨c.chunkPrefix.write 0 (numeral 16 len ++ CRLF ++ [0]), (numeral 16 len ++ CRLF).length,
    ?_, ?_⟩
  · exact loadPiece_eq hpos hle
  · have hpiece : (c.bodyBuf.slice 0 len).length = len := by simp
    refine ⟨⟨h.writer.header, Nat.zero_le _, Nat.zero_le _, Nat.zero_le 2,
      fun _ => (unsentChunk_iff _).mpr ⟨hpos, Or.inr (Or.inl hpos)⟩, h.writer.final,
      fun hf => absurd hf (by simp [h.unsent])⟩, ?_, ?_, fun _ hz => ?_⟩
    · have hf := finalOwed_of_unsent h.writer h.unsent
      have hchunk : chunk (c.bodyBuf.slice 0 len) = (numeral 16 len ++ CRLF) ++
          (c.bodyBuf.slice 0 len ++ CRLF) := by
        simp [chunk, List.append_assoc]
      rw [owed, chunkOwed, if_pos hpos]
      dsimp only
      rw [htext, List.flatMap_append, List.flatMap_singleton, hchunk]
      have ht := h.total
      change sent ++ (headerOwed c ++ _) = builtHeader c ++ _
      rw [← List.append_assoc, ht]
      change _ ++ (_ ++ finalOwed c) = _
      rw [hf]
      simp [List.append_assoc]
    · intro p hp
      rcases List.mem_append.mp hp with hp | hp
      · exact h.nonempty p hp
      · rw [List.mem_singleton] at hp
        subst hp
        exact List.ne_nil_of_length_pos (by omega)
    · exact absurd hz (by simp; omega)

end ChunkWriterLemmas

end Zaver
