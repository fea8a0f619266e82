import Zaver.RequestStream

/-!
# The turns of the callbacks

The loops of the callbacks have no bounds of their own: they go on as long as the kernel has bytes,
or takes them. Every turn is paid for, but for those that a signal interrupts.

* `do_request`: a turn that ends without a request has parsed bytes that were left in the buffer,
  once, or it has read at least one; a turn that ends with a response takes a request off the
  buffer, which is at least `SHORTEST_REQUEST` bytes long (`Paid`).
* `try_send` and `zv_cgi_on_client_writable`: a turn sends a byte of what is owed.
* `zv_cgi_on_stdout_ready`: a turn that does not end the loop adds a byte to the header.

So each callback returns (`callbacks_return`), but for one kind of input: a request line that
`zv_http_parse_request_line` refuses with `ZV_HTTP_PARSE_INVALID_REQUEST`, whose code is that of
`ZV_AGAIN`. Behind it every turn parses the same bytes again (`Stuck`).
-/

namespace Zaver

open CString Runs ParseResumeLemmas WholeRequestLemmas ConnectionLemmas ReceiveBufferLemmas
open AnswerLemmas PersistenceLemmas RequestStreamLemmas ChunkWriterLemmas Gather

/-- An answer that is not `EINTR`. -/
def Ans.isHeard {α : Type} : Ans α → Bool
  | .eintr => false
  | _ => true

/-- The number of answers that are not `EINTR`. -/
def heard {α : Type} (answers : List (Ans α)) : Nat := answers.countP Ans.isHeard

/-- The bytes of the header and of the body that are not sent. -/
def memLeft (o : Output) : Nat :=
  (o.outHeaderLen - o.outHeaderSent) + (o.outBodyLen - o.outBodySent)

/-- The bytes of the file that are not sent. -/
def fileLeft (o : Output) : Nat := o.outFileSize - o.outFileOffset

/-- The length of `G / HTTP/1.0`, with an LF behind it and an empty line. -/
def SHORTEST_REQUEST : Nat := 15

/-- The bytes that a read of the pass may take. -/
def PassEnv.offers (e : PassEnv) : Nat :=
  match e.read with
  | .ok bs => bs.length
  | _ => 0

/-- The bytes that the reads of the passes may take. -/
def offered (es : List PassEnv) : Nat := (es.map PassEnv.offers).sum

/-- Each call of `try_send` returns. -/
def SendEnv.Answers (e : SendEnv) : Prop := ∀ o, (trySend e o).2.2 ≠ .inCall

/-- One, while the buffer holds bytes that were not parsed. -/
def Conn.unparsed (c : Conn) : Nat := if c.r.inp.parsePos < c.r.inp.last then 1 else 0

/-- Between `c` and `c'` there were so many turns; they took these bytes off the socket and these
requests off the buffer. -/
structure Paid (turns bytes requests : Nat) (c c' : Conn) : Prop where
  received : (received c'.tr).length = (received c.tr).length + bytes
  served : (servedOf c'.tr).length = (servedOf c.tr).length + requests
  buffered : c'.r.inp.last + SHORTEST_REQUEST * requests ≤ c.r.inp.last + bytes
  turns : turns + c'.unparsed ≤ bytes + 2 * requests + c.unparsed

namespace CallbackTurnsLemmas

/-! ### One turn -/

theorem shortest_request (q : FittingRequest) : SHORTEST_REQUEST ≤ q.render.length := by
  have hok := q.ok.line
  have htoken := List.length_pos_iff.mpr hok.token_ne
  have hmajor := List.length_pos_iff.mpr hok.major_ne
  have hminor := List.length_pos_iff.mpr hok.minor_ne
  have huri : 0 < q.text.line.uri.length :=
    List.length_pos_iff.mpr fun hx => by cases hx ▸ hok.uri_head
  have hhttp : (ascii "HTTP/").length = 5 := rfl
  have hend : 0 < q.text.line.ending.length := by
    unfold RequestLine.ending
    simp only [List.length_append, List.length_cons]
    omega
  have hline : 13 ≤ q.text.line.render.length := by
    unfold RequestLine.render RequestLine.version
    simp only [List.length_append, List.length_cons, hhttp]
    omega
  unfold FittingRequest.render SHORTEST_REQUEST
  rw [← length_request q.text]
  omega

theorem unparsed_le (c : Conn) : c.unparsed ≤ 1 := by
  unfold Conn.unparsed
  split
  · exact Nat.le_refl _
  · exact Nat.zero_le _

theorem nextRequest_last (i : Input) : i.nextRequest.last = i.last - i.parsePos := by
  unfold Input.nextRequest
  dsimp only
  split
  · rfl
  · next hpos =>
    have hzero : i.parsePos = 0 := Nat.eq_zero_of_not_pos hpos
    show i.last = _
    rw [hzero, Nat.sub_zero]

/-- A response after which the loop goes on has taken the request off the buffer. -/
theorem answer_next {lib : Libc} {e : PassEnv} {c c' : Conn} (hact : c.r.cgi.active = false)
    (h : answer lib e c = (c', .next)) (hloop : AtLoop c') :
    received c'.tr = received c.tr ∧ servedOf c'.tr = servedOf c.tr ++ [c.r.inp.served] ∧
      c'.r.inp.last = c.r.inp.last - c.r.inp.parsePos := by
  obtain ⟨calls, hstill, htr⟩ := answer_record lib e hact
  rw [h] at htr
  obtain ⟨hserves, hreceived⟩ := records_still hstill
  refine ⟨?_, ?_, ?_⟩
  · rw [htr, received_append]
    show Zaver.received c.tr ++ Zaver.received calls = _
    rw [hreceived, List.append_nil]
  · have hnone : servedOf calls = [] := by
      rw [servedOf_serves, hserves]
      rfl
    rw [htr, servedOf_append]
    show servedOf c.tr ++ c.r.inp.served :: servedOf calls = _
    rw [hnone]
  · have hans := answer_cases lib e c
    rw [h] at hans
    generalize hx : (c', PassExit.next) = x at hans
    cases hans with
    | refused c₁ look hp => cases congrArg Prod.snd hx
    | reply c₁ look file last hp hcomp hlast hlook =>
      have hlasts : c₁.r.inp.last = c.r.inp.last ∧ c₁.r.inp.parsePos = c.r.inp.parsePos := by
        rcases hp.input with heq | heq <;> rw [heq] <;> exact ⟨rfl, rfl⟩
      have hinp := @deliver_input e last c₁.r.out.keepAlive c₁
      rw [← hx] at hinp
      rcases hinp hloop.isOpen (fun hx => by cases hx) with heq | ⟨-, hw, -⟩
      · rw [heq, nextRequest_last, hlasts.1, hlasts.2]
      · cases hloop.out.writing.symm.trans hw
    | started i file envp pid inR inW outR outW hi hm hu => cases congrArg Prod.snd hx

/-- The parsers run on what was left in the buffer, or on what was read. -/
theorem turn_fed {lib : Libc} {e : PassEnv} {c c' : Conn} (h : requestPass lib e c = (c', .next)) :
    ∃ c₁ n, Fed c c₁ ∧ parseAndAnswer lib e c₁ = (c', .next) ∧ n ≤ e.offers ∧
      (received c₁.tr).length = (received c.tr).length + n ∧ servedOf c₁.tr = servedOf c.tr ∧
      c₁.r.inp.last = c.r.inp.last + n ∧ 1 ≤ n + c.unparsed := by
  unfold requestPass at h
  split at h
  · next hle =>
    split at h
    · cases congrArg Prod.snd h
    · next hroom =>
      split at h
      · next bs hread =>
        dsimp only at h
        split at h
        · cases congrArg Prod.snd h
        · next hne =>
          have hlen : (bs.take (MAX_BUF - c.r.inp.last - 1)).length ≤
              min (MAX_BUF - c.r.inp.last - 1) bs.length :=
            le_of_eq List.length_take
          have hoffers : e.offers = bs.length := by
            unfold PassEnv.offers
            rw [hread]
          have hpos := List.length_pos_iff.mpr hne
          refine ⟨_, _, .read _ hle hne (by omega), h, ?_, ?_, ?_, rfl, by omega⟩
          · rw [hoffers]
            omega
          · rw [received_append, List.length_append]
            exact congrArg _ (congrArg _ (List.append_nil _))
          · rw [servedOf_append]
            exact List.append_nil _
      · cases congrArg Prod.snd h
      · cases congrArg Prod.snd h
  · next hlt =>
    have hlt' := Nat.not_le.mp hlt
    refine ⟨c, 0, .left hlt', h, Nat.zero_le _, rfl, rfl, rfl, ?_⟩
    rw [Conn.unparsed, if_pos hlt']

theorem turn_paid {lib : Libc} {e : PassEnv} {c c' : Conn} (h : LoopParsing c ∧ StreamInv c)
    (hfree : ¬ Stuck c'.r.inp) (hp : requestPass lib e c = (c', .next)) :
    ∃ n k, n ≤ e.offers ∧ Paid 1 n k c c' := by
  obtain ⟨c₁, n, hf, hpar, hn, hreceived, hserved, hlast, hone⟩ := turn_fed hp
  have hloop₁ := fed_loop h.1.1 hf
  obtain ⟨hw, hmore, hok⟩ := parsePhases_frame hloop₁.window.pos
  obtain ⟨qs, j, hrest⟩ := atLoop_resting h.1.1 h.2
  obtain ⟨i, rc, hi⟩ : ∃ i rc, parsePhases c₁.r.inp = (i, rc) := ⟨_, _, rfl⟩
  unfold parseAndAnswer at hpar
  rw [hi] at hpar hw hmore hok
  cases rc with
  | again =>
    -- all that was received is parsed
    obtain ⟨rfl, -⟩ := Prod.mk.inj hpar
    have hend : i.parsePos = i.last := (hmore rfl).trans hw.last.symm
    refine ⟨n, 0, hn, hreceived, by rw [hserved]; rfl, ?_, ?_⟩
    · show i.last + _ ≤ _
      rw [hw.last, hlast]
      exact Nat.le_refl _
    · have hnone : Conn.unparsed { c₁ with r := { c₁.r with inp := i } } = 0 :=
        if_neg (by rw [hend]; exact Nat.lt_irrefl _)
      rw [hnone]
      omega
  | ok =>
    have hans : answer lib e { c₁ with r := { c₁.r with inp := i } } = (c', .next) := hpar
    have hnext := (loop_stream h hfree hp).1.1
    obtain ⟨j', hfed⟩ := fed_stream hrest hf
    obtain ⟨q, u, -, -, hpos, -, -, -⟩ := served_stream hfed hi
    have hact : c₁.r.cgi.active = false := noScript_active hloop₁.cgi
    obtain ⟨hrec, hserve, hleft⟩ := answer_next (c := { c₁ with r := { c₁.r with inp := i } })
      hact hans hnext
    have hlong := shortest_request q
    have hin : i.parsePos ≤ c₁.r.inp.last := (hok rfl).2
    have hwin : i.last = c₁.r.inp.last := hw.last
    refine ⟨n, 1, hn, ?_, ?_, ?_, ?_⟩
    · rw [hrec]
      exact hreceived
    · rw [hserve, List.length_append]
      show (servedOf c₁.tr).length + 1 = _
      rw [hserved]
    · rw [hleft]
      show i.last - i.parsePos + _ ≤ _
      rw [hwin]
      omega
    · have hle := unparsed_le c'
      omega
  | invalidRequest =>
    obtain ⟨hs, rfl⟩ := stuck_of_refused hi
    obtain ⟨rfl, -⟩ := Prod.mk.inj hpar
    exact absurd hs.again hfree
  | invalidMethod => cases congrArg Prod.snd hpar
  | invalidHeader => cases congrArg Prod.snd hpar

/-! ### All turns -/

theorem paid_refl (c : Conn) : Paid 0 0 0 c c :=
  ⟨rfl, rfl, Nat.le_refl _, by omega⟩

theorem paid_trans {m m' n n' k k' : Nat} {c c₁ c₂ : Conn} (h : Paid m n k c c₁)
    (h' : Paid m' n' k' c₁ c₂) : Paid (m + m') (n + n') (k + k') c c₂ := by
  obtain ⟨h1, h2, h3, h4⟩ := h
  obtain ⟨h1', h2', h3', h4'⟩ := h'
  refine ⟨by omega, by omega, ?_, by omega⟩
  rw [Nat.mul_add]
  omega

/-- Behind a refused request line there are only turns that refuse it, and no calls. -/
theorem passes_stuck {lib : Libc} {c : Conn} (h : Stuck c.r.inp) (es : List PassEnv) :
    ∃ c', passes lib c es = some c' ∧ Stuck c'.r.inp ∧ c'.tr = c.tr := by
  induction es generalizing c with
  | nil => exact ⟨c, rfl, h, rfl⟩
  | cons e es ih =>
    rw [passes, requestPass_stuck lib e h]
    exact ih (c := { c with r := { c.r with inp := _ } }) h.again

theorem passes_append {lib : Libc} {c c₁ : Conn} {es : List PassEnv} (es' : List PassEnv)
    (h : passes lib c es = some c₁) :
    passes lib c (es ++ es') = passes lib c₁ es' ∧
      requestLoop lib c (es ++ es') = requestLoop lib c₁ es' := by
  induction es generalizing c with
  | nil =>
    obtain rfl := Option.some.inj h
    exact ⟨rfl, rfl⟩
  | cons e es ih =>
    rw [passes] at h
    split at h
    · next c₂ hpass =>
      rw [List.cons_append, passes, requestLoop, hpass]
      exact ih h
    · cases h

theorem passes_paid {lib : Libc} {c c' : Conn} {es : List PassEnv} (h : LoopParsing c ∧ StreamInv c)
    (hfree : ¬ Stuck c'.r.inp) (hp : passes lib c es = some c') :
    ∃ n k, n ≤ offered es ∧ Paid es.length n k c c' := by
  induction es generalizing c with
  | nil =>
    obtain rfl := Option.some.inj hp
    exact ⟨0, 0, Nat.le_refl _, paid_refl c⟩
  | cons e es ih =>
    rw [passes] at hp
    split at hp
    · next c₁ hpass =>
      have hfree₁ : ¬ Stuck c₁.r.inp := fun hs => by
        obtain ⟨c₂, hc₂, hs₂, -⟩ := @passes_stuck lib c₁ hs es
        obtain rfl := Option.some.inj (hp.symm.trans hc₂)
        exact hfree hs₂
      obtain ⟨n, k, hn, hone⟩ := turn_paid h hfree₁ hpass
      obtain ⟨n', k', hn', hrest⟩ := ih (loop_stream h hfree₁ hpass) hp
      refine ⟨n + n', k + k', ?_, ?_⟩
      · show n + n' ≤ e.offers + offered es
        exact Nat.add_le_add hn hn'
      · rw [List.length_cons, Nat.add_comm es.length]
        exact paid_trans hone hrest
    · cases hp

theorem requestDone_exit (e : PassEnv) (keepAlive : Bool) (c : Conn) :
    (requestDone e keepAlive c).2 ≠ .inCall := by
  unfold requestDone
  split
  · exact fun hx => by cases hx
  · dsimp only
    split
    · exact fun hx => by cases hx
    · split <;> exact fun hx => by cases hx

theorem deliver_exit {e : PassEnv} (h : e.send.Answers) (last keepAlive : Bool) (c : Conn) :
    (deliver e last keepAlive c).2 ≠ .inCall := by
  have hsend : (c.trySend e.send).2 ≠ .inCall := h c.r.out
  unfold deliver
  generalize c.trySend e.send = x at hsend ⊢
  obtain ⟨c₂, rc⟩ := x
  cases rc with
  | fail => exact fun hx => by cases hx
  | inCall => exact absurd rfl hsend
  | again =>
    cases last with
    | true => exact fun hx => by cases hx
    | false => exact requestDone_exit e keepAlive _
  | done =>
    cases last with
    | true => exact fun hx => by cases hx
    | false => exact requestDone_exit e keepAlive _

theorem requestPass_exit {lib : Libc} {e : PassEnv} (h : e.send.Answers) (c : Conn) :
    (requestPass lib e c).2 ≠ .inCall := by
  have hpass := requestPass_cases lib e c
  generalize requestPass lib e c = x at hpass ⊢
  cases hpass with
  | idle hle => exact fun hx => by cases hx
  | dropped hle => exact fun hx => by cases hx
  | more c₁ i hf hpar => exact fun hx => by cases hx
  | refused c₁ hf hs => exact fun hx => by cases hx
  | bad c₁ i rc hf hpar hrc => exact fun hx => by cases hx
  | answered c₁ i _ hf hpar hx =>
    have hans := answer_cases lib e { c₁ with r := { c₁.r with inp := i } }
    rw [← hx] at hans
    cases hans with
    | refused c₂ look hp => exact fun hx => by cases hx
    | reply c₂ look file last hp hcomp hlast hlook => exact deliver_exit h last _ c₂
    | started i file envp pid inR inW outR outW hi hm hu => exact fun hx => by cases hx

/-- The loop of `do_request` goes on, or it ends. -/
theorem loop_ends {lib : Libc} {c : Conn} {es : List PassEnv} (hsend : ∀ e ∈ es, e.send.Answers)
    (h : passes lib c es = none) : (requestLoop lib c es).2 = true := by
  induction es generalizing c with
  | nil => cases h
  | cons e es ih =>
    have hexit := @requestPass_exit lib _ (hsend e List.mem_cons_self) c
    unfold passes at h
    unfold requestLoop
    generalize requestPass lib e c = x at hexit h ⊢
    obtain ⟨c₁, x⟩ := x
    cases x with
    | next => exact ih (fun e he => hsend e (List.mem_cons_of_mem _ he)) h
    | idle => rfl
    | returned => rfl
    | closed => rfl
    | inCall => exact absurd rfl hexit

/-! ### Sending -/

theorem heard_cons_of {α : Type} {a : Ans α} (h : a.isHeard = true) (answers : List (Ans α)) :
    heard (a :: answers) = heard answers + 1 :=
  List.countP_cons_of_pos h

theorem heard_eintr {α : Type} (answers : List (Ans α)) :
    heard (.eintr :: answers) = heard answers :=
  List.countP_cons_of_neg (fun hx => by cases hx)

theorem advance_pos {len sent left : Nat} (h : sent < len) (hleft : 0 < left) :
    sent < (advance len sent left).1 := by
  unfold advance
  rw [if_pos h]
  dsimp only
  split <;> omega

/-- A byte that was sent is not owed any more. -/
theorem memLeft_charge {o : Output} (h : memPending o = true) {n : Nat} (hn : 0 < n) :
    memLeft (chargeOut o n) < memLeft o := by
  unfold chargeOut memLeft
  dsimp only
  rcases Nat.lt_or_ge o.outHeaderSent o.outHeaderLen with hlt | hge
  · have hheader := advance_pos hlt hn
    split
    · have hbody := le_advance o.outBodyLen o.outBodySent
        (advance o.outHeaderLen o.outHeaderSent n).2
      dsimp only
      omega
    · dsimp only
      omega
  · have hsame : advance o.outHeaderLen o.outHeaderSent n = (o.outHeaderSent, n) :=
      if_neg (Nat.not_lt.mpr hge)
    have hbody : bodyPending o = true := by
      unfold memPending at h
      rw [decide_eq_false (Nat.not_lt.mpr hge), Bool.false_or] at h
      exact h
    have hlt : o.outBodySent < o.outBodyLen := by
      unfold bodyPending at hbody
      exact of_decide_eq_true (Bool.and_eq_true_iff.mp hbody).2
    have hmore := advance_pos hlt hn
    rw [hsame, if_pos ⟨hn, hbody⟩]
    dsimp only
    omega

theorem trySendMem_ends {o : Output} {answers : List (Ans Nat)}
    (h : memLeft o < heard answers) : (trySendMem o answers).2.2 ≠ some .inCall := by
  induction answers generalizing o with
  | nil => exact absurd h (Nat.not_lt_zero _)
  | cons a answers ih =>
    unfold trySendMem
    split
    · next hpend =>
      cases a with
      | ok n =>
        dsimp only
        split
        · exact fun hx => by cases hx
        · next hne =>
          have hless := memLeft_charge hpend (List.length_pos_iff.mpr hne)
          have hone := heard_cons_of (a := Ans.ok n) rfl answers
          exact ih (by omega)
      | eintr =>
        rw [heard_eintr] at h
        exact ih h
      | eagain => exact fun hx => by cases hx
      | error => exact fun hx => by cases hx
    · exact fun hx => by cases hx

theorem trySendFile_ends {o : Output} {answers : List (Ans Bytes)}
    (h : fileLeft o < heard answers) : (trySendFile o answers).2.2 ≠ .inCall := by
  induction answers generalizing o with
  | nil => exact absurd h (Nat.not_lt_zero _)
  | cons a answers ih =>
    unfold trySendFile
    split
    · next hpend =>
      cases a with
      | ok bs =>
        dsimp only
        split
        · exact fun hx => by cases hx
        · next hne =>
          have hpos := List.length_pos_iff.mpr hne
          have hlt : o.outFileOffset < o.outFileSize := by
            unfold filePending at hpend
            exact of_decide_eq_true (Bool.and_eq_true_iff.mp hpend).2
          have hone := heard_cons_of (a := Ans.ok bs) rfl answers
          refine ih ?_
          unfold fileLeft at h ⊢
          dsimp only
          omega
      | eintr =>
        rw [heard_eintr] at h
        exact ih h
      | eagain => exact fun hx => by cases hx
      | error => exact fun hx => by cases hx
    · exact fun hx => by cases hx

theorem trySend_ends {o : Output} {e : SendEnv} (hmem : memLeft o < heard e.writes)
    (hfile : fileLeft o < heard e.files) : (trySend e o).2.2 ≠ .inCall := by
  have hends := trySendMem_ends hmem
  obtain ⟨hs, bs, hframe⟩ := trySendMem_frame o e.writes
  unfold trySend
  generalize trySendMem o e.writes = x at hends hframe ⊢
  obtain ⟨o₁, calls, rc⟩ := x
  cases rc with
  | some rc => exact fun hx => hends (congrArg some hx)
  | none =>
    have hsame : fileLeft o₁ = fileLeft o := by
      obtain rfl := hframe
      rfl
    exact trySendFile_ends (hsame ▸ hfile)

/-! ### The relay -/

theorem writerLoop_ends {c : CgiState} (h : WriterOk c) {answers : List (Ans Nat)}
    (hlong : (owed c).length < heard answers) : (writerLoop c answers).2.2 ≠ .inCall := by
  have hend : ∀ c, (writerEnd c).2.2 ≠ .inCall := fun c => by
    rcases writerEnd_returns c with he | he | he <;> rw [he] <;> exact fun hx => by cases hx
  induction answers generalizing c with
  | nil => exact absurd hlong (Nat.not_lt_zero _)
  | cons a answers ih =>
    have ho := clientIov_offer h
    unfold writerLoop
    rcases hio : clientIov c with ⟨c', _ | _ | ⟨b, iov⟩⟩
    · exact hend c'
    · exact hend c'
    · rw [hio] at ho
      cases a with
      | ok n =>
        dsimp only
        split
        · exact fun hx => by cases hx
        · next hne =>
          -- what was taken is not owed any more
          obtain ⟨htake, hok, -, -⟩ := charge_offer h ho n
          have hlen := congrArg List.length htake
          rw [List.length_append] at hlen
          have hpos := List.length_pos_iff.mpr hne
          have hone := heard_cons_of (a := Ans.ok n) rfl answers
          exact ih hok (by omega)
      | eintr =>
        obtain ⟨hok, howed, -, -⟩ := stay_of_offer h ho
        rw [heard_eintr] at hlong
        exact ih hok (by rw [howed]; exact hlong)
      | eagain => exact fun hx => by cases hx
      | error => exact fun hx => by cases hx

/-- A read that does not end the loop has added to the header, which is not full. -/
theorem onPipeBytes_more {c c' : CgiState} {d : Bytes} {calls : List Call} (hd : d ≠ [])
    (h : onPipeBytes c d = (c', calls, none)) :
    c.hdrLen < c'.hdrLen ∧ c'.hdrLen < CGI_HDR_SIZE := by
  have hpos := List.length_pos_iff.mpr hd
  unfold onPipeBytes at h
  dsimp only at h
  split at h
  · cases h
  · split at h
    · unfold collectHeader at h
      dsimp only at h
      generalize hcopy : (if d.length > CGI_HDR_SIZE - c.hdrLen then CGI_HDR_SIZE - c.hdrLen
        else d.length) = copy at h
      split at h
      · cases h
      · split at h
        · cases h
        · next hroom =>
          obtain ⟨rfl, -⟩ := Prod.mk.inj h
          dsimp only
          split at hcopy <;> omega
    · cases h

theorem loadPiece_exit (c : CgiState) (len : Nat) : (loadPiece c len).2.2 ≠ .inCall := by
  unfold loadPiece
  split <;> exact fun hx => by cases hx

theorem finishHeader_exit (c : CgiState) (bodyOff : Nat) :
    (finishHeader c bodyOff).2.2 ≠ .inCall := by
  unfold finishHeader
  split
  · exact fun hx => by cases hx
  · split
    · exact fun hx => by cases hx
    · dsimp only
      split
      · split
        · exact fun hx => by cases hx
        · exact loadPiece_exit _ _
      · exact fun hx => by cases hx

theorem loadMessage_exit (c : CgiState) (status : Nat) (msg : Bytes) :
    (loadMessage c status msg).2.2 ≠ .inCall := by
  unfold loadMessage
  split
  · exact fun hx => by cases hx
  · split
    · exact fun hx => by cases hx
    · exact loadPiece_exit _ _

theorem onPipeBytes_exit {c c' : CgiState} {d : Bytes} {calls : List Call} {e : ReadExit}
    (h : onPipeBytes c d = (c', calls, some e)) : e ≠ .inCall := by
  unfold onPipeBytes at h
  dsimp only at h
  split at h
  · cases h
    exact fun hx => by cases hx
  · split at h
    · unfold collectHeader at h
      dsimp only at h
      split at h
      · next bodyOff hend =>
        obtain rfl := Option.some.inj (Prod.mk.inj (Prod.mk.inj h).2).2
        exact finishHeader_exit _ _
      · generalize (if d.length > CGI_HDR_SIZE - c.hdrLen then CGI_HDR_SIZE - c.hdrLen
          else d.length) = copy at h
        split at h
        · cases h
          exact fun hx => by cases hx
        · cases h
    · obtain rfl := Option.some.inj (Prod.mk.inj (Prod.mk.inj h).2).2
      exact loadPiece_exit _ _

/-- Either message is loaded. -/
theorem loadOutput_exit (c : CgiState) :
    (if c.hdrLen > CGI_BODY_SIZE then loadMessage c 500 (ascii "cgi output too large\n")
      else loadMessage c 200 (c.hdrBuf.slice 0 c.hdrLen)).2.2 ≠ .inCall := by
  split
  · exact loadMessage_exit _ _ _
  · exact loadMessage_exit _ _ _

theorem onPipeEof_exit (c : CgiState) : (onPipeEof c).2.2 ≠ .inCall := by
  unfold onPipeEof
  dsimp only
  split
  · split
    · have hload := loadOutput_exit { c with eof := true, outFd := none }
      dsimp only at hload
      generalize (if c.hdrLen > CGI_BODY_SIZE then _ else _ : CgiState × List Call × ReadExit) = x
        at hload ⊢
      obtain ⟨c₁, calls, e⟩ := x
      cases e with
      | armClient => exact fun hx => by cases hx
      | rearmPipe => exact fun hx => by cases hx
      | closeConn => exact fun hx => by cases hx
      | inCall => exact absurd rfl hload
    · have hload := loadMessage_exit { c with eof := true, outFd := none } 500
        (ascii "cgi produced no output\n")
      generalize loadMessage _ 500 _ = x at hload ⊢
      exact hload
  · exact fun hx => by cases hx

theorem readerLoop_ends {c : CgiState} {answers : List (Ans Bytes)}
    (h : CGI_HDR_SIZE - c.hdrLen < heard answers) : (readerLoop c answers).2.2 ≠ .inCall := by
  induction answers generalizing c with
  | nil => exact absurd h (Nat.not_lt_zero _)
  | cons a answers ih =>
    unfold readerLoop
    split
    · exact fun hx => by cases hx
    · cases a with
      | ok bs =>
        dsimp only
        split
        · exact onPipeEof_exit c
        · next hne =>
          split
          · next c' calls e hread => exact onPipeBytes_exit hread
          · next c' calls hread =>
            have hmore := onPipeBytes_more hne hread
            have hone := heard_cons_of (a := Ans.ok bs) rfl answers
            exact ih (by omega)
      | eintr =>
        rw [heard_eintr] at h
        exact ih h
      | eagain => exact fun hx => by cases hx
      | error => exact fun hx => by cases hx

/-! ### Callbacks -/

theorem stdoutReady_ends {c : Conn} {answers : List (Ans Bytes)} (reaped : Bool)
    (h : CGI_HDR_SIZE < heard answers) : (zvCgiOnStdoutReady answers reaped c).2 = true := by
  have hends : (readerLoop c.r.cgi answers).2.2 ≠ .inCall :=
    readerLoop_ends ((Nat.sub_le _ _).trans_lt h)
  unfold zvCgiOnStdoutReady
  split
  · rfl
  · have hsame : c.delTimer.r.cgi = c.r.cgi := rfl
    dsimp only
    rw [hsame]
    generalize readerLoop c.r.cgi answers = x at hends ⊢
    obtain ⟨g, calls, x⟩ := x
    cases x with
    | inCall => exact absurd rfl hends
    | armClient => rfl
    | rearmPipe => rfl
    | closeConn => rfl

theorem writeStatic_ends {c : Conn} {e : WriteEnv} (hmem : memLeft c.r.out < heard e.send.writes)
    (hfile : fileLeft c.r.out < heard e.send.files) : (writeStatic e c).2 = true := by
  have hends : (c.trySend e.send).2 ≠ .inCall := trySend_ends hmem hfile
  unfold writeStatic
  generalize c.trySend e.send = x at hends ⊢
  obtain ⟨c₁, rc⟩ := x
  cases rc with
  | inCall => exact absurd rfl hends
  | again => rfl
  | fail => rfl
  | done =>
    dsimp only
    split <;> rfl

theorem writeCgi_ends {c : Conn} (h : WriterOk c.r.cgi) {e : WriteEnv}
    (hlong : (owed c.r.cgi).length < heard e.cgi) : (writeCgi e c).2 = true := by
  have hends := writerLoop_ends h hlong
  have hexit : (zvCgiOnClientWritable e.cgi e.reapedWrite c).2 ≠ .inCall := by
    unfold zvCgiOnClientWritable
    split
    · exact fun hx => by cases hx
    · generalize writerLoop c.r.cgi e.cgi = x at hends ⊢
      obtain ⟨g, calls, x⟩ := x
      cases x with
      | inCall => exact absurd rfl hends
      | finished => exact fun hx => by cases hx
      | needMore => exact fun hx => by cases hx
      | wouldBlock => exact fun hx => by cases hx
      | error => exact fun hx => by cases hx
  unfold writeCgi
  generalize zvCgiOnClientWritable e.cgi e.reapedWrite c = x at hexit ⊢
  obtain ⟨c₁, x⟩ := x
  cases x with
  | inCall => exact absurd rfl hexit
  | finished => rfl
  | needMore => rfl
  | wouldBlock => rfl
  | error => rfl

/-- A script whose output waits for the client owes it something definite. -/
theorem phase_owing {c : Conn} (h : Phase c) (hf : c.sock = .fired .epollout)
    (hact : c.r.cgi.active = true) : WriterOk c.r.cgi := by
  cases h with
  | cgiWriting isOpen hsock hpipe hs hbuilt hfd => exact hs.relay.writer
  | reading isOpen hsock hpipe hout hcgi => cases (noScript_active hcgi).symm.trans hact
  | writing isOpen hsock hpipe hout hcgi => cases (noScript_active hcgi).symm.trans hact
  | cgiReading isOpen hsock => cases hf.symm.trans hsock
  | closed isOpen hsock => cases hf.symm.trans hsock

theorem returned_some {x : Conn × Bool} (h : x.2 = true) : ∃ c', returned x = some c' :=
  ⟨x.1, if_pos h⟩

/-! ### One callback -/

theorem reached_turning {lib : Libc} {c : Conn} (h : Reached lib c) (hf : c.sock = .fired .epollin) :
    LoopParsing { c with sock := .off }.delTimer ∧ StreamInv { c with sock := .off }.delTimer := by
  obtain ⟨⟨hph, hbuf⟩, hinv⟩ := reached_stream h
  exact ⟨phase_loopParsing hph hbuf hf,
    streamInv_adds hinv ⟨[.delTimer], rfl, by simp [Call.isStill]⟩
      fun hopen hact hk => ⟨hopen, hact, hk, rfl⟩⟩

/-- Behind as many turns as the bytes pay for `do_request` has returned, or a request line was
refused. -/
theorem request_ends {lib : Libc} {c : Conn} (h : LoopParsing c ∧ StreamInv c) {es : List PassEnv}
    (hsend : ∀ e ∈ es, e.send.Answers)
    (hlong : offered es + 2 * ((c.r.inp.last + offered es) / SHORTEST_REQUEST) + 1 < es.length) :
    (requestLoop lib c es).2 = true ∨ ∃ c', passes lib c es = some c' ∧ Stuck c'.r.inp := by
  cases hp : passes lib c es with
  | none => exact .inl (loop_ends hsend hp)
  | some c' =>
    refine .inr ⟨c', rfl, by_contra fun hfree => ?_⟩
    obtain ⟨n, k, hn, hone⟩ := passes_paid h hfree hp
    have hunparsed := unparsed_le c
    have hbuffered := hone.buffered
    have hturns := hone.turns
    have hk : k ≤ (c.r.inp.last + offered es) / SHORTEST_REQUEST := by
      rw [Nat.le_div_iff_mul_le (by decide), Nat.mul_comm]
      omega
    omega

theorem request_spins {lib : Libc} {c c' : Conn} {es : List PassEnv} (hp : passes lib c es = some c')
    (hs : Stuck c'.r.inp) (es' : List PassEnv) :
    (requestLoop lib c (es ++ es')).2 = false ∧
      ∃ c₂, passes lib c (es ++ es') = some c₂ ∧ c₂.tr = c'.tr := by
  obtain ⟨hpasses, hloop⟩ := passes_append es' hp
  obtain ⟨c₂, hc₂, -, htr⟩ := @passes_stuck lib c' hs es'
  rw [hpasses, hloop]
  exact ⟨requestLoop_stuck lib es' hs, c₂, hc₂, htr⟩

theorem connStep_request {lib : Libc} {c : Conn} (hf : c.sock = .fired .epollin)
    (es : List PassEnv) :
    connStep lib c (.request es) = returned (requestLoop lib { c with sock := .off }.delTimer es) :=
  if_pos hf

theorem static_returns {lib : Libc} {c : Conn} (hf : c.sock = .fired .epollout)
    (hact : c.r.cgi.active = false) {e : WriteEnv} (hmem : memLeft c.r.out < heard e.send.writes)
    (hfile : fileLeft c.r.out < heard e.send.files) : ∃ c', connStep lib c (.write e) = some c' := by
  have hno : ¬ c.r.cgi.active = true := fun hx => by cases hx.symm.trans hact
  have hdo : doWrite e { c with sock := .off } = writeStatic e { c with sock := .off }.delTimer :=
    if_neg hno
  have hend : (doWrite e { c with sock := .off }).2 = true := by
    rw [hdo]
    exact writeStatic_ends hmem hfile
  unfold connStep
  dsimp only
  rw [if_pos hf]
  exact returned_some hend

theorem relay_returns {lib : Libc} {c : Conn} (h : Phase c) (hf : c.sock = .fired .epollout)
    (hact : c.r.cgi.active = true) {e : WriteEnv} (hlong : (owed c.r.cgi).length < heard e.cgi) :
    ∃ c', connStep lib c (.write e) = some c' := by
  have hdo : doWrite e { c with sock := .off } = writeCgi e { c with sock := .off }.delTimer :=
    if_pos hact
  have hend : (doWrite e { c with sock := .off }).2 = true := by
    have howing : WriterOk c.r.cgi := phase_owing h hf hact
    rw [hdo]
    exact @writeCgi_ends { c with sock := .off }.delTimer howing e hlong
  unfold connStep
  dsimp only
  rw [if_pos hf]
  exact returned_some hend

theorem stdout_returns {lib : Libc} {c : Conn} (hf : c.pipe = .fired .epollin)
    {answers : List (Ans Bytes)} (reaped : Bool) (hlong : CGI_HDR_SIZE < heard answers) :
    ∃ c', connStep lib c (.stdout answers reaped) = some c' := by
  unfold connStep
  dsimp only
  rw [if_pos hf]
  exact returned_some (stdoutReady_ends reaped hlong)

end CallbackTurnsLemmas

open CallbackTurnsLemmas

/-- When the callbacks of a connection return. The turns of `do_request` are paid for by the bytes
and the requests that they take, each request by its bytes, until a request line is refused with
`ZV_HTTP_PARSE_INVALID_REQUEST`. A callback that has more answers ahead than its bytes pay for
comes to an end; `do_request` does if and only if no turn refuses a line, and behind one that does
it makes no call any more. -/
structure CallbacksReturn (lib : Libc) (c : Conn) : Prop where
  paid : c.sock = .fired .epollin → ∀ es c', passes lib { c with sock := .off }.delTimer es = some c' →
    ¬ Stuck c'.r.inp → ∃ bytes requests, bytes ≤ offered es ∧
      Paid es.length bytes requests { c with sock := .off }.delTimer c'
  request : c.sock = .fired .epollin → ∀ es, (∀ e ∈ es, e.send.Answers) →
    offered es + 2 * ((c.r.inp.last + offered es) / SHORTEST_REQUEST) + 1 < es.length →
    ((∃ c', connStep lib c (.request es) = some c') ↔
      ∀ es₁ c', es₁ <+: es → passes lib { c with sock := .off }.delTimer es₁ = some c' →
        ¬ Stuck c'.r.inp)
  spins : c.sock = .fired .epollin → ∀ es c', passes lib { c with sock := .off }.delTimer es = some c' →
    Stuck c'.r.inp → ∀ es', connStep lib c (.request (es ++ es')) = none ∧
      ∃ c₂, passes lib { c with sock := .off }.delTimer (es ++ es') = some c₂ ∧ c₂.tr = c'.tr
  static : c.sock = .fired .epollout → c.r.cgi.active = false → ∀ e,
    memLeft c.r.out < heard e.send.writes → fileLeft c.r.out < heard e.send.files →
    ∃ c', connStep lib c (.write e) = some c'
  relay : c.sock = .fired .epollout → c.r.cgi.active = true → ∀ e,
    (owed c.r.cgi).length < heard e.cgi → ∃ c', connStep lib c (.write e) = some c'
  stdout : c.pipe = .fired .epollin → ∀ answers reaped, CGI_HDR_SIZE < heard answers →
    ∃ c', connStep lib c (.stdout answers reaped) = some c'

/-- No callback turns its loop for ever, but for `do_request` at a request line that is refused. -/
theorem callbacks_return {lib : Libc} {c : Conn} (h : Reached lib c) : CallbacksReturn lib c where
  paid hf _ _ hp hfree := passes_paid (reached_turning h hf) hfree hp
  request hf es hsend hlong := by
    rw [connStep_request hf]
    refine ⟨fun ⟨c', hret⟩ es₁ c₁ ⟨es₂, hes⟩ hp hs => ?_, fun hfree => ?_⟩
    · have hno := (request_spins hp hs es₂).1
      rw [hes, returned_eq hret] at hno
      cases hno
    · rcases request_ends (reached_turning h hf) hsend hlong with hend | ⟨c', hp, hs⟩
      · exact returned_some hend
      · exact absurd hs (hfree es c' (List.prefix_refl es) hp)
  spins hf _ _ hp hs es' := by
    obtain ⟨hno, hquiet⟩ := request_spins hp hs es'
    rw [connStep_request hf]
    exact ⟨if_neg (by rw [hno]; exact Bool.false_ne_true), hquiet⟩
  static hf hact _ hmem hfile := static_returns hf hact hmem hfile
  relay hf hact _ hlong := relay_returns (reached_stream h).1.1 hf hact hlong
  stdout hf _ reaped hlong := stdout_returns hf reaped hlong

/-- A pass in which the socket is full and the client has closed its side. -/
def fullPass : PassEnv :=
  { missingPass with read := .ok [], send := ⟨[.eagain], [.eagain]⟩ }

/-- A pass that reads a request line without a slash. -/
def refusedPass : PassEnv := { missingPass with read := .ok (ascii "GET x HTTP/1.1\r\n\r\n") }

/-- Behind two requests `do_request` returns within three turns; at a request line that is refused
it does not return, whatever the further answers are. -/
theorem callbacks_return_full :
    (∃ c c', Reached sampleLib c ∧ (servedOf c.tr).length = 2 ∧ CallbacksReturn sampleLib c ∧
      connStep sampleLib c (.request (List.replicate 3 fullPass)) = some c') ∧
    ∃ c c', Reached sampleLib c ∧ CallbacksReturn sampleLib c ∧
      passes sampleLib { c with sock := .off }.delTimer [refusedPass] = some c' ∧ Stuck c'.r.inp ∧
      ∀ es, connStep sampleLib c (.request (refusedPass :: es)) = none := by
  have hfull : (run (connStep sampleLib) (acceptConn Request.zero 7 ⟨some (ascii "/srv"), 0, 0⟩)
      [.takeSocket, .request putPasses, .takeSocket]).map
        (fun c => ((servedOf c.tr).length,
          (connStep sampleLib c (.request (List.replicate 3 fullPass))).isSome)) =
      some (2, true) := by decide +kernel
  have hrefused : (passes sampleLib { missingConn with sock := .off }.delTimer [refusedPass]).map
      (fun c => decide (Stuck c.r.inp)) = some true := by decide +kernel
  obtain ⟨c, hc, hfacts⟩ := Option.map_eq_some_iff.mp hfull
  obtain ⟨hserved, hret⟩ := Prod.mk.inj hfacts
  obtain ⟨c', hc'⟩ := Option.isSome_iff_exists.mp hret
  obtain ⟨d, hd, hstuck⟩ := Option.map_eq_some_iff.mp hrefused
  have hr : Reached sampleLib c := ⟨Request.zero, 7, _, _, hc⟩
  have hr' : Reached sampleLib missingConn := ⟨Request.zero, 7, _, [.takeSocket], rfl⟩
  refine ⟨⟨c, c', hr, hserved, callbacks_return hr, hc'⟩, missingConn, d, hr', callbacks_return hr', hd,
    of_decide_eq_true hstuck, fun es => ?_⟩
  exact ((callbacks_return hr').spins rfl [refusedPass] d hd (of_decide_eq_true hstuck) es).1

end Zaver
