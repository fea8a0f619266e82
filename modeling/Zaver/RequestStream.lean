import Zaver.Callbacks
import Zaver.Lib.Frames
import Zaver.ReceiveBuffer
import Zaver.WholeRequest

/-!
# The requests of a stream

A client sends bytes and knows nothing of how they are cut into reads. `requestsOf` is what the
bytes say: the parser on a fresh block, called once, and again from where the last request ended.
A connection serves these requests in this order, whatever the reads, the writes and the
callbacks were (`requests_in_order`): when it rests, the block is what one call of the parser
makes of the bytes that follow the requests served (`Resting`).

The method is the exception, for the parser may leave `r->method` as it was (`records`).
-/

namespace Zaver

open Frames Runs WholeRequestLemmas ParseResumeLemmas ConnectionLemmas AnswerLemmas
open PersistenceLemmas CallbacksLemmas ReceiveBufferLemmas

/-! ## What a stream says -/

/-- The parser fields of a block that was just initialised. -/
def freshInput : Input := (zvInitRequestT Request.zero 0 ⟨none, 0, 0⟩).inp

/-- The parser on a fresh block, called once on as many bytes as the buffer takes: the request, and
how long it was. -/
def oneShot (s : Bytes) : Option ((Served × Method) × Nat) :=
  match parsePhases (freshInput.load (s.take (MAX_BUF - 1))) with
  | (i, .ok) => some ((i.served, i.method), i.parsePos)
  | _ => none

/-- The requests of a stream up to the first that the parser refuses, that has not come to its
end or that is longer than the buffer. -/
def requestsOf (s : Bytes) : List (Served × Method) := framesOf oneShot s

/-- A request that fits in the buffer. -/
structure FittingRequest where
  text : RequestText
  ok : text.Ok
  fits : text.render.length ≤ MAX_BUF - 1

namespace FittingRequest

/-- The bytes of a request. -/
def render (q : FittingRequest) : Bytes := q.text.render

/-- The request as a fresh block shows it. -/
def record (q : FittingRequest) : Served × Method := (q.text.served, methodCode q.text.line.token)

end FittingRequest

namespace RequestStreamLemmas

theorem length_render_pos (q : FittingRequest) : 0 < q.render.length := by
  unfold FittingRequest.render
  rw [← length_request q.text]
  exact Nat.succ_pos _

theorem oneShot_render (q : FittingRequest) (s : Bytes) :
    oneShot (q.render ++ s) = some (q.record, q.render.length) := by
  have htake : (q.render ++ s).take (MAX_BUF - 1) =
      q.render ++ s.take (MAX_BUF - 1 - q.render.length) := by
    rw [List.take_append, List.take_of_length_le (show q.render.length ≤ MAX_BUF - 1 from q.fits)]
  have hlen : (q.text.render ++ s.take (MAX_BUF - 1 - q.render.length)).length ≤ MAX_BUF := by
    show (q.render ++ s.take (MAX_BUF - 1 - q.render.length)).length ≤ MAX_BUF
    rw [← htake, List.length_take]
    exact (Nat.min_le_left _ _).trans (Nat.sub_le _ _)
  obtain ⟨j, hj, hshow⟩ := parse_fresh Request.zero 0 ⟨none, 0, 0⟩ q.ok hlen
  have hone : parsePhases (freshInput.load ((q.render ++ s).take (MAX_BUF - 1))) = (j, .ok) := by
    rw [htake]
    exact hj
  unfold oneShot
  rw [hone]
  dsimp only
  rw [hshow.served, hshow.method, hshow.pos]
  exact congrArg (fun m => some ((q.text.served, m), q.text.render.length))
    (methodCode_stored q.text.line.token)

/-- Whatever one call accepts is a request. -/
theorem oneShot_sound {s : Bytes} {x : (Served × Method) × Nat} (h : oneShot s = some x) :
    ∃ (q : FittingRequest) (u : Bytes), s = q.render ++ u := by
  have hle : (s.take (MAX_BUF - 1)).length ≤ MAX_BUF - 1 := by
    rw [List.length_take]
    exact Nat.min_le_left _ _
  have hfull : 0 + (s.take (MAX_BUF - 1)).length ≤ MAX_BUF := by
    rw [Nat.zero_add]
    exact hle.trans (Nat.sub_le _ _)
  have hwin : (freshInput.load (s.take (MAX_BUF - 1))).window = s.take (MAX_BUF - 1) :=
    window_load_parsed rfl hfull
  unfold oneShot at h
  split at h
  · next j hj =>
    obtain ⟨q, u, hq, hw, -⟩ := parse_sound ⟨rfl, rfl, rfl, rfl, rfl⟩ hfull hj
    rw [hwin] at hw
    have hfits : q.render.length ≤ MAX_BUF - 1 := by
      rw [hw, List.length_append] at hle
      exact (Nat.le_add_right _ _).trans hle
    refine ⟨⟨q, hq, hfits⟩, u ++ s.drop (MAX_BUF - 1), ?_⟩
    show s = q.render ++ (u ++ s.drop (MAX_BUF - 1))
    rw [← List.append_assoc, ← hw, List.take_append_drop]
  · cases h

/-- One call of the parser cuts the requests off a stream. -/
theorem oneShot_cuts : Cuts oneShot FittingRequest.render FittingRequest.record :=
  ⟨length_render_pos, oneShot_render, fun _ _ => oneShot_sound⟩

end RequestStreamLemmas

open RequestStreamLemmas

/-! ## What a connection makes of it -/

/-- The requests handed to `handle_cgi_mvp`, with `r->method` at that time. -/
def servesOf (tr : List Call) : List (Served × Method) :=
  tr.filterMap fun
    | .serve q m => some (q, m)
    | _ => none

/-- The method that a block has after a request, when it had `m` before. -/
def FittingRequest.methodAfter (q : FittingRequest) (m : Method) : Method :=
  (storedMethod q.text.line.token).getD m

/-- The requests as a block shows them that had the method `m` before. -/
def records : Method → List FittingRequest → List (Served × Method)
  | _, [] => []
  | m, q :: qs => (q.text.served, q.methodAfter m) :: records (q.methodAfter m) qs

/-- The method that a block has after some requests. -/
def lastMethod (m : Method) (qs : List FittingRequest) : Method :=
  qs.foldl (fun m q => q.methodAfter m) m

/-- The requests `qs` were served, and `rest` was received behind them. -/
structure Streamed (qs : List FittingRequest) (rest : Bytes) (tr : List Call) : Prop where
  serves : servesOf tr = records .unknown qs
  received : received tr = qs.flatMap FittingRequest.render ++ rest

/-- What the parser knows of the next request is what one call of it makes of the bytes that
were received of it. `j` is the block before that call. -/
structure Resting (c : Conn) (qs : List FittingRequest) (j : Input) : Prop where
  start : AtStart j
  room : j.last ≤ MAX_BUF - 1
  method : j.method = lastMethod .unknown qs
  parsed : c.r.inp = j ∨ parsePhases j = (c.r.inp, .again)
  streamed : Streamed qs (j.buf.slice 0 j.last) c.tr

/-- What a connection keeps between two callbacks, and at every turn of the loop of `do_request`.
A response after which the connection is closed may leave the parser where it was. -/
structure StreamInv (c : Conn) : Prop where
  streamed : ∃ qs rest, Streamed qs rest c.tr
  resting : c.isOpen = true → c.r.cgi.active = false →
    (c.r.out.writing = true → c.r.out.keepAlive = true) → ∃ qs j, Resting c qs j

/-- A call that takes no byte from the client and hands no request on. -/
def Call.isStill : Call → Bool
  | .recv _ => false
  | .serve _ _ => false
  | _ => true

/-- A call that `zv_cgi_start` alone makes. -/
def Call.isStart : Call → Bool
  | .pipe _ _ => true
  | .fork _ _ _ => true
  | _ => false

/-- A call that is still and none of `zv_cgi_start`. -/
def Call.isAside (call : Call) : Bool := call.isStill && !call.isStart

namespace RequestStreamLemmas

/-! ### Records -/

@[simp] theorem servesOf_append (t u : List Call) : servesOf (t ++ u) = servesOf t ++ servesOf u :=
  List.filterMap_append

theorem servedOf_serves (tr : List Call) : servedOf tr = (servesOf tr).map Prod.fst := by
  unfold servedOf servesOf
  rw [List.map_filterMap]
  refine List.filterMap_congr fun x _ => ?_
  cases x <;> rfl

theorem records_concat (m : Method) (qs : List FittingRequest) (q : FittingRequest) :
    records m (qs ++ [q]) = records m qs ++ [(q.text.served, q.methodAfter (lastMethod m qs))] := by
  induction qs generalizing m with
  | nil => rfl
  | cons p qs ih => exact congrArg ((p.text.served, p.methodAfter m) :: ·) (ih _)

theorem lastMethod_concat (m : Method) (qs : List FittingRequest) (q : FittingRequest) :
    lastMethod m (qs ++ [q]) = q.methodAfter (lastMethod m qs) := by
  unfold lastMethod
  rw [List.foldl_append]
  rfl

/-- Calls that are still leave the two records alone. -/
theorem records_still {calls : List Call} (hall : ∀ x ∈ calls, x.isStill = true) :
    servesOf calls = [] ∧ received calls = [] := by
  constructor
  · refine List.filterMap_eq_nil_iff.mpr fun x hx => ?_
    have hstill := hall x hx
    cases x with
    | serve q m => cases hstill
    | _ => rfl
  · refine List.flatMap_eq_nil_iff.mpr fun x hx => ?_
    have hstill := hall x hx
    cases x with
    | recv bs => cases hstill
    | _ => rfl

theorem streamed_still {qs : List FittingRequest} {rest : Bytes} {tr calls : List Call}
    (h : Streamed qs rest tr) (hall : ∀ x ∈ calls, x.isStill = true) :
    Streamed qs rest (tr ++ calls) := by
  obtain ⟨hserves, hreceived⟩ := records_still hall
  constructor
  · rw [servesOf_append, hserves, List.append_nil]
    exact h.serves
  · rw [received_append, hreceived, List.append_nil]
    exact h.received

theorem streamed_adds {c c' : Conn} {qs : List FittingRequest} {rest : Bytes}
    (h : Streamed qs rest c.tr) (hs : Adds Call.isStill c c') : Streamed qs rest c'.tr := by
  obtain ⟨calls, htr, hall⟩ := hs
  rw [htr]
  exact streamed_still h hall

theorem adds_mono {P Q : Call → Bool} {c c' : Conn} (hPQ : ∀ x, P x = true → Q x = true)
    (h : Adds P c c') : Adds Q c c' := by
  obtain ⟨calls, htr, hall⟩ := h
  exact ⟨calls, htr, fun x hx => hPQ x (hall x hx)⟩

theorem aside_still (x : Call) (h : x.isAside = true) : x.isStill = true :=
  (Bool.and_eq_true_iff.mp h).1

theorem plain_aside (x : Call) (h : x.isPlain = true) : x.isAside = true := by
  cases x with
  | recv bs | serve q m | pipe rd wr | fork pid file envp => cases h
  | _ => rfl

theorem plain_still (x : Call) (h : x.isPlain = true) : x.isStill = true :=
  aside_still x (plain_aside x h)

theorem relay_aside (x : Call) (h : x.isRelay = true) : x.isAside = true := by
  cases x with
  | recv bs | serve q m | pipe rd wr | fork pid file envp => cases h
  | _ => rfl

theorem closeConn_aside (reaped : Bool) (c : Conn) : Adds Call.isAside c (zvHttpCloseConn reaped c) := by
  have hfd : ∀ fd : Option Fd, ∀ x ∈ closeFd fd, x.isAside = true :=
    fun fd x hx => plain_aside x (closeFd_plain fd x hx)
  have hcgi : ∀ x ∈ (freeCgi reaped c.r.cgi).2, x.isAside = true := by
    intro x hx
    unfold freeCgi at hx
    split at hx
    · cases List.mem_append.mp hx with
      | inl hx =>
        cases hp : c.r.cgi.pid with
        | none => simp [hp] at hx
        | some pid =>
          simp only [hp, List.mem_cons, List.not_mem_nil, or_false] at hx
          rcases hx with rfl | rfl <;> rfl
      | inr hx => exact hfd _ x hx
    · exact absurd hx List.not_mem_nil
  refine ⟨_, rfl, fun x hx => ?_⟩
  simp only [List.mem_append, List.mem_singleton] at hx
  rcases hx with ((hx | hx) | hx) | rfl
  · exact hfd _ x hx
  · exact hcgi x hx
  · exact hfd _ x hx
  · rfl

theorem closeConn_still (reaped : Bool) (c : Conn) : Adds Call.isStill c (zvHttpCloseConn reaped c) :=
  adds_mono aside_still (closeConn_aside reaped c)

theorem closeLabel_aside (reaped : Bool) (c : Conn) : Adds Call.isAside c (c.closeLabel reaped) :=
  adds_trans (adds_mono plain_aside (reset_plain c)) (closeConn_aside reaped c.reset)

theorem closeLabel_still (reaped : Bool) (c : Conn) : Adds Call.isStill c (c.closeLabel reaped) :=
  adds_mono aside_still (closeLabel_aside reaped c)

/-- A callback that relays does not come to `zv_cgi_start`. -/
theorem returns_aside {c c' : Conn} (h : Returns Call.isRelay c c') : Adds Call.isAside c c' := by
  obtain ⟨c₁, hw, he⟩ := h
  obtain ⟨calls, htr, hall, -⟩ := hw.calls
  refine adds_trans (adds_mono relay_aside ⟨calls, htr, hall⟩) ?_
  cases he with
  | rests ms => exact ⟨[.addTimer ms], rfl, by simp [Call.isAside, Call.isStart, Call.isStill]⟩
  | closes reaped => exact closeConn_aside reaped c₁

theorem lookup_still {look : List Call} (h : Lookup look) : ∀ x ∈ look, x.isStill = true := by
  cases h with
  | direct => exact fun x hx => absurd hx List.not_mem_nil
  | stat file => simp [Call.isStill]
  | start file calls hf => cases hf <;> simp [Call.isStill]

/-- The request is handed on once, and nothing is read. -/
theorem prologue_still {c c₁ : Conn} {look : List Call} {file : Option (Bytes × Fd)}
    (h : Prologue c c₁ look file) : ∃ calls, (∀ x ∈ calls, x.isStill = true) ∧
      c₁.tr = c.tr ++ .serve c.r.inp.served c.r.inp.method :: calls := by
  refine ⟨look ++ closeFd c.r.out.outFileFd ++ (file.map fun f => Call.openFile f.1 f.2).toList,
    fun x hx => ?_, ?_⟩
  · rcases List.mem_append.mp hx with hx | hx
    · rcases List.mem_append.mp hx with hx | hx
      · exact lookup_still h.lookup x hx
      · exact plain_still x (closeFd_plain _ x hx)
    · obtain ⟨f, -, rfl⟩ := Option.map_eq_some_iff.mp (Option.mem_toList.mp hx)
      rfl
  · rw [h.frame]
    simp only [List.cons_append, List.append_assoc]

/-! ### The parser -/

theorem start_load {j : Input} (h : AtStart j) (bs : Bytes) : AtStart (j.load bs) :=
  ⟨h.pos, h.phase, h.line, h.header, h.list⟩

/-- The parser is called with the same result as once on all bytes of the request. -/
structure FedStream (c₁ : Conn) (qs : List FittingRequest) (j : Input) : Prop where
  start : AtStart j
  room : j.last ≤ MAX_BUF - 1
  method : j.method = lastMethod .unknown qs
  same : SameResult (parsePhases c₁.r.inp) (parsePhases j)
  streamed : Streamed qs (j.buf.slice 0 j.last) c₁.tr

theorem resting_last {c : Conn} {qs : List FittingRequest} {j : Input} (h : Resting c qs j) :
    c.r.inp.last = j.last ∧ (c.r.inp = j ∨ c.r.inp.parsePos = j.last) := by
  rcases h.parsed with heq | hmore
  · exact ⟨by rw [heq], .inl heq⟩
  · have hpos : j.parsePos ≤ j.last := by
      rw [h.start.pos]
      exact Nat.zero_le _
    obtain ⟨hw, hend, -⟩ := parsePhases_frame hpos
    rw [hmore] at hw hend
    exact ⟨hw.last, .inr (hend rfl)⟩

theorem fed_stream {c c₁ : Conn} {qs : List FittingRequest} {j : Input} (h : Resting c qs j)
    (hf : Fed c c₁) : ∃ j', FedStream c₁ qs j' := by
  obtain ⟨hlast, hpos⟩ := resting_last h
  cases hf with
  | left hlt =>
    rcases hpos with heq | hpos
    · exact ⟨j, h.start, h.room, h.method, by rw [heq]; exact SameResult.refl _, h.streamed⟩
    · rw [hpos, hlast] at hlt
      exact absurd hlt (Nat.lt_irrefl _)
  | read bs hle hne hroom =>
    rw [hlast] at hroom
    have hle' : j.parsePos ≤ j.last := by
      rw [h.start.pos]
      exact Nat.zero_le _
    refine ⟨j.load bs, start_load h.start bs, hroom, h.method, ?_, ?_, ?_⟩
    · show SameResult (parsePhases (c.r.inp.load bs)) (parsePhases (j.load bs))
      rcases h.parsed with heq | hmore
      · rw [heq]
        exact SameResult.refl _
      · -- the parser goes on where it stopped
        have hresume := parsePhases_resume hle' (hroom.trans (Nat.sub_le _ _)) (by rw [hmore])
        rw [hmore] at hresume
        exact hresume
    · show servesOf (c.tr ++ [.recv bs]) = _
      rw [servesOf_append, h.streamed.serves]
      exact List.append_nil _
    · show Zaver.received (c.tr ++ [.recv bs]) = _ ++ (j.buf.write j.last bs).slice 0 (j.last + bs.length)
      rw [received_append, h.streamed.received, Mem.slice_write_append _ _ (Nat.zero_le _),
        List.append_assoc]
      show _ ++ (_ ++ (bs ++ [])) = _
      rw [List.append_nil]

/-- A complete request stands in front of what was received. -/
theorem served_stream {c₁ : Conn} {qs : List FittingRequest} {j i : Input} (h : FedStream c₁ qs j)
    (hp : parsePhases c₁.r.inp = (i, .ok)) :
    ∃ (q : FittingRequest) (u : Bytes), i.served = q.text.served ∧
      i.method = q.methodAfter (lastMethod .unknown qs) ∧ i.parsePos = q.render.length ∧
      i.last ≤ MAX_BUF - 1 ∧ i.buf.slice 0 i.last = q.render ++ u ∧
      Streamed qs (q.render ++ u) c₁.tr := by
  have hone : parsePhases j = (i, .ok) := by
    obtain ⟨hrc, hsame⟩ := h.same
    rw [hp] at hrc hsame
    exact Prod.ext (hsame (.inl rfl)).symm hrc.symm
  have hmax : j.last ≤ MAX_BUF := h.room.trans (Nat.sub_le _ _)
  obtain ⟨q, u, hq, hw, hshow⟩ := parse_sound h.start hmax hone
  have hwin : j.buf.slice 0 j.last = q.render ++ u := by
    rw [← hw, window_eq hmax, h.start.pos]
  have hfits : q.render.length ≤ MAX_BUF - 1 := by
    have hlen := congrArg List.length hwin
    rw [Mem.length_slice, List.length_append] at hlen
    have hroom := h.room
    omega
  refine ⟨⟨q, hq, hfits⟩, u, hshow.served, ?_, hshow.pos, ?_, ?_, ?_⟩
  · rw [hshow.method, h.method]
    rfl
  · rw [hshow.last]
    exact h.room
  · rw [hshow.buf, hshow.last]
    exact hwin
  · have hstreamed := h.streamed
    rw [hwin] at hstreamed
    exact hstreamed

/-- A request is served. -/
theorem streamed_serve {qs : List FittingRequest} {q : FittingRequest} {u : Bytes} {tr calls : List Call}
    (h : Streamed qs (q.render ++ u) tr) (hall : ∀ x ∈ calls, x.isStill = true) :
    Streamed (qs ++ [q]) u
      (tr ++ .serve q.text.served (q.methodAfter (lastMethod .unknown qs)) :: calls) := by
  have hone : Streamed (qs ++ [q]) u
      (tr ++ [.serve q.text.served (q.methodAfter (lastMethod .unknown qs))]) := by
    constructor
    · rw [servesOf_append, h.serves, records_concat]
      rfl
    · rw [received_append, h.received, List.flatMap_append, List.flatMap_singleton]
      show _ ++ [] = _
      rw [List.append_nil, List.append_assoc]
  have hsplit := streamed_still hone hall
  rw [List.append_assoc] at hsplit
  exact hsplit

/-! ### A pass -/

/-- What follows the request is moved to the head of the buffer. -/
theorem nextRequest_buffered {i : Input} {head rest : Bytes} (hpos : i.parsePos = head.length)
    (hne : 0 < head.length) (hbuf : i.buf.slice 0 i.last = head ++ rest) :
    i.nextRequest.buf.slice 0 i.nextRequest.last = rest ∧ i.nextRequest.last ≤ i.last := by
  have hrest : i.buf.slice i.parsePos i.last = rest := by
    have hdrop := Mem.drop_slice i.buf 0 i.last head.length
    rw [hbuf, List.drop_left, Nat.zero_add] at hdrop
    rw [hpos]
    exact hdrop.symm
  have hle : i.parsePos ≤ i.last := by
    have hlen := congrArg List.length hbuf
    rw [Mem.length_slice, List.length_append] at hlen
    omega
  unfold Input.nextRequest
  rw [if_pos (hpos ▸ hne)]
  dsimp only
  refine ⟨?_, Nat.sub_le _ _⟩
  split
  · rw [Mem.slice_move_zero, Nat.add_sub_cancel' hle]
    exact hrest
  · next hnone =>
    have hsame : i.last = i.parsePos := by omega
    rw [hsame, Mem.slice_self] at hrest
    rw [hsame, Nat.sub_self, Mem.slice_self]
    exact hrest

theorem requestDone_input {e : PassEnv} {keepAlive : Bool} {c : Conn}
    (hopen : (requestDone e keepAlive c).1.isOpen = true) :
    (requestDone e keepAlive c).1.r.inp = c.r.inp.nextRequest := by
  unfold requestDone at hopen ⊢
  split at hopen
  · cases hopen
  · next hpos =>
    rw [if_neg hpos]
    dsimp only at hopen ⊢
    split at hopen
    · next hw =>
      rw [if_pos hw]
      rfl
    · next hw =>
      rw [if_neg hw]
      split at hopen
      · cases hopen
      · next hk => rw [if_neg hk]

/-- The connection goes on with the next request, or the response is the last one. -/
theorem deliver_input {e : PassEnv} {last keepAlive : Bool} {c : Conn}
    (hopen : (deliver e last keepAlive c).1.isOpen = true)
    (hret : (deliver e last keepAlive c).2 ≠ .inCall) :
    (deliver e last keepAlive c).1.r.inp = c.r.inp.nextRequest ∨
      (last = true ∧ (deliver e last keepAlive c).1.r.out.writing = true ∧
        (deliver e last keepAlive c).1.r.out.keepAlive = c.r.out.keepAlive) := by
  unfold deliver at hopen hret ⊢
  rcases hsend : c.trySend e.send with ⟨c₂, rc⟩
  obtain ⟨_, _, _, _, -, rfl⟩ := trySend_frame hsend
  rw [hsend] at hopen hret
  cases rc with
  | fail => cases hopen
  | inCall => exact absurd rfl hret
  | again =>
    cases last with
    | true => exact .inr ⟨rfl, rfl, rfl⟩
    | false => exact .inl (requestDone_input hopen)
  | done =>
    cases last with
    | true => cases hopen
    | false => exact .inl (requestDone_input hopen)

theorem streamInv_closed {c : Conn} {qs : List FittingRequest} {rest : Bytes}
    (h : Streamed qs rest c.tr) (reaped : Bool) : StreamInv (c.closeLabel reaped) :=
  ⟨⟨qs, rest, streamed_adds h (closeLabel_still reaped c)⟩, fun hx => by cases hx⟩

/-- The answer to a request hands it on once, and reads nothing. -/
theorem answer_record (lib : Libc) (e : PassEnv) {c : Conn} (hact : c.r.cgi.active = false) :
    ∃ calls, (∀ x ∈ calls, x.isStill = true) ∧
      (answer lib e c).1.tr = c.tr ++ .serve c.r.inp.served c.r.inp.method :: calls := by
  have hans := answer_cases lib e c
  generalize answer lib e c = x at hans ⊢
  -- what comes behind the prologue is still
  have hbehind : ∀ {c₁ c₂ : Conn} {look : List Call} {file : Option (Bytes × Fd)},
      Prologue c c₁ look file → Adds Call.isStill c₁ c₂ → ∃ calls, (∀ x ∈ calls, x.isStill = true) ∧
        c₂.tr = c.tr ++ .serve c.r.inp.served c.r.inp.method :: calls := by
    intro c₁ c₂ look file hp hadds
    obtain ⟨calls, hall, htr⟩ := prologue_still hp
    obtain ⟨more, htr₂, hmore⟩ := hadds
    refine ⟨calls ++ more, fun x hx => (List.mem_append.mp hx).elim (hall x) (hmore x), ?_⟩
    rw [htr₂, htr, List.append_assoc]
    rfl
  cases hans with
  | refused c₁ look hp => exact hbehind hp (closeLabel_still e.reaped c₁)
  | reply c₁ look file last hp hcomp hlast hlook =>
    have hact₁ : c₁.r.cgi.active = false := by
      rw [hp.frame]
      exact hact
    exact hbehind hp (adds_mono plain_still (deliver_plain hact₁ e last c₁.r.out.keepAlive))
  | started i file envp pid inR inW outR outW hi hm hu =>
    refine ⟨_, fun x hx => ?_, rfl⟩
    simp only [List.mem_cons, List.not_mem_nil, or_false] at hx
    rcases hx with rfl | rfl | rfl | rfl | rfl | rfl | rfl | rfl | rfl <;> rfl

/-- The response to a complete request, of which `u` follows in the buffer. -/
theorem answer_stream {lib : Libc} {e : PassEnv} {c : Conn} {qs : List FittingRequest}
    {q : FittingRequest} {u : Bytes} {x : Conn × PassExit} (hact : c.r.cgi.active = false)
    (hserved : c.r.inp.served = q.text.served)
    (hmethod : c.r.inp.method = q.methodAfter (lastMethod .unknown qs))
    (hpos : c.r.inp.parsePos = q.render.length) (hroom : c.r.inp.last ≤ MAX_BUF - 1)
    (hbuf : c.r.inp.buf.slice 0 c.r.inp.last = q.render ++ u)
    (hs : Streamed qs (q.render ++ u) c.tr) (ha : Answered lib e c x)
    (hpar : x.1.isOpen = true → Parsing x.1.r.inp) (hret : x.2 ≠ .inCall) : StreamInv x.1 := by
  -- the request is served before anything else is done
  have hserve : ∀ {c₁ : Conn} {look : List Call} {file : Option (Bytes × Fd)},
      Prologue c c₁ look file → Streamed (qs ++ [q]) u c₁.tr := by
    intro c₁ look file hp
    obtain ⟨calls, hall, htr⟩ := prologue_still hp
    rw [htr, hserved, hmethod]
    exact streamed_serve hs hall
  cases ha with
  | refused c₁ look hp => exact streamInv_closed (hserve hp) _
  | reply c₁ look file last hp hcomp hlast hlook =>
    have hact₁ : c₁.r.cgi.active = false := by
      rw [hp.frame]
      exact hact
    have hstreamed := streamed_adds (hserve hp)
      (adds_mono plain_still (deliver_plain hact₁ e last c₁.r.out.keepAlive))
    refine ⟨⟨_, _, hstreamed⟩, fun hopen _ hkeep => ?_⟩
    have hinp : c₁.r.inp.nextRequest.buf = c.r.inp.nextRequest.buf ∧
        c₁.r.inp.nextRequest.last = c.r.inp.nextRequest.last ∧
        c₁.r.inp.nextRequest.method = c.r.inp.nextRequest.method := by
      rcases hp.input with heq | heq
      · rw [heq]
        exact ⟨rfl, rfl, rfl⟩
      · rw [heq]
        unfold Input.nextRequest
        dsimp only
        split <;> exact ⟨rfl, rfl, rfl⟩
    obtain ⟨hnext, hle⟩ := nextRequest_buffered hpos (length_render_pos q) hbuf
    rcases deliver_input hopen hret with heq | ⟨hl, hw, hk⟩
    · have hparsing := hpar hopen
      rw [heq] at hparsing
      obtain ⟨a, hmarks, -⟩ := hparsing.line rfl
      refine ⟨qs ++ [q], c₁.r.inp.nextRequest, ⟨rfl, rfl, rfl, rfl, hmarks.list⟩, ?_, ?_,
        .inl heq, ?_⟩
      · rw [hinp.2.1]
        exact hle.trans hroom
      · have hsame : c.r.inp.nextRequest.method = c.r.inp.method := by
          unfold Input.nextRequest
          dsimp only
          split <;> rfl
        rw [hinp.2.2, hsame, hmethod, lastMethod_concat]
      · rw [hinp.1, hinp.2.1, hnext]
        exact hstreamed
    · -- the last response is still under way
      have hno := hkeep hw
      rw [hk, hlast hl] at hno
      cases hno
  | started i file envp pid inR inW outR outW hi hm hu =>
    refine ⟨⟨qs ++ [q], u, ?_⟩, fun _ hx => by cases hx⟩
    unfold startedConn
    rw [hserved, hmethod]
    refine streamed_serve hs fun x hx => ?_
    simp only [List.mem_cons, List.not_mem_nil, or_false] at hx
    rcases hx with rfl | rfl | rfl | rfl | rfl | rfl | rfl | rfl | rfl <;> rfl

theorem pass_stream {lib : Libc} {e : PassEnv} {c : Conn} {x : Conn × PassExit} (h : LoopParsing c)
    {qs : List FittingRequest} {j : Input} (hrest : Resting c qs j)
    (hx : requestPass lib e c = x) (hret : x.2 ≠ .inCall)
    (hfree : x.2 = .next → ¬ Stuck x.1.r.inp) : StreamInv x.1 := by
  have hpass := requestPass_cases lib e c
  have hleaves := (guardedPass_ok (fun _ c => (c, .next)) lib e h.2).2
  rw [hx] at hpass hleaves
  cases hpass with
  | idle hle => exact ⟨⟨qs, _, hrest.streamed⟩, fun _ _ _ => ⟨qs, j, hrest⟩⟩
  | dropped hle => exact streamInv_closed hrest.streamed _
  | more c₁ i hf hpar =>
    obtain ⟨j', hfed⟩ := fed_stream hrest hf
    have hone : parsePhases j' = (i, .again) := by
      obtain ⟨hrc, hsame⟩ := hfed.same
      rw [hpar] at hrc hsame
      exact Prod.ext (hsame (.inr rfl)).symm hrc.symm
    exact ⟨⟨qs, _, hfed.streamed⟩, fun _ _ _ =>
      ⟨qs, j', hfed.start, hfed.room, hfed.method, .inr hone, hfed.streamed⟩⟩
  | refused c₁ hf hs => exact absurd hs.again (hfree rfl)
  | bad c₁ i rc hf hpar hrc =>
    obtain ⟨j', hfed⟩ := fed_stream hrest hf
    exact streamInv_closed (c := { c₁ with r := { c₁.r with inp := i } }) hfed.streamed _
  | answered c₁ i _ hf hpar hans =>
    obtain ⟨j', hfed⟩ := fed_stream hrest hf
    obtain ⟨q, u, hserved, hmethod, hpos, hroom, hbuf, hstreamed⟩ := served_stream hfed hpar
    have hact : c₁.r.cgi.active = false := noScript_active (fed_loop h.1 hf).cgi
    have ha := answer_cases lib e { c₁ with r := { c₁.r with inp := i } }
    rw [← hans] at ha
    have hpars : x.1.isOpen = true → Parsing x.1.r.inp := fun hopen =>
      (hleaves.parsing hopen).resolve_right fun hr => hfree hr.1 (refused_stuck hr.2)
    exact answer_stream (c := { c₁ with r := { c₁.r with inp := i } }) hact hserved hmethod hpos hroom
      hbuf hstreamed ha hpars hret

/-- The connection at the head of the loop of `do_request`. -/
theorem atLoop_resting {c : Conn} (h : AtLoop c) (hs : StreamInv c) : ∃ qs j, Resting c qs j :=
  hs.resting h.isOpen (noScript_active h.cgi) fun hx => by cases h.out.writing.symm.trans hx

theorem loop_stream {lib : Libc} {e : PassEnv} {c c' : Conn} (h : LoopParsing c ∧ StreamInv c)
    (hfree : ¬ Stuck c'.r.inp) (hp : requestPass lib e c = (c', .next)) :
    LoopParsing c' ∧ StreamInv c' := by
  obtain ⟨qs, j, hrest⟩ := atLoop_resting h.1.1 h.2
  exact ⟨loopParsing_free h.1 hfree hp,
    pass_stream h.1 hrest hp (fun hx => by cases hx) fun _ => hfree⟩

/-- Calls that are still, on a connection that keeps what the parser knows. -/
theorem streamInv_adds {c c' : Conn} (h : StreamInv c) (hs : Adds Call.isStill c c')
    (hkeep : c'.isOpen = true → c'.r.cgi.active = false →
      (c'.r.out.writing = true → c'.r.out.keepAlive = true) →
      c.isOpen = true ∧ c.r.cgi.active = false ∧
        (c.r.out.writing = true → c.r.out.keepAlive = true) ∧ c'.r.inp = c.r.inp) : StreamInv c' := by
  obtain ⟨qs, rest, hstreamed⟩ := h.streamed
  refine ⟨⟨qs, rest, streamed_adds hstreamed hs⟩, fun hopen hact hk => ?_⟩
  obtain ⟨hopen', hact', hk', hinp⟩ := hkeep hopen hact hk
  obtain ⟨qs, j, hrest⟩ := h.resting hopen' hact' hk'
  refine ⟨qs, j, hrest.start, hrest.room, hrest.method, ?_, streamed_adds hrest.streamed hs⟩
  rw [hinp]
  exact hrest.parsed

theorem doRequest_stream {lib : Libc} {es : List PassEnv} {c c' : Conn}
    (h : LoopParsing c.delTimer ∧ StreamInv c.delTimer) (hd : doRequest lib es c = (c', true)) :
    StreamInv c' := by
  obtain ⟨c₁, e, c₂, x, h₁, hpass, hend⟩ := requestLoop_cases (fun _ _ _ => loop_stream) h hd
  obtain ⟨qs, j, hrest⟩ := atLoop_resting h₁.1.1 h₁.2
  have hinv := pass_stream h₁.1 hrest hpass
  rcases hend with ⟨rfl, ms, rfl⟩ | ⟨hx, rfl⟩
  · refine streamInv_adds (hinv (fun hx => by cases hx) fun hx => by cases hx) ?_
      fun hopen hact hk => ⟨hopen, hact, hk, rfl⟩
    exact ⟨[.rearm .epollin, .addTimer ms], List.append_assoc _ _ _, by simp [Call.isStill]⟩
  · rcases hx with rfl | rfl
    · exact hinv (fun hx => by cases hx) fun hx => by cases hx
    · exact hinv (fun hx => by cases hx) fun hx => by cases hx

/-! ### Steps -/

/-- The rest of a response leaves the parser alone. -/
theorem writeStatic_input {e : WriteEnv} {c c' : Conn} (h : writeStatic e c = (c', true))
    (hopen : c'.isOpen = true) : c'.r.inp = c.r.inp ∧
      ((c'.r.out.writing = true → c'.r.out.keepAlive = true) → c.r.out.keepAlive = true) := by
  unfold writeStatic at h
  rcases hsend : c.trySend e.send with ⟨c₂, rc⟩
  obtain ⟨_, _, _, _, -, rfl⟩ := trySend_frame hsend
  rw [hsend] at h
  cases rc with
  | again =>
    obtain ⟨rfl, -⟩ := Prod.mk.inj h
    exact ⟨rfl, fun hk => hk rfl⟩
  | fail =>
    obtain ⟨rfl, -⟩ := Prod.mk.inj h
    cases hopen
  | inCall => cases congrArg Prod.snd h
  | done =>
    dsimp only at h
    split at h
    · obtain ⟨rfl, -⟩ := Prod.mk.inj h
      cases hopen
    · next hk =>
      obtain ⟨rfl, -⟩ := Prod.mk.inj h
      exact ⟨rfl, fun _ => Bool.eq_true_of_not_eq_false hk⟩

theorem callback_aside {lib : Libc} {c c' : Conn} {a : ConnAct} (h : Phase c)
    (ha : a.isCallback = true) (hrelay : a.allows = Call.isRelay)
    (hstep : connStep lib c a = some c') : Adds Call.isAside c c' := by
  obtain ⟨c₀, -, -, htr, -, hret⟩ := callback_ends h ha hstep
  rw [hrelay] at hret
  have hdel : Adds Call.isAside c c₀ := ⟨[.delTimer], htr, by simp [Call.isAside, Call.isStart, Call.isStill]⟩
  exact adds_trans hdel (returns_aside hret)

theorem callback_still {lib : Libc} {c c' : Conn} {a : ConnAct} (h : Phase c)
    (ha : a.isCallback = true) (hrelay : a.allows = Call.isRelay)
    (hstep : connStep lib c a = some c') : Adds Call.isStill c c' :=
  adds_mono aside_still (callback_aside h ha hrelay hstep)

/-- What a connection keeps. -/
def StreamPhase (c : Conn) : Prop := (Phase c ∧ Buffered c) ∧ StreamInv c

theorem connStep_stream {lib : Libc} {c c' : Conn} {a : ConnAct} (h : StreamPhase c)
    (hstep : connStep lib c a = some c') : StreamPhase c' := by
  obtain ⟨⟨hph, hbuf⟩, hinv⟩ := h
  refine ⟨connStep_buffered ⟨hph, hbuf⟩ hstep, ?_⟩
  cases connStep_cases hstep with
  | takeSocket g hg | takePipe g hg =>
    refine streamInv_adds hinv ⟨[], (List.append_nil _).symm, ?_⟩ fun hopen hact hk =>
      ⟨hopen, hact, hk, rfl⟩
    exact fun x hx => absurd hx List.not_mem_nil
  | request es _ hf hd =>
    have hdel : StreamInv { c with sock := .off }.delTimer :=
      streamInv_adds hinv ⟨[.delTimer], rfl, by simp [Call.isStill]⟩
        fun hopen hact hk => ⟨hopen, hact, hk, rfl⟩
    exact doRequest_stream ⟨phase_loopParsing hph hbuf hf, hdel⟩ hd
  | write e _ hf hd =>
    refine streamInv_adds hinv (callback_still hph rfl rfl hstep) fun hopen hact hk => ?_
    cases hph with
    | reading _ hsock => cases fired_waits hf hsock
    | cgiReading _ hsock | closed _ hsock => cases hf.symm.trans hsock
    | writing isOpen hsock hpipe hout hcgi hwin =>
      have hno := noScript_active hcgi
      have hw : writeStatic e { c with sock := .off }.delTimer = (c', true) :=
        (if_neg (fun hx => by cases hno.symm.trans hx)).symm.trans hd
      obtain ⟨hinp, hkeep⟩ := writeStatic_input hw hopen
      exact ⟨isOpen, hno, fun _ => hkeep hk, hinp⟩
    | cgiWriting isOpen hsock hpipe hs hbuilt hfd =>
      have hs' : Script { c with sock := .off }.delTimer :=
        script_quiet [.delTimer] hs ⟨rfl, rfl, rfl⟩ (by simp [Call.isServe]) rfl rfl
      have hw : writeCgi e { c with sock := .off }.delTimer = (c', true) :=
        (if_pos hs.active).symm.trans hd
      have hstill := @writeCgi_active e _ hs'
      rw [hw] at hstill
      cases (hstill hopen).symm.trans hact
  | stdout answers reaped _ hf hd =>
    refine streamInv_adds hinv (callback_still hph rfl rfl hstep) fun hopen hact hk => ?_
    cases hph with
    | cgiReading isOpen hsock hpipe hs hfd hu =>
      have hstill := @stdoutReady_active answers reaped { c with pipe := .off }
        ⟨hs.active, hs.relay, hs.text⟩ hfd
      rw [hd] at hstill
      cases (hstill hopen).symm.trans hact
    | reading _ hsock hpipe | writing _ hsock hpipe | cgiWriting _ hsock hpipe
    | closed _ hsock hpipe => cases hf.symm.trans hpipe
  | hangup ev reaped hf =>
    have hdel : Adds Call.isStill c c.delTimer := ⟨[.delTimer], rfl, by simp [Call.isStill]⟩
    exact streamInv_adds hinv (adds_trans hdel (closeConn_still reaped c.delTimer))
      fun hx => by cases hx
  | expire reaped hopen =>
    exact streamInv_adds hinv (closeConn_still reaped c) fun hx => by cases hx

theorem streamInv_accept (old : Request) (fd : Fd) (cf : Conf) : StreamInv (acceptConn old fd cf) := by
  have hstreamed : Streamed [] [] (acceptConn old fd cf).tr := ⟨rfl, rfl⟩
  refine ⟨⟨[], [], hstreamed⟩, fun _ _ _ => ⟨[], (acceptConn old fd cf).r.inp, ?_⟩⟩
  exact ⟨⟨rfl, rfl, rfl, rfl, rfl⟩, Nat.zero_le _, rfl, .inl rfl, hstreamed⟩

theorem reached_stream {lib : Libc} {c : Conn} (h : Reached lib c) : StreamPhase c := by
  obtain ⟨old, fd, cf, acts, hrun⟩ := h
  refine run_invariant (fun _ _ _ => connStep_stream) ?_ hrun
  exact ⟨⟨phase_accept old fd cf, buffered_of (parsing_accept old fd cf)⟩, streamInv_accept old fd cf⟩

/-! ### The last request -/

theorem requestsOf_streamed {qs : List FittingRequest} {rest : Bytes} {tr : List Call}
    (h : Streamed qs rest tr) (s : Bytes) :
    requestsOf (received tr ++ s) = qs.map FittingRequest.record ++ requestsOf (rest ++ s) := by
  rw [h.received, List.append_assoc]
  exact framesOf_renderAll oneShot_cuts qs _

end RequestStreamLemmas

open RequestStreamLemmas

/-! ## The requests of a connection -/

/-- Two requests in one read, the second with a method that the parser does not know. -/
def putPasses : List PassEnv :=
  [{ missingPass with read := .ok (ascii "GET /a HTTP/1.1\r\n\r\nPUT /b HTTP/1.1\r\n\r\n") },
    missingPass, { missingPass with read := .eagain }]

end Zaver
