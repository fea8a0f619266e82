import Zaver.ResponseHeader

/-!
# When a response is complete

A response is prepared once and then sent by a sequence of `try_send` calls, the
first from `do_request`, the others from `do_write`. `trySend_spec` says what one
call moves to the client; `sendRun_spec` follows from it for the whole sequence.

The return value `0` is inferred from leaving the loops. The second loop is also
left when `sendfile` returns `0`, because the file has become shorter than its
size was at `stat`. `try_send_complete_iff` says that this is the only way in
which a response reported complete is not.
-/

namespace Zaver

open CString Chunked Gather HeaderBlock

/-- The calls of `try_send` that send one response: after a call that would block,
`do_write` makes the next one. -/
def sendRun (o : Output) : List SendEnv → Output × List Call × SendRc
  | [] => (o, [], .again)
  | e :: es =>
    match trySend e o with
    | (o, calls, .again) =>
      let (o, more, rc) := sendRun { o with writing := true } es
      (o, calls ++ more, rc)
    | res => res

/-- The counts that the kernel returns in one call of `try_send`. -/
structure SendCounts where
  writes : List (Ans Nat)
  files : List (Ans Nat)

/-- `sendfile` from `off` on: it sends the bytes of the file that follow, and returns their
number. -/
def fileAnswers (file : Bytes) (size off : Nat) : List (Ans Nat) → List (Ans Bytes)
  | [] => []
  | .ok n :: answers =>
    let d := ((file.take size).drop off).take n
    .ok d :: fileAnswers file size (off + d.length) answers
  | .eintr :: answers => .eintr :: fileAnswers file size off answers
  | .eagain :: answers => .eagain :: fileAnswers file size off answers
  | .error :: answers => .error :: fileAnswers file size off answers

/-- The answers to one call of `try_send` for a response with the file `file`. -/
def SendCounts.env (file : Bytes) (o : Output) (e : SendCounts) : SendEnv :=
  ⟨e.writes, fileAnswers file o.outFileSize o.outFileOffset e.files⟩

/-- `sendRun` for a response with the file `file`. -/
def sendRunOf (file : Bytes) (o : Output) : List SendCounts → Output × List Call × SendRc
  | [] => (o, [], .again)
  | e :: es =>
    match trySend (e.env file o) o with
    | (o, calls, .again) =>
      let (o, more, rc) := sendRunOf file { o with writing := true } es
      (o, calls ++ more, rc)
    | res => res

/-- A response before its first `try_send`; the body fills its block. -/
structure Unsent (o : Output) : Prop where
  header : o.outHeaderSent = 0
  body : o.outBodySent = 0
  file : o.outFileOffset = 0
  block : ∀ b, o.outBody = some b → b.length = o.outBodyLen

/-- The body `out_body[0, out_body_len)`, if there is one. -/
def bodyText (o : Output) : Bytes :=
  match o.outBody with
  | some body => body.take o.outBodyLen
  | none => []

/-- A call that moves bytes to the client. -/
def Call.isSend : Call → Bool
  | .writev _ => true
  | .sendfile _ => true
  | _ => false

namespace SendCompleteLemmas

/-! ### What is in memory -/

/-- The counters are in range. -/
structure SendOk (o : Output) : Prop where
  header : o.outHeaderSent ≤ o.outHeaderLen
  body : ∀ b, o.outBody = some b → b.length = o.outBodyLen ∧ o.outBodySent ≤ o.outBodyLen

/-- The bytes in memory that are still to be sent. -/
def memOwed (o : Output) : Bytes := o.outHeader.slice o.outHeaderSent o.outHeaderLen ++ bodyRest o

/-- `try_send` moves the three counters and nothing else. -/
def SendFrame (o o' : Output) : Prop :=
  ∃ hs bs fo w, o' = { o with
    outHeaderSent := hs, outBodySent := bs, outFileOffset := fo, writing := w }

theorem SendFrame.refl (o : Output) : SendFrame o o := ⟨_, _, _, _, rfl⟩

theorem SendFrame.trans {o o' o'' : Output} (h : SendFrame o o') (h' : SendFrame o' o'') :
    SendFrame o o'' := by
  obtain ⟨_, _, _, _, rfl⟩ := h
  obtain ⟨_, _, _, _, rfl⟩ := h'
  exact ⟨_, _, _, _, rfl⟩

/-- A body that is not pending has nothing left. -/
theorem bodyRest_of_not_pending {o : Output} (h : SendOk o) (hp : bodyPending o = false) :
    bodyRest o = [] := by
  unfold bodyRest
  cases hb : o.outBody with
  | none => rfl
  | some b =>
    obtain ⟨hlen, hle⟩ := h.body b hb
    have hfull : ¬ o.outBodySent < o.outBodyLen := by simpa [bodyPending, hb] using hp
    exact List.drop_of_length_le (by rw [List.length_take]; omega)

theorem sendIov_eq {o : Output} (h : SendOk o) : sendIov o = memOwed o := by
  unfold sendIov memOwed
  congr 1
  · split
    · rfl
    · next hlt => rw [Mem.slice_of_le _ (by omega)]
  · split
    · rfl
    · next hp => rw [bodyRest_of_not_pending h (by simpa using hp)]

theorem memOwed_of_not_pending {o : Output} (h : SendOk o) (hp : memPending o = false) :
    memOwed o = [] := by
  simp only [memPending, Bool.or_eq_false_iff, decide_eq_false_iff_not] at hp
  unfold memOwed
  rw [Mem.slice_of_le _ (by omega), bodyRest_of_not_pending h hp.2]
  rfl

/-- The counters move over the accepted bytes. -/
theorem chargeOut_ok {o : Output} (h : SendOk o) (n : Nat) :
    SendOk (chargeOut o n) ∧ memOwed (chargeOut o n) = (memOwed o).drop n ∧
      SendFrame o (chargeOut o n) ∧ (chargeOut o n).outFileOffset = o.outFileOffset := by
  have h1 := slice_advance o.outHeader (k := n) h.header (bodyRest o)
  have l1 := advance_le (k := n) h.header
  unfold chargeOut
  generalize advance o.outHeaderLen o.outHeaderSent n = adv at h1 l1 ⊢
  obtain ⟨hs, left⟩ := adv
  dsimp only at h1 l1 ⊢
  have hdrop : (memOwed o).drop n =
      o.outHeader.slice hs o.outHeaderLen ++ (bodyRest o).drop left := h1
  split
  · next hp =>
    obtain ⟨b, hb⟩ : ∃ b, o.outBody = some b := by
      have hsome := (Bool.and_eq_true_iff.mp hp.2).1
      exact Option.isSome_iff_exists.mp hsome
    obtain ⟨hlen, hle⟩ := h.body b hb
    have h2 := drop_advance (k := left) (d := b.take o.outBodyLen)
      (by rw [List.length_take]; omega) hle []
    have l2 := advance_le (k := left) hle
    simp only [List.append_nil, List.drop_nil] at h2
    refine ⟨⟨l1, fun b' hb' => ?_⟩, ?_, ⟨_, _, _, _, rfl⟩, rfl⟩
    · obtain rfl := Option.some.inj (hb.symm.trans hb')
      exact ⟨hlen, l2⟩
    · rw [hdrop]
      unfold memOwed bodyRest
      dsimp only
      rw [hb]
      dsimp only
      rw [h2]
  · next hp =>
    refine ⟨⟨l1, h.body⟩, ?_, ⟨_, _, _, _, rfl⟩, rfl⟩
    have hrest : (bodyRest o).drop left = bodyRest o := by
      by_cases hleft : left = 0
      · rw [hleft, List.drop_zero]
      · have hnp : bodyPending o = false := by
          by_contra hx
          exact hp ⟨by omega, by simpa [bodyPending] using hx⟩
        rw [bodyRest_of_not_pending h hnp, List.drop_nil]
    rw [hdrop, hrest]
    rfl

/-- The first loop: what it sends comes off the front of what is owed, and it is only left
when nothing is owed any longer. -/
theorem trySendMem_spec {o : Output} (h : SendOk o) (answers : List (Ans Nat)) :
    SendOk (trySendMem o answers).1 ∧ SendFrame o (trySendMem o answers).1 ∧
      (trySendMem o answers).1.outFileOffset = o.outFileOffset ∧
      accepted (trySendMem o answers).2.1 ++ memOwed (trySendMem o answers).1 = memOwed o ∧
      ((trySendMem o answers).2.2 = none → memOwed (trySendMem o answers).1 = []) ∧
      Call.sendfile [] ∉ (trySendMem o answers).2.1 ∧
      (trySendMem o answers).2.2 ≠ some .done := by
  induction answers generalizing o with
  | nil =>
    unfold trySendMem
    refine ⟨h, SendFrame.refl o, rfl, rfl, fun hnone => ?_, List.not_mem_nil, ?_⟩
    · dsimp only at hnone
      split at hnone
      · cases hnone
      · next hp => exact memOwed_of_not_pending h (by simpa using hp)
    · dsimp only
      split
      · exact fun hx => by cases hx
      · exact fun hx => by cases hx
  | cons a answers ih =>
    unfold trySendMem
    split
    · cases a with
      | ok n =>
        dsimp only
        split
        · exact ⟨h, SendFrame.refl o, rfl, rfl, (fun hx => by cases hx), List.not_mem_nil,
            fun hx => by cases hx⟩
        · obtain ⟨hok, howed, hframe, hoff⟩ := chargeOut_ok h ((sendIov o).take n).length
          obtain ⟨h1, h2, h3, h4, h5, h6, h7⟩ := ih hok
          refine ⟨h1, hframe.trans h2, h3.trans hoff, ?_, h5, ?_, h7⟩
          · change (sendIov o).take n ++ accepted _ ++ _ = _
            rw [List.append_assoc, h4, howed, sendIov_eq h]
            have htake : (memOwed o).take n =
                (memOwed o).take ((memOwed o).take n).length := by
              rw [List.length_take, List.take_eq_take_min]
            generalize ((memOwed o).take n).length = k at htake ⊢
            rw [htake, List.take_append_drop]
          · intro hmem
            cases List.mem_cons.mp hmem with
            | inl hx => cases hx
            | inr hx => exact h6 hx
      | eintr => exact ih h
      | eagain => exact ⟨h, SendFrame.refl o, rfl, rfl, (fun hx => by cases hx), List.not_mem_nil,
          fun hx => by cases hx⟩
      | error => exact ⟨h, SendFrame.refl o, rfl, rfl, (fun hx => by cases hx), List.not_mem_nil,
          fun hx => by cases hx⟩
    · next hp =>
      exact ⟨h, SendFrame.refl o, rfl, rfl, fun _ => memOwed_of_not_pending h (by simpa using hp),
        List.not_mem_nil, fun hx => by cases hx⟩

theorem trySendMem_sends (o : Output) (answers : List (Ans Nat)) :
    ∀ x ∈ (trySendMem o answers).2.1, x.isSend = true := by
  fun_induction trySendMem o answers with
  | case3 _ _ _ _ _ _ _ _ _ heq ih => simpa [heq, Call.isSend] using ih
  | case4 => assumption
  | _ => exact fun x hx => absurd hx List.not_mem_nil

/-! ### The file -/

/-- The second loop: the offset moves by what was sent, and a loop that was left without
`sendfile` returning `0` has reached the end of the file. -/
theorem trySendFile_spec (o : Output) (answers : List (Ans Bytes)) :
    (trySendFile o answers).1 = { o with
        outFileOffset := o.outFileOffset + (accepted (trySendFile o answers).2.1).length } ∧
      (filePending o = false → accepted (trySendFile o answers).2.1 = []) ∧
      (Call.sendfile [] ∈ (trySendFile o answers).2.1 →
        filePending (trySendFile o answers).1 = true ∧ (trySendFile o answers).2.2 = .done) ∧
      ((trySendFile o answers).2.2 = .done → Call.sendfile [] ∉ (trySendFile o answers).2.1 →
        filePending (trySendFile o answers).1 = false) ∧
      (o.outFileOffset ≤ o.outFileSize →
        (trySendFile o answers).1.outFileOffset ≤ o.outFileSize) := by
  induction answers generalizing o with
  | nil =>
    unfold trySendFile
    refine ⟨rfl, fun _ => rfl, fun hx => absurd hx List.not_mem_nil, fun hd _ => ?_, id⟩
    dsimp only at hd
    split at hd
    · cases hd
    · next hp => simpa using hp
  | cons a answers ih =>
    unfold trySendFile
    split
    · next hp =>
      cases a with
      | ok bs =>
        dsimp only
        split
        · next hd =>
          rw [hd]
          exact ⟨rfl, fun _ => rfl, fun _ => ⟨hp, rfl⟩, fun _ hno => absurd List.mem_cons_self hno,
            id⟩
        · next hd =>
          generalize hdd : bs.take (o.outFileSize - o.outFileOffset) = d at hd ⊢
          have hlen : d.length ≤ o.outFileSize - o.outFileOffset := by
            rw [← hdd, List.length_take]
            exact Nat.min_le_left _ _
          have hlt : o.outFileOffset < o.outFileSize := by
            have := (Bool.and_eq_true_iff.mp hp).2
            simpa using this
          obtain ⟨h1, _, h3, h4, h5⟩ :=
            ih { o with outFileOffset := o.outFileOffset + d.length }
          generalize trySendFile { o with outFileOffset := o.outFileOffset + d.length } answers =
            res at h1 h3 h4 h5
          obtain ⟨o', calls, rc⟩ := res
          have hacc : accepted (.sendfile d :: calls) = d ++ accepted calls := rfl
          have hmem : Call.sendfile [] ∈ Call.sendfile d :: calls ↔ Call.sendfile [] ∈ calls := by
            rw [List.mem_cons]
            refine ⟨fun hx => hx.resolve_left fun heq => hd (Call.sendfile.inj heq).symm, Or.inr⟩
          dsimp only at h1 h3 h4 h5 ⊢
          refine ⟨?_, fun hx => ?_, fun hx => h3 (hmem.mp hx),
            fun hdone hx => h4 hdone fun hy => hx (hmem.mpr hy), fun _ => h5 (by omega)⟩
          · rw [h1, hacc, List.length_append]
            simp [Nat.add_assoc]
          · rw [hp] at hx
            cases hx
      | eintr => exact ih o
      | eagain => exact ⟨rfl, fun _ => rfl, fun hx => absurd hx List.not_mem_nil,
          (fun hx => by cases hx), id⟩
      | error => exact ⟨rfl, fun _ => rfl, fun hx => absurd hx List.not_mem_nil,
          (fun hx => by cases hx), id⟩
    · next hp =>
      exact ⟨rfl, fun _ => rfl, fun hx => absurd hx List.not_mem_nil, fun _ _ => by simpa using hp,
        id⟩

theorem trySendFile_sends (o : Output) (answers : List (Ans Bytes)) :
    ∀ x ∈ (trySendFile o answers).2.1, x.isSend = true := by
  fun_induction trySendFile o answers with
  | case2 => simp [Call.isSend]
  | case3 _ _ _ _ _ _ _ _ _ heq ih => simpa [heq, Call.isSend] using ih
  | case4 => assumption
  | _ => exact fun x hx => absurd hx List.not_mem_nil

/-! ### The calls that send one response -/

/-- All that `try_send` calls is `writev` and `sendfile`. -/
theorem trySend_sends (e : SendEnv) (o : Output) : ∀ x ∈ (trySend e o).2.1, x.isSend = true := by
  have hmem := trySendMem_sends o e.writes
  unfold trySend
  split
  · next heq => simpa [heq] using hmem
  · next o calls heq =>
    rw [heq] at hmem
    intro x hx
    cases List.mem_append.mp hx with
    | inl hx => exact hmem x hx
    | inr hx => exact trySendFile_sends o e.files x hx

/-- The state of a response of which the bytes `acc` were accepted: first the memory, then
the file. -/
structure Sending (o0 o : Output) (acc : Bytes) : Prop where
  ok : SendOk o
  frame : SendFrame o0 o
  bound : o.outFileOffset ≤ o.outFileSize
  parts : ∃ file, acc ++ memOwed o = memOwed o0 ++ file ∧ o.outFileOffset = file.length ∧
    (memOwed o ≠ [] → file = []) ∧ (o0.outFileFd = none → file = [])

theorem trySend_spec {o0 o : Output} {acc : Bytes} (h : Sending o0 o acc) (e : SendEnv) :
    Sending o0 (trySend e o).1 (acc ++ accepted (trySend e o).2.1) ∧
      (Call.sendfile [] ∈ (trySend e o).2.1 → (trySend e o).2.2 = .done) ∧
      ((trySend e o).2.2 = .done → memOwed (trySend e o).1 = [] ∧
        (Call.sendfile [] ∈ (trySend e o).2.1 ↔ filePending (trySend e o).1 = true)) := by
  obtain ⟨h1, h2, h3, h4, h5, h6, h7⟩ := trySendMem_spec h.ok e.writes
  obtain ⟨file, hacc, hoff, hmem, hfd⟩ := h.parts
  unfold trySend
  generalize trySendMem o e.writes = res at h1 h2 h3 h4 h5 h6 h7
  obtain ⟨o1, calls, rc⟩ := res
  dsimp only at h1 h2 h3 h4 h5 h6 h7
  have hsize1 : o1.outFileSize = o.outFileSize := by
    obtain ⟨_, _, _, _, rfl⟩ := h2
    rfl
  have hmem1 : memOwed o1 ≠ [] → file = [] := by
    intro hne
    refine hmem fun hnil => hne ?_
    rw [hnil] at h4
    exact (List.append_eq_nil_iff.mp h4).2
  have hsum : acc ++ accepted calls ++ memOwed o1 = memOwed o0 ++ file := by
    rw [List.append_assoc, h4, hacc]
  have hstep : Sending o0 o1 (acc ++ accepted calls) :=
    ⟨h1, h.frame.trans h2, by rw [h3, hsize1]; exact h.bound, file, hsum, h3.trans hoff, hmem1, hfd⟩
  cases rc with
  | some rc =>
    dsimp only
    refine ⟨hstep, fun hx => absurd hx h6, fun hd => absurd (congrArg some hd) h7⟩
  | none =>
    have hnil := h5 rfl
    obtain ⟨g1, g2, g3, g4, g5⟩ := trySendFile_spec o1 e.files
    dsimp only
    generalize trySendFile o1 e.files = res at g1 g2 g3 g4 g5
    obtain ⟨o2, more, rc⟩ := res
    dsimp only at g1 g2 g3 g4 g5 ⊢
    have hnil2 : memOwed o2 = [] := by rw [g1]; exact hnil
    rw [hnil, List.append_nil] at hsum
    have hin : Call.sendfile [] ∈ calls ++ more ↔ Call.sendfile [] ∈ more := by
      rw [List.mem_append]
      exact ⟨fun hx => hx.resolve_left h6, Or.inr⟩
    refine ⟨⟨?_, hstep.frame.trans ⟨_, _, _, _, g1⟩, ?_, file ++ accepted more, ?_, ?_, ?_, ?_⟩,
      fun hx => (g3 (hin.mp hx)).2, fun hd => ⟨hnil2, ?_⟩⟩
    · rw [g1]
      exact ⟨h1.header, h1.body⟩
    · have hb := g5 hstep.bound
      rw [g1] at hb ⊢
      exact hb
    · rw [hnil2, List.append_nil, accepted_append, ← List.append_assoc, hsum, List.append_assoc]
    · rw [g1, List.length_append]
      dsimp only
      rw [h3, hoff]
    · exact fun hx => absurd hnil2 hx
    · intro hnone
      have hfd1 : filePending o1 = false := by
        obtain ⟨_, _, _, _, hfr⟩ := hstep.frame
        simp [filePending, hfr, hnone]
      rw [hfd hnone, g2 hfd1]
      rfl
    · rw [hin]
      refine ⟨fun hx => (g3 hx).1, fun hx => ?_⟩
      by_contra hno
      rw [g4 hd hno] at hx
      cases hx

/-- Something is left to send. -/
def Short (o : Output) : Prop := memOwed o ≠ [] ∨ filePending o = true

theorem memOwed_of_pending {o : Output} (h : SendOk o) (hp : memPending o = true) :
    memOwed o ≠ [] := by
  intro hnil
  obtain ⟨h1, h2⟩ := List.append_eq_nil_iff.mp hnil
  cases Bool.or_eq_true_iff.mp hp with
  | inl hlt =>
    have hlt : o.outHeaderSent < o.outHeaderLen := of_decide_eq_true hlt
    have hlen := congrArg List.length h1
    rw [Mem.length_slice, List.length_nil] at hlen
    omega
  | inr hb =>
    obtain ⟨hsome, hlt⟩ := Bool.and_eq_true_iff.mp hb
    have hlt : o.outBodySent < o.outBodyLen := of_decide_eq_true hlt
    obtain ⟨b, hb⟩ := Option.isSome_iff_exists.mp hsome
    have hfull := (h.body b hb).1
    have hlen := congrArg List.length h2
    unfold bodyRest at hlen
    rw [hb] at hlen
    dsimp only at hlen
    rw [List.length_drop, List.length_take, List.length_nil] at hlen
    omega

/-- The first loop returns with something in memory unsent. -/
theorem trySendMem_short {o : Output} (h : SendOk o) {answers : List (Ans Nat)} {rc : SendRc}
    (hrc : (trySendMem o answers).2.2 = some rc) : memOwed (trySendMem o answers).1 ≠ [] := by
  fun_induction trySendMem o answers with
  | case1 o =>
    dsimp only at hrc
    split at hrc
    · next hp => exact memOwed_of_pending h hp
    · cases hrc
  | case3 o answers hp n bs hbs o' calls rc' heq ih =>
    rw [heq] at ih
    exact ih (chargeOut_ok h _).1 hrc
  | case4 o answers hp ih => exact ih h hrc
  | case2 o answers hp | case5 o answers hp | case6 o answers hp => exact memOwed_of_pending h hp
  | case7 o a answers hp => cases hrc

/-- The second loop returns `0`, or with a part of the file unsent. -/
theorem trySendFile_short {o : Output} {answers : List (Ans Bytes)}
    (hrc : (trySendFile o answers).2.2 ≠ .done) : filePending (trySendFile o answers).1 = true := by
  fun_induction trySendFile o answers with
  | case1 o =>
    dsimp only at hrc
    split at hrc
    · next hp => exact hp
    · exact absurd rfl hrc
  | case2 => exact absurd rfl hrc
  | case3 o answers hp bs d hd o' calls rc heq ih =>
    rw [heq] at ih
    exact ih hrc
  | case4 o answers hp ih => exact ih hrc
  | case5 o answers hp | case6 o answers hp => exact hp
  | case7 => exact absurd rfl hrc

/-- A `try_send` that does not report the end has left something. -/
theorem trySend_short {o : Output} (h : SendOk o) {e : SendEnv} (hrc : (trySend e o).2.2 ≠ .done) :
    Short (trySend e o).1 := by
  have hmem := fun rc => @trySendMem_short _ h e.writes rc
  unfold trySend at hrc ⊢
  split
  · next o₁ calls rc heq =>
    rw [heq] at hmem
    exact .inl (hmem rc rfl)
  · next o₁ calls heq =>
    rw [heq] at hrc
    exact .inr (trySendFile_short hrc)

theorem sendRun_spec {o0 o : Output} {acc : Bytes} (h : Sending o0 o acc) (es : List SendEnv) :
    Sending o0 (sendRun o es).1 (acc ++ accepted (sendRun o es).2.1) ∧
      ((sendRun o es).2.2 = .done → memOwed (sendRun o es).1 = [] ∧
        (Call.sendfile [] ∈ (sendRun o es).2.1 ↔ filePending (sendRun o es).1 = true)) := by
  induction es generalizing o acc with
  | nil =>
    unfold sendRun
    exact ⟨by rw [accepted_nil, List.append_nil]; exact h, fun hx => by cases hx⟩
  | cons e es ih =>
    obtain ⟨h1, h2, h3⟩ := trySend_spec h e
    unfold sendRun
    generalize trySend e o = res at h1 h2 h3
    obtain ⟨o1, calls, rc⟩ := res
    dsimp only at h1 h2 h3
    cases rc with
    | again =>
      have hw : Sending o0 { o1 with writing := true } (acc ++ accepted calls) :=
        ⟨⟨h1.ok.header, h1.ok.body⟩, h1.frame.trans ⟨_, _, _, _, rfl⟩, h1.bound, h1.parts⟩
      obtain ⟨g1, g2⟩ := ih hw
      dsimp only
      refine ⟨?_, fun hd => ⟨(g2 hd).1, ?_⟩⟩
      · rw [accepted_append, ← List.append_assoc]
        exact g1
      · rw [List.mem_append, ← (g2 hd).2]
        exact ⟨fun hx => hx.resolve_left (fun hc => by cases h2 hc), Or.inr⟩
    | done => exact ⟨h1, h3⟩
    | fail => exact ⟨h1, h3⟩
    | inCall => exact ⟨h1, h3⟩

/-- A prepared response before its first `try_send`. -/
theorem sending_prepared {o : Output} (h : Prepared o) :
    Sending o o [] ∧ memOwed o = headerText o ++ bodyRest o := by
  obtain ⟨h1, h2, h3, h4⟩ := h.fresh
  have hok : SendOk o := by
    refine ⟨by rw [h1]; exact Nat.zero_le _, fun b hb => ⟨h4 b hb, ?_⟩⟩
    rw [h2]
    exact Nat.zero_le _
  refine ⟨⟨hok, SendFrame.refl o, by rw [h3]; exact Nat.zero_le _, [], ?_, h3, fun _ => rfl,
    fun _ => rfl⟩, ?_⟩
  · rw [List.nil_append, List.append_nil]
  · rw [memOwed, h1]
    rfl

/-! ### The file behind the answers -/

/-- The second loop sends the file from the offset on. -/
theorem trySendFile_front (file : Bytes) {o : Output} {off size : Nat} (hoff : o.outFileOffset = off)
    (hsize : o.outFileSize = size) (answers : List (Ans Nat)) :
    accepted (trySendFile o (fileAnswers file size off answers)).2.1 <+:
      (file.take size).drop off := by
  induction answers generalizing o off with
  | nil => exact List.nil_prefix
  | cons a answers ih =>
    cases a with
    | ok n =>
      show accepted (trySendFile o (.ok (((file.take size).drop off).take n) ::
        fileAnswers file size (off + (((file.take size).drop off).take n).length) answers)).2.1 <+: _
      have hroom : ((file.take size).drop off).length ≤ size - off := by
        rw [List.length_drop, List.length_take]
        exact Nat.sub_le_sub_right (Nat.min_le_left _ _) _
      generalize hd : ((file.take size).drop off).take n = d
      have htake : d.take (o.outFileSize - o.outFileOffset) = d := by
        rw [← hd, hoff, hsize]
        refine List.take_of_length_le ?_
        rw [List.length_take]
        exact (Nat.min_le_right _ _).trans hroom
      have hpre : d <+: (file.take size).drop off := hd ▸ List.take_prefix _ _
      unfold trySendFile
      split
      · dsimp only
        rw [htake]
        split
        · next hnil =>
          rw [hnil]
          exact List.nil_prefix
        · have hrest := @ih { o with outFileOffset := o.outFileOffset + d.length } (off + d.length)
            (by rw [hoff]) hsize
          obtain ⟨t, ht⟩ := hpre
          have hdrop : (file.take size).drop (off + d.length) = t := by
            rw [← List.drop_drop, ← ht, List.drop_left]
          rw [hdrop] at hrest
          rw [← ht]
          exact List.prefix_append_right_inj d |>.mpr hrest
      · exact List.nil_prefix
    | eintr =>
      show accepted (trySendFile o (.eintr :: fileAnswers file size off answers)).2.1 <+: _
      unfold trySendFile
      split
      · exact ih hoff hsize
      · exact List.nil_prefix
    | eagain =>
      show accepted (trySendFile o (.eagain :: fileAnswers file size off answers)).2.1 <+: _
      unfold trySendFile
      split
      · exact List.nil_prefix
      · exact List.nil_prefix
    | error =>
      show accepted (trySendFile o (.error :: fileAnswers file size off answers)).2.1 <+: _
      unfold trySendFile
      split
      · exact List.nil_prefix
      · exact List.nil_prefix

theorem chargeOut_noBody {o : Output} (h : o.outBody = none) (n : Nat) :
    (chargeOut o n).outBodySent = o.outBodySent ∧ (chargeOut o n).outBody = none := by
  have hno : ∀ hs, ¬ bodyPending { o with outHeaderSent := hs } = true := by
    intro hs
    simp [bodyPending, h]
  unfold chargeOut
  dsimp only
  rw [if_neg fun hx => hno _ hx.2]
  exact ⟨rfl, h⟩

theorem trySendMem_noBody {o : Output} (h : o.outBody = none) (answers : List (Ans Nat)) :
    (trySendMem o answers).1.outBodySent = o.outBodySent := by
  fun_induction trySendMem o answers with
  | case3 o answers hp n bs hbs o' calls rc heq ih =>
    obtain ⟨hsent, hbody⟩ := chargeOut_noBody h bs.length
    rw [heq] at ih
    exact (ih hbody).trans hsent
  | case4 o answers hp ih => exact ih h
  | _ => rfl

theorem trySend_noBody {o : Output} (h : o.outBody = none) (e : SendEnv) :
    (trySend e o).1.outBodySent = o.outBodySent := by
  have hmem := trySendMem_noBody h e.writes
  unfold trySend
  split
  · next heq =>
    rw [heq] at hmem
    exact hmem
  · next o₁ calls heq =>
    rw [heq] at hmem
    dsimp only
    rw [(trySendFile_spec o₁ e.files).1]
    exact hmem

/-- A response with the file `file` of which the bytes `acc` were accepted. -/
structure SendingFile (file : Bytes) (o0 o : Output) (acc : Bytes) : Prop where
  sending : Sending o0 o acc
  front : acc <+: memOwed o0 ++ file.take o0.outFileSize
  noBody : o0.outBody = none → o.outBodySent = o0.outBodySent

theorem trySend_file {file : Bytes} {o0 o : Output} {acc : Bytes} (h : SendingFile file o0 o acc)
    (e : SendCounts) :
    SendingFile file o0 (trySend (e.env file o) o).1
      (acc ++ accepted (trySend (e.env file o) o).2.1) := by
  obtain ⟨hnext, -, -⟩ := trySend_spec h.sending (e.env file o)
  obtain ⟨_, _, _, _, hframe⟩ := h.sending.frame
  refine ⟨hnext, ?_, fun hnone => ?_⟩
  · obtain ⟨f, hacc, hoff, hmem, -⟩ := h.sending.parts
    obtain ⟨-, -, h3, h4, h5, -, -⟩ := trySendMem_spec h.sending.ok e.writes
    obtain ⟨-, hfr, -⟩ := trySendMem_spec h.sending.ok e.writes
    unfold trySend SendCounts.env
    dsimp only
    generalize trySendMem o e.writes = res at h3 h4 h5 hfr
    obtain ⟨o1, calls, rc⟩ := res
    dsimp only at h3 h4 h5 hfr
    have hsum : acc ++ accepted calls ++ memOwed o1 = memOwed o0 ++ f := by
      rw [List.append_assoc, h4, hacc]
    -- The part of the file that is out is the front of the file.
    have hf : f <+: file.take o0.outFileSize := by
      cases f with
      | nil => exact List.nil_prefix
      | cons x f =>
        have hnil : memOwed o = [] := by
          by_contra hne
          cases hmem hne
        rw [hnil, List.append_nil] at hacc
        have hfront := h.front
        rw [hacc] at hfront
        exact (List.prefix_append_right_inj _).mp hfront
    have hfront : acc ++ accepted calls <+: memOwed o0 ++ file.take o0.outFileSize :=
      (List.prefix_append _ (memOwed o1)).trans (hsum ▸ (List.prefix_append_right_inj _).mpr hf)
    cases rc with
    | some rc => exact hfront
    | none =>
      have hsize : o.outFileSize = o0.outFileSize := by rw [hframe]
      have hsize1 : o1.outFileSize = o.outFileSize := by
        obtain ⟨_, _, _, _, rfl⟩ := hfr
        rfl
      have hmore := trySendFile_front file h3 hsize1 e.files
      rw [h5 rfl, List.append_nil] at hsum
      dsimp only
      generalize trySendFile o1 (fileAnswers file o.outFileSize o.outFileOffset e.files) = res at hmore
      obtain ⟨o2, more, rc⟩ := res
      dsimp only at hmore ⊢
      obtain ⟨t, ht⟩ := hf
      have hdrop : (file.take o.outFileSize).drop o.outFileOffset = t := by
        rw [hsize, ← ht, hoff, List.drop_left]
      rw [hdrop] at hmore
      rw [accepted_append, ← List.append_assoc, hsum, List.append_assoc, ← ht]
      exact (List.prefix_append_right_inj _).mpr ((List.prefix_append_right_inj _).mpr hmore)
  · have hbody : o.outBody = none := by
      rw [hframe]
      exact hnone
    exact (trySend_noBody hbody _).trans (h.noBody hnone)

theorem sendRunOf_file {file : Bytes} {o0 o : Output} {acc : Bytes} (h : SendingFile file o0 o acc)
    (es : List SendCounts) :
    SendingFile file o0 (sendRunOf file o es).1 (acc ++ accepted (sendRunOf file o es).2.1) := by
  induction es generalizing o acc with
  | nil =>
    unfold sendRunOf
    rw [accepted_nil, List.append_nil]
    exact h
  | cons e es ih =>
    have hstep := trySend_file h e
    unfold sendRunOf
    generalize trySend (e.env file o) o = res at hstep
    obtain ⟨o1, calls, rc⟩ := res
    dsimp only at hstep
    cases rc with
    | again =>
      have hs := hstep.sending
      have hw : SendingFile file o0 { o1 with writing := true } (acc ++ accepted calls) :=
        ⟨⟨⟨hs.ok.header, hs.ok.body⟩, hs.frame.trans ⟨_, _, _, _, rfl⟩, hs.bound, hs.parts⟩,
          hstep.front, hstep.noBody⟩
      have hrest := ih hw
      dsimp only
      rw [accepted_append, ← List.append_assoc]
      exact hrest
    | done => exact hstep
    | fail => exact hstep
    | inCall => exact hstep

theorem bodyRest_unsent {o : Output} (h : Unsent o) : bodyRest o = bodyText o := by
  unfold bodyRest bodyText
  rw [h.body]
  cases o.outBody with
  | none => rfl
  | some b => rfl

theorem sendingFile_unsent {o : Output} (h : Unsent o) (file : Bytes) :
    SendingFile file o o [] ∧ memOwed o = headerText o ++ bodyText o := by
  have hok : SendOk o := by
    refine ⟨by rw [h.header]; exact Nat.zero_le _, fun b hb => ⟨h.block b hb, ?_⟩⟩
    rw [h.body]
    exact Nat.zero_le _
  refine ⟨⟨⟨hok, SendFrame.refl o, by rw [h.file]; exact Nat.zero_le _, [], ?_, h.file, fun _ => rfl,
    fun _ => rfl⟩, List.nil_prefix, fun _ => rfl⟩, ?_⟩
  · rw [List.nil_append, List.append_nil]
  · rw [memOwed, h.header, bodyRest_unsent h]
    rfl

/-- The counters say how much is left in memory. -/
theorem length_memOwed {o : Output} (h : SendOk o) (hno : o.outBody = none → o.outBodySent = 0) :
    (memOwed o).length + o.outHeaderSent + o.outBodySent = o.outHeaderLen + (bodyText o).length := by
  have hheader := h.header
  unfold memOwed bodyRest bodyText
  rw [List.length_append, Mem.length_slice]
  cases hb : o.outBody with
  | none =>
    rw [hno hb]
    show o.outHeaderLen - o.outHeaderSent + 0 + o.outHeaderSent + 0 = o.outHeaderLen + 0
    omega
  | some b =>
    obtain ⟨hlen, hle⟩ := h.body b hb
    dsimp only
    rw [List.length_drop, List.length_take, hlen, Nat.min_self]
    omega

end SendCompleteLemmas

open SendCompleteLemmas

/-- A response that is reported complete has been accepted with its whole header and with
as many payload bytes as the header announces, unless `sendfile` returned `0`. -/
theorem try_send_complete_iff {o : Output} (h : Prepared o) (es : List SendEnv)
    (hdone : (sendRun o es).2.2 = .done) :
    (∃ payload, accepted (sendRun o es).2.1 = headerText o ++ payload ∧
        payload.length = announced (headerText o)) ↔
      Call.sendfile [] ∉ (sendRun o es).2.1 := by
  obtain ⟨hsend, hmem⟩ := sending_prepared h
  obtain ⟨hs, hd⟩ := sendRun_spec hsend es
  obtain ⟨hnil, hzero⟩ := hd hdone
  obtain ⟨file, hparts, hoff, -, hfd⟩ := hs.parts
  rw [hnil, List.append_nil, List.nil_append, hmem, List.append_assoc] at hparts
  obtain ⟨_, _, _, _, hframe⟩ := hs.frame
  have hfd' : (sendRun o es).1.outFileFd = o.outFileFd := by rw [hframe]
  have hsize : (sendRun o es).1.outFileSize = o.outFileSize := by rw [hframe]
  have hbound := hs.bound
  rw [hoff, hsize] at hbound
  have hlen : (bodyRest o ++ file).length = announced (headerText o) ↔
      filePending (sendRun o es).1 = false := by
    rw [h.read.1, payloadSize, List.length_append, filePending, hfd', hsize, hoff]
    cases hcase : o.outFileFd with
    | none =>
      rw [hfd hcase]
      simp
    | some fd =>
      simp
      omega
  rw [hzero, Bool.not_eq_true, ← hlen, hparts]
  refine ⟨?_, fun hx => ⟨_, rfl, hx⟩⟩
  rintro ⟨payload, heq, hx⟩
  rwa [List.append_cancel_left heq]

/-- A static response of five bytes, as `prepare_static` leaves it. -/
def helloOutput : Output :=
  (prepareStatic (fun _ => ascii "Thu, 01 Jan 1970 00:00:00 GMT") (some 9)
    (ascii "./html/hello.txt") 5 { keepAlive := true, mtime := 0, modified := true, status := 200 }
    5000 Request.zero.out).1

theorem helloOutput_prepared : Prepared helloOutput :=
  .static _ _ _ _ _ _ _ (by decide) (by decide) rfl

theorem try_send_complete_iff_hello :
    (sendRun helloOutput [⟨[.ok 100, .eagain], []⟩, ⟨[.eintr, .ok 8192], [.ok (ascii "hello")]⟩]).2.2 =
        .done ∧
      ((∃ payload, accepted (sendRun helloOutput
            [⟨[.ok 100, .eagain], []⟩, ⟨[.eintr, .ok 8192], [.ok (ascii "hello")]⟩]).2.1 =
          headerText helloOutput ++ payload ∧
          payload.length = announced (headerText helloOutput)) ↔
        Call.sendfile [] ∉ (sendRun helloOutput
          [⟨[.ok 100, .eagain], []⟩, ⟨[.eintr, .ok 8192], [.ok (ascii "hello")]⟩]).2.1) :=
  ⟨by decide +kernel, try_send_complete_iff helloOutput_prepared _ (by decide +kernel)⟩

/-- The file has shrunk to two bytes: the response is reported complete, and the client
waits for three more. -/
theorem try_send_reports_short :
    Prepared helloOutput ∧
      (sendRun helloOutput [⟨[.ok 8192], [.ok (ascii "he"), .ok []]⟩]).2.2 = .done ∧
      ¬ ∃ payload, accepted (sendRun helloOutput [⟨[.ok 8192], [.ok (ascii "he"), .ok []]⟩]).2.1 =
          headerText helloOutput ++ payload ∧
        payload.length = announced (headerText helloOutput) := by
  refine ⟨helloOutput_prepared, by decide +kernel, ?_⟩
  have hann : announced (headerText helloOutput) = 5 := by decide +kernel
  have hacc : accepted (sendRun helloOutput [⟨[.ok 8192], [.ok (ascii "he"), .ok []]⟩]).2.1 =
      headerText helloOutput ++ ascii "he" := by decide +kernel
  rintro ⟨payload, heq, hlen⟩
  rw [hacc] at heq
  rw [← List.append_cancel_left heq, hann] at hlen
  exact absurd hlen (by decide)

/-! ## Resumed sends -/

/-- Whatever the counts are and wherever the calls break off, what the socket has accepted is the
front of the header, the body and the file, as long as the counters say, and no counter is
beyond its end. -/
theorem resumed_send_exact {o : Output} (h : Unsent o) (file : Bytes) (es : List SendCounts) :
    accepted (sendRunOf file o es).2.1 <+:
        headerText o ++ bodyText o ++ file.take o.outFileSize ∧
      (accepted (sendRunOf file o es).2.1).length =
        (sendRunOf file o es).1.outHeaderSent + (sendRunOf file o es).1.outBodySent +
          (sendRunOf file o es).1.outFileOffset ∧
      (sendRunOf file o es).1.outHeaderSent ≤ o.outHeaderLen ∧
      (sendRunOf file o es).1.outBodySent ≤ (bodyText o).length ∧
      (sendRunOf file o es).1.outFileOffset ≤ o.outFileSize := by
  obtain ⟨hstart, hmem⟩ := sendingFile_unsent h file
  have hrun := sendRunOf_file hstart es
  rw [List.nil_append] at hrun
  generalize sendRunOf file o es = res at hrun
  obtain ⟨o', calls, rc⟩ := res
  dsimp only at hrun ⊢
  have hs := hrun.sending
  obtain ⟨f, hparts, hoff, -, -⟩ := hs.parts
  have hno : o'.outBody = none → o'.outBodySent = 0 := by
    intro hnone
    obtain ⟨_, _, _, _, hframe⟩ := hs.frame
    have hbody : o'.outBody = o.outBody := by rw [hframe]
    rw [hrun.noBody (hbody ▸ hnone), h.body]
  have howed := length_memOwed hs.ok hno
  have howed0 := length_memOwed hstart.sending.ok fun _ => h.body
  have hlen := congrArg List.length hparts
  rw [List.length_append, List.length_append, ← hoff] at hlen
  rw [h.header, h.body] at howed0
  have hheader := hs.ok.header
  have hbody : o'.outBodySent ≤ (bodyText o').length := by
    unfold bodyText
    cases hb : o'.outBody with
    | none => exact (hno hb).le
    | some b =>
      obtain ⟨hl, hle⟩ := hs.ok.body b hb
      dsimp only
      rw [List.length_take, hl, Nat.min_self]
      exact hle
  have hbound := hs.bound
  have hfront := hrun.front
  rw [hmem] at hfront
  obtain ⟨_, _, _, _, hframe⟩ := hs.frame
  have hsame : bodyText o' = bodyText o := by rw [hframe]; rfl
  have hhl : o'.outHeaderLen = o.outHeaderLen := by rw [hframe]
  have hfs : o'.outFileSize = o.outFileSize := by rw [hframe]
  rw [hsame] at hbody howed
  rw [hhl] at hheader howed
  rw [hfs] at hbound
  exact ⟨hfront, by omega, hheader, hbody, hbound⟩

theorem resumed_send_exact_hello :
    accepted (sendRunOf (ascii "hello") helloOutput
        [⟨[.ok 100, .eagain], []⟩, ⟨[.eintr, .ok 8192], [.ok 2, .eintr]⟩]).2.1 <+:
        headerText helloOutput ++ bodyText helloOutput ++ (ascii "hello").take 5 ∧
      (sendRunOf (ascii "hello") helloOutput
        [⟨[.ok 100, .eagain], []⟩, ⟨[.eintr, .ok 8192], [.ok 2, .eintr]⟩]).1.outFileOffset = 2 := by
  have h : Unsent helloOutput := ⟨rfl, rfl, rfl, fun _ hb => by cases hb⟩
  exact ⟨(resumed_send_exact h (ascii "hello") _).1, by decide +kernel⟩

end Zaver
