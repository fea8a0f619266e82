import Zaver.Persistence

/-!
# What a callback asks of the worker

A callback moves bytes, and besides it deals with what it shares with the other connections:
the timers, the request pool and the descriptors of the process. Whatever path it takes, it
first drops the timer of the connection and works with descriptors of its own (`Works`); its
last act is to arm the timer again or to close the connection (`Ended`). `callback_ends` says
so for each of the callbacks, and `connStep_marks` and `connStep_ledger` are what the worker
reads off: one timer goes and one comes or the block is given back, and the descriptors that
were opened and not closed are those in the fields of the block.
-/

namespace Zaver

open SendCompleteLemmas AnswerLemmas ConnectionLemmas PersistenceLemmas CgiRelayLemmas
open CgiReaderLemmas ChunkWriterLemmas

/-! ## Shared things in a record -/

/-- A call of the timer module or of the request pool. -/
def Call.isMark : Call → Bool
  | .delTimer => true
  | .addTimer _ => true
  | .putDeferred => true
  | _ => false

/-- The calls of the timer module and of the request pool. -/
def marksOf (tr : List Call) : List Call := tr.filter Call.isMark

/-- The open descriptors after some calls, none when one is closed that is not open. -/
def ledger : Multiset Fd → List Call → Option (Multiset Fd)
  | fds, [] => some fds
  | fds, .close fd :: tr => if fd ∈ fds then ledger (fds.erase fd) tr else none
  | fds, .openFile _ fd :: tr => ledger (fd ::ₘ fds) tr
  | fds, .pipe rd wr :: tr => ledger (rd ::ₘ wr ::ₘ fds) tr
  | fds, _ :: tr => ledger fds tr

/-- The descriptors in the fields of a block. -/
def held (r : Request) : Multiset Fd :=
  (r.fd.toList : Multiset Fd) + r.out.outFileFd.toList + r.cgi.outFd.toList

/-- The descriptors of a connection: a closed one has none. -/
def Conn.held (c : Conn) : Multiset Fd := if c.isOpen then Zaver.held c.r else 0

/-! ## The shape of a callback -/

/-- A call of `do_write` or of a CGI callback before its last act. -/
def Call.isRelay : Call → Bool
  | .writev _ => true
  | .sendfile _ => true
  | .pipeRead _ => true
  | .load _ => true
  | .close _ => true
  | .rearm _ => true
  | .watchPipe => true
  | .waitpid _ _ => true
  | _ => false

/-- No descriptor is left of a script that does not run. -/
def NoStray (c : CgiState) : Prop := c.active = false → c.outFd = none

/-- No event of the connection waits for its callback. -/
def Unfired (c : Conn) : Prop := ∀ ev, c.sock ≠ .fired ev ∧ c.pipe ≠ .fired ev

/-- What is done between the first and the last act of a callback: the calls are `P`, and they
account for the descriptors. -/
structure Works (P : Call → Bool) (c c₁ : Conn) : Prop where
  isOpen : c₁.isOpen = c.isOpen
  stray : NoStray c.r.cgi → NoStray c₁.r.cgi
  unfired : Unfired c → Unfired c₁
  calls : ∃ calls, c₁.tr = c.tr ++ calls ∧ (∀ x ∈ calls, P x = true) ∧
    ledger (held c.r) calls = some (held c₁.r)

/-- The last act of a callback. -/
inductive Ended (c : Conn) : Conn → Prop
  | rests (ms : Nat) : Ended c (c.addTimer ms)
  | closes (reaped : Bool) : Ended c (zvHttpCloseConn reaped c)

namespace CallbacksLemmas

/-! ### The ledger -/

theorem ledger_append (fds : Multiset Fd) (t u : List Call) :
    ledger fds (t ++ u) = (ledger fds t).bind fun fds => ledger fds u := by
  induction t generalizing fds with
  | nil => rfl
  | cons x t ih =>
    cases x with
    | close fd =>
      rw [List.cons_append, ledger, ledger]
      split
      · exact ih _
      · rfl
    | openFile file fd => exact ih _
    | pipe rd wr => exact ih _
    | _ => exact ih _

/-- Descriptors of others do not matter. -/
theorem ledger_frame {fds fds' : Multiset Fd} {tr : List Call} (h : ledger fds tr = some fds')
    (others : Multiset Fd) : ledger (fds + others) tr = some (fds' + others) := by
  induction tr generalizing fds with
  | nil =>
    obtain rfl := Option.some.inj h
    rfl
  | cons x tr ih =>
    cases x with
    | close fd =>
      rw [ledger] at h ⊢
      split at h
      · next hmem =>
        rw [if_pos (Multiset.mem_add.mpr (.inl hmem)), Multiset.erase_add_left_pos others hmem]
        exact ih h
      · cases h
    | openFile file fd =>
      rw [ledger] at h ⊢
      rw [← Multiset.cons_add]
      exact ih h
    | pipe rd wr =>
      rw [ledger] at h ⊢
      rw [← Multiset.cons_add, ← Multiset.cons_add]
      exact ih h
    | _ => exact ih h

/-- A call that opens and closes nothing. -/
def keepsFds : Call → Bool
  | .close _ => false
  | .openFile _ _ => false
  | .pipe _ _ => false
  | _ => true

theorem ledger_keeps {calls : List Call} (h : ∀ x ∈ calls, keepsFds x = true) (fds : Multiset Fd) :
    ledger fds calls = some fds := by
  induction calls with
  | nil => rfl
  | cons x calls ih =>
    have hx := h x List.mem_cons_self
    have hrest := ih fun y hy => h y (List.mem_cons_of_mem _ hy)
    cases x with
    | close fd => cases hx
    | openFile file fd => cases hx
    | pipe rd wr => cases hx
    | _ => exact hrest

/-- A descriptor that is held is closed. -/
theorem ledger_closeFd (fd : Option Fd) (fds : Multiset Fd) :
    ledger (fd.toList + fds) (closeFd fd) = some fds := by
  cases fd with
  | none => exact congrArg some (Multiset.zero_add fds)
  | some fd =>
    have hmem : fd ∈ (([fd] : List Fd) : Multiset Fd) + fds :=
      Multiset.mem_add.mpr (.inl (Multiset.mem_coe.mpr List.mem_cons_self))
    show ledger ((([fd] : List Fd) : Multiset Fd) + fds) [.close fd] = some fds
    rw [ledger, if_pos hmem, Multiset.coe_singleton, Multiset.singleton_add,
      Multiset.erase_cons_head]
    rfl

/-! ### Pieces -/

variable {P Q : Call → Bool}

theorem works_refl (P : Call → Bool) (c : Conn) : Works P c c :=
  ⟨rfl, id, id, [], (List.append_nil _).symm, (fun _ hx => absurd hx List.not_mem_nil), rfl⟩

theorem works_trans {c c₁ c₂ : Conn} (h : Works P c c₁) (h' : Works P c₁ c₂) : Works P c c₂ := by
  obtain ⟨calls, htr, hP, hled⟩ := h.calls
  obtain ⟨calls', htr', hP', hled'⟩ := h'.calls
  refine ⟨h'.isOpen.trans h.isOpen, fun hs => h'.stray (h.stray hs),
    fun hu => h'.unfired (h.unfired hu), calls ++ calls', ?_, ?_, ?_⟩
  · rw [htr', htr, List.append_assoc]
  · intro x hx
    cases List.mem_append.mp hx with
    | inl hx => exact hP x hx
    | inr hx => exact hP' x hx
  · rw [ledger_append, hled]
    exact hled'

theorem works_mono {c c₁ : Conn} (h : Works P c c₁) (hPQ : ∀ x, P x = true → Q x = true) :
    Works Q c c₁ := by
  obtain ⟨calls, htr, hP, hled⟩ := h.calls
  exact ⟨h.isOpen, h.stray, h.unfired, calls, htr, fun x hx => hPQ x (hP x hx), hled⟩

/-- Calls that open and close nothing, on a block that keeps its descriptors. -/
theorem works_of_calls {c c₁ : Conn} (calls : List Call) (hopen : c₁.isOpen = c.isOpen)
    (hstray : NoStray c.r.cgi → NoStray c₁.r.cgi) (hunf : Unfired c → Unfired c₁)
    (hheld : held c₁.r = held c.r) (htr : c₁.tr = c.tr ++ calls) (hP : ∀ x ∈ calls, P x = true)
    (hfds : ∀ x ∈ calls, keepsFds x = true) : Works P c c₁ := by
  refine ⟨hopen, hstray, hunf, calls, htr, hP, ?_⟩
  rw [hheld]
  exact ledger_keeps hfds _

theorem relay_not_mark (x : Call) (h : x.isRelay = true) : (!x.isMark) = true := by
  cases x with
  | delTimer => cases h
  | addTimer ms => cases h
  | putDeferred => cases h
  | _ => rfl

theorem works_trySend (e : SendEnv) (c : Conn) : Works Call.isRelay c (c.trySend e).1 := by
  have hsends := trySend_sends e c.r.out
  refine works_of_calls (trySend e c.r.out).2.1 rfl id id ?_ rfl (fun x hx => ?_) fun x hx => ?_
  · obtain ⟨_, _, _, _, -, heq⟩ := trySend_frame (Prod.eta (c.trySend e)).symm
    rw [heq]
    rfl
  · have hsend := hsends x hx
    cases x with
    | writev bs => rfl
    | sendfile bs => rfl
    | _ => cases hsend
  · have hsend := hsends x hx
    cases x with
    | writev bs => rfl
    | sendfile bs => rfl
    | _ => cases hsend

theorem works_reset (c : Conn) : Works Call.isRelay c c.reset := by
  refine ⟨rfl, id, id, closeFd c.r.out.outFileFd, rfl, ?_, ?_⟩
  · cases c.r.out.outFileFd with
    | none => exact fun _ hx => absurd hx List.not_mem_nil
    | some fd => simp [closeFd, Call.isRelay]
  · have hheld : held c.r = c.r.out.outFileFd.toList + held c.reset.r := by
      unfold held
      show _ = _ + (_ + ((none : Option Fd).toList : Multiset Fd) + _)
      rw [Option.toList_none, Multiset.coe_nil, Multiset.add_zero,
        Multiset.add_comm (c.r.fd.toList : Multiset Fd), Multiset.add_assoc]
      rfl
    rw [hheld]
    exact ledger_closeFd _ _

theorem works_rearm (c : Conn) (ev : Interest) : Works Call.isRelay c (c.rearmEvent ev) := by
  refine works_of_calls [.rearm ev] rfl id (fun hu ev' => ?_) rfl rfl ?_ ?_
  · exact ⟨(fun hx => by cases hx), (hu ev').2⟩
  · simp [Call.isRelay]
  · simp [keepsFds]

theorem works_watchPipe (c : Conn) : Works Call.isRelay c c.watchPipe := by
  refine works_of_calls [.watchPipe] rfl id (fun hu ev => ?_) rfl rfl ?_ ?_
  · exact ⟨(hu ev).1, fun hx => by cases hx⟩
  · simp [Call.isRelay]
  · simp [keepsFds]

theorem works_setWriting (c : Conn) : Works P c c.setWriting :=
  works_of_calls [] rfl id id rfl (List.append_nil _).symm
    (fun _ hx => absurd hx List.not_mem_nil) fun _ hx => absurd hx List.not_mem_nil

theorem works_inp (c : Conn) (i : Input) : Works P c { c with r := { c.r with inp := i } } :=
  works_of_calls [] rfl id id rfl (List.append_nil _).symm
    (fun _ hx => absurd hx List.not_mem_nil) fun _ hx => absurd hx List.not_mem_nil

/-- The work up to the last act, and the last act. -/
def Returns (P : Call → Bool) (c c' : Conn) : Prop := ∃ c₁, Works P c c₁ ∧ Ended c₁ c'

theorem works_returns {c c₁ c' : Conn} (h : Works P c c₁) (hr : Returns P c₁ c') : Returns P c c' := by
  obtain ⟨c₂, hw, he⟩ := hr
  exact ⟨c₂, works_trans h hw, he⟩

theorem returns_waitOutput (c : Conn) : Returns Call.isRelay c c.waitOutput :=
  ⟨c.rearmEvent .epollout, works_rearm c _, .rests _⟩

theorem returns_closeConn (P : Call → Bool) (reaped : Bool) (c : Conn) :
    Returns P c (zvHttpCloseConn reaped c) := ⟨c, works_refl P c, .closes reaped⟩

theorem returns_closeLabel (reaped : Bool) (c : Conn) :
    Returns Call.isRelay c (c.closeLabel reaped) := ⟨c.reset, works_reset c, .closes reaped⟩

/-! ### `do_request` -/

/-- A call inside a callback. -/
def inner (x : Call) : Bool := !x.isMark

theorem works_inner {c c₁ : Conn} (h : Works Call.isRelay c c₁) : Works inner c c₁ :=
  works_mono h relay_not_mark

theorem Returns.inner {c c' : Conn} (h : Returns Call.isRelay c c') : Returns inner c c' := by
  obtain ⟨c₁, hw, he⟩ := h
  exact ⟨c₁, works_inner hw, he⟩

/-- What a pass does with the shared things. -/
structure PassWorks (c : Conn) (x : Conn × PassExit) : Prop where
  on : x.2 = .next ∨ x.2 = .idle → Works inner c x.1
  done : x.2 = .returned ∨ x.2 = .closed → Returns inner c x.1

theorem passWorks_on {c c₁ : Conn} (h : Works inner c c₁) {x : PassExit}
    (hx : x ≠ .returned ∧ x ≠ .closed) : PassWorks c (c₁, x) :=
  ⟨fun _ => h, fun hd => (hd.elim hx.1 hx.2).elim⟩

theorem passWorks_done {c c₁ : Conn} (h : Returns inner c c₁) {x : PassExit}
    (hx : x = .returned ∨ x = .closed) : PassWorks c (c₁, x) := by
  refine ⟨fun hon => ?_, fun _ => h⟩
  rcases hx with rfl | rfl
  · rcases hon with hon | hon <;> cases hon
  · rcases hon with hon | hon <;> cases hon

theorem passWorks_from {c c₁ : Conn} {x : Conn × PassExit} (hw : Works inner c c₁)
    (h : PassWorks c₁ x) : PassWorks c x :=
  ⟨fun hx => works_trans hw (h.on hx), fun hx => works_returns hw (h.done hx)⟩

theorem requestDone_works (e : PassEnv) (keepAlive : Bool) (c : Conn) :
    PassWorks c (requestDone e keepAlive c) := by
  unfold requestDone
  split
  · exact passWorks_done (returns_closeLabel e.reaped c).inner (.inr rfl)
  · refine passWorks_from (works_inp c c.r.inp.nextRequest) ?_
    dsimp only
    split
    · exact passWorks_done (returns_waitOutput _).inner (.inl rfl)
    · split
      · exact passWorks_done (returns_closeLabel e.reaped _).inner (.inr rfl)
      · exact passWorks_on (works_refl _ _) ⟨(fun hx => by cases hx), fun hx => by cases hx⟩

theorem deliver_works (e : PassEnv) (last keepAlive : Bool) (c : Conn) :
    PassWorks c (deliver e last keepAlive c) := by
  have hsend := works_inner (works_trySend e.send c)
  unfold deliver
  generalize c.trySend e.send = res at hsend
  obtain ⟨c₂, rc⟩ := res
  refine passWorks_from hsend ?_
  cases rc with
  | fail => exact passWorks_done (returns_closeLabel e.reaped c₂).inner (.inr rfl)
  | inCall => exact passWorks_on (works_refl _ _) ⟨(fun hx => by cases hx), fun hx => by cases hx⟩
  | again =>
    refine passWorks_from (works_setWriting c₂) ?_
    dsimp only
    split
    · exact passWorks_done (returns_waitOutput _).inner (.inl rfl)
    · exact requestDone_works e keepAlive _
  | done =>
    dsimp only
    split
    · exact passWorks_done (returns_closeLabel e.reaped c₂).inner (.inr rfl)
    · exact passWorks_from (works_inner (works_reset c₂)) (requestDone_works e keepAlive c₂.reset)

theorem ledger_close_cons (fd : Fd) (fds : Multiset Fd) (tr : List Call) :
    ledger (fd ::ₘ fds) (.close fd :: tr) = ledger fds tr := by
  rw [ledger, if_pos (Multiset.mem_cons_self fd fds), Multiset.erase_cons_head]

/-- Two pairs of descriptors, the second pair first. -/
theorem cons_pairs (a b c d : Fd) (fds : Multiset Fd) :
    c ::ₘ d ::ₘ a ::ₘ b ::ₘ fds = a ::ₘ b ::ₘ c ::ₘ d ::ₘ fds := by
  simp only [← Multiset.singleton_add]
  abel

/-- Every exit of a start that fails closes what it opened. -/
theorem ledger_lookup {look : List Call} (h : Lookup look) (fds : Multiset Fd) :
    ledger fds look = some fds := by
  cases h with
  | direct => rfl
  | stat file => rfl
  | start file calls hf =>
    show ledger fds calls = some fds
    cases hf with
    | noPipe => rfl
    | onePipe a b =>
      show ledger (a ::ₘ b ::ₘ fds) [.close a, .close b] = some fds
      rw [ledger_close_cons, ledger_close_cons]
      rfl
    | noFork a b c d =>
      show ledger (c ::ₘ d ::ₘ a ::ₘ b ::ₘ fds) [.close a, .close b, .close c, .close d] = some fds
      rw [cons_pairs, ledger_close_cons, ledger_close_cons, ledger_close_cons, ledger_close_cons]
      rfl
    | blocking a b c d pid file envp =>
      show ledger (c ::ₘ d ::ₘ a ::ₘ b ::ₘ fds)
        [.close a, .close d, .close b, .close c, .kill pid, .waitpid pid true] = some fds
      have hswap : b ::ₘ c ::ₘ d ::ₘ fds = d ::ₘ b ::ₘ c ::ₘ fds := by
        simp only [← Multiset.singleton_add]
        abel
      rw [cons_pairs, ledger_close_cons, hswap, ledger_close_cons, ledger_close_cons,
        ledger_close_cons]
      rfl

theorem lookup_inner {look : List Call} (h : Lookup look) : ∀ x ∈ look, inner x = true := by
  cases h with
  | direct => exact fun _ hx => absurd hx List.not_mem_nil
  | stat file => simp [inner, Call.isMark]
  | start file calls hf => cases hf <;> simp [inner, Call.isMark]

theorem prologue_works {c c₁ : Conn} {look : List Call} {file : Option (Bytes × Fd)}
    (h : Prologue c c₁ look file) (hclean : c.r.out.outFileFd = none) : Works inner c c₁ := by
  have htr : c₁.tr = c.tr ++ (.serve c.r.inp.served c.r.inp.method :: look ++
      (file.map fun f => Call.openFile f.1 f.2).toList) := by
    rw [h.frame]
    show c.tr ++ .serve _ _ :: look ++ closeFd c.r.out.outFileFd ++ _ = _
    rw [hclean]
    simp [closeFd]
  have hfd : c₁.r.fd = c.r.fd := by
    rw [h.frame]
  have hcgi : c₁.r.cgi = c.r.cgi := by
    rw [h.frame]
  have hregs : c₁.sock = c.sock ∧ c₁.pipe = c.pipe := by
    rw [h.frame]
    exact ⟨rfl, rfl⟩
  refine ⟨by rw [h.frame], by rw [hcgi]; exact id, fun hu ev => ?_, _, htr, ?_, ?_⟩
  · rw [hregs.1, hregs.2]
    exact hu ev
  · intro x hx
    cases List.mem_append.mp hx with
    | inl hx =>
      cases List.mem_cons.mp hx with
      | inl heq =>
        rw [heq]
        rfl
      | inr hx => exact lookup_inner h.lookup x hx
    | inr hx =>
      cases file with
      | none => exact absurd hx List.not_mem_nil
      | some f =>
        obtain rfl := List.mem_singleton.mp hx
        rfl
  · have hlook : ledger (held c.r) (.serve c.r.inp.served c.r.inp.method :: look) =
        some (held c.r) := ledger_lookup h.lookup _
    rw [ledger_append, hlook]
    unfold held
    rw [hclean, h.fileFd, hfd, hcgi]
    cases file with
    | none => rfl
    | some f =>
      show some (f.2 ::ₘ ((c.r.fd.toList : Multiset Fd) + 0 + c.r.cgi.outFd.toList)) =
        some ((c.r.fd.toList : Multiset Fd) + ([f.2] : List Fd) + c.r.cgi.outFd.toList)
      rw [Multiset.coe_singleton, Multiset.add_zero, ← Multiset.singleton_add]
      congr 1
      abel

theorem started_returns {c : Conn} {i : Input} {file : Bytes} {envp : List Bytes} {pid : Pid}
    {inR inW outR outW : Fd} (hstray : c.r.cgi.outFd = none) :
    Returns inner c (startedConn c i file envp pid inR inW outR outW) := by
  refine ⟨{ startedConn c i file envp pid inR inW outR outW with
    tr := c.tr ++ [.serve c.r.inp.served c.r.inp.method, .stat file, .pipe inR inW,
      .pipe outR outW, .fork pid file envp, .close inR, .close outW, .close inW, .watchPipe] },
    ⟨rfl, (fun _ hx => by cases hx), fun hu ev => ?_, _, rfl, ?_, ?_⟩, ?_⟩
  · exact ⟨(hu ev).1, fun hx => by cases hx⟩
  · simp [inner, Call.isMark]
  · show ledger (outR ::ₘ outW ::ₘ inR ::ₘ inW ::ₘ held c.r)
      [.close inR, .close outW, .close inW, .watchPipe] = some _
    have hswap : outR ::ₘ outW ::ₘ inR ::ₘ inW ::ₘ held c.r =
        inR ::ₘ outW ::ₘ inW ::ₘ outR ::ₘ held c.r := by
      simp only [← Multiset.singleton_add]
      abel
    rw [hswap, ledger_close_cons, ledger_close_cons, ledger_close_cons]
    show some (outR ::ₘ held c.r) = some _
    unfold held
    rw [hstray]
    show some (outR ::ₘ (_ + 0)) = some (_ + (([outR] : List Fd) : Multiset Fd))
    rw [Multiset.coe_singleton, Multiset.add_zero, ← Multiset.singleton_add, Multiset.add_comm]
    rfl
  · have hrest := Ended.rests (c := { startedConn c i file envp pid inR inW outR outW with
      tr := c.tr ++ [.serve c.r.inp.served c.r.inp.method, .stat file, .pipe inR inW,
        .pipe outR outW, .fork pid file envp, .close inR, .close outW, .close inW, .watchPipe] })
      c.r.requestTimeoutMs
    simpa [Conn.addTimer, Conn.emit, startedConn] using hrest

theorem answered_works {lib : Libc} {e : PassEnv} {c : Conn} {x : Conn × PassExit} (h : AtLoop c)
    (ha : Answered lib e c x) : PassWorks c x := by
  cases ha with
  | refused c₁ look hp =>
    have hw := prologue_works hp h.out.file
    exact passWorks_done (works_returns hw (returns_closeLabel e.reaped c₁).inner) (.inr rfl)
  | reply c₁ look file last hp hcomp hlast hlook =>
    exact passWorks_from (prologue_works hp h.out.file) (deliver_works e last _ c₁)
  | started i file envp pid inR inW outR outW hi hm hu =>
    obtain ⟨old, fd, cf, hcgi⟩ := h.cgi
    have hstray : c.r.cgi.outFd = none := by
      rw [hcgi]
      rfl
    exact passWorks_done (started_returns hstray) (.inl rfl)

theorem fed_works {c c₁ : Conn} (h : Fed c c₁) : Works inner c c₁ := by
  cases h with
  | left hlt => exact works_refl _ _
  | read bs hle hne hroom =>
    refine works_of_calls [.recv bs] rfl id id rfl rfl ?_ ?_
    · simp [inner, Call.isMark]
    · simp [keepsFds]

theorem requestPass_works {lib : Libc} {e : PassEnv} {c : Conn} (h : AtLoop c) :
    PassWorks c (requestPass lib e c) := by
  have hp := requestPass_cases lib e c
  generalize requestPass lib e c = x at hp ⊢
  cases hp with
  | idle hle => exact passWorks_on (works_refl _ _) ⟨(fun hx => by cases hx), fun hx => by cases hx⟩
  | dropped hle => exact passWorks_done (returns_closeLabel e.reaped c).inner (.inr rfl)
  | more c₁ i hf hpar =>
    exact passWorks_on (works_trans (fed_works hf) (works_inp c₁ i))
      ⟨(fun hx => by cases hx), fun hx => by cases hx⟩
  | refused c₁ hf hs =>
    exact passWorks_on (works_trans (fed_works hf) (works_inp c₁ _))
      ⟨(fun hx => by cases hx), fun hx => by cases hx⟩
  | bad c₁ i rc hf hpar hrc =>
    have hw := works_trans (fed_works hf) (works_inp c₁ i)
    exact passWorks_done (works_returns hw (returns_closeLabel e.reaped _).inner) (.inr rfl)
  | answered c₁ i _ hf hpar hx =>
    rw [hx]
    refine passWorks_from (works_trans (fed_works hf) (works_inp c₁ i)) ?_
    exact answered_works (parsed_loop (fed_loop h hf) hpar (.inr rfl)) (answer_cases lib e _)

theorem doRequest_returns {lib : Libc} {es : List PassEnv} {c c' : Conn} (h : AtLoop c.delTimer)
    (hd : doRequest lib es c = (c', true)) : Returns inner c.delTimer c' := by
  have hnext : ∀ e c₁ c₂, (AtLoop c₁ ∧ Works inner c.delTimer c₁) → ¬ Stuck c₂.r.inp →
      requestPass lib e c₁ = (c₂, .next) → AtLoop c₂ ∧ Works inner c.delTimer c₂ := by
    intro e c₁ c₂ h₁ _ heq
    have hok := requestPass_ok lib e h₁.1
    have hw := @requestPass_works lib e c₁ h₁.1
    rw [heq] at hok hw
    exact ⟨hok.next rfl, works_trans h₁.2 (hw.on (.inl rfl))⟩
  obtain ⟨c₁, e, c₂, x, h₁, hpass, hend⟩ := requestLoop_cases hnext ⟨h, works_refl _ _⟩ hd
  have hw := @requestPass_works lib e c₁ h₁.1
  rw [hpass] at hw
  rcases hend with ⟨rfl, ms, rfl⟩ | ⟨hx, rfl⟩
  · exact ⟨_, works_trans (works_trans h₁.2 (hw.on (.inr rfl))) (works_inner (works_rearm c₂ _)),
      .rests ms⟩
  · exact works_returns h₁.2 (hw.done hx)

/-! ### `do_write` and the CGI callbacks -/

theorem writeStatic_returns {e : WriteEnv} {c c' : Conn} (hw : writeStatic e c = (c', true)) :
    Returns Call.isRelay c c' := by
  have hsend := works_trySend e.send c
  unfold writeStatic at hw
  generalize c.trySend e.send = res at hsend hw
  obtain ⟨c₂, rc⟩ := res
  refine works_returns hsend ?_
  cases rc with
  | again =>
    obtain rfl := (Prod.mk.inj hw).1
    exact works_returns (works_setWriting c₂) (returns_waitOutput _)
  | fail =>
    obtain rfl := (Prod.mk.inj hw).1
    exact returns_closeLabel _ _
  | inCall => cases congrArg Prod.snd hw
  | done =>
    refine works_returns (works_reset c₂) ?_
    dsimp only at hw
    split at hw
    · obtain rfl := (Prod.mk.inj hw).1
      exact returns_closeConn _ _ _
    · obtain rfl := (Prod.mk.inj hw).1
      exact ⟨_, works_rearm _ _, .rests _⟩

theorem writeCgi_returns {e : WriteEnv} {c c' : Conn} (hs : Script c)
    (hw : writeCgi e c = (c', true)) : Returns Call.isRelay c c' := by
  have hspec := writerLoop_spec hs.relay.writer e.cgi
  obtain ⟨_, _, _, _, _, _, _, _, _, hfr⟩ := hspec.frame
  have honly := hspec.onlyWrites
  unfold writeCgi zvCgiOnClientWritable at hw
  rw [if_neg (by rw [hs.active]; exact fun hx => by cases hx)] at hw
  dsimp only at hw
  generalize writerLoop c.r.cgi e.cgi = res at hw hfr honly
  obtain ⟨cgi, calls, x⟩ := res
  dsimp only at hfr honly
  have hwork : Works Call.isRelay c { c.emit calls with r := { c.r with cgi := cgi } } := by
    refine works_of_calls calls rfl ?_ id ?_ rfl (fun x hx => ?_) fun x hx => ?_
    · rw [hfr]
      exact id
    · rw [hfr]
      rfl
    · obtain ⟨bs, rfl⟩ := honly x hx
      rfl
    · obtain ⟨bs, rfl⟩ := honly x hx
      rfl
  refine works_returns hwork ?_
  cases x with
  | finished =>
    have hreap : ∀ (c₁ : Conn) (reap : List Call), (∀ x ∈ reap, ∃ pid b, x = Call.waitpid pid b) →
        Works Call.isRelay c₁ (c₁.emit reap) := by
      intro c₁ reap hall
      refine works_of_calls reap rfl id id rfl rfl (fun x hx => ?_) fun x hx => ?_
      · obtain ⟨pid, b, rfl⟩ := hall x hx
        rfl
      · obtain ⟨pid, b, rfl⟩ := hall x hx
        rfl
    obtain rfl := (Prod.mk.inj hw).1
    refine works_returns (hreap _ _ fun x hx => ?_) (returns_closeConn _ _ _)
    cases hpid : cgi.pid with
    | none =>
      rw [hpid] at hx
      exact absurd hx List.not_mem_nil
    | some pid =>
      rw [hpid] at hx
      exact ⟨pid, e.reapedWrite, List.mem_singleton.mp hx⟩
  | error =>
    obtain rfl := (Prod.mk.inj hw).1
    exact returns_closeConn _ _ _
  | inCall => cases congrArg Prod.snd hw
  | wouldBlock =>
    obtain rfl := (Prod.mk.inj hw).1
    exact returns_waitOutput _
  | needMore =>
    obtain rfl := (Prod.mk.inj hw).1
    split
    · exact ⟨_, works_watchPipe _, .rests _⟩
    · exact ⟨_, works_refl _ _, .rests _⟩

/-- Reads of the pipe open and close nothing. -/
theorem ledger_others (fds : Multiset Fd) (calls : List Call) :
    ledger fds (others calls) = ledger fds calls := by
  unfold others
  induction calls generalizing fds with
  | nil => rfl
  | cons x calls ih =>
    cases x with
    | close fd =>
      show ledger fds (.close fd :: calls.filter _) = _
      rw [ledger, ledger]
      split
      · exact ih _
      · rfl
    | openFile file fd => exact ih _
    | pipe rd wr => exact ih _
    | _ => exact ih _

theorem reader_relay {calls : List Call} {fd : Option Fd} {b : Bool}
    (h : others calls = if b then closeFd fd else []) : ∀ x ∈ calls, x.isRelay = true := by
  intro x hx
  by_cases hp : x.isPipe = true
  · cases x with
    | pipeRead bs => rfl
    | load bs => rfl
    | _ => cases hp
  · have hmem : x ∈ others calls :=
      List.mem_filter.mpr ⟨hx, by rw [Bool.eq_false_of_not_eq_true hp]; rfl⟩
    rw [h] at hmem
    split at hmem
    · cases fd with
      | none => exact absurd hmem List.not_mem_nil
      | some fd =>
        obtain rfl := List.mem_singleton.mp hmem
        rfl
    · exact absurd hmem List.not_mem_nil

theorem stdoutReady_returns {answers : List (Ans Bytes)} {reaped : Bool} {c c' : Conn}
    (hs : Script c) (hfd : c.r.cgi.outFd ≠ none)
    (h : zvCgiOnStdoutReady answers reaped c = (c', true)) : Returns Call.isRelay c.delTimer c' := by
  have hspec := readerLoop_spec hs.relay hfd answers
  unfold zvCgiOnStdoutReady at h
  rw [if_neg (by rw [hs.active]; simp [hfd])] at h
  dsimp only at h
  have hcgi₀ : c.delTimer.r.cgi = c.r.cgi := rfl
  rw [hcgi₀] at h
  rcases hres : readerLoop c.r.cgi answers with ⟨cgi, calls, e⟩
  rw [hres] at hspec h
  dsimp only at h
  have hact : cgi.active = true := hspec.active.trans hs.active
  generalize hc₁ : (if cgi.outFd = none then _ else _ : Conn) = c₁ at h
  have hwork : Works Call.isRelay c.delTimer c₁ := by
    have hr₁ : c₁.r = { c.r with cgi := cgi } := by
      rw [← hc₁]
      split <;> rfl
    have htr₁ : c₁.tr = c.delTimer.tr ++ calls := by
      rw [← hc₁]
      split <;> rfl
    have hopen₁ : c₁.isOpen = c.isOpen := by
      rw [← hc₁]
      split <;> rfl
    refine ⟨hopen₁, fun _ hx => ?_, fun hu => ?_, calls, htr₁, reader_relay hspec.others, ?_⟩
    · rw [hr₁] at hx
      cases hact.symm.trans hx
    · rw [← hc₁]
      split
      · exact fun ev => ⟨(hu ev).1, fun hx => by cases hx⟩
      · exact hu
    · rw [← ledger_others, hspec.others, hr₁]
      show ledger (held c.r) _ = _
      unfold held
      rcases hspec.outFd with ⟨hsame, heof⟩ | ⟨hnone, heof, -⟩
      · dsimp only at hsame heof ⊢
        rw [heof, hsame]
        rfl
      · dsimp only at hnone heof ⊢
        rw [heof, hnone, if_pos rfl, Multiset.add_comm, ledger_closeFd]
        exact congrArg some (Multiset.add_zero _).symm
  refine works_returns hwork ?_
  cases e with
  | armClient =>
    obtain rfl := (Prod.mk.inj h).1
    exact ⟨_, works_rearm _ _, .rests _⟩
  | rearmPipe =>
    obtain rfl := (Prod.mk.inj h).1
    split
    · exact ⟨_, works_watchPipe _, .rests _⟩
    · exact ⟨_, works_refl _ _, .rests _⟩
  | closeConn =>
    obtain rfl := (Prod.mk.inj h).1
    exact returns_closeConn _ _ _
  | inCall => cases congrArg Prod.snd h

/-! ### Steps -/

/-- One event at most waits for its callback. -/
theorem unfired_socket {c : Conn} {ev : Interest} (h : Phase c) (hf : c.sock = .fired ev) :
    Unfired { c with sock := .off }.delTimer := by
  have hpipe : c.pipe = .off := by
    cases h with
    | reading _ _ hpipe | writing _ _ hpipe | cgiWriting _ _ hpipe | closed _ _ hpipe => exact hpipe
    | cgiReading _ hsock => cases hf.symm.trans hsock
  intro ev'
  refine ⟨(fun hx => by cases hx), fun hx => ?_⟩
  cases hpipe.symm.trans hx

theorem unfired_pipe {c : Conn} {ev : Interest} (h : Phase c) (hf : c.pipe = .fired ev) :
    Unfired { c with pipe := .off }.delTimer := by
  have hsock : c.sock = .off := by
    cases h with
    | reading _ _ hpipe | writing _ _ hpipe | cgiWriting _ _ hpipe | closed _ _ hpipe =>
      cases hf.symm.trans hpipe
    | cgiReading _ hsock => exact hsock
  intro ev'
  refine ⟨fun hx => ?_, fun hx => by cases hx⟩
  cases hsock.symm.trans hx

theorem phase_stray {c : Conn} (h : Phase c) : c.isOpen = true → NoStray c.r.cgi := by
  intro hopen hact
  cases h with
  | reading _ _ _ _ hcgi | writing _ _ _ _ hcgi =>
    obtain ⟨old, fd, cf, heq⟩ := hcgi
    rw [heq]
    rfl
  | cgiReading _ _ _ hs | cgiWriting _ _ _ hs => cases hs.active.symm.trans hact
  | closed hclosed => cases hclosed.symm.trans hopen

end CallbacksLemmas

open CallbacksLemmas

/-- The action runs a callback of the connection. -/
def ConnAct.isCallback : ConnAct → Bool
  | .request _ => true
  | .write _ => true
  | .stdout _ _ => true
  | _ => false

/-- What a callback calls before its last act: only `do_request` does more than relay. -/
def ConnAct.allows : ConnAct → Call → Bool
  | .request _ => inner
  | _ => Call.isRelay

/-- A callback drops the timer, works, and ends by arming it again or by closing. -/
theorem callback_ends {lib : Libc} {c c' : Conn} {a : ConnAct} (h : Phase c)
    (ha : a.isCallback = true) (hstep : connStep lib c a = some c') :
    ∃ c₀, c₀.r = c.r ∧ c₀.isOpen = c.isOpen ∧ c₀.tr = c.tr ++ [.delTimer] ∧ Unfired c₀ ∧
      Returns a.allows c₀ c' := by
  cases connStep_cases hstep with
  | takeSocket g hg => cases ha
  | takePipe g hg => cases ha
  | request es _ hf hd =>
    refine ⟨{ c with sock := .off }.delTimer, rfl, rfl, rfl, unfired_socket h hf, ?_⟩
    exact doRequest_returns (phase_loop h hf) hd
  | write e _ hf hd =>
    refine ⟨{ c with sock := .off }.delTimer, rfl, rfl, rfl, unfired_socket h hf, ?_⟩
    unfold doWrite at hd
    cases h with
    | reading hopen hsock => cases fired_waits hf hsock
    | writing hopen hsock hpipe hout hcgi hwin =>
      have hact : ¬ c.r.cgi.active = true := by
        rw [noScript_active hcgi]
        exact fun hx => by cases hx
      exact writeStatic_returns ((if_neg hact).symm.trans hd)
    | cgiWriting hopen hsock hpipe hs hbuilt hfd =>
      have hs' : Script { c with sock := .off }.delTimer :=
        script_quiet [.delTimer] hs ⟨rfl, rfl, rfl⟩ (by simp [Call.isServe]) rfl rfl
      exact writeCgi_returns hs' ((if_pos hs.active).symm.trans hd)
    | cgiReading hopen hsock | closed hopen hsock => cases hf.symm.trans hsock
  | stdout answers reaped _ hf hd =>
    refine ⟨{ c with pipe := .off }.delTimer, rfl, rfl, rfl, unfired_pipe h hf, ?_⟩
    cases h with
    | cgiReading hopen hsock hpipe hs hfd hu =>
      exact stdoutReady_returns (c := { c with pipe := .off }) ⟨hs.active, hs.relay, hs.text⟩ hfd hd
    | reading hopen hsock hpipe | writing hopen hsock hpipe | cgiWriting hopen hsock hpipe
    | closed hopen hsock hpipe => cases hf.symm.trans hpipe
  | hangup ev reaped hf => cases ha
  | expire reaped hopen => cases ha

/-- The calls of the timer module and the pool in one step, by whether the connection is open
after it. -/
def stepMarks (a : ConnAct) (isOpen : Bool) (ms : Nat) : List Call :=
  match a with
  | .takeSocket | .takePipe => []
  | .expire _ => [.putDeferred]
  | .hangup _ => [.delTimer, .putDeferred]
  | _ => if isOpen then [.delTimer, .addTimer ms] else [.delTimer, .putDeferred]

namespace CallbacksLemmas

theorem marksOf_append (t u : List Call) : marksOf (t ++ u) = marksOf t ++ marksOf u :=
  List.filter_append ..

theorem marksOf_cons (x : Call) (t : List Call) : marksOf (x :: t) = marksOf [x] ++ marksOf t :=
  marksOf_append [x] t

theorem marksOf_inner {calls : List Call} (h : ∀ x ∈ calls, inner x = true) : marksOf calls = [] := by
  refine List.filter_eq_nil_iff.mpr fun x hx hm => ?_
  have hi := h x hx
  unfold inner at hi
  rw [hm] at hi
  cases hi

theorem marksOf_closeFd (fd : Option Fd) : marksOf (closeFd fd) = [] := by
  cases fd <;> rfl

/-- The calls of `zv_http_close_conn`. -/
theorem closeConn_shared {c : Conn} (hs : NoStray c.r.cgi) (reaped : Bool) :
    ∃ calls, (zvHttpCloseConn reaped c).tr = c.tr ++ calls ∧ marksOf calls = [.putDeferred] ∧
      ledger (held c.r) calls = some 0 := by
  obtain ⟨log, hlog, hmarks, hled⟩ : ∃ log, (freeCgi reaped c.r.cgi).2 = log ∧ marksOf log = [] ∧
      ∀ fds, ledger (c.r.cgi.outFd.toList + fds) log = some fds := by
    refine ⟨_, rfl, ?_⟩
    unfold freeCgi
    split
    · refine ⟨?_, fun fds => ?_⟩
      · rw [marksOf_append, marksOf_closeFd]
        cases c.r.cgi.pid <;> rfl
      · rw [ledger_append, ledger_keeps, Option.bind_some, ledger_closeFd]
        cases c.r.cgi.pid <;> simp [keepsFds]
    · next hact =>
      rw [hs (Bool.eq_false_of_not_eq_true hact)]
      exact ⟨rfl, fun fds => congrArg some (Multiset.zero_add fds)⟩
  refine ⟨closeFd c.r.out.outFileFd ++ log ++ closeFd c.r.fd ++ [.putDeferred], ?_, ?_, ?_⟩
  · rw [← hlog]
    rfl
  · rw [marksOf_append, marksOf_append, marksOf_append, marksOf_closeFd, marksOf_closeFd, hmarks]
    rfl
  · have hheld : held c.r = c.r.out.outFileFd.toList + (c.r.cgi.outFd.toList +
        (c.r.fd.toList + 0)) := by
      unfold held
      abel
    rw [hheld, ledger_append, ledger_append, ledger_append, ledger_closeFd, Option.bind_some, hled,
      Option.bind_some, ledger_closeFd]
    rfl

/-- A connection with an event or a callback is open. -/
theorem phase_open {c : Conn} {ev : Interest} (h : Phase c)
    (hf : c.sock = .fired ev ∨ c.pipe = .fired ev) : c.isOpen = true := by
  cases h with
  | reading hopen | writing hopen | cgiReading hopen | cgiWriting hopen => exact hopen
  | closed hopen hsock hpipe =>
    cases hf with
    | inl hf => cases hf.symm.trans hsock
    | inr hf => cases hf.symm.trans hpipe

theorem callback_open {lib : Libc} {c c' : Conn} {a : ConnAct} (h : Phase c)
    (ha : a.isCallback = true) (hstep : connStep lib c a = some c') : c.isOpen = true := by
  cases connStep_cases hstep with
  | takeSocket g hg | takePipe g hg | hangup ev reaped hf | expire reaped hopen => cases ha
  | request es _ hf hd | write e _ hf hd => exact phase_open h (.inl hf)
  | stdout answers reaped _ hf hd => exact phase_open h (.inr hf)

theorem stepMarks_callback {a : ConnAct} (ha : a.isCallback = true) (isOpen : Bool) (ms : Nat) :
    stepMarks a isOpen ms =
      if isOpen then [.delTimer, .addTimer ms] else [.delTimer, .putDeferred] := by
  cases a with
  | request es | write e | stdout answers reaped => rfl
  | takeSocket | takePipe | hangup reaped | expire reaped => cases ha

theorem allows_inner {a : ConnAct} {x : Call} (h : a.allows x = true) : inner x = true := by
  cases a with
  | request es => exact h
  | _ => exact relay_not_mark x h

end CallbacksLemmas

/-- What one step does to the timers, the pool and the descriptors. -/
theorem connStep_shared {lib : Libc} {c c' : Conn} {a : ConnAct} (h : Phase c)
    (hstep : connStep lib c a = some c') :
    ∃ calls ms, c'.tr = c.tr ++ calls ∧ marksOf calls = stepMarks a c'.isOpen ms ∧
      ledger c.held calls = some c'.held := by
  have hclose : ∀ c₀ : Conn, c₀.isOpen = true → NoStray c₀.r.cgi → ∀ reaped,
      ∃ calls, (zvHttpCloseConn reaped c₀).tr = c₀.tr ++ calls ∧ marksOf calls = [.putDeferred] ∧
        ledger c₀.held calls = some (zvHttpCloseConn reaped c₀).held := by
    intro c₀ hopen hs reaped
    obtain ⟨calls, htr, hmarks, hled⟩ := closeConn_shared hs reaped
    refine ⟨calls, htr, hmarks, ?_⟩
    rw [Conn.held, if_pos hopen]
    exact hled
  cases hcb : a.isCallback with
  | true =>
    have hopen := callback_open h hcb hstep
    obtain ⟨c₀, hr₀, hopen₀, htr₀, -, c₁, hw, he⟩ := callback_ends h hcb hstep
    obtain ⟨calls, htr, hP, hled⟩ := hw.calls
    have hmarks : marksOf calls = [] := marksOf_inner fun x hx => allows_inner (hP x hx)
    have hopen₁ : c₁.isOpen = true := hw.isOpen.trans (hopen₀.trans hopen)
    have hheld : c.held = held c₀.r := by
      rw [Conn.held, if_pos hopen, hr₀]
    cases he with
    | rests ms =>
      refine ⟨.delTimer :: calls ++ [.addTimer ms], ms, ?_, ?_, ?_⟩
      · show c₁.tr ++ _ = _
        rw [htr, htr₀]
        simp
      · rw [stepMarks_callback hcb]
        show marksOf (.delTimer :: calls ++ _) = if c₁.isOpen then _ else _
        rw [if_pos hopen₁, List.cons_append, marksOf_cons, marksOf_append, hmarks]
        rfl
      · have hheld' : (c₁.addTimer ms).held = held c₁.r := if_pos hopen₁
        rw [hheld, hheld', List.cons_append]
        show ledger _ (calls ++ [.addTimer ms]) = _
        rw [ledger_append, hled]
        rfl
    | closes reaped =>
      have hstray := hw.stray (hr₀ ▸ phase_stray h hopen)
      obtain ⟨calls', htr', hmarks', hled'⟩ := hclose c₁ hopen₁ hstray reaped
      refine ⟨.delTimer :: calls ++ calls', 0, ?_, ?_, ?_⟩
      · rw [htr', htr, htr₀]
        simp
      · rw [stepMarks_callback hcb, if_neg (by exact fun hx => by cases hx), List.cons_append,
          marksOf_cons, marksOf_append, hmarks, hmarks']
        rfl
      · rw [Conn.held, if_pos hopen₁] at hled'
        rw [hheld, List.cons_append]
        show ledger _ (calls ++ calls') = _
        rw [ledger_append, hled]
        exact hled'
  | false =>
    cases connStep_cases hstep with
    | takeSocket g hg | takePipe g hg => exact ⟨[], 0, (List.append_nil _).symm, rfl, rfl⟩
    | request es _ hf hd | write e _ hf hd | stdout answers reaped _ hf hd => cases hcb
    | hangup ev reaped hf =>
      have hopen := phase_open h (.inl hf)
      have hstray := phase_stray h hopen
      obtain ⟨calls, htr, hmarks, hled⟩ := hclose c.delTimer hopen hstray reaped
      refine ⟨.delTimer :: calls, 0, ?_, ?_, hled⟩
      · rw [htr]
        simp [Conn.delTimer, Conn.emit]
      · rw [marksOf_cons, hmarks]
        rfl
    | expire reaped hopen =>
      obtain ⟨calls, htr, hmarks, hled⟩ := hclose c hopen (phase_stray h hopen) reaped
      exact ⟨calls, 0, htr, hmarks, hled⟩

/-- The action is one of the worker: it handles an event or a timer. -/
def ConnAct.isWorker : ConnAct → Bool
  | .takeSocket => false
  | .takePipe => false
  | _ => true

/-- When the worker is done with an event, none waits on the connection. -/
theorem connStep_unfired {lib : Libc} {c c' : Conn} {a : ConnAct} (h : Phase c)
    (ha : a.isWorker = true) (hstep : connStep lib c a = some c') : Unfired c' := by
  cases hcb : a.isCallback with
  | true =>
    obtain ⟨c₀, -, -, -, hu, c₁, hw, he⟩ := callback_ends h hcb hstep
    cases he with
    | rests ms => exact hw.unfired hu
    | closes reaped => exact fun ev => ⟨(fun hx => by cases hx), fun hx => by cases hx⟩
  | false =>
    cases connStep_cases hstep with
    | takeSocket g hg | takePipe g hg => cases ha
    | request es _ hf hd | write e _ hf hd | stdout answers reaped _ hf hd => cases hcb
    | hangup ev reaped hf | expire reaped hopen =>
      exact fun ev => ⟨(fun hx => by cases hx), fun hx => by cases hx⟩

end Zaver
