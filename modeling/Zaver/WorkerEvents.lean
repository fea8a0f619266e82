import Zaver.Worker

/-!
# Events and their connections

The events of a batch are those of the registrations that `epoll_wait` has disarmed (`BatchOk`),
and the connections in the blocks are in states that a single connection reaches (`ConnsOk`).
Both are kept when a batch is taken (`takeEvents_ok`), when the block of an event changes
(`batch_pop`), and when a block without events does (`batch_quiet`).
-/

namespace Zaver

open Runs ConnectionLemmas CallbacksLemmas

/-- The events of a batch are the registrations that are fired. -/
structure BatchOk (conns : Nat → Conn) (batch : List Event) : Prop where
  conn : ∀ r x, .conn r x ∈ batch → ∃ ev, (conns r).sock = .fired ev ∧ x.fits ev = true
  cgi : ∀ r, .cgiOut r ∈ batch → ∃ ev, (conns r).pipe = .fired ev
  connFired : ∀ r ev, (conns r).sock = .fired ev → ∃ x, .conn r x ∈ batch
  cgiFired : ∀ r ev, (conns r).pipe = .fired ev → .cgiOut r ∈ batch
  once : (batch.map Event.item).Nodup

/-- The connections in the blocks. -/
structure ConnsOk (lib : Libc) (conns : Nat → Conn) : Prop where
  reached : ∀ r, (conns r).isOpen = true → Reached lib (conns r)
  shut : ∀ r, (conns r).isOpen = false → (conns r).sock = .off ∧ (conns r).pipe = .off

namespace WorkerEventsLemmas

variable {lib : Libc} {r : Nat}

/-! ### Connections -/

theorem reached_step {c c' : Conn} {a : ConnAct} (h : Reached lib c)
    (hstep : connStep lib c a = some c') : Reached lib c' := by
  obtain ⟨old, fd, cf, acts, hrun⟩ := h
  exact ⟨old, fd, cf, acts ++ [a], run_append.mpr ⟨c, hrun, run_cons.mpr ⟨c', hstep, rfl⟩⟩⟩

theorem reached_accept (old : Request) (fd : Fd) (cf : Conf) : Reached lib (acceptConn old fd cf) :=
  ⟨old, fd, cf, [], rfl⟩

theorem closed_regs {c : Conn} (h : Phase c) (hc : c.isOpen = false) :
    c.sock = .off ∧ c.pipe = .off := by
  cases h with
  | reading hopen | writing hopen | cgiReading hopen | cgiWriting hopen =>
    cases hopen.symm.trans hc
  | closed _ hsock hpipe => exact ⟨hsock, hpipe⟩

/-- One block gets another connection, or its connection makes a step. -/
theorem conns_update {conns : Nat → Conn} {c : Conn} (h : ConnsOk lib conns)
    (hreached : c.isOpen = true → Reached lib c)
    (hshut : c.isOpen = false → c.sock = .off ∧ c.pipe = .off) :
    ConnsOk lib (Function.update conns r c) := by
  refine ⟨fun n hn => ?_, fun n hn => ?_⟩
  · by_cases heq : n = r
    · subst heq
      rw [Function.update_self] at hn ⊢
      exact hreached hn
    · rw [Function.update_of_ne heq] at hn ⊢
      exact h.reached n hn
  · by_cases heq : n = r
    · subst heq
      rw [Function.update_self] at hn ⊢
      exact hshut hn
    · rw [Function.update_of_ne heq] at hn ⊢
      exact h.shut n hn

theorem conns_step {conns : Nat → Conn} {c : Conn} {a : ConnAct} (h : ConnsOk lib conns)
    (hopen : (conns r).isOpen = true) (hstep : connStep lib (conns r) a = some c) :
    ConnsOk lib (Function.update conns r c) := by
  have hreached := h.reached r hopen
  have hphase := connStep_phase (reached_phase hreached) hstep
  exact conns_update h (fun _ => reached_step hreached hstep) (closed_regs hphase)

/-- A connection with an event is open. -/
theorem open_sock {conns : Nat → Conn} (h : ConnsOk lib conns) (hsock : (conns r).sock ≠ .off) :
    (conns r).isOpen = true := by
  refine Bool.eq_true_of_not_eq_false fun hc => hsock ?_
  exact (h.shut r hc).1

theorem open_pipe {conns : Nat → Conn} (h : ConnsOk lib conns) (hpipe : (conns r).pipe ≠ .off) :
    (conns r).isOpen = true := by
  refine Bool.eq_true_of_not_eq_false fun hc => hpipe ?_
  exact (h.shut r hc).2

/-! ### Batches -/

/-- The event is one of the block `r`. -/
def About (r : Nat) (e : Event) : Prop := e.item = .conn r ∨ e.item = .cgiOut r

/-- The block `r` changes, and no event of it is left. -/
theorem batch_settle {conns : Nat → Conn} {batch rest : List Event} {c : Conn}
    (h : BatchOk conns batch) (hu : Unfired c) (hnodup : (rest.map Event.item).Nodup)
    (hsub : ∀ e ∈ rest, e ∈ batch ∧ ¬ About r e)
    (hall : ∀ e ∈ batch, e = .listen ∨ About r e ∨ e ∈ rest) :
    BatchOk (Function.update conns r c) rest := by
  have hother : ∀ n x, .conn n x ∈ rest → n ≠ r := by
    rintro n x hx rfl
    exact (hsub _ hx).2 (.inl rfl)
  have hother' : ∀ n, .cgiOut n ∈ rest → n ≠ r := by
    rintro n hx rfl
    exact (hsub _ hx).2 (.inr rfl)
  refine ⟨fun n x hx => ?_, fun n hx => ?_, fun n ev hn => ?_, fun n ev hn => ?_, hnodup⟩
  · rw [Function.update_of_ne (hother n x hx)]
    exact h.conn n x (hsub _ hx).1
  · rw [Function.update_of_ne (hother' n hx)]
    exact h.cgi n (hsub _ hx).1
  · by_cases heq : n = r
    · subst heq
      rw [Function.update_self] at hn
      exact absurd hn (hu ev).1
    · rw [Function.update_of_ne heq] at hn
      obtain ⟨x, hx⟩ := h.connFired n ev hn
      rcases hall _ hx with hx | hx | hx
      · cases hx
      · rcases hx with hx | hx
        · exact absurd (Item.conn.inj hx) heq
        · cases hx
      · exact ⟨x, hx⟩
  · by_cases heq : n = r
    · subst heq
      rw [Function.update_self] at hn
      exact absurd hn (hu ev).2
    · rw [Function.update_of_ne heq] at hn
      rcases hall _ (h.cgiFired n ev hn) with hx | hx | hx
      · cases hx
      · rcases hx with hx | hx
        · cases hx
        · exact absurd (Item.cgiOut.inj hx) heq
      · exact hx

/-- An event that is handled was the only one of its block. -/
theorem batch_pop {conns : Nat → Conn} {e : Event} {rest : List Event} {c : Conn}
    (h : BatchOk conns (e :: rest)) (hphase : Phase (conns r)) (he : About r e) (hu : Unfired c) :
    BatchOk (Function.update conns r c) rest := by
  obtain ⟨hout, hnodup⟩ := List.nodup_cons.mp h.once
  have hone : ∀ ev ev', ¬ ((conns r).sock = .fired ev ∧ (conns r).pipe = .fired ev') := by
    rintro ev ev' ⟨hs, hp⟩
    have hoff := (unfired_socket hphase hs ev').2
    exact hoff hp
  refine batch_settle h hu hnodup (fun e' he' => ⟨List.mem_cons_of_mem _ he', fun hr => ?_⟩)
    fun e' he' => ?_
  · have hne : e'.item ≠ e.item := fun hx => hout (hx ▸ List.mem_map_of_mem he')
    have hmem : e' ∈ e :: rest := List.mem_cons_of_mem _ he'
    -- the other event would be of the other registration
    cases e with
    | listen => rcases he with he | he <;> cases he
    | conn n x =>
      obtain ⟨ev, hev, -⟩ := h.conn n x List.mem_cons_self
      rcases he with he | he
      · obtain rfl := Item.conn.inj he
        cases e' with
        | listen => rcases hr with hr | hr <;> cases hr
        | conn n' x' =>
          rcases hr with hr | hr
          · exact hne hr
          · cases hr
        | cgiOut n' =>
          rcases hr with hr | hr
          · cases hr
          · obtain rfl := Item.cgiOut.inj hr
            obtain ⟨ev', hev'⟩ := h.cgi n' hmem
            exact hone ev ev' ⟨hev, hev'⟩
      · cases he
    | cgiOut n =>
      obtain ⟨ev, hev⟩ := h.cgi n List.mem_cons_self
      rcases he with he | he
      · cases he
      · obtain rfl := Item.cgiOut.inj he
        cases e' with
        | listen => rcases hr with hr | hr <;> cases hr
        | conn n' x' =>
          rcases hr with hr | hr
          · obtain rfl := Item.conn.inj hr
            obtain ⟨ev', hev', -⟩ := h.conn n' x' hmem
            exact hone ev' ev ⟨hev', hev⟩
          · cases hr
        | cgiOut n' =>
          rcases hr with hr | hr
          · cases hr
          · exact hne hr
  · cases List.mem_cons.mp he' with
    | inl heq => exact .inr (.inl (heq ▸ he))
    | inr hmem => exact .inr (.inr hmem)

/-- A block without events. -/
theorem batch_quiet {conns : Nat → Conn} {batch rest : List Event} {c : Conn}
    (h : BatchOk conns batch) (hquiet : Unfired (conns r)) (hu : Unfired c)
    (hrest : batch = rest ∨ batch = .listen :: rest) :
    BatchOk (Function.update conns r c) rest := by
  have hout : ∀ e ∈ batch, ¬ About r e := by
    intro e he hr
    cases e with
    | listen => rcases hr with hr | hr <;> cases hr
    | conn n x =>
      obtain ⟨ev, hev, -⟩ := h.conn n x he
      rcases hr with hr | hr
      · obtain rfl := Item.conn.inj hr
        exact (hquiet ev).1 hev
      · cases hr
    | cgiOut n =>
      obtain ⟨ev, hev⟩ := h.cgi n he
      rcases hr with hr | hr
      · cases hr
      · obtain rfl := Item.cgiOut.inj hr
        exact (hquiet ev).2 hev
  rcases hrest with rfl | rfl
  · exact batch_settle h hu h.once (fun e he => ⟨he, hout e he⟩) fun e he => .inr (.inr he)
  · refine batch_settle h hu (List.nodup_cons.mp h.once).2
      (fun e he => ⟨List.mem_cons_of_mem _ he, hout e (List.mem_cons_of_mem _ he)⟩) fun e he => ?_
    exact (List.mem_cons.mp he).imp id .inr

/-- The event of the listening socket changes no block. -/
theorem batch_listen {conns : Nat → Conn} {rest : List Event} (h : BatchOk conns (.listen :: rest)) :
    BatchOk conns rest := by
  refine ⟨fun n x hx => h.conn n x (List.mem_cons_of_mem _ hx),
    fun n hx => h.cgi n (List.mem_cons_of_mem _ hx), fun n ev hn => ?_, fun n ev hn => ?_,
    (List.nodup_cons.mp h.once).2⟩
  · obtain ⟨x, hx⟩ := h.connFired n ev hn
    cases List.mem_cons.mp hx with
    | inl hx => cases hx
    | inr hx => exact ⟨x, hx⟩
  · cases List.mem_cons.mp (h.cgiFired n ev hn) with
    | inl hx => cases hx
    | inr hx => exact hx

/-! ### Taking events -/

/-- An event that is taken is a step of its connection. -/
theorem takeEvent_cases {conns conns' : Nat → Conn} {e : Event} (h : takeEvent conns e = some conns') :
    (e = .listen ∧ conns' = conns) ∨
      (∃ n x ev, e = .conn n x ∧ (conns n).sock = .armed ev ∧ x.fits ev = true ∧
        conns' = Function.update conns n { conns n with sock := .fired ev }) ∨
      ∃ n ev, e = .cgiOut n ∧ (conns n).pipe = .armed ev ∧
        conns' = Function.update conns n { conns n with pipe := .fired ev } := by
  cases e with
  | listen => exact .inl ⟨rfl, (Option.some.inj h).symm⟩
  | conn n x =>
    simp only [takeEvent] at h
    split at h
    · next ev hev =>
      split at h
      · next hfits => exact .inr (.inl ⟨n, x, ev, rfl, hev, hfits, (Option.some.inj h).symm⟩)
      · cases h
    · cases h
  | cgiOut n =>
    simp only [takeEvent] at h
    split at h
    · next ev hev => exact .inr (.inr ⟨n, ev, rfl, hev, (Option.some.inj h).symm⟩)
    · cases h

/-- The blocks whose connections are open do not change. -/
def SameOpen (conns conns' : Nat → Conn) : Prop :=
  ∀ n, (conns' n).isOpen = (conns n).isOpen ∧ (conns' n).tr = (conns n).tr ∧ (conns' n).r = (conns n).r

theorem takeEvent_same {conns conns' : Nat → Conn} {e : Event} (h : takeEvent conns e = some conns') :
    SameOpen conns conns' := by
  intro n
  rcases takeEvent_cases h with ⟨-, rfl⟩ | ⟨m, x, ev, -, -, -, rfl⟩ | ⟨m, ev, -, -, rfl⟩
  · exact ⟨rfl, rfl, rfl⟩
  · by_cases heq : n = m
    · subst heq
      rw [Function.update_self]
      exact ⟨rfl, rfl, rfl⟩
    · rw [Function.update_of_ne heq]
      exact ⟨rfl, rfl, rfl⟩
  · by_cases heq : n = m
    · subst heq
      rw [Function.update_self]
      exact ⟨rfl, rfl, rfl⟩
    · rw [Function.update_of_ne heq]
      exact ⟨rfl, rfl, rfl⟩

theorem takeEvent_conns {conns conns' : Nat → Conn} {e : Event} (h : ConnsOk lib conns)
    (ht : takeEvent conns e = some conns') : ConnsOk lib conns' := by
  rcases takeEvent_cases ht with ⟨-, rfl⟩ | ⟨n, x, ev, -, hev, -, rfl⟩ | ⟨n, ev, -, hev, rfl⟩
  · exact h
  · have hopen := open_sock h (r := n) (by rw [hev]; exact fun hx => by cases hx)
    have hstep : connStep lib (conns n) .takeSocket = some { conns n with sock := .fired ev } := by
      show (conns n).sock.take.map _ = _
      rw [hev]
      rfl
    exact conns_step h hopen hstep
  · have hopen := open_pipe h (r := n) (by rw [hev]; exact fun hx => by cases hx)
    have hstep : connStep lib (conns n) .takePipe = some { conns n with pipe := .fired ev } := by
      show (conns n).pipe.take.map _ = _
      rw [hev]
      rfl
    exact conns_step h hopen hstep

theorem takeEvent_batch {conns conns' : Nat → Conn} {e : Event} {pre : List Event}
    (h : BatchOk conns pre) (hnew : e.item ∉ pre.map Event.item)
    (ht : takeEvent conns e = some conns') : BatchOk conns' (pre ++ [e]) := by
  have hnodup : ((pre ++ [e]).map Event.item).Nodup := by
    rw [List.map_append]
    exact List.nodup_append.mpr ⟨h.once, List.nodup_singleton _, fun a ha b hb heq => by
      rw [List.mem_singleton.mp hb] at heq
      exact hnew (heq ▸ ha)⟩
  rcases takeEvent_cases ht with ⟨rfl, rfl⟩ | ⟨n, x, ev, rfl, hev, hfits, rfl⟩ | ⟨n, ev, rfl, hev, rfl⟩
  · refine ⟨fun m y hy => ?_, fun m hy => ?_, fun m ev hm => ?_, fun m ev hm => ?_, hnodup⟩
    · cases List.mem_append.mp hy with
      | inl hy => exact h.conn m y hy
      | inr hy => cases List.mem_singleton.mp hy
    · cases List.mem_append.mp hy with
      | inl hy => exact h.cgi m hy
      | inr hy => cases List.mem_singleton.mp hy
    · obtain ⟨y, hy⟩ := h.connFired m ev hm
      exact ⟨y, List.mem_append_left _ hy⟩
    · exact List.mem_append_left _ (h.cgiFired m ev hm)
  · have hother : ∀ m, m ≠ n → Function.update conns n { conns n with sock := .fired ev } m = conns m :=
      fun m hm => Function.update_of_ne hm _ _
    refine ⟨fun m y hy => ?_, fun m hy => ?_, fun m ev' hm => ?_, fun m ev' hm => ?_, hnodup⟩
    · by_cases heq : m = n
      · subst heq
        rw [Function.update_self]
        cases List.mem_append.mp hy with
        | inl hy => exact absurd (List.mem_map_of_mem hy) hnew
        | inr hy =>
          obtain ⟨-, rfl⟩ := Event.conn.inj (List.mem_singleton.mp hy)
          exact ⟨ev, rfl, hfits⟩
      · rw [hother m heq]
        cases List.mem_append.mp hy with
        | inl hy => exact h.conn m y hy
        | inr hy => exact absurd (Event.conn.inj (List.mem_singleton.mp hy)).1 heq
    · have hpipe : (Function.update conns n { conns n with sock := .fired ev } m).pipe =
          (conns m).pipe := by
        by_cases heq : m = n
        · subst heq
          rw [Function.update_self]
        · rw [hother m heq]
      rw [hpipe]
      cases List.mem_append.mp hy with
      | inl hy => exact h.cgi m hy
      | inr hy => cases List.mem_singleton.mp hy
    · by_cases heq : m = n
      · subst heq
        exact ⟨x, List.mem_append_right _ List.mem_cons_self⟩
      · rw [hother m heq] at hm
        obtain ⟨y, hy⟩ := h.connFired m ev' hm
        exact ⟨y, List.mem_append_left _ hy⟩
    · by_cases heq : m = n
      · subst heq
        rw [Function.update_self] at hm
        exact List.mem_append_left _ (h.cgiFired m ev' hm)
      · rw [hother m heq] at hm
        exact List.mem_append_left _ (h.cgiFired m ev' hm)
  · have hother : ∀ m, m ≠ n → Function.update conns n { conns n with pipe := .fired ev } m = conns m :=
      fun m hm => Function.update_of_ne hm _ _
    refine ⟨fun m y hy => ?_, fun m hy => ?_, fun m ev' hm => ?_, fun m ev' hm => ?_, hnodup⟩
    · have hsock : (Function.update conns n { conns n with pipe := .fired ev } m).sock =
          (conns m).sock := by
        by_cases heq : m = n
        · subst heq
          rw [Function.update_self]
        · rw [hother m heq]
      rw [hsock]
      cases List.mem_append.mp hy with
      | inl hy => exact h.conn m y hy
      | inr hy => cases List.mem_singleton.mp hy
    · by_cases heq : m = n
      · subst heq
        rw [Function.update_self]
        exact ⟨ev, rfl⟩
      · rw [hother m heq]
        cases List.mem_append.mp hy with
        | inl hy => exact h.cgi m hy
        | inr hy => exact absurd (Event.cgiOut.inj (List.mem_singleton.mp hy)) heq
    · by_cases heq : m = n
      · subst heq
        rw [Function.update_self] at hm
        obtain ⟨y, hy⟩ := h.connFired m ev' hm
        exact ⟨y, List.mem_append_left _ hy⟩
      · rw [hother m heq] at hm
        obtain ⟨y, hy⟩ := h.connFired m ev' hm
        exact ⟨y, List.mem_append_left _ hy⟩
    · by_cases heq : m = n
      · subst heq
        exact List.mem_append_right _ List.mem_cons_self
      · rw [hother m heq] at hm
        exact List.mem_append_left _ (h.cgiFired m ev' hm)

/-- A whole batch is taken. -/
theorem takeEvents_ok {conns conns' : Nat → Conn} {pre evs : List Event} (hc : ConnsOk lib conns)
    (hb : BatchOk conns pre) (hnodup : ((pre ++ evs).map Event.item).Nodup)
    (ht : evs.foldlM takeEvent conns = some conns') :
    ConnsOk lib conns' ∧ BatchOk conns' (pre ++ evs) ∧ SameOpen conns conns' := by
  induction evs generalizing conns pre with
  | nil =>
    obtain rfl := Option.some.inj ht
    rw [List.append_nil]
    exact ⟨hc, hb, fun n => ⟨rfl, rfl, rfl⟩⟩
  | cons e evs ih =>
    rw [List.foldlM_cons] at ht
    obtain ⟨conns₁, ht₁, ht₂⟩ := Option.bind_eq_some_iff.mp ht
    have hnew : e.item ∉ pre.map Event.item := by
      rw [List.map_append, List.map_cons] at hnodup
      intro hmem
      exact (List.nodup_append.mp hnodup).2.2 _ hmem _ List.mem_cons_self rfl
    have happ : pre ++ e :: evs = (pre ++ [e]) ++ evs := by
      rw [List.append_assoc]
      rfl
    rw [happ] at hnodup ⊢
    obtain ⟨hc', hb', hs'⟩ :=
      ih (takeEvent_conns hc ht₁) (takeEvent_batch hb hnew ht₁) hnodup ht₂
    have hs := takeEvent_same ht₁
    refine ⟨hc', hb', fun n => ?_⟩
    obtain ⟨h₁, h₂, h₃⟩ := hs n
    obtain ⟨h₁', h₂', h₃'⟩ := hs' n
    exact ⟨h₁'.trans h₁, h₂'.trans h₂, h₃'.trans h₃⟩

end WorkerEventsLemmas

end Zaver
