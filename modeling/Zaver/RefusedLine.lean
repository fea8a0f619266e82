import Zaver.ParseResume

/-!
# A request line that is refused

`zv_http_parse_request_line` stores `parse_pos` and its state when it returns `ZV_OK` or
`ZV_AGAIN`, not when it refuses a byte. With `ZV_HTTP_PARSE_INVALID_REQUEST`, which is
`ZV_AGAIN` for `do_request`, it is called again, on the same bytes and in the same state.

`parseLine_again` says what the second call does: it refuses the same byte and stores what the
first one did, except that the digits of a version that was begun in an earlier call are
counted once more. So a line that is refused once is refused for ever (`Stuck.again`).
-/

namespace Zaver

open Scan

/-- A request line that is refused with `ZV_HTTP_PARSE_INVALID_REQUEST`, at the head of the
loop of `do_request`. -/
structure Stuck (i : Input) : Prop where
  phase : i.parsePhase = .line
  unparsed : i.parsePos < i.last
  refused : (zvHttpParseRequestLine i).2 = .invalidRequest

instance (i : Input) : Decidable (Stuck i) :=
  decidable_of_iff (i.parsePhase = .line ∧ i.parsePos < i.last ∧
      (zvHttpParseRequestLine i).2 = .invalidRequest)
    ⟨fun h => ⟨h.1, h.2.1, h.2.2⟩, fun h => ⟨h.phase, h.unparsed, h.refused⟩⟩

/-- The fields that the parser of the request line does not store byte by byte. -/
def bareLine (i : Input) : Input :=
  { i with
    requestStart := none, methodEnd := none, method := .unknown, uriStart := none
    uriEnd := none, requestEnd := none, httpMajor := 0, httpMinor := 0 }

/-- The second of two calls on the same bytes: `i` is what the first one had stored by then,
`j` what it left in the end and `k` what the second one has stored. -/
structure Redone (j i k : Input) : Prop where
  requestStart : k.requestStart = i.requestStart ∨ k.requestStart = j.requestStart
  methodEnd : k.methodEnd = i.methodEnd ∨ k.methodEnd = j.methodEnd
  method : k.method = i.method ∨ k.method = j.method
  uriStart : k.uriStart = i.uriStart ∨ k.uriStart = j.uriStart
  uriEnd : k.uriEnd = i.uriEnd ∨ k.uriEnd = j.uriEnd
  requestEnd : k.requestEnd = i.requestEnd ∨ k.requestEnd = j.requestEnd
  bare : bareLine k = bareLine i

namespace RefusedLineLemmas

open ParseResumeLemmas

theorem lineByte_bare (i : Input) (state : LineState) (p : Nat) (ch : UInt8) :
    bareLine (lineByte i state p ch).record = bareLine i := by
  cases state <;> unfold lineByte <;> dsimp only <;> split_ifs <;>
    first
    | rfl
    | rw [setMethod_eq]; rfl

/-- A field that is not stored byte by byte. -/
theorem bareLine_field {α : Type} (f : Input → α) (hf : ∀ i, f (bareLine i) = f i) {i k : Input}
    (h : bareLine k = bareLine i) : f k = f i := by
  rw [← hf k, h, hf i]

/-- Behind the first byte of the method `request_start` stays. -/
theorem lineByte_start (i : Input) {state : LineState} (h : state ≠ .swStart) (p : Nat)
    (ch : UInt8) : (lineByte i state p ch).Sat
      (fun state _ k => state ≠ .swStart ∧ k.requestStart = i.requestStart)
      (fun _ k => k.requestStart = i.requestStart) (fun k => k.requestStart = i.requestStart) p := by
  cases state with
  | swStart => exact absurd rfl h
  | _ =>
    unfold lineByte
    dsimp only
    split_ifs <;> first
      | exact rfl
      | exact ⟨(fun hx => by cases hx), rfl⟩
      | exact ⟨(fun hx => by cases hx), by rw [setMethod_eq]⟩

/-- A method that is not recognised is that of before in both calls. -/
theorem methodOf_redone (buf : Mem UInt8) (m p : Nat) {x y z : Method} (h : y = x ∨ y = z) :
    methodOf buf m p y = methodOf buf m p x ∨ methodOf buf m p y = z := by
  unfold methodOf
  split_ifs
  · exact .inl rfl
  · exact h
  · exact .inl rfl
  · exact .inl rfl
  · exact h
  · exact .inl rfl

/-- The state in which the two calls read the next byte. -/
def Redoes (j : Input) (state : LineState) (i k : Input) : Prop :=
  Redone j i k ∧ (state ≠ .swStart → k.requestStart = i.requestStart)

theorem lineByte_redoes {j i k : Input} {state : LineState} (h : Redoes j state i k) (p : Nat)
    (ch : UInt8) :
    (lineByte i state p ch).Rel (Redoes j) (Redone j) (lineByte k state p ch) := by
  obtain ⟨⟨hrs, hme, hm, hus, hue, hre, hb⟩, hstart⟩ := h
  cases state with
  | swStart =>
    have h' : Redone j { i with requestStart := some p } { k with requestStart := some p } :=
      ⟨.inl rfl, hme, hm, hus, hue, hre, hb⟩
    unfold lineByte
    dsimp only
    split_ifs
    · exact .next ⟨h', fun _ => rfl⟩
    · exact .fail h'
    · exact .next ⟨h', fun _ => rfl⟩
  | swMethod =>
    have hs := hstart (fun hx => by cases hx)
    have hm' : methodOf k.buf (k.requestStart.getD 0) p k.method =
          methodOf i.buf (i.requestStart.getD 0) p i.method ∨
        methodOf k.buf (k.requestStart.getD 0) p k.method = j.method := by
      rw [hs, bareLine_field Input.buf (fun _ => rfl) hb]
      exact methodOf_redone _ _ _ hm
    unfold lineByte
    dsimp only
    rw [setMethod_eq, setMethod_eq]
    split_ifs
    · exact .next ⟨⟨hrs, .inl rfl, hm', hus, hue, hre, hb⟩, fun _ => hs⟩
    · exact .fail ⟨hrs, hme, hm, hus, hue, hre, hb⟩
    · exact .next ⟨⟨hrs, hme, hm, hus, hue, hre, hb⟩, fun _ => hs⟩
  | swSpacesBeforeUri =>
    have hs := hstart (fun hx => by cases hx)
    unfold lineByte
    dsimp only
    split_ifs
    · exact .next ⟨⟨hrs, hme, hm, .inl rfl, hue, hre, hb⟩, fun _ => hs⟩
    · exact .next ⟨⟨hrs, hme, hm, hus, hue, hre, hb⟩, fun _ => hs⟩
    · exact .fail ⟨hrs, hme, hm, hus, hue, hre, hb⟩
  | swAfterSlashInUri =>
    have hs := hstart (fun hx => by cases hx)
    unfold lineByte
    dsimp only
    split_ifs
    · exact .next ⟨⟨hrs, hme, hm, hus, .inl rfl, hre, hb⟩, fun _ => hs⟩
    · exact .next ⟨⟨hrs, hme, hm, hus, hue, hre, hb⟩, fun _ => hs⟩
  | swAlmostDone =>
    have h' : Redone j { i with requestEnd := some (p - 1) } { k with requestEnd := some (p - 1) } :=
      ⟨hrs, hme, hm, hus, hue, .inl rfl, hb⟩
    unfold lineByte
    dsimp only
    split_ifs
    · exact .done h'
    · exact .fail h'
  | _ =>
    -- The states of the version store nothing but the digits, which are not compared.
    have hs := hstart (fun hx => by cases hx)
    unfold lineByte
    dsimp only
    split_ifs <;> first
      | exact .next ⟨⟨hrs, hme, hm, hus, hue, hre, hb⟩, fun _ => hs⟩
      | exact .done ⟨hrs, hme, hm, hus, hue, hre, hb⟩
      | exact .fail ⟨hrs, hme, hm, hus, hue, hre, hb⟩

/-- A call that refused a byte has stored neither its position nor its state. -/
theorem refused_keeps {i j : Input} {rc : ParseRc} (h : zvHttpParseRequestLine i = (j, rc))
    (hagain : rc ≠ .again) (hok : rc ≠ .ok) :
    scan lineByte i i.requestLineState i.parsePos i.window = .fail j rc ∧
      bareLine j = bareLine i ∧ (i.requestLineState ≠ .swStart → j.requestStart = i.requestStart) := by
  have hbare := scan_record (P := fun k => bareLine k = bareLine i)
    (fun k st p ch hk => (lineByte_bare k st p ch).trans hk) rfl i.requestLineState i.parsePos i.window
  have hsat (hst : i.requestLineState ≠ .swStart) :=
    scan_sat (P := fun (st : LineState) _ (k : Input) =>
        st ≠ .swStart ∧ k.requestStart = i.requestStart)
      (D := fun _ k => k.requestStart = i.requestStart) (F := fun k => k.requestStart = i.requestStart)
      (fun k st p ch _ hk => by
        have hs := lineByte_start k hk.1 p ch
        rw [hk.2] at hs
        exact hs)
      ⟨hst, rfl⟩ (Nat.le_refl (i.parsePos + i.window.length))
  rw [parseLine_eq] at h
  unfold Parser.call at h
  change lineParser.finish (scan lineByte i i.requestLineState i.parsePos i.window) = _ at h
  generalize scan lineByte i i.requestLineState i.parsePos i.window = res at h hbare hsat ⊢
  cases res with
  | more k st p => exact absurd (Prod.mk.inj h).2.symm hagain
  | done k p => exact absurd (Prod.mk.inj h).2.symm hok
  | fail k rc' =>
    obtain ⟨rfl, rfl⟩ := Prod.mk.inj h
    exact ⟨rfl, hbare, hsat⟩

/-- Two blocks that differ in no mark differ in the version alone. -/
theorem redone_self {j k : Input} (h : Redone j j k) :
    k = { j with httpMajor := k.httpMajor, httpMinor := k.httpMinor } := by
  obtain ⟨hrs, hme, hm, hus, hue, hre, hb⟩ := h
  cases j
  cases k
  simp only [bareLine, Input.mk.injEq, or_self] at *
  tauto

/-- A call on the fields that a refused one has left refuses the same byte. -/
theorem parseLine_again {i j : Input} {rc : ParseRc} (h : zvHttpParseRequestLine i = (j, rc))
    (hagain : rc ≠ .again) (hok : rc ≠ .ok) (v w : Int) : ∃ v' w',
      zvHttpParseRequestLine { j with httpMajor := v, httpMinor := w } =
        ({ j with httpMajor := v', httpMinor := w' }, rc) := by
  obtain ⟨hscan, hbare, hstart⟩ := refused_keeps h hagain hok
  have hfirst : Redoes j i.requestLineState i { j with httpMajor := v, httpMinor := w } :=
    ⟨⟨.inr rfl, .inr rfl, .inr rfl, .inr rfl, .inr rfl, .inr rfl, hbare⟩, hstart⟩
  have hrel := scan_sim (fun _ _ _ p ch hr => lineByte_redoes hr p ch) hfirst i.parsePos i.window
  rw [hscan] at hrel
  have hstate := bareLine_field Input.requestLineState (fun _ => rfl) hbare
  have hpos := bareLine_field Input.parsePos (fun _ => rfl) hbare
  have hwin := bareLine_field Input.window (fun _ => rfl) hbare
  have hcall : zvHttpParseRequestLine { j with httpMajor := v, httpMinor := w } =
      lineParser.finish (scan lineByte { j with httpMajor := v, httpMinor := w }
        i.requestLineState i.parsePos i.window) := by
    rw [parseLine_eq, ← hstate, ← hpos, ← hwin]
    rfl
  rw [hcall]
  generalize scan lineByte { j with httpMajor := v, httpMinor := w } _ _ _ = res at hrel
  cases hrel with
  | @fail _ k _ hk => exact ⟨k.httpMajor, k.httpMinor, Prod.ext (redone_self hk) rfl⟩

/-- A call that stops short has read a byte. -/
theorem refused_unparsed {i j : Input} {rc : ParseRc} (h : zvHttpParseRequestLine i = (j, rc))
    (hagain : rc ≠ .again) (hok : rc ≠ .ok) : i.parsePos < i.last := by
  obtain ⟨hscan, -, -⟩ := refused_keeps h hagain hok
  by_contra hlt
  have hnil : i.window = [] := by
    apply List.length_eq_zero_iff.mp
    rw [length_window]
    omega
  rw [hnil] at hscan
  cases hscan

theorem headerByte_error {i j : Input} {state : HeaderState} {p : Nat} {ch : UInt8} {rc : ParseRc}
    (h : headerByte i state p ch = .fail j rc) : rc = .invalidHeader := by
  cases state <;> unfold headerByte at h <;> dsimp only at h <;> split_ifs at h <;> cases h <;> rfl

theorem parseBody_error {i : Input} : (zvHttpParseRequestBody i).2 ≠ .invalidRequest := by
  rw [parseBody_eq]
  unfold Parser.call
  cases hs : scan headerParser.step i (headerParser.state i) i.parsePos i.window with
  | more k st p => exact fun hx => by cases hx
  | done k p => exact fun hx => by cases hx
  | fail k rc =>
    obtain rfl : rc = .invalidHeader := scan_fail (fun _ _ _ _ _ _ => headerByte_error) hs
    exact fun hx => by cases hx

theorem headerPhase_error (i : Input) : (headerPhase i).2 ≠ .invalidRequest := by
  by_cases hph : i.parsePhase = .headers
  · rw [headerPhase_cases hph]
    split
    · exact fun hx => by cases hx
    · rw [← parseBody_eq]
      exact parseBody_error
  · rw [headerPhase_ready hph]
    exact fun hx => by cases hx

end RefusedLineLemmas

open RefusedLineLemmas ParseResumeLemmas

theorem Stuck.parse {i : Input} (h : Stuck i) :
    parsePhases i = ((zvHttpParseRequestLine i).1, .invalidRequest) := by
  have hrc := h.refused
  rw [parseLine_eq] at hrc ⊢
  rw [parsePhases_line h.phase, if_neg (by rw [hrc]; exact fun hx => by cases hx)]
  exact Prod.ext rfl hrc

/-- Only a request line is refused with `ZV_HTTP_PARSE_INVALID_REQUEST`. -/
theorem stuck_of_refused {i j : Input} (h : parsePhases i = (j, .invalidRequest)) :
    Stuck i ∧ j = (zvHttpParseRequestLine i).1 := by
  by_cases hph : i.parsePhase = .line
  · rw [parsePhases_line hph] at h
    split at h
    · exact absurd (congrArg Prod.snd h) (headerPhase_error _)
    · rw [← parseLine_eq] at h
      refine ⟨⟨hph, ?_, congrArg Prod.snd h⟩, (congrArg Prod.fst h).symm⟩
      exact refused_unparsed h (fun hx => by cases hx) (fun hx => by cases hx)
  · rw [parsePhases_headers hph] at h
    exact absurd (congrArg Prod.snd h) (headerPhase_error i)

theorem Stuck.line {i : Input} (h : Stuck i) :
    zvHttpParseRequestLine i = ((zvHttpParseRequestLine i).1, .invalidRequest) :=
  Prod.ext rfl h.refused

/-- What a refused line leaves of the block. -/
theorem Stuck.bare {i : Input} (h : Stuck i) : bareLine (zvHttpParseRequestLine i).1 = bareLine i :=
  (refused_keeps h.line (fun hx => by cases hx) (fun hx => by cases hx)).2.1

/-- `parse_pos` and `last` stay. -/
theorem Stuck.window {i : Input} (h : Stuck i) :
    (zvHttpParseRequestLine i).1.parsePos = i.parsePos ∧
      (zvHttpParseRequestLine i).1.last = i.last :=
  ⟨bareLine_field Input.parsePos (fun _ => rfl) h.bare, bareLine_field Input.last (fun _ => rfl) h.bare⟩

/-- A refused line leaves the fields in a state in which it is refused again. -/
theorem Stuck.again {i : Input} (h : Stuck i) : Stuck (zvHttpParseRequestLine i).1 := by
  obtain ⟨v, w, hj⟩ := parseLine_again h.line (fun hx => by cases hx)
    (fun hx => by cases hx) (zvHttpParseRequestLine i).1.httpMajor
    (zvHttpParseRequestLine i).1.httpMinor
  obtain ⟨hpos, hlast⟩ := h.window
  refine ⟨(bareLine_field Input.parsePhase (fun _ => rfl) h.bare).trans h.phase, ?_,
    congrArg Prod.snd hj⟩
  rw [hpos, hlast]
  exact h.unparsed

end Zaver
