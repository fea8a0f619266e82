import Zaver.Lib.Grammar
import Zaver.ParseResume

/-!
# The grammar of the request line

`RequestLine` is a request line with its parts and `render` its bytes. The parser accepts
the renderings and nothing else: `scan_line` follows the automaton over a rendering and
gives the fields it leaves, `lineRest_start` reads the parts off whatever it accepts.
`feedWith` calls a parser after each piece of a stream, and `feed_line` says by the grammar
what it makes of the stream.

The state inside a URI takes every byte but a space, line ends too: what is accepted is one line
unless one stands there (`request_line_one_line_iff`).
-/

namespace Zaver

open CString Scan

/-! ## Request lines -/

/-- The value of a string of decimal digits. -/
def decimal (ds : Bytes) : Nat := ds.foldl (fun acc c => acc * 10 + (c.toNat - 48)) 0

/-- A line end that is skipped in front of the method. -/
def IsLineEnd (c : UInt8) : Prop := c = CR ∨ c = LF

/-- A byte of a method token. -/
def IsTokenByte (c : UInt8) : Prop := ('A'.toUInt8 ≤ c ∧ c ≤ 'Z'.toUInt8) ∨ c = '_'.toUInt8

/-- A request line: the line ends in front of it, the method, the URI and the digits of the
version. Behind the method and behind the URI there may be more spaces than one (`gap`,
`gap'`), and some before the end of the line (`blanks`); the CR may be left out. -/
structure RequestLine where
  lead : Bytes
  token : Bytes
  gap : Bytes
  uri : Bytes
  gap' : Bytes
  major : Bytes
  minor : Bytes
  blanks : Bytes
  cr : Bool

/-- A request line of the grammar. -/
structure RequestLine.Ok (l : RequestLine) : Prop where
  lead : ∀ c ∈ l.lead, IsLineEnd c
  token_ne : l.token ≠ []
  token : ∀ c ∈ l.token, IsTokenByte c
  gap : ∀ c ∈ l.gap, c = ' '.toUInt8
  uri_head : l.uri.head? = some '/'.toUInt8
  uri : ' '.toUInt8 ∉ l.uri
  gap' : ∀ c ∈ l.gap', c = ' '.toUInt8
  major_ne : l.major ≠ []
  major : ∀ c ∈ l.major, isDigit c = true
  major_head : l.major.head? ≠ some '0'.toUInt8
  minor_ne : l.minor ≠ []
  minor : ∀ c ∈ l.minor, isDigit c = true
  blanks : ∀ c ∈ l.blanks, c = ' '.toUInt8

/-- The end of a request line. -/
def RequestLine.ending (l : RequestLine) : Bytes :=
  l.blanks ++ ((if l.cr then [CR] else []) ++ [LF])

/-- The version and what follows it. -/
def RequestLine.version (l : RequestLine) : Bytes :=
  ascii "HTTP/" ++ (l.major ++ ('.'.toUInt8 :: (l.minor ++ l.ending)))

/-- The bytes of a request line. -/
def RequestLine.render (l : RequestLine) : Bytes :=
  l.lead ++ (l.token ++ (' '.toUInt8 :: (l.gap ++ (l.uri ++ (' '.toUInt8 :: (l.gap' ++
    l.version))))))

/-- The language of the grammar. -/
def InGrammar (s : Bytes) : Prop := ∃ l : RequestLine, l.Ok ∧ l.render = s

/-- The offset of the method. -/
def RequestLine.tokenStart (l : RequestLine) : Nat := l.lead.length

/-- The offset of the URI. -/
def RequestLine.uriStart (l : RequestLine) : Nat :=
  l.lead.length + l.token.length + 1 + l.gap.length

/-- One line: no line end except at its end, where it is LF or CR LF. -/
def OneLine (t : Bytes) : Prop :=
  ∃ w, CR ∉ w ∧ LF ∉ w ∧ (t = w ++ [LF] ∨ t = w ++ [CR, LF])

/-- The bytes behind the line ends in front of a request line. -/
def skipLineEnds (s : Bytes) : Bytes := s.dropWhile fun c => c == CR || c == LF

/-- The URI of a request line: what stands between the spaces behind the first word and the
next space. -/
def uriText (s : Bytes) : Bytes :=
  (((skipLineEnds s).dropWhile (· != ' '.toUInt8)).dropWhile (· == ' '.toUInt8)).takeWhile
    (· != ' '.toUInt8)

/-- Line ends, a method token and the space behind it stand in front. -/
def MethodRead : Bytes → Prop :=
  Many IsLineEnd (One IsTokenByte (Many IsTokenByte (One (· = ' '.toUInt8) fun _ => True)))

/-- The value that the parser gathers from digits, in an `int`. -/
def accumulate (ds : Bytes) : Int := ds.foldl (fun acc c => wrapInt (acc * 10 + c.toNat - 48)) 0

/-! ## Pieces -/

/-- A parser is called after each piece, until it returns something other than `ZV_AGAIN`. -/
def feedWith (parse : Input → Input × ParseRc) (i : Input) : List Bytes → Input × ParseRc
  | [] => (i, .again)
  | p :: ps =>
    match parse (i.load p) with
    | (i, .again) => feedWith parse i ps
    | res => res

namespace RequestLineLemmas

open ParseResumeLemmas

/-! ### What is accepted -/

/-- Behind the minor version. -/
def endRest : Bytes → Prop := Many (· = ' '.toUInt8) fun s => s = [LF] ∨ s = [CR, LF]

/-- Behind the first digit of the major version. -/
def majorRest : Bytes → Prop :=
  Many (isDigit · = true) (One (· = '.'.toUInt8) (One (isDigit · = true)
    (Many (isDigit · = true) endRest)))

/-- Behind `HTTP/`. -/
def versionRest : Bytes → Prop := One (fun c => isDigit c = true ∧ c ≠ '0'.toUInt8) majorRest

/-- Behind `HTT`. -/
def protocolRest : Bytes → Prop := One (· = 'P'.toUInt8) (One (· = '/'.toUInt8) versionRest)

/-- Behind the first space after the URI. -/
def httpRest : Bytes → Prop :=
  Many (· = ' '.toUInt8) (One (· = 'H'.toUInt8) (One (· = 'T'.toUInt8) (One (· = 'T'.toUInt8)
    protocolRest)))

/-- Behind the slash of the URI. -/
def slashRest : Bytes → Prop := Many (· ≠ ' '.toUInt8) (One (· = ' '.toUInt8) httpRest)

/-- Behind the first space after the method. -/
def uriRest : Bytes → Prop := Many (· = ' '.toUInt8) (One (· = '/'.toUInt8) slashRest)

/-- Behind the first byte of the method. -/
def tokenRest : Bytes → Prop := Many IsTokenByte (One (· = ' '.toUInt8) uriRest)

/-- The languages of the states of `zv_http_parse_request_line`. -/
def lineRest : LineState → Bytes → Prop
  | .swStart => Many IsLineEnd (One IsTokenByte tokenRest)
  | .swMethod => tokenRest
  | .swSpacesBeforeUri => uriRest
  | .swAfterSlashInUri => slashRest
  | .swHttp => httpRest
  | .swHttpH => One (· = 'T'.toUInt8) (One (· = 'T'.toUInt8) protocolRest)
  | .swHttpHT => One (· = 'T'.toUInt8) protocolRest
  | .swHttpHTT => protocolRest
  | .swHttpHTTP => One (· = '/'.toUInt8) versionRest
  | .swFirstMajorDigit => versionRest
  | .swMajorDigit => majorRest
  | .swFirstMinorDigit => One (isDigit · = true) (Many (isDigit · = true) endRest)
  | .swMinorDigit => Many (isDigit · = true) endRest
  | .swSpacesAfterDigit => endRest
  | .swAlmostDone => (· = [LF])

theorem isTokenByte_of {c : UInt8} (h : notMethodChar c = false) : IsTokenByte c := by
  have hall : ∀ c : UInt8, notMethodChar c = false →
      ('A'.toUInt8 ≤ c ∧ c ≤ 'Z'.toUInt8) ∨ c = '_'.toUInt8 := by decide +kernel
  exact hall c h

theorem isDigit_of {c : UInt8} (h : notDigit '0'.toUInt8 c = false) : isDigit c = true := by
  have hall : ∀ c : UInt8, notDigit '0'.toUInt8 c = false → isDigit c = true := by decide +kernel
  exact hall c h

theorem isDigit_pos_of {c : UInt8} (h : notDigit '1'.toUInt8 c = false) :
    isDigit c = true ∧ c ≠ '0'.toUInt8 := by
  have hall : ∀ c : UInt8, notDigit '1'.toUInt8 c = false →
      isDigit c = true ∧ c ≠ '0'.toUInt8 := by decide +kernel
  exact hall c h

theorem lineRest_next {i j : Input} {state state' : LineState} {p : Nat} {ch : UInt8} {s : Bytes}
    (h : lineByte i state p ch = .next j state') (hs : lineRest state' s) :
    lineRest state (ch :: s) := by
  cases state with
  | swStart =>
    simp only [lineByte] at h
    split_ifs at h with h1 h2 <;> cases h
    · exact Many.cons (by simpa [IsLineEnd] using h1) hs
    · exact Many.skip (One.intro (isTokenByte_of (Bool.eq_false_of_not_eq_true h2)) hs)
  | swMethod =>
    simp only [lineByte] at h
    split_ifs at h with h1 h2 <;> cases h
    · exact Many.skip (One.intro (eq_of_beq h1) hs)
    · exact Many.cons (isTokenByte_of (Bool.eq_false_of_not_eq_true h2)) hs
  | swSpacesBeforeUri =>
    simp only [lineByte] at h
    split_ifs at h with h1 h2 <;> cases h
    · exact Many.skip (One.intro (eq_of_beq h1) hs)
    · exact Many.cons (eq_of_beq h2) hs
  | swAfterSlashInUri =>
    simp only [lineByte] at h
    split_ifs at h with h1 <;> cases h
    · exact Many.skip (One.intro (eq_of_beq h1) hs)
    · exact Many.cons (by simpa using h1) hs
  | swHttp =>
    simp only [lineByte] at h
    split_ifs at h with h1 h2 <;> cases h
    · exact Many.cons (eq_of_beq h1) hs
    · exact Many.skip (One.intro (eq_of_beq h2) hs)
  | swHttpH | swHttpHT | swHttpHTT | swHttpHTTP =>
    simp only [lineByte] at h
    split_ifs at h with h1
    cases h
    exact One.intro (eq_of_beq h1) hs
  | swFirstMajorDigit =>
    simp only [lineByte] at h
    split_ifs at h with h1
    cases h
    exact One.intro (isDigit_pos_of (Bool.eq_false_of_not_eq_true h1)) hs
  | swMajorDigit =>
    simp only [lineByte] at h
    split_ifs at h with h1 h2 <;> cases h
    · exact Many.skip (One.intro (eq_of_beq h1) hs)
    · exact Many.cons (isDigit_of (Bool.eq_false_of_not_eq_true h2)) hs
  | swFirstMinorDigit =>
    simp only [lineByte] at h
    split_ifs at h with h1
    cases h
    exact One.intro (isDigit_of (Bool.eq_false_of_not_eq_true h1)) hs
  | swMinorDigit =>
    simp only [lineByte] at h
    split_ifs at h with h1 h2 h3 h4 <;> cases h
    · exact Many.skip (Many.skip (.inr (by rw [eq_of_beq h1, show s = [LF] from hs])))
    · exact Many.skip (Many.cons (eq_of_beq h3) hs)
    · exact Many.cons (isDigit_of (Bool.eq_false_of_not_eq_true h4)) hs
  | swSpacesAfterDigit =>
    simp only [lineByte] at h
    split_ifs at h with h1 h2 h3 <;> cases h
    · exact Many.cons (eq_of_beq h1) hs
    · exact Many.skip (.inr (by rw [eq_of_beq h2, show s = [LF] from hs]))
  | swAlmostDone =>
    simp only [lineByte] at h
    split_ifs at h

theorem lineRest_done {i j : Input} {state : LineState} {p : Nat} {ch : UInt8}
    (h : lineByte i state p ch = .done j) : lineRest state [ch] := by
  cases state with
  | swMinorDigit =>
    simp only [lineByte] at h
    split_ifs at h with h1 h2
    cases h
    exact Many.skip (Many.skip (.inl (by rw [eq_of_beq h2])))
  | swSpacesAfterDigit =>
    simp only [lineByte] at h
    split_ifs at h with h1 h2 h3
    cases h
    exact Many.skip (.inl (by rw [eq_of_beq h3]))
  | swAlmostDone =>
    simp only [lineByte] at h
    split_ifs at h with h1
    cases h
    show [ch] = [LF]
    rw [eq_of_beq h1]
  | _ =>
    simp only [lineByte] at h
    split_ifs at h

/-- The parts of a line that is accepted. -/
theorem lineRest_start {s : Bytes} (h : lineRest .swStart s) : InGrammar s := by
  obtain ⟨lead, _, rfl, hlead, c, _, rfl, hc, h⟩ := h
  obtain ⟨tok, _, rfl, htok, _, _, rfl, rfl, h⟩ := h
  obtain ⟨gap, _, rfl, hgap, _, _, rfl, rfl, h⟩ := h
  obtain ⟨uri, _, rfl, huri, _, _, rfl, rfl, h⟩ := h
  obtain ⟨gap', _, rfl, hgap', _, _, rfl, rfl, _, _, rfl, rfl, _, _, rfl, rfl, h⟩ := h
  obtain ⟨_, _, rfl, rfl, _, _, rfl, rfl, d, _, rfl, hd, h⟩ := h
  obtain ⟨ds, _, rfl, hds, _, _, rfl, rfl, e, _, rfl, he, h⟩ := h
  obtain ⟨es, _, rfl, hes, blanks, t, rfl, hblanks, h⟩ := h
  have hends : ∃ cr : Bool, t = (if cr then [CR] else []) ++ [LF] := by
    cases h with
    | inl h => exact ⟨false, h⟩
    | inr h => exact ⟨true, h⟩
  obtain ⟨cr, rfl⟩ := hends
  have hcons : ∀ {P : UInt8 → Prop} {x : UInt8} {xs : Bytes}, P x → (∀ y ∈ xs, P y) →
      ∀ y ∈ x :: xs, P y := by
    intro P x xs hx hxs y hy
    cases List.mem_cons.mp hy with
    | inl hy => exact hy ▸ hx
    | inr hy => exact hxs y hy
  refine ⟨⟨lead, c :: tok, gap, '/'.toUInt8 :: uri, gap', d :: ds, e :: es, blanks, cr⟩, ?_, ?_⟩
  · exact
      { lead := hlead, token_ne := List.cons_ne_nil _ _, token := hcons hc htok, gap := hgap
        uri_head := rfl
        uri := fun hx => hcons (P := (· ≠ ' '.toUInt8)) (by decide) huri _ hx rfl
        gap' := hgap', major_ne := List.cons_ne_nil _ _, major := hcons hd.1 hds
        major_head := fun hx => hd.2 (Option.some.inj hx), minor_ne := List.cons_ne_nil _ _
        minor := hcons he hes, blanks := hblanks }
  · rfl

/-- What is accepted is a line of the grammar. -/
theorem scan_line_sound {i j : Input} {p q : Nat} {s : Bytes}
    (h : scan lineByte i .swStart p s = .done j q) :
    ∃ l : RequestLine, l.Ok ∧ ∃ u, s = l.render ++ u ∧ q = p + l.render.length := by
  have hsound := @scan_sound _ _ _ _ lineByte lineRest (fun _ _ _ _ _ _ _ => lineRest_next)
    (fun _ _ _ _ _ => lineRest_done) _ _ _ _ _ _ h
  obtain ⟨t, u, rfl, rfl, ht⟩ := hsound
  obtain ⟨l, hl, rfl⟩ := lineRest_start ht
  exact ⟨l, hl, u, rfl, rfl⟩

/-! ### Digits -/

theorem decimal_snoc (ds : Bytes) (c : UInt8) :
    decimal (ds ++ [c]) = decimal ds * 10 + (c.toNat - 48) := by
  simp [decimal]

theorem accumulate_snoc (ds : Bytes) (c : UInt8) :
    accumulate (ds ++ [c]) = wrapInt (accumulate ds * 10 + c.toNat - 48) := by
  simp [accumulate]

theorem digit_ge {c : UInt8} (h : isDigit c = true) : 48 ≤ c.toNat := by
  simp only [isDigit, Bool.and_eq_true, decide_eq_true_eq] at h
  exact UInt8.le_iff_toNat_le.mp h.1

theorem not_notDigit {c : UInt8} (h : isDigit c = true) : notDigit '0'.toUInt8 c = false := by
  simp only [isDigit, Bool.and_eq_true, decide_eq_true_eq] at h
  simp only [notDigit, Bool.or_eq_false_iff, decide_eq_false_iff_not, gt_iff_lt, UInt8.not_lt]
  exact h

theorem digit_ne {c : UInt8} (hc : isDigit c = true) :
    c ≠ '.'.toUInt8 ∧ c ≠ CR ∧ c ≠ LF ∧ c ≠ ' '.toUInt8 := by
  refine ⟨?_, ?_, ?_, ?_⟩
  all_goals
    rintro rfl
    exact absurd hc (by decide)

/-- The gathered value is the number, up to overflow. -/
theorem accumulate_eq {ds : Bytes} (h : ∀ c ∈ ds, isDigit c = true) :
    accumulate ds = wrapInt (decimal ds) := by
  induction ds using List.reverseRecOn with
  | nil => rfl
  | append_singleton ds c ih =>
    have hge := digit_ge (h c (by simp))
    rw [accumulate_snoc, decimal_snoc, ih fun x hx => h x (by simp [hx])]
    have hcast : ((decimal ds * 10 + (c.toNat - 48) : Nat) : Int) =
        (decimal ds : Int) * 10 + ((c.toNat : Int) - 48) := by omega
    have hassoc : wrapInt (decimal ds) * 10 + (c.toNat : Int) - 48 =
        wrapInt (decimal ds) * 10 + ((c.toNat : Int) - 48) := by omega
    rw [hcast, hassoc]
    unfold wrapInt
    rw [← Int.bmod_add_bmod, ← Int.bmod_mul_bmod]
    simp

/-- A number that fits an `int` is gathered as it is, and no other one. -/
theorem accumulate_exact_iff {ds : Bytes} (h : ∀ c ∈ ds, isDigit c = true) :
    accumulate ds = decimal ds ↔ decimal ds < 2 ^ 31 := by
  rw [accumulate_eq h]
  unfold wrapInt
  refine ⟨fun heq => ?_, fun hlt => ?_⟩
  · have hle := Int.bmod_lt (x := (decimal ds : Int)) (m := 2 ^ 32) (by decide)
    omega
  · rw [Int.bmod_eq_of_le] <;> omega

theorem accumulate_one {c : UInt8} (h : isDigit c = true) :
    ((c.toNat : Int) - 48) = accumulate [c] := by
  have hall : ∀ c : UInt8, isDigit c = true → ((c.toNat : Int) - 48) = accumulate [c] := by
    decide +kernel
  exact hall c h

/-! ### The automaton over a line -/

/-- Further digits of the major version. -/
theorem scan_major {es : Bytes} (hes : ∀ c ∈ es, isDigit c = true) (ds : Bytes) (i : Input)
    (p : Nat) (rest : Bytes) :
    scan lineByte { i with httpMajor := accumulate ds } .swMajorDigit p (es ++ rest) =
      scan lineByte { i with httpMajor := accumulate (ds ++ es) } .swMajorDigit (p + es.length)
        rest := by
  induction es generalizing ds p with
  | nil => simp
  | cons c es ih =>
    have hc := hes c List.mem_cons_self
    have hstep : lineByte { i with httpMajor := accumulate ds } .swMajorDigit p c =
        .next { i with httpMajor := accumulate (ds ++ [c]) } .swMajorDigit := by
      unfold lineByte
      dsimp only
      rw [if_neg (by simpa using (digit_ne hc).1), not_notDigit hc,
        if_neg (by exact fun hx => by cases hx), accumulate_snoc]
    rw [List.cons_append, scan_next hstep,
      ih (fun x hx => hes x (List.mem_cons_of_mem _ hx)) (ds ++ [c]), List.length_cons,
      List.append_assoc, List.singleton_append, Nat.add_assoc, Nat.add_comm 1]

/-- Further digits of the minor version. -/
theorem scan_minor {es : Bytes} (hes : ∀ c ∈ es, isDigit c = true) (ds : Bytes) (i : Input)
    (p : Nat) (rest : Bytes) :
    scan lineByte { i with httpMinor := accumulate ds } .swMinorDigit p (es ++ rest) =
      scan lineByte { i with httpMinor := accumulate (ds ++ es) } .swMinorDigit (p + es.length)
        rest := by
  induction es generalizing ds p with
  | nil => simp
  | cons c es ih =>
    have hc := hes c List.mem_cons_self
    obtain ⟨-, hcr, hlf, hsp⟩ := digit_ne hc
    have hstep : lineByte { i with httpMinor := accumulate ds } .swMinorDigit p c =
        .next { i with httpMinor := accumulate (ds ++ [c]) } .swMinorDigit := by
      unfold lineByte
      dsimp only
      rw [if_neg (by simpa using hcr), if_neg (by simpa using hlf), if_neg (by simpa using hsp),
        not_notDigit hc, if_neg (by exact fun hx => by cases hx), accumulate_snoc]
    rw [List.cons_append, scan_next hstep,
      ih (fun x hx => hes x (List.mem_cons_of_mem _ hx)) (ds ++ [c]), List.length_cons,
      List.append_assoc, List.singleton_append, Nat.add_assoc, Nat.add_comm 1]

theorem tokenByte_ne {c : UInt8} (h : IsTokenByte c) :
    notMethodChar c = false ∧ c ≠ ' '.toUInt8 ∧ c ≠ CR ∧ c ≠ LF := by
  have hall : ∀ c : UInt8, (('A'.toUInt8 ≤ c ∧ c ≤ 'Z'.toUInt8) ∨ c = '_'.toUInt8) →
      notMethodChar c = false ∧ c ≠ ' '.toUInt8 ∧ c ≠ CR ∧ c ≠ LF := by
    decide +kernel
  exact hall c h

/-- The line ends in front of the method, and its first byte. -/
theorem scan_lead {lead : Bytes} (hlead : ∀ c ∈ lead, IsLineEnd c) {c : UInt8}
    (hc : IsTokenByte c) (i : Input) (p : Nat) (rest : Bytes) :
    scan lineByte i .swStart p (lead ++ c :: rest) =
      scan lineByte { i with requestStart := some (p + lead.length) } .swMethod
        (p + lead.length + 1) rest := by
  induction lead generalizing i p with
  | nil =>
    obtain ⟨h1, -, h3, h4⟩ := tokenByte_ne hc
    have hfirst : lineByte i .swStart p c = .next { i with requestStart := some p } .swMethod := by
      unfold lineByte
      simp [h1, h3, h4]
    exact scan_next hfirst rest
  | cons b lead ih =>
    have hb : (b == CR || b == LF) = true := by
      simpa [IsLineEnd] using hlead b List.mem_cons_self
    have hstep : lineByte i .swStart p b = .next { i with requestStart := some p } .swStart := by
      unfold lineByte
      dsimp only
      rw [if_pos hb]
    rw [List.cons_append, scan_next hstep, ih fun x hx => hlead x (List.mem_cons_of_mem _ hx),
      List.length_cons, Nat.add_assoc p 1, Nat.add_comm 1]

/-- The rest of the method token and the space behind it. -/
theorem scan_token {token : Bytes} (htok : ∀ c ∈ token, IsTokenByte c) {i : Input} {m : Nat}
    (hm : i.requestStart = some m) (p : Nat) (rest : Bytes) :
    scan lineByte i .swMethod p (token ++ (' '.toUInt8 :: rest)) =
      scan lineByte
        { i with
          methodEnd := some (p + token.length)
          method := methodOf i.buf m (p + token.length) i.method }
        .swSpacesBeforeUri (p + token.length + 1) rest := by
  have hloop : ∀ ch ∈ token, ∀ q, lineByte i .swMethod q ch = .next i .swMethod := by
    intro ch hch q
    obtain ⟨g1, g2, -, -⟩ := tokenByte_ne (htok ch hch)
    unfold lineByte
    dsimp only
    rw [if_neg (by simpa using g2), g1, if_neg (fun hx => by cases hx)]
  have hspace : lineByte i .swMethod (p + token.length) ' '.toUInt8 =
      .next
        { i with
          methodEnd := some (p + token.length)
          method := methodOf i.buf m (p + token.length) i.method } .swSpacesBeforeUri := by
    unfold lineByte
    dsimp only
    rw [if_pos (by decide), setMethod_eq, hm]
    rfl
  rw [scan_loop hloop, scan_next hspace]

/-- The URI and the spaces around it. -/
theorem scan_uri {gap uri : Bytes} (hgap : ∀ c ∈ gap, c = ' '.toUInt8)
    (hhead : uri.head? = some '/'.toUInt8) (hsp : ' '.toUInt8 ∉ uri) (i : Input) (p : Nat)
    (rest : Bytes) :
    scan lineByte i .swSpacesBeforeUri p (gap ++ (uri ++ (' '.toUInt8 :: rest))) =
      scan lineByte
        { i with
          uriStart := some (p + gap.length), uriEnd := some (p + gap.length + uri.length) }
        .swHttp (p + gap.length + uri.length + 1) rest := by
  have hblank : ∀ ch ∈ gap, ∀ q, lineByte i .swSpacesBeforeUri q ch =
      .next i .swSpacesBeforeUri := by
    intro ch hch q
    rw [hgap ch hch]
    rfl
  rw [scan_loop hblank]
  generalize p + gap.length = p
  cases uri with
  | nil => cases hhead
  | cons c uri =>
    obtain rfl : c = '/'.toUInt8 := Option.some.inj hhead
    have hfirst : lineByte i .swSpacesBeforeUri p '/'.toUInt8 =
        .next { i with uriStart := some p } .swAfterSlashInUri := rfl
    have hloop : ∀ ch ∈ uri, ∀ q, lineByte { i with uriStart := some p } .swAfterSlashInUri q ch =
        .next { i with uriStart := some p } .swAfterSlashInUri := by
      intro ch hch q
      have hne : ch ≠ ' '.toUInt8 := fun hx => hsp (hx ▸ List.mem_cons_of_mem _ hch)
      unfold lineByte
      dsimp only
      rw [if_neg (by simpa using hne)]
    have hspace : lineByte { i with uriStart := some p } .swAfterSlashInUri (p + 1 + uri.length)
        ' '.toUInt8 =
        .next { i with uriStart := some p, uriEnd := some (p + 1 + uri.length) } .swHttp := rfl
    rw [List.cons_append, scan_next hfirst, scan_loop hloop, scan_next hspace, List.length_cons,
      Nat.add_assoc p 1, Nat.add_comm 1 uri.length]

/-- The spaces, the CR and the LF at the end of a line. -/
theorem scan_ending {l : RequestLine} (hl : l.Ok) (i : Input) (p : Nat) (rest : Bytes) :
    scan lineByte i .swMinorDigit p (l.ending ++ rest) =
      .done { i with requestEnd := if l.cr then some (p + l.ending.length - 2) else i.requestEnd }
        (p + l.ending.length) := by
  have hend : ∀ st, st = .swMinorDigit ∨ st = .swSpacesAfterDigit → ∀ q,
      scan lineByte i st q ((if l.cr then [CR] else []) ++ [LF] ++ rest) =
        .done
          { i with
            requestEnd := if l.cr then some q else i.requestEnd }
          (q + ((if l.cr then [CR] else []) ++ [LF]).length) := by
    intro st hst q
    cases l.cr with
    | false => rcases hst with rfl | rfl <;> rfl
    | true => rcases hst with rfl | rfl <;> rfl
  rw [RequestLine.ending, List.append_assoc]
  cases hb : l.blanks with
  | nil =>
    rw [List.nil_append, List.nil_append, hend _ (.inl rfl)]
    cases hcr : l.cr with
    | false => rfl
    | true => rfl
  | cons c blanks =>
    have hall := hl.blanks
    rw [hb] at hall
    obtain rfl := hall c List.mem_cons_self
    have hfirst : lineByte i .swMinorDigit p ' '.toUInt8 = .next i .swSpacesAfterDigit := rfl
    have hloop : ∀ ch ∈ blanks, ∀ q, lineByte i .swSpacesAfterDigit q ch =
        .next i .swSpacesAfterDigit := by
      intro ch hch q
      rw [hall ch (List.mem_cons_of_mem _ hch)]
      rfl
    rw [List.cons_append, scan_next hfirst, scan_loop hloop, hend _ (.inr rfl)]
    cases hcr : l.cr with
    | false => simp [Nat.add_comm, Nat.add_left_comm]
    | true =>
      simp [Nat.add_comm, Nat.add_left_comm]
      omega

/-- The version and the end of the line. -/
theorem scan_version {l : RequestLine} (hl : l.Ok) (i : Input) (p : Nat) (rest : Bytes) :
    scan lineByte i .swHttp p (l.gap' ++ (l.version ++ rest)) =
      .done
        { i with
          httpMajor := accumulate l.major, httpMinor := accumulate l.minor
          requestEnd :=
            if l.cr then some (p + l.gap'.length + l.version.length - 2) else i.requestEnd }
        (p + l.gap'.length + l.version.length) := by
  have hblank : ∀ ch ∈ l.gap', ∀ q, lineByte i .swHttp q ch = .next i .swHttp := by
    intro ch hch q
    rw [hl.gap' ch hch]
    rfl
  rw [scan_loop hblank]
  generalize p + l.gap'.length = p
  have hending := scan_ending hl
  have hMd := hl.major
  have hM0 := hl.major_head
  have hmd := hl.minor
  unfold RequestLine.version
  cases hM : l.major with
  | nil => exact absurd hM hl.major_ne
  | cons c major =>
  cases hm : l.minor with
  | nil => exact absurd hm hl.minor_ne
  | cons d minor =>
    rw [hM] at hMd hM0
    rw [hm] at hmd
    have hc := hMd c List.mem_cons_self
    have hd := hmd d List.mem_cons_self
    have hhttp : ∀ s, scan lineByte i .swHttp p (ascii "HTTP/" ++ s) =
        scan lineByte i .swFirstMajorDigit (p + 5) s := fun s => rfl
    have hmaj : lineByte i .swFirstMajorDigit (p + 5) c =
        .next { i with httpMajor := accumulate [c] } .swMajorDigit := by
      have hno : notDigit '1'.toUInt8 c = false := by
        have hne : c ≠ '0'.toUInt8 := fun hx => hM0 (by rw [hx]; rfl)
        have hall : ∀ c : UInt8, isDigit c = true → c ≠ '0'.toUInt8 →
            notDigit '1'.toUInt8 c = false := by decide +kernel
        exact hall c hc hne
      unfold lineByte
      dsimp only
      rw [hno, if_neg (fun hx => by cases hx), accumulate_one hc]
    have hmin : ∀ q, lineByte { i with httpMajor := accumulate (c :: major) } .swFirstMinorDigit q
        d = .next { i with httpMajor := accumulate (c :: major), httpMinor := accumulate [d] }
          .swMinorDigit := by
      intro q
      unfold lineByte
      dsimp only
      rw [not_notDigit hd, if_neg (fun hx => by cases hx), accumulate_one hd]
    have hdot : ∀ q, lineByte { i with httpMajor := accumulate (c :: major) } .swMajorDigit q
        '.'.toUInt8 = .next { i with httpMajor := accumulate (c :: major) } .swFirstMinorDigit :=
      fun q => rfl
    have hmajor := @scan_major major (fun x hx => hMd x (List.mem_cons_of_mem _ hx)) [c] i
      (p + 5 + 1)
    have hminor := @scan_minor minor (fun x hx => hmd x (List.mem_cons_of_mem _ hx)) [d]
      { i with httpMajor := accumulate (c :: major) }
    rw [List.singleton_append] at hmajor hminor
    rw [List.append_assoc, hhttp, List.append_assoc, List.cons_append, scan_next hmaj, hmajor,
      List.cons_append, scan_next (hdot _), List.append_assoc, List.cons_append,
      scan_next (hmin _), hminor, hending]
    have h5 : (ascii "HTTP/").length = 5 := by decide
    have hq : p + 5 + 1 + major.length + 1 + 1 + minor.length + l.ending.length =
        p + (ascii "HTTP/" ++ (c :: major ++ ('.'.toUInt8 :: (d :: minor ++ l.ending)))).length := by
      simp only [List.length_append, List.length_cons, h5]
      omega
    rw [hq]

theorem length_render (l : RequestLine) : l.render.length =
    l.uriStart + l.uri.length + 1 + l.gap'.length + l.version.length := by
  unfold RequestLine.render RequestLine.uriStart
  simp only [List.length_append, List.length_cons]
  omega

/-- The fields after a request line at offset `p`, and where it ends. -/
theorem scan_line {l : RequestLine} (hl : l.Ok) (i : Input) (p : Nat) (rest : Bytes) :
    scan lineByte i .swStart p (l.render ++ rest) =
      .done
        { i with
          requestStart := some (p + l.tokenStart)
          methodEnd := some (p + l.tokenStart + l.token.length)
          method := methodOf i.buf (p + l.tokenStart) (p + l.tokenStart + l.token.length) i.method
          uriStart := some (p + l.uriStart), uriEnd := some (p + l.uriStart + l.uri.length)
          httpMajor := accumulate l.major, httpMinor := accumulate l.minor
          requestEnd := if l.cr then some (p + l.render.length - 2) else i.requestEnd }
        (p + l.render.length) := by
  have hlen := length_render l
  have htok := hl.token
  unfold RequestLine.render RequestLine.tokenStart
  cases ht : l.token with
  | nil => exact absurd ht hl.token_ne
  | cons c token =>
    rw [ht] at htok
    simp only [List.append_assoc, List.cons_append]
    rw [scan_lead hl.lead (htok c List.mem_cons_self),
      scan_token (fun x hx => htok x (List.mem_cons_of_mem _ hx)) rfl,
      scan_uri hl.gap hl.uri_head hl.uri, scan_version hl]
    have h1 : p + l.lead.length + 1 + token.length = p + l.lead.length + (c :: token).length := by
      rw [List.length_cons]
      omega
    have h2 : p + l.lead.length + 1 + token.length + 1 + l.gap.length = p + l.uriStart := by
      unfold RequestLine.uriStart
      rw [ht, List.length_cons]
      omega
    have h3 : p + l.uriStart + l.uri.length + 1 + l.gap'.length + l.version.length =
        p + l.render.length := by
      rw [hlen]
      omega
    have h4 : (l.lead ++ c :: (token ++ ' '.toUInt8 :: (l.gap ++ (l.uri ++ ' '.toUInt8 ::
        (l.gap' ++ l.version))))).length = l.render.length := by
      unfold RequestLine.render
      rw [ht]
      rfl
    rw [h4]
    dsimp only
    rw [h2, h3, h1]

/-! ### Which way a run ends -/

theorem scan_done_iff (i : Input) (s : Bytes) (k : Nat) :
    (∃ j, scan lineByte i .swStart 0 s = .done j k) ↔ k ≤ s.length ∧ InGrammar (s.take k) := by
  constructor
  · rintro ⟨j, h⟩
    obtain ⟨l, hl, u, rfl, rfl⟩ := scan_line_sound h
    rw [Nat.zero_add]
    refine ⟨by rw [List.length_append]; exact Nat.le_add_right _ _, l, hl, ?_⟩
    rw [List.take_left]
  · rintro ⟨hk, l, hl, hr⟩
    have hs : s = l.render ++ s.drop k := by rw [hr, List.take_append_drop]
    have hlen : l.render.length = k := by rw [hr, List.length_take, Nat.min_eq_left hk]
    have hscan := scan_line hl i 0 (s.drop k)
    rw [← hs, hlen] at hscan
    simp only [Nat.zero_add] at hscan
    exact ⟨_, hscan⟩

/-- Bytes that take each state to the end of a line. -/
def completion : LineState → Bytes
  | .swStart => ascii "GET / HTTP/1.1\n"
  | .swMethod => ascii " / HTTP/1.1\n"
  | .swSpacesBeforeUri => ascii "/ HTTP/1.1\n"
  | .swAfterSlashInUri => ascii " HTTP/1.1\n"
  | .swHttp => ascii "HTTP/1.1\n"
  | .swHttpH => ascii "TTP/1.1\n"
  | .swHttpHT => ascii "TP/1.1\n"
  | .swHttpHTT => ascii "P/1.1\n"
  | .swHttpHTTP => ascii "/1.1\n"
  | .swFirstMajorDigit => ascii "1.1\n"
  | .swMajorDigit => ascii ".1\n"
  | .swFirstMinorDigit => ascii "1\n"
  | .swMinorDigit => ascii "\n"
  | .swSpacesAfterDigit => ascii "\n"
  | .swAlmostDone => ascii "\n"

theorem scan_completion (i : Input) (state : LineState) (p : Nat) :
    ∃ j, scan lineByte i state p (completion state) = .done j (p + (completion state).length) := by
  cases state <;> exact ⟨_, rfl⟩

/-- More is wanted exactly when more bytes can make a line of the grammar and the bytes so
far do not. -/
theorem scan_more_iff (i : Input) (s : Bytes) :
    (∃ j st p, scan lineByte i .swStart 0 s = .more j st p) ↔
      (∃ t, InGrammar (s ++ t)) ∧ ∀ k ≤ s.length, ¬ InGrammar (s.take k) := by
  constructor
  · rintro ⟨j, st, p, h⟩
    refine ⟨⟨completion st, ?_⟩, fun k hk hg => ?_⟩
    · obtain ⟨j', hc⟩ := scan_completion j st p
      have hpos := scan_pos lineByte i .swStart 0 s
      rw [h, Nat.zero_add] at hpos
      have happ := @scan_append _ _ _ _ lineByte i .swStart 0 s (completion st)
      rw [h, Outcome.andThen, hc] at happ
      obtain ⟨-, hg⟩ := (scan_done_iff i (s ++ completion st) _).mp ⟨j', happ⟩
      rw [hpos, ← List.length_append, List.take_length] at hg
      exact hg
    · obtain ⟨j', hd⟩ := (scan_done_iff i s k).mpr ⟨hk, hg⟩
      rw [h] at hd
      cases hd
  · rintro ⟨⟨t, ht⟩, hno⟩
    cases h : scan lineByte i .swStart 0 s with
    | more j st p => exact ⟨j, st, p, rfl⟩
    | done j q =>
      obtain ⟨hle, hg⟩ := (scan_done_iff i s q).mp ⟨j, h⟩
      exact absurd hg (hno q hle)
    | fail j rc =>
      have happ := @scan_append _ _ _ _ lineByte i .swStart 0 s t
      rw [h, Outcome.andThen] at happ
      have hfull : InGrammar ((s ++ t).take (s ++ t).length) := by rwa [List.take_length]
      obtain ⟨j', hd⟩ := (scan_done_iff i (s ++ t) (s ++ t).length).mpr ⟨Nat.le_refl _, hfull⟩
      rw [happ] at hd
      cases hd

/-! ### Pieces -/

/-- The pieces do not matter: a call on all the bytes returns the same, and what it accepts
it leaves as the calls on the pieces do, except for the bytes that were not fed. -/
theorem feedWith_call {σ : Type} (P : Parser σ) {i : Input} {ps : List Bytes}
    (hpos : i.parsePos ≤ i.last) (hlast : i.last + ps.flatten.length ≤ MAX_BUF)
    (hmore : (P.call i).2 = .again) :
    (P.call (i.load ps.flatten)).2 = (feedWith P.call i ps).2 ∧
      ((feedWith P.call i ps).2 = .ok → ∃ rest,
        (P.call (i.load ps.flatten)).1 = (feedWith P.call i ps).1.load rest ∧
        (feedWith P.call i ps).1.parsePos ≤ (feedWith P.call i ps).1.last) := by
  induction ps generalizing i with
  | nil =>
    rw [List.flatten_nil, Input.load_nil]
    exact ⟨hmore, fun hx => by cases hx⟩
  | cons p ps ih =>
    rw [List.flatten_cons, List.length_append] at hlast
    rw [List.flatten_cons, Input.load_append]
    have hp : (i.load p).parsePos ≤ (i.load p).last := hpos.trans (Nat.le_add_right _ _)
    have hl : (i.load p).last + ps.flatten.length ≤ MAX_BUF := by
      show i.last + p.length + _ ≤ MAX_BUF
      omega
    have hframe : (P.call (i.load p)).1.last = (i.load p).last :=
      congrArg (fun x => x.2.1) (P.call_frame (i.load p))
    have hfeed : feedWith P.call i (p :: ps) =
        if (P.call (i.load p)).2 = .again then feedWith P.call (P.call (i.load p)).1 ps
        else P.call (i.load p) := by
      rw [feedWith]
      generalize P.call (i.load p) = r
      obtain ⟨k, rc⟩ := r
      cases rc <;> rfl
    rw [hfeed]
    split
    · next hagain =>
      have hres := P.call_resume hp hl hagain
      have hempty := @Parser.call_resume _ P _ hp [] (by simp; omega) hagain
      rw [Input.load_nil, Input.load_nil] at hempty
      have hend := (P.call_pos hp).1 hagain
      obtain ⟨hrc, hok⟩ := ih (by rw [hend, hframe]) (by rw [hframe]; exact hl)
        (hempty.1.trans hagain)
      refine ⟨hres.1.symm.trans hrc, fun hx => ?_⟩
      obtain ⟨rest, heq, hle⟩ := hok hx
      refine ⟨rest, ?_, hle⟩
      rw [← heq]
      exact (hres.2 (.inl (hrc.trans hx))).symm
    · next hdone =>
      rw [P.call_extend hp hl hdone]
      refine ⟨rfl, fun hx => ⟨ps.flatten, rfl, ?_⟩⟩
      rw [hframe]
      exact ((P.call_pos hp).2 hx).2

/-- A block that has just been initialised. -/
theorem call_init (old : Request) (fd : Fd) (cf : Conf) {s : Bytes} (hs : s.length ≤ MAX_BUF) :
    lineParser.call ((zvInitRequestT old fd cf).inp.load s) =
      lineParser.finish (scan lineByte ((zvInitRequestT old fd cf).inp.load s) .swStart 0 s) := by
  have hwin : ((zvInitRequestT old fd cf).inp.load s).window = s :=
    window_load_parsed rfl (by show 0 + _ ≤ _; rwa [Nat.zero_add])
  unfold Parser.call
  rw [hwin]
  rfl

/-- The fields after a request line that was accepted in pieces. -/
structure LineFields (l : RequestLine) (j : Input) : Prop where
  ok : l.Ok
  pos : j.parsePos = l.render.length
  method : j.span j.requestStart j.methodEnd = l.token
  uri : j.span j.uriStart j.uriEnd = l.uri
  major : j.httpMajor = accumulate l.major
  minor : j.httpMinor = accumulate l.minor

/-- The fields after one call that accepts, when bytes `rest` were not fed. -/
theorem lineFields_of_call {old : Request} {fd : Fd} {cf : Conf} {l : RequestLine} (hl : l.Ok)
    {u : Bytes} {j : Input} {rest : Bytes} (hle : j.parsePos ≤ j.last)
    (h : j.load rest = (lineParser.finish (scan lineByte
      ((zvInitRequestT old fd cf).inp.load (l.render ++ u)) .swStart 0 (l.render ++ u))).1) :
    LineFields l j := by
  rw [scan_line hl] at h
  simp only [Nat.zero_add] at h
  have hpos : j.parsePos = l.render.length := congrArg Input.parsePos h
  have hbuf : j.buf.slice 0 l.render.length = l.render := by
    have hmem : (j.load rest).buf = (zvInitRequestT old fd cf).inp.buf.write 0 (l.render ++ u) :=
      congrArg Input.buf h
    have hkeep : (j.buf.write j.last rest).slice 0 l.render.length =
        j.buf.slice 0 l.render.length := Mem.slice_write_before j.buf rest (hpos ▸ hle)
    rw [← hkeep]
    show (j.load rest).buf.slice 0 l.render.length = l.render
    rw [hmem, Mem.slice_write_zero _ _ (by rw [List.length_append]; exact Nat.le_add_right _ _),
      List.take_left]
  have hms : j.requestStart = some l.tokenStart := congrArg Input.requestStart h
  have hme : j.methodEnd = some (l.tokenStart + l.token.length) := congrArg Input.methodEnd h
  have hus : j.uriStart = some l.uriStart := congrArg Input.uriStart h
  have hue : j.uriEnd = some (l.uriStart + l.uri.length) := congrArg Input.uriEnd h
  refine ⟨hl, hpos, ?_, ?_, congrArg Input.httpMajor h, congrArg Input.httpMinor h⟩
  · have hpart := Mem.slice_part j.buf 0 l.render.length (hbuf.trans (List.append_assoc _ _ _).symm)
    rw [hms, hme]
    rw [Nat.zero_add] at hpart
    exact hpart
  · have hpart := Mem.slice_part j.buf 0 l.render.length
      (s := l.lead ++ (l.token ++ (' '.toUInt8 :: l.gap))) (t := l.uri)
      (u := ' '.toUInt8 :: (l.gap' ++ l.version))
      (by rw [hbuf, RequestLine.render]; simp only [List.append_assoc, List.cons_append])
    have hstart : (l.lead ++ (l.token ++ (' '.toUInt8 :: l.gap))).length = l.uriStart := by
      unfold RequestLine.uriStart
      simp only [List.length_append, List.length_cons]
      omega
    rw [hus, hue]
    rw [hstart, Nat.zero_add] at hpart
    exact hpart

/-- An error of the request line. -/
theorem lineByte_error {i j : Input} {state : LineState} {p : Nat} {ch : UInt8} {rc : ParseRc}
    (h : lineByte i state p ch = .fail j rc) : rc = .invalidMethod ∨ rc = .invalidRequest := by
  cases state <;> unfold lineByte at h <;> dsimp only at h <;> split_ifs at h <;>
    cases h <;> simp

/-! ### Errors -/

/-- The states behind the method token. -/
def BehindMethod (state : LineState) : Prop := state ≠ .swStart ∧ state ≠ .swMethod

theorem behindMethod_next {i j : Input} {state state' : LineState} {p : Nat} {ch : UInt8}
    (hb : BehindMethod state) (h : lineByte i state p ch = .next j state') : BehindMethod state' := by
  cases state with
  | swStart => exact absurd rfl hb.1
  | swMethod => exact absurd rfl hb.2
  | _ =>
    simp only [lineByte] at h
    split_ifs at h <;> cases h <;> exact ⟨(fun hx => by cases hx), fun hx => by cases hx⟩

theorem behindMethod_fail {i j : Input} {state : LineState} {p : Nat} {ch : UInt8} {rc : ParseRc}
    (hb : BehindMethod state) (h : lineByte i state p ch = .fail j rc) : rc = .invalidRequest := by
  cases state with
  | swStart => exact absurd rfl hb.1
  | swMethod => exact absurd rfl hb.2
  | _ =>
    simp only [lineByte] at h
    split_ifs at h <;> cases h <;> rfl

/-- Behind the method token only `ZV_HTTP_PARSE_INVALID_REQUEST` is returned. -/
theorem uri_error {i j : Input} {state : LineState} (hb : BehindMethod state) {p : Nat} {s : Bytes}
    {rc : ParseRc} (h : scan lineByte i state p s = .fail j rc) : rc = .invalidRequest := by
  induction s generalizing i state p with
  | nil => cases h
  | cons ch s ih =>
    rw [scan] at h
    cases hs : lineByte i state p ch with
    | next i' state' =>
      rw [hs] at h
      exact ih (behindMethod_next hb hs) h
    | done i' =>
      rw [hs] at h
      cases h
    | fail i' rc' =>
      rw [hs] at h
      obtain ⟨-, rfl⟩ := Outcome.fail.inj h
      exact behindMethod_fail hb hs

/-- The error code says whether the method was read. -/
theorem method_error {i j : Input} {p : Nat} {s : Bytes} {rc : ParseRc}
    (h : scan lineByte i .swMethod p s = .fail j rc) :
    rc = .invalidRequest ↔ Many IsTokenByte (One (· = ' '.toUInt8) fun _ => True) s := by
  induction s generalizing i p with
  | nil => cases h
  | cons ch s ih =>
    rw [scan] at h
    unfold lineByte at h
    dsimp only at h
    split at h
    · next i' state' heq =>
      split_ifs at heq with hsp hbad
      · obtain ⟨-, rfl⟩ := Step.next.inj heq
        exact ⟨fun _ => Many.skip (One.intro (eq_of_beq hsp) trivial),
          fun _ => uri_error ⟨(fun hx => by cases hx), fun hx => by cases hx⟩ h⟩
      · obtain ⟨rfl, rfl⟩ := Step.next.inj heq
        have htok := isTokenByte_of (Bool.eq_false_of_not_eq_true hbad)
        refine (ih h).trans ⟨Many.cons htok, fun hx => ?_⟩
        rcases Many.cases hx with ⟨-, hx⟩ | ⟨_, _, hcons, hc, -⟩
        · exact hx
        · obtain ⟨rfl, -⟩ := List.cons.inj hcons
          exact absurd hc (tokenByte_ne htok).2.1
    · next i' heq => split_ifs at heq
    · next i' rc' heq =>
      split_ifs at heq with hsp hbad
      obtain ⟨-, rfl⟩ := Step.fail.inj heq
      obtain ⟨-, rfl⟩ := Outcome.fail.inj h
      refine ⟨(fun hx => by cases hx), fun hx => ?_⟩
      rcases Many.cases hx with ⟨hc, -⟩ | ⟨_, _, hcons, hc, -⟩
      · exact absurd (tokenByte_ne hc).1 (by rw [hbad]; exact fun hx => by cases hx)
      · obtain ⟨rfl, -⟩ := List.cons.inj hcons
        exact absurd (beq_iff_eq.mpr hc) hsp

theorem start_error {i j : Input} {p : Nat} {s : Bytes} {rc : ParseRc}
    (h : scan lineByte i .swStart p s = .fail j rc) : rc = .invalidRequest ↔ MethodRead s := by
  induction s generalizing i p with
  | nil => cases h
  | cons ch s ih =>
    rw [scan] at h
    unfold lineByte at h
    dsimp only at h
    split at h
    · next i' state' heq =>
      split_ifs at heq with hend hbad
      · obtain ⟨rfl, rfl⟩ := Step.next.inj heq
        have hline : IsLineEnd ch := by simpa [IsLineEnd] using hend
        refine (ih h).trans ⟨Many.cons hline, fun hx => ?_⟩
        rcases Many.cases hx with ⟨-, hx⟩ | ⟨_, _, hcons, hc, -⟩
        · exact hx
        · obtain ⟨rfl, -⟩ := List.cons.inj hcons
          obtain ⟨-, -, hcr, hlf⟩ := tokenByte_ne hc
          exact (hline.elim hcr hlf).elim
      · obtain ⟨rfl, rfl⟩ := Step.next.inj heq
        have htok := isTokenByte_of (Bool.eq_false_of_not_eq_true hbad)
        refine (method_error h).trans ⟨fun hx => Many.skip (One.intro htok hx), fun hx => ?_⟩
        rcases Many.cases hx with ⟨hc, -⟩ | ⟨_, _, hcons, -, hx⟩
        · obtain ⟨-, -, hcr, hlf⟩ := tokenByte_ne htok
          exact (hc.elim hcr hlf).elim
        · obtain ⟨-, rfl⟩ := List.cons.inj hcons
          exact hx
    · next i' heq => split_ifs at heq
    · next i' rc' heq =>
      split_ifs at heq with hend hbad
      obtain ⟨-, rfl⟩ := Step.fail.inj heq
      obtain ⟨-, rfl⟩ := Outcome.fail.inj h
      refine ⟨(fun hx => by cases hx), fun hx => ?_⟩
      rcases Many.cases hx with ⟨hc, -⟩ | ⟨_, _, hcons, hc, -⟩
      · exact absurd (by simpa [IsLineEnd] using hc) hend
      · obtain ⟨rfl, -⟩ := List.cons.inj hcons
        exact absurd (tokenByte_ne hc).1 (by rw [hbad]; exact fun hx => by cases hx)

/-- What the parser makes of a byte string. -/
inductive LineResult (s : Bytes) (j : Input) : ParseRc → Prop
  | more : (∃ t, InGrammar (s ++ t)) → (∀ k ≤ s.length, ¬ InGrammar (s.take k)) →
      LineResult s j .again
  | done (l : RequestLine) (u : Bytes) : l.Ok → s = l.render ++ u →
      (∀ k ≤ s.length, InGrammar (s.take k) → k = l.render.length) →
      (∀ l' : RequestLine, l'.Ok → ∀ u', s = l'.render ++ u' → LineFields l' j) →
      LineResult s j .ok
  | error (rc : ParseRc) : rc = .invalidMethod ∨ rc = .invalidRequest →
      (∀ t, ¬ InGrammar (s ++ t)) → (∀ k ≤ s.length, ¬ InGrammar (s.take k)) →
      (rc = .invalidRequest ↔ MethodRead s) → LineResult s j rc

/-- The calls on the pieces of a stream, on a block that has just been initialised. -/
theorem feed_line {old : Request} {fd : Fd} {cf : Conf} {ps : List Bytes} {j : Input} {rc : ParseRc}
    (hsize : ps.flatten.length ≤ 8123)
    (h : feedWith zvHttpParseRequestLine (zvInitRequestT old fd cf).inp ps = (j, rc)) :
    LineResult ps.flatten j rc := by
  have hmax : ps.flatten.length ≤ MAX_BUF := hsize.trans (by decide)
  have hfun : zvHttpParseRequestLine = lineParser.call := funext parseLine_eq
  obtain ⟨hrc, hok⟩ := @feedWith_call _ lineParser (zvInitRequestT old fd cf).inp ps (Nat.le_refl 0)
    (by show 0 + _ ≤ _; rwa [Nat.zero_add]) rfl
  rw [hfun] at h
  rw [h, call_init old fd cf hmax] at hrc hok
  have hdone := scan_done_iff ((zvInitRequestT old fd cf).inp.load ps.flatten) ps.flatten
  have hmore := scan_more_iff ((zvInitRequestT old fd cf).inp.load ps.flatten) ps.flatten
  cases hscan : scan lineByte ((zvInitRequestT old fd cf).inp.load ps.flatten) .swStart 0
      ps.flatten with
  | more i st p =>
    rw [hscan] at hrc
    obtain ⟨hex, hno⟩ := hmore.mp ⟨i, st, p, hscan⟩
    obtain rfl : .again = rc := hrc
    exact .more hex hno
  | done i q =>
    obtain ⟨l, hl, u, hu, hq⟩ := scan_line_sound hscan
    rw [hscan] at hrc hdone
    obtain rfl : .ok = rc := hrc
    obtain ⟨rest, heq, hle⟩ := hok rfl
    refine .done l u hl hu (fun k hk hg => ?_) fun l' hl' u' hu' => ?_
    · obtain ⟨_, hx⟩ := (hdone k).mpr ⟨hk, hg⟩
      rw [← (Outcome.done.inj hx).2, hq, Nat.zero_add]
    · rw [hu'] at heq
      exact lineFields_of_call hl' hle heq.symm
  | fail i rc' =>
    rw [hscan] at hrc hdone hmore
    obtain rfl : rc' = rc := hrc
    have hno : ∀ k ≤ ps.flatten.length, ¬ InGrammar (ps.flatten.take k) := by
      intro k hk hg
      obtain ⟨_, hx⟩ := (hdone k).mpr ⟨hk, hg⟩
      cases hx
    refine .error rc' (scan_fail (fun _ _ _ _ _ _ => lineByte_error) hscan) (fun t ht => ?_) hno
      (start_error hscan)
    obtain ⟨_, _, _, hx⟩ := hmore.mpr ⟨⟨t, ht⟩, hno⟩
    cases hx

/-! ### The URI in the bytes -/

theorem skipLineEnds_render {l : RequestLine} (hl : l.Ok) (u : Bytes) :
    ∃ c token, l.token = c :: token ∧ skipLineEnds (l.render ++ u) =
      l.token ++ (' '.toUInt8 :: (l.gap ++ (l.uri ++ (' '.toUInt8 :: (l.gap' ++ l.version ++ u))))) := by
  have hlead : ∀ x ∈ l.lead, (x == CR || x == LF) = true := by
    intro x hx
    simpa [IsLineEnd] using hl.lead x hx
  cases ht : l.token with
  | nil => exact absurd ht hl.token_ne
  | cons c token =>
    have hc : IsTokenByte c := hl.token c (by rw [ht]; exact List.mem_cons_self)
    obtain ⟨-, -, hcr, hlf⟩ := tokenByte_ne hc
    refine ⟨c, token, rfl, ?_⟩
    unfold skipLineEnds RequestLine.render
    rw [List.append_assoc, List.dropWhile_append_of_pos hlead, ht, List.cons_append,
      List.cons_append, List.dropWhile_cons_of_neg (by simp [hcr, hlf])]
    simp only [List.append_assoc, List.cons_append]

/-- The URI stands where `uriText` looks for it. -/
theorem uriText_render {l : RequestLine} (hl : l.Ok) (u : Bytes) :
    uriText (l.render ++ u) = l.uri := by
  have htok : ∀ x ∈ l.token, (x != ' '.toUInt8) = true := by
    intro x hx
    simpa using (tokenByte_ne (hl.token x hx)).2.1
  have hgap : ∀ x ∈ l.gap, (x == ' '.toUInt8) = true := by
    intro x hx
    simpa using hl.gap x hx
  have huri : ∀ x ∈ l.uri, (x != ' '.toUInt8) = true := by
    intro x hx
    have hne : x ≠ ' '.toUInt8 := fun heq => hl.uri (heq ▸ hx)
    simpa using hne
  obtain ⟨c, token, -, hskip⟩ := skipLineEnds_render hl u
  obtain ⟨uri, hhead⟩ : ∃ uri, l.uri = '/'.toUInt8 :: uri := by
    have hslash := hl.uri_head
    cases hu : l.uri with
    | nil =>
      rw [hu] at hslash
      cases hslash
    | cons b uri =>
      rw [hu] at hslash
      obtain rfl : b = '/'.toUInt8 := Option.some.inj hslash
      exact ⟨uri, rfl⟩
  have hslash : ∀ t : Bytes, (l.uri ++ t).dropWhile (· == ' '.toUInt8) = l.uri ++ t := by
    intro t
    rw [hhead]
    rfl
  unfold uriText
  rw [hskip, List.dropWhile_append_of_pos htok, List.dropWhile_cons_of_neg (by decide),
    List.dropWhile_cons_of_pos (by decide), List.dropWhile_append_of_pos hgap, hslash,
    List.takeWhile_append_of_pos huri, List.takeWhile_cons_of_neg (by decide), List.append_nil]

/-- The bytes of a line up to its end. -/
def lineBody (l : RequestLine) : Bytes :=
  l.token ++ (' '.toUInt8 :: (l.gap ++ (l.uri ++ (' '.toUInt8 :: (l.gap' ++ (ascii "HTTP/" ++
    (l.major ++ ('.'.toUInt8 :: (l.minor ++ l.blanks)))))))))

/-- A line end in a line stands in its URI. -/
theorem not_mem_lineBody {l : RequestLine} (hl : l.Ok) {c : UInt8} (hc : c = CR ∨ c = LF)
    (huri : c ∉ l.uri) : c ∉ lineBody l := by
  have hsp : c ≠ ' '.toUInt8 ∧ c ≠ '.'.toUInt8 ∧ c ∉ ascii "HTTP/" ∧ isDigit c ≠ true := by
    rcases hc with rfl | rfl <;> decide
  have htok : c ∉ l.token := by
    intro hx
    obtain ⟨-, -, hcr, hlf⟩ := tokenByte_ne (hl.token c hx)
    exact hc.elim hcr hlf
  unfold lineBody
  simp only [List.mem_append, List.mem_cons, not_or]
  exact ⟨htok, hsp.1, (fun hx => hsp.1 (hl.gap c hx)), huri, hsp.1, (fun hx => hsp.1 (hl.gap' c hx)),
    hsp.2.2.1, (fun hx => hsp.2.2.2 (hl.major c hx)), hsp.2.1,
    (fun hx => hsp.2.2.2 (hl.minor c hx)), fun hx => hsp.1 (hl.blanks c hx)⟩

theorem skipLineEnds_line {l : RequestLine} (hl : l.Ok) :
    skipLineEnds l.render = lineBody l ++ ((if l.cr then [CR] else []) ++ [LF]) := by
  obtain ⟨c, token, -, hskip⟩ := skipLineEnds_render hl []
  rw [List.append_nil] at hskip
  rw [hskip]
  unfold lineBody RequestLine.version RequestLine.ending
  simp only [List.append_assoc, List.cons_append, List.append_nil]

end RequestLineLemmas

open RequestLineLemmas

/-! ## One line -/

/-- What is accepted is one line, with no line end in the URI, exactly when the URI in the
bytes has none: the state inside a URI takes every byte but a space. -/
theorem request_line_one_line_iff (old : Request) (fd : Fd) (cf : Conf) {ps : List Bytes}
    (hsize : ps.flatten.length ≤ 8123) {j : Input}
    (h : feedWith zvHttpParseRequestLine (zvInitRequestT old fd cf).inp ps = (j, .ok)) :
    (OneLine (skipLineEnds (ps.flatten.take j.parsePos)) ∧
        CR ∉ j.span j.uriStart j.uriEnd ∧ LF ∉ j.span j.uriStart j.uriEnd) ↔
      CR ∉ uriText ps.flatten ∧ LF ∉ uriText ps.flatten := by
  cases feed_line hsize h with
  | done l u hl hu _ hfields =>
    have hf := hfields l hl u hu
    rw [hf.pos, hf.uri, hu, uriText_render hl, List.take_left, skipLineEnds_line hl]
    refine ⟨fun hx => hx.2, fun hx => ⟨⟨lineBody l, not_mem_lineBody hl (.inl rfl) hx.1,
      not_mem_lineBody hl (.inr rfl) hx.2, ?_⟩, hx⟩⟩
    cases l.cr with
    | false => exact .inl rfl
    | true => exact .inr rfl
  | error _ herr => rcases herr with herr | herr <;> cases herr

theorem request_line_one_line_iff_hello :
    let ps := [ascii "GET /a", ascii "b HTTP/1.1\r\n"]
    ∃ j, feedWith zvHttpParseRequestLine (zvInitRequestT Request.zero 7 ⟨none, 0, 0⟩).inp ps =
        (j, .ok) ∧
      ((OneLine (skipLineEnds (ps.flatten.take j.parsePos)) ∧
          CR ∉ j.span j.uriStart j.uriEnd ∧ LF ∉ j.span j.uriStart j.uriEnd) ↔
        CR ∉ uriText ps.flatten ∧ LF ∉ uriText ps.flatten) := by
  intro ps
  have hrc : (feedWith zvHttpParseRequestLine (zvInitRequestT Request.zero 7 ⟨none, 0, 0⟩).inp
      ps).2 = .ok := by decide +kernel
  exact ⟨_, Prod.ext rfl hrc, request_line_one_line_iff Request.zero 7 ⟨none, 0, 0⟩ (by decide)
    (Prod.ext rfl hrc)⟩

/-- A header line becomes part of the URI. -/
theorem request_line_swallows_header :
    let ps := [ascii "GET /a\r\nHost:x HTTP/1.1\r\n"]
    ∃ j, feedWith zvHttpParseRequestLine (zvInitRequestT Request.zero 7 ⟨none, 0, 0⟩).inp ps =
        (j, .ok) ∧
      j.span j.uriStart j.uriEnd = ascii "/a\r\nHost:x" ∧
      ¬ (OneLine (skipLineEnds (ps.flatten.take j.parsePos)) ∧
        CR ∉ j.span j.uriStart j.uriEnd ∧ LF ∉ j.span j.uriStart j.uriEnd) := by
  intro ps
  have hrc : (feedWith zvHttpParseRequestLine (zvInitRequestT Request.zero 7 ⟨none, 0, 0⟩).inp
      ps).2 = .ok := by decide +kernel
  have huri : ascii "/a\r\nHost:x" = (fun j : Input => j.span j.uriStart j.uriEnd)
      (feedWith zvHttpParseRequestLine (zvInitRequestT Request.zero 7 ⟨none, 0, 0⟩).inp ps).1 := by
    decide +kernel
  generalize feedWith zvHttpParseRequestLine (zvInitRequestT Request.zero 7 ⟨none, 0, 0⟩).inp ps =
    res at hrc huri
  obtain ⟨j, rc⟩ := res
  obtain rfl : rc = .ok := hrc
  have huri : j.span j.uriStart j.uriEnd = ascii "/a\r\nHost:x" := huri.symm
  refine ⟨j, rfl, huri, fun hx => hx.2.1 ?_⟩
  rw [huri]
  decide

end Zaver
