import Zaver.Cgi
import Zaver.RequestLine

/-!
# The lines of a script's header

Which lines of a script's header set the status and the content type, told by the parts of
the line, and how `parse_status_code` and `parse_content_type` read the same lines. The type is
read as it is written (`parseContentType_iff`). The number of a `Status:` line goes through an
`int` first, so a number far outside 100..599 can come out inside (`parseStatusCode_iff`).
-/

namespace Zaver

open CString

/-- A space or a tab. -/
def IsGap (c : UInt8) : Prop := c = ' '.toUInt8 ∨ c = 9

instance (c : UInt8) : Decidable (IsGap c) := inferInstanceAs (Decidable (_ ∨ _))

/-- A `Status:` line in its parts. -/
structure StatusField where
  lead : Bytes
  name : Bytes
  gap : Bytes
  sign : Bytes
  digits : Bytes
  rest : Bytes

def StatusField.text (f : StatusField) : Bytes :=
  f.lead ++ f.name ++ f.gap ++ f.sign ++ f.digits ++ f.rest

/-- The number with its sign. -/
def signed (sign digits : Bytes) : Int :=
  if sign = ascii "-" then -(decimal digits : Int) else decimal digits

structure StatusField.Valid (f : StatusField) : Prop where
  lead : ∀ c ∈ f.lead, IsGap c
  name : f.name.map toLower = ascii "status:"
  gap : ∀ c ∈ f.gap, isSpace c = true
  sign : f.sign = [] ∨ f.sign = ascii "+" ∨ f.sign = ascii "-"
  some : f.digits ≠ []
  digits : ∀ c ∈ f.digits, isDigit c = true
  rest : ∀ c ∈ f.rest.head?, isDigit c = false

/-- The value of a `Status:` line begins with the number `n`. -/
def StatusNumber (line : Bytes) (n : Int) : Prop :=
  ∃ f : StatusField, f.Valid ∧ f.text = line ∧ signed f.sign f.digits = n

/-- A valid `Status:` line. -/
def ValidStatus (line : Bytes) (status : Nat) : Prop :=
  StatusNumber line status ∧ 100 ≤ status ∧ status ≤ 599

/-- What `atoi` makes of a number: a `long` of 64 bits that stops at its bounds, cut to an
`int`. -/
def asInt (n : Int) : Int := wrapInt (max (-2 ^ 63) (min (2 ^ 63 - 1) n))

/-- A `Status:` line whose number is valid once it is an `int`. -/
def CutStatus (line : Bytes) (status : Nat) : Prop :=
  ∃ n, StatusNumber line n ∧ asInt n = status ∧ 100 ≤ status ∧ status ≤ 599

/-- A `Content-Type:` line in its parts. A NUL ends the line. -/
structure TypeField where
  lead : Bytes
  name : Bytes
  gap : Bytes
  value : Bytes
  ends : Bytes
  tail : Bytes

def TypeField.text (f : TypeField) : Bytes :=
  f.lead ++ f.name ++ f.gap ++ f.value ++ f.ends ++ f.tail

structure TypeField.Valid (f : TypeField) : Prop where
  lead : ∀ c ∈ f.lead, IsGap c
  name : f.name.map toLower = ascii "content-type:"
  gap : ∀ c ∈ f.gap, IsGap c
  some : f.value ≠ []
  noNul : 0 ∉ f.value
  front : ∀ c ∈ f.value.head?, ¬ IsGap c
  back : ∀ c ∈ f.value.getLast?, c ≠ CR ∧ c ≠ LF
  ends : ∀ c ∈ f.ends, c = CR ∨ c = LF
  tail : ∀ c ∈ f.tail.head?, c = 0

/-- A `Content-Type:` line whose value fits the 256 bytes it is copied to. -/
def FittingType (line value : Bytes) : Prop :=
  ∃ f : TypeField, f.Valid ∧ f.text = line ∧ f.value = value ∧ value.length < 256

/-- What the last line that says something says, `dflt` if none does. -/
def LastOf {α : Type} (Says : Bytes → α → Prop) (dflt : α) (lines : List Bytes) (y : α) : Prop :=
  (∃ front line back, lines = front ++ line :: back ∧ Says line y ∧
      ∀ l ∈ back, ∀ x, ¬ Says l x) ∨
    (y = dflt ∧ ∀ l ∈ lines, ∀ x, ¬ Says l x)

namespace CgiHeaderLinesLemmas

/-! ### The front of a line -/

theorem dropWhile_front {p : UInt8 → Bool} {a b : Bytes} (ha : ∀ c ∈ a, p c = true)
    (hb : ∀ c ∈ b.head?, p c = false) : (a ++ b).dropWhile p = b := by
  rw [List.dropWhile_append_of_pos ha]
  cases b with
  | nil => rfl
  | cons c b => exact List.dropWhile_cons_of_neg (by rw [hb c rfl]; exact Bool.false_ne_true)

theorem takeWhile_front {p : UInt8 → Bool} {a b : Bytes} (ha : ∀ c ∈ a, p c = true)
    (hb : ∀ c ∈ b.head?, p c = false) : (a ++ b).takeWhile p = a := by
  rw [List.takeWhile_append_of_pos ha]
  cases b with
  | nil => exact List.append_nil a
  | cons c b =>
    rw [List.takeWhile_cons_of_neg (by rw [hb c rfl]; exact Bool.false_ne_true), List.append_nil]

theorem head?_dropWhile {p : UInt8 → Bool} {s : Bytes} : ∀ c ∈ (s.dropWhile p).head?, p c = false := by
  intro c hc
  have hnot := List.head?_dropWhile_not p s
  rw [Option.mem_def.mp hc] at hnot
  simpa using hnot

theorem skip_iff {c : UInt8} : (c == ' '.toUInt8 || c == 9) = true ↔ IsGap c := by
  rw [Bool.or_eq_true, beq_iff_eq, beq_iff_eq]
  rfl

theorem skip_false_iff {c : UInt8} : (c == ' '.toUInt8 || c == 9) = false ↔ ¬ IsGap c := by
  rw [← skip_iff, Bool.not_eq_true]

theorem skipBlanks_front {a b : Bytes} (ha : ∀ c ∈ a, IsGap c) (hb : ∀ c ∈ b.head?, ¬ IsGap c) :
    skipBlanks (a ++ b) = b :=
  dropWhile_front (fun c hc => skip_iff.mpr (ha c hc)) fun c hc => skip_false_iff.mpr (hb c hc)

/-- The blanks that are skipped, and what they stand in front of. -/
theorem skipBlanks_split (s : Bytes) :
    ∃ gap, s = gap ++ skipBlanks s ∧ (∀ c ∈ gap, IsGap c) ∧
      ∀ c ∈ (skipBlanks s).head?, ¬ IsGap c := by
  refine ⟨_, List.takeWhile_append_dropWhile.symm, fun c hc => ?_, fun c hc => ?_⟩
  · have hx := List.mem_takeWhile_imp hc
    exact skip_iff.mp hx
  · exact skip_false_iff.mp (head?_dropWhile c hc)

theorem isSpace_of_isGap {c : UInt8} (h : IsGap c) : isSpace c = true := by
  cases h with
  | inl hc => rw [hc]; decide
  | inr hc => rw [hc]; decide

theorem not_mem_of_isGap {s : Bytes} (h : ∀ c ∈ s, IsGap c) : (0 : UInt8) ∉ s := by
  intro h0
  cases h 0 h0 with
  | inl hx => exact absurd hx (by decide)
  | inr hx => exact absurd hx (by decide)

theorem rdropWhile_back {p : UInt8 → Bool} {a b : Bytes} (ha : ∀ c ∈ a.getLast?, p c = false)
    (hb : ∀ c ∈ b, p c = true) : (a ++ b).rdropWhile p = a := by
  unfold List.rdropWhile
  rw [List.reverse_append, dropWhile_front (fun c hc => hb c (List.mem_reverse.mp hc)),
    List.reverse_reverse]
  rw [List.head?_reverse]
  exact ha

/-- What the cut at the end of a line leaves, and what it takes off. -/
theorem rdropWhile_split (p : UInt8 → Bool) (s : Bytes) :
    ∃ ends, s = s.rdropWhile p ++ ends ∧ (∀ c ∈ ends, p c = true) ∧
      ∀ c ∈ (s.rdropWhile p).getLast?, p c = false := by
  refine ⟨s.rtakeWhile p, List.rdropWhile_append_rtakeWhile.symm, fun c hc => ?_,
    fun c hc => ?_⟩
  · exact List.mem_takeWhile_imp (List.mem_reverse.mp hc)
  · unfold List.rdropWhile at hc
    rw [List.getLast?_reverse] at hc
    exact head?_dropWhile c hc

/-! ### The name of a line -/

/-- A name that the code looks for: nothing in it is a blank or a NUL. -/
structure FieldName (lit : Bytes) : Prop where
  some : lit ≠ []
  plain : ∀ c, toLower c ∈ lit.map toLower → ¬ IsGap c ∧ c ≠ 0

theorem FieldName.no_nul {lit name : Bytes} (h : FieldName lit)
    (hname : name.map toLower = lit.map toLower) : (0 : UInt8) ∉ name := by
  intro h0
  have hmem := List.mem_map_of_mem (f := toLower) h0
  rw [hname] at hmem
  exact (h.plain 0 hmem).2 rfl

theorem FieldName.zero {lit : Bytes} (h : FieldName lit) : toLower 0 ∉ lit.map toLower :=
  fun h0 => (h.plain 0 h0).2 rfl

/-- The parts of a line with the name. -/
theorem name_split {s lit : Bytes} (hlit : FieldName lit)
    (h : strncasecmpEq (skipBlanks (cstr s)) lit lit.length = true) :
    ∃ lead name tail, s = lead ++ name ++ (skipBlanks (cstr s)).drop lit.length ++ tail ∧
      (∀ c ∈ lead, IsGap c) ∧ name.map toLower = lit.map toLower ∧
      0 ∉ (skipBlanks (cstr s)).drop lit.length ∧ ∀ c ∈ tail.head?, c = 0 := by
  obtain ⟨lead, hsplit, hlead, -⟩ := skipBlanks_split (cstr s)
  obtain ⟨tail, hs, htail⟩ := cstr_split s
  have hnul : (0 : UInt8) ∉ skipBlanks (cstr s) := by
    intro h0
    have hmem := List.mem_append_right lead h0
    rw [← hsplit] at hmem
    exact cstr_no_nul s hmem
  rw [strncasecmpEq_length_iff hnul hlit.zero] at h
  refine ⟨lead, (skipBlanks (cstr s)).take lit.length, tail, ?_, hlead, h, ?_, htail⟩
  · rw [List.append_assoc lead, List.take_append_drop, ← hsplit]
    exact hs
  · exact fun h0 => hnul (List.mem_of_mem_drop h0)

/-- A line made of the parts has the name. -/
theorem name_join {lit lead name rest tail : Bytes} (hlit : FieldName lit)
    (hlead : ∀ c ∈ lead, IsGap c) (hname : name.map toLower = lit.map toLower)
    (hrest : (0 : UInt8) ∉ rest) (htail : ∀ c ∈ tail.head?, c = 0) :
    strncasecmpEq (skipBlanks (cstr (lead ++ name ++ rest ++ tail))) lit lit.length = true ∧
      (skipBlanks (cstr (lead ++ name ++ rest ++ tail))).drop lit.length = rest := by
  have hno := hlit.no_nul hname
  have hlen : name.length = lit.length := by
    have hx := congrArg List.length hname
    rwa [List.length_map, List.length_map] at hx
  have hnul : (0 : UInt8) ∉ lead ++ name ++ rest := by
    rw [List.mem_append, List.mem_append]
    rintro ((hx | hx) | hx)
    · exact not_mem_of_isGap hlead hx
    · exact hno hx
    · exact hrest hx
  have hhead : ∀ c ∈ (name ++ rest).head?, ¬ IsGap c := by
    intro c hc
    cases name with
    | nil => exact absurd (List.length_eq_zero_iff.mp hlen.symm) hlit.some
    | cons d name =>
      obtain rfl := Option.some.inj (Option.mem_def.mp hc)
      exact (hlit.plain d (hname ▸ List.mem_cons_self)).1
  rw [cstr_append hnul htail, List.append_assoc, skipBlanks_front hlead hhead]
  constructor
  · rw [strncasecmpEq_length_iff _ hlit.zero, ← hlen, List.take_left]
    · exact hname
    · intro hx
      refine hnul ?_
      rw [List.append_assoc]
      exact List.mem_append_right _ hx
  · rw [← hlen, List.drop_left]

theorem status_name : FieldName (ascii "Status:") := ⟨by decide, by decide +kernel⟩

theorem type_name : FieldName (ascii "Content-Type:") := ⟨by decide, by decide +kernel⟩

/-! ### Numbers -/

theorem signOf_split (s : Bytes) :
    ∃ sign, s = sign ++ (signOf s).2 ∧ (sign = [] ∨ sign = ascii "+" ∨ sign = ascii "-") ∧
      (signOf s).1 = decide (sign = ascii "-") := by
  cases s with
  | nil => exact ⟨[], rfl, .inl rfl, by decide⟩
  | cons c s =>
    rw [signOf]
    split
    · next hc => exact ⟨ascii "-", by rw [hc]; rfl, .inr (.inr rfl), rfl⟩
    · split
      · next hc => exact ⟨ascii "+", by rw [hc]; rfl, .inr (.inl rfl), rfl⟩
      · exact ⟨[], rfl, .inl rfl, rfl⟩

/-- A digit is no sign and no blank. -/
theorem digit_plain : ∀ c : UInt8, isDigit c = true →
    c ≠ '-'.toUInt8 ∧ c ≠ '+'.toUInt8 ∧ isSpace c = false ∧ c ≠ 0 := by decide +kernel

theorem signOf_join {sign s : Bytes} (hsign : sign = [] ∨ sign = ascii "+" ∨ sign = ascii "-")
    (hs : ∀ c ∈ s.head?, isDigit c = true) :
    signOf (sign ++ s) = (decide (sign = ascii "-"), s) := by
  rcases hsign with rfl | rfl | rfl
  · cases s with
    | nil => rfl
    | cons c s =>
      obtain ⟨hminus, hplus, -⟩ := digit_plain c (hs c rfl)
      show signOf (c :: s) = _
      rw [signOf, if_neg hminus, if_neg hplus]
      rfl
  · rfl
  · rfl

/-- The number in front of a text, as it is written. -/
def numberIn (s : Bytes) : Int :=
  if (signOf (s.dropWhile isSpace)).1 = true
    then -(decimal ((signOf (s.dropWhile isSpace)).2.takeWhile isDigit) : Int)
    else decimal ((signOf (s.dropWhile isSpace)).2.takeWhile isDigit)

theorem atoi_eq (s : Bytes) : atoi s = asInt (numberIn s) := rfl

theorem numberIn_join {gap sign digits rest : Bytes} (hgap : ∀ c ∈ gap, isSpace c = true)
    (hsign : sign = [] ∨ sign = ascii "+" ∨ sign = ascii "-") (hne : digits ≠ [])
    (hdigits : ∀ c ∈ digits, isDigit c = true) (hrest : ∀ c ∈ rest.head?, isDigit c = false) :
    numberIn (gap ++ (sign ++ (digits ++ rest))) = signed sign digits := by
  have hfirst : ∀ c ∈ (digits ++ rest).head?, isDigit c = true := by
    intro c hc
    cases digits with
    | nil => exact absurd rfl hne
    | cons d digits =>
      obtain rfl := Option.some.inj (Option.mem_def.mp hc)
      exact hdigits d List.mem_cons_self
  have hhead : ∀ c ∈ (sign ++ (digits ++ rest)).head?, isSpace c = false := by
    intro c hc
    rcases hsign with rfl | rfl | rfl
    · exact (digit_plain c (hfirst c hc)).2.2.1
    · obtain rfl := Option.some.inj (Option.mem_def.mp hc)
      decide
    · obtain rfl := Option.some.inj (Option.mem_def.mp hc)
      decide
  rw [numberIn, dropWhile_front hgap hhead, signOf_join hsign hfirst]
  dsimp only
  rw [takeWhile_front hdigits hrest]
  unfold signed
  by_cases hm : sign = ascii "-"
  · rw [if_pos hm, if_pos (decide_eq_true hm)]
  · rw [if_neg hm, if_neg (by rw [decide_eq_false hm]; exact Bool.false_ne_true)]

/-- The parts of a text in which `atoi` finds a number. -/
theorem number_split {s : Bytes} (h : atoi s ≠ 0) :
    ∃ gap sign digits rest, s = gap ++ (sign ++ (digits ++ rest)) ∧
      (∀ c ∈ gap, isSpace c = true) ∧ (sign = [] ∨ sign = ascii "+" ∨ sign = ascii "-") ∧
      digits ≠ [] ∧ (∀ c ∈ digits, isDigit c = true) ∧ ∀ c ∈ rest.head?, isDigit c = false := by
  obtain ⟨sign, hsplit, hsign, hneg⟩ := signOf_split (s.dropWhile isSpace)
  refine ⟨s.takeWhile isSpace, sign, (signOf (s.dropWhile isSpace)).2.takeWhile isDigit,
    (signOf (s.dropWhile isSpace)).2.dropWhile isDigit, ?_,
    fun c hc => List.mem_takeWhile_imp hc, hsign, ?_, fun c hc => List.mem_takeWhile_imp hc,
    head?_dropWhile⟩
  · rw [List.takeWhile_append_dropWhile, ← hsplit, List.takeWhile_append_dropWhile]
  · intro hnil
    rw [atoi_eq, numberIn, hnil] at h
    refine h ?_
    split
    · decide
    · decide

theorem numberIn_skipBlanks (s : Bytes) : numberIn (skipBlanks s) = numberIn s := by
  obtain ⟨gap, hs, hgap, -⟩ := skipBlanks_split s
  have hdrop : s.dropWhile isSpace = (skipBlanks s).dropWhile isSpace := by
    conv_lhs => rw [hs]
    exact List.dropWhile_append_of_pos fun c hc => isSpace_of_isGap (hgap c hc)
  rw [numberIn, numberIn, hdrop]

/-- A valid status fits an `int`. -/
theorem asInt_of_valid {n : Nat} (h : n ≤ 599) : asInt n = n := by
  unfold asInt wrapInt
  rw [min_eq_right (by omega), max_eq_right (by omega), Int.bmod_eq_of_le] <;> omega

/-! ### The two lines -/

/-- A `Status:` line, and its number, where `parse_status_code` looks for them. -/
theorem StatusNumber.read {line : Bytes} {n : Int} (h : StatusNumber line n) :
    strncasecmpEq (skipBlanks (cstr line)) (ascii "Status:") 7 = true ∧
      numberIn ((skipBlanks (cstr line)).drop 7) = n := by
  obtain ⟨f, hf, rfl, rfl⟩ := h
  -- What stands behind a NUL is not read, and a NUL ends the digits as well.
  obtain ⟨tail, hrest, htail⟩ := cstr_split f.rest
  have hstop : ∀ c ∈ (cstr f.rest).head?, isDigit c = false := by
    intro c hc
    refine hf.rest c ?_
    rw [hrest, List.head?_append, Option.mem_def.mp hc]
    rfl
  have hnul : (0 : UInt8) ∉ f.gap ++ (f.sign ++ (f.digits ++ cstr f.rest)) := by
    rw [List.mem_append, List.mem_append, List.mem_append]
    rintro (hx | hx | hx | hx)
    · exact absurd (hf.gap 0 hx) (by decide)
    · rcases hf.sign with hs | hs | hs <;> rw [hs] at hx <;> exact absurd hx (by decide)
    · exact absurd (hf.digits 0 hx) (by decide)
    · exact cstr_no_nul _ hx
  have htext : f.text = f.lead ++ f.name ++ (f.gap ++ (f.sign ++ (f.digits ++ cstr f.rest))) ++
      tail := by
    conv_lhs => rw [StatusField.text, hrest]
    simp only [List.append_assoc]
  obtain ⟨hname, hvalue⟩ := name_join status_name hf.lead hf.name hnul htail
  rw [← htext] at hname hvalue
  have hseven : (ascii "Status:").length = 7 := by decide
  rw [hseven] at hname hvalue
  rw [hvalue]
  exact ⟨hname, numberIn_join hf.gap hf.sign hf.some hf.digits hstop⟩

theorem StatusNumber.unique {line : Bytes} {m n : Int} (h : StatusNumber line m)
    (h' : StatusNumber line n) : m = n := (StatusNumber.read h).2.symm.trans (StatusNumber.read h').2

theorem parseStatusCode_iff {line : Bytes} {status : Nat} :
    parseStatusCode line = some status ↔ CutStatus line status := by
  constructor
  · intro h
    unfold parseStatusCode at h
    dsimp only at h
    split at h
    · next hname =>
      split at h
      · next hrange =>
        have hseven : (ascii "Status:").length = 7 := by decide
        rw [← hseven] at hname h hrange
        obtain ⟨lead, name, tail, hline, hlead, hmap, hnul, htail⟩ := name_split status_name hname
        obtain rfl := Option.some.inj h
        -- `atoi` skips blanks itself, so those skipped in front of it are part of the gap.
        rw [atoi_eq, numberIn_skipBlanks, ← atoi_eq] at hrange ⊢
        generalize (skipBlanks (cstr line)).drop (ascii "Status:").length = value at *
        obtain ⟨gap, sign, digits, rest, rfl, hgap, hsign, hne, hdigits, hrest⟩ :=
          number_split (s := value) (by omega)
        have hjoin := numberIn_join hgap hsign hne hdigits hrest
        refine ⟨signed sign digits, ⟨⟨lead, name, gap, sign, digits, rest ++ tail⟩,
          ⟨hlead, hmap, hgap, hsign, hne, hdigits, fun c hc => ?_⟩, ?_, rfl⟩, ?_, ?_⟩
        · cases rest with
          | nil =>
            obtain rfl := htail c hc
            decide
          | cons d rest => exact hrest c hc
        · rw [hline]
          simp only [StatusField.text, List.append_assoc]
        · rw [← hjoin, ← atoi_eq]
          omega
        · omega
      · cases h
    · cases h
  · rintro ⟨n, hnumber, hint, hlow, hhigh⟩
    obtain ⟨hname, hvalue⟩ := StatusNumber.read hnumber
    unfold parseStatusCode
    dsimp only
    rw [if_pos hname, atoi_eq, numberIn_skipBlanks, hvalue, hint, if_pos (by omega),
      Int.toNat_natCast]

theorem parseContentType_iff {line value : Bytes} :
    parseContentType line 256 = some value ↔ FittingType line value := by
  have hlen : (ascii "Content-Type:").length = 13 := by decide
  have hend : ∀ c : UInt8, (c == CR || c == LF) = true ↔ c = CR ∨ c = LF := by
    intro c
    rw [Bool.or_eq_true, beq_iff_eq, beq_iff_eq]
  have hback : ∀ c : UInt8, (c == CR || c == LF) = false ↔ c ≠ CR ∧ c ≠ LF := by
    intro c
    rw [Bool.or_eq_false_iff, beq_eq_false_iff_ne, beq_eq_false_iff_ne]
  constructor
  · intro h
    unfold parseContentType at h
    dsimp only at h
    split at h
    · next hname =>
      rw [← hlen] at hname h
      obtain ⟨lead, name, tail, hline, hlead, hmap, hnul, htail⟩ := name_split type_name hname
      generalize (skipBlanks (cstr line)).drop (ascii "Content-Type:").length = text at *
      -- the blanks in front, the line end behind, and the value between them
      obtain ⟨gap, htext, hgap, hfront⟩ := skipBlanks_split text
      generalize skipBlanks text = p at *
      obtain ⟨ends, hp, hends, hlast⟩ := rdropWhile_split (fun c => c == CR || c == LF) p
      generalize p.rdropWhile (fun c => c == CR || c == LF) = v at *
      split at h
      · cases h
      · next hne =>
        split at h
        · cases h
        · next hfit =>
          obtain rfl := Option.some.inj h
          subst hp htext
          refine ⟨⟨lead, name, gap, v, ends, tail⟩, ⟨hlead, hmap, hgap,
            fun hx => hne (List.length_eq_zero_iff.mpr hx), fun hx => ?_, fun c hc => ?_,
            fun c hc => (hback c).mp (hlast c hc), fun c hc => (hend c).mp (hends c hc), htail⟩,
            ?_, rfl, by omega⟩
          · exact hnul (List.mem_append_right _ (List.mem_append_left _ hx))
          · refine hfront c ?_
            rw [List.head?_append, Option.mem_def.mp hc]
            rfl
          · rw [hline]
            simp only [TypeField.text, List.append_assoc]
    · cases h
  · rintro ⟨f, hf, rfl, rfl, hfit⟩
    have hnul : (0 : UInt8) ∉ f.gap ++ (f.value ++ f.ends) := by
      rw [List.mem_append, List.mem_append]
      rintro (hx | hx | hx)
      · exact not_mem_of_isGap hf.gap hx
      · exact hf.noNul hx
      · cases hf.ends 0 hx with
        | inl h0 => exact absurd h0 (by decide)
        | inr h0 => exact absurd h0 (by decide)
    have hfirst : ∀ c ∈ (f.value ++ f.ends).head?, ¬ IsGap c := by
      intro c hc
      refine hf.front c ?_
      rw [List.head?_append_of_ne_nil _ hf.some] at hc
      exact hc
    have htext : f.text = f.lead ++ f.name ++ (f.gap ++ (f.value ++ f.ends)) ++ f.tail := by
      simp only [TypeField.text, List.append_assoc]
    obtain ⟨hname, hvalue⟩ := name_join type_name hf.lead hf.name hnul hf.tail
    rw [← htext] at hname hvalue
    rw [hlen] at hname hvalue
    have hcut := rdropWhile_back (p := fun c => c == CR || c == LF)
      (fun c hc => (hback c).mpr (hf.back c hc)) fun c hc => (hend c).mpr (hf.ends c hc)
    have hpos : ¬ f.value.length = 0 := fun hx => hf.some (List.length_eq_zero_iff.mp hx)
    unfold parseContentType
    dsimp only
    rw [if_pos hname, hvalue, skipBlanks_front hf.gap hfirst, hcut, if_neg hpos,
      if_neg (by omega)]

theorem CutStatus.of_valid {line : Bytes} {status : Nat} (h : ValidStatus line status) :
    CutStatus line status := ⟨status, h.1, asInt_of_valid h.2.2, h.2⟩

theorem ValidStatus.unique {line : Bytes} {m n : Nat} (h : ValidStatus line m)
    (h' : ValidStatus line n) : m = n := Int.ofNat.inj (StatusNumber.unique h.1 h'.1)

theorem CutStatus.unique {line : Bytes} {m n : Nat} (h : CutStatus line m) (h' : CutStatus line n) :
    m = n :=
  Option.some.inj ((parseStatusCode_iff.mpr h).symm.trans (parseStatusCode_iff.mpr h'))

theorem FittingType.unique {line v w : Bytes} (h : FittingType line v) (h' : FittingType line w) :
    v = w :=
  Option.some.inj ((parseContentType_iff.mpr h).symm.trans (parseContentType_iff.mpr h'))

/-- A valid `Status:` line, read without an `int`. -/
def validCode (line : Bytes) : Option Nat :=
  (parseStatusCode line).filter fun n => numberIn ((skipBlanks (cstr line)).drop 7) = n

theorem validCode_iff {line : Bytes} {status : Nat} :
    validCode line = some status ↔ ValidStatus line status := by
  rw [validCode, Option.filter_eq_some_iff, decide_eq_true_iff, parseStatusCode_iff]
  constructor
  · rintro ⟨⟨n, hnumber, -, hrange⟩, hread⟩
    rw [(StatusNumber.read hnumber).2] at hread
    exact ⟨hread ▸ hnumber, hrange⟩
  · exact fun h => ⟨CutStatus.of_valid h, (StatusNumber.read h.1).2⟩

/-! ### The last line that says something -/

variable {α : Type} {Says : Bytes → α → Prop} {dflt : α}

theorem lastOf_nil {y : α} : LastOf Says dflt [] y ↔ y = dflt := by
  constructor
  · rintro (⟨front, line, back, hlines, -⟩ | ⟨hy, -⟩)
    · exact absurd (congrArg List.length hlines) (by simp)
    · exact hy
  · exact fun hy => .inr ⟨hy, fun l hl => absurd hl List.not_mem_nil⟩

theorem lastOf_concat {lines : List Bytes} {l : Bytes} {y : α} :
    LastOf Says dflt (lines ++ [l]) y ↔
      Says l y ∨ (∀ x, ¬ Says l x) ∧ LastOf Says dflt lines y := by
  constructor
  · rintro (⟨front, line, back, hlines, hval, hback⟩ | ⟨hy, hno⟩)
    · -- the line that says something is `l` itself, or stands in front of it
      rcases List.eq_nil_or_concat back with rfl | ⟨back, last, rfl⟩
      · obtain ⟨-, heq⟩ := List.append_inj' hlines rfl
        obtain rfl := (List.cons.inj heq).1
        exact .inl hval
      · rw [List.concat_eq_append, ← List.cons_append, ← List.append_assoc] at hlines
        obtain ⟨hfront, heq⟩ := List.append_inj' hlines rfl
        obtain rfl := (List.cons.inj heq).1
        exact .inr ⟨hback l (by simp), .inl ⟨front, line, back, hfront, hval,
          fun k hk => hback k (by simp [hk])⟩⟩
    · exact .inr ⟨hno l (by simp), .inr ⟨hy, fun k hk => hno k (List.mem_append_left _ hk)⟩⟩
  · rintro (hval | ⟨hl, ⟨front, line, back, rfl, hval, hback⟩ | ⟨hy, hno⟩⟩)
    · exact .inl ⟨lines, l, [], rfl, hval, fun k hk => absurd hk List.not_mem_nil⟩
    · refine .inl ⟨front, line, back ++ [l], by simp, hval, fun k hk => ?_⟩
      cases List.mem_append.mp hk with
      | inl hk => exact hback k hk
      | inr hk =>
        obtain rfl := List.mem_singleton.mp hk
        exact hl
    · refine .inr ⟨hy, fun k hk => ?_⟩
      cases List.mem_append.mp hk with
      | inl hk => exact hno k hk
      | inr hk =>
        obtain rfl := List.mem_singleton.mp hk
        exact hl

theorem LastOf.unique (hval : ∀ l x y, Says l x → Says l y → x = y) {lines : List Bytes} {x y : α}
    (h : LastOf Says dflt lines x) (h' : LastOf Says dflt lines y) : x = y := by
  induction lines using List.reverseRecOn with
  | nil => rw [lastOf_nil.mp h, lastOf_nil.mp h']
  | append_singleton lines l ih =>
    rcases lastOf_concat.mp h with hx | ⟨hno, hx⟩
    · rcases lastOf_concat.mp h' with hy | ⟨hno, -⟩
      · exact hval l x y hx hy
      · exact absurd hx (hno x)
    · rcases lastOf_concat.mp h' with hy | ⟨-, hy⟩
      · exact absurd hy (hno y)
      · exact ih hx hy

theorem lastOf_exists (Says : Bytes → α → Prop) (dflt : α) (lines : List Bytes) :
    ∃ y, LastOf Says dflt lines y := by
  induction lines using List.reverseRecOn with
  | nil => exact ⟨dflt, lastOf_nil.mpr rfl⟩
  | append_singleton lines l ih =>
    by_cases hl : ∃ y, Says l y
    · obtain ⟨y, hy⟩ := hl
      exact ⟨y, lastOf_concat.mpr (.inl hy)⟩
    · push Not at hl
      obtain ⟨y, hy⟩ := ih
      exact ⟨y, lastOf_concat.mpr (.inr ⟨hl, hy⟩)⟩

/-- A function that reads the lines finds the last one. -/
theorem lastOf_filterMap {read : Bytes → Option α} (hread : ∀ l y, read l = some y ↔ Says l y)
    (dflt : α) (lines : List Bytes) :
    LastOf Says dflt lines ((lines.filterMap read).getLast?.getD dflt) := by
  induction lines using List.reverseRecOn with
  | nil => exact lastOf_nil.mpr rfl
  | append_singleton lines l ih =>
    rw [List.filterMap_append]
    cases hl : read l with
    | none =>
      rw [List.filterMap_cons_none hl, List.filterMap_nil, List.append_nil]
      refine lastOf_concat.mpr (.inr ⟨fun x hx => ?_, ih⟩)
      rw [(hread l x).mpr hx] at hl
      cases hl
    | some y =>
      rw [List.filterMap_cons_some hl, List.filterMap_nil, List.getLast?_concat]
      exact lastOf_concat.mpr (.inl ((hread l y).mp hl))

end CgiHeaderLinesLemmas

end Zaver
