import Mathlib

/-!
# Bytes and flat memory

The vocabulary the other modules share: byte strings, ASCII literals, C string
comparison, and a fixed buffer seen as a function from offsets to cells.

A buffer is never cut to its live part. Whoever owns it keeps a length counter
beside it, and what lies past the counter is whatever an earlier use left
there. `Mem.slice` is the only way the contents are read back as a list, so a
lemma below says for each kind of write which slices it changes.
-/

/-- A byte string. -/
abbrev Bytes := List UInt8

/-- The bytes of an ASCII literal. -/
def ascii (s : String) : Bytes := s.toList.map Char.toUInt8

/-- Carriage return. -/
def CR : UInt8 := 13

/-- Line feed. -/
def LF : UInt8 := 10

/-- The two-byte line end. -/
def CRLF : Bytes := [CR, LF]

/-! ## C strings -/

namespace CString

/-- The bytes before the first NUL: what a `%s` conversion or a `str*` function
sees of a buffer. -/
def cstr (s : Bytes) : Bytes := s.takeWhile (· != 0)

/-- ASCII lower case, as the comparison of `strncasecmp` folds it. -/
def toLower (c : UInt8) : UInt8 :=
  if 'A'.toUInt8 ≤ c ∧ c ≤ 'Z'.toUInt8 then c + 32 else c

/-- `strncmp a b n == 0`, up to a folding `f` of single characters. Reading past
the end of a list gives the terminating NUL. -/
def eqN (f : UInt8 → UInt8) : Nat → Bytes → Bytes → Bool
  | 0, _, _ => true
  | n + 1, a, b =>
    let x := a.headD 0
    let y := b.headD 0
    f x == f y && (x == 0 || eqN f n a.tail b.tail)

/-- `strncmp(a, b, n) == 0`. -/
def strncmpEq (a b : Bytes) (n : Nat) : Bool := eqN id n a b

/-- `strncasecmp(a, b, n) == 0`. -/
def strncasecmpEq (a b : Bytes) (n : Nat) : Bool := eqN toLower n a b

/-- The value of an `int` expression, wrapped to 32 bits. -/
def wrapInt (x : Int) : Int := x.bmod (2 ^ 32)

/-- `isspace` in the C locale. -/
def isSpace (c : UInt8) : Bool := c == ' '.toUInt8 || (9 ≤ c && c ≤ 13)

/-- `isdigit`. -/
def isDigit (c : UInt8) : Bool := '0'.toUInt8 ≤ c && c ≤ '9'.toUInt8

/-- The sign of a number, and the rest. -/
def signOf : Bytes → Bool × Bytes
  | [] => (false, [])
  | c :: s =>
    if c = '-'.toUInt8 then (true, s) else if c = '+'.toUInt8 then (false, s) else (false, c :: s)

/-- `atoi`, which is `strtol` in base 10 (clamped to a 64-bit `long`) cut to an `int`. -/
def atoi (s : Bytes) : Int :=
  let (neg, ds) := signOf (s.dropWhile isSpace)
  let n : Nat := (ds.takeWhile isDigit).foldl (fun acc c => acc * 10 + (c.toNat - 48)) 0
  let x : Int := if neg then -(n : Int) else n
  wrapInt (max (-2 ^ 63) (min (2 ^ 63 - 1) x))

theorem cstr_of_no_nul {s : Bytes} (h : (0 : UInt8) ∉ s) : cstr s = s := by
  unfold cstr
  rw [List.takeWhile_eq_self_iff]
  intro x hx
  have hne : x ≠ 0 := fun h0 => h (h0 ▸ hx)
  simpa using hne

theorem cstr_no_nul (s : Bytes) : (0 : UInt8) ∉ cstr s :=
  fun h => absurd (List.mem_takeWhile_imp h) (by decide)

/-- A NUL ends a string, as the end of the buffer does. -/
theorem cstr_append {s t : Bytes} (h : (0 : UInt8) ∉ s) (ht : ∀ c ∈ t.head?, c = 0) :
    cstr (s ++ t) = s := by
  have hpos : ∀ c ∈ s, (c != 0) = true := fun c hc => bne_iff_ne.mpr fun h0 => h (h0 ▸ hc)
  have hnil : t.takeWhile (· != 0) = [] := by
    cases t with
    | nil => rfl
    | cons c t =>
      obtain rfl := ht c rfl
      rfl
  rw [cstr, List.takeWhile_append_of_pos hpos, hnil, List.append_nil]

/-- Behind the string is a NUL, or the end of the buffer. -/
theorem cstr_split (s : Bytes) : ∃ t, s = cstr s ++ t ∧ ∀ c ∈ t.head?, c = 0 := by
  refine ⟨s.dropWhile (· != 0), List.takeWhile_append_dropWhile.symm, fun c hc => ?_⟩
  have hnot := List.head?_dropWhile_not (· != 0) s
  rw [Option.mem_def.mp hc] at hnot
  simpa using hnot

/-- Comparing with a NUL-free literal over exactly its length is a prefix test. -/
theorem strncmpEq_length_iff {a lit : Bytes} (h : (0 : UInt8) ∉ lit) :
    strncmpEq a lit lit.length = true ↔ lit <+: a := by
  unfold strncmpEq
  induction lit generalizing a with
  | nil => simp [eqN]
  | cons c cs ih =>
    have hc : c ≠ 0 := fun h0 => h (by simp [h0])
    have hcs : (0 : UInt8) ∉ cs := fun h0 => h (by simp [h0])
    cases a with
    | nil => simp [eqN, Ne.symm hc]
    | cons x xs =>
      simp only [List.length_cons, eqN, List.headD_cons, id_eq, List.tail_cons, Bool.and_eq_true,
        beq_iff_eq, Bool.or_eq_true, List.cons_prefix_cons, ih hcs]
      constructor
      · rintro ⟨rfl, h0 | hp⟩
        · exact absurd h0 hc
        · exact ⟨rfl, hp⟩
      · rintro ⟨rfl, hp⟩
        exact ⟨rfl, Or.inr hp⟩

/-- `a` is the front of `lit` up to the folding `f`, or goes on behind `lit` with a NUL. -/
def Abbreviates (f : UInt8 → UInt8) (a lit : Bytes) : Prop :=
  a.map f <+: lit.map f ∨ ∃ t u, a = t ++ 0 :: u ∧ t.map f = lit.map f

/-- Comparing a text with a NUL-free literal over the length of the text. -/
theorem eqN_length_iff {f : UInt8 → UInt8} (hf : ∀ x, f x = f 0 → x = 0) {a lit : Bytes}
    (h : (0 : UInt8) ∉ lit) : eqN f a.length a lit = true ↔ Abbreviates f a lit := by
  induction a generalizing lit with
  | nil => exact ⟨fun _ => .inl List.nil_prefix, fun _ => rfl⟩
  | cons x a ih =>
    cases lit with
    | nil =>
      simp only [List.length_cons, eqN, List.headD_cons, List.headD_nil, List.tail_cons,
        List.tail_nil, Bool.and_eq_true, beq_iff_eq, Bool.or_eq_true]
      constructor
      · rintro ⟨hx, -⟩
        exact .inr ⟨[], a, by rw [hf x hx]; rfl, rfl⟩
      · rintro (hpre | ⟨t, u, heq, ht⟩)
        · exact absurd hpre (by simp)
        · obtain rfl : t = [] := List.map_eq_nil_iff.mp ht
          obtain ⟨rfl, -⟩ := List.cons.inj heq
          exact ⟨rfl, .inl rfl⟩
    | cons y lit =>
      have hy : y ≠ 0 := fun h0 => h (by simp [h0])
      have hlit : (0 : UInt8) ∉ lit := fun h0 => h (by simp [h0])
      simp only [List.length_cons, eqN, List.headD_cons, List.tail_cons, Bool.and_eq_true,
        beq_iff_eq, Bool.or_eq_true, ih hlit]
      constructor
      · rintro ⟨hxy, hx | hpre | ⟨t, u, rfl, ht⟩⟩
        · exact absurd (hf y (by rw [← hxy, hx])) hy
        · exact .inl (List.cons_prefix_cons.mpr ⟨hxy, hpre⟩)
        · exact .inr ⟨x :: t, u, rfl, by rw [List.map_cons, List.map_cons, hxy, ht]⟩
      · rintro (hpre | ⟨t, u, heq, ht⟩)
        · obtain ⟨hxy, hpre⟩ := List.cons_prefix_cons.mp hpre
          exact ⟨hxy, .inr (.inl hpre)⟩
        · cases t with
          | nil => cases ht
          | cons z t =>
            obtain ⟨rfl, rfl⟩ := List.cons.inj heq
            obtain ⟨hxy, ht⟩ := List.cons.inj ht
            exact ⟨hxy, .inr (.inr ⟨t, u, rfl, ht⟩)⟩

theorem eqN_comm {f : UInt8 → UInt8} (hf : ∀ x, f x = f 0 → x = 0) (n : Nat) (a b : Bytes) :
    eqN f n a b = eqN f n b a := by
  induction n generalizing a b with
  | zero => rfl
  | succ n ih =>
    simp only [eqN, ih a.tail b.tail]
    by_cases hxy : f (a.headD 0) = f (b.headD 0)
    · have hzero : (a.headD 0 == 0) = (b.headD 0 == 0) := by
        rw [Bool.eq_iff_iff, beq_iff_eq, beq_iff_eq]
        exact ⟨fun hx => hf _ (by rw [← hxy, hx]), fun hy => hf _ (by rw [hxy, hy])⟩
      rw [hxy, hzero]
    · rw [beq_false_of_ne hxy, beq_false_of_ne (Ne.symm hxy), Bool.false_and, Bool.false_and]

/-- A text without NUL that folds to the literal, and one that folds to something else. -/
theorem abbreviates_map_iff {f : UInt8 → UInt8} {a b lit : Bytes}
    (hab : a.map f = b) (hb : f 0 ∉ b) : Abbreviates f a lit ↔ b <+: lit.map f := by
  refine ⟨fun h => ?_, fun h => .inl (hab ▸ h)⟩
  rcases h with h | ⟨t, u, rfl, -⟩
  · exact hab ▸ h
  · refine absurd ?_ hb
    rw [← hab]
    exact List.mem_map_of_mem (List.mem_append_right _ List.mem_cons_self)

theorem toLower_zero : ∀ x : UInt8, toLower x = toLower 0 → x = 0 := by decide +kernel

/-- Comparing a string with a literal over exactly the length of the literal. -/
theorem strncasecmpEq_length_iff {a lit : Bytes} (ha : (0 : UInt8) ∉ a)
    (hlit : toLower 0 ∉ lit.map toLower) :
    strncasecmpEq a lit lit.length = true ↔ (a.take lit.length).map toLower = lit.map toLower := by
  unfold strncasecmpEq
  rw [eqN_comm toLower_zero, eqN_length_iff toLower_zero ha, abbreviates_map_iff rfl hlit,
    List.prefix_iff_eq_take, List.length_map, List.map_take]
  exact eq_comm

end CString

/-! ## Flat memory -/

/-- A buffer: one cell per offset. -/
abbrev Mem (α : Type) := Nat → α

namespace Mem

variable {α : Type}

/-- `memcpy(m + off, d, d.length)`. -/
def write (m : Mem α) (off : Nat) (d : List α) : Mem α :=
  fun i => if off ≤ i then (d[i - off]?).getD (m i) else m i

/-- The cells `m[lo..hi)`. -/
def slice (m : Mem α) (lo hi : Nat) : List α := (List.range' lo (hi - lo)).map m

/-- `memmove(m + dst, m + src, n)`. -/
def move (m : Mem α) (dst src n : Nat) : Mem α := m.write dst (m.slice src (src + n))

@[simp] theorem length_slice (m : Mem α) (lo hi : Nat) : (m.slice lo hi).length = hi - lo := by
  simp [slice]

@[simp] theorem slice_self (m : Mem α) (lo : Nat) : m.slice lo lo = [] := by
  simp [slice]

theorem slice_of_le (m : Mem α) {lo hi : Nat} (h : hi ≤ lo) : m.slice lo hi = [] := by
  simp [slice, Nat.sub_eq_zero_of_le h]

theorem getElem?_slice (m : Mem α) (lo hi i : Nat) :
    (m.slice lo hi)[i]? = if i < hi - lo then some (m (lo + i)) else none := by
  unfold slice
  rw [List.getElem?_map]
  split
  · next h => rw [List.getElem?_range' h]; simp
  · next h => rw [List.getElem?_eq_none (by simpa using h)]; rfl

theorem slice_append (m : Mem α) {lo mid hi : Nat} (h1 : lo ≤ mid) (h2 : mid ≤ hi) :
    m.slice lo hi = m.slice lo mid ++ m.slice mid hi := by
  unfold slice
  rw [← List.map_append]
  congr 1
  have hs : hi - lo = (mid - lo) + (hi - mid) := by omega
  rw [hs, ← List.range'_append_1, Nat.add_sub_cancel' h1]

theorem drop_slice (m : Mem α) (lo hi k : Nat) : (m.slice lo hi).drop k = m.slice (lo + k) hi := by
  apply List.ext_getElem?
  intro i
  rw [List.getElem?_drop, getElem?_slice, getElem?_slice, Nat.add_assoc]
  have hiff : k + i < hi - lo ↔ i < hi - (lo + k) := by omega
  simp only [hiff]

theorem take_slice (m : Mem α) {lo hi k : Nat} (h : lo + k ≤ hi) :
    (m.slice lo hi).take k = m.slice lo (lo + k) := by
  rw [slice_append m (Nat.le_add_right lo k) h]
  have hk : (m.slice lo (lo + k)).length = k := by simp
  exact List.take_left' hk

theorem slice_congr {m m' : Mem α} {lo hi : Nat} (h : ∀ i, lo ≤ i → i < hi → m i = m' i) :
    m.slice lo hi = m'.slice lo hi := by
  unfold slice
  refine List.map_congr_left fun i hi' => ?_
  rw [List.mem_range'_1] at hi'
  exact h i hi'.1 (by omega)

/-- A slice that ends before a write is not changed by it. -/
theorem slice_write_before (m : Mem α) (d : List α) {lo hi off : Nat} (h : hi ≤ off) :
    (m.write off d).slice lo hi = m.slice lo hi := by
  refine slice_congr fun i _ hi' => ?_
  exact if_neg (by omega)

/-- What was written reads back. -/
theorem slice_write_self (m : Mem α) (off : Nat) (d : List α) :
    (m.write off d).slice off (off + d.length) = d := by
  apply List.ext_getElem?
  intro i
  rw [getElem?_slice, Nat.add_sub_cancel_left]
  split
  · next h => simp [write, List.getElem?_eq_getElem h]
  · next h => rw [List.getElem?_eq_none (by omega)]

/-- Appending at the end of a live window extends the window. -/
theorem slice_write_append (m : Mem α) (d : List α) {lo hi : Nat} (h : lo ≤ hi) :
    (m.write hi d).slice lo (hi + d.length) = m.slice lo hi ++ d := by
  rw [slice_append _ h (Nat.le_add_right hi d.length), slice_write_before m d (Nat.le_refl hi),
    slice_write_self]

/-- A shorter slice of what was written at offset `0`. -/
theorem slice_write_zero (m : Mem α) (d : List α) {k : Nat} (h : k ≤ d.length) :
    (m.write 0 d).slice 0 k = d.take k := by
  have hd := slice_write_self m 0 d
  rw [Nat.zero_add] at hd
  rw [← hd, take_slice _ (by simpa using h), hd, Nat.zero_add]

/-- `memmove` to the head of the buffer. -/
theorem slice_move_zero (m : Mem α) (src n : Nat) :
    (m.move 0 src n).slice 0 n = m.slice src (src + n) := by
  have hlen : (m.slice src (src + n)).length = n := by simp
  have hself := slice_write_self m 0 (m.slice src (src + n))
  rw [hlen, Nat.zero_add] at hself
  exact hself

theorem slice_cons (m : Mem α) {lo hi : Nat} (h : lo < hi) :
    m.slice lo hi = m lo :: m.slice (lo + 1) hi := by
  rw [slice_append m (Nat.le_succ lo) h]
  simp [slice]

theorem write_of_lt (m : Mem α) {off i : Nat} (d : List α) (h : i < off) : m.write off d i = m i :=
  if_neg (Nat.not_le_of_lt h)

theorem write_singleton (m : Mem α) (off : Nat) (x : α) : m.write off [x] off = x := by
  simp [write]

/-- A part of a buffer that holds `s`, `t` and `u` from offset `off` on. -/
theorem slice_part (m : Mem α) (off n : Nat) {s t u : List α} (h : m.slice off n = s ++ t ++ u) :
    m.slice (off + s.length) (off + s.length + t.length) = t := by
  have hdrop := drop_slice m off n s.length
  rw [h, List.append_assoc, List.drop_left] at hdrop
  have hlen := congrArg List.length hdrop
  rw [List.length_append, length_slice] at hlen
  by_cases ht : off + s.length + t.length ≤ n
  · rw [← take_slice m ht, ← hdrop, List.take_left]
  · have h0 : t.length = 0 := by omega
    rw [List.length_eq_zero_iff.mp h0]
    exact slice_self _ _

end Mem

/-! ## C strings in memory -/

namespace CString

/-- The text `s` and a NUL stand at `off`. -/
def StringAt (m : Mem UInt8) : Nat → Bytes → Prop
  | off, [] => m off = 0
  | off, c :: s => m off = c ∧ StringAt m (off + 1) s

theorem StringAt.congr {m m' : Mem UInt8} {off : Nat} {s : Bytes}
    (hm : ∀ i, off ≤ i → i ≤ off + s.length → m' i = m i) (h : StringAt m off s) :
    StringAt m' off s := by
  induction s generalizing off with
  | nil => exact (hm off (Nat.le_refl _) (Nat.le_refl _)).trans h
  | cons c s ih =>
    refine ⟨(hm off (Nat.le_refl _) (Nat.le_add_right _ _)).trans h.1, ih (fun i h1 h2 => ?_) h.2⟩
    exact hm i (Nat.le_of_succ_le h1) (by rw [List.length_cons]; omega)

/-- The end of a text is a text. -/
theorem StringAt.append_right {m : Mem UInt8} {off : Nat} {s t : Bytes}
    (h : StringAt m off (s ++ t)) : StringAt m (off + s.length) t := by
  induction s generalizing off with
  | nil => exact h
  | cons c s ih =>
    have hrest := ih h.2
    rw [Nat.add_right_comm] at hrest
    exact hrest

/-- A text ends at its first NUL. -/
theorem StringAt.of_nul {m : Mem UInt8} {off : Nat} {s t : Bytes}
    (h : StringAt m off (s ++ 0 :: t)) : StringAt m off s := by
  induction s generalizing off with
  | nil => exact h.1
  | cons c s ih => exact ⟨h.1, ih h.2⟩

/-- One text behind another. -/
theorem StringAt.append {m : Mem UInt8} {off : Nat} {s t : Bytes}
    (hs : ∀ i x, s[i]? = some x → m (off + i) = x) (ht : StringAt m (off + s.length) t) :
    StringAt m off (s ++ t) := by
  induction s generalizing off with
  | nil => exact ht
  | cons c s ih =>
    refine ⟨hs 0 c rfl, ih (fun i x hx => ?_) ?_⟩
    · rw [Nat.add_assoc, Nat.add_comm 1 i]
      exact hs (i + 1) x hx
    · rw [Nat.add_assoc, Nat.add_comm 1]
      exact ht

theorem StringAt.getElem? {m : Mem UInt8} {off : Nat} {s : Bytes} (h : StringAt m off s)
    {i : Nat} {x : UInt8} (hx : s[i]? = some x) : m (off + i) = x := by
  induction s generalizing off i with
  | nil => cases hx
  | cons c s ih =>
    cases i with
    | zero =>
      obtain rfl := Option.some.inj hx
      exact h.1
    | succ i =>
      rw [← Nat.add_assoc, Nat.add_right_comm]
      exact ih h.2 hx

/-- A text that is cut with a NUL. -/
theorem StringAt.cut {m : Mem UInt8} {off : Nat} {s t : Bytes} (h : StringAt m off (s ++ t)) :
    StringAt (m.write (off + s.length) [0]) off s := by
  induction s generalizing off with
  | nil => exact Mem.write_singleton m off 0
  | cons c s ih =>
    refine ⟨?_, ?_⟩
    · rw [Mem.write_of_lt m [0] (by rw [List.length_cons]; omega)]
      exact h.1
    · have hrest := ih h.2
      rw [Nat.add_right_comm] at hrest
      exact hrest

theorem stringAt_write (m : Mem UInt8) (off : Nat) (s : Bytes) :
    StringAt (m.write off (s ++ [0])) off s := by
  have hcell : ∀ i x, (s ++ [0])[i]? = some x → m.write off (s ++ [0]) (off + i) = x := by
    intro i x hx
    unfold Mem.write
    rw [if_pos (Nat.le_add_right off i), Nat.add_sub_cancel_left, hx]
    rfl
  generalize m.write off (s ++ [0]) = m' at hcell
  induction s generalizing off with
  | nil => exact hcell 0 0 rfl
  | cons c s ih =>
    refine ⟨hcell 0 c rfl, ih (off + 1) fun i x hx => ?_⟩
    rw [Nat.add_assoc, Nat.add_comm 1 i]
    exact hcell (i + 1) x hx

/-- A text in a buffer of `len` bytes. -/
theorem StringAt.slice {m : Mem UInt8} {off len : Nat} {s : Bytes} (h : StringAt m off s)
    (hlen : off + s.length < len) :
    m.slice off len = s ++ 0 :: m.slice (off + s.length + 1) len := by
  induction s generalizing off with
  | nil =>
    have hoff : off < len := hlen
    rw [Mem.slice_cons m hoff, show m off = 0 from h]
    rfl
  | cons c s ih =>
    rw [List.length_cons] at hlen
    rw [Mem.slice_cons m (by omega), h.1, ih h.2 (by omega), List.length_cons,
      show off + (s.length + 1) = off + 1 + s.length by omega]
    rfl

theorem StringAt.cstr_slice {m : Mem UInt8} {off len : Nat} {s : Bytes} (h : StringAt m off s)
    (hnul : (0 : UInt8) ∉ s) (hlen : off + s.length < len) : cstr (m.slice off len) = s := by
  rw [h.slice hlen]
  unfold cstr
  rw [List.takeWhile_append_of_pos, List.takeWhile_cons_of_neg (by decide), List.append_nil]
  intro x hx
  have hne : x ≠ 0 := fun h0 => hnul (h0 ▸ hx)
  simpa using hne

end CString
