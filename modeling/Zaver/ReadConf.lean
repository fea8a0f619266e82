import Zaver.Lib.Bytes

/-!
# The configuration file

`read_conf` of `util.c`. The lines are read one behind the other into one buffer and are
cut and compared there; `root` stays a pointer into it. Below, `confOf` is what the lines
of a file ask for.

Result: `read_conf_iff`. A name is compared over its own letters only (one of them over
one letter less), so a longer key sets the option too (`read_conf_longer_key`). A file that
leaves room for one NUL only makes `fgets` return an empty line at the end, and a text that
ends at a NUL of the file, with nothing cut off, is read on into the next line by `root`.
-/

namespace Zaver

open CString

/-! ## The code -/

/-- `zv_conf_t`, over the type of `root`. -/
@[ext]
structure ZvConf (ρ : Type) where
  root : Option ρ
  port : Int
  threadNum : Int
  workers : Int
  cpuAffinity : Int
  keepAliveTimeoutMs : Int
  requestTimeoutMs : Int
deriving DecidableEq, Repr

/-- The defaults of `read_conf`. -/
def ZvConf.default {ρ : Type} : ZvConf ρ :=
  { root := none, port := 3000, threadNum := 4, workers := 1, cpuAffinity := 0
    keepAliveTimeoutMs := 5000, requestTimeoutMs := 5000 }

def ZV_CONF_OK : Int := 0

def ZV_CONF_ERROR : Int := 100

/-- The first line of a text, with its line feed. -/
def firstLine : Bytes → Bytes
  | [] => []
  | c :: s => if c = LF then [c] else c :: firstLine s

/-- `fgets(s, n, fp)`: the characters stored before the NUL, and the rest of the file. With
room for the NUL only, nothing is read. -/
def fgets (n : Nat) (fp : Bytes) : Option (Bytes × Bytes) :=
  if n = 0 then none
  else if n = 1 then some ([], fp)
  else
    match fp with
    | [] => none
    | _ :: _ =>
      let line := firstLine (fp.take (n - 1))
      some (line, fp.drop line.length)

/-- The blanks in front of a value. -/
def isBlank (c : UInt8) : Bool := c == ' '.toUInt8 || c == '\t'.toUInt8

/-- The blanks at the end of a line. -/
def isTrailing (c : UInt8) : Bool := c == CR || isBlank c

/-- The loop that cuts the blanks at the end of a line of `curLen` characters. -/
def trimBlanks (buf : Mem UInt8) (cur : Nat) : Nat → Mem UInt8
  | 0 => buf
  | curLen + 1 =>
    if isTrailing (buf (cur + curLen)) then trimBlanks (buf.write (cur + curLen) [0]) cur curLen
    else buf

/-- The line feed is cut first. -/
def trimLine (buf : Mem UInt8) (cur curLen : Nat) : Mem UInt8 :=
  if 0 < curLen ∧ buf (cur + (curLen - 1)) = LF then
    trimBlanks (buf.write (cur + (curLen - 1)) [0]) cur (curLen - 1)
  else trimBlanks buf cur curLen

/-- `while (*val == ' ' || *val == '\t') val++`, over the `n` cells up to the end of the
buffer. -/
def skipVal (buf : Mem UInt8) : Nat → Nat → Nat
  | 0, val => val
  | n + 1, val => if isBlank (buf val) then skipVal buf n (val + 1) else val

/-- The comparisons of `read_conf`, for the line at `cur` and the value at `val`. -/
def confLine (cf : ZvConf Nat) (buf : Mem UInt8) (len cur val : Nat) : ZvConf Nat :=
  let line := buf.slice cur len
  let number := atoi (cstr (buf.slice val len))
  let cf := if strncmpEq (ascii "root") line 4 then { cf with root := some val } else cf
  let cf := if strncmpEq (ascii "port") line 4 then { cf with port := number } else cf
  let cf := if strncmpEq (ascii "threadnum") line 9 then { cf with threadNum := number } else cf
  let cf := if strncmpEq (ascii "workers") line 7 then { cf with workers := number } else cf
  let cf :=
    if strncmpEq (ascii "cpu_affinity") line 12 then { cf with cpuAffinity := number } else cf
  let cf :=
    if strncmpEq (ascii "keep_alive_timeout_ms") line 20 then
      { cf with keepAliveTimeoutMs := number }
    else cf
  let cf :=
    if strncmpEq (ascii "request_timeout_ms") line 18 then { cf with requestTimeoutMs := number }
    else cf
  if strncmpEq (ascii "timeout_ms") line 10 then
    { cf with keepAliveTimeoutMs := number, requestTimeoutMs := number }
  else cf

/-- The loop of `read_conf`, with the bytes of the file that are still to be read. -/
def readLines (len : Nat) : Nat → Bytes → Mem UInt8 → Nat → ZvConf Nat → Int × Mem UInt8 × ZvConf Nat
  | 0, _, buf, _, cf => (ZV_CONF_ERROR, buf, cf)
  | fuel + 1, fp, buf, pos, cf =>
    match fgets (len - pos) fp with
    | none => (ZV_CONF_OK, buf, cf)
    | some (line, fp) =>
      let buf := buf.write pos (line ++ [0])
      let text := cstr (buf.slice pos len)
      let lineLen := text.length
      match text.idxOf? '='.toUInt8 with
      | none => (ZV_CONF_ERROR, buf, cf)
      | some delim =>
        let buf := trimLine buf pos lineLen
        let val := skipVal buf (len - (pos + delim + 1)) (pos + delim + 1)
        readLines len fuel fp buf (pos + lineLen) (confLine cf buf len pos val)

/-- The text that `root` points to. -/
def ZvConf.deref (buf : Mem UInt8) (len : Nat) (cf : ZvConf Nat) : ZvConf Bytes :=
  { root := cf.root.map fun val => cstr (buf.slice val len)
    port := cf.port, threadNum := cf.threadNum, workers := cf.workers
    cpuAffinity := cf.cpuAffinity, keepAliveTimeoutMs := cf.keepAliveTimeoutMs
    requestTimeoutMs := cf.requestTimeoutMs }

/-- `read_conf` with a buffer of `len` bytes, and the configuration its caller sees. -/
def readConf (file : Bytes) (buf : Mem UInt8) (len : Nat) : Int × ZvConf Bytes :=
  let (rc, buf, cf) := readLines len (file.length + 1) file buf 0 ZvConf.default
  (rc, cf.deref buf len)

/-! ## What a file asks for -/

/-- The lines of a text, each with its line feed. -/
def linesOf : Bytes → List Bytes
  | [] => []
  | c :: s =>
    if c = LF then [c] :: linesOf s
    else
      match linesOf s with
      | [] => [[c]]
      | l :: ls => (c :: l) :: ls

/-- The text before the first `=`, without the blanks at its end. -/
def keyOf (l : Bytes) : Bytes := (l.takeWhile (· != '='.toUInt8)).rdropWhile isBlank

/-- The characters of the line end, and the blanks before it. -/
def isEnd (c : UInt8) : Bool := c == LF || isTrailing c

/-- The text behind the first `=`, without the line end and the blanks around it. -/
def valueOf (l : Bytes) : Bytes :=
  (((l.dropWhile (· != '='.toUInt8)).tail).rdropWhile isEnd).dropWhile isBlank

/-- A line sets the option whose name is its key. -/
def setNamed (cf : ZvConf Bytes) (l : Bytes) : ZvConf Bytes :=
  { root := if keyOf l = ascii "root" then some (valueOf l) else cf.root
    port := if keyOf l = ascii "port" then atoi (valueOf l) else cf.port
    threadNum := if keyOf l = ascii "threadnum" then atoi (valueOf l) else cf.threadNum
    workers := if keyOf l = ascii "workers" then atoi (valueOf l) else cf.workers
    cpuAffinity := if keyOf l = ascii "cpu_affinity" then atoi (valueOf l) else cf.cpuAffinity
    keepAliveTimeoutMs :=
      if keyOf l = ascii "keep_alive_timeout_ms" ∨ keyOf l = ascii "timeout_ms" then
        atoi (valueOf l)
      else cf.keepAliveTimeoutMs
    requestTimeoutMs :=
      if keyOf l = ascii "request_timeout_ms" ∨ keyOf l = ascii "timeout_ms" then atoi (valueOf l)
      else cf.requestTimeoutMs }

/-- The texts of the lines. A NUL ends the text of its line, as it ends every string. -/
def textsOf (file : Bytes) : List Bytes := (linesOf file).map cstr

/-- The defaults, updated line by line. -/
def confOf (file : Bytes) : ZvConf Bytes := (textsOf file).foldl setNamed ZvConf.default

/-- A line sets every number whose compared letters its key begins with: what `read_conf` does
with it. -/
def setBegun (cf : ZvConf Nat) (l : Bytes) : ZvConf Nat :=
  { root := cf.root
    port := if ascii "port" <+: keyOf l then atoi (valueOf l) else cf.port
    threadNum := if ascii "threadnum" <+: keyOf l then atoi (valueOf l) else cf.threadNum
    workers := if ascii "workers" <+: keyOf l then atoi (valueOf l) else cf.workers
    cpuAffinity := if ascii "cpu_affinity" <+: keyOf l then atoi (valueOf l) else cf.cpuAffinity
    keepAliveTimeoutMs :=
      if ascii "keep_alive_timeout_m" <+: keyOf l ∨ ascii "timeout_ms" <+: keyOf l then
        atoi (valueOf l)
      else cf.keepAliveTimeoutMs
    requestTimeoutMs :=
      if ascii "request_timeout_ms" <+: keyOf l ∨ ascii "timeout_ms" <+: keyOf l then
        atoi (valueOf l)
      else cf.requestTimeoutMs }

/-- The value of the last line with the property, `dflt` if there is none. -/
def lastValue {β : Type} (p : Bytes → Prop) [DecidablePred p] (value : Bytes → β) (dflt : β)
    (ls : List Bytes) : β :=
  ((ls.reverse.find? fun l => decide (p l)).map value).getD dflt

/-- The last line that is compared equal, if there is one, names the option, or has the value
of the last line that does (the default, if none does). -/
def Kept {β : Type} (begun named : Bytes → Prop) [DecidablePred begun] [DecidablePred named]
    (value : Bytes → β) (dflt : β) (ls : List Bytes) : Prop :=
  ∀ l ∈ ls.reverse.find? fun l => decide (begun l),
    named l ∨ value l = lastValue named value dflt ls

/-- What stands in the buffer in front of the next NUL, where these texts were written one behind
the other: a text whose end was not cut off runs on into the next one. -/
def runOn : List Bytes → Bytes
  | [] => []
  | t :: ts => t.rdropWhile isEnd ++ if t.rdropWhile isEnd = t then runOn ts else []

/-- What `root` is left with by its line `t`, with the texts `ts` behind it. -/
def rootValue (t : Bytes) (ts : List Bytes) : Bytes :=
  valueOf t ++ if t.rdropWhile isEnd = t then runOn ts else []

/-- The last line that is compared equal with `root` leaves the value of the last line with that
name. -/
def RootKept (ls : List Bytes) : Prop :=
  ∀ s ∈ ls.tails, ∀ t ∈ s.head?, ascii "root" <+: keyOf t →
    (∀ u ∈ s.tail, ¬ ascii "root" <+: keyOf u) →
    some (rootValue t s.tail) =
      lastValue (fun l => keyOf l = ascii "root") (fun l => some (valueOf l)) none ls

/-- No option is changed for good by a line with another key. -/
structure ConfKept (ls : List Bytes) : Prop where
  root : RootKept ls
  port : Kept (fun l => ascii "port" <+: keyOf l) (fun l => keyOf l = ascii "port")
    (fun l => atoi (valueOf l)) 3000 ls
  threadNum : Kept (fun l => ascii "threadnum" <+: keyOf l) (fun l => keyOf l = ascii "threadnum")
    (fun l => atoi (valueOf l)) 4 ls
  workers : Kept (fun l => ascii "workers" <+: keyOf l) (fun l => keyOf l = ascii "workers")
    (fun l => atoi (valueOf l)) 1 ls
  cpuAffinity : Kept (fun l => ascii "cpu_affinity" <+: keyOf l)
    (fun l => keyOf l = ascii "cpu_affinity") (fun l => atoi (valueOf l)) 0 ls
  keepAliveTimeoutMs : Kept
    (fun l => ascii "keep_alive_timeout_m" <+: keyOf l ∨ ascii "timeout_ms" <+: keyOf l)
    (fun l => keyOf l = ascii "keep_alive_timeout_ms" ∨ keyOf l = ascii "timeout_ms")
    (fun l => atoi (valueOf l)) 5000 ls
  requestTimeoutMs : Kept
    (fun l => ascii "request_timeout_ms" <+: keyOf l ∨ ascii "timeout_ms" <+: keyOf l)
    (fun l => keyOf l = ascii "request_timeout_ms" ∨ keyOf l = ascii "timeout_ms")
    (fun l => atoi (valueOf l)) 5000 ls

namespace ReadConfLemmas

/-! ## Lines -/

theorem firstLine_append (s : Bytes) : firstLine s ++ s.drop (firstLine s).length = s := by
  induction s with
  | nil => rfl
  | cons c s ih =>
    unfold firstLine
    split
    · rfl
    · rw [List.length_cons, List.drop_succ_cons, List.cons_append, ih]

theorem firstLine_ne_nil {s : Bytes} (h : s ≠ []) : firstLine s ≠ [] := by
  cases s with
  | nil => exact absurd rfl h
  | cons c s =>
    unfold firstLine
    split
    · exact List.cons_ne_nil _ _
    · exact List.cons_ne_nil _ _

/-- The line feed of a line is its last character; a line without one ends the text. -/
theorem firstLine_cases (s : Bytes) :
    ∃ t, LF ∉ t ∧ (firstLine s = t ++ [LF] ∨ firstLine s = t ∧ s.drop t.length = []) := by
  induction s with
  | nil => exact ⟨[], List.not_mem_nil, .inr ⟨rfl, rfl⟩⟩
  | cons c s ih =>
    unfold firstLine
    split
    · next hc => exact ⟨[], List.not_mem_nil, .inl (by rw [hc]; rfl)⟩
    · next hc =>
      obtain ⟨t, ht, h⟩ := ih
      refine ⟨c :: t, ?_, ?_⟩
      · intro hx
        cases List.mem_cons.mp hx with
        | inl heq => exact hc heq.symm
        | inr hmem => exact ht hmem
      · rcases h with h | ⟨h, hend⟩
        · exact .inl (by rw [h]; rfl)
        · exact .inr ⟨by rw [h], hend⟩

theorem linesOf_eq {s : Bytes} (h : s ≠ []) :
    linesOf s = firstLine s :: linesOf (s.drop (firstLine s).length) := by
  induction s with
  | nil => exact absurd rfl h
  | cons c s ih =>
    rw [linesOf, firstLine]
    split
    · rfl
    · cases s with
      | nil => rfl
      | cons d s => rw [ih (List.cons_ne_nil _ _), List.length_cons, List.drop_succ_cons]

/-- A line that fits is read whole. -/
theorem fgets_line {n : Nat} {fp : Bytes} (hfp : fp ≠ []) (hn : fp.length < n) :
    fgets n fp = some (firstLine fp, fp.drop (firstLine fp).length) := by
  cases fp with
  | nil => exact absurd rfl hfp
  | cons c fp =>
    rw [List.length_cons] at hn
    unfold fgets
    rw [if_neg (by omega), if_neg (by omega)]
    dsimp only
    rw [List.take_of_length_le (by rw [List.length_cons]; omega)]

theorem fgets_end {n : Nat} (hn : 1 < n) : fgets n [] = none := by
  unfold fgets
  rw [if_neg (by omega), if_neg (by omega)]

/-! ## Cutting the blanks -/

theorem rdropWhile_congr {p q : UInt8 → Bool} {t : Bytes} (h : ∀ c ∈ t, p c = q c) :
    t.rdropWhile p = t.rdropWhile q := by
  induction t using List.reverseRecOn with
  | nil => rfl
  | append_singleton t c ih =>
    have hc : p c = q c := h c (List.mem_append_right _ List.mem_cons_self)
    rw [List.rdropWhile_concat, List.rdropWhile_concat, hc,
      ih fun d hd => h d (List.mem_append_left _ hd)]

theorem rdropWhile_append_cons {p : UInt8 → Bool} {x : UInt8} (h : p x = false) (a w : Bytes) :
    (a ++ x :: w).rdropWhile p = a ++ x :: w.rdropWhile p := by
  induction w using List.reverseRecOn with
  | nil =>
    rw [List.rdropWhile_concat_neg p a x (by rw [h]; exact Bool.false_ne_true)]
    rfl
  | append_singleton w c ih =>
    rw [← List.cons_append, ← List.append_assoc, List.rdropWhile_concat, List.rdropWhile_concat, ih]
    split
    · rfl
    · rw [List.append_assoc]
      rfl

theorem trimBlanks_below (buf : Mem UInt8) (cur n : Nat) {i : Nat} (hi : i < cur) :
    trimBlanks buf cur n i = buf i := by
  induction n generalizing buf with
  | zero => rfl
  | succ n ih =>
    unfold trimBlanks
    split
    · rw [ih, Mem.write_of_lt buf [0] (by omega)]
    · rfl

theorem trimBlanks_text {buf : Mem UInt8} {cur : Nat} {s : Bytes} (h : StringAt buf cur s) :
    StringAt (trimBlanks buf cur s.length) cur (s.rdropWhile isTrailing) := by
  induction s using List.reverseRecOn generalizing buf with
  | nil => exact h
  | append_singleton s c ih =>
    have hc : buf (cur + s.length) = c := h.append_right.1
    rw [List.length_append, List.length_singleton, trimBlanks, hc, List.rdropWhile_concat]
    split
    · exact ih h.cut
    · exact h

theorem trimLine_below (buf : Mem UInt8) (cur n : Nat) {i : Nat} (hi : i < cur) :
    trimLine buf cur n i = buf i := by
  unfold trimLine
  split
  · rw [trimBlanks_below _ _ _ hi, Mem.write_of_lt buf [0] (by omega)]
  · exact trimBlanks_below _ _ _ hi

theorem isEnd_of_no_feed {t : Bytes} (ht : LF ∉ t) : t.rdropWhile isTrailing = t.rdropWhile isEnd := by
  refine rdropWhile_congr fun c hc => ?_
  have hne : c ≠ LF := fun h => ht (h ▸ hc)
  rw [isEnd, beq_false_of_ne hne, Bool.false_or]

/-- A line in the buffer loses its line end and the blanks before it. -/
theorem trimLine_text {buf : Mem UInt8} {cur : Nat} {l t : Bytes} (h : StringAt buf cur l)
    (ht : LF ∉ t) (hl : l = t ++ [LF] ∨ l = t) :
    StringAt (trimLine buf cur l.length) cur (l.rdropWhile isEnd) := by
  unfold trimLine
  rcases hl with rfl | rfl
  · have hfeed : buf (cur + t.length) = LF := h.append_right.1
    rw [List.length_append, List.length_singleton, Nat.add_sub_cancel,
      if_pos ⟨Nat.succ_pos _, hfeed⟩, List.rdropWhile_concat_pos isEnd t LF rfl,
      ← isEnd_of_no_feed ht]
    exact trimBlanks_text h.cut
  · rw [if_neg, ← isEnd_of_no_feed ht]
    · exact trimBlanks_text h
    · rintro ⟨hpos, hfeed⟩
      have hne : l ≠ [] := List.ne_nil_of_length_pos hpos
      rw [← List.dropLast_append_getLast hne] at h
      have hlast := h.append_right.1
      rw [List.length_dropLast, hfeed] at hlast
      exact ht (hlast ▸ List.getLast_mem hne)

theorem skipVal_text {buf : Mem UInt8} {n off : Nat} {s : Bytes} (h : StringAt buf off s)
    (hn : s.length < n) : skipVal buf n off = off + (s.takeWhile isBlank).length := by
  induction s generalizing off n with
  | nil =>
    cases n with
    | zero => rfl
    | succ n =>
      rw [skipVal, show buf off = 0 from h]
      rfl
  | cons c s ih =>
    cases n with
    | zero => exact absurd hn (Nat.not_lt_zero _)
    | succ n =>
      rw [List.length_cons] at hn
      rw [skipVal, h.1, List.takeWhile_cons]
      split
      · rw [ih h.2 (by omega), List.length_cons]
        omega
      · rfl

/-! ## Comparing names -/

theorem prefix_append_cons_iff {lit a b : Bytes} {x : UInt8} (h : x ∉ lit) :
    lit <+: a ++ x :: b ↔ lit <+: a := by
  induction a generalizing lit with
  | nil =>
    cases lit with
    | nil => exact ⟨fun _ => List.nil_prefix, fun _ => List.nil_prefix⟩
    | cons c lit =>
      refine ⟨fun hp => ?_, fun hp => absurd (List.prefix_nil.mp hp) (List.cons_ne_nil _ _)⟩
      obtain ⟨rfl, -⟩ := List.cons_prefix_cons.mp hp
      exact absurd List.mem_cons_self h
  | cons d a ih =>
    cases lit with
    | nil => exact ⟨fun _ => List.nil_prefix, fun _ => List.nil_prefix⟩
    | cons c lit =>
      rw [List.cons_append, List.cons_prefix_cons, List.cons_prefix_cons,
        ih fun hx => h (List.mem_cons_of_mem _ hx)]

theorem prefix_rdropWhile_iff {lit k : Bytes} {p : UInt8 → Bool} (h : ∀ c ∈ lit, p c = false) :
    lit <+: k.rdropWhile p ↔ lit <+: k := by
  refine ⟨fun hp => hp.trans (List.rdropWhile_prefix p k), fun hp => ?_⟩
  have hsplit := List.rdropWhile_append_rtakeWhile (p := p) (l := k)
  cases htail : k.rtakeWhile p with
  | nil =>
    rw [htail, List.append_nil] at hsplit
    rw [hsplit]
    exact hp
  | cons x w =>
    have hx : p x = true := List.mem_rtakeWhile_imp (l := k) (htail ▸ List.mem_cons_self)
    rw [htail] at hsplit
    rw [← hsplit] at hp
    refine (prefix_append_cons_iff fun hmem => ?_).mp hp
    rw [h x hmem] at hx
    exact Bool.false_ne_true hx

theorem eqN_take (f : UInt8 → UInt8) (n : Nat) (a b : Bytes) :
    eqN f n (a.take n) b = eqN f n a b := by
  induction n generalizing a b with
  | zero => rfl
  | succ n ih =>
    cases a with
    | nil => rfl
    | cons x a =>
      unfold eqN
      rw [List.take_succ_cons, List.headD_cons, List.headD_cons, List.tail_cons, List.tail_cons, ih]

/-- The letters `lit` of a name, compared with the line in the buffer, are compared with its
key. -/
theorem strncmpEq_key {buf : Mem UInt8} {len cur : Nat} {k w : Bytes} {name lit : Bytes} {n : Nat}
    (h : StringAt buf cur (k ++ '='.toUInt8 :: w))
    (hlen : cur + (k ++ '='.toUInt8 :: w).length < len)
    (hlit : name.take n = lit) (hn : lit.length = n)
    (hplain : (0 : UInt8) ∉ lit ∧ '='.toUInt8 ∉ lit ∧ ∀ c ∈ lit, isBlank c = false) :
    strncmpEq name (buf.slice cur len) n = true ↔ lit <+: k.rdropWhile isBlank := by
  have hcmp : strncmpEq name (buf.slice cur len) n = strncmpEq (buf.slice cur len) lit lit.length := by
    unfold strncmpEq
    rw [← eqN_take, hlit, eqN_comm (f := id) (fun x hx => hx), hn]
  rw [hcmp, strncmpEq_length_iff hplain.1, h.slice hlen, prefix_append_cons_iff hplain.1,
    prefix_append_cons_iff hplain.2.1, prefix_rdropWhile_iff hplain.2.2]

/-! ## One line -/

/-- The comparisons, field by field. -/
theorem confLine_eq (cf : ZvConf Nat) (buf : Mem UInt8) (len cur val : Nat) :
    confLine cf buf len cur val =
      { root := if strncmpEq (ascii "root") (buf.slice cur len) 4 then some val else cf.root
        port :=
          if strncmpEq (ascii "port") (buf.slice cur len) 4 then atoi (cstr (buf.slice val len))
          else cf.port
        threadNum :=
          if strncmpEq (ascii "threadnum") (buf.slice cur len) 9 then
            atoi (cstr (buf.slice val len))
          else cf.threadNum
        workers :=
          if strncmpEq (ascii "workers") (buf.slice cur len) 7 then atoi (cstr (buf.slice val len))
          else cf.workers
        cpuAffinity :=
          if strncmpEq (ascii "cpu_affinity") (buf.slice cur len) 12 then
            atoi (cstr (buf.slice val len))
          else cf.cpuAffinity
        keepAliveTimeoutMs :=
          if strncmpEq (ascii "keep_alive_timeout_ms") (buf.slice cur len) 20 ∨
              strncmpEq (ascii "timeout_ms") (buf.slice cur len) 10 then
            atoi (cstr (buf.slice val len))
          else cf.keepAliveTimeoutMs
        requestTimeoutMs :=
          if strncmpEq (ascii "request_timeout_ms") (buf.slice cur len) 18 ∨
              strncmpEq (ascii "timeout_ms") (buf.slice cur len) 10 then
            atoi (cstr (buf.slice val len))
          else cf.requestTimeoutMs } := by
  have htwo : ∀ (a b : Prop) [Decidable a] [Decidable b] (x y : Int),
      (if b then x else if a then x else y) = if a ∨ b then x else y := by
    intro a b _ _ x y
    by_cases hb : b
    · rw [if_pos hb, if_pos (Or.inr hb)]
    · rw [if_neg hb]
      exact if_congr (or_iff_left hb).symm rfl rfl
  unfold confLine
  ext1
  · simp only [apply_ite ZvConf.root, ite_self]
  · simp only [apply_ite ZvConf.port, ite_self]
  · simp only [apply_ite ZvConf.threadNum, ite_self]
  · simp only [apply_ite ZvConf.workers, ite_self]
  · simp only [apply_ite ZvConf.cpuAffinity, ite_self]
  · simp only [apply_ite ZvConf.keepAliveTimeoutMs, ite_self, htwo]
  · simp only [apply_ite ZvConf.requestTimeoutMs, ite_self, htwo]

/-- A line that stands cut in the buffer, with its value at `val`. -/
structure LineAt (buf : Mem UInt8) (len cur val : Nat) (l k w : Bytes) : Prop where
  text : StringAt buf cur (k ++ '='.toUInt8 :: w)
  fits : cur + (k ++ '='.toUInt8 :: w).length < len
  no_nul : (0 : UInt8) ∉ w
  key : keyOf l = k.rdropWhile isBlank
  value : valueOf l = w.dropWhile isBlank
  val_eq : val = cur + k.length + 1 + (w.takeWhile isBlank).length
  cut : l.rdropWhile isEnd = k ++ '='.toUInt8 :: w

theorem LineAt.valueAt {buf : Mem UInt8} {len cur val : Nat} {l k w : Bytes}
    (h : LineAt buf len cur val l k w) : StringAt buf val (valueOf l) := by
  have hw : StringAt buf (cur + k.length + 1) w := h.text.append_right.2
  rw [← List.takeWhile_append_dropWhile (p := isBlank) (l := w)] at hw
  rw [h.val_eq, h.value]
  exact hw.append_right

/-- The value ends where the line was cut. -/
theorem LineAt.value_end {buf : Mem UInt8} {len cur val : Nat} {l k w : Bytes}
    (h : LineAt buf len cur val l k w) :
    val + (valueOf l).length = cur + (l.rdropWhile isEnd).length := by
  have hw := congrArg List.length (List.takeWhile_append_dropWhile (p := isBlank) (l := w))
  rw [List.length_append] at hw
  rw [h.val_eq, h.value, h.cut, List.length_append, List.length_cons]
  omega

theorem LineAt.value_fits {buf : Mem UInt8} {len cur val : Nat} {l k w : Bytes}
    (h : LineAt buf len cur val l k w) : val + (valueOf l).length < len := by
  rw [h.value_end, h.cut]
  exact h.fits

theorem LineAt.value_cstr {buf : Mem UInt8} {len cur val : Nat} {l k w : Bytes}
    (h : LineAt buf len cur val l k w) : cstr (buf.slice val len) = valueOf l := by
  refine h.valueAt.cstr_slice (fun hx => ?_) h.value_fits
  rw [h.value] at hx
  exact h.no_nul ((List.dropWhile_sublist isBlank).subset hx)

/-- The letters of a name that are compared are compared with the key. -/
theorem LineAt.compare {buf : Mem UInt8} {len cur val : Nat} {l k w : Bytes}
    (h : LineAt buf len cur val l k w) {name lit : Bytes} {n : Nat} (hlit : name.take n = lit)
    (hn : lit.length = n)
    (hplain : (0 : UInt8) ∉ lit ∧ '='.toUInt8 ∉ lit ∧ ∀ c ∈ lit, isBlank c = false) :
    strncmpEq name (buf.slice cur len) n = true ↔ lit <+: keyOf l := by
  rw [h.key]
  exact strncmpEq_key h.text h.fits hlit hn hplain

/-- What the comparisons do with the numbers. -/
theorem confLine_numbers (cf : ZvConf Nat) {buf : Mem UInt8} {len cur val : Nat} {l k w : Bytes}
    (h : LineAt buf len cur val l k w) (root : Option Nat) :
    { confLine cf buf len cur val with root := root } = setBegun { cf with root := root } l := by
  rw [confLine_eq, h.value_cstr]
  unfold setBegun
  ext1
  · rfl
  · exact if_congr (h.compare rfl rfl (by decide +kernel)) rfl rfl
  · exact if_congr (h.compare rfl rfl (by decide +kernel)) rfl rfl
  · exact if_congr (h.compare rfl rfl (by decide +kernel)) rfl rfl
  · exact if_congr (h.compare rfl rfl (by decide +kernel)) rfl rfl
  · exact if_congr (or_congr (h.compare rfl rfl (by decide +kernel))
      (h.compare rfl rfl (by decide +kernel))) rfl rfl
  · exact if_congr (or_congr (h.compare rfl rfl (by decide +kernel))
      (h.compare rfl rfl (by decide +kernel))) rfl rfl

/-- What they do with `root`. -/
theorem confLine_root {cf : ZvConf Nat} {buf : Mem UInt8} {len cur val : Nat} {l k w : Bytes}
    (h : LineAt buf len cur val l k w) :
    (confLine cf buf len cur val).root =
      if ascii "root" <+: keyOf l then some val else cf.root := by
  rw [confLine_eq]
  exact if_congr (h.compare rfl rfl (by decide +kernel)) rfl rfl

/-- The first `=` of a line, and where `strstr` finds it. -/
theorem split_delim {l : Bytes} (h : '='.toUInt8 ∈ l) :
    l = l.takeWhile (· != '='.toUInt8) ++ '='.toUInt8 :: (l.dropWhile (· != '='.toUInt8)).tail ∧
      l.idxOf? '='.toUInt8 = some (l.takeWhile (· != '='.toUInt8)).length := by
  induction l with
  | nil => exact absurd h List.not_mem_nil
  | cons c l ih =>
    by_cases hc : c = '='.toUInt8
    · subst hc
      exact ⟨rfl, rfl⟩
    · have hmem : '='.toUInt8 ∈ l := by
        cases List.mem_cons.mp h with
        | inl heq => exact absurd heq.symm hc
        | inr hmem => exact hmem
      obtain ⟨hsplit, hidx⟩ := ih hmem
      have hne : (c != '='.toUInt8) = true := by simpa using hc
      rw [List.takeWhile_cons, List.dropWhile_cons, if_pos hne, if_pos hne, List.idxOf?_cons, hidx,
        beq_false_of_ne hc]
      exact ⟨congrArg (c :: ·) hsplit, rfl⟩

/-- A text that was read and cut. -/
theorem lineAt_read {buf : Mem UInt8} {len pos : Nat} {l t : Bytes} (hread : StringAt buf pos l)
    (ht : LF ∉ t) (hl : l = t ++ [LF] ∨ l = t) (hnul : (0 : UInt8) ∉ l) (hdelim : '='.toUInt8 ∈ l)
    (hfits : pos + l.length < len) :
    LineAt (trimLine buf pos l.length) len pos
      (skipVal (trimLine buf pos l.length)
        (len - (pos + (l.takeWhile (· != '='.toUInt8)).length + 1))
        (pos + (l.takeWhile (· != '='.toUInt8)).length + 1)) l
      (l.takeWhile (· != '='.toUInt8))
      ((l.dropWhile (· != '='.toUInt8)).tail.rdropWhile isEnd) := by
  have hsplit := (split_delim hdelim).1
  have htext := trimLine_text hread ht hl
  generalize hk : l.takeWhile (· != '='.toUInt8) = k at hsplit ⊢
  generalize hw : (l.dropWhile (· != '='.toUInt8)).tail = w at hsplit ⊢
  have hcut : l.rdropWhile isEnd = k ++ '='.toUInt8 :: w.rdropWhile isEnd := by
    rw [hsplit]
    exact rdropWhile_append_cons (by decide) k w
  have hlen : (l.rdropWhile isEnd).length ≤ l.length := (List.rdropWhile_prefix isEnd l).length_le
  rw [hcut] at htext hlen
  have hfits' : pos + (k ++ '='.toUInt8 :: w.rdropWhile isEnd).length < len := by omega
  have hval : StringAt (trimLine buf pos l.length) (pos + k.length + 1)
      (w.rdropWhile isEnd) := htext.append_right.2
  refine ⟨htext, hfits', fun hx => hnul ?_, ?_, ?_, skipVal_text hval ?_, hcut⟩
  · rw [hsplit]
    refine List.mem_append_right _ (List.mem_cons_of_mem _ ?_)
    exact (List.rdropWhile_prefix isEnd w).subset hx
  · unfold keyOf
    rw [hk]
  · unfold valueOf
    rw [hw]
  · rw [List.length_append, List.length_cons] at hfits'
    omega

theorem cstr_append_nul (s t : Bytes) : cstr (s ++ 0 :: t) = cstr s := by
  unfold cstr
  induction s with
  | nil => rfl
  | cons c s ih => rw [List.cons_append, List.takeWhile_cons, List.takeWhile_cons, ih]

/-- The text of a line: it ends with its line feed, or has none. -/
theorem text_shape {l t : Bytes} (ht : LF ∉ t) (hl : l = t ++ [LF] ∨ l = t) :
    ∃ u, LF ∉ u ∧ (cstr l = u ++ [LF] ∨ cstr l = u) := by
  by_cases h0 : (0 : UInt8) ∈ t
  · refine ⟨cstr t, fun hx => ht ((List.takeWhile_prefix _).subset hx), .inr ?_⟩
    rcases hl with rfl | rfl
    · obtain ⟨a, b, rfl⟩ := List.append_of_mem h0
      rw [List.append_assoc, List.cons_append, cstr_append_nul, cstr_append_nul]
    · rfl
  · refine ⟨t, ht, ?_⟩
    rcases hl with rfl | rfl
    · refine .inl (cstr_of_no_nul ?_)
      rw [List.mem_append]
      rintro (hx | hx)
      · exact h0 hx
      · exact absurd hx (by decide)
    · exact .inr (cstr_of_no_nul h0)

/-- The text of a line that was written. -/
theorem stringAt_written (buf : Mem UInt8) (pos : Nat) (l : Bytes) :
    StringAt (buf.write pos (l ++ [0])) pos (cstr l) := by
  have hwrite := stringAt_write buf pos l
  obtain ⟨t, hl, ht⟩ := cstr_split l
  cases t with
  | nil =>
    rw [List.append_nil] at hl
    rw [← hl]
    exact hwrite
  | cons c t =>
    obtain rfl := ht c rfl
    rw [hl] at hwrite
    have hfront := hwrite.of_nul
    rwa [← hl] at hfront

/-! ## The text of `root` -/

/-- What the lines make of `root`. -/
def lastRoot : List Bytes → Option Bytes
  | [] => none
  | t :: ts =>
    (lastRoot ts).or (if ascii "root" <+: keyOf t then some (rootValue t ts) else none)

/-- Where `root` points: to a text that ends at the place of the next line, or to one that ends in
front of it. -/
inductive RootAt (buf : Mem UInt8) (pos : Nat) : Option Nat → Option (Bytes × Bool) → Prop
  | unset : RootAt buf pos none none
  | open (r : Nat) (v : Bytes) : StringAt buf r v → 0 ∉ v → r + v.length = pos →
      RootAt buf pos (some r) (some (v, true))
  | closed (r : Nat) (v : Bytes) : StringAt buf r v → 0 ∉ v → r + v.length < pos →
      RootAt buf pos (some r) (some (v, false))

/-- The text of `root` after one more line. -/
def rootStep (root : Option (Bytes × Bool)) (t : Bytes) : Option (Bytes × Bool) :=
  if ascii "root" <+: keyOf t then some (valueOf t, decide (t.rdropWhile isEnd = t))
  else root.map fun x =>
    if x.2 then (x.1 ++ t.rdropWhile isEnd, decide (t.rdropWhile isEnd = t)) else x

/-- The text of `root` after the lines `ts`. -/
def rootAfter (root : Option (Bytes × Bool)) (ts : List Bytes) : Option Bytes :=
  (lastRoot ts).or (root.map fun x => x.1 ++ if x.2 then runOn ts else [])

theorem rootAfter_nil (root : Option (Bytes × Bool)) : rootAfter root [] = root.map Prod.fst := by
  cases root with
  | none => rfl
  | some x =>
    obtain ⟨v, o⟩ := x
    unfold rootAfter
    cases o with
    | true => exact congrArg some (List.append_nil v)
    | false => exact congrArg some (List.append_nil v)

theorem rootAfter_cons (root : Option (Bytes × Bool)) (t : Bytes) (ts : List Bytes) :
    rootAfter root (t :: ts) = rootAfter (rootStep root t) ts := by
  unfold rootAfter rootStep
  rw [lastRoot]
  split
  · rw [Option.or_assoc]
    refine congrArg _ ?_
    show some (rootValue t ts) = _
    unfold rootValue
    by_cases hcut : t.rdropWhile isEnd = t
    · simp [hcut]
    · simp [hcut]
  · rw [Option.or_none]
    refine congrArg _ ?_
    cases root with
    | none => rfl
    | some x =>
      obtain ⟨v, o⟩ := x
      cases o with
      | false => rfl
      | true =>
        dsimp only [Option.map_some]
        rw [if_pos rfl, if_pos rfl, runOn]
        by_cases hcut : t.rdropWhile isEnd = t
        · simp [hcut]
        · simp [hcut]

/-- The place of the next line moves on, and what stands in front of it stays. -/
theorem RootAt.closed_congr {buf buf' : Mem UInt8} {pos pos' : Nat} {r : Nat} {v : Bytes}
    (hbuf : ∀ i, i < pos → buf' i = buf i) (hpos : pos ≤ pos') (hv : StringAt buf r v)
    (h0 : 0 ∉ v) (hlt : r + v.length < pos) : RootAt buf' pos' (some r) (some (v, false)) :=
  .closed r v (hv.congr fun i _ hi => hbuf i (by omega)) h0 (by omega)

/-- One more line. -/
theorem rootAt_step {buf buf' : Mem UInt8} {len pos val : Nat} {cf : ZvConf Nat}
    {root : Option (Bytes × Bool)} {t k w : Bytes} (h : RootAt buf pos cf.root root)
    (hline : LineAt buf' len pos val t k w) (h0 : (0 : UInt8) ∉ t)
    (hbuf : ∀ i, i < pos → buf' i = buf i) :
    RootAt buf' (pos + t.length) (confLine cf buf' len pos val).root (rootStep root t) := by
  have hcut0 : (0 : UInt8) ∉ t.rdropWhile isEnd :=
    fun hx => h0 ((List.rdropWhile_prefix isEnd t).subset hx)
  have hshort := (List.rdropWhile_prefix isEnd t).length_le
  have hwhole : (t.rdropWhile isEnd).length = t.length → t.rdropWhile isEnd = t := fun hx =>
    (List.rdropWhile_prefix isEnd t).eq_of_length hx
  rw [confLine_root hline]
  unfold rootStep
  split
  · have hend := hline.value_end
    have hv0 : (0 : UInt8) ∉ valueOf t := by
      rw [hline.value]
      exact fun hx => hline.no_nul ((List.dropWhile_sublist isBlank).subset hx)
    by_cases hcut : t.rdropWhile isEnd = t
    · rw [decide_eq_true hcut]
      exact .open val _ hline.valueAt hv0 (by rw [hend, hcut])
    · rw [decide_eq_false hcut]
      refine .closed val _ hline.valueAt hv0 ?_
      have hne : (t.rdropWhile isEnd).length ≠ t.length := fun hx => hcut (hwhole hx)
      omega
  · generalize cf.root = place at h
    cases h with
    | unset => exact .unset
    | closed r v hv hv0 hlt => exact RootAt.closed_congr hbuf (Nat.le_add_right _ _) hv hv0 hlt
    | «open» r v hv hv0 hend =>
      have htext : StringAt buf' pos (t.rdropWhile isEnd) := hline.cut ▸ hline.text
      have hboth : StringAt buf' r (v ++ t.rdropWhile isEnd) := by
        refine StringAt.append (fun i x hx => ?_) (hend ▸ htext)
        have hi : i < v.length := (List.getElem?_eq_some_iff.mp hx).1
        rw [hbuf _ (by omega)]
        exact hv.getElem? hx
      have hboth0 : (0 : UInt8) ∉ v ++ t.rdropWhile isEnd := by
        rw [List.mem_append]
        exact fun hx => hx.elim hv0 hcut0
      dsimp only [Option.map_some]
      rw [if_pos rfl]
      by_cases hcut : t.rdropWhile isEnd = t
      · rw [decide_eq_true hcut]
        refine .open r _ hboth hboth0 ?_
        rw [List.length_append, hcut]
        omega
      · rw [decide_eq_false hcut]
        refine .closed r _ hboth hboth0 ?_
        have hne : (t.rdropWhile isEnd).length ≠ t.length := fun hx => hcut (hwhole hx)
        rw [List.length_append]
        omega

/-- The text that the caller finds. -/
theorem RootAt.deref {buf : Mem UInt8} {pos len : Nat} {place : Option Nat}
    {root : Option (Bytes × Bool)} (h : RootAt buf pos place root) (hlen : pos < len) :
    (place.map fun val => cstr (buf.slice val len)) = root.map Prod.fst := by
  cases h with
  | unset => rfl
  | «open» r v hv h0 hend => exact congrArg some (hv.cstr_slice h0 (by omega))
  | closed r v hv h0 hlt => exact congrArg some (hv.cstr_slice h0 (by omega))

/-! ## The loop -/

/-- What the loop returns, from where the lines `ts` are still to be read. -/
structure LoopReads (len pos : Nat) (root : Option (Bytes × Bool)) (cf : ZvConf Nat)
    (ts : List Bytes) (res : Int × Mem UInt8 × ZvConf Nat) : Prop where
  ok : res.1 = ZV_CONF_OK ↔
    (∀ t ∈ ts, '='.toUInt8 ∈ t) ∧ pos + ts.flatten.length + 1 < len
  numbers : res.1 = ZV_CONF_OK →
    { res.2.2 with root := none } = ts.foldl setBegun { cf with root := none }
  root : res.1 = ZV_CONF_OK →
    (res.2.2.root.map fun val => cstr (res.2.1.slice val len)) = rootAfter root ts

theorem idxOf?_none {l : Bytes} (h : '='.toUInt8 ∉ l) : l.idxOf? '='.toUInt8 = none :=
  List.idxOf?_eq_none_iff.mpr h

/-- Behind the last line: room for one NUL only is an error. -/
theorem readLines_end {len fuel pos : Nat} {buf : Mem UInt8} {cf : ZvConf Nat}
    {root : Option (Bytes × Bool)} (hroot : RootAt buf pos cf.root root) (hlen : pos < len) :
    LoopReads len pos root cf [] (readLines len (fuel + 1) [] buf pos cf) := by
  have herr : ¬ ZV_CONF_ERROR = ZV_CONF_OK := by decide
  by_cases hroom : len - pos = 1
  · have hget : fgets (len - pos) [] = some ([], []) := by rw [hroom]; rfl
    have htext : cstr ((buf.write pos ([] ++ [0])).slice pos len) = [] :=
      (stringAt_write buf pos []).cstr_slice List.not_mem_nil hlen
    have hres : readLines len (fuel + 1) [] buf pos cf =
        (ZV_CONF_ERROR, buf.write pos ([] ++ [0]), cf) := by
      rw [readLines, hget]
      dsimp only
      rw [htext, idxOf?_none List.not_mem_nil]
    rw [hres]
    refine ⟨⟨fun hx => absurd hx herr, fun hx => ?_⟩, fun hx => absurd hx herr,
      fun hx => absurd hx herr⟩
    have hx := hx.2
    rw [List.flatten_nil, List.length_nil] at hx
    omega
  · rw [readLines, fgets_end (by omega)]
    refine ⟨⟨fun _ => ⟨fun t ht => absurd ht List.not_mem_nil, ?_⟩, fun _ => rfl⟩, fun _ => rfl,
      fun _ => ?_⟩
    · rw [List.flatten_nil, List.length_nil]
      omega
    · rw [rootAfter_nil]
      exact hroot.deref hlen

/-- The loop reads every line and does with it what `setBegun` says. -/
theorem readLines_spec {len : Nat} (fuel : Nat) {fp : Bytes} {buf : Mem UInt8} {pos : Nat}
    {cf : ZvConf Nat} {root : Option (Bytes × Bool)} (hfuel : fp.length < fuel)
    (hlen : pos + fp.length < len) (hroot : RootAt buf pos cf.root root) :
    LoopReads len pos root cf (textsOf fp) (readLines len fuel fp buf pos cf) := by
  induction fuel generalizing fp buf pos cf root with
  | zero => exact absurd hfuel (Nat.not_lt_zero _)
  | succ fuel ih =>
    by_cases hend : fp = []
    · subst hend
      exact readLines_end hroot hlen
    obtain ⟨t, ht, hshape⟩ := firstLine_cases fp
    have hsplit := firstLine_append fp
    have hne := firstLine_ne_nil hend
    have hget := fgets_line hend (show fp.length < len - pos by omega)
    have htexts : textsOf fp =
        cstr (firstLine fp) :: textsOf (fp.drop (firstLine fp).length) := by
      rw [textsOf, linesOf_eq hend, List.map_cons]
      rfl
    rw [htexts]
    generalize firstLine fp = l at *
    generalize fp.drop l.length = rest at *
    have hlens := congrArg List.length hsplit
    rw [List.length_append] at hlens
    have hpos : 0 < l.length := List.length_pos_of_ne_nil hne
    obtain ⟨u, hu, hcstr⟩ := text_shape ht (hshape.imp id And.left)
    have h0 := cstr_no_nul l
    have hle : (cstr l).length ≤ l.length := (List.takeWhile_prefix _).length_le
    have hread := stringAt_written buf pos l
    have htext : cstr ((buf.write pos (l ++ [0])).slice pos len) = cstr l :=
      hread.cstr_slice h0 (by omega)
    rw [readLines, hget]
    dsimp only
    rw [htext]
    generalize cstr l = s at *
    by_cases hdelim : '='.toUInt8 ∈ s
    · have hline := lineAt_read hread hu hcstr h0 hdelim (show pos + s.length < len by omega)
      have hbelow : ∀ i, i < pos →
          trimLine (buf.write pos (l ++ [0])) pos s.length i = buf i := by
        intro i hi
        rw [trimLine_below _ _ _ hi, Mem.write_of_lt buf _ hi]
      rw [(split_delim hdelim).2]
      dsimp only
      generalize trimLine (buf.write pos (l ++ [0])) pos s.length = buf2 at *
      generalize skipVal buf2 _ _ = val at *
      have hnext := rootAt_step hroot hline h0 hbelow
      have hnumbers := confLine_numbers cf hline none
      have hrest := @ih rest buf2 _ (confLine cf buf2 len pos val) _ (show rest.length < fuel by omega)
        (show pos + s.length + rest.length < len by omega) hnext
      refine ⟨hrest.ok.trans ?_, fun hx => ?_, fun hx => ?_⟩
      · rw [List.flatten_cons, List.length_append, List.forall_mem_cons, ← Nat.add_assoc]
        exact and_congr_left fun _ => (and_iff_right hdelim).symm
      · rw [hrest.numbers hx, hnumbers, List.foldl_cons]
      · rw [hrest.root hx, rootAfter_cons]
    · have herr : ¬ ZV_CONF_ERROR = ZV_CONF_OK := by decide
      rw [idxOf?_none hdelim]
      exact ⟨⟨fun hx => absurd hx herr, fun hx => absurd (hx.1 s List.mem_cons_self) hdelim⟩,
        fun hx => absurd hx herr, fun hx => absurd hx herr⟩

/-- The configuration that `read_conf` leaves. -/
def confLeft (ts : List Bytes) : ZvConf Bytes :=
  let cf := ts.foldl setBegun ZvConf.default
  { root := lastRoot ts, port := cf.port, threadNum := cf.threadNum, workers := cf.workers
    cpuAffinity := cf.cpuAffinity, keepAliveTimeoutMs := cf.keepAliveTimeoutMs
    requestTimeoutMs := cf.requestTimeoutMs }

theorem readConf_eq {file : Bytes} (buf : Mem UInt8) {len : Nat} (hlen : file.length < len) :
    ((readConf file buf len).1 = ZV_CONF_OK ↔
        (∀ t ∈ textsOf file, '='.toUInt8 ∈ t) ∧ (textsOf file).flatten.length + 1 < len) ∧
      ((readConf file buf len).1 = ZV_CONF_OK →
        (readConf file buf len).2 = confLeft (textsOf file)) := by
  have hloop := readLines_spec (file.length + 1) (Nat.lt_succ_self _)
    (show 0 + file.length < len by omega)
    (show RootAt buf 0 (ZvConf.default : ZvConf Nat).root none from .unset)
  unfold readConf
  generalize readLines len (file.length + 1) file buf 0 ZvConf.default = res at *
  obtain ⟨rc, buf', cf'⟩ := res
  refine ⟨?_, fun hx => ?_⟩
  · have hok := hloop.ok
    rw [Nat.zero_add] at hok
    exact hok
  · have hnumbers := hloop.numbers hx
    have hroot := hloop.root hx
    rw [rootAfter, Option.map_none, Option.or_none] at hroot
    dsimp only at hnumbers hroot ⊢
    have hnumbers : { cf' with root := none } =
        (textsOf file).foldl setBegun (ZvConf.default : ZvConf Nat) := hnumbers
    unfold ZvConf.deref confLeft
    rw [hroot, ← hnumbers]

/-! ## The last line counts -/

section Last

variable {β : Type} {p begun named : Bytes → Prop} [DecidablePred p] [DecidablePred begun]
  [DecidablePred named] {value : Bytes → β}

/-- A field that some lines set and the others leave. -/
theorem foldl_field {ρ : Type} {set : ZvConf ρ → Bytes → ZvConf ρ} (f : ZvConf ρ → β)
    (hset : ∀ cf l, f (set cf l) = if p l then value l else f cf) (cf : ZvConf ρ)
    (ls : List Bytes) : f (ls.foldl set cf) = lastValue p value (f cf) ls := by
  induction ls using List.reverseRecOn with
  | nil => rfl
  | append_singleton ls l ih =>
    rw [List.foldl_append, List.foldl_cons, List.foldl_nil, hset, lastValue, List.reverse_append,
      List.reverse_singleton, List.singleton_append, List.find?_cons]
    by_cases hl : p l
    · rw [if_pos hl, decide_eq_true hl]
      rfl
    · rw [if_neg hl, decide_eq_false hl]
      exact ih

theorem find?_named (himp : ∀ l, named l → begun l) {xs : List Bytes} {l : Bytes}
    (h : xs.find? (fun l => decide (begun l)) = some l) (hl : named l) :
    xs.find? (fun l => decide (named l)) = some l := by
  induction xs with
  | nil => cases h
  | cons x xs ih =>
    rw [List.find?_cons] at h ⊢
    by_cases hx : begun x
    · rw [decide_eq_true hx] at h
      obtain rfl := Option.some.inj h
      rw [decide_eq_true hl]
    · rw [decide_eq_false hx] at h
      rw [decide_eq_false fun hn => hx (himp x hn)]
      exact ih h

/-- The lines that begin with the name and those that are the name leave the same value. -/
theorem lastValue_eq_iff (himp : ∀ l, named l → begun l) (dflt : β) (ls : List Bytes) :
    lastValue begun value dflt ls = lastValue named value dflt ls ↔
      Kept begun named value dflt ls := by
  cases hb : ls.reverse.find? fun l => decide (begun l) with
  | none =>
    have hn : ls.reverse.find? (fun l => decide (named l)) = none := by
      rw [List.find?_eq_none] at hb ⊢
      exact fun l hl hn => hb l hl (decide_eq_true (himp l (of_decide_eq_true hn)))
    refine ⟨fun _ l hl => ?_, fun _ => ?_⟩
    · rw [hb] at hl
      cases hl
    · rw [lastValue, lastValue, hb, hn]
  | some l =>
    have hval : lastValue begun value dflt ls = value l := by
      rw [lastValue, hb]
      rfl
    rw [hval]
    refine ⟨fun h l' hl' => ?_, fun h => ?_⟩
    · rw [hb] at hl'
      obtain rfl := Option.some.inj hl'
      exact .inr h
    · cases h l hb with
      | inl hnamed =>
        rw [lastValue, find?_named himp hb hnamed]
        rfl
      | inr heq => exact heq

end Last

theorem lastRoot_none {ts : List Bytes} (h : ∀ t ∈ ts, ¬ ascii "root" <+: keyOf t) :
    lastRoot ts = none := by
  induction ts with
  | nil => rfl
  | cons t ts ih =>
    rw [lastRoot, ih fun u hu => h u (List.mem_cons_of_mem _ hu),
      if_neg (h t List.mem_cons_self)]
    rfl

theorem lastRoot_last {t : Bytes} {back : List Bytes} (front : List Bytes)
    (ht : ascii "root" <+: keyOf t) (hback : ∀ u ∈ back, ¬ ascii "root" <+: keyOf u) :
    lastRoot (front ++ t :: back) = some (rootValue t back) := by
  induction front with
  | nil =>
    rw [List.nil_append, lastRoot, lastRoot_none hback, if_pos ht]
    rfl
  | cons u front ih =>
    rw [List.cons_append, lastRoot, ih]
    rfl

/-- The last line that is compared equal with `root`, if there is one. -/
theorem last_begun (ts : List Bytes) :
    (∀ t ∈ ts, ¬ ascii "root" <+: keyOf t) ∨ ∃ front t back, ts = front ++ t :: back ∧
      ascii "root" <+: keyOf t ∧ ∀ u ∈ back, ¬ ascii "root" <+: keyOf u := by
  induction ts with
  | nil => exact .inl fun t ht => absurd ht List.not_mem_nil
  | cons t ts ih =>
    rcases ih with hnone | ⟨front, u, back, rfl, hu, hback⟩
    · by_cases ht : ascii "root" <+: keyOf t
      · exact .inr ⟨[], t, ts, rfl, ht, hnone⟩
      · refine .inl fun u hu => ?_
        rcases List.mem_cons.mp hu with rfl | hu
        · exact ht
        · exact hnone u hu
    · exact .inr ⟨t :: front, u, back, rfl, hu, hback⟩

theorem root_iff (ts : List Bytes) :
    lastRoot ts = lastValue (fun l => keyOf l = ascii "root") (fun l => some (valueOf l)) none ts ↔
      RootKept ts := by
  constructor
  · intro h s hs t ht hbegun hback
    obtain ⟨front, rfl⟩ := (List.mem_tails s ts).mp hs
    cases s with
    | nil => cases ht
    | cons u back =>
      obtain rfl := Option.some.inj (Option.mem_def.mp ht)
      exact (lastRoot_last front hbegun hback).symm.trans h
  · intro h
    rcases last_begun ts with hnone | ⟨front, t, back, rfl, ht, hback⟩
    · have hfind : ts.reverse.find? (fun l => decide (keyOf l = ascii "root")) = none := by
        rw [List.find?_eq_none]
        intro l hl hname
        refine hnone l (List.mem_reverse.mp hl) ?_
        rw [of_decide_eq_true hname]
      rw [lastRoot_none hnone, lastValue, hfind]
      rfl
    · rw [lastRoot_last front ht hback]
      exact h (t :: back) ((List.mem_tails _ _).mpr (List.suffix_append _ _)) t rfl ht hback

/-- What the lines do is what they ask for. -/
theorem confLeft_iff (ls : List Bytes) :
    confLeft ls = ls.foldl setNamed ZvConf.default ↔ ConfKept ls := by
  have hfield : ∀ {β : Type} (f : ZvConf Nat → β) (g : ZvConf Bytes → β) (begun named : Bytes → Prop)
      [DecidablePred begun] [DecidablePred named] (value : Bytes → β),
      (∀ cf l, f (setBegun cf l) = if begun l then value l else f cf) →
      (∀ cf l, g (setNamed cf l) = if named l then value l else g cf) →
      f ZvConf.default = g ZvConf.default → (∀ l, named l → begun l) →
      (f (ls.foldl setBegun ZvConf.default) = g (ls.foldl setNamed ZvConf.default) ↔
        Kept begun named value (g ZvConf.default) ls) := by
    intro β f g begun named _ _ value hb hn hdflt himp
    rw [foldl_field f hb, foldl_field g hn, hdflt]
    exact lastValue_eq_iff himp _ _
  have hsame : ∀ {name key : Bytes}, key = name → name <+: key := by
    rintro _ _ rfl
    exact List.prefix_rfl
  have hshorter : ascii "keep_alive_timeout_m" <+: ascii "keep_alive_timeout_ms" := by
    decide +kernel
  have hroot : lastRoot ls = (ls.foldl setNamed ZvConf.default).root ↔ RootKept ls := by
    have hfold : (ls.foldl setNamed ZvConf.default).root = lastValue (fun l => keyOf l = ascii "root")
        (fun l => some (valueOf l)) none ls := foldl_field ZvConf.root (fun _ _ => rfl) _ _
    rw [hfold]
    exact root_iff ls
  have hport := hfield ZvConf.port ZvConf.port _ _ _ (fun _ _ => rfl) (fun _ _ => rfl) rfl
    (fun _ => hsame)
  have hthread := hfield ZvConf.threadNum ZvConf.threadNum _ _ _ (fun _ _ => rfl) (fun _ _ => rfl)
    rfl (fun _ => hsame)
  have hworkers := hfield ZvConf.workers ZvConf.workers _ _ _ (fun _ _ => rfl) (fun _ _ => rfl) rfl
    (fun _ => hsame)
  have hcpu := hfield ZvConf.cpuAffinity ZvConf.cpuAffinity _ _ _ (fun _ _ => rfl)
    (fun _ _ => rfl) rfl (fun _ => hsame)
  have hkeep := hfield ZvConf.keepAliveTimeoutMs ZvConf.keepAliveTimeoutMs _ _ _ (fun _ _ => rfl)
    (fun _ _ => rfl) rfl
    (fun l hl => hl.imp (fun h : keyOf l = _ => by rw [h]; exact hshorter) hsame)
  have hrequest := hfield ZvConf.requestTimeoutMs ZvConf.requestTimeoutMs _ _ _ (fun _ _ => rfl)
    (fun _ _ => rfl) rfl (fun l hl => hl.imp hsame hsame)
  refine ⟨fun h => ?_, fun h => ZvConf.ext ?_ ?_ ?_ ?_ ?_ ?_ ?_⟩
  · exact ⟨hroot.mp (congrArg ZvConf.root h), hport.mp (congrArg ZvConf.port h),
      hthread.mp (congrArg ZvConf.threadNum h), hworkers.mp (congrArg ZvConf.workers h),
      hcpu.mp (congrArg ZvConf.cpuAffinity h), hkeep.mp (congrArg ZvConf.keepAliveTimeoutMs h),
      hrequest.mp (congrArg ZvConf.requestTimeoutMs h)⟩
  · exact hroot.mpr h.root
  · exact hport.mpr h.port
  · exact hthread.mpr h.threadNum
  · exact hworkers.mpr h.workers
  · exact hcpu.mpr h.cpuAffinity
  · exact hkeep.mpr h.keepAliveTimeoutMs
  · exact hrequest.mpr h.requestTimeoutMs

theorem linesOf_of_no_feed {s : Bytes} (hs : s ≠ []) (h : LF ∉ s) : linesOf s = [s] := by
  induction s with
  | nil => exact absurd rfl hs
  | cons c s ih =>
    rw [List.mem_cons, not_or] at h
    rw [linesOf, if_neg (Ne.symm h.1)]
    cases s with
    | nil => rfl
    | cons d s => rw [ih (List.cons_ne_nil _ _) h.2]

/-- A line that fills the buffer is refused. -/
theorem readConf_full {file : Bytes} (buf : Mem UInt8) (hne : file ≠ []) (hfeed : LF ∉ file)
    (hnul : (0 : UInt8) ∉ file) : (readConf file buf (file.length + 1)).1 ≠ ZV_CONF_OK := by
  intro h
  have hroom := ((readConf_eq buf (Nat.lt_succ_self _)).1.mp h).2
  rw [textsOf, linesOf_of_no_feed hne hfeed, List.map_singleton, cstr_of_no_nul hnul,
    List.flatten_singleton] at hroom
  exact Nat.lt_irrefl _ hroom

theorem readConf_left {file : Bytes} {buf : Mem UInt8} {len : Nat} (hlen : file.length < len)
    (hdelim : ∀ t ∈ textsOf file, '='.toUInt8 ∈ t)
    (hroom : (textsOf file).flatten.length + 1 < len) :
    readConf file buf len = (ZV_CONF_OK, confLeft (textsOf file)) := by
  obtain ⟨hok, hconf⟩ := readConf_eq buf hlen
  have hrc := hok.mpr ⟨hdelim, hroom⟩
  exact Prod.ext hrc (hconf hrc)

end ReadConfLemmas

open ReadConfLemmas

/-- A file shorter than the buffer is read, and the configuration is the defaults updated line by
line, exactly when each line has its `=` in front of any NUL, the texts leave room for more
than a NUL, and for each option the last line that is compared equal with its name has that
name as key, or its value is the one that the option has anyway. -/
theorem read_conf_iff {file : Bytes} (buf : Mem UInt8) {len : Nat} (hlen : file.length < len) :
    readConf file buf len = (ZV_CONF_OK, confOf file) ↔
      (∀ t ∈ textsOf file, '='.toUInt8 ∈ t) ∧ (textsOf file).flatten.length + 1 < len ∧
        ConfKept (textsOf file) := by
  obtain ⟨hok, hconf⟩ := readConf_eq buf hlen
  constructor
  · intro h
    have hrc := congrArg Prod.fst h
    obtain ⟨hdelim, hroom⟩ := hok.mp hrc
    exact ⟨hdelim, hroom, (confLeft_iff _).mp ((hconf hrc).symm.trans (congrArg Prod.snd h))⟩
  · rintro ⟨hdelim, hroom, hkept⟩
    rw [readConf_left hlen hdelim hroom, (confLeft_iff _).mpr hkept]
    rfl

/-- Two lines, with blanks around a key and a value. -/
def twoLines : Bytes := ascii "root =  ./html \r\nports=3000\n"

theorem read_conf_iff_two :
    readConf twoLines (fun _ => 65) 8192 =
      (ZV_CONF_OK, { (ZvConf.default : ZvConf Bytes) with root := some (ascii "./html") }) := by
  have hlen : twoLines.length < 8192 := by decide +kernel
  have hkept : ConfKept (textsOf twoLines) := by
    refine ⟨?_, ?_, ?_, ?_, ?_, ?_, ?_⟩
    · unfold RootKept
      decide +kernel
    all_goals
      unfold Kept
      decide +kernel
  have hconf : confOf twoLines =
      { (ZvConf.default : ZvConf Bytes) with root := some (ascii "./html") } := by decide +kernel
  rw [← hconf]
  exact (read_conf_iff (fun _ => 65) hlen).mpr ⟨by decide +kernel, by decide +kernel, hkept⟩

/-- A longer key sets the option too, and so does a key without the last letter of its name; a
file of 8191 bytes is refused. -/
theorem read_conf_longer_key :
    (readConf (ascii "port=80\nportable=1\n") (fun _ => 0) 8192).2 ≠
        confOf (ascii "port=80\nportable=1\n") ∧
      (readConf (ascii "keep_alive_timeout_min=1\n") (fun _ => 0) 8192).2 ≠
        confOf (ascii "keep_alive_timeout_min=1\n") ∧
      (readConf (ascii "a=" ++ List.replicate 8189 65) (fun _ => 0) 8192).1 ≠ ZV_CONF_OK := by
  have hkeys : (readConf (ascii "port=80\nportable=1\n") (fun _ => 0) 8192).2 ≠
        confOf (ascii "port=80\nportable=1\n") ∧
      (readConf (ascii "keep_alive_timeout_min=1\n") (fun _ => 0) 8192).2 ≠
        confOf (ascii "keep_alive_timeout_min=1\n") := by
    rw [readConf_left (by decide +kernel) (by decide +kernel) (by decide +kernel),
      readConf_left (by decide +kernel) (by decide +kernel) (by decide +kernel)]
    decide +kernel
  have hlen : (ascii "a=" ++ List.replicate 8189 65).length + 1 = 8192 := by
    rw [List.length_append, List.length_replicate]
    rfl
  have hmem : ∀ c ∈ ascii "a=" ++ List.replicate 8189 65, c = 97 ∨ c = 61 ∨ c = 65 := by
    intro c hc
    rw [List.mem_append, List.mem_replicate] at hc
    rcases hc with hc | ⟨-, hc⟩
    · rcases List.mem_cons.mp hc with hc | hc
      · exact .inl hc
      · exact .inr (.inl (List.mem_singleton.mp hc))
    · exact .inr (.inr hc)
  refine ⟨hkeys.1, hkeys.2, ?_⟩
  rw [← hlen]
  exact readConf_full _ (List.cons_ne_nil _ _) (fun hx => absurd (hmem _ hx) (by decide))
    fun hx => absurd (hmem _ hx) (by decide)

end Zaver
