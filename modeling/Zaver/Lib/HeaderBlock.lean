import Zaver.Lib.DotSegments

/-!
# Header blocks

A header block is a list of lines, each closed by CR LF, and an empty line. `block`
writes it and a reader gets two things back: `field` the value of the first line with a
given name, and `cutHeader` the block itself from the front of a byte stream, up to the
first empty line (`cutHeader_block`). `crlfLines` cuts a text at CR LF.
-/

namespace HeaderBlock

open DotSegments

/-- A line that a reader can tell from its end: not empty and without CR and LF. -/
structure PlainLine (l : Bytes) : Prop where
  ne : l ≠ []
  cr : CR ∉ l
  lf : LF ∉ l

instance (l : Bytes) : Decidable (PlainLine l) :=
  decidable_of_iff (l ≠ [] ∧ CR ∉ l ∧ LF ∉ l)
    ⟨fun h => ⟨h.1, h.2.1, h.2.2⟩, fun h => ⟨h.ne, h.cr, h.lf⟩⟩

theorem PlainLine.append {a b : Bytes} (ha : PlainLine a) (hcr : CR ∉ b) (hlf : LF ∉ b) :
    PlainLine (a ++ b) := by
  refine ⟨fun h => ha.ne (List.append_eq_nil_iff.mp h).1, fun h => ?_, fun h => ?_⟩
  · exact (List.mem_append.mp h).elim ha.cr hcr
  · exact (List.mem_append.mp h).elim ha.lf hlf

/-- The lines and the empty line. -/
def block (ls : List Bytes) : Bytes := ls.flatMap (· ++ CRLF) ++ CRLF

@[simp] theorem block_nil : block [] = CRLF := rfl

@[simp] theorem block_cons (l : Bytes) (ls : List Bytes) :
    block (l :: ls) = l ++ (CRLF ++ block ls) := by
  simp [block]

/-- The value of the first line that starts with `name`. -/
def field (name header : Bytes) : Option Bytes :=
  (split LF header).findSome? fun l =>
    if name <+: l then some ((l.drop name.length).takeWhile (· != CR)) else none

/-- The header block at the front of a stream, and what follows it. -/
def cutHeader : Bytes → Option (Bytes × Bytes)
  | [] => none
  | c :: s =>
    if CRLF ++ CRLF <+: c :: s then some (CRLF ++ CRLF, s.drop 3)
    else (cutHeader s).map fun cut => (c :: cut.1, cut.2)

/-- The pieces of a text between its CR LFs. -/
def crlfLines : Bytes → List Bytes
  | [] => [[]]
  | [c] => [[c]]
  | c :: d :: s =>
    if c = CR ∧ d = LF then [] :: crlfLines s
    else
      match crlfLines (d :: s) with
      | [] => [[c]]
      | l :: ls => (c :: l) :: ls

/-! ## Lines -/

theorem crlfLines_crlf (s : Bytes) : crlfLines (CRLF ++ s) = [] :: crlfLines s := by
  show crlfLines (CR :: LF :: s) = _
  rw [crlfLines, if_pos ⟨rfl, rfl⟩]

/-- The first piece is at the front of the text. -/
theorem crlfLines_first (s : Bytes) : ∃ l ls, crlfLines s = l :: ls ∧ l <+: s := by
  fun_induction crlfLines s with
  | case1 => exact ⟨[], [], rfl, List.prefix_rfl⟩
  | case2 c => exact ⟨[c], [], rfl, List.prefix_rfl⟩
  | case3 c d s h => exact ⟨[], crlfLines s, rfl, List.nil_prefix⟩
  | case4 c d s h hnil ih =>
    obtain ⟨l, ls, heq, -⟩ := ih
    rw [hnil] at heq
    cases heq
  | case5 c d s h l ls hcons ih =>
    obtain ⟨l', ls', heq, hpre⟩ := ih
    obtain ⟨rfl, rfl⟩ := List.cons.inj (hcons.symm.trans heq)
    exact ⟨c :: l, ls, rfl, List.cons_prefix_cons.mpr ⟨rfl, hpre⟩⟩

/-- What holds no CR is in front of the first piece. -/
theorem crlfLines_append {a s l : Bytes} {ls : List Bytes} (ha : CR ∉ a) (h : crlfLines s = l :: ls) :
    crlfLines (a ++ s) = (a ++ l) :: ls := by
  induction a with
  | nil => exact h
  | cons c a ih =>
    have hrest := ih fun hx => ha (List.mem_cons_of_mem _ hx)
    have hc : c ≠ CR := fun hx => ha (hx ▸ List.mem_cons_self)
    rw [List.cons_append, List.cons_append]
    cases hs : a ++ s with
    | nil =>
      rw [hs] at hrest
      obtain ⟨hl, rfl⟩ := List.cons.inj hrest
      rw [← hl]
      rfl
    | cons d t =>
      rw [hs] at hrest
      rw [crlfLines, if_neg fun hx => hc hx.1, hrest]

/-- The lines of a block, and the two ends of the empty line. -/
theorem crlfLines_block {ls : List Bytes} (h : ∀ l ∈ ls, CR ∉ l) :
    crlfLines (block ls) = ls ++ [[], []] := by
  induction ls with
  | nil => rfl
  | cons l ls ih =>
    have hrest := ih fun x hx => h x (List.mem_cons_of_mem _ hx)
    rw [block_cons, crlfLines_append (h l List.mem_cons_self) (crlfLines_crlf _), List.append_nil,
      hrest, List.cons_append]

/-- Every LF of a block closes a line. -/
theorem block_lf {ls : List Bytes} (h : ∀ l ∈ ls, LF ∉ l) {t u : Bytes}
    (heq : block ls = t ++ LF :: u) : t.getLast? = some CR := by
  induction ls generalizing t with
  | nil =>
    cases t with
    | nil => exact absurd (List.cons.inj heq).1 (by decide)
    | cons c t =>
      obtain ⟨rfl, heq⟩ := List.cons.inj heq
      cases t with
      | nil => rfl
      | cons d t => exact absurd (List.cons.inj heq).2.symm (by simp)
  | cons l ls ih =>
    rw [block_cons] at heq
    rcases List.append_eq_append_iff.mp heq with ⟨a, rfl, ha⟩ | ⟨a, rfl, ha⟩
    · cases a with
      | nil => exact absurd (List.cons.inj ha).1 (by decide)
      | cons c a =>
        have hcr : CR = c := (List.cons.inj ha).1
        have hlf : LF :: block ls = a ++ LF :: u := (List.cons.inj ha).2
        subst hcr
        cases a with
        | nil => exact List.getLast?_concat
        | cons d a =>
          have hd : LF = d := (List.cons.inj hlf).1
          have hrest : block ls = a ++ LF :: u := (List.cons.inj hlf).2
          subst hd
          have hlast := ih (fun x hx => h x (List.mem_cons_of_mem _ hx)) hrest
          rw [List.getLast?_append, List.getLast?_cons_cons, List.getLast?_cons, hlast]
          rfl
    · cases a with
      | nil => exact absurd (List.cons.inj ha).1 (by decide)
      | cons c a =>
        obtain ⟨rfl, -⟩ := List.cons.inj ha
        exact absurd (List.mem_append_right t List.mem_cons_self) (h _ List.mem_cons_self)

/-! ## Fields -/

theorem split_line {l : Bytes} (h : LF ∉ l) (rest : Bytes) :
    split LF (l ++ (CRLF ++ rest)) = (l ++ [CR]) :: split LF rest := by
  have hcr : LF ∉ l ++ [CR] := by
    rw [List.mem_append, List.mem_singleton]
    rintro (hx | hx)
    · exact h hx
    · exact absurd hx (by decide)
  rw [← split_append_sep hcr]
  simp [CRLF]

theorem name_line_iff {name l : Bytes} (hname : CR ∉ name) : name <+: l ++ [CR] ↔ name <+: l := by
  refine ⟨fun h => ?_, fun h => h.trans (List.prefix_append l [CR])⟩
  rcases List.prefix_concat_iff.mp h with heq | h
  · exact absurd (heq ▸ List.mem_append_right l (List.mem_singleton_self CR)) hname
  · exact h

/-- A line of another name is passed over. -/
theorem field_skip {name l : Bytes} (hname : CR ∉ name) (hl : LF ∉ l) (hno : ¬ name <+: l)
    (rest : Bytes) : field name (l ++ (CRLF ++ rest)) = field name rest := by
  have hcr : ¬ name <+: l ++ [CR] := fun h => hno ((name_line_iff hname).mp h)
  rw [field, split_line hl, List.findSome?_cons, if_neg hcr]
  rfl

theorem field_here {name value : Bytes} (hname : LF ∉ name) (hlf : LF ∉ value) (hcr : CR ∉ value)
    (rest : Bytes) : field name (name ++ value ++ (CRLF ++ rest)) = some value := by
  have hl : LF ∉ name ++ value := by
    rw [List.mem_append]
    exact fun h => h.elim hname hlf
  have hpre : name <+: name ++ value ++ [CR] :=
    (List.prefix_append name value).trans (List.prefix_append _ _)
  have hval : (value ++ [CR]).takeWhile (· != CR) = value := by
    rw [List.takeWhile_append_of_pos fun c hc => ?_]
    · simp
    · have hne : c ≠ CR := fun hx => hcr (hx ▸ hc)
      simpa using hne
  rw [field, split_line hl, List.findSome?_cons, if_pos hpre]
  dsimp only
  rw [List.append_assoc, List.drop_left, hval]

theorem field_end {name : Bytes} (hne : name ≠ []) (hname : CR ∉ name) : field name CRLF = none := by
  have h := field_skip hname (l := []) List.not_mem_nil
    (fun h => hne (List.prefix_nil.mp h)) []
  rw [List.nil_append, List.append_nil] at h
  rw [h]
  unfold field
  rw [split, List.findSome?_cons, if_neg fun h => hne (List.prefix_nil.mp h)]
  rfl

/-- No line has the name. -/
theorem field_none {name : Bytes} (hne : name ≠ []) (hname : CR ∉ name) {ls : List Bytes}
    (h : ∀ l ∈ ls, LF ∉ l ∧ ¬ name <+: l) : field name (block ls) = none := by
  induction ls with
  | nil => exact field_end hne hname
  | cons l ls ih =>
    obtain ⟨hlf, hno⟩ := h l List.mem_cons_self
    rw [block_cons, field_skip hname hlf hno]
    exact ih fun x hx => h x (List.mem_cons_of_mem _ hx)

/-- Two names that differ in one of their first `k` bytes. -/
theorem other_name {name lit : Bytes} (k : Nat)
    (h : k ≤ name.length ∧ k ≤ lit.length ∧ name.take k ≠ lit.take k) (x : Bytes) :
    ¬ name <+: lit ++ x := by
  rintro ⟨t, ht⟩
  refine h.2.2 ?_
  have htake := congrArg (List.take k) ht
  rwa [List.take_append_of_le_length h.1, List.take_append_of_le_length h.2.1] at htake

/-! ## Cutting -/

/-- The bytes of a line in front of a CR belong to the header. -/
theorem cutHeader_append {l : Bytes} (h : LF ∉ l) (s : Bytes) :
    cutHeader (l ++ CR :: s) = (cutHeader (CR :: s)).map fun cut => (l ++ cut.1, cut.2) := by
  induction l with
  | nil => simp
  | cons c l ih =>
    have hl : LF ∉ l := fun hx => h (List.mem_cons_of_mem _ hx)
    have hno : ¬ CRLF ++ CRLF <+: c :: (l ++ CR :: s) := by
      intro hp
      have hrest := (List.cons_prefix_cons.mp hp).2
      cases l with
      | nil => exact absurd (List.cons_prefix_cons.mp hrest).1 (by decide)
      | cons c' l => exact hl ((List.cons_prefix_cons.mp hrest).1 ▸ List.mem_cons_self)
    rw [List.cons_append, cutHeader, if_neg hno, ih hl, Option.map_map]
    rfl

/-- A line end that is followed by another line. -/
theorem cutHeader_crlf {s : Bytes} (h : ¬ CRLF <+: s) :
    cutHeader (CRLF ++ s) = (cutHeader s).map fun cut => (CRLF ++ cut.1, cut.2) := by
  have hno : ¬ CRLF ++ CRLF <+: CR :: LF :: s := by
    show ¬ CRLF ++ CRLF <+: CRLF ++ s
    rwa [List.prefix_append_right_inj]
  have hlf : ¬ CRLF ++ CRLF <+: LF :: s := by
    intro hp
    exact absurd (List.cons_prefix_cons.mp hp).1 (by decide)
  show cutHeader (CR :: LF :: s) = _
  rw [cutHeader, if_neg hno, cutHeader, if_neg hlf, Option.map_map]
  rfl

/-- A reader finds the end of a header block. -/
theorem cutHeader_block {ls : List Bytes} (h : ∀ l ∈ ls, l ≠ [] ∧ LF ∉ l) (hne : ls ≠ [])
    (rest : Bytes) : cutHeader (block ls ++ rest) = some (block ls, rest) := by
  induction ls with
  | nil => exact absurd rfl hne
  | cons l ls ih =>
    have hl := (h l List.mem_cons_self).2
    have hcut : cutHeader (CRLF ++ (block ls ++ rest)) = some (CRLF ++ block ls, rest) := by
      cases ls with
      | nil =>
        have hp : CRLF ++ CRLF <+: CR :: LF :: CR :: LF :: rest :=
          List.prefix_append (CRLF ++ CRLF) rest
        show cutHeader (CR :: LF :: CR :: LF :: rest) = _
        rw [cutHeader, if_pos hp]
        rfl
      | cons l' ls =>
        obtain ⟨hne', hl'⟩ := h l' (by simp)
        have hhead : ¬ CRLF <+: block (l' :: ls) ++ rest := by
          rw [block_cons, List.append_assoc]
          intro hp
          cases l' with
          | nil => exact hne' rfl
          | cons c l' =>
            have hrest := (List.cons_prefix_cons.mp hp).2
            cases l' with
            | nil => exact absurd (List.cons_prefix_cons.mp hrest).1 (by decide)
            | cons c' l' =>
              refine hl' (List.mem_cons_of_mem _ ?_)
              rw [(List.cons_prefix_cons.mp hrest).1]
              exact List.mem_cons_self
        rw [cutHeader_crlf hhead,
          ih (fun x hx => h x (List.mem_cons_of_mem _ hx)) (List.cons_ne_nil _ _)]
        rfl
    rw [block_cons, List.append_assoc, List.append_assoc]
    show cutHeader (l ++ CR :: (LF :: (block ls ++ rest))) = _
    rw [cutHeader_append hl]
    show (cutHeader (CRLF ++ (block ls ++ rest))).map _ = _
    rw [hcut]
    rfl

/-- What is cut is the front of the stream. -/
theorem cutHeader_eq {s h p : Bytes} (hc : cutHeader s = some (h, p)) :
    s = h ++ p ∧ 4 ≤ s.length := by
  induction s generalizing h with
  | nil => cases hc
  | cons c s ih =>
    unfold cutHeader at hc
    split at hc
    · next hp =>
      obtain ⟨rfl, rfl⟩ := Prod.mk.inj (Option.some.inj hc)
      obtain ⟨t, ht⟩ := hp
      refine ⟨?_, by rw [← ht]; simp [CRLF]⟩
      rw [← ht]
      obtain ⟨-, rfl⟩ := List.cons.inj ht
      rfl
    · obtain ⟨⟨h', p'⟩, hcut, heq⟩ := Option.map_eq_some_iff.mp hc
      obtain ⟨rfl, rfl⟩ := Prod.mk.inj heq
      obtain ⟨hs, hlen⟩ := ih hcut
      exact ⟨congrArg (c :: ·) hs, hlen.trans (Nat.le_succ _)⟩

/-- A header that was found stays the same when more bytes come. -/
theorem cutHeader_extend {s h p : Bytes} (hc : cutHeader s = some (h, p)) (t : Bytes) :
    cutHeader (s ++ t) = some (h, p ++ t) := by
  induction s generalizing h with
  | nil => cases hc
  | cons c s ih =>
    unfold cutHeader at hc
    split at hc
    · next hp =>
      obtain ⟨rfl, rfl⟩ := Prod.mk.inj (Option.some.inj hc)
      have hlen : 3 ≤ s.length := Nat.le_of_succ_le_succ hp.length_le
      have hpt : CRLF ++ CRLF <+: c :: (s ++ t) := hp.trans (List.prefix_append (c :: s) t)
      rw [List.cons_append, cutHeader, if_pos hpt, List.drop_append_of_le_length hlen]
    · next hp =>
      obtain ⟨⟨h', p'⟩, hcut, heq⟩ := Option.map_eq_some_iff.mp hc
      obtain ⟨rfl, rfl⟩ := Prod.mk.inj heq
      have hlen : (CRLF ++ CRLF).length ≤ (c :: s).length := by
        have h4 := (cutHeader_eq hcut).2
        rw [List.length_cons]
        exact h4.trans (Nat.le_succ _)
      have hno : ¬ CRLF ++ CRLF <+: c :: s ++ t := fun hx =>
        hp (List.prefix_of_prefix_length_le hx (List.prefix_append (c :: s) t) hlen)
      rw [List.cons_append] at hno ⊢
      rw [cutHeader, if_neg hno, ih hcut]
      rfl

end HeaderBlock
