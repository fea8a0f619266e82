import Zaver.Lib.Bytes

/-!
# Segments of a path

A path is a list cut at a separator. `split` gives all parts, `segments` the
non-empty ones, and `join` puts a separator in front of every part.

Resolving dot segments is a walk over the segments: one that stays where it is, one
that goes up and one that goes down to a name. `resolve` keeps the names passed on
the way, `walk` only their number. `resolve_cons_iff` says which name comes first
in the result: the last one that was entered from the top.
-/

namespace DotSegments

/-! ## Cutting and joining -/

section Split

variable {α : Type}

/-- A separator in front of every part. -/
def join (sep : α) (ps : List (List α)) : List α := ps.flatMap (sep :: ·)

@[simp] theorem join_nil (sep : α) : join sep [] = [] := rfl

@[simp] theorem join_cons (sep : α) (p : List α) (ps : List (List α)) :
    join sep (p :: ps) = sep :: (p ++ join sep ps) := rfl

@[simp] theorem join_append (sep : α) (ps qs : List (List α)) :
    join sep (ps ++ qs) = join sep ps ++ join sep qs := List.flatMap_append

/-- Leaving parts out makes a joined list no longer. -/
theorem length_join_filter_le (sep : α) (p : List α → Bool) (ps : List (List α)) :
    (join sep (ps.filter p)).length ≤ (join sep ps).length := by
  induction ps with
  | nil => exact Nat.le_refl _
  | cons q ps ih =>
    rw [List.filter_cons]
    split
    · rw [join_cons, join_cons, List.length_cons, List.length_cons, List.length_append,
        List.length_append]
      omega
    · rw [join_cons, List.length_cons, List.length_append]
      omega

variable [DecidableEq α]

/-- The parts of a list between the occurrences of `sep`. -/
def split (sep : α) : List α → List (List α)
  | [] => [[]]
  | c :: s =>
    if c = sep then [] :: split sep s
    else
      match split sep s with
      | [] => [[c]]
      | p :: ps => (c :: p) :: ps

/-- The non-empty parts. -/
def segments (sep : α) (s : List α) : List (List α) := (split sep s).filter (· ≠ [])

theorem split_sep (sep : α) (s : List α) : split sep (sep :: s) = [] :: split sep s := by
  rw [split, if_pos rfl]

theorem split_ne_nil (sep : α) (s : List α) : split sep s ≠ [] := by
  cases s with
  | nil => exact fun h => by cases h
  | cons c s =>
    rw [split]
    split
    · exact fun h => by cases h
    · split
      · exact fun h => by cases h
      · exact fun h => by cases h

/-- A part without separators is found in front of the rest. -/
theorem split_append_sep {sep : α} {p : List α} (h : sep ∉ p) (s : List α) :
    split sep (p ++ sep :: s) = p :: split sep s := by
  induction p with
  | nil => exact split_sep sep s
  | cons c p ih =>
    have hc : c ≠ sep := fun hx => h (by simp [hx])
    have hp : sep ∉ p := fun hx => h (by simp [hx])
    rw [List.cons_append, split, if_neg hc, ih hp]

theorem split_of_not_mem {sep : α} {p : List α} (h : sep ∉ p) : split sep p = [p] := by
  induction p with
  | nil => rfl
  | cons c p ih =>
    have hc : c ≠ sep := fun hx => h (by simp [hx])
    have hp : sep ∉ p := fun hx => h (by simp [hx])
    rw [split, if_neg hc, ih hp]

/-- Parts without separators are recovered from their join. -/
theorem split_join {sep : α} {p : List α} {ps : List (List α)} (hp : sep ∉ p)
    (hps : ∀ q ∈ ps, sep ∉ q) : split sep (p ++ join sep ps) = p :: ps := by
  induction ps generalizing p with
  | nil =>
    rw [join_nil, List.append_nil]
    exact split_of_not_mem hp
  | cons q ps ih =>
    rw [join_cons, split_append_sep hp,
      ih (hps q List.mem_cons_self) fun x hx => hps x (List.mem_cons_of_mem _ hx)]

/-- No part holds the separator, and each holds only elements of the whole. -/
theorem mem_split {sep : α} {s p : List α} (h : p ∈ split sep s) :
    sep ∉ p ∧ ∀ c ∈ p, c ∈ s := by
  induction s generalizing p with
  | nil =>
    rw [split, List.mem_singleton] at h
    subst h
    exact ⟨List.not_mem_nil, fun c hc => hc⟩
  | cons x s ih =>
    rw [split] at h
    split at h
    · cases List.mem_cons.mp h with
      | inl hp =>
        subst hp
        exact ⟨List.not_mem_nil, fun c hc => absurd hc List.not_mem_nil⟩
      | inr hp =>
        obtain ⟨hsep, hmem⟩ := ih hp
        exact ⟨hsep, fun c hc => List.mem_cons_of_mem _ (hmem c hc)⟩
    · next hx =>
      cases hs : split sep s with
      | nil => exact absurd hs (split_ne_nil sep s)
      | cons q qs =>
        rw [hs] at h ih
        cases List.mem_cons.mp h with
        | inl hp =>
          obtain ⟨hsep, hmem⟩ := ih List.mem_cons_self
          subst hp
          refine ⟨fun hc => ?_, fun c hc => ?_⟩
          · cases List.mem_cons.mp hc with
            | inl heq => exact hx heq.symm
            | inr hc => exact hsep hc
          · cases List.mem_cons.mp hc with
            | inl heq => exact heq ▸ List.mem_cons_self
            | inr hc => exact List.mem_cons_of_mem _ (hmem c hc)
        | inr hp =>
          obtain ⟨hsep, hmem⟩ := ih (List.mem_cons_of_mem _ hp)
          exact ⟨hsep, fun c hc => List.mem_cons_of_mem _ (hmem c hc)⟩

theorem mem_segments {sep : α} {s p : List α} (h : p ∈ segments sep s) :
    p ≠ [] ∧ sep ∉ p ∧ ∀ c ∈ p, c ∈ s := by
  obtain ⟨hp, hne⟩ := List.mem_filter.mp h
  exact ⟨by simpa using hne, mem_split hp⟩

/-- A separator at the front adds no segment. -/
theorem segments_sep (sep : α) (s : List α) : segments sep (sep :: s) = segments sep s := by
  rw [segments, split_sep]
  rfl

theorem join_split (sep : α) (s : List α) : join sep (split sep s) = sep :: s := by
  induction s with
  | nil => rfl
  | cons c s ih =>
    rw [split]
    split
    · next hc => rw [join_cons, ih, hc, List.nil_append]
    · cases hs : split sep s with
      | nil => exact absurd hs (split_ne_nil sep s)
      | cons p ps =>
        rw [hs, join_cons] at ih
        rw [join_cons, List.cons_append, (List.cons.inj ih).2]

theorem length_join_segments_le (sep : α) (s : List α) :
    (join sep (segments sep s)).length ≤ s.length + 1 := by
  have hle := length_join_filter_le sep (· ≠ []) (split sep s)
  rw [join_split, List.length_cons] at hle
  exact hle

theorem split_concat_sep (sep : α) (s : List α) : split sep (s ++ [sep]) = split sep s ++ [[]] := by
  induction s with
  | nil =>
    show split sep [sep] = [[]] ++ [[]]
    rw [split_sep]
    rfl
  | cons c s ih =>
    rw [List.cons_append, split, split, ih]
    split
    · rfl
    · cases hs : split sep s with
      | nil => exact absurd hs (split_ne_nil sep s)
      | cons p ps => rfl

/-- A separator at the end adds no segment. -/
theorem segments_concat_sep (sep : α) (s : List α) :
    segments sep (s ++ [sep]) = segments sep s := by
  rw [segments, split_concat_sep, List.filter_append]
  exact List.append_nil _

/-- A part closed by a separator stands in front of a text exactly when the text's first
part is that part and does not end the text. -/
theorem part_before_sep_iff {sep : α} {p q t : List α} (hp : sep ∉ p) (hq : sep ∉ q)
    (ht : t = [] ∨ ∃ t', t = sep :: t') : p ++ [sep] <+: q ++ t ↔ q = p ∧ t ≠ [] := by
  constructor
  · rintro ⟨u, hu⟩
    have hsp := congrArg (split sep) hu
    rw [List.append_assoc, List.singleton_append, split_append_sep hp] at hsp
    cases ht with
    | inl hnil =>
      subst hnil
      rw [List.append_nil, split_of_not_mem hq] at hsp
      exact absurd (List.cons.inj hsp).2 (split_ne_nil sep u)
    | inr hcons =>
      obtain ⟨t', rfl⟩ := hcons
      rw [split_append_sep hq] at hsp
      exact ⟨(List.cons.inj hsp).1.symm, fun h => by cases h⟩
  · rintro ⟨rfl, hne⟩
    cases ht with
    | inl hnil => exact absurd hnil hne
    | inr hcons =>
      obtain ⟨t', rfl⟩ := hcons
      exact ⟨t', by simp⟩

end Split

/-! ## The walk -/

/-- What a segment does to the place reached. -/
inductive Move
  | stay | up | down
deriving DecidableEq, Repr

section Walk

variable {β : Type} (kind : β → Move)

/-- One segment: the names on the way to the place reached. -/
def enter (ns : List β) (s : β) : Option (List β) :=
  match kind s with
  | .stay => some ns
  | .up => if ns.isEmpty then none else some ns.dropLast
  | .down => some (ns ++ [s])

/-- The names on the way after all segments; none when a segment leads above the top. -/
def resolve (ns : List β) (ss : List β) : Option (List β) := ss.foldlM (enter kind) ns

/-- One segment: the depth of the place reached. -/
def climb (d : Nat) (s : β) : Option Nat :=
  match kind s with
  | .stay => some d
  | .up => if d = 0 then none else some (d - 1)
  | .down => some (d + 1)

/-- The depth after all segments. -/
def walk (d : Nat) (ss : List β) : Option Nat := ss.foldlM (climb kind) d

variable {kind}

theorem resolve_append (ns ss ts : List β) :
    resolve kind ns (ss ++ ts) = (resolve kind ns ss).bind fun ms => resolve kind ms ts :=
  List.foldlM_append

theorem climb_length (ns : List β) (s : β) :
    climb kind ns.length s = (enter kind ns s).map List.length := by
  unfold climb enter
  cases kind s with
  | stay => rfl
  | up =>
    cases ns with
    | nil => rfl
    | cons n ns => simp
  | down => simp

/-- The depth is the number of names. -/
theorem walk_length (ns ss : List β) :
    walk kind ns.length ss = (resolve kind ns ss).map List.length := by
  induction ss generalizing ns with
  | nil => rfl
  | cons s ss ih =>
    have hstep : climb kind ns.length s = _ := climb_length ns s
    unfold walk resolve at ih ⊢
    rw [List.foldlM_cons, List.foldlM_cons, hstep]
    cases enter kind ns s with
    | none => rfl
    | some ms => exact ih ms

/-- Only segments that go down are kept as names. -/
theorem mem_resolve {ns ss ms : List β} {P : β → Prop} (h : resolve kind ns ss = some ms)
    (hns : ∀ n ∈ ns, P n) (hss : ∀ s ∈ ss, kind s = .down → P s) : ∀ m ∈ ms, P m := by
  induction ss generalizing ns with
  | nil =>
    obtain rfl := Option.some.inj h
    exact hns
  | cons s ss ih =>
    unfold resolve at h ih
    rw [List.foldlM_cons] at h
    obtain ⟨ns', he, h⟩ := Option.bind_eq_some_iff.mp h
    refine ih h ?_ fun x hx => hss x (List.mem_cons_of_mem _ hx)
    unfold enter at he
    cases hk : kind s with
    | stay =>
      rw [hk] at he
      obtain rfl := Option.some.inj he
      exact hns
    | up =>
      rw [hk] at he
      dsimp only at he
      split at he
      · cases he
      · obtain rfl := Option.some.inj he
        exact fun n hn => hns n (List.dropLast_subset _ hn)
    | down =>
      rw [hk] at he
      obtain rfl := Option.some.inj he
      intro n hn
      cases List.mem_append.mp hn with
      | inl hn => exact hns n hn
      | inr hn => exact List.mem_singleton.mp hn ▸ hss s List.mem_cons_self hk

/-- Segments that all go down are the names. -/
theorem resolve_down {ss : List β} (h : ∀ s ∈ ss, kind s = .down) (ns : List β) :
    resolve kind ns ss = some (ns ++ ss) := by
  induction ss generalizing ns with
  | nil =>
    rw [List.append_nil]
    rfl
  | cons s ss ih =>
    have hs : enter kind ns s = some (ns ++ [s]) := by
      unfold enter
      rw [h s List.mem_cons_self]
    have hrest := ih (fun x hx => h x (List.mem_cons_of_mem _ hx)) (ns ++ [s])
    unfold resolve at hrest ⊢
    rw [List.foldlM_cons, hs]
    rw [List.append_assoc, List.singleton_append] at hrest
    exact hrest

/-- Segments that never lead above their start do not see what is above it. -/
theorem resolve_below {ns ss ms : List β} (base : List β) (h : resolve kind ns ss = some ms) :
    resolve kind (base ++ ns) ss = some (base ++ ms) := by
  induction ss generalizing ns with
  | nil =>
    obtain rfl := Option.some.inj h
    rfl
  | cons s ss ih =>
    unfold resolve at h ih ⊢
    rw [List.foldlM_cons] at h ⊢
    cases he : enter kind ns s with
    | none =>
      rw [he] at h
      cases h
    | some ns' =>
      rw [he] at h
      have hbase : enter kind (base ++ ns) s = some (base ++ ns') := by
        unfold enter at he ⊢
        cases hk : kind s with
        | stay =>
          rw [hk] at he
          obtain rfl := Option.some.inj he
          rfl
        | up =>
          rw [hk] at he
          dsimp only at he ⊢
          split at he
          · cases he
          · next hne =>
            have hne : ns ≠ [] := by simpa using hne
            obtain rfl := Option.some.inj he
            rw [if_neg (by simp [hne]), List.dropLast_append_of_ne_nil hne]
        | down =>
          rw [hk] at he
          obtain rfl := Option.some.inj he
          exact congrArg some (List.append_assoc _ _ _)
      rw [hbase]
      exact ih h

/-- The first name of the result is entered from the top, and what follows it never
leads above it. -/
theorem resolve_cons {ss : List β} {x : β} {rest : List β}
    (h : resolve kind [] ss = some (x :: rest)) :
    ∃ pre post, ss = pre ++ x :: post ∧ kind x = .down ∧ resolve kind [] pre = some [] ∧
      resolve kind [] post = some rest := by
  induction ss using List.reverseRecOn generalizing rest with
  | nil => cases h
  | append_singleton ss s ih =>
    rw [resolve_append] at h
    obtain ⟨ms, hms, hs⟩ := Option.bind_eq_some_iff.mp h
    have hs : enter kind ms s = some (x :: rest) := by simpa [resolve] using hs
    -- A segment behind the first name moves to the end of `post`.
    have hmove : ∀ {rest'}, ms = x :: rest' → enter kind rest' s = some rest →
        ∃ pre post, ss ++ [s] = pre ++ x :: post ∧ kind x = .down ∧
          resolve kind [] pre = some [] ∧ resolve kind [] post = some rest := by
      intro rest' hms' hlast
      obtain ⟨pre, post, rfl, hk, hpre, hpost⟩ := ih (hms' ▸ hms)
      refine ⟨pre, post ++ [s], by simp, hk, hpre, ?_⟩
      rw [resolve_append, hpost]
      simpa [resolve] using hlast
    unfold enter at hs
    cases hk : kind s with
    | stay =>
      rw [hk] at hs
      exact hmove (Option.some.inj hs) (by simp [enter, hk])
    | up =>
      rw [hk] at hs
      dsimp only at hs
      split at hs
      · cases hs
      · next hne =>
        have hne : ms ≠ [] := by simpa using hne
        have hdrop := Option.some.inj hs
        have hlast := List.dropLast_append_getLast hne
        rw [hdrop] at hlast
        refine hmove hlast.symm ?_
        simp [enter, hk]
    | down =>
      rw [hk] at hs
      have happ := Option.some.inj hs
      cases ms with
      | nil =>
        obtain ⟨rfl, rfl⟩ := List.cons.inj happ
        exact ⟨ss, [], rfl, hk, hms, rfl⟩
      | cons y ms =>
        obtain ⟨rfl, hrest⟩ := List.cons.inj happ
        have hrest : ms ++ [s] = rest := hrest
        exact hmove rfl (by simp [enter, hk, hrest])

/-- Which name comes first, in terms of depths: it is entered at depth zero, and what
follows it stays below it. -/
theorem resolve_cons_iff {ss ns : List β} (h : resolve kind [] ss = some ns) (x : β) (k : Nat) :
    (∃ rest, ns = x :: rest ∧ rest.length = k) ↔
      ∃ pre post, ss = pre ++ x :: post ∧ kind x = .down ∧ walk kind 0 pre = some 0 ∧
        walk kind 0 post = some k := by
  have hdepth : ∀ ts : List β, walk kind 0 ts = (resolve kind [] ts).map List.length :=
    walk_length []
  constructor
  · rintro ⟨rest, rfl, rfl⟩
    obtain ⟨pre, post, hss, hk, hpre, hpost⟩ := resolve_cons h
    exact ⟨pre, post, hss, hk, by rw [hdepth, hpre]; rfl, by rw [hdepth, hpost]; rfl⟩
  · rintro ⟨pre, post, rfl, hk, hpre, hpost⟩
    rw [hdepth] at hpre hpost
    obtain ⟨ms, hms, hlen⟩ := Option.map_eq_some_iff.mp hpre
    obtain rfl := List.length_eq_zero_iff.mp hlen
    obtain ⟨rest, hrest, hk'⟩ := Option.map_eq_some_iff.mp hpost
    have hx : resolve kind [] (x :: post) = some (x :: rest) := by
      have hbelow := resolve_below [x] hrest
      unfold resolve at hbelow ⊢
      rw [List.foldlM_cons]
      simpa [enter, hk] using hbelow
    rw [resolve_append, hms] at h
    exact ⟨rest, Option.some.inj (h.symm.trans hx), hk'⟩

end Walk

end DotSegments
