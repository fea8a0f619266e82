import Zaver.PathSafety

/-!
# Percent decoding

`percent_decode` checks the escapes, the decoded bytes and the room in one pass.
`percentDecodeLoop_iff` separates the three: the loop succeeds exactly when each of them is
fine, and then it has appended the decoded text. Since the pass never looks at a byte it has
written, every encoding of a text decodes to that text (`percent_decode_exact`).
-/

namespace Zaver

open CString

/-! ## Escapes -/

/-- Every `%` that begins an escape has two hex digits behind it. -/
def wellEscaped : Bytes → Bool
  | [] => true
  | ch :: rest =>
    if ch = '%'.toUInt8 then
      match rest with
      | h :: l :: rest =>
        (Chunked.digitVal h).isSome && (Chunked.digitVal l).isSome && wellEscaped rest
      | _ => false
    else wellEscaped rest

/-- `e` is the text `w` in which some bytes, and every `%`, are written as `%XX`. -/
inductive Encodes : Bytes → Bytes → Prop
  | nil : Encodes [] []
  | plain (c : UInt8) {w e : Bytes} : c ≠ '%'.toUInt8 → Encodes w e → Encodes (c :: w) (c :: e)
  | escape (c h l : UInt8) {x y : Nat} {w e : Bytes} : Chunked.digitVal h = some x →
      Chunked.digitVal l = some y → x * 16 + y = c.toNat → Encodes w e →
      Encodes (c :: w) ('%'.toUInt8 :: h :: l :: e)

namespace PercentDecodeLemmas

open PathSafetyLemmas

theorem wellEscaped_plain {ch : UInt8} (h : ch ≠ '%'.toUInt8) (rest : Bytes) :
    wellEscaped (ch :: rest) = wellEscaped rest := by
  rw [wellEscaped.eq_def]
  exact if_neg h

theorem unescape_plain {ch : UInt8} (h : ch ≠ '%'.toUInt8) (rest : Bytes) :
    unescape (ch :: rest) = ch :: unescape rest := by
  rw [unescape.eq_def]
  exact if_neg h

/-- What one decoded byte needs. -/
theorem putDecoded_iff {outCap : Nat} {out out' : Bytes} {ch : UInt8} :
    putDecoded outCap out ch = some out' ↔
      CleanByte ch ∧ out.length + 1 < outCap ∧ out' = out ++ [ch] := by
  unfold putDecoded CleanByte
  constructor
  · intro h
    split at h
    · cases h
    · next hclean =>
      split at h
      · cases h
      · next hroom =>
        simp only [not_or] at hclean
        exact ⟨hclean, Nat.not_le.mp hroom, (Option.some.inj h).symm⟩
  · rintro ⟨⟨h0, hb, hcr, hlf⟩, hroom, rfl⟩
    rw [if_neg (by simp only [not_or]; exact ⟨h0, hb, hcr, hlf⟩), if_neg (Nat.not_le.mpr hroom)]

/-- The three conditions on what is left of the input, and the result. -/
def Decodes (outCap : Nat) (out s d : Bytes) : Prop :=
  wellEscaped s = true ∧ (∀ c ∈ unescape s, CleanByte c) ∧
    out.length + (unescape s).length < outCap ∧ d = out ++ unescape s

/-- One decoded byte and the rest. -/
theorem decodes_put {outCap : Nat} {out d rest t : Bytes} {ch : UInt8}
    (hun : unescape t = ch :: unescape rest) (hwell : wellEscaped t = wellEscaped rest) :
    Decodes outCap out t d ↔
      ∃ out', putDecoded outCap out ch = some out' ∧ Decodes outCap out' rest d := by
  unfold Decodes
  rw [hun, hwell, List.forall_mem_cons, List.length_cons]
  constructor
  · rintro ⟨hw, ⟨hc, hall⟩, hlen, rfl⟩
    refine ⟨out ++ [ch], putDecoded_iff.mpr ⟨hc, ?_, rfl⟩, hw, hall, ?_, ?_⟩
    · exact Nat.lt_of_le_of_lt (Nat.add_le_add_left (Nat.le_add_left 1 _) _) hlen
    · rw [List.length_append, List.length_singleton, Nat.add_assoc, Nat.add_comm 1]
      exact hlen
    · rw [List.append_assoc, List.singleton_append]
  · rintro ⟨out', hput, hw, hall, hlen, rfl⟩
    obtain ⟨hc, -, rfl⟩ := putDecoded_iff.mp hput
    refine ⟨hw, ⟨hc, hall⟩, ?_, ?_⟩
    · rw [List.length_append, List.length_singleton, Nat.add_assoc, Nat.add_comm 1] at hlen
      exact hlen
    · rw [List.append_assoc, List.singleton_append]

/-- The loop of `percent_decode`. -/
theorem percentDecodeLoop_iff {outCap : Nat} {out s d : Bytes} (hout : out.length < outCap) :
    percentDecodeLoop outCap out s = some d ↔ Decodes outCap out s d := by
  fun_induction percentDecodeLoop outCap out s with
  | case1 out =>
    constructor
    · intro h
      exact ⟨rfl, (fun _ hc => by cases hc), hout, by simpa [unescape] using h.symm⟩
    · rintro ⟨-, -, -, rfl⟩
      simp [unescape]
  | case2 out h l rest x y hx hy ih =>
    rw [hexVal_eq] at hx hy
    have hun : unescape ('%'.toUInt8 :: h :: l :: rest) = UInt8.ofNat (x * 16 + y) :: unescape rest := by
      rw [unescape, if_pos rfl, hx, hy]
      rfl
    have hwell : wellEscaped ('%'.toUInt8 :: h :: l :: rest) = wellEscaped rest := by
      rw [wellEscaped, if_pos rfl, hx, hy]
      rfl
    rw [decodes_put hun hwell, Option.bind_eq_some_iff]
    refine exists_congr fun out' => and_congr_right fun hput => ih out' ?_
    obtain ⟨-, hroom, rfl⟩ := putDecoded_iff.mp hput
    rw [List.length_append]
    exact hroom
  | case3 out h l rest hno =>
    refine ⟨(fun hx => by cases hx), ?_⟩
    rintro ⟨hwell, -⟩
    rw [wellEscaped, if_pos rfl, ← hexVal_eq, ← hexVal_eq] at hwell
    obtain ⟨⟨hx, hy⟩, -⟩ := by simpa only [Bool.and_eq_true] using hwell
    obtain ⟨x, hx⟩ := Option.isSome_iff_exists.mp hx
    obtain ⟨y, hy⟩ := Option.isSome_iff_exists.mp hy
    exact absurd hy (hno x y hx)
  | case4 out rest hno =>
    refine ⟨(fun hx => by cases hx), ?_⟩
    rintro ⟨hwell, -⟩
    cases rest with
    | nil => cases hwell
    | cons h rest =>
      cases rest with
      | nil => cases hwell
      | cons l rest => exact absurd rfl (hno h l rest)
  | case5 out ch rest hch ih =>
    rw [decodes_put (unescape_plain hch rest) (wellEscaped_plain hch rest), Option.bind_eq_some_iff]
    refine exists_congr fun out' => and_congr_right fun hput => ih out' ?_
    obtain ⟨-, hroom, rfl⟩ := putDecoded_iff.mp hput
    rw [List.length_append]
    exact hroom

theorem percentDecode_iff {outCap : Nat} (hcap : 1 ≤ outCap) {s d : Bytes} :
    percentDecode s outCap = some d ↔ wellEscaped s = true ∧ (∀ c ∈ unescape s, CleanByte c) ∧
      (unescape s).length < outCap ∧ d = unescape s := by
  unfold percentDecode
  rw [if_neg (Nat.one_le_iff_ne_zero.mp hcap), percentDecodeLoop_iff (by exact hcap)]
  unfold Decodes
  rw [List.length_nil, Nat.zero_add, List.nil_append]

/-- Decoding undoes encoding. -/
theorem encodes_unescape {w e : Bytes} (h : Encodes w e) : wellEscaped e = true ∧ unescape e = w := by
  induction h with
  | nil => exact ⟨rfl, rfl⟩
  | plain c hc _ ih =>
    rw [wellEscaped_plain hc, unescape_plain hc, ih.2]
    exact ⟨ih.1, rfl⟩
  | escape c h l hx hy hc _ ih =>
    rw [wellEscaped, unescape, if_pos rfl, if_pos rfl, hx, hy, ih.1, ih.2]
    refine ⟨rfl, ?_⟩
    rw [Option.getD_some, Option.getD_some, hc, UInt8.ofNat_toNat]

end PercentDecodeLemmas

open PercentDecodeLemmas

/-! ## Decoding is exact -/

/-- `percent_decode` succeeds exactly when every escape is well formed, no decoded byte is NUL,
a backslash, CR or LF, and the decoded text is shorter than the buffer; it then gives the decoded
text. Every encoding of a text without these bytes, shorter than the buffer, decodes to the
text. -/
theorem percent_decode_exact {outCap : Nat} (hcap : 1 ≤ outCap) :
    (∀ s d, percentDecode s outCap = some d ↔
      wellEscaped s = true ∧ (∀ c ∈ unescape s, CleanByte c) ∧
        (unescape s).length < outCap ∧ d = unescape s) ∧
    ∀ w e, Encodes w e → (∀ c ∈ w, CleanByte c) → w.length < outCap →
      percentDecode e outCap = some w := by
  refine ⟨fun s d => percentDecode_iff hcap, fun w e henc hclean hlen => ?_⟩
  obtain ⟨hwell, hun⟩ := encodes_unescape henc
  refine (percentDecode_iff hcap).mpr ⟨hwell, ?_, ?_, hun.symm⟩
  · rw [hun]
    exact hclean
  · rw [hun]
    exact hlen

/-- An encoded `%` is not decoded twice. -/
theorem percent_decode_exact_percent :
    percentDecode (ascii "/%2541") 8 = some (ascii "/%41") := by
  refine (percent_decode_exact (by decide)).2 (ascii "/%41") (ascii "/%2541") ?_ ?_ (by decide)
  · refine .plain _ (by decide) (.escape _ _ _ (x := 2) (y := 5) (by decide) (by decide) (by decide) ?_)
    exact .plain _ (by decide) (.plain _ (by decide) .nil)
  · unfold CleanByte
    decide +kernel

end Zaver
