import Zaver.Lib.Bytes

/-!
# Numerals and the chunked transfer coding

`numeral b n` is what `printf` writes for `%zx` (`b = 16`), `%zu` and `%d`
(`b = 10`) on a non-negative number, and `parseNumeral` reads it back.

`encode` is the chunked coding of a list of pieces and `dechunk` a strict
decoder for it: it accepts a byte string only when the whole of it is a
sequence of chunks closed by the last chunk, with no extension and no trailer.
`dechunk_encode` says the decoder gives back the pieces, so two encodings of
different contents are never the same bytes.
-/

namespace Chunked

/-! ## Numerals -/

/-- The digit character of a value below `16`. -/
def digitByte (d : Nat) : UInt8 := if d < 10 then UInt8.ofNat (48 + d) else UInt8.ofNat (87 + d)

/-- The value of a digit character, in either case. -/
def digitVal (c : UInt8) : Option Nat :=
  if 48 ≤ c.toNat ∧ c.toNat ≤ 57 then some (c.toNat - 48)
  else if 97 ≤ c.toNat ∧ c.toNat ≤ 102 then some (c.toNat - 87)
  else if 65 ≤ c.toNat ∧ c.toNat ≤ 70 then some (c.toNat - 55)
  else none

/-- The numeral of `n` in base `b`, most significant digit first. -/
def numeral (b n : Nat) : Bytes :=
  if n = 0 then [digitByte 0] else ((Nat.digits b n).map digitByte).reverse

/-- One digit appended to the value read so far. -/
def addDigit (b acc : Nat) (c : UInt8) : Option Nat :=
  (digitVal c).bind fun d => if d < b then some (acc * b + d) else none

/-- The value of a numeral; none for an empty one or one with a foreign byte. -/
def parseNumeral (b : Nat) (s : Bytes) : Option Nat :=
  if s = [] then none else s.foldlM (addDigit b) 0

theorem digitVal_digitByte {d : Nat} (h : d < 16) : digitVal (digitByte d) = some d := by
  have hall : ∀ d : Fin 16, digitVal (digitByte d) = some d.val := by decide
  exact hall ⟨d, h⟩

theorem digitVal_isSome_ne_cr {c : UInt8} (h : (digitVal c).isSome) : c ≠ CR := by
  rintro rfl
  exact absurd h (by decide)

/-- Reading digits back, least significant digit last. -/
theorem foldlM_addDigit {b : Nat} (hb : b ≤ 16) (ds : List Nat) (hds : ∀ d ∈ ds, d < b) :
    (ds.map digitByte).reverse.foldlM (addDigit b) 0 = some (Nat.ofDigits b ds) := by
  induction ds with
  | nil => rfl
  | cons d ds ih =>
    have hd : d < b := hds d (by simp)
    have htail := ih fun x hx => hds x (by simp [hx])
    rw [List.map_cons, List.reverse_cons, List.foldlM_append, htail]
    simp only [Option.bind_eq_bind, Option.bind_some, List.foldlM_cons, List.foldlM_nil, addDigit,
      digitVal_digitByte (Nat.lt_of_lt_of_le hd hb), if_pos hd, Nat.ofDigits_cons]
    simp [Nat.mul_comm, Nat.add_comm]

theorem numeral_ne_nil (b n : Nat) : numeral b n ≠ [] := by
  unfold numeral
  split
  · simp
  · next h => simpa [Nat.digits_eq_nil_iff_eq_zero] using h

/-- A numeral reads back as its number. -/
theorem parseNumeral_numeral {b : Nat} (h2 : 2 ≤ b) (hb : b ≤ 16) (n : Nat) :
    parseNumeral b (numeral b n) = some n := by
  rw [parseNumeral, if_neg (numeral_ne_nil b n)]
  unfold numeral
  split
  · next h =>
    subst h
    have hz : (0 : Nat) < b := by omega
    simp [addDigit, digitVal_digitByte (show (0 : Nat) < 16 by decide), hz]
  · rw [foldlM_addDigit hb _ fun d hd => Nat.digits_lt_base h2 hd, Nat.ofDigits_digits]

/-- Every byte of a numeral is a digit character. -/
theorem digitVal_of_mem_numeral {b n : Nat} (h2 : 2 ≤ b) (hb : b ≤ 16) {c : UInt8}
    (h : c ∈ numeral b n) : (digitVal c).isSome := by
  unfold numeral at h
  split at h
  · simp only [List.mem_singleton] at h
    subst h
    decide
  · rw [List.mem_reverse, List.mem_map] at h
    obtain ⟨d, hd, rfl⟩ := h
    rw [digitVal_digitByte (Nat.lt_of_lt_of_le (Nat.digits_lt_base h2 hd) hb)]
    rfl

/-- The number of digits of a number below a power of the base. -/
theorem length_numeral_le {b n k : Nat} (h2 : 2 ≤ b) (hk : 1 ≤ k) (h : n < b ^ k) :
    (numeral b n).length ≤ k := by
  unfold numeral
  split
  · simpa using hk
  · next hn =>
    simp only [List.length_reverse, List.length_map]
    exact (Nat.digits_length_le_iff h2 n).mpr h

/-! ## The coding -/

/-- One chunk: its size line, its data, the line end. -/
def chunk (p : Bytes) : Bytes := numeral 16 p.length ++ CRLF ++ p ++ CRLF

/-- The chunk of size zero and the empty trailer: `0 CRLF CRLF`. -/
def lastChunk : Bytes := ascii "0\r\n\r\n"

/-- The chunked coding of a list of pieces. -/
def encode (ps : List Bytes) : Bytes := ps.flatMap chunk ++ lastChunk

/-- A size line: hexadecimal digits up to CRLF. -/
def readSizeLine (s : Bytes) : Option (Nat × Bytes) :=
  match s.dropWhile (· != CR) with
  | c :: l :: rest =>
    if c = CR ∧ l = LF then (parseNumeral 16 (s.takeWhile (· != CR))).map fun n => (n, rest)
    else none
  | _ => none

/-- The decoder, with one unit of fuel for each chunk. -/
def dechunkAux : Nat → Bytes → Option Bytes
  | 0, _ => none
  | fuel + 1, s =>
    match readSizeLine s with
    | none => none
    | some (0, rest) => if rest = CRLF then some [] else none
    | some (n + 1, rest) =>
      if (rest.drop (n + 1)).take 2 = CRLF then
        (dechunkAux fuel (rest.drop (n + 3))).map (rest.take (n + 1) ++ ·)
      else none

/-- Removes the chunked coding from a complete message body. -/
def dechunk (s : Bytes) : Option Bytes := dechunkAux s.length s

theorem readSizeLine_numeral (n : Nat) (rest : Bytes) :
    readSizeLine (numeral 16 n ++ CRLF ++ rest) = some (n, rest) := by
  have hall : ∀ c ∈ numeral 16 n, (c != CR) = true := by
    intro c hc
    have hd := digitVal_of_mem_numeral (by decide) (by decide) hc
    simpa using digitVal_isSome_ne_cr hd
  have hs : numeral 16 n ++ CRLF ++ rest = numeral 16 n ++ (CR :: LF :: rest) := by
    simp [CRLF]
  rw [hs]
  unfold readSizeLine
  rw [List.dropWhile_append_of_pos hall, List.takeWhile_append_of_pos hall]
  simp [parseNumeral_numeral (show 2 ≤ 16 by decide) (Nat.le_refl 16)]

/-- The size line of the last chunk. -/
theorem lastChunk_eq : lastChunk = numeral 16 0 ++ CRLF ++ CRLF := by decide

theorem chunk_length_pos (p : Bytes) : 0 < (chunk p).length := by
  unfold chunk CRLF
  simp

theorem dechunkAux_encode (ps : List Bytes) (hne : ∀ p ∈ ps, p ≠ []) (fuel : Nat)
    (hf : ps.length < fuel) : dechunkAux fuel (encode ps) = some ps.flatten := by
  induction ps generalizing fuel with
  | nil =>
    obtain ⟨f, rfl⟩ : ∃ f, fuel = f + 1 := ⟨fuel - 1, by simp at hf; omega⟩
    have hr : readSizeLine (encode []) = some (0, CRLF) := by
      simp only [encode, List.flatMap_nil, List.nil_append, lastChunk_eq]
      exact readSizeLine_numeral 0 CRLF
    simp [dechunkAux, hr]
  | cons p ps ih =>
    obtain ⟨f, rfl⟩ : ∃ f, fuel = f + 1 := ⟨fuel - 1, by simp at hf; omega⟩
    have hp : p ≠ [] := hne p (by simp)
    obtain ⟨k, hk⟩ : ∃ k, p.length = k + 1 :=
      ⟨p.length - 1, by have := List.length_pos_iff.mpr hp; omega⟩
    have hr : readSizeLine (encode (p :: ps)) = some (k + 1, p ++ (CRLF ++ encode ps)) := by
      have he : encode (p :: ps) = numeral 16 p.length ++ CRLF ++ (p ++ (CRLF ++ encode ps)) := by
        simp [encode, chunk, List.append_assoc]
      rw [he, readSizeLine_numeral, hk]
    have hdrop : (p ++ (CRLF ++ encode ps)).drop (k + 1) = CRLF ++ encode ps := by
      rw [← hk, List.drop_left]
    have hdrop3 : (p ++ (CRLF ++ encode ps)).drop (k + 3) = encode ps := by
      rw [show k + 3 = (k + 1) + 2 from rfl, ← List.drop_drop, hdrop]
      rfl
    have htake : (p ++ (CRLF ++ encode ps)).take (k + 1) = p := by rw [← hk, List.take_left]
    have htail := ih (fun q hq => hne q (by simp [hq])) f (by simpa using hf)
    have hcr : (CRLF ++ encode ps).take 2 = CRLF := rfl
    simp only [dechunkAux, hr, hdrop, hcr, hdrop3, htake, htail, if_true, Option.map_some,
      List.flatten_cons]

/-- The strict decoder recovers the pieces of an encoding. -/
theorem dechunk_encode (ps : List Bytes) (hne : ∀ p ∈ ps, p ≠ []) :
    dechunk (encode ps) = some ps.flatten := by
  refine dechunkAux_encode ps hne _ ?_
  have hlen : ps.length ≤ (ps.flatMap chunk).length := by
    induction ps with
    | nil => simp
    | cons p ps ih =>
      have hpos := chunk_length_pos p
      have htail := ih fun q hq => hne q (by simp [hq])
      simp only [List.flatMap_cons, List.length_append, List.length_cons]
      omega
  have hl : lastChunk.length = 5 := by decide
  unfold encode
  rw [List.length_append, hl]
  omega

/-! ## No coding is the front of another -/

theorem readSizeLine_append {s rest : Bytes} {n : Nat} (h : readSizeLine s = some (n, rest))
    (t : Bytes) : readSizeLine (s ++ t) = some (n, rest ++ t) := by
  unfold readSizeLine at h
  split at h
  · next c l rest' hdrop =>
    split at h
    · next hcl =>
      obtain ⟨k, hk, heq⟩ := Option.map_eq_some_iff.mp h
      obtain ⟨rfl, rfl⟩ := Prod.mk.inj heq
      have hne : s.dropWhile (· != CR) ≠ [] := by
        rw [hdrop]
        exact List.cons_ne_nil _ _
      have hd : (s ++ t).dropWhile (· != CR) = c :: l :: (rest' ++ t) := by
        rw [List.dropWhile_append, if_neg (by simpa using hne), hdrop]
        rfl
      have ht : (s ++ t).takeWhile (· != CR) = s.takeWhile (· != CR) := by
        have hlen := congrArg List.length (List.takeWhile_append_dropWhile (p := (· != CR)) (l := s))
        rw [List.takeWhile_append, if_neg]
        rw [List.length_append, hdrop, List.length_cons] at hlen
        omega
      unfold readSizeLine
      rw [hd, ht]
      dsimp only
      rw [if_pos hcl, hk]
      rfl
    · cases h
  · cases h

theorem dechunkAux_append {fuel fuel' : Nat} {s d : Bytes} (h : dechunkAux fuel s = some d)
    {t : Bytes} (ht : t ≠ []) : dechunkAux fuel' (s ++ t) = none := by
  induction fuel generalizing fuel' s d with
  | zero => cases h
  | succ fuel ih =>
    cases fuel' with
    | zero => rfl
    | succ fuel' =>
      unfold dechunkAux at h ⊢
      cases hr : readSizeLine s with
      | none =>
        rw [hr] at h
        cases h
      | some line =>
        obtain ⟨n, rest⟩ := line
        rw [readSizeLine_append hr]
        rw [hr] at h
        cases n with
        | zero =>
          dsimp only at h ⊢
          split at h
          · next hrest =>
            rw [if_neg]
            rw [hrest]
            exact fun hx => ht (List.append_right_eq_self.mp hx)
          · cases h
        | succ n =>
          dsimp only at h ⊢
          split at h
          · next hend =>
            have hlen : n + 1 + 2 ≤ rest.length := by
              have hx := congrArg List.length hend
              have h2 : CRLF.length = 2 := rfl
              rw [List.length_take, List.length_drop, h2] at hx
              omega
            obtain ⟨d', hd', -⟩ := Option.map_eq_some_iff.mp h
            rw [List.drop_append_of_le_length hlen, ih hd']
            split
            · rfl
            · rfl
          · cases h

/-- A complete coding is complete at its end only. -/
theorem dechunk_append {s t : Bytes} (h : (dechunk s).isSome) (ht : t ≠ []) :
    dechunk (s ++ t) = none := by
  obtain ⟨d, hd⟩ := Option.isSome_iff_exists.mp h
  exact dechunkAux_append hd ht

end Chunked
