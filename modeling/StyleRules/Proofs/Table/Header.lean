import StyleRules.Proofs.Table.Encoding

/-!
# Which bytes are a table

The header decides: its magic, its version, and the length that its two numbers of nodes promise.
What follows the promised bytes is not looked at, and without all of them there is no table.
-/

namespace StyleRules.Table

/-- How many bytes the header promises. -/
def promised (bytes : Bytes) : Nat :=
  headerLength + (wordAt bytes 8).toNat * Node.byteCount + (wordAt bytes 12).toNat * Node.byteCount

structure IsAccepted (bytes : Bytes) : Prop where
  header : headerLength ≤ bytes.length
  magic : bytes.take 4 = magic
  version : halfAt bytes 4 = formatVersion
  length : promised bytes ≤ bytes.length

/-- The error reports the first check that fails, with what was found. -/
def FirstFailure (bytes : Bytes) : ReadError → Prop
  | .tooShort => bytes.length < headerLength
  | .badMagic => headerLength ≤ bytes.length ∧ bytes.take 4 ≠ magic
  | .unsupportedVersion version => headerLength ≤ bytes.length ∧ bytes.take 4 = magic ∧
      version = halfAt bytes 4 ∧ version ≠ formatVersion
  | .truncated expected actual => headerLength ≤ bytes.length ∧ bytes.take 4 = magic ∧
      halfAt bytes 4 = formatVersion ∧ expected = promised bytes ∧ actual = bytes.length ∧
      actual < expected

variable {bytes : Bytes}

theorem promised_lt (bytes : Bytes) : promised bytes < 2 ^ 64 := by
  have hrename := (wordAt bytes 8).toNat_lt
  have hreplace := (wordAt bytes 12).toNat_lt
  simp only [promised, headerLength, Node.byteCount, Node.wordCount]
  omega

theorem read_of_isAccepted (h : IsAccepted bytes) :
    read bytes = .ok
      ⟨.ofBytes ((bytes.drop headerLength).take ((wordAt bytes 8).toNat * Node.byteCount)),
        .ofBytes (((bytes.drop headerLength).drop ((wordAt bytes 8).toNat * Node.byteCount)).take
          ((wordAt bytes 12).toNat * Node.byteCount))⟩ := by
  unfold read
  rw [if_neg (Nat.not_lt.mpr h.header), if_neg (not_not_intro h.magic)]
  dsimp only
  rw [if_neg (not_not_intro h.version)]
  exact if_neg (Nat.not_lt.mpr h.length)

theorem read_of_firstFailure {error : ReadError} (h : FirstFailure bytes error) :
    read bytes = .error error := by
  unfold read
  cases error with
  | tooShort => exact if_pos h
  | badMagic => rw [if_neg (Nat.not_lt.mpr h.1), if_pos h.2]
  | unsupportedVersion version =>
    obtain ⟨hheader, hmagic, rfl, hversion⟩ := h
    rw [if_neg (Nat.not_lt.mpr hheader), if_neg (not_not_intro hmagic)]
    exact if_pos hversion
  | truncated expected actual =>
    obtain ⟨hheader, hmagic, hversion, rfl, rfl, hlength⟩ := h
    rw [if_neg (Nat.not_lt.mpr hheader), if_neg (not_not_intro hmagic)]
    dsimp only
    rw [if_neg (not_not_intro hversion)]
    exact if_pos hlength

theorem isAccepted_or_exists_firstFailure (bytes : Bytes) :
    IsAccepted bytes ∨ ∃ error, FirstFailure bytes error := by
  by_cases hheader : bytes.length < headerLength
  · exact .inr ⟨.tooShort, hheader⟩
  have hheader := Nat.le_of_not_lt hheader
  by_cases hmagic : bytes.take 4 = magic
  · by_cases hversion : halfAt bytes 4 = formatVersion
    · by_cases hlength : bytes.length < promised bytes
      · exact .inr ⟨.truncated _ _, hheader, hmagic, hversion, rfl, rfl, hlength⟩
      · exact .inl ⟨hheader, hmagic, hversion, Nat.le_of_not_lt hlength⟩
    · exact .inr ⟨.unsupportedVersion _, hheader, hmagic, rfl, hversion⟩
  · exact .inr ⟨.badMagic, hheader, hmagic⟩

theorem exists_read_iff (bytes : Bytes) : (∃ table, read bytes = .ok table) ↔ IsAccepted bytes := by
  constructor
  · rintro ⟨table, hread⟩
    refine (isAccepted_or_exists_firstFailure bytes).resolve_right ?_
    rintro ⟨error, hfailure⟩
    rw [read_of_firstFailure hfailure] at hread
    exact absurd hread (by simp)
  · exact fun h => ⟨_, read_of_isAccepted h⟩

theorem read_eq_error_iff (bytes : Bytes) (error : ReadError) :
    read bytes = .error error ↔ FirstFailure bytes error := by
  constructor
  · intro hread
    rcases isAccepted_or_exists_firstFailure bytes with haccepted | ⟨other, hfailure⟩
    · rw [read_of_isAccepted haccepted] at hread
      exact absurd hread (by simp)
    · rw [read_of_firstFailure hfailure] at hread
      exact Except.error.inj hread ▸ hfailure
  · exact read_of_firstFailure

/-! ## More bytes and fewer -/

theorem wordAt_append {i : Nat} (hi : i + 4 ≤ bytes.length) (extra : Bytes) :
    wordAt (bytes ++ extra) i = wordAt bytes i := by
  have hbyte : ∀ j < i + 4, (bytes ++ extra).getD j 0 = bytes.getD j 0 := by
    intro j hj
    rw [List.getD_eq_getElem?_getD, List.getD_eq_getElem?_getD,
      List.getElem?_append_left (by omega)]
  rw [wordAt, wordAt, hbyte i (by omega), hbyte (i + 1) (by omega), hbyte (i + 2) (by omega),
    hbyte (i + 3) (by omega)]

theorem halfAt_append {i : Nat} (hi : i + 2 ≤ bytes.length) (extra : Bytes) :
    halfAt (bytes ++ extra) i = halfAt bytes i := by
  have hbyte : ∀ j < i + 2, (bytes ++ extra).getD j 0 = bytes.getD j 0 := by
    intro j hj
    rw [List.getD_eq_getElem?_getD, List.getD_eq_getElem?_getD,
      List.getElem?_append_left (by omega)]
  rw [halfAt, halfAt, hbyte i (by omega), hbyte (i + 1) (by omega)]

theorem header_append (hheader : headerLength ≤ bytes.length) (extra : Bytes) :
    (bytes ++ extra).take 4 = bytes.take 4 ∧ halfAt (bytes ++ extra) 4 = halfAt bytes 4 ∧
      wordAt (bytes ++ extra) 8 = wordAt bytes 8 ∧
      wordAt (bytes ++ extra) 12 = wordAt bytes 12 := by
  unfold headerLength at hheader
  exact ⟨List.take_append_of_le_length (by omega), halfAt_append (by omega) extra,
    wordAt_append (by omega) extra, wordAt_append (by omega) extra⟩

theorem read_append (h : IsAccepted bytes) (extra : Bytes) :
    read (bytes ++ extra) = read bytes := by
  obtain ⟨hmagic, hversion, hrename, hreplace⟩ := header_append h.header extra
  have hlength := h.length
  have hpromised : promised (bytes ++ extra) = promised bytes := by
    rw [promised, promised, hrename, hreplace]
  have haccepted : IsAccepted (bytes ++ extra) := by
    refine ⟨?_, hmagic.trans h.magic, hversion.trans h.version, ?_⟩
    · exact Nat.le_trans h.header (by rw [List.length_append]; exact Nat.le_add_right _ _)
    · rw [hpromised, List.length_append]
      exact Nat.le_trans hlength (Nat.le_add_right _ _)
  have hnodes : (bytes.drop headerLength).length = bytes.length - headerLength := List.length_drop
  unfold promised at hlength
  rw [read_of_isAccepted haccepted, read_of_isAccepted h, hrename, hreplace,
    List.drop_append_of_le_length h.header, List.take_append_of_le_length (by omega),
    List.drop_append_of_le_length (by omega),
    List.take_append_of_le_length (by rw [List.length_drop]; omega)]

theorem read_take (h : IsAccepted bytes) {n : Nat} (hn : n < promised bytes) :
    read (bytes.take n) =
      .error (if n < headerLength then .tooShort else .truncated (promised bytes) n) := by
  have hlength : (bytes.take n).length = n :=
    List.length_take_of_le (Nat.le_of_lt (Nat.lt_of_lt_of_le hn h.length))
  apply read_of_firstFailure
  split
  · next hshort => rwa [FirstFailure, hlength]
  · next hlong =>
    have hheader : headerLength ≤ (bytes.take n).length := by
      rw [hlength]
      exact Nat.le_of_not_lt hlong
    obtain ⟨hmagic, hversion, hrename, hreplace⟩ := header_append hheader (bytes.drop n)
    rw [List.take_append_drop] at hmagic hversion hrename hreplace
    refine ⟨hheader, hmagic.symm.trans h.magic, hversion.symm.trans h.version, ?_, hlength.symm, hn⟩
    rw [promised, promised, hrename, hreplace]

end StyleRules.Table
