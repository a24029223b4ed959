import StyleRules.Proofs.Token.Longest
import StyleRules.Proofs.Token.Tiling

/-!
# Tokens that hold a name

Three units tell whether a name is at the start of a text. The reader then takes the name whole, and
the unit behind it decides whether the token ends there. A mark takes the name behind it whole too.
A name that runs past the addressable text is cut where this text ends.
-/

namespace StyleRules

open CodeUnits (ahead ofString startsIdentifier startsNumber)

/-! ## Looking ahead for a name -/

theorem CodeUnit.startsNumber_of_isDigit {first second third : CodeUnit}
    (h : first.isDigit = true) : startsNumber first second third = true := by
  unfold startsNumber
  split
  · next hsign =>
    rw [Bool.or_eq_true, beq_iff_eq, beq_iff_eq] at hsign
    rcases hsign with rfl | rfl <;> exact absurd h (by decide)
  · split
    · next hstop =>
      obtain rfl := beq_iff_eq.mp hstop
      exact absurd h (by decide)
    · exact h

namespace Token

variable {s : CodeUnits}

/-- The first token of a text as its first unit tells it. Behind a sign, a full stop, a hyphen and a
backslash the next units decide; a unit that begins neither a name nor a number is read for
itself. -/
def readByUnit (s : CodeUnits) : Token :=
  match s with
  | [] => eof
  | u :: rest =>
    if u.isDigit then readNumeric s
    else if u == CodeUnit.plusSign || u == CodeUnit.fullStop then
      if startsNumber s then readNumeric s else plain .delim 1
    else if u == CodeUnit.hyphen then
      if startsNumber s then readNumeric s
      else if ahead rest 0 == CodeUnit.hyphen && ahead rest 1 == CodeUnit.greaterThan then
        plain .cdc 3
      else if startsIdentifier s then readIdentLike s
      else plain .delim 1
    else if u == CodeUnit.backslash then
      if CodeUnit.isValidEscape u (ahead rest 0) then readIdentLike s else plain .delim 1
    else if u.isNameStart then readIdentLike s
    else readOther u rest

theorem read_eq_readByUnit (s : CodeUnits) : read s = readByUnit s := by
  cases s with
  | nil => rfl
  | cons u rest =>
    have hne := List.cons_ne_nil u rest
    rw [readByUnit]
    split
    · next hdigit => exact read_of_number hne (CodeUnit.startsNumber_of_isDigit hdigit)
    split
    · next hmark =>
      rw [Bool.or_eq_true, beq_iff_eq, beq_iff_eq] at hmark
      split
      · next hnumber => exact read_of_number hne hnumber
      · next hnumber =>
        rw [Bool.not_eq_true] at hnumber
        rcases hmark with rfl | rfl <;> exact read_of_other hnumber rfl rfl
    split
    · next hhyphen =>
      obtain rfl := beq_iff_eq.mp hhyphen
      split
      · next hnumber => exact read_of_number hne hnumber
      · next hnumber =>
        rw [Bool.not_eq_true] at hnumber
        split
        · next hcdc => exact read_of_cdc hne hnumber hcdc
        · next hcdc =>
          have hcdc : startsCdc (CodeUnit.hyphen :: rest) = false := Bool.eq_false_iff.mpr hcdc
          split
          · next hident => exact read_of_identifier hne hnumber hcdc hident
          · next hident => exact read_of_other hnumber hcdc (Bool.eq_false_iff.mpr hident)
    split
    · next hslash =>
      obtain rfl := beq_iff_eq.mp hslash
      split
      · next hescape => exact read_of_identifier hne rfl rfl hescape
      · next hescape => exact read_of_other rfl rfl (Bool.eq_false_iff.mpr hescape)
    split
    · next hname =>
      obtain ⟨-, -, hhyphen, -, hslash⟩ := CodeUnit.isNameStart_ne hname
      have hcdc : startsCdc (u :: rest) = false := by
        rw [startsCdc, CodeUnits.ahead_cons_zero, hhyphen]
        rfl
      have hident : startsIdentifier (u :: rest) = true := by
        rw [startsIdentifier, CodeUnit.startsIdentifier, CodeUnits.ahead_cons_zero, hhyphen, hslash]
        exact hname
      exact read_of_identifier hne (CodeUnit.startsNumber_of_startsIdentifier hident) hcdc hident
    · next hdigit hmark hhyphen hslash hname =>
      have hu : isMark u = true := by
        simp_all [isMark]
      exact read_of_isMark hu rest

theorem startsCdc_iff : startsCdc s = true ↔ s.take 3 = ofString "-->" := by
  constructor
  · intro h
    rw [startsCdc, Bool.and_eq_true, Bool.and_eq_true, beq_iff_eq, beq_iff_eq, beq_iff_eq] at h
    obtain ⟨rest, rfl⟩ := CodeUnits.exists_of_three_ahead h.1.1 h.1.2 h.2 (by decide) (by decide)
      (by decide)
    rfl
  · intro h
    rw [startsCdc, ← CodeUnits.ahead_take s (n := 3) (by omega),
      ← CodeUnits.ahead_take s (n := 3) (by omega), ← CodeUnits.ahead_take s (n := 3) (by omega), h]
    rfl

theorem Kind.startsWith_eq_name_iff {kind : Kind} :
    kind.startsWith = .name ↔ kind ∈ [.ident, .function, .url, .badUrl] := by
  cases kind <;> decide

/-! ## Tokens of names -/

/-- What a token that begins with a name is made of: the name, which ends an identifier and has an
opening parenthesis behind it in any other token. -/
structure IsNamed (s name : CodeUnits) (token : Token) : Prop where
  whole : Name.IsWhole s name
  ident_iff : token.kind = .ident ↔ ahead s name.length ≠ CodeUnit.leftParen
  ident : token.kind = .ident → token = ⟨.ident, name.length, (Name.extent s).flags⟩
  opened : token.kind ≠ .ident → name.length < token.length

/-- What a token that begins with a mark is made of: the mark and a name. -/
structure IsMarked (s : CodeUnits) (mark : CodeUnit) (name : CodeUnits) (token : Token) :
    Prop where
  whole : Name.IsWhole (s.drop 1) name
  units : s.take token.length = mark :: name

theorem read_take_of_ident (hkind : (read s).kind = .ident) :
    read (s.take (read s).length) = read s := by
  have hident := startsIdentifier_of_ident hkind
  have hnumber := CodeUnit.startsNumber_of_startsIdentifier hident
  have hcdc : startsCdc (s.take (read s).length) = false := by
    rw [Bool.eq_false_iff]
    intro hcdc
    have hprefix : ofString "-->" <+: s := by
      rw [← startsCdc_iff.mp hcdc]
      exact (List.take_prefix 3 _).trans (List.take_prefix _ s)
    have hlonger := startsCdc_iff.mpr (List.prefix_iff_eq_take.mp hprefix).symm
    exact Bool.false_ne_true ((starts_of_ident hkind).2.symm.trans hlonger)
  have halone := CodeUnits.ne_nil_of_startsIdentifier hident
  rw [read_of_identifier halone hnumber hcdc hident, read_of_kind_ident hkind]
  dsimp only
  rw [readIdentLike_of_ident, Name.extent_take]
  rw [Name.extent_take, List.drop_eq_nil_of_le (List.length_take_le _ s)]
  decide

theorem isNamed_readIdentLike (hident : startsIdentifier s = true) :
    (readIdentLike s).IsNamed s (s.take (Name.extent s).length) := by
  have hwhole := Name.isWhole_take (Name.length_extent_pos_of_startsIdentifier hident)
  have hlength := List.length_take_of_le (Name.length_extent_le s)
  generalize s.take (Name.extent s).length = name at hwhole hlength ⊢
  have hbehind : ahead (s.drop name.length) 0 = ahead s name.length :=
    CodeUnits.ahead_drop s name.length 0
  by_cases hparen : ahead s name.length = CodeUnit.leftParen
  · rw [hparen, hlength] at hbehind
    obtain ⟨hkind, hlonger⟩ := readIdentLike_of_opened hbehind
    exact ⟨hwhole, iff_of_false hkind fun h => h hparen, fun h => absurd h hkind,
      fun _ => hlength ▸ hlonger⟩
  · have hread := readIdentLike_of_ident (s := s) (by rwa [← hlength, hbehind])
    rw [hread, ← hlength]
    exact ⟨hwhole, iff_of_true rfl hparen, fun _ => rfl, fun h => absurd rfl h⟩

theorem Kind.of_mark? {kind : Kind} {mark : CodeUnit} (h : kind.mark? = some mark) :
    kind.startsWith = .other ∧ kind.endsInName = true := by
  cases kind <;> first | exact ⟨rfl, rfl⟩ | cases h

theorem exists_isMarked_read {mark : CodeUnit} (hmark : (read s).kind.mark? = some mark) :
    ∃ name, (read s).IsMarked s mark name := by
  obtain ⟨hother, hends⟩ := Kind.of_mark? hmark
  obtain ⟨-, u, rest, rfl, hread⟩ := at_of_startsWith hother
  rw [hread] at hmark hends ⊢
  obtain ⟨kind, hkind, hpos, hmarked⟩ := readOther_of_endsInName hends
  rw [hmarked] at hmark ⊢
  obtain rfl : u = mark := Option.some.inj (hkind.symm.trans hmark)
  refine ⟨rest.take (Name.extent rest).length, Name.isWhole_take hpos, ?_⟩
  show (u :: rest).take (1 + (Name.extent rest).length) = _
  rw [Nat.add_comm, List.take_succ_cons]

end Token

/-- A token at a cursor is a name, or opens with one, just where the three units there start an
identifier and are not `-->`; the name is then taken whole. -/
theorem Cursor.next_named (cursor : Cursor) :
    (cursor.next.1.kind ∈ [.ident, .function, .url, .badUrl] ↔
      CodeUnit.startsIdentifier (cursor.ahead 0) (cursor.ahead 1) (cursor.ahead 2) = true ∧
        cursor.rest.take 3 ≠ ofString "-->") ∧
    (cursor.next.1.kind ∈ [.ident, .function, .url, .badUrl] →
      ∃ name, cursor.next.1.IsNamed cursor.rest name) ∧
    ∀ mark, cursor.next.1.kind.mark? = some mark →
      ∃ name, cursor.next.1.IsMarked cursor.rest mark name := by
  rw [← Token.Kind.startsWith_eq_name_iff]
  refine ⟨?_, ?_, fun mark => Token.exists_isMarked_read⟩
  · rw [ahead_eq_rest, ahead_eq_rest, ahead_eq_rest, ne_eq, ← Token.startsCdc_iff,
      Bool.not_eq_true]
    exact Token.startsWith_read_eq_name_iff
  · intro hkind
    obtain ⟨hident, hread⟩ := Token.at_of_startsWith hkind
    refine ⟨cursor.rest.take (Name.extent cursor.rest).length, ?_⟩
    show (Token.read cursor.rest).IsNamed cursor.rest _
    rw [hread]
    exact Token.isNamed_readIdentLike hident

/-- The name behind the colon takes the whitespace that closes its escape. -/
theorem Cursor.next_named_of_escape :
    let cursor : Cursor := ⟨ofString "a:\\62 c(", 2, by decide, by decide⟩
    cursor.next.1 = ⟨.function, 6, ⟨false, true⟩⟩ ∧
      ∃ name, cursor.next.1.IsNamed cursor.rest name := by
  intro cursor
  have hstarts :
      CodeUnit.startsIdentifier (cursor.ahead 0) (cursor.ahead 1) (cursor.ahead 2) = true ∧
        cursor.rest.take 3 ≠ ofString "-->" := by decide +kernel
  obtain ⟨hkind, hnamed, -⟩ := cursor.next_named
  exact ⟨by decide +kernel, hnamed (hkind.mpr hstarts)⟩

/-- A name of 4294967296 letters is not read to its end. -/
theorem Cursor.next_of_long_name :
    let source : CodeUnits := List.replicate (CodeUnits.maxLength + 1) 0x61
    (Cursor.ofUnits source).next.1.kind ∈ [.ident, .function, .url, .badUrl] ∧
      ¬∃ name, (Cursor.ofUnits source).next.1.IsNamed source name := by
  intro source
  have hlength : source.length = CodeUnits.maxLength + 1 := List.length_replicate
  have hkind : (Cursor.ofUnits source).next.1.kind ∈ [.ident, .function, .url, .badUrl] := by
    rw [← Token.Kind.startsWith_eq_name_iff]
    show (Token.read (Cursor.ofUnits source).rest).kind.startsWith = _
    rw [Cursor.rest_ofUnits_replicate, Token.startsWith_read_eq_name_iff]
    exact ⟨rfl, rfl⟩
  refine ⟨hkind, fun ⟨name, hnamed⟩ => ?_⟩
  have hshort := (Cursor.ofUnits source).length_next_le
  have hle : name.length ≤ (Cursor.ofUnits source).next.1.length := by
    by_cases hident : (Cursor.ofUnits source).next.1.kind = .ident
    · rw [hnamed.ident hident]
    · exact Nat.le_of_lt (hnamed.opened hident)
  -- The unit behind what was taken for the name is a letter of the name.
  have hbehind : CodeUnits.ahead source name.length ∈ source := CodeUnits.ahead_mem (by omega)
  have hstops := hnamed.whole.stopsUnits
  rw [List.eq_of_mem_replicate hbehind] at hstops
  exact absurd hstops (by decide)

end StyleRules
