import StyleRules.Proofs.Expansion.Rescan
import StyleRules.Proofs.Rules.Numbering
import StyleRules.Proofs.Table.Room
import StyleRules.Proofs.Text.WellFormed

/-!
# Expanding preserves declarations

Reading an expanded style without rules gives what the declarations of the source expand to, just if
no emitted value takes units of what is written behind it. The bundled rules spell out words, so
this holds of them. The style has to fit within what is read of a text, and a source that is longer
than that must not end within a surrogate pair there.
-/

namespace StyleRules

open CodeUnits (IsText IsWellFormed maxLength ofString)

namespace RuleSet

variable {rules : RuleSet}

theorem ofString_style (hrules : rules.IsSpelledOut) {source : String}
    (hsource : IsText (ofString source).addressable) :
    ofString (ExpandedStyle.ofString rules source).style = rules.styleUnits (ofString source) := by
  have hrescanned := rescanned_ofLexemes hrules (Lexeme.run_ofText (ofString source).addressable)
  exact (hrescanned.text hsource).ofString_toText

/-- What is read from an expanded style agrees with what is expected, under whatever table. -/
theorem agrees_styleUnits (hrules : rules.IsSpelledOut) (table : Table) {source : CodeUnits}
    (hfits : (rules.styleUnits source).length ≤ maxLength) :
    Reading.Agrees
      ((Resolved.all rules.table source).flatMap (Resolved.readings rules source.addressable))
      ((Resolved.all table (rules.styleUnits source)).map fun resolved =>
        resolved.declaration.reading (rules.styleUnits source))
      (∀ resolved ∈ Resolved.all rules.table source,
        resolved.IsKept rules source.addressable) := by
  have hread : ∀ text : CodeUnits, (Resolved.ofText table text).map
      (fun resolved => resolved.declaration.reading text) =
        Reading.ofLexemes (Lexeme.pieces text) := by
    intro text
    rw [Reading.ofLexemes_pieces, Resolved.ofText, List.map_map]
    rfl
  rw [Resolved.all, Resolved.all, CodeUnits.addressable_of_length_le hfits, hread]
  exact (rescanned_ofLexemes hrules (Lexeme.run_ofText _)).agrees

/-- What is read from an expanded style is what is expected just if all declarations are kept. -/
theorem readings_style (hrules : rules.IsSpelledOut) {source : String}
    (hsource : IsText (ofString source).addressable)
    (hfits : (ofString (ExpandedStyle.ofString rules source).style).length ≤ maxLength) :
    ((Resolved.all .empty (ofString (ExpandedStyle.ofString rules source).style)).map
        fun resolved =>
          resolved.declaration.reading (ofString (ExpandedStyle.ofString rules source).style)) =
      (Resolved.all rules.table (ofString source)).flatMap
        (Resolved.readings rules (ofString source).addressable) ↔
    ∀ resolved ∈ Resolved.all rules.table (ofString source),
      resolved.IsKept rules (ofString source).addressable := by
  rw [ofString_style hrules hsource] at hfits ⊢
  exact (agrees_styleUnits hrules .empty hfits).eq_iff

/-! ## The bundled rules -/

theorem exists_bundled : ∃ rules, bundled = .ok rules := by
  have hbuild : ∃ asset, Table.build (tableRules (configured Bundled.renames Bundled.replaces)) =
      .ok asset :=
    Table.exists_build (by decide +kernel) (by decide +kernel) (by decide +kernel)
      (by decide +kernel)
  obtain ⟨asset, hbuild⟩ := hbuild
  exact ⟨_, build_of_table hbuild⟩

theorem isSpelledOut_bundled {rules : RuleSet} (h : bundled = .ok rules) : rules.IsSpelledOut := by
  have hall : ((configured Bundled.renames Bundled.replaces).map Prod.snd).all
      Action.isSpelledOut = true := by decide +kernel
  have hactions := (build_eq_ok h).2
  generalize (configured Bundled.renames Bundled.replaces).map Prod.snd = actions at hall hactions
  rw [IsSpelledOut, hactions]
  exact List.all_eq_true.mp hall

/-! ### An important colour -/

section

variable {source value : CodeUnits}

/-- A colour of three units that no rule of the table is for becomes what the special rule adds. -/
theorem expansion_of_color (h : bundled = .ok rules)
    (hall : Declaration.ofText source = [⟨⟨0, 5⟩, ⟨6, 9⟩, true, 19⟩])
    (hname : Span.slice ⟨0, 5⟩ source = ofString "color")
    (hvalue : Span.slice ⟨6, 9⟩ source = value)
    (hreplace : Table.answeringReplace
      (tableRules (configured Bundled.renames Bundled.replaces)) (ofString "color") value = 0)
    (hgradient : value.startsWith "linear-gradient" = false) :
    Resolved.ofText rules.table source = [⟨⟨⟨0, 5⟩, ⟨6, 9⟩, true, 19⟩, .none⟩] ∧
      Expansion.ofResolved rules source.toArray ⟨⟨⟨0, 5⟩, ⟨6, 9⟩, true, 19⟩, .none⟩ =
        ⟨none, SpecialRule.plainColor.map (Emitted.ofSpecial value), [], value⟩ := by
  have htable := (build_eq_ok h).1
  have hrename : rules.table.renameId (ofString "color") = 0 := by
    rw [table, Table.renameId_eq_lastEntry htable]
    decide +kernel
  have hnoReplace : rules.table.replaceId (ofString "color") value = 0 := by
    rw [table, Table.replaceId_eq_answeringReplace htable]
    exact hreplace
  have hrule : SpecialRule.forProperty? (ofString "color") = some .color := by decide +kernel
  constructor
  · rw [Resolved.ofText, hall, List.map_singleton, Resolved.ofDeclaration, Table.resolve]
    dsimp only
    rw [Span.cut_toArray, Span.cut_toArray, hname, hvalue, hrename, hnoReplace]
    rfl
  · have hadded : SpecialRule.color.declarations value false = SpecialRule.plainColor := by
      rw [SpecialRule.declarations, if_neg Bool.false_ne_true, hgradient,
        if_neg Bool.false_ne_true]
    rw [Expansion.ofResolved_eq]
    dsimp only
    rw [hname, hvalue, hrule]
    show Expansion.mk none ((SpecialRule.color.declarations value false).map _) [] value = _
    rw [hadded]

theorem length_styleOfText_of_color
    (hall : Declaration.ofText source = [⟨⟨0, 5⟩, ⟨6, 9⟩, true, 19⟩])
    (hresolved : Resolved.ofText rules.table source = [⟨⟨⟨0, 5⟩, ⟨6, 9⟩, true, 19⟩, .none⟩])
    (hexpansion : Expansion.ofResolved rules source.toArray ⟨⟨⟨0, 5⟩, ⟨6, 9⟩, true, 19⟩, .none⟩ =
      ⟨none, SpecialRule.plainColor.map (Emitted.ofSpecial value), [], value⟩) :
    (rules.styleOfText source).length ≤
      (Emitted.joined true (SpecialRule.plainColor.map (Emitted.ofSpecial value))).length +
        source.length := by
  have hone : rules.resolve source ⟨⟨0, 5⟩, ⟨6, 9⟩, true, 19⟩ =
      ⟨⟨⟨0, 5⟩, ⟨6, 9⟩, true, 19⟩, .none⟩ := by
    rw [Resolved.ofText, hall, List.map_singleton] at hresolved
    exact List.singleton_inj.mp hresolved
  have hstyle : rules.styleOfText source = rules.styleFrom source 0
      [⟨⟨0, 5⟩, ⟨6, 9⟩, true, 19⟩] := by
    rw [← hall]
    rfl
  have hchanged : (Expansion.ofResolved rules source.toArray
      (rules.resolve source ⟨⟨0, 5⟩, ⟨6, 9⟩, true, 19⟩)).isTrivial = false := by
    rw [hone, hexpansion]
    rfl
  have hexpanded := @styleFrom_expanded _ _ [] _ hchanged
  rw [hone, hexpansion, rules.styleFrom_nil] at hexpanded
  rw [hstyle, hexpanded, List.length_append, List.length_drop]
  exact Nat.add_le_add_left (Nat.sub_le _ _) _

/-- Such a colour is kept just if its value is sealed against the ` !important` behind it. -/
theorem isKept_of_color (h : bundled = .ok rules) {source : String}
    (hall : Declaration.ofText (ofString source) = [⟨⟨0, 5⟩, ⟨6, 9⟩, true, 19⟩])
    (hname : Span.slice ⟨0, 5⟩ (ofString source) = ofString "color")
    (hvalue : Span.slice ⟨6, 9⟩ (ofString source) = value)
    (hreplace : Table.answeringReplace
      (tableRules (configured Bundled.renames Bundled.replaces)) (ofString "color") value = 0)
    (hgradient : value.startsWith "linear-gradient" = false)
    (hshort : (Emitted.joined true (SpecialRule.plainColor.map (Emitted.ofSpecial value))).length +
      (ofString source).length ≤ maxLength) :
    (ofString (ExpandedStyle.ofString rules source).style).length ≤ maxLength ∧
      ((∀ resolved ∈ Resolved.all rules.table (ofString source),
          resolved.IsKept rules (ofString source).addressable) ↔
        Token.IsSealed value CodeUnit.space) := by
  have hread : (ofString source).addressable = ofString source :=
    CodeUnits.addressable_of_length_le (Nat.le_trans (Nat.le_add_left _ _) hshort)
  obtain ⟨hresolved, hexpansion⟩ := expansion_of_color h hall hname hvalue hreplace hgradient
  constructor
  · rw [ofString_style (isSpelledOut_bundled h) (by rw [hread]; exact CodeUnits.isText_ofString _),
      styleUnits, hread]
    exact Nat.le_trans (length_styleOfText_of_color hall hresolved hexpansion) hshort
  · have hinitial : Token.IsSealed (ofString "initial") CodeUnit.space := by decide +kernel
    have hareSealed : Emitted.AreSealed true
        (SpecialRule.plainColor.map (Emitted.ofSpecial value)) ↔
          Token.IsSealed value CodeUnit.space := by
      simp [Emitted.AreSealed, SpecialRule.plainColor, Emitted.ofSpecial, hinitial]
    rw [Resolved.all, hread, hresolved, List.forall_mem_singleton, Resolved.IsKept, hexpansion]
    exact Iff.trans ⟨fun hkept => hkept rfl, fun hsealed _ => hsealed⟩ hareSealed

end

/-- Expanding under the bundled rules preserves the declarations of a text just if every value that
is written before ` !important` or before a `;` is sealed against it. -/
theorem readings_bundled_style (source : String)
    (hsource : IsWellFormed (ofString source).addressable) :
    ∃ rules, bundled = .ok rules ∧
      ((ofString (ExpandedStyle.ofString rules source).style).length ≤ maxLength →
        (((Resolved.all .empty (ofString (ExpandedStyle.ofString rules source).style)).map
            fun resolved =>
              resolved.declaration.reading
                (ofString (ExpandedStyle.ofString rules source).style)) =
          (Resolved.all rules.table (ofString source)).flatMap
            (Resolved.readings rules (ofString source).addressable) ↔
        ∀ resolved ∈ Resolved.all rules.table (ofString source),
          resolved.IsKept rules (ofString source).addressable)) := by
  obtain ⟨rules, hrules⟩ := exists_bundled
  exact ⟨rules, hrules,
    readings_style (isSpelledOut_bundled hrules) (CodeUnits.isText_of_isWellFormed hsource)⟩

/-- The colour `red` is read back with what the special rule adds to it. -/
theorem readings_bundled_of_red : IsWellFormed (ofString "color:red!important").addressable ∧
    ∃ rules, bundled = .ok rules ∧
      (ofString (ExpandedStyle.ofString rules "color:red!important").style).length ≤ maxLength ∧
      (Resolved.all .empty
          (ofString (ExpandedStyle.ofString rules "color:red!important").style)).map
            (fun resolved => resolved.declaration.reading
              (ofString (ExpandedStyle.ofString rules "color:red!important").style)) =
        (Resolved.all rules.table (ofString "color:red!important")).flatMap
          (Resolved.readings rules (ofString "color:red!important").addressable) := by
  have hsource : IsWellFormed (ofString "color:red!important").addressable := by
    rw [CodeUnits.addressable_of_length_le (by decide)]
    exact CodeUnits.isWellFormed_ofString _
  obtain ⟨rules, hrules, hkept⟩ := readings_bundled_style "color:red!important" hsource
  obtain ⟨hfits, hsealed⟩ := @isKept_of_color _ (ofString "red") hrules
    "color:red!important" (by decide +kernel) (by decide +kernel) (by decide +kernel)
    (by decide +kernel) (by decide +kernel) (by decide +kernel)
  exact ⟨hsource, rules, hrules, hfits, (hkept hfits).mpr (hsealed.mpr (by decide +kernel))⟩

/-- The colour whose value is a hexadecimal escape is read back with a space in its value. -/
theorem readings_bundled_of_escaped_color : ∃ rules, bundled = .ok rules ∧
    (Resolved.all .empty
        (ofString (ExpandedStyle.ofString rules "color:\\31!important").style)).map
          (fun resolved => resolved.declaration.reading
            (ofString (ExpandedStyle.ofString rules "color:\\31!important").style)) ≠
      (Resolved.all rules.table (ofString "color:\\31!important")).flatMap
        (Resolved.readings rules (ofString "color:\\31!important").addressable) := by
  obtain ⟨rules, hrules⟩ := exists_bundled
  have hsource : IsText (ofString "color:\\31!important").addressable := by
    rw [CodeUnits.addressable_of_length_le (by decide)]
    exact CodeUnits.isText_ofString _
  obtain ⟨hfits, hsealed⟩ := @isKept_of_color _ (ofString "\\31") hrules
    "color:\\31!important" (by decide +kernel) (by decide +kernel) (by decide +kernel)
    (by decide +kernel) (by decide +kernel) (by decide +kernel)
  refine ⟨rules, hrules, ?_⟩
  rw [ne_eq, readings_style (isSpelledOut_bundled hrules) hsource hfits, hsealed]
  decide +kernel

end RuleSet

end StyleRules
