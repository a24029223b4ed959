import StyleRules.Declaration.Resolved
import StyleRules.Proofs.Declaration.Moved
import StyleRules.Proofs.Table.Forest
import StyleRules.Proofs.Token.Case

/-!
# Declarations and case

Masking a text keeps its lexemes in their places and keeps every `!important`, so texts that agree
up to ASCII case and up to their units outside ASCII hold the same declarations. A table tells these
units apart, but not the case of names and values: it says the same about texts that agree up to
ASCII case.
-/

namespace StyleRules

open CodeUnits (mask ofString)

namespace Lexeme

def mask (lexeme : Lexeme) : Lexeme := { lexeme with units := lexeme.units.mask }

theorem isBang_mask (lexeme : Lexeme) : lexeme.mask.isBang = lexeme.isBang := by
  have hunits : (lexeme.units.mask == [CodeUnit.exclamationMark]) =
      (lexeme.units == [CodeUnit.exclamationMark]) := by
    rcases lexeme.units with _ | ⟨u, _ | ⟨v, rest⟩⟩
    · rfl
    · show (u.mask == CodeUnit.exclamationMark && true) = (u == CodeUnit.exclamationMark && true)
      rw [CodeUnit.mask_beq u (by decide)]
    · show (u.mask == CodeUnit.exclamationMark && false) = (u == CodeUnit.exclamationMark && false)
      rw [Bool.and_false, Bool.and_false]
  exact congrArg (lexeme.kind == .delim && ·) hunits

theorem isImportantWord_mask (lexeme : Lexeme) :
    lexeme.mask.isImportantWord = lexeme.isImportantWord :=
  congrArg (lexeme.kind == .ident && ·)
    (CodeUnits.equalsFolded_mask lexeme.units (by decide +kernel))

theorem moves_mask : Moves 0 mask :=
  ⟨⟨fun _ => rfl, isBang_mask, isImportantWord_mask⟩, fun _ => (Nat.zero_add _).symm⟩

theorem map_mask_place (start : Nat) (s : CodeUnits) (tokens : List Token) :
    (place start s tokens).map mask = place start s.mask tokens := by
  induction tokens generalizing start s with
  | nil => rfl
  | cons token tokens ih =>
    rw [place, place, List.map_cons, ih, CodeUnits.take_mask, CodeUnits.drop_mask]
    rfl

theorem ofText_mask (s : CodeUnits) : ofText s.mask = (ofText s).map mask := by
  rw [ofText, ofText, Token.ofText_mask, map_mask_place]

end Lexeme

theorem Declaration.raise_zero (declaration : Declaration) : declaration.raise 0 = declaration := by
  simp only [raise, Span.raise, Nat.zero_add]

theorem Declaration.ofText_mask (s : CodeUnits) : ofText s.mask = ofText s := by
  have hmoved := ofLexemes_map Lexeme.moves_mask s.length (Lexeme.ofText s)
  rw [Nat.zero_add, funext raise_zero, List.map_id'] at hmoved
  rw [ofText, Lexeme.ofText_mask, CodeUnits.length_mask, hmoved, ofText]

theorem Declaration.ofText_of_mask {a b : CodeUnits} (h : a.mask = b.mask) :
    ofText a = ofText b := by
  rw [← ofText_mask a, h, ofText_mask]

namespace Table

variable {name value name' value' : CodeUnits}

theorem renameId_of_fold (table : Table) (hname : name.fold = name'.fold) :
    table.renameId name = table.renameId name' := table.rename.lookup_of_fold 0 hname

theorem replaceId_of_fold (table : Table) (hname : name.fold = name'.fold)
    (hvalue : value.fold = value'.fold) :
    table.replaceId name value = table.replaceId name' value' := by
  unfold replaceId
  simp only [table.replace.lookup_of_fold _ hname, table.replace.lookup_of_fold _ hvalue]

theorem resolve_of_fold (table : Table) (hname : name.fold = name'.fold)
    (hvalue : value.fold = value'.fold) :
    table.resolve name value = table.resolve name' value' := by
  rw [resolve, table.renameId_of_fold hname, table.replaceId_of_fold hname hvalue, resolve]

end Table

theorem Resolved.ofText_of_fold (table : Table) {a b : CodeUnits} (h : a.fold = b.fold) :
    ofText table a = ofText table b := by
  rw [ofText, ofText, Declaration.ofText_of_mask (CodeUnits.mask_of_fold h)]
  apply List.map_congr_left
  intro declaration _
  have hslice (span : Span) : (span.slice a).fold = (span.slice b).fold := span.map_slice_congr h
  simp only [ofDeclaration, Span.cut_toArray, table.resolve_of_fold (hslice _) (hslice _)]

/-- Texts that agree up to ASCII case have the same tokens, and under every table the same
declarations with the same rules. -/
theorem Resolved.all_of_fold {a b : CodeUnits} (h : a.fold = b.fold) :
    Token.all a = Token.all b ∧ ∀ table, all table a = all table b := by
  have hread : a.addressable.fold = b.addressable.fold := CodeUnits.map_addressable_congr h
  constructor
  · rw [Token.all, Token.all, ← Token.ofText_mask a.addressable, CodeUnits.mask_of_fold hread,
      Token.ofText_mask]
  · exact fun table => ofText_of_fold table hread

/-- The url, its escaped letter and the mark are found in either case. -/
theorem Resolved.all_of_fold_url :
    (ofString "COLOR:U\\52 L( x)!IMPORTANT").fold = (ofString "color:u\\52 l( x)!important").fold ∧
      Token.all (ofString "COLOR:U\\52 L( x)!IMPORTANT") =
        Token.all (ofString "color:u\\52 l( x)!important") ∧
      ∀ table, all table (ofString "COLOR:U\\52 L( x)!IMPORTANT") =
        all table (ofString "color:u\\52 l( x)!important") :=
  ⟨by decide, all_of_fold (by decide)⟩

end StyleRules
