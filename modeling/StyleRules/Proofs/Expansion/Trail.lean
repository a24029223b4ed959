import StyleRules.Expansion.Style
import StyleRules.Proofs.Declaration.Cut
import StyleRules.Proofs.Expansion.Emission
import StyleRules.Proofs.Text.Utf16

/-!
# What stands behind a value

Behind the value of a declaration come trivia and perhaps `!important`, up to the ending of the
declaration. None of it ties itself to what is written before it.
-/

namespace StyleRules

open CodeUnits (ahead whitespaceRun)
open Lexeme (Run loosen pieces)
open Token (Break)

variable {source : CodeUnits} {lexeme : Lexeme}

/-! ## Trivia in its place -/

namespace Lexeme.StandsIn

theorem trivia_cases (h : lexeme.StandsIn source) (htrivia : lexeme.isTrivia = true) :
    (∀ u ∈ lexeme.units, u.isWhitespace = true) ∨
      ∃ rest, source.drop lexeme.start = CodeUnit.solidus :: CodeUnit.asterisk :: rest ∧
        lexeme.token = (Token.readComment rest).grow 2 := by
  have hkind : lexeme.kind.isTrivia = true := htrivia
  rw [Token.Kind.isTrivia, Bool.or_eq_true, beq_iff_eq, beq_iff_eq, Lexeme.kind, h.token] at hkind
  rcases hkind with hkind | hkind
  · left
    rw [h.units, h.token]
    exact (Token.take_read_of_whitespace hkind).1
  · right
    rw [h.token]
    exact Token.read_of_comment hkind

theorem units_of_comment (h : lexeme.StandsIn source) {rest : CodeUnits}
    (hrest : source.drop lexeme.start = CodeUnit.solidus :: CodeUnit.asterisk :: rest)
    (htoken : lexeme.token = (Token.readComment rest).grow 2) :
    lexeme.units = CodeUnit.solidus :: CodeUnit.asterisk ::
      rest.take (Token.readComment rest).length := by
  rw [h.units, htoken, Token.length_grow, Nat.add_comm, hrest]
  rfl

theorem last_of_trivia (h : lexeme.StandsIn source) (htrivia : lexeme.isTrivia = true)
    (hbefore : lexeme.stop < source.length) :
    ∀ u, lexeme.units.getLast? = some u → CodeUnit.isSurrogate u = false := by
  intro u hlast
  rcases h.trivia_cases htrivia with hspace | ⟨rest, hrest, htoken⟩
  · have hu := hspace u (List.mem_of_getLast? hlast)
    simp only [CodeUnit.isWhitespace, CodeUnit.isNewline, Bool.or_eq_true, beq_iff_eq] at hu
    rcases hu with (((rfl | rfl) | rfl) | rfl) | rfl <;> decide
  · rw [h.units_of_comment hrest htoken] at hlast
    rcases Token.getLast?_of_readComment rest with hcut | hend
    · have hlength := congrArg List.length hrest
      rcases Token.readComment_ends rest with ⟨-, hfull⟩ | ⟨-, hcomplete, -⟩
      · rw [List.length_drop, List.length_cons, List.length_cons] at hlength
        unfold Lexeme.stop at hbefore
        rw [htoken, Token.length_grow, hfull] at hbefore
        omega
      · exact absurd (hcomplete.symm.trans hcut) Bool.false_ne_true
    · rw [List.getLast?_cons, List.getLast?_cons, hend] at hlast
      obtain rfl := Option.some.inj hlast
      decide

end Lexeme.StandsIn

/-! ## Text behind a value -/

/-- No quote stands behind the whitespace at the start of a text. -/
def CodeUnits.QuoteFree (s : CodeUnits) : Prop :=
  (ahead (s.drop (whitespaceRun s)) 0).isQuote = false

namespace CodeUnits

variable {x z : CodeUnits}

theorem quoteFree_nil : QuoteFree [] := rfl

theorem quoteFree_cons {u : CodeUnit} (hspace : u.isWhitespace = false)
    (hquote : u.isQuote = false) (z : CodeUnits) : QuoteFree (u :: z) := by
  have hrun : whitespaceRun (u :: z) = 0 := by
    rw [whitespaceRun, List.takeWhile_cons_of_neg (by rw [hspace]; exact Bool.false_ne_true)]
    rfl
  rw [QuoteFree, hrun]
  exact hquote

theorem quoteFree_whitespace_append (hx : ∀ u ∈ x, u.isWhitespace = true) :
    QuoteFree (x ++ z) ↔ QuoteFree z := by
  have hrun : whitespaceRun (x ++ z) = x.length + whitespaceRun z := by
    rw [whitespaceRun, List.takeWhile_append_of_pos hx, List.length_append]
    rfl
  rw [QuoteFree, QuoteFree, hrun, ← List.drop_drop, List.drop_left]

end CodeUnits

section Trail

variable {trail : List Lexeme} {z : CodeUnits}

theorem quoteFree_trail
    (htrail : ∀ lexeme ∈ trail, lexeme.StandsIn source ∧ lexeme.isTrivia = true)
    (hz : z.QuoteFree) : CodeUnits.QuoteFree (trail.flatMap Lexeme.units ++ z) := by
  induction trail with
  | nil => exact hz
  | cons lexeme trail ih =>
    have hrest := ih fun other hmem => htrail other (List.mem_cons_of_mem _ hmem)
    obtain ⟨hstands, htrivia⟩ := htrail lexeme List.mem_cons_self
    rw [List.flatMap_cons, List.append_assoc]
    rcases hstands.trivia_cases htrivia with hspace | ⟨rest, hrest', htoken⟩
    · exact (CodeUnits.quoteFree_whitespace_append hspace).mpr hrest
    · rw [hstands.units_of_comment hrest' htoken]
      exact CodeUnits.quoteFree_cons (by decide) (by decide) _

theorem head_of_trail
    (htrail : ∀ lexeme ∈ trail, lexeme.StandsIn source ∧ lexeme.isTrivia = true)
    {c : CodeUnit} {y : CodeUnits} (h : trail.flatMap Lexeme.units ++ z = c :: y) :
    trail = [] ∧ z = c :: y ∨ c.isWhitespace = true ∨ c = CodeUnit.solidus := by
  cases trail with
  | nil => exact .inl ⟨rfl, h⟩
  | cons lexeme trail =>
    right
    obtain ⟨hstands, htrivia⟩ := htrail lexeme List.mem_cons_self
    rw [List.flatMap_cons, List.append_assoc] at h
    rcases hstands.trivia_cases htrivia with hspace | ⟨rest, hrest, htoken⟩
    · left
      have hne := hstands.units_ne_nil
      cases hunits : lexeme.units with
      | nil => exact absurd hunits hne
      | cons u units =>
        rw [hunits] at h hspace
        obtain rfl := (List.cons.inj h).1
        exact hspace u List.mem_cons_self
    · right
      rw [hstands.units_of_comment hrest htoken] at h
      exact (List.cons.inj h).1.symm

theorem startsApart_trail
    (htrail : ∀ lexeme ∈ trail, lexeme.StandsIn source ∧ lexeme.isTrivia = true)
    (hz : z.startsApart = true) :
    CodeUnits.startsApart (trail.flatMap Lexeme.units ++ z) = true := by
  cases htext : trail.flatMap Lexeme.units ++ z with
  | nil => rfl
  | cons c y =>
    rcases head_of_trail htrail htext with ⟨-, rfl⟩ | hspace | rfl
    · exact hz
    · exact CodeUnit.isSeparator_of_isWhitespace hspace
    · rfl

theorem break_trail
    (htrail : ∀ lexeme ∈ trail, lexeme.StandsIn source ∧ lexeme.isTrivia = true)
    (hquote : z.QuoteFree)
    (hbang : ∀ y, z = CodeUnit.exclamationMark :: y → ahead y 0 ≠ CodeUnit.hyphen)
    {c : CodeUnit} {y : CodeUnits} (h : trail.flatMap Lexeme.units ++ z = c :: y) :
    Break c y := by
  refine ⟨fun hspace => ?_, ?_⟩
  · have hall := quoteFree_trail htrail hquote
    rw [h] at hall
    apply (CodeUnits.quoteFree_whitespace_append (x := [c]) ?_).mp hall
    intro u hmem
    obtain rfl := List.mem_singleton.mp hmem
    exact hspace
  · rintro rfl
    rcases head_of_trail htrail h with ⟨-, hz⟩ | hspace | hsolidus
    · exact hbang y hz
    · exact absurd hspace (by decide)
    · exact absurd hsolidus (by decide)

end Trail

theorem CodeUnits.isSurrogate_of_startsApart {s : CodeUnits} (hs : s.startsApart = true) :
    ∀ u, s.head? = some u → CodeUnit.isSurrogate u = false := by
  intro u hu
  cases s with
  | nil => exact absurd hu (by simp)
  | cons v s =>
    obtain rfl := Option.some.inj hu
    have := CodeUnit.of_isSeparator hs (p := fun u => !CodeUnit.isSurrogate u) (by decide)
    simpa using this

/-! ## Endings -/

namespace ClosedBy

variable {closing : List Lexeme} {stop : Nat} {y : CodeUnits}

theorem quoteFree (h : ClosedBy source closing stop) (hy : source.drop stop = [] → y = []) :
    CodeUnits.QuoteFree (closing.flatMap Lexeme.units ++ y) := by
  rcases h with ⟨last, rfl, hstands, hending⟩ | ⟨rfl, hend⟩
  · obtain ⟨c, hunits, hmem, -⟩ := hstands.ending_cases hending
    rw [List.flatMap_singleton, hunits]
    simp only [List.mem_cons, List.not_mem_nil, or_false] at hmem
    rcases hmem with rfl | rfl | rfl <;> exact CodeUnits.quoteFree_cons (by decide) (by decide) _
  · rw [hy hend]
    exact CodeUnits.quoteFree_nil

theorem ne_bang (h : ClosedBy source closing stop) (hy : source.drop stop = [] → y = [])
    (z : CodeUnits) : closing.flatMap Lexeme.units ++ y ≠ CodeUnit.exclamationMark :: z := by
  rcases h with ⟨last, rfl, hstands, hending⟩ | ⟨rfl, hend⟩
  · obtain ⟨c, hunits, hmem, -⟩ := hstands.ending_cases hending
    rw [List.flatMap_singleton, hunits]
    simp only [List.mem_cons, List.not_mem_nil, or_false] at hmem
    rintro hbang
    have hc := (List.cons.inj hbang).1
    rcases hmem with rfl | rfl | rfl <;> exact absurd hc (by decide)
  · rw [hy hend]
    exact (List.cons_ne_nil _ _).symm

theorem startsApart (h : ClosedBy source closing stop) (hy : source.drop stop = [] → y = []) :
    CodeUnits.startsApart (closing.flatMap Lexeme.units ++ y) = true := by
  rcases h with ⟨last, rfl, hstands, hending⟩ | ⟨rfl, hend⟩
  · obtain ⟨c, hunits, hmem, -⟩ := hstands.ending_cases hending
    rw [List.flatMap_singleton, hunits]
    simp only [List.mem_cons, List.not_mem_nil, or_false] at hmem
    rcases hmem with rfl | rfl | rfl <;> rfl
  · rw [hy hend]
    rfl

theorem apart (h : ClosedBy source closing stop) (x : CodeUnits) :
    CodeUnits.Apart (x ++ closing.flatMap Lexeme.units) (source.drop stop) := by
  rcases h with ⟨last, rfl, hstands, hending⟩ | ⟨rfl, hend⟩
  · obtain ⟨c, hunits, hmem, -⟩ := hstands.ending_cases hending
    apply CodeUnits.Apart.of_last
    intro u hu
    rw [List.flatMap_singleton, hunits, List.getLast?_concat] at hu
    obtain rfl := Option.some.inj hu
    simp only [List.mem_cons, List.not_mem_nil, or_false] at hmem
    rcases hmem with rfl | rfl | rfl <;> decide
  · rw [hend]
    intro u v _ hv
    exact absurd hv (by simp)

end ClosedBy

/-! ## How far an important declaration reaches -/

theorem endsImportant_loosen (lexeme : Lexeme) :
    endsImportant lexeme.loosen = endsImportant lexeme := rfl

/-- The text behind an important value reaches through its last lexeme that is no trivia. -/
theorem importantLength_eq {tail : CodeUnits} {before trail after : List Lexeme} {word : Lexeme}
    (h : pieces tail = before ++ word :: (trail ++ after))
    (hinner : ∀ lexeme ∈ before ++ word :: trail, endsImportant lexeme = false)
    (hword : word.isTrivia = false) (htrail : ∀ lexeme ∈ trail, lexeme.isTrivia = true)
    (hafter : ∀ first, after.head? = some first → endsImportant first = true) :
    importantLength tail = ((before ++ [word]).flatMap Lexeme.units).length := by
  have hrun := Lexeme.run_ofText tail
  obtain ⟨front, behind, hall, hfront, hbehind⟩ := List.map_eq_append_iff.mp h
  obtain ⟨last, rest, rfl, hlast, hrest⟩ := List.map_eq_cons_iff.mp hbehind
  obtain ⟨trail', after', rfl, htrail', hafter'⟩ := List.map_eq_append_iff.mp hrest
  subst hfront hlast htrail' hafter'
  have htake : (Lexeme.ofText tail).takeWhile (fun lexeme => !endsImportant lexeme) =
      front ++ last :: trail' := by
    have hgo : ∀ lexeme ∈ front ++ last :: trail', (!endsImportant lexeme) = true := by
      intro lexeme hmem
      have := hinner lexeme.loosen (by
        rw [← List.map_cons, ← List.map_append]
        exact List.mem_map_of_mem hmem)
      rw [endsImportant_loosen] at this
      rw [this]
      rfl
    have hstop : after'.takeWhile (fun lexeme => !endsImportant lexeme) = [] := by
      cases after' with
      | nil => rfl
      | cons first after' =>
        have := hafter first.loosen rfl
        rw [endsImportant_loosen] at this
        exact List.takeWhile_cons_of_neg (by rw [this]; decide)
    rw [hall, ← List.cons_append, ← List.append_assoc, List.takeWhile_append_of_pos hgo, hstop,
      List.append_nil]
  have hnone : trail'.filter (fun lexeme => !lexeme.isTrivia) = [] := by
    apply Value.significant_of_isTrivia
    intro lexeme hmem
    exact htrail lexeme.loosen (List.mem_map_of_mem hmem)
  have hkept : (front ++ last :: trail').filter (fun lexeme => !lexeme.isTrivia) =
      front.filter (fun lexeme => !lexeme.isTrivia) ++ [last] := by
    have hsignificant : last.isTrivia = false := hword
    rw [List.filter_append, List.filter_cons_of_pos (by rw [hsignificant]; rfl), hnone]
  have hlength : importantLength tail = last.stop := by
    unfold importantLength
    dsimp only
    rw [htake, hkept, List.getLast?_concat]
  rw [hall, ← List.singleton_append, ← List.append_assoc] at hrun
  obtain ⟨j, hinnerRun, hend⟩ := Run.append_iff.mp hrun
  obtain ⟨k, -, hone⟩ := Run.append_iff.mp hinnerRun
  obtain ⟨-, -, hnil⟩ := Run.cons_iff.mp hone
  have hunits := hinnerRun.length_units
  rw [← hnil.eq_of_nil, Nat.zero_add] at hunits
  rw [hlength, ← hunits, List.flatMap_append, List.flatMap_append, Lexeme.units_map_loosen,
    List.flatMap_singleton, List.flatMap_singleton]
  rfl

end StyleRules
