import StyleRules.Proofs.Declaration.Layout
import StyleRules.Proofs.Expansion.Trail

/-!
# Declarations taken apart

The text of a declaration is its name and what stands up to the value, the value, `!important` if
there is one, and trivia up to the ending. `Declaration.Site` says what each part is good for when
other text takes the place of the first three.
-/

namespace StyleRules

open CodeUnits (ahead)
open Lexeme (Run loosen pieces)
open Token (Break)
open Value (Core Parts Unmarked significant)

variable {source : CodeUnits}

namespace Value

variable {body lead core tail : List Lexeme} {isImportant : Bool}

theorem Parts.core_loosen (h : Parts body lead core tail isImportant)
    (hwalk : Nesting.top.walk? body = some .top) : Core (core.map loosen) := by
  refine ⟨by simpa using h.ne_nil, ?_, ?_, ?_, ?_⟩
  · intro first hfirst
    rw [List.head?_map, Option.map_eq_some_iff] at hfirst
    obtain ⟨lexeme, hlexeme, rfl⟩ := hfirst
    exact h.first lexeme hlexeme
  · intro last hlast
    rw [List.getLast?_map, Option.map_eq_some_iff] at hlast
    obtain ⟨lexeme, hlexeme, rfl⟩ := hlast
    exact h.last lexeme hlexeme
  · intro loose hmem hkind
    obtain ⟨lexeme, hlexeme, rfl⟩ := List.mem_map.mp hmem
    apply h.complete lexeme ?_ hkind
    rw [h.split]
    exact List.mem_append_left _ (List.mem_append_right _ hlexeme)
  · rw [Nesting.walk?_map_loosen, h.walk_core hwalk]

theorem Parts.unmarked_loosen (h : Parts body lead core tail false) :
    Unmarked (core.map loosen) := by
  rw [Unmarked, significant_map Lexeme.keeps_loosen, splitImportant_map Lexeme.keeps_loosen,
    (h.unmarked rfl).2]

theorem Parts.kind_ne_badString (h : Parts body lead core tail isImportant) :
    ∀ piece ∈ core.map loosen, piece.kind ≠ .badString := by
  intro piece hmem hkind
  obtain ⟨lexeme, hlexeme, rfl⟩ := List.mem_map.mp hmem
  have hbody : lexeme ∈ body := by
    rw [h.split]
    exact List.mem_append_left _ (List.mem_append_right _ hlexeme)
  rw [Lexeme.kind_loosen] at hkind
  have hgood := h.complete lexeme hbody (by rw [Lexeme.isTrivia, hkind]; rfl)
  rw [Lexeme.isMalformed, hkind] at hgood
  exact absurd hgood (by simp [Token.Kind.isError])

end Value

/-! ## Sites -/

/-- The text of a declaration: `front` up to the value, then the value, `mark` with its
`!important`, and `trailing` through the ending at offset `stop`. -/
structure Declaration.Site (source : CodeUnits) (declaration : Declaration)
    (front mark trailing : CodeUnits) (stop : Nat) : Prop where
  split : source.drop declaration.name.start =
    front ++ (declaration.value.slice source ++ (mark ++ (trailing ++ source.drop stop)))
  front_last : ∀ u, front.getLast? = some u → CodeUnit.isSurrogate u = false
  mark_apart : (mark ++ (trailing ++ source.drop stop)).startsApart = true
  trailing_apart : (trailing ++ source.drop stop).startsApart = true
  stop_apart : CodeUnits.Apart trailing (source.drop stop)
  replaced : declaration.replacedEnd source.toArray = declaration.name.start +
    (front ++ (declaration.value.slice source ++ mark)).length
  finishes : ∀ y, (source.drop stop = [] → y = []) → (trailing ++ y).Finishes y
  core : Core (pieces (declaration.value.slice source))
  unmarked : declaration.isImportant = false → Unmarked (pieces (declaration.value.slice source))
  plain : declaration.isImportant = false → ∀ y, (source.drop stop = [] → y = []) →
    pieces (declaration.value.slice source ++ (trailing ++ y)) =
      pieces (declaration.value.slice source) ++ pieces (trailing ++ y)

theorem Value.Tail.endsImportant {tail mark trail : List Lexeme} {isImportant : Bool}
    (h : Tail tail mark trail isImportant) (himportant : isImportant = true) :
    ∀ lexeme ∈ mark ++ trail, endsImportant lexeme = false := by
  obtain ⟨gap, bang, gap', word, hmark, hgap, hgap', hbang, hword⟩ := h.marked himportant
  have hquiet : ∀ lexeme : Lexeme, lexeme.kind.isNeutral = true →
      StyleRules.endsImportant lexeme = false := by
    intro lexeme hneutral
    unfold StyleRules.endsImportant
    generalize lexeme.kind = kind at hneutral
    cases kind <;> first | rfl | exact absurd hneutral Bool.false_ne_true
  have htrivia : ∀ lexeme : Lexeme, lexeme.isTrivia = true →
      StyleRules.endsImportant lexeme = false := fun lexeme htrivia =>
    hquiet lexeme (Lexeme.isNeutral_of_isTrivia htrivia)
  intro lexeme hmem
  rw [hmark] at hmem
  simp only [List.mem_append, List.mem_cons, List.not_mem_nil, or_false] at hmem
  rcases hmem with (hmem | rfl | hmem | rfl) | hmem
  · exact htrivia lexeme (hgap lexeme hmem)
  · exact hquiet lexeme (isNeutral_of_isBang hbang).1
  · exact htrivia lexeme (hgap' lexeme hmem)
  · exact hquiet lexeme (isNeutral_of_isImportantWord hword).1
  · exact htrivia lexeme (h.trail lexeme hmem)

namespace Value

/-- The core of a value in its place, with all that stands behind it. -/
structure Placed (source : CodeUnits) (i j k stop : Nat) (core mark trail closing : List Lexeme)
    (isImportant : Bool) : Prop where
  run_core : Run source i core j
  run_tail : Run source j (mark ++ trail) k
  run_closing : Run source k closing stop
  closed : ClosedBy source closing stop
  tail : Tail (mark ++ trail) mark trail isImportant
  complete : ∀ piece ∈ core.map loosen, piece.kind ≠ .badString

namespace Placed

variable {i j k stop : Nat} {core mark trail closing : List Lexeme} {isImportant : Bool}
  {y : CodeUnits}

theorem trail_stands (h : Placed source i j k stop core mark trail closing isImportant) :
    ∀ lexeme ∈ trail, lexeme.StandsIn source ∧ lexeme.isTrivia = true := fun lexeme hmem =>
  ⟨h.run_tail.stands (List.mem_append_right _ hmem), h.tail.trail lexeme hmem⟩

theorem drop_behind (h : Placed source i j k stop core mark trail closing isImportant) :
    source.drop j = mark.flatMap Lexeme.units ++
      (trail.flatMap Lexeme.units ++ closing.flatMap Lexeme.units ++ source.drop stop) := by
  rw [h.run_tail.drop_eq, h.run_closing.drop_eq, List.flatMap_append]
  simp only [List.append_assoc]

theorem apart_behind (h : Placed source i j k stop core mark trail closing isImportant)
    (hy : source.drop stop = [] → y = []) :
    CodeUnits.startsApart (mark.flatMap Lexeme.units ++
        (trail.flatMap Lexeme.units ++ closing.flatMap Lexeme.units ++ y)) = true ∧
      ∀ c rest, mark.flatMap Lexeme.units ++
        (trail.flatMap Lexeme.units ++ closing.flatMap Lexeme.units ++ y) = c :: rest →
          Break c rest := by
  cases isImportant with
  | false =>
    obtain rfl := h.tail.unmarked rfl
    rw [List.flatMap_nil, List.nil_append, List.append_assoc]
    refine ⟨startsApart_trail h.trail_stands (h.closed.startsApart hy), fun c rest htext => ?_⟩
    exact break_trail h.trail_stands (h.closed.quoteFree hy)
      (fun z hz => absurd hz (h.closed.ne_bang hy z)) htext
  | true =>
    obtain ⟨gap, bang, gap', word, rfl, hgap, hgap', hbang, hword⟩ := h.tail.marked rfl
    have hstands : ∀ lexeme ∈ gap ++ bang :: (gap' ++ [word]), lexeme.StandsIn source :=
      fun lexeme hmem => h.run_tail.stands (List.mem_append_left _ hmem)
    have hgapStands : ∀ lexeme ∈ gap, lexeme.StandsIn source ∧ lexeme.isTrivia = true :=
      fun lexeme hmem => ⟨hstands lexeme (List.mem_append_left _ hmem), hgap lexeme hmem⟩
    have hgapStands' : ∀ lexeme ∈ gap', lexeme.StandsIn source ∧ lexeme.isTrivia = true :=
      fun lexeme hmem => ⟨hstands lexeme (List.mem_append_right _ (List.mem_cons_of_mem _
        (List.mem_append_left _ hmem))), hgap' lexeme hmem⟩
    obtain ⟨first, letters, hspelled, hfirst⟩ := (isNeutral_of_isImportantWord hword).2.2
    rw [List.flatMap_append, List.flatMap_cons, List.flatMap_append, List.flatMap_singleton,
      (isNeutral_of_isBang hbang).2.2, hspelled]
    generalize trail.flatMap Lexeme.units ++ closing.flatMap Lexeme.units ++ y = z
    rw [List.append_assoc, List.append_assoc, List.singleton_append, List.append_assoc]
    refine ⟨startsApart_trail hgapStands rfl, fun c rest htext => ?_⟩
    refine break_trail hgapStands (CodeUnits.quoteFree_cons rfl rfl _) (fun z' hz => ?_) htext
    rw [← (List.cons.inj hz).2]
    cases hword' : gap'.flatMap Lexeme.units ++ (first :: letters ++ z) with
    | nil => exact absurd hword' (by simp)
    | cons u rest =>
      rcases head_of_trail hgapStands' hword' with ⟨-, hcons⟩ | hspace | rfl
      · obtain rfl := (List.cons.inj hcons).1
        exact hfirst
      · rintro rfl
        exact absurd hspace (by decide)
      · exact (by decide : CodeUnit.solidus ≠ CodeUnit.hyphen)

theorem pieces_core (h : Placed source i j k stop core mark trail closing isImportant) :
    pieces (core.flatMap Lexeme.units) = core.map loosen := by
  have hpieces := h.run_core.pieces_drop
  obtain ⟨hapart, hbreak⟩ := h.apart_behind (y := source.drop stop) id
  rw [h.run_core.drop_eq] at hpieces
  rw [← h.drop_behind] at hapart hbreak
  cases hbehind : source.drop j with
  | nil =>
    rw [hbehind, List.append_nil, Lexeme.pieces_nil, List.append_nil] at hpieces
    exact hpieces
  | cons c rest =>
    rw [hbehind] at hpieces hapart
    exact (Lexeme.pieces_cut hapart (hbreak c rest hbehind) (fun _ => h.complete) hpieces).1

theorem finishes (h : Placed source i j k stop core mark trail closing isImportant)
    (hy : source.drop stop = [] → y = []) (hstop : ∀ last ending, closing = [last] →
      Ending.ofLexeme? last = some ending → (ending.stop? 0).isSome = true) :
    CodeUnits.Finishes (trail.flatMap Lexeme.units ++ closing.flatMap Lexeme.units ++ y) y := by
  have hrun : Run source j (mark ++ trail ++ closing) stop :=
    Run.append_iff.mpr ⟨k, h.run_tail, h.run_closing⟩
  obtain ⟨middle, -, htrail⟩ := Run.append_iff.mp h.run_tail
  have hpieces := htrail.pieces_drop
  rw [htrail.drop_eq, h.run_closing.drop_eq] at hpieces
  have hcut := (h.closed.pieces_cut hpieces).2 y hy
  refine ⟨?_, trail.map loosen, ?_, ?_⟩
  · rw [List.append_assoc]
    exact startsApart_trail h.trail_stands (h.closed.startsApart hy)
  · intro lexeme hmem
    obtain ⟨lexeme, hlexeme, rfl⟩ := List.mem_map.mp hmem
    exact h.tail.trail lexeme hlexeme
  · rw [List.append_assoc, hcut]
    rcases h.closed with ⟨last, rfl, -, hending⟩ | ⟨rfl, hend⟩
    · right
      obtain ⟨ending, hlast⟩ := Option.isSome_iff_exists.mp hending
      obtain ⟨other, hother, hsame⟩ := Ending.ofLexeme?_loosen last ending hlast
      exact ⟨last.loosen, other, hother, hsame.trans (hstop last ending rfl hlast), rfl⟩
    · left
      rw [hy hend, Lexeme.pieces_nil]
      exact ⟨by simp, rfl⟩

/-- A value that is not important is read the same before its trivia and whatever is behind it. -/
theorem pieces_plain (h : Placed source i j k stop core mark trail closing false)
    (hy : source.drop stop = [] → y = []) :
    pieces (core.flatMap Lexeme.units ++
        (trail.flatMap Lexeme.units ++ closing.flatMap Lexeme.units ++ y)) =
      pieces (core.flatMap Lexeme.units) ++
        pieces (trail.flatMap Lexeme.units ++ closing.flatMap Lexeme.units ++ y) := by
  obtain rfl := h.tail.unmarked rfl
  obtain ⟨hapart, hbreak⟩ := h.apart_behind (y := source.drop stop) id
  have hbreak' := (h.apart_behind hy).2
  have hbehind := h.drop_behind
  have hpieces := h.run_core.pieces_drop
  rw [h.run_core.drop_eq] at hpieces
  rw [List.flatMap_nil, List.nil_append] at hapart hbreak hbreak' hbehind
  rw [hbehind] at hpieces
  rw [h.pieces_core]
  have htext : trail.flatMap Lexeme.units ++ closing.flatMap Lexeme.units = [] → y = [] := by
    intro hnone
    rcases h.closed with ⟨last, rfl, hstands, -⟩ | ⟨rfl, hend⟩
    · have := (List.append_eq_nil_iff.mp hnone).2
      rw [List.flatMap_singleton] at this
      exact absurd this hstands.units_ne_nil
    · exact hy hend
  generalize trail.flatMap Lexeme.units ++ closing.flatMap Lexeme.units = text
    at hapart hbreak hbreak' hpieces htext ⊢
  cases text with
  | nil => rw [htext rfl, List.nil_append, List.append_nil, Lexeme.pieces_nil, List.append_nil,
      h.pieces_core]
  | cons c text =>
    exact (Lexeme.pieces_cut hapart (hbreak c _ rfl) (fun _ => h.complete) hpieces).2 _
      (hbreak' c _ rfl)

/-- The text that an important declaration replaces behind its value is that of its `!important`. -/
theorem importantLength_slice (h : Placed source i j k stop core mark trail closing true)
    {stop' : Nat} (hstop : stop' = k ∨
      stop' = stop ∧ ∀ last, closing.head? = some last → last.kind = .semicolon) :
    importantLength (source.slice j stop') = (mark.flatMap Lexeme.units).length := by
  obtain ⟨gap, bang, gap', word, hmark, hgap, hgap', hbang, hword⟩ := h.tail.marked rfl
  have hpieces := h.run_tail.pieces_drop
  rw [h.run_tail.drop_eq, h.run_closing.drop_eq] at hpieces
  obtain ⟨hself, hlonger⟩ := h.closed.pieces_cut hpieces
  have hafter : ∃ after, pieces (source.slice j stop') = (mark ++ trail).map loosen ++ after ∧
      ∀ first, after.head? = some first → endsImportant first = true := by
    rcases hstop with rfl | ⟨rfl, hsemicolon⟩
    · refine ⟨[], ?_, fun first hfirst => absurd hfirst (by simp)⟩
      rw [h.run_tail.slice_eq, hself, List.append_nil]
    · have hrun : Run source j (mark ++ trail ++ closing) stop' :=
        Run.append_iff.mpr ⟨k, h.run_tail, h.run_closing⟩
      refine ⟨closing.map loosen, ?_, fun first hfirst => ?_⟩
      · have hnone := hlonger [] fun _ => rfl
        rw [List.append_nil, Lexeme.pieces_nil, List.append_nil] at hnone
        rw [hrun.slice_eq, List.flatMap_append, hnone]
      · rw [List.head?_map, Option.map_eq_some_iff] at hfirst
        obtain ⟨last, hlast, rfl⟩ := hfirst
        rw [endsImportant, Lexeme.kind_loosen, hsemicolon last hlast]
        rfl
  obtain ⟨after, htext, hends⟩ := hafter
  have hinner := h.tail.endsImportant rfl
  have hsplit : (mark ++ trail).map loosen ++ after =
      (gap ++ bang :: gap').map loosen ++ word.loosen :: (trail.map loosen ++ after) := by
    rw [hmark]
    simp only [List.map_append, List.map_cons, List.append_assoc, List.cons_append,
      List.nil_append]
  rw [hsplit] at htext
  have hlength := importantLength_eq htext (fun lexeme hmem => ?_)
    (isNeutral_of_isImportantWord hword).2.1 (fun lexeme hmem => ?_) hends
  · rw [hlength, hmark]
    simp only [List.flatMap_append, Lexeme.units_map_loosen, List.flatMap_cons, List.flatMap_nil,
      Lexeme.units_loosen, List.append_nil, List.append_assoc]
  · have hloose : lexeme ∈ (mark ++ trail).map loosen := by
      rw [hmark]
      simpa only [List.map_append, List.map_cons, List.append_assoc, List.cons_append,
        List.nil_append] using hmem
    obtain ⟨other, hother, rfl⟩ := List.mem_map.mp hloose
    exact hinner other hother
  · obtain ⟨other, hother, rfl⟩ := List.mem_map.mp hmem
    exact h.tail.trail other hother

/-- What is replaced of a declaration ends with its `!important`, or with its value. -/
theorem replacedEnd_eq {declaration : Declaration}
    (h : Placed source i declaration.value.stop k stop core mark trail closing
      declaration.isImportant)
    (hreach : declaration.semicolonEnd = k ∨ declaration.semicolonEnd = stop ∧
      ∀ last, closing.head? = some last → last.kind = .semicolon) :
    declaration.replacedEnd source.toArray =
      declaration.value.stop + (mark.flatMap Lexeme.units).length := by
  rw [Declaration.replacedEnd, Buffer.slice_toArray]
  split
  · next himportant =>
    rw [himportant] at h
    rw [h.importantLength_slice hreach]
  · next hplain =>
    rw [Bool.not_eq_true] at hplain
    rw [h.tail.unmarked hplain, List.flatMap_nil, List.length_nil, Nat.add_zero]

end Placed

end Value

/-- The text up to a value ends with the colon, or with trivia behind the colon. -/
theorem Lexeme.Run.last_of_lead {before lead : List Lexeme} {colon : Lexeme} {i j : Nat}
    (h : Run source i (before ++ colon :: lead) j) (hcolon : colon.kind = .colon)
    (hlead : ∀ lexeme ∈ lead, lexeme.isTrivia = true) (hbefore : j < source.length) :
    ∀ u, ((before ++ colon :: lead).flatMap Lexeme.units).getLast? = some u →
      CodeUnit.isSurrogate u = false := by
  intro u hlast
  rcases List.eq_nil_or_concat lead with rfl | ⟨inner, last, rfl⟩
  · have hstands := h.stands (List.mem_append_right _ List.mem_cons_self)
    rw [List.flatMap_append, List.flatMap_singleton, hstands.units_of_colon hcolon,
      List.getLast?_concat] at hlast
    obtain rfl := Option.some.inj hlast
    decide
  · rw [List.concat_eq_append, ← List.cons_append, ← List.append_assoc] at h hlast
    obtain ⟨k, -, hend⟩ := Run.append_iff.mp h
    obtain ⟨rfl, hstands, hnone⟩ := Run.cons_iff.mp hend
    obtain rfl := hnone.eq_of_nil
    rw [List.flatMap_append, List.flatMap_singleton, List.getLast?_append,
      List.getLast?_eq_some_getLast hstands.units_ne_nil, Option.some_or] at hlast
    apply hstands.last_of_trivia (hlead last (by simp)) hbefore
    rw [List.getLast?_eq_some_getLast hstands.units_ne_nil, hlast]

theorem Value.Placed.site {declaration : Declaration} {i j k stop : Nat}
    {before lead core mark trail closing : List Lexeme} {colon : Lexeme}
    (h : Placed source i j k stop core mark trail closing declaration.isImportant)
    (hparts : Core (core.map loosen) ∧
      (declaration.isImportant = false → Unmarked (core.map loosen)))
    (hfront : Run source declaration.name.start (before ++ colon :: lead) i)
    (hcolon : colon.kind = .colon) (hlead : ∀ lexeme ∈ lead, lexeme.isTrivia = true)
    (hslice : declaration.value.slice source = core.flatMap Lexeme.units)
    (hvalueStop : declaration.value.stop = j)
    (hreach : declaration.semicolonEnd = k ∨ declaration.semicolonEnd = stop ∧
      ∀ last, closing.head? = some last → last.kind = .semicolon)
    (hstop : ∀ last ending, closing = [last] → Ending.ofLexeme? last = some ending →
      (ending.stop? 0).isSome = true) (hsize : stop ≤ source.length) :
    declaration.Site source ((before ++ colon :: lead).flatMap Lexeme.units)
      (mark.flatMap Lexeme.units) (trail.flatMap Lexeme.units ++ closing.flatMap Lexeme.units)
      stop := by
  have hne : core ≠ [] := by
    intro hnil
    rw [hnil, List.map_nil] at hparts
    exact absurd rfl hparts.1.ne_nil
  refine {
    split := ?_
    front_last := hfront.last_of_lead hcolon hlead ?_
    mark_apart := (h.apart_behind id).1
    trailing_apart := ?_
    stop_apart := h.closed.apart _
    replaced := ?_
    finishes := fun y hy => h.finishes hy hstop
    core := ?_
    unmarked := ?_
    plain := ?_ }
  · rw [hfront.drop_eq, h.run_core.drop_eq, h.drop_behind, hslice]
  · have hbefore := h.run_core.lt_of_ne_nil hne
    have := h.run_tail.le
    have := h.run_closing.le
    omega
  · rw [List.append_assoc]
    exact startsApart_trail h.trail_stands (h.closed.startsApart id)
  · have hfrontLength := hfront.length_units
    have hcoreLength := h.run_core.length_units
    subst hvalueStop
    rw [h.replacedEnd_eq hreach, hslice, List.length_append, List.length_append]
    omega
  · rw [hslice, h.pieces_core]
    exact hparts.1
  · intro hplain
    rw [hslice, h.pieces_core]
    exact hparts.2 hplain
  · intro hplain y hy
    rw [hplain] at h
    rw [hslice]
    exact h.pieces_plain hy

theorem Declaration.Layout.Fits.placed {layout : Layout} {declaration : Declaration}
    (h : layout.Fits source declaration) :
    Value.Placed source declaration.value.start declaration.value.stop layout.bodyStop layout.stop
      layout.value layout.mark layout.trail layout.closing declaration.isImportant :=
  ⟨h.run_value, h.run_tail, h.run_closing, h.closed, h.tail, h.parts.kind_ne_badString⟩

theorem Declaration.exists_site {first : Lexeme} {rest : List Lexeme} {declaration : Declaration}
    {i : Nat} (h : Run source i (first :: rest) source.length)
    (hread : (readStatement source.length first rest).1 = some declaration) :
    i = declaration.name.start ∧ ∃ front mark trailing stop,
      Site source declaration front mark trailing stop ∧
        Run source stop (behind first rest) source.length := by
  obtain ⟨hi, layout, hfits, hleft⟩ := exists_layout h hread
  have hunmarked : declaration.isImportant = false → Unmarked (layout.value.map loosen) := by
    intro hplain
    have hparts := hfits.parts
    rw [hplain] at hparts
    exact hparts.unmarked_loosen
  have hfront := hfits.run_name.append hfits.run_heading
  rw [← List.append_assoc] at hfront
  have hrun := hfits.run_left
  rw [hleft] at hrun
  exact ⟨hi, _, _, _, layout.stop, hfits.placed.site ⟨hfits.parts.core_loosen hfits.walk, hunmarked⟩
    hfront hfits.colon hfits.parts.lead hfits.slice_value rfl hfits.complete hfits.completes
    hrun.le, hrun⟩

end StyleRules
