import StyleRules.Proofs.Declaration.Heading
import StyleRules.Proofs.Token.Url

/-!
# Bad urls and blocks

A bad url stops before the `)` that would have ended it, so that `)` is a lexeme of its own and
closes a parenthesis. Outside all parentheses it closes nothing. Inside one it closes that one too
early, and what follows is taken for the outside (`Resolved.keepsNesting_iff`).
-/

namespace StyleRules

open CodeUnits (ahead ofString)
open Lexeme (Run within)

variable {source : CodeUnits} {lexeme : Lexeme} {lexemes : List Lexeme}

/-! ## Behind a bad url -/

theorem Token.behind_badUrl {s : CodeUnits} (hkind : (read s).kind = .badUrl) :
    ahead s (read s).length = CodeUnit.rightParen ∨ (read s).length = s.length := by
  obtain ⟨hname, hparen, hquote⟩ := kind_read_url_iff.mp (by rw [hkind]; simp)
  rw [CodeUnits.opensQuoted_iff] at hquote
  have hopening : (Name.extent s).length + 1 ≤ s.length := by
    apply CodeUnits.ahead_ne_zero
    rw [hparen]
    decide
  have hread := read_of_isSpelled hname hparen
  rw [readUrlOpening, if_neg hquote] at hread
  generalize hinside : s.drop ((Name.extent s).length + 1) = inside at hread hquote
  have houtcome := Url.endsAs_readUrl ((Name.extent s).length + 1) inside
  rw [← hread] at houtcome
  generalize houtline : (read s).outline = outline at houtcome
  cases houtcome with
  | text => exact absurd (hkind.symm.trans (congrArg Prod.fst houtline)) (by simp)
  | closed => exact absurd (hkind.symm.trans (congrArg Prod.fst houtline)) (by simp)
  | bad hother hlt =>
    have hlength : (read s).length = _ := congrArg (fun outline => outline.2.2) houtline
    dsimp only at hlength
    have hinsideLength := congrArg List.length hinside
    rw [List.length_drop] at hinsideLength
    rcases (Url.isLeast_badUrlLength (inside.drop (Url.fillingLength inside))).1 with hclose | hend
    · left
      have hunit := hclose.unit
      rwa [CodeUnits.ahead_drop, ← hinside, CodeUnits.ahead_drop, hinside, ← hlength] at hunit
    · right
      rw [List.length_drop] at hend
      omega

theorem Token.kind_read_rightParen (rest : CodeUnits) :
    (read (CodeUnit.rightParen :: rest)).kind = .rightParen := by
  rw [read_of_isMark (by decide)]
  rfl

theorem Lexeme.Run.kind_behind_badUrl {bad close : Lexeme} {back : List Lexeme} {i j : Nat}
    (h : Run source i (bad :: close :: back) j) (hbad : bad.kind = .badUrl) :
    close.kind = .rightParen := by
  obtain ⟨rfl, hstands, hrest⟩ := Run.cons_iff.mp h
  obtain ⟨hstart, hclose, -⟩ := Run.cons_iff.mp hrest
  have hlt := hclose.start_lt
  have hkind : (Token.read (source.drop bad.start)).kind = .badUrl := by
    rw [← hstands.token]
    exact hbad
  have hstop : bad.start + (Token.read (source.drop bad.start)).length = close.start := by
    rw [← hstands.token]
    exact hstart
  rcases Token.behind_badUrl hkind with hparen | hend
  · rw [CodeUnits.ahead_drop, hstop, ← Nat.add_zero close.start, ← CodeUnits.ahead_drop] at hparen
    obtain ⟨rest, hrest⟩ := CodeUnits.exists_of_ahead hparen (by decide)
    rw [Lexeme.kind, hclose.token, hrest]
    exact Token.kind_read_rightParen rest
  · rw [List.length_drop] at hend
    omega

/-! ## Nesting without bad urls -/

namespace Nesting

variable {nesting other : Nesting} {front back : List Lexeme}

/-- Lexemes without the bad urls among them. A bad url takes a `)` behind it along. -/
def dropBadUrls : List Lexeme → List Lexeme
  | [] => []
  | [lexeme] => if lexeme.kind = .badUrl then [] else [lexeme]
  | lexeme :: next :: rest =>
    if lexeme.kind = .badUrl then
      if next.kind = .rightParen then dropBadUrls rest else dropBadUrls (next :: rest)
    else lexeme :: dropBadUrls (next :: rest)

theorem dropBadUrls_cons (h : lexeme.kind ≠ .badUrl) (lexemes : List Lexeme) :
    dropBadUrls (lexeme :: lexemes) = lexeme :: dropBadUrls lexemes := by
  cases lexemes with
  | nil => exact if_neg h
  | cons next rest => rw [dropBadUrls, if_neg h]

/-- A lexeme that is neither a bad url nor a `)` keeps apart what is on both sides of it. -/
theorem dropBadUrls_append_cons {last : Lexeme} (hbad : last.kind ≠ .badUrl)
    (hclose : last.kind ≠ .rightParen) (front back : List Lexeme) :
    dropBadUrls (front ++ last :: back) = dropBadUrls front ++ last :: dropBadUrls back := by
  fun_induction dropBadUrls front with
  | case1 => exact dropBadUrls_cons hbad back
  | case2 lexeme hkind =>
    rw [List.singleton_append, dropBadUrls, if_pos hkind, if_neg hclose, dropBadUrls_cons hbad]
    rfl
  | case3 lexeme hkind =>
    rw [List.singleton_append, dropBadUrls_cons hkind, dropBadUrls_cons hbad]
    rfl
  | case4 lexeme next rest hkind hnext ih =>
    rw [List.cons_append, List.cons_append, dropBadUrls, if_pos hkind, if_pos hnext, ih]
  | case5 lexeme next rest hkind hnext ih =>
    rw [List.cons_append, List.cons_append, dropBadUrls, if_pos hkind, if_neg hnext,
      ← List.cons_append, ih]
  | case6 lexeme next rest hkind ih =>
    rw [List.cons_append, dropBadUrls_cons hkind, ih, List.cons_append]

theorem behind_append (nesting : Nesting) (front back : List Lexeme) :
    nesting.behind (front ++ back) = (nesting.behind front).behind back := List.foldl_append ..

/-- How many parentheses are open behind lexemes does not depend on what else is open. -/
theorem paren_behind_congr (h : nesting.paren = other.paren) (lexemes : List Lexeme) :
    (nesting.behind lexemes).paren = (other.behind lexemes).paren := by
  induction lexemes generalizing nesting other with
  | nil => exact h
  | cons lexeme rest ih =>
    rw [behind_cons, behind_cons]
    apply ih
    unfold after
    cases lexeme.kind <;> simp only [h]

/-- No bad url with a `)` behind it stands inside a parenthesis. -/
def KeepsBadUrlsOut (nesting : Nesting) (lexemes : List Lexeme) : Prop :=
  ∀ front bad close back, lexemes = front ++ bad :: close :: back → bad.kind = .badUrl →
    close.kind = .rightParen → (nesting.behind front).paren = 0

theorem KeepsBadUrlsOut.tail (h : nesting.KeepsBadUrlsOut (lexeme :: lexemes)) :
    (nesting.after lexeme.kind).KeepsBadUrlsOut lexemes := by
  rintro front bad close back rfl hbad hclose
  exact h (lexeme :: front) bad close back rfl hbad hclose

theorem behind_badUrl {bad close : Lexeme} (hbad : bad.kind = .badUrl)
    (hclose : close.kind = .rightParen) (nesting : Nesting) :
    nesting.behind [bad, close] = { nesting with paren := nesting.paren - 1 } := by
  rw [behind_cons, behind_cons, behind_nil, hbad, hclose]
  rfl

theorem KeepsBadUrlsOut.behind_dropBadUrls (h : nesting.KeepsBadUrlsOut lexemes) :
    nesting.behind (dropBadUrls lexemes) = nesting.behind lexemes := by
  fun_induction dropBadUrls lexemes generalizing nesting with
  | case1 => rfl
  | case2 lexeme hkind =>
    rw [behind_cons, hkind]
    rfl
  | case3 lexeme hkind => rfl
  | case4 lexeme next rest hkind hnext ih =>
    have houtside : nesting.paren = 0 := h [] lexeme next rest rfl hkind hnext
    have hneutral := behind_badUrl hkind hnext nesting
    rw [houtside, Nat.zero_sub, ← houtside] at hneutral
    have htail := h.tail.tail
    have hsame : (nesting.after lexeme.kind).after next.kind = nesting := hneutral
    rw [hsame] at htail
    rw [ih htail, behind_cons, behind_cons, hsame]
  | case5 lexeme next rest hkind hnext ih =>
    have hsame : nesting.after lexeme.kind = nesting := by
      rw [hkind]
      rfl
    have htail := h.tail
    rw [hsame] at htail
    rw [ih htail, behind_cons _ lexeme, hsame]
  | case6 lexeme next rest hkind ih => rw [behind_cons, behind_cons, ih h.tail, behind_cons]

end Nesting

/-! ## Statements -/

namespace Declaration

open Nesting (top dropBadUrls)

variable {statement : List Lexeme}

theorem exists_mem_statements {size : Nat} {declaration : Declaration}
    (h : declaration ∈ ofLexemes size lexemes) :
    ∃ first rest, first :: rest ∈ statements lexemes ∧
      (readStatement size first rest).1 = some declaration := by
  fun_induction ofLexemes size lexemes with
  | case1 => exact absurd h List.not_mem_nil
  | case2 first rest hpassed ih =>
    rw [statements, if_pos hpassed]
    exact ih h
  | case3 first rest hpassed statement ih =>
    rw [statements, if_neg hpassed]
    rcases List.mem_append.mp h with hhere | hlater
    · exact ⟨first, rest, List.mem_cons_self, Option.mem_toList.mp hhere⟩
    · obtain ⟨name, behind, hmem, hread⟩ := ih hlater
      have hleft : statement.2 = skip (first :: rest) := by
        rw [← behind_eq_skip]
        exact readStatement_snd size first rest
      rw [hleft] at hmem
      exact ⟨name, behind, List.mem_cons_of_mem _ hmem, hread⟩

theorem paren_after_of_isPassedOver {kind : Token.Kind} (h : isPassedOver kind = true)
    (nesting : Nesting) : (nesting.after kind).paren = nesting.paren := by
  cases kind <;> first | rfl | exact absurd h (by decide)

theorem ne_badUrl_of_isPassedOver {kind : Token.Kind} (h : isPassedOver kind = true) :
    kind ≠ .badUrl ∧ kind ≠ .rightParen := by
  constructor <;> (rintro rfl; exact absurd h (by decide))

/-- If the bad urls of all statements stand outside parentheses, then so do all statements, bad urls
and what ended them left out. -/
theorem paren_before_of_mem (h : statement ∈ statements lexemes)
    (hout : ∀ statement ∈ statements lexemes,
      top.KeepsBadUrlsOut (Stretch.read .top statement).body) :
    ∃ before, lexemes = before ++ statement ∧
      ∀ nesting : Nesting, nesting.paren = 0 → (nesting.behind (dropBadUrls before)).paren = 0 := by
  fun_induction statements lexemes with
  | case1 => exact absurd h List.not_mem_nil
  | case2 first rest hpassed ih =>
    obtain ⟨before, rfl, hparen⟩ := ih h hout
    refine ⟨first :: before, rfl, fun nesting hnesting => ?_⟩
    rw [Nesting.dropBadUrls_cons (ne_badUrl_of_isPassedOver hpassed).1, Nesting.behind_cons]
    exact hparen _ ((paren_after_of_isPassedOver hpassed nesting).trans hnesting)
  | case3 first rest hpassed ih =>
    rcases List.mem_cons.mp h with rfl | h
    · exact ⟨[], rfl, fun nesting hnesting => hnesting⟩
    obtain ⟨before, hbefore, hparen⟩ := ih h fun statement hmem =>
      hout statement (List.mem_cons_of_mem _ hmem)
    rcases Stretch.read_parts .top (first :: rest) with ⟨last, hparts, hlast⟩ | ⟨-, hrest, -⟩
    · have hpassedLast : isPassedOver last.kind = true :=
        isPassedOver_of_ending (by rw [hlast]; rfl)
      obtain ⟨hbad, hclose⟩ := ne_badUrl_of_isPassedOver hpassedLast
      have hwalk := Stretch.walk?_body .top (first :: rest) fun hopen =>
        Ending.ofLexeme?_ne_unclosed last (by rw [hlast, hopen])
      have hbody := (hout _ List.mem_cons_self).behind_dropBadUrls
      rw [(Nesting.walk?_eq_some_iff.mp hwalk).2] at hbody
      refine ⟨(Stretch.read .top (first :: rest)).body ++ last :: before, ?_, ?_⟩
      · rw [List.append_assoc, List.cons_append, ← hbefore]
        exact hparts
      · intro nesting hnesting
        rw [Nesting.dropBadUrls_append_cons hbad hclose, Nesting.behind_append,
          Nesting.behind_cons]
        apply hparen
        rw [paren_after_of_isPassedOver hpassedLast,
          Nesting.paren_behind_congr (show nesting.paren = top.paren from hnesting), hbody]
        rfl
    · have hnone : skip (first :: rest) = [] := hrest
      rw [hnone, statements] at h
      exact absurd h List.not_mem_nil

/-- In a statement of the text, a bad url stands behind `front` and has `close` behind it. -/
structure HasBadUrl (source : CodeUnits) (front : List Lexeme) (bad close : Lexeme) : Prop where
  statement : ∃ back, front ++ bad :: close :: back ∈ statements (Lexeme.all source)
  encloses : top.Encloses front
  kind : bad.kind = .badUrl

theorem run_of_mem (h : statement ∈ statements (Lexeme.all source)) :
    ∃ i, Run source.addressable i statement source.addressable.length := by
  cases statement with
  | nil => exact ⟨_, .nil _⟩
  | cons first rest =>
    exact ⟨_, (exists_earlier_of_mem h (Lexeme.run_ofText source.addressable)).2.1⟩

theorem HasBadUrl.close {front : List Lexeme} {bad close : Lexeme}
    (h : HasBadUrl source front bad close) : close.kind = .rightParen := by
  obtain ⟨back, hmem⟩ := h.statement
  obtain ⟨i, hrun⟩ := run_of_mem hmem
  obtain ⟨k, -, hbehind⟩ := Run.append_iff.mp hrun
  exact hbehind.kind_behind_badUrl h.kind

/-- What is said of the bad urls of all statements holds in the stretch of each. -/
theorem keepsBadUrlsOut_body
    (h : ∀ front bad close, HasBadUrl source front bad close → (top.behind front).paren = 0)
    (hmem : statement ∈ statements (Lexeme.all source)) :
    top.KeepsBadUrlsOut (Stretch.read .top statement).body := by
  intro front bad close back hbody hbad hclose
  apply h front bad close
  refine ⟨?_, ?_, hbad⟩
  · rcases Stretch.read_parts .top statement with ⟨last, hparts, -⟩ | ⟨hparts, -, -⟩
    · refine ⟨back ++ last :: (Stretch.read .top statement).rest, ?_⟩
      rw [hbody, List.append_assoc, List.cons_append, List.cons_append] at hparts
      rwa [← hparts]
    · refine ⟨back, ?_⟩
      rwa [← hbody, ← hparts]
  · intro before next behind hfront
    have hencloses := Stretch.encloses_body .top statement
    rw [hbody, hfront] at hencloses
    exact hencloses before next (behind ++ bad :: close :: back) (by simp)

end Declaration

namespace Resolved

open Declaration (HasBadUrl statements)
open Nesting (top dropBadUrls)

/-- Bad urls do not break the nesting of a text. -/
structure KeepsNesting (table : Table) (source : CodeUnits) : Prop where
  /-- A bad url and the `)` behind it leave the nesting as it is. -/
  neutral : ∀ front bad close, HasBadUrl source front bad close →
    top.behind (front ++ [bad, close]) = top.behind front
  /-- Bad urls left out, no statement ends inside a block. -/
  ending : ∀ statement ∈ statements (Lexeme.all source),
    (Stretch.read .top statement).ending ≠ .unclosed →
      (top.behind (dropBadUrls (Stretch.read .top statement).body)).isTop = true
  /-- Bad urls left out, no declaration starts inside a parenthesis. -/
  outside : ∀ resolved ∈ all table source,
    (top.behind (dropBadUrls
      (within ⟨0, resolved.declaration.name.start⟩ (Lexeme.all source)))).paren = 0

theorem keepsNesting_of_paren (table : Table)
    (h : ∀ front bad close, HasBadUrl source front bad close → (top.behind front).paren = 0) :
    KeepsNesting table source := by
  refine ⟨fun front bad close hbad => ?_, fun statement hmem hclosed => ?_, fun resolved hmem => ?_⟩
  · rw [Nesting.behind_append, Nesting.behind_badUrl hbad.kind hbad.close, h front bad close hbad,
      Nat.zero_sub, ← h front bad close hbad]
  · have hwalk := Stretch.walk?_body .top statement hclosed
    rw [(Declaration.keepsBadUrlsOut_body h hmem).behind_dropBadUrls,
      (Nesting.walk?_eq_some_iff.mp hwalk).2, Nesting.isTop_top]
  · obtain ⟨declaration, hdeclaration, rfl⟩ := List.mem_map.mp hmem
    obtain ⟨first, rest, hstatement, hread⟩ := Declaration.exists_mem_statements hdeclaration
    obtain ⟨before, hall, hparen⟩ := Declaration.paren_before_of_mem hstatement fun statement =>
      Declaration.keepsBadUrlsOut_body h
    have hrun := Lexeme.run_ofText source.addressable
    rw [hall] at hrun
    obtain ⟨i, hbefore, hbehind⟩ := Run.append_iff.mp hrun
    obtain ⟨rfl, -, -⟩ := Run.cons_iff.mp hbehind
    have hwithin := Run.within_ofText (.nil 0) hbefore
    rw [ofDeclaration, Declaration.name_of_readStatement hread, Lexeme.span, Lexeme.all, hwithin]
    exact hparen top rfl

/-- Behind a bad url in a statement there is a `)`, if anything, and it closes a parenthesis, if one
is open. Bad urls keep the nesting of a text just if no statement has one, with something behind it,
inside a parenthesis. -/
theorem keepsNesting_iff (table : Table) (source : CodeUnits) :
    (∀ front bad close, HasBadUrl source front bad close → close.kind = .rightParen ∧
      top.behind (front ++ [bad, close]) =
        { top.behind front with paren := (top.behind front).paren - 1 }) ∧
    (KeepsNesting table source ↔
      ∀ front bad close, HasBadUrl source front bad close → (top.behind front).paren = 0) := by
  have hlaw : ∀ front bad close, HasBadUrl source front bad close →
      top.behind (front ++ [bad, close]) =
        { top.behind front with paren := (top.behind front).paren - 1 } := by
    intro front bad close h
    rw [Nesting.behind_append, Nesting.behind_badUrl h.kind h.close]
  refine ⟨fun front bad close h => ⟨h.close, hlaw front bad close h⟩, fun hkeeps => ?_,
    keepsNesting_of_paren table⟩
  intro front bad close h
  have hsame := congrArg Nesting.paren ((hlaw front bad close h).symm.trans
    (hkeeps.neutral front bad close h))
  dsimp only at hsame
  omega

/-- A bad url behind a function that is closed keeps the nesting. -/
theorem keepsNesting_of_closed_function :
    let source := ofString "a:f(b)url(c d);x:y"
    let front := (Lexeme.all source).take 5
    let bad : Lexeme := ⟨6, ⟨.badUrl, 7, .empty⟩, ofString "url(c d"⟩
    let close : Lexeme := ⟨13, ⟨.rightParen, 1, .empty⟩, ofString ")"⟩
    HasBadUrl source front bad close ∧ (top.behind front).paren = 0 ∧
      top.behind (front ++ [bad, close]) = top ∧ KeepsNesting .empty source := by
  intro source front bad close
  obtain ⟨hlaw, hiff⟩ := keepsNesting_iff .empty source
  have hparen : ∀ statement ∈ statements (Lexeme.all source), ∀ n < statement.length,
      statement[n]?.map Lexeme.kind = some .badUrl → (top.behind (statement.take n)).paren = 0 := by
    decide +kernel
  have hencloses : top.Encloses front :=
    (Nesting.walk?_eq_some_iff.mp (show top.walk? front = some top by decide +kernel)).1
  have hbad : HasBadUrl source front bad close :=
    ⟨⟨(Lexeme.all source).drop 7, by decide +kernel⟩, hencloses, rfl⟩
  refine ⟨hbad, by decide +kernel, ?_, hiff.mpr fun front bad close h => ?_⟩
  · rw [(hlaw front bad close hbad).2]
    decide +kernel
  · obtain ⟨back, hmem⟩ := h.statement
    have hfront := hparen _ hmem front.length (by simp) (by simp [h.kind])
    rwa [List.take_left] at hfront

/-- The `)` behind the bad url closes the function, so `x` inside it starts a declaration. -/
theorem not_keepsNesting_of_function :
    ¬KeepsNesting .empty (ofString "a:f(url(a b);x:y)") := by
  intro h
  have hall : all .empty (ofString "a:f(url(a b);x:y)") =
      [⟨⟨⟨13, 14⟩, ⟨15, 17⟩, false, 17⟩, .none⟩] := by decide +kernel
  have houtside := h.outside ⟨⟨⟨13, 14⟩, ⟨15, 17⟩, false, 17⟩, .none⟩ (by rw [hall]; exact .head _)
  exact absurd houtside (by decide +kernel)

end Resolved

end StyleRules
