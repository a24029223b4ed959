import StyleRules.Proofs.Declaration.Order

/-!
# Bodies of stretches

What a stretch holds before its ending (`Nesting.walk?`), and how the lexemes of a value lie in it:
trivia, the core of the value, and what is left out behind it (`Value.Parts`).
-/

namespace StyleRules

/-! ## Walks -/

/-- The nesting behind lexemes none of which is an ending outside all blocks. -/
def Nesting.walk? (nesting : Nesting) : List Lexeme → Option Nesting
  | [] => some nesting
  | lexeme :: rest =>
    if nesting.isTop && (Ending.ofLexeme? lexeme).isSome then none
    else walk? (nesting.after lexeme.kind) rest

def Token.Kind.isNeutral : Token.Kind → Bool
  | function | leftParen | leftBracket | leftBrace | rightParen | rightBracket | rightBrace
  | semicolon => false
  | _ => true

theorem Lexeme.isNeutral_of_isTrivia {lexeme : Lexeme} (h : lexeme.isTrivia = true) :
    lexeme.kind.isNeutral = true := by
  have hkind : lexeme.kind.isTrivia = true := h
  generalize lexeme.kind = kind at hkind
  cases kind <;> first | rfl | exact absurd hkind Bool.false_ne_true

namespace Nesting

theorem walk?_append (nesting : Nesting) (front back : List Lexeme) :
    walk? nesting (front ++ back) = (walk? nesting front).bind fun inner => walk? inner back := by
  induction front generalizing nesting with
  | nil => rfl
  | cons lexeme front ih =>
    rw [List.cons_append, walk?, walk?]
    split
    · rfl
    · exact ih _

theorem after_of_isNeutral (nesting : Nesting) {kind : Token.Kind} (h : kind.isNeutral = true) :
    nesting.after kind = nesting := by
  cases kind <;> first | rfl | exact absurd h Bool.false_ne_true

theorem walk?_of_isNeutral (nesting : Nesting) {lexemes : List Lexeme}
    (h : ∀ lexeme ∈ lexemes, lexeme.kind.isNeutral = true) :
    walk? nesting lexemes = some nesting := by
  induction lexemes with
  | nil => rfl
  | cons lexeme rest ih =>
    have hkind := h lexeme List.mem_cons_self
    have hending : Ending.ofLexeme? lexeme = none := by
      unfold Ending.ofLexeme?
      generalize lexeme.kind = kind at hkind
      cases kind <;> first | rfl | exact absurd hkind Bool.false_ne_true
    rw [walk?, hending, Option.isSome_none, Bool.and_false, if_neg Bool.false_ne_true,
      after_of_isNeutral nesting hkind]
    exact ih fun lexeme hmem => h lexeme (List.mem_cons_of_mem _ hmem)

theorem walk?_around (nesting : Nesting) {lead core tail : List Lexeme}
    (hlead : ∀ lexeme ∈ lead, lexeme.kind.isNeutral = true)
    (htail : ∀ lexeme ∈ tail, lexeme.kind.isNeutral = true) :
    walk? nesting (lead ++ core ++ tail) = walk? nesting core := by
  rw [walk?_append, walk?_append, walk?_of_isNeutral nesting hlead, Option.bind_some]
  cases walk? nesting core with
  | none => rfl
  | some inner => exact walk?_of_isNeutral inner htail

end Nesting

theorem Ending.isSome_ofLexeme? (lexeme : Lexeme) :
    (ofLexeme? lexeme).isSome = (lexeme.kind == .semicolon || lexeme.kind == .rightBrace ||
      lexeme.kind == .leftBrace) := by
  unfold ofLexeme?
  generalize lexeme.kind = kind
  cases kind <;> rfl

namespace Stretch

theorem read_append_of_walk? {nesting inner : Nesting} {front : List Lexeme}
    (h : nesting.walk? front = some inner) (back : List Lexeme) :
    read nesting (front ++ back) =
      { read inner back with body := front ++ (read inner back).body } := by
  induction front generalizing nesting with
  | nil =>
    obtain rfl := Option.some.inj h
    rfl
  | cons lexeme front ih =>
    rw [Nesting.walk?] at h
    split at h
    · exact absurd h (by simp)
    · next hending =>
      have hnone : (if nesting.isTop then Ending.ofLexeme? lexeme else none) = none := by
        cases htop : nesting.isTop with
        | false => rfl
        | true =>
          rw [htop, Bool.true_and, Bool.not_eq_true, Option.isSome_eq_false_iff] at hending
          exact Option.isNone_iff_eq_none.mp hending
      rw [List.cons_append, read, hnone, ih h]
      rfl

theorem read_of_ending {nesting : Nesting} {body : List Lexeme} {last : Lexeme} {ending : Ending}
    (hbody : nesting.walk? body = some .top) (hlast : Ending.ofLexeme? last = some ending)
    (rest : List Lexeme) : read nesting (body ++ last :: rest) = ⟨body, ending, rest⟩ := by
  rw [read_append_of_walk? hbody, read, Nesting.isTop_top, if_pos rfl, hlast]
  dsimp only
  rw [List.append_nil]

theorem read_of_end {nesting : Nesting} {body : List Lexeme}
    (hbody : nesting.walk? body = some .top) : read nesting body = ⟨body, .endOfText, []⟩ := by
  have h := read_append_of_walk? hbody []
  rw [List.append_nil] at h
  rw [h, read, Nesting.isTop_top, if_pos rfl]
  dsimp only
  rw [List.append_nil]

/-- The body of a stretch is walked through, to no open block unless the stretch is unclosed. -/
theorem walk?_body (nesting : Nesting) (lexemes : List Lexeme)
    (h : (read nesting lexemes).ending ≠ .unclosed) :
    nesting.walk? (read nesting lexemes).body = some .top := by
  induction lexemes generalizing nesting with
  | nil =>
    rw [read] at h ⊢
    cases htop : nesting.isTop with
    | false =>
      rw [htop] at h
      exact absurd rfl h
    | true =>
      rw [(Nesting.isTop_iff nesting).mp htop]
      rfl
  | cons lexeme rest ih =>
    unfold read at h ⊢
    split at h
    · next ending hending =>
      split at hending
      · next htop =>
        rw [(Nesting.isTop_iff nesting).mp htop]
        rfl
      · exact absurd hending (by simp)
    · next hending =>
      have hgo : (nesting.isTop && (Ending.ofLexeme? lexeme).isSome) = false := by
        cases htop : nesting.isTop with
        | false => rfl
        | true =>
          rw [htop, if_pos rfl] at hending
          rw [hending]
          rfl
      dsimp only
      rw [Nesting.walk?, hgo, if_neg Bool.false_ne_true]
      exact ih _ h

end Stretch

/-! ## Values -/

namespace Value

/-- The lexemes through the `n`-th that is no trivia. -/
def through : Nat → List Lexeme → List Lexeme
  | 0, _ => []
  | _, [] => []
  | n + 1, lexeme :: rest => lexeme :: through (if lexeme.isTrivia then n + 1 else n) rest

def significant (lexemes : List Lexeme) : List Lexeme :=
  lexemes.filter fun lexeme => !lexeme.isTrivia

theorem significant_append (front back : List Lexeme) :
    significant (front ++ back) = significant front ++ significant back := List.filter_append ..

theorem significant_of_isTrivia {lexemes : List Lexeme}
    (h : ∀ lexeme ∈ lexemes, lexeme.isTrivia = true) : significant lexemes = [] := by
  rw [significant, List.filter_eq_nil_iff]
  intro lexeme hmem
  rw [h lexeme hmem]
  exact Bool.false_ne_true

theorem isTrivia_of_significant {lexemes : List Lexeme} (h : significant lexemes = [])
    {lexeme : Lexeme} (hmem : lexeme ∈ lexemes) : lexeme.isTrivia = true := by
  have := List.filter_eq_nil_iff.mp h lexeme hmem
  simpa using this

theorem getLast?_significant {lexemes : List Lexeme} {last : Lexeme}
    (h : lexemes.getLast? = some last) (hlast : last.isTrivia = false) :
    (significant lexemes).getLast? = some last := by
  obtain ⟨init, rfl⟩ := List.getLast?_eq_some_iff.mp h
  rw [significant_append, significant, significant,
    List.filter_cons_of_pos (by rw [hlast]; rfl), List.filter_nil, List.getLast?_concat]

theorem through_zero (lexemes : List Lexeme) : through 0 lexemes = [] := by
  cases lexemes <;> rfl

/-- Lexemes that end with one that is no trivia are found again before others. -/
theorem through_append {front : List Lexeme}
    (hlast : ∀ last, front.getLast? = some last → last.isTrivia = false) (back : List Lexeme) :
    through (significant front).length (front ++ back) = front := by
  induction front with
  | nil => exact through_zero back
  | cons lexeme front ih =>
    have hrest : ∀ last, front.getLast? = some last → last.isTrivia = false := by
      intro last h
      apply hlast
      rw [List.getLast?_cons, h]
      rfl
    cases htrivia : lexeme.isTrivia with
    | false =>
      have hlength : (significant (lexeme :: front)).length = (significant front).length + 1 := by
        rw [significant, List.filter_cons_of_pos (by rw [htrivia]; rfl), List.length_cons]
        rfl
      rw [hlength, List.cons_append, through, htrivia, if_neg Bool.false_ne_true, ih hrest]
    | true =>
      have hsame : significant (lexeme :: front) = significant front :=
        List.filter_cons_of_neg (by rw [htrivia]; exact Bool.false_ne_true)
      obtain ⟨n, hn⟩ : ∃ n, (significant front).length = n + 1 := by
        apply Nat.exists_eq_add_one.mpr
        apply List.length_pos_iff.mpr
        intro hnone
        have hne : front ≠ [] := by
          rintro rfl
          exact absurd (hlast lexeme rfl) (by rw [htrivia]; decide)
        have hlastFront := List.getLast?_eq_some_getLast hne
        have htriviaLast := isTrivia_of_significant hnone (List.mem_of_getLast? hlastFront)
        exact absurd (hrest _ hlastFront) (by rw [htriviaLast]; decide)
      rw [hsame, hn, List.cons_append, through, htrivia, if_pos rfl, ← hn, ih hrest]

/-- The lexemes through the `n`-th that is no trivia, and what is behind them. -/
theorem exists_through {n : Nat} {lexemes : List Lexeme} (hn : n ≤ (significant lexemes).length) :
    ∃ rest, lexemes = through n lexemes ++ rest ∧
      significant (through n lexemes) = (significant lexemes).take n ∧
      significant rest = (significant lexemes).drop n ∧
      ∀ last, (through n lexemes).getLast? = some last → last.isTrivia = false := by
  induction lexemes generalizing n with
  | nil =>
    obtain rfl : n = 0 := Nat.le_zero.mp hn
    exact ⟨[], rfl, rfl, rfl, fun last h => absurd h (by simp [through])⟩
  | cons lexeme rest ih =>
    cases n with
    | zero => exact ⟨lexeme :: rest, rfl, rfl, rfl, fun last h => absurd h (by simp [through])⟩
    | succ n =>
      cases htrivia : lexeme.isTrivia with
      | true =>
        have hsame : significant (lexeme :: rest) = significant rest :=
          List.filter_cons_of_neg (by rw [htrivia]; exact Bool.false_ne_true)
        rw [hsame] at hn ⊢
        obtain ⟨behind, hparts, hfront, hback, hlast⟩ := ih hn
        have hne : through (n + 1) rest ≠ [] := by
          intro hnil
          rw [hnil] at hfront
          have := congrArg List.length hfront
          rw [List.length_take] at this
          simp only [significant, List.filter_nil, List.length_nil] at this hn
          omega
        refine ⟨behind, ?_, ?_, hback, ?_⟩
        · rw [through, htrivia, if_pos rfl, List.cons_append, ← hparts]
        · rw [through, htrivia, if_pos rfl, ← hfront]
          exact List.filter_cons_of_neg (by rw [htrivia]; exact Bool.false_ne_true)
        · intro last h
          rw [through, htrivia, if_pos rfl, List.getLast?_cons,
            List.getLast?_eq_some_getLast hne] at h
          apply hlast
          rw [List.getLast?_eq_some_getLast hne]
          exact h
      | false =>
        have hmore : significant (lexeme :: rest) = lexeme :: significant rest :=
          List.filter_cons_of_pos (by rw [htrivia]; rfl)
        rw [hmore] at hn ⊢
        obtain ⟨behind, hparts, hfront, hback, hlast⟩ := ih (Nat.le_of_succ_le_succ hn)
        refine ⟨behind, ?_, ?_, hback, ?_⟩
        · rw [through, htrivia, if_neg Bool.false_ne_true, List.cons_append, ← hparts]
        · rw [through, htrivia, if_neg Bool.false_ne_true, List.take_succ_cons, ← hfront]
          exact List.filter_cons_of_pos (by rw [htrivia]; rfl)
        · intro last h
          rw [through, htrivia, if_neg Bool.false_ne_true, List.getLast?_cons] at h
          cases hrest : (through n rest).getLast? with
          | none =>
            rw [hrest] at h
            obtain rfl := Option.some.inj h
            exact htrivia
          | some found =>
            rw [hrest] at h
            obtain rfl := Option.some.inj h
            exact hlast _ hrest

theorem splitImportant_append {bang word : Lexeme} (hbang : bang.isBang = true)
    (hword : word.isImportantWord = true) (front : List Lexeme) :
    splitImportant (front ++ [bang, word]) = (front, true) := by
  unfold splitImportant
  rw [List.reverse_append]
  show (if bang.isBang && word.isImportantWord then _ else _) = _
  rw [hbang, hword, Bool.true_and, if_pos rfl]
  exact congrArg (·, true) (List.reverse_reverse front)

theorem splitImportant_cases (lexemes : List Lexeme) :
    splitImportant lexemes = (lexemes, false) ∨
      ∃ front bang word, lexemes = front ++ [bang, word] ∧ bang.isBang = true ∧
        word.isImportantWord = true ∧ splitImportant lexemes = (front, true) := by
  cases hsplit : lexemes.reverse with
  | nil =>
    left
    rw [splitImportant, hsplit]
  | cons word behind =>
    cases behind with
    | nil =>
      left
      rw [splitImportant, hsplit]
    | cons bang before =>
      have hself : splitImportant lexemes =
          if bang.isBang && word.isImportantWord then (before.reverse, true)
          else (lexemes, false) := by
        rw [splitImportant, hsplit]
      cases hmark : bang.isBang && word.isImportantWord with
      | false =>
        left
        rw [hself, hmark, if_neg Bool.false_ne_true]
      | true =>
        right
        rw [Bool.and_eq_true] at hmark
        refine ⟨before.reverse, bang, word, ?_, hmark.1, hmark.2, ?_⟩
        · rw [← List.reverse_reverse lexemes, hsplit, List.reverse_cons, List.reverse_cons,
            List.append_assoc]
          rfl
        · rw [hself, hmark.1, hmark.2, Bool.true_and, if_pos rfl]

theorem splitImportant_prefix (lexemes : List Lexeme) : (splitImportant lexemes).1 <+: lexemes := by
  rcases splitImportant_cases lexemes with hnone | ⟨front, bang, word, hparts, -, -, hsplit⟩
  · exact ⟨[], by rw [hnone, List.append_nil]⟩
  · rw [hsplit, hparts]
    exact List.prefix_append _ _

theorem isNeutral_of_isBang {bang : Lexeme} (h : bang.isBang = true) :
    bang.kind.isNeutral = true ∧ bang.isTrivia = false ∧
      bang.units = [CodeUnit.exclamationMark] := by
  rw [Lexeme.isBang, Bool.and_eq_true, beq_iff_eq, beq_iff_eq] at h
  rw [Lexeme.isTrivia, h.1]
  exact ⟨rfl, rfl, h.2⟩

theorem isNeutral_of_isImportantWord {word : Lexeme} (h : word.isImportantWord = true) :
    word.kind.isNeutral = true ∧ word.isTrivia = false ∧
      ∃ first rest, word.units = first :: rest ∧ first ≠ CodeUnit.hyphen := by
  rw [Lexeme.isImportantWord, Bool.and_eq_true, beq_iff_eq] at h
  obtain ⟨hkind, hspelled⟩ := h
  rw [Lexeme.isTrivia, hkind]
  refine ⟨rfl, rfl, ?_⟩
  rw [CodeUnits.equalsFolded, beq_iff_eq] at hspelled
  cases hunits : word.units with
  | nil =>
    rw [hunits] at hspelled
    exact absurd (congrArg List.length hspelled) (by decide)
  | cons first rest =>
    refine ⟨first, rest, rfl, ?_⟩
    rintro rfl
    rw [hunits] at hspelled
    have hfirst : some (CodeUnit.fold CodeUnit.hyphen) =
        ((literalBytes "important").map UInt8.toUInt16).head? := congrArg List.head? hspelled
    exact absurd hfirst (by decide)

structure Parts (body lead core tail : List Lexeme) (isImportant : Bool) : Prop where
  split : body = lead ++ core ++ tail
  lead : ∀ lexeme ∈ lead, lexeme.isTrivia = true
  ne_nil : core ≠ []
  first : ∀ first, core.head? = some first → first.isTrivia = false
  last : ∀ last, core.getLast? = some last → last.isTrivia = false
  complete : ∀ lexeme ∈ body, lexeme.isTrivia = false → lexeme.isMalformed = false
  mark : isImportant = true → ∃ bang word, significant tail = [bang, word] ∧
    bang.isBang = true ∧ word.isImportantWord = true
  unmarked : isImportant = false →
    significant tail = [] ∧ splitImportant (significant core) = (significant core, false)

/-- The text of the value that `body` holds, and whether `!important` stands behind it. -/
def text? (body : List Lexeme) : Option (CodeUnits × Bool) :=
  if (significant body).any Lexeme.isMalformed then none
  else
    let split := splitImportant (significant body)
    if split.1.isEmpty then none
    else some ((through split.1.length (body.dropWhile Lexeme.isTrivia)).flatMap Lexeme.units,
      split.2)

variable {body lead core tail : List Lexeme} {isImportant : Bool}

theorem any_isMalformed_significant_eq_false
    (h : ∀ lexeme ∈ body, lexeme.isTrivia = false → lexeme.isMalformed = false) :
    (significant body).any Lexeme.isMalformed = false := by
  rw [List.any_eq_false]
  intro lexeme hmem
  obtain ⟨hbody, hkind⟩ := List.mem_filter.mp hmem
  rw [h lexeme hbody (by simpa using hkind)]
  exact Bool.false_ne_true

namespace Parts

theorem significant_eq (h : Parts body lead core tail isImportant) :
    significant body = significant core ++ significant tail := by
  rw [h.split, significant_append, significant_append, significant_of_isTrivia h.lead,
    List.nil_append]

theorem splitImportant_eq (h : Parts body lead core tail isImportant) :
    splitImportant (significant body) = (significant core, isImportant) := by
  rw [h.significant_eq]
  cases isImportant with
  | true =>
    obtain ⟨bang, word, htail, hbang, hword⟩ := h.mark rfl
    rw [htail, splitImportant_append hbang hword]
  | false =>
    obtain ⟨htail, hcore⟩ := h.unmarked rfl
    rw [htail, List.append_nil, hcore]

theorem significant_ne_nil (h : Parts body lead core tail isImportant) :
    significant core ≠ [] := by
  cases hcore : core with
  | nil => exact absurd hcore h.ne_nil
  | cons first rest =>
    have hfirst := h.first first (by rw [hcore]; rfl)
    rw [significant, List.filter_cons_of_pos (by rw [hfirst]; rfl)]
    exact List.cons_ne_nil _ _

theorem dropWhile_eq (h : Parts body lead core tail isImportant) :
    body.dropWhile Lexeme.isTrivia = core ++ tail := by
  cases hcore : core with
  | nil => exact absurd hcore h.ne_nil
  | cons first rest =>
    have hfirst := h.first first (by rw [hcore]; rfl)
    rw [h.split, List.append_assoc, List.dropWhile_append_of_pos h.lead, hcore, List.cons_append,
      List.dropWhile_cons_of_neg (by rw [hfirst]; exact Bool.false_ne_true)]

theorem text?_eq (h : Parts body lead core tail isImportant) :
    text? body = some (core.flatMap Lexeme.units, isImportant) := by
  have hempty : (significant core).isEmpty = false := by
    rw [List.isEmpty_eq_false_iff]
    exact h.significant_ne_nil
  unfold text?
  rw [any_isMalformed_significant_eq_false h.complete, if_neg Bool.false_ne_true,
    h.splitImportant_eq, h.dropWhile_eq]
  dsimp only
  rw [hempty, if_neg Bool.false_ne_true, through_append h.last]

end Parts

/-- A body taken apart at its first lexeme that is no trivia and behind its `n`-th. -/
theorem exists_split {n : Nat} (hpos : 0 < n) (hle : n ≤ (significant body).length) :
    ∃ lead core tail, body = lead ++ core ++ tail ∧
      (∀ lexeme ∈ lead, lexeme.isTrivia = true) ∧ core ≠ [] ∧
      (∀ first, core.head? = some first → first.isTrivia = false) ∧
      (∀ last, core.getLast? = some last → last.isTrivia = false) ∧
      significant core = (significant body).take n ∧
      significant tail = (significant body).drop n := by
  have hlead : ∀ lexeme ∈ body.takeWhile Lexeme.isTrivia, lexeme.isTrivia = true := fun lexeme =>
    List.all_eq_true.mp List.all_takeWhile lexeme
  have hsame : significant (body.dropWhile Lexeme.isTrivia) = significant body := by
    rw [← List.nil_append (significant (body.dropWhile _)), ← significant_of_isTrivia hlead,
      ← significant_append, List.takeWhile_append_dropWhile]
  have hle' : n ≤ (significant (body.dropWhile Lexeme.isTrivia)).length := by
    rw [hsame]
    exact hle
  obtain ⟨tail, hparts, hcore, htail, hlast⟩ := exists_through hle'
  rw [hsame] at hcore htail
  refine ⟨_, _, tail, ?_, hlead, ?_, ?_, hlast, hcore, htail⟩
  · rw [List.append_assoc, ← hparts, List.takeWhile_append_dropWhile]
  · intro hnil
    rw [hnil] at hcore
    have := congrArg List.length hcore
    rw [List.length_take, Nat.min_eq_left hle] at this
    exact absurd this (Nat.ne_of_lt hpos)
  · intro first hfirst
    have hhead : (body.dropWhile Lexeme.isTrivia).head? = some first := by
      rw [hparts, List.head?_append, hfirst]
      rfl
    have := List.head?_dropWhile_not Lexeme.isTrivia body
    rw [hhead] at this
    exact this

theorem cover?_significant {span : Span} (hne : core ≠ [])
    (hfirst : ∀ first, core.head? = some first → first.isTrivia = false)
    (hlast : ∀ last, core.getLast? = some last → last.isTrivia = false)
    (h : cover? (significant core) = some span) :
    ∃ first last, core.head? = some first ∧ core.getLast? = some last ∧
      span = ⟨first.start, last.stop⟩ := by
  have hlastEq := List.getLast?_eq_some_getLast hne
  have hheadSome := List.head?_eq_some_head hne
  refine ⟨_, _, hheadSome, hlastEq, ?_⟩
  have hhead : (significant core).head? = some (core.head hne) := by
    obtain ⟨rest, hrest⟩ := List.head?_eq_some_iff.mp hheadSome
    have hkind := hfirst _ hheadSome
    generalize core.head hne = first at hrest hkind
    rw [hrest, significant, List.filter_cons_of_pos (by rw [hkind]; rfl)]
    rfl
  rw [cover?, hhead, getLast?_significant hlastEq (hlast _ hlastEq)] at h
  exact (Option.some.inj h).symm

theorem parts_of_ofBody? {value : Value} (h : ofBody? body = some value) :
    ∃ lead core tail first last, Parts body lead core tail value.isImportant ∧
      core.head? = some first ∧ core.getLast? = some last ∧
      value.span = ⟨first.start, last.stop⟩ := by
  unfold ofBody? at h
  dsimp only at h
  split at h
  · exact absurd h (by simp)
  · next hgood =>
    have hcomplete : ∀ lexeme ∈ body, lexeme.isTrivia = false → lexeme.isMalformed = false := by
      intro lexeme hmem hkind
      rw [Bool.not_eq_true, List.any_eq_false] at hgood
      simpa using hgood lexeme (List.mem_filter.mpr ⟨hmem, by rw [hkind]; rfl⟩)
    obtain ⟨span, hspan, rfl⟩ := Option.map_eq_some_iff.mp h
    change cover? (splitImportant (significant body)).1 = some span at hspan
    have hnonempty : (splitImportant (significant body)).1 ≠ [] := by
      intro hnil
      rw [hnil] at hspan
      exact absurd hspan (by simp [cover?])
    rcases splitImportant_cases (significant body) with
      hsplit | ⟨front, bang, word, hparts, hbang, hword, hsplit⟩
    · rw [hsplit] at hspan hnonempty
      obtain ⟨lead, core, tail, hbody, hlead, hne, hfirst, hlast, hcore, htail⟩ :=
        exists_split (List.length_pos_iff.mpr hnonempty) (Nat.le_refl _)
      rw [List.take_length] at hcore
      rw [List.drop_length] at htail
      rw [← hcore] at hspan
      obtain ⟨first, last, hhead, hend, hcover⟩ := cover?_significant hne hfirst hlast hspan
      have himportant : (splitImportant (significant body)).2 = false := by rw [hsplit]
      refine ⟨lead, core, tail, first, last, ⟨hbody, hlead, hne, hfirst, hlast, hcomplete, ?_, ?_⟩,
        hhead, hend, hcover⟩
      · intro himp
        exact absurd (himportant.symm.trans himp) Bool.false_ne_true
      · exact fun _ => ⟨htail, by rw [hcore]; exact hsplit⟩
    · rw [hsplit] at hspan hnonempty
      have hlength : (significant body).length = front.length + 2 := by
        rw [hparts, List.length_append]
        rfl
      obtain ⟨lead, core, tail, hbody, hlead, hne, hfirst, hlast, hcore, htail⟩ :=
        exists_split (show 0 < front.length from List.length_pos_iff.mpr hnonempty)
          (show front.length ≤ (significant body).length by omega)
      rw [hparts, List.take_left] at hcore
      rw [hparts, List.drop_left] at htail
      dsimp only at hspan
      rw [← hcore] at hspan
      obtain ⟨first, last, hhead, hend, hcover⟩ := cover?_significant hne hfirst hlast hspan
      have himportant : (splitImportant (significant body)).2 = true := by rw [hsplit]
      refine ⟨lead, core, tail, first, last, ⟨hbody, hlead, hne, hfirst, hlast, hcomplete, ?_, ?_⟩,
        hhead, hend, hcover⟩
      · exact fun _ => ⟨bang, word, htail, hbang, hword⟩
      · intro himp
        exact absurd (himp.symm.trans himportant) Bool.false_ne_true

end Value

end StyleRules
