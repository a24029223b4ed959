import Mathlib.Algebra.Ring.Nat
import StyleRules.Proofs.Expansion.Emission
import StyleRules.Proofs.Expansion.Shape
import StyleRules.Proofs.Token.Closed

/-!
# Expected and found declarations

What is read back from emitted declarations is what they say, or it is longer: a value that is not
sealed takes units of what is written behind it, and no unit is ever lost.
-/

namespace StyleRules

open CodeUnits (ofString)
open Emitted (EndsPlain IsShaped)
open Lexeme (pieces)
open Token (IsSealed)
open Value (Core Unmarked)

/-! ## Agreement -/

namespace Reading

def size (readings : List Reading) : Nat := (readings.map fun reading => reading.value.length).sum

/-- A reading under the same name, with the same value or with a backslash in its value. -/
def Resembles (found expected : Reading) : Prop :=
  found.name = expected.name ∧
    (found.value = expected.value ∨ CodeUnit.backslash ∈ found.value)

/-- What is found is what is expected if that is `kept`, and otherwise it is longer. In both cases
nothing is found that resembles nothing expected. -/
structure Agrees (expected found : List Reading) (kept : Prop) : Prop where
  same : kept → found = expected
  longer : ¬kept → size expected < size found
  near : ∀ reading ∈ found, ∃ other ∈ expected, reading.Resembles other

theorem size_cons (reading : Reading) (readings : List Reading) :
    size (reading :: readings) = reading.value.length + size readings := List.sum_cons

theorem size_append (front back : List Reading) :
    size (front ++ back) = size front + size back := by
  rw [size, List.map_append, List.sum_append]
  rfl

namespace Agrees

variable {expected expected' found found' : List Reading} {kept kept' : Prop}

theorem refl (readings : List Reading) : Agrees readings readings True :=
  ⟨fun _ => rfl, fun h => absurd trivial h, fun reading hmem => ⟨reading, hmem, rfl, .inl rfl⟩⟩

theorem congr (h : Agrees expected found kept) (hkept : kept ↔ kept') :
    Agrees expected found kept' :=
  ⟨fun h' => h.same (hkept.mpr h'), fun h' => h.longer fun hk => h' (hkept.mp hk), h.near⟩

theorem size_le (h : Agrees expected found kept) : size expected ≤ size found := by
  by_cases hkept : kept
  · exact Nat.le_of_eq (congrArg size (h.same hkept)).symm
  · exact Nat.le_of_lt (h.longer hkept)

theorem append (h : Agrees expected found kept) (h' : Agrees expected' found' kept') :
    Agrees (expected ++ expected') (found ++ found') (kept ∧ kept') := by
  refine ⟨fun hboth => by rw [h.same hboth.1, h'.same hboth.2], fun hnot => ?_,
    fun reading hmem => ?_⟩
  · rw [size_append, size_append]
    have hle := h.size_le
    have hle' := h'.size_le
    by_cases hkept : kept
    · have := h'.longer fun hk => hnot ⟨hkept, hk⟩
      omega
    · have := h.longer hkept
      omega
  · rcases List.mem_append.mp hmem with hmem | hmem
    · obtain ⟨other, hother, hnear⟩ := h.near reading hmem
      exact ⟨other, List.mem_append_left _ hother, hnear⟩
    · obtain ⟨other, hother, hnear⟩ := h'.near reading hmem
      exact ⟨other, List.mem_append_right _ hother, hnear⟩

theorem eq_iff (h : Agrees expected found kept) : found = expected ↔ kept := by
  refine ⟨fun heq => ?_, h.same⟩
  apply Classical.byContradiction
  intro hnot
  have hlonger := h.longer hnot
  rw [heq] at hlonger
  exact absurd hlonger (Nat.lt_irrefl _)

end Agrees

end Reading

/-! ## Values that are spelled out -/

namespace CodeUnits

variable {s : CodeUnits}

theorem IsFixed.pieces_append (h : s.IsFixed) {y : CodeUnits} (hy : y.startsApart = true) :
    pieces (s ++ y) = pieces s ++ pieces y := by
  obtain ⟨core, -, -, hpieces⟩ := h
  have hself := hpieces [] rfl
  rw [List.append_nil, Lexeme.pieces_nil, List.append_nil] at hself
  rw [hpieces y hy, hself]

theorem IsFixed.core (h : s.IsFixed) : Core (pieces s) ∧ Unmarked (pieces s) := by
  obtain ⟨core, hcore, hunmarked, hpieces⟩ := h
  have hself := hpieces [] rfl
  rw [List.append_nil, Lexeme.pieces_nil, List.append_nil] at hself
  rw [hself]
  exact ⟨hcore, hunmarked⟩

theorem IsFixed.isSealed (h : s.IsFixed) {c : CodeUnit} (hc : c.isSeparator = true) :
    IsSealed s c :=
  Lexeme.isSealed_of_pieces fun y _ => h.pieces_append (y := c :: y) hc

theorem IsSpelled.isFixed (h : s.IsSpelled) : s.IsFixed := isFixed_of_isLiteral h.1

end CodeUnits

/-! ## Emitted declarations -/

namespace Emitted

variable {declared w next : CodeUnits} {declarations : List Emitted} {expected : List Reading}
  {kept : Prop}

/-- Whether emitted declarations are read back one by one: before ` !important` every value has to
be sealed, and otherwise every value that a `;` is put behind. -/
def AreSealed (isImportant : Bool) (declarations : List Emitted) : Prop :=
  if isImportant then ∀ emitted ∈ declarations, IsSealed emitted.value CodeUnit.space
  else ∀ emitted ∈ declarations.dropLast, IsSealed emitted.value CodeUnit.semicolon

theorem agrees_reread (hcore : ∀ emitted ∈ declarations, Core (pieces emitted.value)) :
    Reading.Agrees (declarations.map (reading true)) (declarations.map reread)
      (AreSealed true declarations) := by
  induction declarations with
  | nil =>
    apply (Reading.Agrees.refl []).congr
    exact iff_of_true trivial fun _ hmem => absurd hmem List.not_mem_nil
  | cons emitted rest ih =>
    have hvalue := hcore emitted List.mem_cons_self
    have hone : Reading.Agrees [emitted.reading true] [emitted.reread]
        (IsSealed emitted.value CodeUnit.space) := by
      refine ⟨fun hsealed => ?_, fun hopen => ?_, fun reading hmem => ?_⟩
      · rw [reread, if_pos hsealed]
        rfl
      · rw [reread, if_neg hopen]
        rw [Reading.size_cons, Reading.size_cons, List.length_append]
        show emitted.value.length + 0 < emitted.value.length + 1 + 0
        omega
      · obtain rfl := List.mem_singleton.mp hmem
        refine ⟨_, List.mem_singleton_self _, rfl, ?_⟩
        rw [reread]
        by_cases hsealed : IsSealed emitted.value CodeUnit.space
        · rw [if_pos hsealed]
          exact .inl rfl
        · rw [if_neg hsealed]
          exact .inr (List.mem_append_left _ (Lexeme.backslash_mem_of_not_isSealed (by decide)
            (by decide) hvalue.complete hvalue.last hsealed))
    apply (hone.append (ih fun other hmem => hcore other (List.mem_cons_of_mem _ hmem))).congr
    exact (List.forall_mem_cons (p := fun other : Emitted =>
      IsSealed other.value CodeUnit.space)).symm

theorem IsPlain.core {emitted : Emitted} (h : emitted.IsPlain declared)
    (hcore : Core (pieces declared)) : Core (pieces emitted.value) := by
  rcases h.2 with hspelled | hdeclared
  · exact hspelled.isFixed.core.1
  · rw [hdeclared]
    exact hcore

/-- Declarations that end plain are read back one by one where they are not important. -/
theorem EndsPlain.ofLexemes_joined (h : EndsPlain declared declarations) (hne : declarations ≠ [])
    (hw : w.Finishes next) (hcore : Core (pieces declared)) (hplain : Unmarked (pieces declared))
    (hpieces : pieces (declared ++ w) = pieces declared ++ pieces w) :
    Reading.ofLexemes (pieces (joined false declarations ++ w)) =
      declarations.map (reading false) ++ Reading.ofLexemes (pieces next) := by
  refine Reading.ofLexemes_joined_plain hne hw (fun emitted hmem => ?_) (fun emitted hmem => ?_)
    (fun emitted hlast => ?_)
  · refine ⟨(h.1 emitted hmem).1, (h.1 emitted hmem).core hcore, ?_⟩
    rcases (h.1 emitted hmem).2 with hspelled | hdeclared
    · exact hspelled.isFixed.core.2
    · rw [hdeclared]
      exact hplain
  · exact (h.2 emitted hmem).isFixed.isSealed (by decide)
  · rcases (h.1 emitted (List.mem_of_getLast? hlast)).2 with hspelled | hdeclared
    · exact hspelled.isFixed.pieces_append hw.1
    · rw [hdeclared]
      exact hpieces

/-- A renamed declaration and the basis behind it are read back one by one just if the declared
value is sealed. Otherwise it takes the basis, and has a backslash. -/
theorem agrees_renamed {target : String} {basis : Emitted} (hword : (ofString target).isWord = true)
    (hbasis : (ofString basis.name).isWord = true ∧ basis.value.IsSpelled)
    (hzero : basis.value = [CodeUnit.digitZero]) (hw : w.Finishes next)
    (hcore : Core (pieces declared)) (hunmarked : Unmarked (pieces declared))
    (hnext : Reading.Agrees expected (Reading.ofLexemes (pieces next)) kept) :
    Reading.Agrees ([⟨target, declared⟩, basis].map (reading false) ++ expected)
      (Reading.ofLexemes (pieces (joined false [⟨target, declared⟩, basis] ++ w)))
      (IsSealed declared CodeUnit.semicolon ∧ kept) := by
  by_cases hsealed : IsSealed declared CodeUnit.semicolon
  · have hfound : Reading.ofLexemes (pieces (joined false [⟨target, declared⟩, basis] ++ w)) = _ :=
      Reading.ofLexemes_joined_plain (List.cons_ne_nil _ _) hw ?_ ?_ ?_
    · rw [hfound]
      apply ((Reading.Agrees.refl _).append hnext).congr
      exact and_congr_left' (iff_of_true trivial hsealed)
    · exact List.forall_mem_cons.mpr ⟨⟨hword, hcore, hunmarked⟩,
        List.forall_mem_singleton.mpr ⟨hbasis.1, hbasis.2.isFixed.core⟩⟩
    · exact List.forall_mem_singleton.mpr hsealed
    · rintro emitted ⟨⟩
      exact hbasis.2.isFixed.pieces_append hw.1
  · have hfound : Reading.ofLexemes (pieces (joined false [⟨target, declared⟩, basis] ++ w)) = _ :=
      Reading.ofLexemes_joined_merged hw hword hcore hsealed hbasis.1 hzero
    rw [hfound]
    refine ⟨fun hboth => absurd hboth.1 hsealed, fun _ => ?_, fun found hmem => ?_⟩
    · have hle := hnext.size_le
      rw [Reading.size_append, Reading.size_cons]
      have hsize : Reading.size ([⟨target, declared⟩, basis].map (reading false)) =
          declared.length + (basis.value.length + 0) := rfl
      rw [hsize, hzero]
      simp only [List.length_append, List.length_cons, List.length_nil]
      omega
    · rcases List.mem_cons.mp hmem with rfl | hmem
      · have hslash := Lexeme.backslash_mem_of_not_isSealed (by decide) (by decide)
          hcore.complete hcore.last hsealed
        exact ⟨_, List.mem_cons_self, rfl, .inr (List.mem_append_left _ hslash)⟩
      · obtain ⟨other, hother, hnear⟩ := hnext.near found hmem
        exact ⟨other, List.mem_append_right _ hother, hnear⟩

/-- What is read back from the declarations of an expansion and from the text behind them. -/
theorem agrees_joined {isImportant : Bool} (hne : declarations ≠ [])
    (hshape : IsShaped declared declarations) (hw : w.Finishes next)
    (hcore : Core (pieces declared))
    (hunmarked : isImportant = false → Unmarked (pieces declared))
    (hpieces : isImportant = false → pieces (declared ++ w) = pieces declared ++ pieces w)
    (hnext : Reading.Agrees expected (Reading.ofLexemes (pieces next)) kept) :
    Reading.Agrees (declarations.map (reading isImportant) ++ expected)
      (Reading.ofLexemes (pieces (joined isImportant declarations ++ w)))
      (AreSealed isImportant declarations ∧ kept) := by
  cases isImportant with
  | true =>
    have hall := hshape.isPlain
    rw [Reading.ofLexemes_joined_important hne hw fun emitted hmem =>
      ⟨(hall emitted hmem).1, (hall emitted hmem).core hcore⟩]
    exact (agrees_reread fun emitted hmem => (hall emitted hmem).core hcore).append hnext
  | false =>
    rcases hshape with hplain | ⟨target, hword, rfl⟩
    · rw [hplain.ofLexemes_joined hne hw hcore (hunmarked rfl) (hpieces rfl)]
      apply ((Reading.Agrees.refl _).append hnext).congr
      apply and_congr_left'
      refine iff_of_true trivial fun emitted hmem => ?_
      exact (hplain.2 emitted hmem).isFixed.isSealed (by decide)
    · have hsealed : AreSealed false [⟨target, declared⟩, weightBasis] ↔
          IsSealed declared CodeUnit.semicolon := List.forall_mem_singleton
      apply (agrees_renamed hword weightBasis_spelled rfl hw hcore (hunmarked rfl) hnext).congr
      exact and_congr_left' hsealed.symm

end Emitted

end StyleRules
