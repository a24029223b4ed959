import StyleRules.Proofs.Table.Enough
import StyleRules.Proofs.Table.Header
import StyleRules.Proofs.Text.Utf16

/-!
# Writing and reading agree

Rules have a table unless one of them is faulty or they need too many nodes. The table is read back
with all of its nodes, no part of it is a table in its place, and bytes behind a table change no
answer.
-/

namespace StyleRules.Table

open CodeUnits (ofString)

/-- A rule without a number, or with an empty text in place of a name or a value. -/
def Rule.IsFaulty : Rule → Prop
  | .rename name id => id = 0 ∨ name = ""
  | .replace name value id => id = 0 ∨ name = "" ∨ value = ""

theorem ofString_eq_nil_iff (text : String) : ofString text = [] ↔ text = "" := by
  constructor
  · intro hnil
    rw [← CodeUnits.toText_ofString text, hnil]
    rfl
  · rintro rfl
    rfl

theorem isEntry_iff (entry : String × RuleId) :
    isEntry entry = true ↔ entry.2 ≠ 0 ∧ entry.1 ≠ "" := by
  rw [isEntry_iff_ne_nil, (ofString_eq_nil_iff entry.1).ne]

theorem ValueRules.isSound_iff (group : ValueRules) : group.isSound = true ↔
    group.name ≠ "" ∧ ∀ entry ∈ group.values, isEntry entry = true := by
  rw [isSound_iff_ne_nil, (ofString_eq_nil_iff group.name).ne]

theorem mem_renameRules {rules : List Rule} {name : String} {id : RuleId} :
    (name, id) ∈ renameRules rules ↔ .rename name id ∈ rules := by
  unfold renameRules
  rw [List.mem_filterMap]
  constructor
  · rintro ⟨rule, hrule, hpair⟩
    cases rule with
    | rename key number =>
      obtain ⟨rfl, rfl⟩ := Prod.mk.inj (Option.some.inj hpair)
      exact hrule
    | replace key value number => exact absurd hpair (by simp)
  · exact fun hrule => ⟨_, hrule, rfl⟩

/-- No rule is faulty exactly when all that goes into the two pools is sound. -/
theorem not_isFaulty_iff (rules : List Rule) :
    (∀ rule ∈ rules, ¬ rule.IsFaulty) ↔
      (renameRules rules).all isEntry = true ∧
        (replaceGroups rules).all ValueRules.isSound = true := by
  rw [List.all_eq_true, List.all_eq_true, replaceGroups_eq]
  constructor
  · intro hrules
    refine ⟨fun entry hmem => ?_, fun group hmem => ?_⟩
    · have hsound := hrules (.rename entry.1 entry.2) (mem_renameRules.mp hmem)
      exact (isEntry_iff _).mpr (not_or.mp hsound)
    · obtain ⟨spelling, hspelling, rfl⟩ := List.mem_map.mp hmem
      obtain ⟨value, id, hrule⟩ := mem_spellings.mp hspelling
      have hname : spelling ≠ "" := fun hempty => hrules _ hrule (.inr (.inl hempty))
      refine (ValueRules.isSound_iff _).mpr
        ⟨hname, fun entry hentry => (isEntry_iff _).mpr ?_⟩
      have hsound := hrules (.replace spelling entry.1 entry.2) (mem_valuesOf.mp hentry)
      exact ⟨fun hzero => hsound (.inl hzero), fun hempty => hsound (.inr (.inr hempty))⟩
  · rintro ⟨hrename, hreplace⟩ rule hrule hfaulty
    cases rule with
    | rename name id =>
      have hentry := (isEntry_iff _).mp (hrename _ (mem_renameRules.mpr hrule))
      exact hfaulty.elim hentry.1 hentry.2
    | replace name value id =>
      have hgroup := (ValueRules.isSound_iff _).mp
        (hreplace _ (List.mem_map_of_mem (mem_spellings.mpr ⟨value, id, hrule⟩)))
      have hentry := (isEntry_iff _).mp (hgroup.2 _ (mem_valuesOf.mpr hrule))
      rcases hfaulty with hzero | hname | hvalue
      · exact hentry.1 hzero
      · exact hgroup.1 hname
      · exact hentry.2 hvalue

/-! ## Faulty rules have no table -/

/-- What holds of every entry that a step takes, holds of all entries of a run that succeeds. -/
theorem Pool.forall_of_foldlM {α : Type} {step : Pool → α → Except BuildError Pool} {p : α → Prop}
    (hstep : ∀ pool entry grown, step pool entry = .ok grown → p entry) {entries : List α}
    {pool filled : Pool} (hfill : entries.foldlM step pool = .ok filled) :
    ∀ entry ∈ entries, p entry := by
  induction entries generalizing pool with
  | nil => exact fun entry hmem => absurd hmem List.not_mem_nil
  | cons first entries ih =>
    rw [List.foldlM_cons] at hfill
    obtain ⟨grown, hfirst, hfill⟩ := exists_of_bind_eq_ok hfill
    intro entry hmem
    rcases List.mem_cons.mp hmem with rfl | hlater
    · exact hstep pool entry grown hfirst
    · exact ih hfill entry hlater

theorem Pool.ne_nil_of_insert {pool inserted : Pool} {root value : UInt32} {key : CodeUnits}
    (hinsert : pool.insert root key value = .ok inserted) : key ≠ [] := by
  rintro rfl
  rw [Pool.insert] at hinsert
  exact absurd hinsert (by simp)

theorem Pool.isEntry_of_insertRule {pool inserted : Pool} {root : UInt32} {entry : String × RuleId}
    (hinsert : Pool.insertRule root pool entry = .ok inserted) : isEntry entry = true := by
  unfold Pool.insertRule at hinsert
  split at hinsert
  · exact absurd hinsert (by simp)
  · next hid =>
    exact (isEntry_iff_ne_nil entry).mpr ⟨hid, Pool.ne_nil_of_insert hinsert⟩

theorem Pool.isSound_of_insertGroup {pool inserted : Pool} {group : ValueRules}
    (hinsert : pool.insertGroup group = .ok inserted) : group.isSound = true := by
  unfold Pool.insertGroup at hinsert
  obtain ⟨pushed, hpush, hinsert⟩ := exists_of_bind_eq_ok hinsert
  obtain ⟨filled, hfill, hinsert⟩ := exists_of_bind_eq_ok hinsert
  exact (ValueRules.isSound_iff_ne_nil group).mpr ⟨Pool.ne_nil_of_insert hinsert,
    Pool.forall_of_foldlM (p := fun entry => isEntry entry = true)
      (fun _ _ _ => Pool.isEntry_of_insertRule) hfill⟩

theorem not_isFaulty_of_build {rules : List Rule} {asset : Bytes}
    (hbuild : build rules = .ok asset) : ∀ rule ∈ rules, ¬ rule.IsFaulty := by
  obtain ⟨rename, replace, hrename, hreplace, -⟩ := assetBytes_of_build hbuild
  rw [not_isFaulty_iff, List.all_eq_true, List.all_eq_true]
  exact ⟨Pool.forall_of_foldlM (p := fun entry => isEntry entry = true)
      (fun _ _ _ => Pool.isEntry_of_insertRule) hrename,
    Pool.forall_of_foldlM (p := fun group => group.isSound = true)
      (fun _ _ _ => Pool.isSound_of_insertGroup) hreplace⟩

theorem exists_build_iff {rules : List Rule} (hrename : renameNeed rules < Word.count)
    (hreplace : replaceNeed rules < Word.count) :
    (∃ asset, build rules = .ok asset) ↔ ∀ rule ∈ rules, ¬ rule.IsFaulty := by
  constructor
  · rintro ⟨asset, hbuild⟩
    exact not_isFaulty_of_build hbuild
  · intro hrules
    obtain ⟨hentries, hgroups⟩ := (not_isFaulty_iff rules).mp hrules
    obtain ⟨rename, hrenamed, hrenameSize⟩ := exists_renamePool hentries hrename
    obtain ⟨replace, hreplaced, hreplaceSize⟩ := exists_replacePool hgroups hreplace
    have hroom : rename.nodes.size < Word.count ∧ replace.nodes.size < Word.count := by
      rw [hrenameSize, hreplaceSize]
      exact ⟨hrename, hreplace⟩
    simp only [build, bind, Except.bind, hrenamed, hreplaced, assetBytes, if_pos hroom]
    exact ⟨_, rfl⟩

/-- What a built asset is read as: two tries whose nodes make up all of its bytes, as many as the
rules need. -/
structure IsComplete (rules : List Rule) (asset : Bytes) (table : Table) : Prop where
  read : read asset = .ok table
  renameCount : (wordAt asset 8).toNat = table.rename.size
  replaceCount : (wordAt asset 12).toNat = table.replace.size
  length : asset.length =
    headerLength + (table.rename.size + table.replace.size) * Node.byteCount
  renameNeed : renameNeed rules < Word.count → table.rename.size = renameNeed rules
  replaceNeed : replaceNeed rules < Word.count → table.replace.size = replaceNeed rules

theorem exists_isComplete {rules : List Rule} {asset : Bytes} (hbuild : build rules = .ok asset) :
    ∃ table, IsComplete rules asset table := by
  obtain ⟨rename, replace, hrename, hreplace, hasset⟩ := assetBytes_of_build hbuild
  obtain ⟨hentries, hgroups⟩ := (not_isFaulty_iff rules).mp (not_isFaulty_of_build hbuild)
  have hread := read_assetBytes hasset []
  have hword := wordAt_assetBytes hasset []
  rw [List.append_nil] at hread hword
  refine ⟨_, hread, hword.1, hword.2, ?_, fun hneed => ?_, fun hneed => ?_⟩
  · rw [length_assetBytes hasset, Nat.add_mul, Nat.add_assoc]
    rfl
  · obtain ⟨other, hother, hsize⟩ := exists_renamePool hentries hneed
    exact Except.ok.inj (hrename.symm.trans hother) ▸ hsize
  · obtain ⟨other, hother, hsize⟩ := exists_replacePool hgroups hneed
    exact Except.ok.inj (hreplace.symm.trans hother) ▸ hsize

theorem IsComplete.promised {rules : List Rule} {asset : Bytes} {table : Table}
    (h : IsComplete rules asset table) : Table.promised asset = asset.length := by
  rw [Table.promised, h.renameCount, h.replaceCount, h.length, Nat.add_mul, Nat.add_assoc]

/-- Bytes are read as a table exactly when header and length are right, and otherwise the first
failing check is reported. Rules have a table unless one of them is faulty; it is read back whole,
and none of its proper beginnings is read. Bytes behind a table change no answer. -/
theorem read_and_build_exact :
    (∀ bytes, ((∃ table, read bytes = .ok table) ↔ IsAccepted bytes) ∧
      (∀ error, read bytes = .error error ↔ FirstFailure bytes error) ∧ promised bytes < 2 ^ 64) ∧
    (∀ rules, renameNeed rules < Word.count → replaceNeed rules < Word.count →
      ((∃ error, build rules = .error error) ↔ ∃ rule ∈ rules, rule.IsFaulty)) ∧
    (∀ rules asset, build rules = .ok asset →
      (∃ table, IsComplete rules asset table) ∧
        ∀ n < asset.length, read (asset.take n) =
          .error (if n < headerLength then .tooShort else .truncated asset.length n)) ∧
    ∀ bytes table, read bytes = .ok table → ∀ extra, read (bytes ++ extra) = .ok table ∧
      ∀ name value, (ofBytes (bytes ++ extra)).resolve name value =
        (ofBytes bytes).resolve name value := by
  refine ⟨fun bytes => ⟨exists_read_iff bytes, read_eq_error_iff bytes, promised_lt bytes⟩,
    fun rules hrename hreplace => ?_, fun rules asset hbuild => ?_,
    fun bytes table hread extra => ?_⟩
  · have hbuilt := exists_build_iff hrename hreplace
    constructor
    · rintro ⟨error, herror⟩
      by_contra hsound
      obtain ⟨asset, hasset⟩ := hbuilt.mpr fun rule hmem hfaulty => hsound ⟨rule, hmem, hfaulty⟩
      exact absurd (hasset.symm.trans herror) (by simp)
    · rintro ⟨rule, hmem, hfaulty⟩
      cases hbuild : build rules with
      | error error => exact ⟨error, rfl⟩
      | ok asset => exact absurd hfaulty (hbuilt.mp ⟨asset, hbuild⟩ rule hmem)
  · obtain ⟨table, hcomplete⟩ := exists_isComplete hbuild
    refine ⟨⟨table, hcomplete⟩, fun n hn => ?_⟩
    have haccepted := (exists_read_iff asset).mp ⟨table, hcomplete.read⟩
    rw [← hcomplete.promised] at hn ⊢
    exact read_take haccepted hn
  · have happend := read_append ((exists_read_iff bytes).mp ⟨table, hread⟩) extra
    refine ⟨happend.trans hread, fun name value => ?_⟩
    rw [ofBytes, ofBytes, happend]

/-- Three rules with two tries of three nodes each, one of them for a second unit at its place; no
byte of the table may be missing. A rule without a name has no table. -/
theorem read_and_build_exact_of_three_rules :
    (∃ asset table, build [.rename "a-b" 1, .replace "d" "-" 2, .replace "d" ":" 3] = .ok asset ∧
      read asset = .ok table ∧ table.rename.size = 3 ∧ table.replace.size = 3 ∧
      asset.length = 16 + 228 * 6 ∧ read (asset.take 1383) = .error (.truncated 1384 1383) ∧
      read (asset ++ [0xFF]) = .ok table) ∧
    ∃ error, build [.rename "" 1] = .error error := by
  obtain ⟨-, hfaulty, hbuilt, hextra⟩ := read_and_build_exact
  obtain ⟨asset, hasset⟩ := exists_build_of_isOk
    [.rename "a-b" 1, .replace "d" "-" 2, .replace "d" ":" 3] (by decide +kernel)
  obtain ⟨⟨table, hcomplete⟩, hbeginnings⟩ := hbuilt _ asset hasset
  have hrename : table.rename.size = 3 := by
    rw [hcomplete.renameNeed (by decide +kernel)]
    decide +kernel
  have hreplace : table.replace.size = 3 := by
    rw [hcomplete.replaceNeed (by decide +kernel)]
    decide +kernel
  have hlength : asset.length = 16 + 228 * 6 := by
    rw [hcomplete.length, hrename, hreplace]
    rfl
  refine ⟨⟨asset, table, hasset, hcomplete.read, hrename, hreplace, hlength, ?_,
    (hextra asset table hcomplete.read [0xFF]).1⟩, ?_⟩
  · rw [hbeginnings 1383 (by rw [hlength]; decide), hlength]
    rfl
  · exact (hfaulty [.rename "" 1] (by decide +kernel) (by decide +kernel)).mpr
      ⟨_, List.mem_singleton_self _, .inr rfl⟩

end StyleRules.Table
