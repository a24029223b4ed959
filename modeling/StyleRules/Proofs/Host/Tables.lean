import StyleRules.Host.Protocol
import StyleRules.Proofs.Declaration.Pass
import StyleRules.Proofs.Declaration.Soundness

/-!
# Tables of a host

A host hands over any bytes as its rule table. They decide which rule applies to a declaration, and
nothing else: what is found in a text, and where, is the same under every table. A table that is
rejected has no rules, and the host is still told about every declaration.
-/

namespace StyleRules

namespace Table

theorem Trie.lookup_empty (root : UInt32) (key : CodeUnits) : empty.lookup root key = 0 := by
  have hslot : ∀ unit, empty.slot? root unit = none := by
    intro unit
    unfold slot?
    split <;> rfl
  match key with
  | [] => rfl
  | [last] => rw [lookup, hslot]
  | unit :: next :: rest => rw [lookup, hslot]

theorem resolve_empty (name value : CodeUnits) : empty.resolve name value = .none := by
  have hrename : empty.renameId name = 0 := Trie.lookup_empty 0 name
  have hreplace : empty.replaceId name value = 0 := by
    have hroot : empty.replace.lookup 0 name = 0 := Trie.lookup_empty 0 name
    rw [replaceId, hroot]
    rfl
  rw [resolve, hrename, hreplace]
  rfl

theorem ofBytes_of_rejected {bytes : Bytes} {error : ReadError} (h : read bytes = .error error) :
    ofBytes bytes = empty := by
  rw [ofBytes, h]

end Table

namespace Pass

/-- Under any two tables a scan reports the same declarations, which are sound, each with what its
own table says about the name and the value. Under a rejected table no rule applies, and the host is
called once for each declaration with the number `0`. -/
theorem all_ofBytes (one other : Bytes) (source : CodeUnits) :
    let text := source.addressable
    all (Table.ofBytes one) source = Resolved.all (Table.ofBytes one) source ∧
      (all (Table.ofBytes one) source).map Resolved.declaration =
        (all (Table.ofBytes other) source).map Resolved.declaration ∧
      (∀ resolved ∈ all (Table.ofBytes one) source,
        resolved.declaration.IsSound text ∧
          resolved.outcome = (Table.ofBytes one).resolve
            (resolved.declaration.name.slice text) (resolved.declaration.value.slice text)) ∧
      Host.calls one source = (all (Table.ofBytes one) source).map Host.Call.ofResolved ∧
      ∀ error, Table.read one = .error error →
        (∀ resolved ∈ all (Table.ofBytes one) source, resolved.outcome = .none) ∧
          Host.calls one source = (all (Table.ofBytes one) source).map fun resolved =>
            { Host.Call.ofResolved resolved with ruleId := 0 } := by
  intro text
  have hdeclarations : ∀ table : Table,
      (all table source).map Resolved.declaration = Declaration.all source := by
    intro table
    rw [all_eq, Resolved.all, Resolved.ofText, List.map_map]
    exact List.map_id _
  have houtcome : ∀ resolved ∈ all (Table.ofBytes one) source,
      resolved.declaration.IsSound text ∧
        resolved.outcome = (Table.ofBytes one).resolve
          (resolved.declaration.name.slice text) (resolved.declaration.value.slice text) := by
    intro resolved hmem
    rw [all_eq] at hmem
    obtain ⟨declaration, hdeclaration, rfl⟩ := List.mem_map.mp hmem
    refine ⟨Declaration.isSound_of_mem hdeclaration, ?_⟩
    rw [← Span.cut_toArray, ← Span.cut_toArray]
    rfl
  have hcalls : Host.calls one source =
      (all (Table.ofBytes one) source).map Host.Call.ofResolved := by
    rw [all_eq]
    rfl
  refine ⟨all_eq _ source, by rw [hdeclarations, hdeclarations], houtcome, hcalls,
    fun error hrejected => ?_⟩
  have hnone : ∀ resolved ∈ all (Table.ofBytes one) source, resolved.outcome = .none := by
    intro resolved hmem
    rw [(houtcome resolved hmem).2, Table.ofBytes_of_rejected hrejected, Table.resolve_empty]
  refine ⟨hnone, hcalls.trans (List.map_congr_left fun resolved hmem => ?_)⟩
  have hzero : Host.clamp resolved.outcome.id.toNat = 0 := by
    rw [hnone resolved hmem]
    rfl
  unfold Host.Call.ofResolved
  dsimp only
  rw [hzero]

/-- No bytes are no table, and the host is told about the declaration. -/
theorem all_ofBytes_of_nil :
    Table.read [] = .error .tooShort ∧
      Host.calls [] (CodeUnits.ofString "a:b;") = [⟨0, 3, 0, 4, 0⟩] := by
  have hread : Table.read [] = .error .tooShort := rfl
  have hfound : all (Table.ofBytes []) (CodeUnits.ofString "a:b;") =
      [⟨⟨⟨0, 1⟩, ⟨2, 3⟩, false, 4⟩, .none⟩] := by
    rw [all_eq]
    decide +kernel
  have hcalls := ((all_ofBytes [] [] (CodeUnits.ofString "a:b;")).2.2.2.2 _ hread).2
  rw [hfound] at hcalls
  exact ⟨hread, hcalls⟩

end Pass

end StyleRules
