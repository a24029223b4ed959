import StyleRules.Proofs.Table.Room
import StyleRules.Proofs.Table.Shown

/-!
# An insertion touches one key

Several tries share the nodes of a pool. Whatever roots were added and whatever keys were inserted
below them, inserting one more key changes the answer for this key below its root and no other
answer, and the references of the pool stay in order. A lookup reads the nodes a word can count: a
pool can hold one node more, and what ends there is inserted but not found.
-/

namespace StyleRules.Table.Pool

open CodeUnits (fold ofString)

/-- The pools that come about by adding nodes and inserting keys below them, insertions that fail
included. The roots are node `0` and the nodes that were added. -/
inductive Reached : Pool → List UInt32 → Prop
  | new : Reached Pool.new [0]
  | push {pool grown : Pool} {roots : List UInt32} {added : UInt32} (h : Reached pool roots)
    (hpush : pool.push = .ok (grown, added)) : Reached grown (added :: roots)
  | insert {pool : Pool} {roots : List UInt32} {root : UInt32} (h : Reached pool roots)
    (hroot : root ∈ roots) (key : CodeUnits) (value : UInt32) :
    Reached (pool.afterInsert root key value) roots

/-- The references of a pool are in order, and the units along a chain of alternates differ. -/
structure WellFormed (pool : Pool) (roots : List UInt32) : Prop extends Linked pool roots where
  units : ∀ i j k, pool.Reaches i j → pool.Reaches i k →
    (pool.node j).otherUnit = (pool.node k).otherUnit → j = k

/-- What is kept while a pool comes about. -/
structure Rooted (pool : Pool) (plan : Plan) (roots : List UInt32) : Prop where
  forest : pool.Forest plan
  linked : pool.Linked roots
  holdsUnits : pool.HoldsUnits
  isRoot : ∀ root ∈ roots, pool.IsRoot plan root

variable {pool grown : Pool} {plan plan' : Plan} {roots : List UInt32}

theorem Rooted.wellFormed (h : Rooted pool plan roots) : pool.WellFormed roots :=
  ⟨h.linked, fun _ _ _ hj hk hsame => h.linked.eq_of_otherUnit h.forest h.holdsUnits hj hk hsame⟩

theorem rooted_new : Rooted Pool.new Plan.new [0] := by
  have hnode : ∀ i, Pool.new.Has i → Pool.new.node i = Node.empty := by
    intro i hi
    rw [eq_zero_of_has_new hi]
    rfl
  have hnone : ∀ {i link j}, ¬Pool.new.Refers i link j := by
    rintro i link j ⟨hi, hto, hne⟩
    rw [hnode i hi, Node.target_empty] at hto
    exact hne hto.symm
  refine ⟨forest_new, ⟨fun _ _ _ h => absurd h hnone, fun _ _ _ _ _ h => absurd h hnone,
    fun _ _ _ h => absurd h hnone, fun _ _ h => absurd h hnone⟩, fun i hi => ?_,
    fun root hroot => ?_⟩
  · rw [hnode i hi]
    exact ⟨0, rfl⟩
  · rw [List.mem_singleton.mp hroot]
    exact isRoot_new

theorem Rooted.push (h : Rooted pool plan roots) {added : UInt32}
    (hpush : pool.push = .ok (grown, added)) :
    Rooted grown (plan.set added added added []) (added :: roots) := by
  have hgrown := Grown.push h.forest hpush added []
  refine ⟨hgrown.forest, h.linked.push hpush, h.holdsUnits.push hpush, fun root hroot => ?_⟩
  rcases List.mem_cons.mp hroot with rfl | hold
  · exact ⟨⟨(has_push hpush root).mpr (.inr rfl), if_pos rfl⟩, if_pos rfl, if_pos rfl⟩
  · exact hgrown.isRoot (h.isRoot root hold)

theorem Rooted.writes (h : Rooted pool plan roots) (hgrown : Grown pool plan grown plan')
    (hwrites : Writes pool grown) : Rooted grown plan' roots where
  forest := hgrown.forest
  linked := h.linked.writes (fun root hroot => (h.isRoot root hroot).1.1) hwrites
  holdsUnits := h.holdsUnits.writes hwrites
  isRoot root hroot := hgrown.isRoot (h.isRoot root hroot)

theorem Rooted.afterInsert (h : Rooted pool plan roots) {root : UInt32} (hroot : root ∈ roots)
    (key : CodeUnits) (value : UInt32) :
    ∃ plan', Grown pool plan (pool.afterInsert root key value) plan' ∧
      Writes pool (pool.afterInsert root key value) ∧
      ∀ r ∈ roots, ∀ query, (pool.afterInsert root key value).trie.lookup r query =
        if (pool.insert root key value).isOk = true ∧ r = root ∧ fold query = fold key then value
        else pool.trie.lookup r query := by
  obtain ⟨plan', hgrown, hwrites, hlookup⟩ := afterInsert_below_spec h.forest (h.isRoot root hroot)
    (show pool.trie.walk root [] = some root from rfl) key value
  exact ⟨plan', hgrown, hwrites, fun r hr => hlookup r (h.isRoot r hr)⟩

theorem Reached.exists_rooted (h : pool.Reached roots) : ∃ plan, Rooted pool plan roots := by
  induction h with
  | new => exact ⟨Plan.new, rooted_new⟩
  | push _ hpush ih =>
    obtain ⟨plan, hrooted⟩ := ih
    exact ⟨_, hrooted.push hpush⟩
  | insert _ hroot key value ih =>
    obtain ⟨plan, hrooted⟩ := ih
    obtain ⟨plan', hgrown, hwrites, -⟩ := hrooted.afterInsert hroot key value
    exact ⟨plan', hrooted.writes hgrown hwrites⟩

theorem Reached.wellFormed (h : pool.Reached roots) : pool.WellFormed roots :=
  h.exists_rooted.elim fun _ hrooted => hrooted.wellFormed

theorem insert_of_size_lt {root : UInt32} {key : CodeUnits} {value : UInt32} (hkey : key ≠ [])
    (hsize : (pool.afterInsert root key value).nodes.size < Word.count) :
    pool.insert root key value = .ok (pool.afterInsert root key value) := by
  fun_induction Pool.afterInsert pool root key value with
  | case1 pool root => exact absurd rfl hkey
  | case2 pool root last claimed holder hclaim => exact insert_of_claim hclaim value
  | case3 pool root last cause hclaim =>
    obtain ⟨claimed, holder, hok, -⟩ := claim_grows root last hsize
    exact absurd (hclaim.symm.trans hok) (by simp)
  | case4 pool root unit next rest claimed holder hclaim grown below hchild ih =>
    rw [insert_of_child hclaim hchild]
    exact ih (List.cons_ne_nil _ _) hsize
  | case5 pool root unit next rest claimed holder hclaim cause hchild =>
    obtain ⟨grown, below, hok, -⟩ := child_grows holder unit.symbol hsize
    exact absurd (hchild.symm.trans hok) (by simp)
  | case6 pool root unit next rest cause hclaim =>
    obtain ⟨claimed, holder, hok, -⟩ := claim_grows root unit hsize
    exact absurd (hclaim.symm.trans hok) (by simp)

/-- Inserting a key below a root makes the lookup of that key from that root yield the value, in
either case of its letters, as long as the number of the nodes is a word. Any other lookup from any
root yields what it did, and so does every lookup when the insertion fails. -/
theorem insert_touches_one_key (hpool : pool.Reached roots) {root : UInt32} (hroot : root ∈ roots)
    {key : CodeUnits} (hkey : key ≠ []) (value : UInt32) :
    ((pool.afterInsert root key value).nodes.size < Word.count →
      pool.insert root key value = .ok (pool.afterInsert root key value) ∧
        ∀ query, fold query = fold key →
          (pool.afterInsert root key value).encoded.lookup root query = value) ∧
    (∀ r ∈ roots, ∀ query,
      ¬((pool.insert root key value).isOk = true ∧ r = root ∧ fold query = fold key) →
        (pool.afterInsert root key value).encoded.lookup r query = pool.encoded.lookup r query) ∧
    pool.WellFormed roots ∧ (pool.afterInsert root key value).WellFormed roots := by
  obtain ⟨plan, hrooted⟩ := hpool.exists_rooted
  obtain ⟨plan', hgrown, hwrites, hlookup⟩ := hrooted.afterInsert hroot key value
  have hafter := hrooted.writes hgrown hwrites
  refine ⟨fun hsize => ?_, fun r hr query hother => ?_, hrooted.wellFormed, hafter.wellFormed⟩
  · have hinsert := insert_of_size_lt hkey hsize
    refine ⟨hinsert, fun query hquery => ?_⟩
    have hok : (pool.insert root key value).isOk = true := by
      rw [hinsert]
      rfl
    rw [encoded_of_size_lt hsize, hlookup root hroot, if_pos ⟨hok, rfl, hquery⟩]
  · have hsame := hlookup r hr query
    rw [if_neg hother] at hsame
    exact lookup_of_shows hrooted.forest hrooted.linked hgrown hafter.linked (Writes.keeps hwrites)
      (shows_encoded pool) (shows_encoded _) (hrooted.isRoot r hr).1 hsame

/-- Two tries in one pool, and a key that gets an alternate in one of them. -/
theorem insert_touches_one_key_of_two_tries :
    ∃ pool : Pool, pool.Reached [1, 0] ∧ ofString "A_" ≠ [] ∧
      pool.encoded.lookup 1 (ofString "a-") = 5 ∧ pool.encoded.lookup 0 (ofString "a:") = 1 ∧
      ∃ inserted, pool.insert 1 (ofString "A_") 7 = .ok inserted ∧
        inserted.encoded.lookup 1 (ofString "a_") = 7 ∧
        inserted.encoded.lookup 1 (ofString "a-") = 5 ∧
        inserted.encoded.lookup 0 (ofString "a:") = 1 ∧
        inserted.encoded.lookup 0 (ofString "a_") = pool.encoded.lookup 0 (ofString "a_") ∧
        inserted.WellFormed [1, 0] := by
  let pushed : Pool := ⟨#[Node.empty, Node.empty]⟩
  let pool := (pushed.afterInsert 1 (ofString "a-") 5).afterInsert 0 (ofString "a:") 1
  have hpush : Pool.new.push = .ok (pushed, 1) := if_pos (by decide)
  have hpool : pool.Reached [1, 0] :=
    ((Reached.new.push hpush).insert (by decide) (ofString "a-") 5).insert (by decide)
      (ofString "a:") 1
  have hsize : pool.nodes.size < Word.count ∧
      (pool.afterInsert 1 (ofString "A_") 7).nodes.size < Word.count := by decide +kernel
  have hfirst : pool.encoded.lookup 1 (ofString "a-") = 5 := by
    rw [encoded_of_size_lt hsize.1]
    decide +kernel
  have hsecond : pool.encoded.lookup 0 (ofString "a:") = 1 := by
    rw [encoded_of_size_lt hsize.1]
    decide +kernel
  have hroot : (1 : UInt32) ∈ [1, 0] := by decide
  have hkey : ofString "A_" ≠ [] := by decide
  obtain ⟨hfound, hothers, -, hwellFormed⟩ := insert_touches_one_key hpool hroot hkey 7
  obtain ⟨hinsert, hvalue⟩ := hfound hsize.2
  refine ⟨pool, hpool, hkey, hfirst, hsecond, _, hinsert, hvalue _ (by decide), ?_, ?_,
    ?_, hwellFormed⟩
  · rw [hothers 1 (by decide) _ fun h => absurd h.2.2 (by decide), hfirst]
  · rw [hothers 0 (by decide) _ fun h => absurd h.2.1 (by decide), hsecond]
  · exact hothers 0 (by decide) _ fun h => absurd h.2.1 (by decide)

/-! ### The last node -/

theorem exists_reached_of_lt {n : Nat} (hn : n < Word.count) :
    ∃ (pool : Pool) (roots : List UInt32), pool.Reached roots ∧ pool.nodes.size = n + 1 ∧
      UInt32.ofNat n ∈ roots := by
  induction n with
  | zero => exact ⟨Pool.new, [0], .new, rfl, List.mem_singleton_self 0⟩
  | succ n ih =>
    obtain ⟨pool, roots, hpool, hsize, -⟩ := ih (Nat.lt_of_succ_lt hn)
    have hpush : pool.push = .ok (⟨pool.nodes.push Node.empty⟩, UInt32.ofNat pool.nodes.size) :=
      if_pos (hsize ▸ hn)
    refine ⟨_, _, hpool.push hpush, ?_, ?_⟩
    · rw [Array.size_push, hsize]
    · rw [hsize]
      exact List.mem_cons_self

/-- The node whose index is the largest word can be a root, but no lookup finds what is inserted
below it. -/
theorem insert_touches_one_key_of_last_node :
    ∃ (pool : Pool) (roots : List UInt32), pool.Reached roots ∧ 4294967295 ∈ roots ∧
      ∃ inserted, pool.insert 4294967295 (ofString "a") 7 = .ok inserted ∧
        inserted.encoded.lookup 4294967295 (ofString "a") = 0 := by
  obtain ⟨pool, roots, hpool, -, hroot⟩ := exists_reached_of_lt
    (show 4294967295 < Word.count by decide)
  have hkey : ofString "a" = [0x61] := by decide +kernel
  refine ⟨pool, roots, hpool, hroot, ?_⟩
  rw [hkey, Pool.insert, Pool.claim, if_neg (by decide)]
  exact ⟨_, rfl, lookup_encoded_last _ _⟩

end StyleRules.Table.Pool
