import ModCpp.HashTable

/-!
# A hash table as a map

Every key is stored once and in the bucket of its hash, so that a search in one bucket answers
for the table.
-/

namespace ModCpp.HashTable
open KeyedList
variable {Key Value : Type} {DefaultSize : ℕ} {hash_func : Key → ℕ} [BEq Key]
  {t t' : HashTable Key Value DefaultSize} {key : Key} {l : List (Key × Value)}

structure Placed (hash_func : Key → ℕ) (t : HashTable Key Value DefaultSize) : Prop where
  distinct : ∀ b, DistinctKeys (t.table b)
  home : ∀ b, ∀ node ∈ t.table b, hash_func node.1 = b

omit [BEq Key] in
theorem setList_table {b : Fin DefaultSize} :
    (t.setList b l).table = Function.update t.table b l := rfl

section bucket
variable (hb : ∀ k, hash_func k < DefaultSize)

def bucket (key : Key) : Fin DefaultSize := ⟨hash_func key, hb key⟩

def toMap (t : HashTable Key Value DefaultSize) (key : Key) : Option Value :=
  valueAt key (t.table (bucket hb key))

omit [BEq Key] in
theorem getHash_eq : getHash hash_func key = .ok (bucket hb key) := dif_pos (hb key)

variable {hb}

theorem Placed.setList (hp : Placed hash_func t) (hd : DistinctKeys l)
    (hl : ∀ node ∈ l, hash_func node.1 = hash_func key) :
    Placed hash_func (t.setList (bucket hb key) l) := by
  constructor
  · intro b
    by_cases he : b = bucket hb key
    · subst he
      rw [setList_table, Function.update_self]
      exact hd
    · rw [setList_table, Function.update_of_ne he]
      exact hp.distinct b
  · intro b
    by_cases he : b = bucket hb key
    · subst he
      rw [setList_table, Function.update_self]
      exact hl
    · rw [setList_table, Function.update_of_ne he]
      exact hp.home b

theorem toMap_setList {v : Option Value} (heq : ∀ k k', k == k' → hash_func k = hash_func k')
    (hl : ∀ k, valueAt k l = if key == k then v else valueAt k (t.table (bucket hb key))) :
    toMap hb (t.setList (bucket hb key) l) = bind (toMap hb t) key v := by
  funext k
  rw [toMap, bind, setList_table]
  by_cases he : bucket hb k = bucket hb key
  · rw [he, Function.update_self, hl k, ← he]
    rfl
  · have hne : ¬ key == k := by
      intro hk
      exact he (Fin.ext (heq _ _ hk).symm)
    rw [Function.update_of_ne he, if_neg hne]
    rfl

theorem Placed.modify {v : Value} {i : ℕ} (hp : Placed hash_func t) :
    Placed hash_func (t.setList (bucket hb key)
      ((t.table (bucket hb key)).modify i fun node => (node.1, v))) := by
  refine hp.setList (distinct_modify (hp.distinct _) i) ?_
  intro node hnode
  have hkey := List.mem_map_of_mem (f := Prod.fst) hnode
  rw [keys_modify] at hkey
  obtain ⟨old, hold, he⟩ := List.mem_map.mp hkey
  rw [← he]
  exact hp.home _ old hold

theorem index_missing [Inhabited Value] (h : toMap hb t key = none) :
    index hash_func t key = .ok ((bucket hb key, (t.table (bucket hb key)).length),
      { t with len := add64 t.len 1 }.setList (bucket hb key)
        (t.table (bucket hb key) ++ [(key, default)])) := by
  rw [toMap, valueAt_eq_none] at h
  rw [index, ok_bind (getHash_eq hb)]
  simp only [h, ne_eq, not_true_eq_false, if_false]
  rfl

theorem index_found [Inhabited Value] {v : Value} (h : toMap hb t key = some v) :
    index hash_func t key =
      .ok ((bucket hb key, position key (t.table (bucket hb key))), t) := by
  have hne : position key (t.table (bucket hb key)) ≠ (t.table (bucket hb key)).length := by
    intro he
    rw [toMap, valueAt_eq_none.mpr he] at h
    cases h
  rw [index, ok_bind (getHash_eq hb)]
  simp only [hne, ne_eq, not_false_eq_true, if_true]
  rfl

theorem load_ok {v : Value} {b : Fin DefaultSize} (h : valueAt key (t.table b) = some v) :
    t.load (b, position key (t.table b)) = .ok v := by
  obtain ⟨node, hnode, rfl⟩ := Option.map_eq_some_iff.mp h
  rw [load]
  simp only [hnode]
  rfl

theorem store_ok {v value : Value} {b : Fin DefaultSize}
    (h : valueAt key (t.table b) = some v) :
    t.store (b, position key (t.table b)) value =
      .ok (t.setList b ((t.table b).modify (position key (t.table b)) fun node =>
        (node.1, value))) := by
  obtain ⟨node, hnode, _⟩ := Option.map_eq_some_iff.mp h
  rw [store]
  simp only [hnode]
  rfl

variable [EquivBEq Key]

theorem toMap_congr {k k' : Key} (heq : ∀ k k', k == k' → hash_func k = hash_func k')
    (h : k == k') : toMap hb t k = toMap hb t k' := by
  rw [toMap, toMap, show bucket hb k = bucket hb k' from Fin.ext (heq _ _ h), valueAt_congr h]

variable (hb)

theorem Placed.index [Inhabited Value] (hp : Placed hash_func t)
    (heq : ∀ k k', k == k' → hash_func k = hash_func k') (key : Key) :
    ∃ t₁, HashTable.index hash_func t key =
        .ok ((bucket hb key, position key (t₁.table (bucket hb key))), t₁) ∧
      Placed hash_func t₁ ∧
      valueAt key (t₁.table (bucket hb key)) = some ((toMap hb t key).getD default) ∧
      toMap hb t₁ = bind (toMap hb t) key (some ((toMap hb t key).getD default)) := by
  cases hv : toMap hb t key with
  | some v =>
    refine ⟨t, index_found hv, hp, hv, ?_⟩
    funext k
    rw [bind]
    split_ifs with hk
    · rw [← toMap_congr heq hk]
      exact hv
    · rfl
  | none =>
    have hmiss : position key (t.table (bucket hb key)) = (t.table (bucket hb key)).length :=
      valueAt_eq_none.mp hv
    let l := t.table (bucket hb key) ++ [(key, (default : Value))]
    let t₀ : HashTable Key Value DefaultSize := { t with len := add64 t.len 1 }
    have hp₀ : Placed hash_func t₀ := ⟨hp.distinct, hp.home⟩
    have htable : (t₀.setList (bucket hb key) l).table (bucket hb key) = l :=
      Function.update_self ..
    have hvalue : ∀ k, valueAt k l =
        if key == k then some default else valueAt k (t.table (bucket hb key)) := by
      intro k
      rw [valueAt_append]
      split_ifs with hk
      · rw [← valueAt_congr hk, valueAt_eq_none.mpr hmiss]
        rfl
      · rw [Option.or_none]
    refine ⟨t₀.setList (bucket hb key) l, ?_, hp₀.setList ?_ ?_, ?_, ?_⟩
    · rw [index_missing hv, htable, position_append_self hmiss]
    · exact distinct_append (hp.distinct _) hmiss
    · intro node hnode
      rcases List.mem_append.mp hnode with hnode | hnode
      · exact hp.home _ node hnode
      · rw [List.mem_singleton.mp hnode]
    · rw [htable, hvalue, if_pos BEq.rfl]
      rfl
    · exact toMap_setList heq hvalue

omit [EquivBEq Key] in
theorem bind_bind {m : Key → Option Value} {x y : Option Value} :
    bind (bind m key x) key y = bind m key y := by
  funext k
  rw [bind, bind, bind]
  split_ifs <;> rfl

theorem Placed.invoke [Inhabited Value] (hp : Placed hash_func t)
    (heq : ∀ k k', k == k' → hash_func k = hash_func k') (c : Call Key Value) :
    ∃ t', HashTable.invoke hash_func t c = .ok ((map (toMap hb t) c).1, t') ∧
      Placed hash_func t' ∧ toMap hb t' = (map (toMap hb t) c).2 := by
  cases c with
  | index key =>
    obtain ⟨t₁, hindex, hp₁, hvalue, hmap⟩ := hp.index hb heq key
    refine ⟨t₁, ?_, hp₁, hmap⟩
    rw [HashTable.invoke, ok_bind hindex]
    dsimp only
    rw [ok_bind (load_ok hvalue)]
    rfl
  | assign key value =>
    obtain ⟨t₁, hindex, hp₁, hvalue, hmap⟩ := hp.index hb heq key
    let l := (t₁.table (bucket hb key)).modify (position key (t₁.table (bucket hb key)))
      fun node => (node.1, value)
    refine ⟨t₁.setList (bucket hb key) l, ?_, hp₁.modify, ?_⟩
    · rw [HashTable.invoke, ok_bind hindex]
      dsimp only
      rw [ok_bind (store_ok hvalue)]
      rfl
    · rw [toMap_setList (v := some value) heq ?_, hmap, bind_bind]
      · rfl
      · intro k
        rw [valueAt_modify, hvalue]
        rfl
  | erase key =>
    by_cases hmiss : position key (t.table (bucket hb key)) = (t.table (bucket hb key)).length
    · have hcall : HashTable.erase hash_func t key = .ok t := by
        rw [HashTable.erase, ok_bind (getHash_eq hb)]
        exact if_pos hmiss
      refine ⟨t, ?_, hp, ?_⟩
      · rw [HashTable.invoke, ok_bind hcall]
        rfl
      · funext k
        change toMap hb t k = if key == k then none else toMap hb t k
        split_ifs with hk
        · rw [← toMap_congr heq hk]
          exact valueAt_eq_none.mpr hmiss
        · rfl
    · let l := (t.table (bucket hb key)).eraseIdx (position key (t.table (bucket hb key)))
      have hcall : HashTable.erase hash_func t key = .ok (t.setList (bucket hb key) l) := by
        rw [HashTable.erase, ok_bind (getHash_eq hb)]
        exact if_neg hmiss
      have hd : DistinctKeys l := distinct_eraseIdx (hp.distinct _) _
      refine ⟨t.setList (bucket hb key) l, ?_, hp.setList hd ?_, ?_⟩
      · rw [HashTable.invoke, ok_bind hcall]
        rfl
      · exact fun node hnode => hp.home _ node (List.mem_of_mem_eraseIdx hnode)
      · exact toMap_setList heq fun k => valueAt_eraseIdx (hp.distinct _)
  | count key =>
    have hcall : HashTable.count hash_func t key = .ok (toMap hb t key).isSome := by
      rw [HashTable.count, ok_bind (getHash_eq hb)]
      refine congrArg Except.ok ?_
      rw [Bool.eq_iff_iff, decide_eq_true_iff, Option.isSome_iff_ne_none, ne_eq, ne_eq, toMap,
        valueAt_eq_none]
    refine ⟨t, ?_, hp, rfl⟩
    rw [HashTable.invoke, ok_bind hcall]
    rfl

theorem run_placed [Inhabited Value] {tr : List (Call Key Value × Ret Value)}
    (heq : ∀ k k', k == k' → hash_func k = hash_func k')
    (hr : (tableSystem hash_func).Run System.always tr t) :
    Placed hash_func t ∧ mapSystem.Run System.always tr (toMap hb t) := by
  refine System.run_invariant (P := fun tr t =>
    Placed hash_func t ∧ mapSystem.Run System.always tr (toMap hb t)) ?_ ?_ hr
  · intro t ht
    rw [show t = empty from ht]
    exact ⟨⟨fun _ => .nil, fun _ node hnode => absurd hnode List.not_mem_nil⟩, .start rfl⟩
  · intro tr t e t' _ hi _ hstep
    obtain ⟨hp, hrun⟩ := hi
    obtain ⟨t₁, hcall, hp₁, hmap⟩ := hp.invoke hb heq e.1
    have hsame := hcall.symm.trans hstep
    obtain ⟨hret, rfl⟩ := Prod.mk.inj (Except.ok.inj hsame)
    refine ⟨hp₁, hrun.step trivial ?_⟩
    exact Prod.ext hret hmap.symm

end bucket

/-- A table answers as a map does, with every key once and in its bucket, so that its answers do
not depend on the hash function. -/
theorem table_refined [EquivBEq Key] [Inhabited Value] {tr : List (Call Key Value × Ret Value)}
    (hb : ∀ k, hash_func k < DefaultSize) (heq : ∀ k k', k == k' → hash_func k = hash_func k')
    (hr : (tableSystem hash_func).Run System.always tr t) :
    (∃ m, mapSystem.Run System.always tr m ∧
      ∀ c, ∃ t', invoke hash_func t c = .ok ((map m c).1, t')) ∧
    (∀ b, DistinctKeys (t.table b)) ∧ (∀ b, ∀ node ∈ t.table b, hash_func node.1 = b) ∧
    ∀ hash_func' : Key → ℕ, (∀ k, hash_func' k < DefaultSize) →
      (∀ k k', k == k' → hash_func' k = hash_func' k') → ∀ tr' t',
      (tableSystem hash_func' : System (HashTable Key Value DefaultSize) _).Run System.always
        tr' t' →
      tr'.map Prod.fst = tr.map Prod.fst → tr' = tr := by
  obtain ⟨hp, hrun⟩ := run_placed hb heq hr
  refine ⟨⟨_, hrun, ?_⟩, hp.distinct, hp.home, ?_⟩
  · intro c
    obtain ⟨t', hcall, _⟩ := hp.invoke hb heq c
    exact ⟨t', hcall⟩
  · intro hash_func' hb' heq' tr' t' hr' hc
    obtain ⟨_, hrun'⟩ := run_placed hb' heq' hr'
    exact (map_deterministic hrun hrun' hc).1

/-- Keys 1 and 3 share a bucket; under a hash function that is constant all keys do. -/
theorem table_refined_sample : ∃ (tr : List (Call ℕ ℕ × Ret ℕ)) (t : HashTable ℕ ℕ 2),
    (tableSystem (· % 2)).Run System.always tr t ∧ tr.length = 6 ∧
    ∀ tr' t', (tableSystem fun _ => 1 : System (HashTable ℕ ℕ 2) _).Run System.always tr' t' →
      tr'.map Prod.fst = tr.map Prod.fst → tr' = tr := by
  have h₀ : (tableSystem (· % 2)).Run System.always [] (empty : HashTable ℕ ℕ 2) := .start rfl
  have h₁ := h₀.step (e := (Call.assign 1 5, Ret.done)) trivial (by exact rfl)
  have h₂ := h₁.step (e := (Call.index 3, Ret.value 0)) trivial (by exact rfl)
  have h₃ := h₂.step (e := (Call.assign 3 7, Ret.done)) trivial (by exact rfl)
  have h₄ := h₃.step (e := (Call.erase 1, Ret.done)) trivial (by exact rfl)
  have h₅ := h₄.step (e := (Call.index 3, Ret.value 7)) trivial (by exact rfl)
  have h₆ := h₅.step (e := (Call.count 1, Ret.found false)) trivial (by exact rfl)
  have hlt : ∀ k : ℕ, k % 2 < 2 := fun k => Nat.mod_lt k (by decide)
  obtain ⟨_, _, _, hsame⟩ := table_refined hlt (fun k k' h => by rw [eq_of_beq h]) h₆
  exact ⟨_, _, h₆, rfl, hsame _ (fun _ => by decide) fun _ _ _ => rfl⟩

end ModCpp.HashTable
