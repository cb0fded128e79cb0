import PerpExchange.Json.Codec

/-! Maps by the entry under each key. -/
namespace PerpExchange.Map

section
variable {κ ν : Type} [Ord κ] [Std.TransOrd κ] {m : Map κ ν} {k : κ}

theorem getD_of_getElem? {d : ν} : m.getD k d = m[k]?.getD d :=
  Std.ExtTreeMap.getD_eq_getD_getElem?

theorem values_eq_map_toList : m.values = m.toList.map Prod.snd := by
  have h : m.values = m.foldr (fun _ v vs => v :: vs) [] := by
    rcases m with ⟨⟨m⟩⟩
    rfl
  rw [h, Std.ExtTreeMap.foldr_eq_foldr_toList]
  induction m.toList with
  | nil => rfl
  | cons e es ih => simp only [List.foldr_cons, ih, List.map_cons]

end

section
variable {κ ν : Type} [Ord κ] [Std.TransOrd κ] [Std.LawfulEqOrd κ] {m : Map κ ν} {v : ν}

theorem mem_values : v ∈ m.values ↔ ∃ k : κ, m[k]? = some v := by
  rw [values_eq_map_toList, List.mem_map]
  constructor
  · rintro ⟨⟨k, v⟩, h, rfl⟩
    exact ⟨k, Std.ExtTreeMap.mem_toList_iff_getElem?_eq_some.mp h⟩
  · rintro ⟨k, h⟩
    exact ⟨(k, v), Std.ExtTreeMap.mem_toList_iff_getElem?_eq_some.mpr h, rfl⟩

theorem forall_iff {p : κ → ν → Prop} :
    (∀ (k : κ) (v : ν), m[k]? = some v → p k v) ↔ ∀ e ∈ m.toList, p e.1 e.2 := by
  constructor
  · exact fun h e he => h e.1 e.2 (Std.ExtTreeMap.mem_toList_iff_getElem?_eq_some.mp he)
  · exact fun h k v hv => h (k, v) (Std.ExtTreeMap.mem_toList_iff_getElem?_eq_some.mpr hv)

/-- What can be decided of every entry can be decided of all. -/
instance {p : κ → ν → Prop} [∀ k v, Decidable (p k v)] :
    Decidable (∀ (k : κ) (v : ν), m[k]? = some v → p k v) := decidable_of_iff' _ forall_iff

/-- Each key has one entry. -/
theorem distinct_keys (m : Map κ ν) : m.toList.Pairwise fun e e' => e.1 ≠ e'.1 :=
  Std.ExtTreeMap.distinct_keys_toList.imp fun hne he => hne (Std.compare_eq_iff_eq.mpr he)

theorem nodup_toList (m : Map κ ν) : m.toList.Nodup :=
  m.distinct_keys.imp fun hne he => hne (congrArg Prod.fst he)

end

section
variable {κ ν : Type} [Ord κ] [Std.TransOrd κ] [Std.LawfulEqOrd κ] [DecidableEq κ]
variable {m : Map κ ν} {k k' : κ} {v : ν}

theorem getElem?_insert_key : (m.insert k v)[k']? = if k = k' then some v else m[k']? := by
  rw [Std.ExtTreeMap.getElem?_insert]
  simp only [Std.compare_eq_iff_eq]

theorem getD_insert_key {d : ν} : (m.insert k v).getD k' d = if k = k' then v else m.getD k' d := by
  rw [Std.ExtTreeMap.getD_insert]
  simp only [Std.compare_eq_iff_eq]

theorem getElem?_erase_key : (m.erase k)[k']? = if k = k' then none else m[k']? := by
  rw [Std.ExtTreeMap.getElem?_erase]
  simp only [Std.compare_eq_iff_eq]

theorem getElem?_modify_key {f : ν → ν} :
    (m.modify k f)[k']? = if k = k' then m[k']?.map f else m[k']? := by
  rw [Std.ExtTreeMap.getElem?_modify]
  simp only [Std.compare_eq_iff_eq]
  split
  next h => rw [h]
  next => rfl

/-- Changing an entry shows where the entry is looked up, if the change leaves the default alone. -/
theorem getD_modify_key {f : ν → ν} {d : ν} (hf : f d = d) :
    (m.modify k f).getD k' d = if k = k' then f (m.getD k' d) else m.getD k' d := by
  rw [getD_of_getElem?, getD_of_getElem?, getElem?_modify_key]
  split
  next =>
    cases m[k']? with
    | none => exact hf.symm
    | some v => rfl
  next => rfl

theorem insert_erase_key : (m.erase k).insert k v = m.insert k v := by
  apply Std.ExtTreeMap.ext_getElem?
  intro k'
  rw [getElem?_insert_key, getElem?_insert_key, getElem?_erase_key]
  split <;> rfl

theorem erase_insert_key : (m.insert k v).erase k = m.erase k := by
  apply Std.ExtTreeMap.ext_getElem?
  intro k'
  rw [getElem?_erase_key, getElem?_erase_key, getElem?_insert_key]
  split <;> rfl

omit [DecidableEq κ] in
/-- The entries as a list are all the entries, each once. -/
theorem foldl_insert_toList :
    m.toList.foldl (fun (m : Map κ ν) e => m.insert e.1 e.2) ∅ = m := by
  classical
  rw [← Std.ExtTreeMap.ofList_eq_foldl]
  apply Std.ExtTreeMap.ext_getElem?
  intro k
  cases h : m[k]? with
  | some v =>
    have hm := Std.ExtTreeMap.mem_toList_iff_getElem?_eq_some.mpr h
    exact Std.ExtTreeMap.getElem?_ofList_of_mem Std.compare_self
      Std.ExtTreeMap.distinct_keys_toList hm
  | none =>
    apply Std.ExtTreeMap.getElem?_ofList_of_contains_eq_false
    rw [Std.ExtTreeMap.map_fst_toList_eq_keys, Std.ExtTreeMap.contains_keys,
      Std.ExtTreeMap.contains_eq_isSome_getElem?, h, Option.isSome_none]

omit [DecidableEq κ] in
/-- Inserting the entries one after another gives the map, however they come. -/
theorem foldlM_insert_toList {β : Type} {entry : κ × ν → β}
    {insert? : Map κ ν → β → Option (Map κ ν)}
    (h : ∀ m e, insert? m (entry e) = some (m.insert e.1 e.2)) (m : Map κ ν) :
    (m.toList.map entry).foldlM insert? ∅ = some m := by
  have hfold : ∀ (entries : List (κ × ν)) (start : Map κ ν),
      (entries.map entry).foldlM insert? start =
        some (entries.foldl (fun m e => m.insert e.1 e.2) start) := by
    intro entries
    induction entries with
    | nil => exact fun _ => rfl
    | cons e entries ih =>
      intro start
      rw [List.map_cons, List.foldlM_cons, h, Option.bind_eq_bind, Option.bind_some, ih,
        List.foldl_cons]
  rw [hfold, foldl_insert_toList]

theorem toList_perm_cons_erase (h : m[k]? = some v) :
    m.toList.Perm ((k, v) :: (m.erase k).toList) := by
  have hnot : (k, v) ∉ (m.erase k).toList := by
    rw [Std.ExtTreeMap.mem_toList_iff_getElem?_eq_some, getElem?_erase_key, if_pos rfl]
    simp
  refine (List.perm_ext_iff_of_nodup (nodup_toList m)
    (List.nodup_cons.mpr ⟨hnot, nodup_toList _⟩)).mpr ?_
  rintro ⟨k', v'⟩
  rw [List.mem_cons, Std.ExtTreeMap.mem_toList_iff_getElem?_eq_some,
    Std.ExtTreeMap.mem_toList_iff_getElem?_eq_some, getElem?_erase_key, Prod.mk.injEq]
  by_cases hk : k = k'
  · subst hk
    simp [h, eq_comm]
  · simp [hk, Ne.symm hk]

theorem toList_insert_perm : (m.insert k v).toList.Perm ((k, v) :: (m.erase k).toList) := by
  have h := toList_perm_cons_erase (m := m.insert k v) (k := k) (v := v)
    (getElem?_insert_key.trans (if_pos rfl))
  rwa [erase_insert_key] at h

theorem getElem?_alter_key {f : Option ν → Option ν} :
    (m.alter k f)[k']? = if k = k' then f m[k']? else m[k']? := by
  rw [Std.ExtTreeMap.getElem?_alter]
  simp only [Std.compare_eq_iff_eq]
  split
  next h => rw [h]
  next => rfl

theorem alter_eq_insert {f : Option ν → Option ν} (h : f m[k]? = some v) :
    m.alter k f = m.insert k v := by
  apply Std.ExtTreeMap.ext_getElem?
  intro k'
  rw [getElem?_alter_key, getElem?_insert_key]
  split
  next hk => rw [← hk, h]
  next => rfl

theorem alter_eq_erase {f : Option ν → Option ν} (h : f m[k]? = none) :
    m.alter k f = m.erase k := by
  apply Std.ExtTreeMap.ext_getElem?
  intro k'
  rw [getElem?_alter_key, getElem?_erase_key]
  split
  next hk => rw [← hk, h]
  next => rfl

theorem alter_eq_self {f : Option ν → Option ν} (h : f m[k]? = m[k]?) : m.alter k f = m := by
  apply Std.ExtTreeMap.ext_getElem?
  intro k'
  rw [getElem?_alter_key]
  split
  next hk => rw [← hk, h]
  next => rfl

theorem alter_alter {f g : Option ν → Option ν} :
    (m.alter k f).alter k g = m.alter k fun o => g (f o) := by
  apply Std.ExtTreeMap.ext_getElem?
  intro k'
  rw [getElem?_alter_key, getElem?_alter_key, getElem?_alter_key]
  split <;> rfl

theorem erase_eq_self (h : m[k]? = none) : m.erase k = m := by
  rw [← alter_eq_erase (f := id) h]
  exact alter_eq_self rfl

theorem getElem?_foldl_erase (ks : List κ) :
    (ks.foldl (fun m k => m.erase k) m)[k]? = if k ∈ ks then none else m[k]? := by
  induction ks generalizing m with
  | nil => simp
  | cons k' ks ih =>
    rw [List.foldl_cons, ih, getElem?_erase_key]
    by_cases hk : k' = k
    · simp [hk]
    · simp [hk, Ne.symm hk]

/-- Erasing entries that are there, each once, makes the map smaller by their number. -/
theorem length_add_size_foldl_erase {ks : List κ} (hn : ks.Nodup)
    (h : ∀ k ∈ ks, ∃ v, m[k]? = some v) :
    ks.length + (ks.foldl (fun m k => m.erase k) m).size = m.size := by
  induction ks generalizing m with
  | nil => exact Nat.zero_add _
  | cons k ks ih =>
    obtain ⟨hk, hn⟩ := List.nodup_cons.mp hn
    obtain ⟨⟨v, hv⟩, h⟩ := List.forall_mem_cons.mp h
    have hcontains : m.contains k = true := by
      rw [Std.ExtTreeMap.contains_eq_isSome_getElem?, hv, Option.isSome_some]
    have hsize : 0 < m.size := by
      rw [Nat.pos_iff_ne_zero, Ne, ← Std.ExtTreeMap.eq_empty_iff_size_eq_zero]
      rintro rfl
      simp at hv
    have hrest := ih (m := m.erase k) hn fun k' hk' => by
      rw [getElem?_erase_key, if_neg (by rintro rfl; exact hk hk')]
      exact h k' hk'
    rw [Std.ExtTreeMap.size_erase, if_pos hcontains] at hrest
    rw [List.length_cons, List.foldl_cons]
    omega

end

end PerpExchange.Map
