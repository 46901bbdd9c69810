import RankPoly.NameMap
import Mathlib.Data.List.Induction

namespace RankPoly.NameMap

variable {α : Type}

instance (map : NameMap α) : Decidable map.Sorted :=
  inferInstanceAs (Decidable (map.keys.Pairwise (· < ·)))

@[simp] theorem find?_nil (name : String) : find? name ([] : NameMap α) = none := rfl

theorem find?_cons (name key : String) (value : α) (rest : NameMap α) :
    find? name ((key, value) :: rest) = if key = name then some value else find? name rest := rfl

-- A lookup after a binding sees that binding and otherwise what was there.
-- No order of the entries is needed for it.
theorem find?_insert (name key : String) (value : α) (map : NameMap α) :
    find? name (insert key value map) = if key = name then some value else find? name map := by
  induction map with
  | nil => rfl
  | cons entry rest ih =>
      obtain ⟨old, known⟩ := entry
      simp only [insert]
      split
      · rfl
      · rename_i heq
        have hkey : key = old := Std.compare_eq_iff_eq.mp heq
        subst hkey
        by_cases hname : key = name <;> simp [find?_cons, hname]
      · rename_i hgt
        have hne : key ≠ old := by
          rintro rfl
          simp [Std.compare_self] at hgt
        simp only [find?_cons, ih]
        by_cases hold : old = name
        · subst hold
          simp [hne]
        · simp [hold]

@[simp] theorem find?_insert_self (name : String) (value : α) (map : NameMap α) :
    find? name (insert name value map) = some value := by
  simp [find?_insert]

theorem find?_insert_of_ne {name key : String} (value : α) (map : NameMap α) (hne : key ≠ name) :
    find? name (insert key value map) = find? name map := by
  simp [find?_insert, hne]

-- What is bound stays so, whatever a name is bound to that is not.
theorem find?_insert_of_free {name free : String} {known value : α} {map : NameMap α}
    (hfree : find? free map = none) (h : find? name map = some known) :
    find? name (insert free value map) = some known := by
  have hne : free ≠ name := by
    rintro rfl
    cases hfree.symm.trans h
  exact (find?_insert_of_ne value map hne).trans h

theorem mem_keys_iff {name : String} {map : NameMap α} :
    name ∈ map.keys ↔ ∃ value, find? name map = some value := by
  induction map with
  | nil => simp [keys]
  | cons entry rest ih =>
      obtain ⟨key, value⟩ := entry
      by_cases hkey : key = name
      · simp [keys, find?_cons, hkey]
      · have hne : name ≠ key := fun h => hkey h.symm
        simpa [keys, find?_cons, hkey, hne] using ih

theorem mem_of_find? {name : String} {value : α} {map : NameMap α}
    (h : find? name map = some value) : (name, value) ∈ map := by
  induction map with
  | nil => cases h
  | cons entry rest ih =>
      obtain ⟨key, known⟩ := entry
      rw [find?_cons] at h
      split at h
      · rename_i hkey
        cases h
        simp [hkey]
      · exact List.mem_cons_of_mem _ (ih h)

theorem find?_of_mem {name : String} {value : α} {map : NameMap α} (hmap : map.keys.Nodup)
    (h : (name, value) ∈ map) : find? name map = some value := by
  induction map with
  | nil => cases h
  | cons entry rest ih =>
      obtain ⟨key, known⟩ := entry
      obtain ⟨hkey, hrest⟩ := List.nodup_cons.mp hmap
      rcases List.mem_cons.mp h with heq | hmem
      · cases heq
        simp [find?_cons]
      · have hne : key ≠ name := by
          rintro rfl
          exact hkey (List.mem_map.mpr ⟨_, hmem, rfl⟩)
        rw [find?_cons, if_neg hne]
        exact ih hrest hmem

theorem mem_keys_insert {name key : String} {value : α} {map : NameMap α} :
    name ∈ (insert key value map).keys ↔ name = key ∨ name ∈ map.keys := by
  simp only [mem_keys_iff, find?_insert]
  by_cases h : key = name
  · simp [h]
  · simp [h, Ne.symm h]

theorem mem_of_mem_insert {name : String} {value : α} {map : NameMap α} {entry : String × α}
    (h : entry ∈ insert name value map) : entry = (name, value) ∨ entry ∈ map := by
  induction map with
  | nil => exact Or.inl (List.mem_singleton.mp h)
  | cons first rest ih =>
      obtain ⟨key, known⟩ := first
      simp only [NameMap.insert] at h
      split at h
      · exact List.mem_cons.mp h
      · exact (List.mem_cons.mp h).imp_right (List.mem_cons_of_mem _)
      · rcases List.mem_cons.mp h with rfl | h
        · exact Or.inr List.mem_cons_self
        · exact (ih h).imp_right (List.mem_cons_of_mem _)

-- A binding is put where the order of the names wants it, so no name is bound
-- twice.
theorem Sorted.insert {map : NameMap α} (hmap : map.Sorted) (key : String) (value : α) :
    (insert key value map).Sorted := by
  unfold Sorted at *
  induction map with
  | nil => simp [NameMap.insert, keys]
  | cons entry rest ih =>
      obtain ⟨old, known⟩ := entry
      obtain ⟨hfirst, hrest⟩ := List.pairwise_cons.mp hmap
      change ∀ name ∈ keys rest, old < name at hfirst
      simp only [NameMap.insert]
      split
      · rename_i hlt
        have hlt' : key < old := compareOfLessAndEq_eq_lt.mp hlt
        refine List.pairwise_cons.mpr ⟨fun name hname => ?_, hmap⟩
        rcases List.mem_cons.mp hname with rfl | hmem
        · exact hlt'
        · exact String.lt_trans hlt' (hfirst name hmem)
      · rename_i heq
        rw [Std.compare_eq_iff_eq.mp heq]
        exact hmap
      · rename_i hgt
        have hgt' : old < key :=
          (compareOfLessAndEq_eq_gt String.le_antisymm String.le_total String.not_le _ _).mp hgt
        refine List.pairwise_cons.mpr ⟨fun name hname => ?_, ih hrest⟩
        rcases mem_keys_insert.mp hname with rfl | hmem
        · exact hgt'
        · exact hfirst name hmem

theorem Sorted.nodup {map : NameMap α} (hmap : map.Sorted) : map.keys.Nodup :=
  List.Pairwise.imp (fun h => (String.ne_of_lt h)) hmap

-- What stands behind all names that are bound, is put at the end.
theorem insert_eq_append {map : NameMap α} {key : String} (value : α)
    (hlast : ∀ name ∈ map.keys, name < key) : insert key value map = map ++ [(key, value)] := by
  induction map with
  | nil => rfl
  | cons entry rest ih =>
      obtain ⟨old, known⟩ := entry
      obtain ⟨hold, hrest⟩ := List.forall_mem_cons.mp hlast
      have hgt : compare key old = .gt :=
        (compareOfLessAndEq_eq_gt String.le_antisymm String.le_total String.not_le _ _).mpr hold
      simp only [NameMap.insert, hgt, List.cons_append]
      rw [ih hrest]

theorem contains_iff {map : NameMap α} {name : String} :
    map.contains name = true ↔ ∃ value, find? name map = some value := by
  simp [contains, Option.isSome_iff_exists]

theorem contains_insert {map : NameMap α} {name key : String} {value : α} :
    (insert key value map).contains name = true ↔ name = key ∨ map.contains name = true := by
  rw [contains_iff, ← mem_keys_iff, mem_keys_insert, mem_keys_iff, contains_iff]

section OfList

variable {key : String} {value : α} {entries : List (String × α)}

theorem ofList_append_singleton (entries : List (String × α)) (entry : String × α) :
    ofList (entries ++ [entry]) = insert entry.1 entry.2 (ofList entries) := by
  unfold ofList
  rw [List.foldl_append]
  rfl

theorem mem_of_find?_ofList (h : find? key (ofList entries) = some value) :
    (key, value) ∈ entries := by
  induction entries using List.reverseRecOn with
  | nil => cases h
  | append_singleton entries entry ih =>
      rw [ofList_append_singleton, find?_insert] at h
      split at h
      · rename_i hkey
        cases h
        exact hkey ▸ List.mem_append_right _ List.mem_cons_self
      · exact List.mem_append_left _ (ih h)

-- Where all entries for a name agree, no matter which of them counts.
theorem find?_ofList (hmem : (key, value) ∈ entries)
    (hsame : ∀ entry ∈ entries, entry.1 = key → entry.2 = value) :
    find? key (ofList entries) = some value := by
  induction entries using List.reverseRecOn with
  | nil => cases hmem
  | append_singleton entries entry ih =>
      obtain ⟨hinit, hlast⟩ := List.forall_mem_append.mp hsame
      rw [ofList_append_singleton, find?_insert]
      split
      · rename_i hkey
        rw [List.forall_mem_singleton.mp hlast hkey]
      · rename_i hkey
        refine ih ?_ hinit
        rcases List.mem_append.mp hmem with hmem | hmem
        · exact hmem
        · cases List.mem_singleton.mp hmem
          exact absurd rfl hkey

end OfList

end RankPoly.NameMap
