import Interruptible.Context

/-!
# Looking things up

What stands in a table under a name after it has been changed, and what services a context has after others have been inserted
or merged into it. Of two merged contexts the second one wins (`Context.get?_merge`), as long as it holds each service once
(`Context.Distinct`), which every context does that is built by inserting and merging.
-/

namespace Interruptible

/-! ## Tables -/

/-- A table has under a name what was put there. -/
theorem Table.find?_set {α : Type} (t : Table α) (name : String) (a : α) : (t.set name a).find? name = some a := by
  obtain ⟨entries⟩ := t
  simp only [Table.find?, Table.set]
  induction entries with
  | nil => simp [Table.setEntry]
  | cons e rest ih =>
    obtain ⟨n, b⟩ := e
    by_cases hn : n = name
    · simp [Table.setEntry, hn]
    · rw [Table.setEntry, if_neg hn, List.lookup_cons, show (name == n) = false by simpa using fun h => hn h.symm]
      exact ih

/-- Under the other names it has what was there. -/
theorem Table.find?_set_of_ne {α : Type} (t : Table α) {name other : String} (h : other ≠ name) (a : α) :
    (t.set name a).find? other = t.find? other := by
  obtain ⟨entries⟩ := t
  simp only [Table.find?, Table.set]
  induction entries with
  | nil => simp [Table.setEntry, List.lookup_cons, show (other == name) = false by simpa using h]
  | cons e rest ih =>
    obtain ⟨n, b⟩ := e
    by_cases hn : n = name
    · subst hn
      simp [Table.setEntry, List.lookup_cons, show (other == n) = false by simpa using h]
    · rw [Table.setEntry, if_neg hn, List.lookup_cons, List.lookup_cons, ih]

/-- What has been erased is not found. -/
theorem Table.find?_erase {α : Type} (t : Table α) (name : String) : (t.erase name).find? name = none := by
  obtain ⟨entries⟩ := t
  simp only [Table.find?, Table.erase]
  induction entries with
  | nil => rfl
  | cons e rest ih =>
    obtain ⟨n, b⟩ := e
    by_cases hn : n = name
    · subst hn
      rw [List.filter_cons_of_neg (by simp)]
      exact ih
    · rw [List.filter_cons_of_pos (by simpa using hn), List.lookup_cons,
        show (name == n) = false by simpa using fun h => hn h.symm]
      exact ih

/-- Erasing one name leaves what is found under the others. -/
theorem Table.find?_erase_of_ne {α : Type} (t : Table α) {name other : String} (h : other ≠ name) :
    (t.erase name).find? other = t.find? other := by
  obtain ⟨entries⟩ := t
  simp only [Table.find?, Table.erase]
  induction entries with
  | nil => rfl
  | cons e rest ih =>
    obtain ⟨n, b⟩ := e
    by_cases hn : n = name
    · subst hn
      rw [List.filter_cons_of_neg (by simp), ih, List.lookup_cons, show (other == n) = false by simpa using h]
    · rw [List.filter_cons_of_pos (by simpa using hn), List.lookup_cons, List.lookup_cons, ih]

/-- A table with one entry for each name. -/
def Table.Distinct {α : Type} (t : Table α) : Prop := (t.entries.map (·.1)).Nodup

/-- Setting an entry adds its name at the end, unless it is there. -/
theorem Table.map_fst_setEntry {α : Type} (name : String) (a : α) (entries : List (String × α)) :
    (Table.setEntry name a entries).map (·.1) =
      if name ∈ entries.map (·.1) then entries.map (·.1) else entries.map (·.1) ++ [name] := by
  induction entries with
  | nil => simp [Table.setEntry]
  | cons e rest ih =>
    obtain ⟨n, b⟩ := e
    by_cases hn : n = name
    · simp [Table.setEntry, hn]
    · have hne : ¬ name = n := fun h => hn h.symm
      rw [Table.setEntry, if_neg hn, List.map_cons, ih]
      simp only [List.map_cons, List.mem_cons, hne, false_or]
      split <;> rfl

/-- A table keeps one entry for each name when an entry is set. -/
theorem Table.Distinct.set {α : Type} {t : Table α} (ht : t.Distinct) (name : String) (a : α) : (t.set name a).Distinct := by
  unfold Distinct
  rw [Table.set, Table.map_fst_setEntry]
  split
  · exact ht
  · rename_i hname
    refine List.nodup_append.mpr ⟨ht, List.pairwise_singleton _ _, ?_⟩
    intro x hx y hy
    rw [List.mem_singleton.mp hy]
    rintro rfl
    exact hname hx

/-- A table keeps one entry for each name when another one is merged into it. -/
theorem Table.Distinct.merge {α : Type} {t : Table α} (ht : t.Distinct) (other : Table α) : (t.merge other).Distinct := by
  obtain ⟨entries⟩ := other
  simp only [Table.merge]
  induction entries generalizing t with
  | nil => exact ht
  | cons e rest ih => exact ih (ht.set e.1 e.2)

/-- In a merged table the entries of the second one stand, and those of the first one where the second has none. -/
theorem Table.find?_merge {α : Type} (t : Table α) {other : Table α} (ho : other.Distinct) (name : String) :
    (t.merge other).find? name = (other.find? name).or (t.find? name) := by
  obtain ⟨entries⟩ := other
  simp only [Table.Distinct] at ho
  simp only [Table.merge, Table.find?]
  induction entries generalizing t with
  | nil => rfl
  | cons e rest ih =>
    obtain ⟨n, a⟩ := e
    rw [List.map_cons, List.nodup_cons] at ho
    rw [List.foldl_cons, ih (t.set n a) ho.2, List.lookup_cons]
    by_cases hn : name = n
    · subst hn
      have hrest : rest.lookup name = none := by
        rw [List.lookup_eq_none_iff]
        intro e he
        exact bne_iff_ne.mpr fun h => ho.1 (List.mem_map.mpr ⟨e, he, h.symm⟩)
      have hset : (t.set name a).entries.lookup name = some a := t.find?_set name a
      simp [hrest, hset]
    · have hset : (t.set n a).entries.lookup name = t.entries.lookup name := t.find?_set_of_ne hn a
      rw [hset, show (name == n) = false by simpa using hn]

/-! ## Contexts -/

namespace Context

/-- A context that holds at most one service of each type. -/
def Distinct (c : Context) : Prop := c.services.Distinct

theorem distinct_empty : empty.Distinct := List.Pairwise.nil

/-- A context keeps one service of each type when a service is inserted. -/
theorem Distinct.insert {c : Context} (hc : c.Distinct) (type : String) (service : Value) : (c.insert type service).Distinct :=
  Table.Distinct.set hc type service

/-- A context keeps one service of each type when another one is merged into it. -/
theorem Distinct.merge {c : Context} (hc : c.Distinct) (other : Context) : (c.merge other).Distinct :=
  Table.Distinct.merge hc other.services

/-- A context that is made of a list has one service of each type, the last one that is listed. -/
theorem distinct_ofList (services : List (String × Value)) : (ofList services).Distinct :=
  Table.Distinct.merge distinct_empty _

/-- A context that a service has been inserted into. -/
theorem get?_insert (c : Context) (type : String) (service : Value) (other : String) :
    (c.insert type service).get? other = if other = type then some service else c.get? other := by
  split
  · rename_i h
    rw [h]
    exact c.services.find?_set type service
  · rename_i h
    exact c.services.find?_set_of_ne h service

/-- The services of the second context hide those of the first one. -/
theorem get?_merge (c : Context) {other : Context} (ho : other.Distinct) (type : String) :
    (c.merge other).get? type = (other.get? type).or (c.get? type) :=
  c.services.find?_merge ho type

end Context

end Interruptible
