import FeatureStyle.Table

/-!
# Entries and look-up

In a table with one entry a key, the entries are exactly what look-up finds. `Table.put` and
`Table.erase` keep such tables, and sorted fields are such tables.
-/

namespace FeatureStyle
namespace Table

variable {κ α : Type} [DecidableEq κ]

def Functional (t : Table κ α) : Prop := (t.map Prod.fst).Nodup

theorem mem_of_get? {t : Table κ α} {k : κ} {value : α} (h : t.get? k = some value) :
    (k, value) ∈ t := by
  induction t with
  | nil => simp at h
  | cons entry rest ih =>
    obtain ⟨key, head⟩ := entry
    rw [get?_cons] at h
    split at h
    · rename_i hkey
      cases h
      simp [hkey]
    · exact List.mem_cons_of_mem _ (ih h)

theorem get?_of_mem {t : Table κ α} (ht : t.Functional) {k : κ} {value : α} (h : (k, value) ∈ t) :
    t.get? k = some value := by
  induction t with
  | nil => simp at h
  | cons entry rest ih =>
    obtain ⟨key, head⟩ := entry
    simp only [Functional, List.map_cons, List.nodup_cons] at ht
    obtain ⟨hnew, hrest⟩ := ht
    rw [get?_cons]
    rcases List.mem_cons.mp h with h | h
    · cases h
      simp
    · have hne : key ≠ k := by
        intro heq
        exact hnew (heq ▸ List.mem_map_of_mem h)
      rw [if_neg hne]
      exact ih hrest h

theorem get?_eq_some_iff {t : Table κ α} (ht : t.Functional) {k : κ} {value : α} :
    t.get? k = some value ↔ (k, value) ∈ t :=
  ⟨mem_of_get?, get?_of_mem ht⟩

theorem get?_eq_none_iff {t : Table κ α} {k : κ} : t.get? k = none ↔ k ∉ t.map Prod.fst := by
  induction t with
  | nil => simp
  | cons entry rest ih =>
    obtain ⟨key, head⟩ := entry
    rw [get?_cons]
    by_cases h : key = k
    · simp [h]
    · simp [h, ih, Ne.symm h]

theorem functional_erase {t : Table κ α} (ht : t.Functional) (k : κ) : (t.erase k).Functional :=
  List.Nodup.sublist (List.Sublist.map _ List.filter_sublist) ht

theorem erase_of_get?_eq_none {t : Table κ α} {k : κ} (h : t.get? k = none) : t.erase k = t := by
  have hkeys := get?_eq_none_iff.mp h
  apply List.filter_eq_self.mpr
  intro entry hentry
  have hne : entry.1 ≠ k := fun heq => hkeys (heq ▸ List.mem_map_of_mem hentry)
  exact decide_eq_true hne

theorem length_erase_of_get? {t : Table κ α} (ht : t.Functional) {k : κ} {value : α}
    (h : t.get? k = some value) : (t.erase k).length + 1 = t.length := by
  induction t with
  | nil => cases h
  | cons entry rest ih =>
    obtain ⟨key, head⟩ := entry
    obtain ⟨hnew, hrest⟩ := List.nodup_cons.mp ht
    rw [get?_cons] at h
    by_cases hkey : key = k
    · have hgone : erase rest k = rest := erase_of_get?_eq_none (get?_eq_none_iff.mpr (hkey ▸ hnew))
      have hdrop : erase ((key, head) :: rest) k = erase rest k := by simp [erase, hkey]
      rw [hdrop, hgone, List.length_cons]
    · rw [if_neg hkey] at h
      have hkeep : erase ((key, head) :: rest) k = (key, head) :: erase rest k := by
        simp [erase, hkey]
      rw [hkeep, List.length_cons, List.length_cons, ih hrest h]

theorem functional_put {t : Table κ α} (ht : t.Functional) (k : κ) (value : α) :
    (t.put k value).Functional := by
  simp only [put, Functional, List.map_cons, List.nodup_cons]
  refine ⟨?_, functional_erase ht k⟩
  rw [← get?_eq_none_iff, get?_erase, if_pos rfl]

theorem functional_update {t : Table κ α} (ht : t.Functional) (k : κ) (f : α → α) :
    (t.update k f).Functional := by
  have hkeys : (t.update k f).map Prod.fst = t.map Prod.fst := by
    rw [update, List.map_map]
    apply List.map_congr_left
    intro entry hentry
    by_cases hkey : entry.1 = k <;> simp [hkey]
  rw [Functional, hkeys]
  exact ht

theorem update_eq_self {t : Table κ α} (ht : t.Functional) {k : κ} {value : α} {f : α → α}
    (hget : t.get? k = some value) (hf : f value = value) : t.update k f = t := by
  rw [update]
  refine Eq.trans (List.map_congr_left ?_) (List.map_id t)
  intro entry hentry
  split
  · rename_i hkey
    have hvalue := get?_of_mem ht hentry
    rw [hkey, hget] at hvalue
    obtain ⟨rfl⟩ := hvalue
    rw [hf]
    rfl
  · rfl

theorem erase_erase (t : Table κ α) (k : κ) : (t.erase k).erase k = t.erase k := by
  apply erase_of_get?_eq_none
  rw [get?_erase, if_pos rfl]

theorem erase_put (t : Table κ α) (k : κ) (value : α) : (t.put k value).erase k = t.erase k := by
  rw [← erase_erase t k]
  simp [put, erase]

theorem get?_filter {t : Table κ α} (ht : t.Functional) (keep : α → Bool) (k : κ) :
    get? (t.filter fun entry => keep entry.2) k = (t.get? k).filter keep := by
  induction t with
  | nil => rfl
  | cons entry rest ih =>
    obtain ⟨key, value⟩ := entry
    obtain ⟨hnew, hrest⟩ := List.nodup_cons.mp ht
    rw [List.filter_cons, get?_cons]
    by_cases hkey : key = k
    · have hnone : get? rest k = none := get?_eq_none_iff.mpr (hkey ▸ hnew)
      cases hkeep : keep value with
      | true => simp [get?_cons, hkey, Option.filter, hkeep]
      | false => simp [ih hrest, hkey, Option.filter, hkeep, hnone]
    · cases hkeep : keep value with
      | true => simp [get?_cons, hkey, ih hrest]
      | false => simp [hkey, ih hrest]

end Table

namespace Fields

variable {α β : Type}

theorem functional_of_sorted {fields : Fields α} (h : fields.Sorted) : Table.Functional fields := by
  rw [Table.Functional, List.Nodup, List.pairwise_map]
  apply List.Pairwise.imp _ h
  intro a b hlt heq
  exact String.lt_irrefl _ (heq ▸ hlt)

@[simp] theorem get?_nil (key : String) : get? ([] : Fields α) key = none := rfl

theorem get?_cons (name : String) (value : α) (rest : Fields α) (key : String) :
    get? ((name, value) :: rest) key = if name = key then some value else get? rest key := rfl

theorem get?_eq_some_iff {fields : Fields α} (h : fields.Sorted) {key : String} {value : α} :
    fields.get? key = some value ↔ (key, value) ∈ fields :=
  Table.get?_eq_some_iff (functional_of_sorted h)

theorem get?_erase (fields : Fields α) (key key' : String) :
    (fields.erase key).get? key' = if key = key' then none else fields.get? key' :=
  Table.get?_erase fields key key'

theorem get?_map (fields : Fields α) (f : String → α → β) (key : String) :
    get? (fields.map fun entry => (entry.1, f entry.1 entry.2)) key =
      (fields.get? key).map (f key) := by
  induction fields with
  | nil => rfl
  | cons entry rest ih =>
    obtain ⟨name, value⟩ := entry
    rw [List.map_cons, get?_cons, get?_cons, ih]
    split
    · rename_i hname
      cases hname
      rfl
    · rfl

theorem eq_nil_of_get?_eq_none {fields : Fields α} (h : ∀ key, fields.get? key = none) :
    fields = [] := by
  cases fields with
  | nil => rfl
  | cons entry rest =>
    have hnone := h entry.1
    rw [get?_cons, if_pos rfl] at hnone
    cases hnone

theorem nodup_of_sorted {fields : Fields α} (h : fields.Sorted) : List.Nodup fields := by
  apply List.Pairwise.imp _ h
  intro a b hlt heq
  exact String.lt_irrefl _ (heq ▸ hlt)

/-- Fields in the order of their keys are determined by look-up. -/
theorem eq_of_get?_eq {a b : Fields α} (ha : a.Sorted) (hb : b.Sorted)
    (h : ∀ key, a.get? key = b.get? key) : a = b := by
  have hperm : a.Perm b := by
    rw [List.perm_ext_iff_of_nodup (nodup_of_sorted ha) (nodup_of_sorted hb)]
    intro entry
    rw [← get?_eq_some_iff ha, ← get?_eq_some_iff hb, h]
  apply List.Perm.eq_of_pairwise _ ha hb hperm
  intro x y _ _ hxy hyx
  exact absurd (String.lt_trans hxy hyx) (String.lt_irrefl _)

end Fields
end FeatureStyle
