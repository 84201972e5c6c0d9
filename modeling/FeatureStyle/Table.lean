/-!
# Tables

A table is a finite map kept as a list of entries; the first entry of a key counts. `Table.put`
keeps one entry a key. `Fields` are tables under text keys that are kept in the order of their keys,
so that equal fields are listed alike.
-/

namespace FeatureStyle

/-- A finite map as a list of entries. -/
abbrev Table (κ α : Type) := List (κ × α)

namespace Table

variable {κ α : Type} [DecidableEq κ]

def get? : Table κ α → κ → Option α
  | [], _ => none
  | (key, value) :: rest, k => if key = k then some value else get? rest k

def contains (t : Table κ α) (k : κ) : Bool := (t.get? k).isSome

def erase (t : Table κ α) (k : κ) : Table κ α := t.filter fun entry => entry.1 ≠ k

/-- The table with one entry for a key. -/
def put (t : Table κ α) (k : κ) (value : α) : Table κ α := (k, value) :: t.erase k

def update (t : Table κ α) (k : κ) (f : α → α) : Table κ α :=
  t.map fun entry => if entry.1 = k then (entry.1, f entry.2) else entry

@[simp] theorem get?_nil (k : κ) : get? ([] : Table κ α) k = none := rfl

theorem get?_cons (key : κ) (value : α) (rest : Table κ α) (k : κ) :
    get? ((key, value) :: rest) k = if key = k then some value else get? rest k := rfl

theorem get?_erase (t : Table κ α) (k k' : κ) :
    (t.erase k).get? k' = if k = k' then none else t.get? k' := by
  induction t with
  | nil => simp [erase]
  | cons entry rest ih =>
    obtain ⟨key, value⟩ := entry
    simp only [erase] at ih
    by_cases h : key = k
    · subst h
      simp only [erase, List.filter_cons, ne_eq, not_true_eq_false, decide_false, Bool.false_eq_true,
        ↓reduceIte, ih, get?_cons]
      split <;> rfl
    · simp only [erase, List.filter_cons, ne_eq, h, not_false_eq_true, decide_true, ↓reduceIte,
        get?_cons, ih]
      split <;> split <;> simp_all

theorem get?_put (t : Table κ α) (k k' : κ) (value : α) :
    (t.put k value).get? k' = if k = k' then some value else t.get? k' := by
  simp only [put, get?_cons, get?_erase]
  split <;> rfl

theorem get?_update (t : Table κ α) (k k' : κ) (f : α → α) :
    (t.update k f).get? k' = if k = k' then (t.get? k').map f else t.get? k' := by
  induction t with
  | nil => simp [update]
  | cons entry rest ih =>
    obtain ⟨key, value⟩ := entry
    simp only [update, List.map_cons] at ih ⊢
    by_cases h : key = k
    · subst h
      simp only [↓reduceIte, get?_cons, ih]
      split <;> rfl
    · simp only [h, ↓reduceIte, get?_cons, ih]
      split <;> split <;> simp_all

end Table

/-- A finite map under text keys, listed in the order of the keys. -/
abbrev Fields (α : Type) := Table String α

namespace Fields

variable {α β : Type}

/-- The keys are listed in increasing order, each once. -/
def Sorted (fields : Fields α) : Prop := fields.Pairwise fun a b => a.1 < b.1

def get? (fields : Fields α) (key : String) : Option α := Table.get? fields key

def contains (fields : Fields α) (key : String) : Bool := (fields.get? key).isSome

def erase (fields : Fields α) (key : String) : Fields α := Table.erase fields key

/-- Puts a value at the place of its key, instead of the value it had. -/
def insert : Fields α → String → α → Fields α
  | [], key, value => [(key, value)]
  | (key', value') :: rest, key, value =>
    if key < key' then (key, value) :: (key', value') :: rest
    else if key = key' then (key, value) :: rest
    else (key', value') :: insert rest key value

/-- The fields of a list of entries; a later entry replaces an earlier one of the same key. -/
def ofList (entries : List (String × α)) : Fields α :=
  entries.foldl (fun fields entry => fields.insert entry.1 entry.2) []

/-- The fields with those entries of `more` whose keys they lack. -/
def addMissing (fields more : Fields α) : Fields α :=
  more.foldl (fun acc entry => if acc.contains entry.1 then acc else acc.insert entry.1 entry.2) fields

theorem get?_insert (fields : Fields α) (key key' : String) (value : α) :
    (fields.insert key value).get? key' = if key = key' then some value else fields.get? key' := by
  induction fields with
  | nil => simp [insert, get?, Table.get?_cons]
  | cons entry rest ih =>
    obtain ⟨k, v⟩ := entry
    simp only [get?] at ih ⊢
    rw [insert]
    split
    · simp only [Table.get?_cons]
    · split
      · rename_i h
        subst h
        simp only [Table.get?_cons]
        split <;> rfl
      · rename_i h
        simp only [Table.get?_cons, ih]
        split <;> split <;> simp_all

theorem mem_insert {fields : Fields α} {key : String} {value : α} {entry : String × α}
    (h : entry ∈ fields.insert key value) : entry = (key, value) ∨ entry ∈ fields := by
  induction fields with
  | nil => simpa [insert] using h
  | cons head rest ih =>
    obtain ⟨k, v⟩ := head
    rw [insert] at h
    split at h
    · simpa using h
    · split at h
      · rcases List.mem_cons.mp h with h | h
        · exact .inl h
        · exact .inr (List.mem_cons_of_mem _ h)
      · rcases List.mem_cons.mp h with h | h
        · exact .inr (h ▸ List.mem_cons_self)
        · exact (ih h).imp_right (List.mem_cons_of_mem _)

theorem sorted_insert {fields : Fields α} (h : fields.Sorted) (key : String) (value : α) :
    (fields.insert key value).Sorted := by
  induction fields with
  | nil => simp [insert, Sorted]
  | cons head rest ih =>
    obtain ⟨k, v⟩ := head
    obtain ⟨hhead, hrest⟩ := List.pairwise_cons.mp h
    rw [insert]
    split
    · rename_i hlt
      refine List.pairwise_cons.mpr ⟨fun entry hmem => ?_, h⟩
      rcases List.mem_cons.mp hmem with rfl | hmem
      · exact hlt
      · exact String.lt_trans hlt (hhead _ hmem)
    · split
      · rename_i heq
        exact List.pairwise_cons.mpr ⟨fun entry hmem => heq ▸ hhead _ hmem, hrest⟩
      · rename_i hnlt hne
        refine List.pairwise_cons.mpr ⟨fun entry hmem => ?_, ih hrest⟩
        rcases mem_insert hmem with rfl | hmem
        · exact Std.lt_of_le_of_ne (String.not_lt.mp hnlt) (Ne.symm hne)
        · exact hhead _ hmem

theorem sorted_erase {fields : Fields α} (h : fields.Sorted) (key : String) :
    (fields.erase key).Sorted := List.Pairwise.filter _ h

end Fields
end FeatureStyle
