import FeatureStyle.Proofs.Layer.Pathwise

/-!
# Ordered values

A value is ordered if every object that a path leads to lists its fields in the order of their
names. Such a value is determined by where its single steps lead, and they tell how deep it is and
whether there is an expression in it. An overlay of ordered values is ordered.
-/

namespace FeatureStyle

namespace Fields

variable {α : Type}

instance (fields : Fields α) : Decidable fields.Sorted :=
  inferInstanceAs (Decidable (List.Pairwise _ fields))

theorem sorted_overlayFields {base : Fields Value} (h : base.Sorted) (upper : Fields Value) :
    Sorted (Value.overlayFields base upper) := by
  have hkeys : (Value.overlayFields base upper).map Prod.fst = base.map Prod.fst := by
    clear h
    induction base with
    | nil => rfl
    | cons entry base ih =>
      obtain ⟨key, value⟩ := entry
      rw [Value.overlayFields, List.map_cons, List.map_cons, ih]
  have hsorted := List.pairwise_map.mpr h
  rw [← hkeys] at hsorted
  exact List.pairwise_map.mp hsorted

private theorem sorted_addMissing {fields : Fields α} (h : fields.Sorted) (more : Fields α) :
    (fields.addMissing more).Sorted := by
  rw [addMissing]
  induction more generalizing fields with
  | nil => exact h
  | cons entry more ih =>
    rw [List.foldl_cons]
    apply ih
    split
    · exact h
    · exact sorted_insert h entry.1 entry.2

end Fields

namespace Value

/-- Every object that a path leads to lists its fields in the order of their names. What an
expression holds does not matter. -/
def Ordered (v : Value) : Prop :=
  ∀ (path : Path) (fields : Fields Value), v.at? path = some (object fields) → fields.Sorted

variable {v w a b : Value} {step : PathStep}

theorem Ordered.of_step? (h : v.Ordered) (hstep : v.step? step = some w) : w.Ordered := by
  intro path fields hat
  apply h (step :: path)
  rw [at?_cons, hstep]
  exact hat

private theorem ordered_of_step? (hroot : ∀ fields, v = object fields → Fields.Sorted fields)
    (h : ∀ step w, v.step? step = some w → w.Ordered) : v.Ordered := by
  intro path fields hat
  cases path with
  | nil => exact hroot fields (Option.some.inj hat)
  | cons step path =>
    rw [at?_cons] at hat
    obtain ⟨w, hstep, hat⟩ := Option.bind_eq_some_iff.mp hat
    exact h step w hstep path fields hat

theorem ordered_of_not_joins (h : v.joins v = false) : v.Ordered := by
  apply ordered_of_step?
  · intro fields hfields
    rw [hfields] at h
    cases h
  · intro step w hstep
    cases v with
    | object fields => cases h
    | array items => cases h
    | _ => cases hstep

theorem Ordered.forall_step?_object {fields : List (String × Value)} (h : (object fields).Ordered)
    {P : Value → Prop} :
    (∀ step w, (object fields).step? step = some w → P w) ↔ ∀ entry ∈ fields, P entry.2 := by
  constructor
  · intro hsteps entry hentry
    exact hsteps (.field entry.1) entry.2 ((Fields.get?_eq_some_iff (h [] fields rfl)).mpr hentry)
  · intro hentries step w hstep
    cases step with
    | field name => exact hentries (name, w) (Table.mem_of_get? hstep)
    | index n => cases hstep

private theorem forall_step?_array {items : List Value} {P : Value → Prop} :
    (∀ step w, (array items).step? step = some w → P w) ↔ ∀ item ∈ items, P item := by
  constructor
  · intro hsteps item hitem
    obtain ⟨n, hn⟩ := List.mem_iff_getElem?.mp hitem
    exact hsteps (.index n) item hn
  · intro hitems step w hstep
    cases step with
    | field name => cases hstep
    | index n => exact hitems w (List.mem_of_getElem? hstep)

theorem ordered_object_iff {fields : List (String × Value)} :
    (object fields).Ordered ↔ Fields.Sorted fields ∧ ∀ entry ∈ fields, entry.2.Ordered := by
  constructor
  · intro h
    exact ⟨h [] fields rfl, h.forall_step?_object.mp fun _ _ => h.of_step?⟩
  · intro h
    apply ordered_of_step?
    · intro other hother
      cases hother
      exact h.1
    · intro step w hstep
      cases step with
      | field name => exact h.2 (name, w) (Table.mem_of_get? hstep)
      | index n => cases hstep

theorem ordered_array_iff {items : List Value} :
    (array items).Ordered ↔ ∀ item ∈ items, item.Ordered := by
  rw [← forall_step?_array]
  constructor
  · intro h step w hstep
    exact h.of_step? hstep
  · intro h
    apply ordered_of_step? _ h
    intro fields hfields
    cases hfields

mutual

def isOrdered : Value → Bool
  | object fields => decide (Fields.Sorted fields) && isOrderedFields fields
  | array items => isOrderedItems items
  | null | bool _ | number _ | string _ | expression _ => true

def isOrderedFields : List (String × Value) → Bool
  | [] => true
  | (_, value) :: fields => isOrdered value && isOrderedFields fields

def isOrderedItems : List Value → Bool
  | [] => true
  | item :: items => isOrdered item && isOrderedItems items

end

mutual

theorem isOrdered_iff : ∀ v : Value, v.isOrdered = true ↔ v.Ordered
  | object fields => by
    rw [isOrdered, Bool.and_eq_true, decide_eq_true_iff, isOrderedFields_iff fields,
      ordered_object_iff]
  | array items => by rw [isOrdered, isOrderedItems_iff items, ordered_array_iff]
  | null | bool _ | number _ | string _ | expression _ =>
    iff_of_true rfl (ordered_of_not_joins rfl)

theorem isOrderedFields_iff : ∀ fields : List (String × Value),
    isOrderedFields fields = true ↔ ∀ entry ∈ fields, entry.2.Ordered
  | [] => by simp [isOrderedFields]
  | (_, value) :: rest => by
    rw [isOrderedFields, Bool.and_eq_true, isOrdered_iff value, isOrderedFields_iff rest,
      List.forall_mem_cons]

theorem isOrderedItems_iff : ∀ items : List Value,
    isOrderedItems items = true ↔ ∀ item ∈ items, item.Ordered
  | [] => by simp [isOrderedItems]
  | item :: rest => by
    rw [isOrderedItems, Bool.and_eq_true, isOrdered_iff item, isOrderedItems_iff rest,
      List.forall_mem_cons]

end

instance : DecidablePred Ordered := fun v => decidable_of_iff _ (isOrdered_iff v)

theorem depthFields_le_iff {fields : List (String × Value)} {n : Nat} :
    depthFields fields ≤ n ↔ ∀ entry ∈ fields, entry.2.depth ≤ n := by
  induction fields with
  | nil => simp [depthFields]
  | cons entry fields ih => rw [depthFields, Nat.max_le, ih, List.forall_mem_cons]

private theorem depthItems_le_iff {items : List Value} {n : Nat} :
    depthItems items ≤ n ↔ ∀ item ∈ items, item.depth ≤ n := by
  induction items with
  | nil => simp [depthItems]
  | cons item items ih => rw [depthItems, Nat.max_le, ih, List.forall_mem_cons]

theorem depth_lt_of_step? (h : v.step? step = some w) : w.depth < v.depth := by
  cases v with
  | object fields =>
    cases step with
    | field name =>
      have hdepth : w.depth ≤ depthFields fields :=
        depthFields_le_iff.mp (Nat.le_refl _) (name, w) (Table.mem_of_get? h)
      rw [depth]
      omega
    | index n => cases h
  | array items =>
    cases step with
    | field name => cases h
    | index n =>
      have hdepth : w.depth ≤ depthItems items :=
        depthItems_le_iff.mp (Nat.le_refl _) w (List.mem_of_getElem? h)
      rw [depth]
      omega
  | _ => cases h

/-- What holds of a value if it holds wherever one step leads, holds of all values. -/
@[elab_as_elim]
theorem stepInduction {motive : Value → Prop}
    (value : ∀ v : Value, (∀ step w, v.step? step = some w → motive w) → motive v) (v : Value) :
    motive v := by
  induction hn : v.depth using Nat.strongRecOn generalizing v with
  | ind n ih =>
    apply value
    intro step w hstep
    exact ih w.depth (hn ▸ depth_lt_of_step? hstep) w rfl

theorem Ordered.depth_le (h : v.Ordered) {n : Nat} (hroot : v.joins v = true → 0 < n)
    (hsteps : ∀ step w, v.step? step = some w → w.depth < n) : v.depth ≤ n := by
  cases v with
  | object fields =>
    have hpos := hroot rfl
    have hfields : depthFields fields ≤ n - 1 := by
      apply depthFields_le_iff.mpr
      intro entry hentry
      have hlt := (h.forall_step?_object (P := fun w => w.depth < n)).mp hsteps entry hentry
      omega
    rw [depth]
    omega
  | array items =>
    have hpos := hroot rfl
    have hitems : depthItems items ≤ n - 1 := by
      apply depthItems_le_iff.mpr
      intro item hitem
      have hlt := (forall_step?_array (P := fun w => w.depth < n)).mp hsteps item hitem
      omega
    rw [depth]
    omega
  | _ => exact Nat.zero_le n

theorem hasExpressionFields_iff {fields : List (String × Value)} :
    hasExpressionFields fields = true ↔ ∃ entry ∈ fields, entry.2.hasExpression = true := by
  induction fields with
  | nil => simp [hasExpressionFields]
  | cons entry fields ih => simp [hasExpressionFields, ih]

theorem hasExpressionItems_iff {items : List Value} :
    hasExpressionItems items = true ↔ ∃ item ∈ items, item.hasExpression = true := by
  induction items with
  | nil => simp [hasExpressionItems]
  | cons item items ih => simp [hasExpressionItems, ih]

private theorem hasExpression_of_step? (hstep : v.step? step = some w)
    (h : w.hasExpression = true) :
    v.hasExpression = true := by
  cases v with
  | object fields =>
    cases step with
    | field name => exact hasExpressionFields_iff.mpr ⟨(name, w), Table.mem_of_get? hstep, h⟩
    | index n => cases hstep
  | array items =>
    cases step with
    | field name => cases hstep
    | index n => exact hasExpressionItems_iff.mpr ⟨w, List.mem_of_getElem? hstep, h⟩
  | _ => cases hstep

/-- There is an expression in an ordered value exactly if a path leads to one. -/
theorem Ordered.hasExpression_iff (h : v.Ordered) :
    v.hasExpression = true ↔ ∃ path e, v.at? path = some (expression e) := by
  constructor
  · intro hexpression
    induction v using stepInduction with
    | value v ih =>
      have hstep : (∃ e, v = expression e) ∨
          ∃ step w, v.step? step = some w ∧ w.hasExpression = true := by
        cases v with
        | expression e => exact .inl ⟨e, rfl⟩
        | object fields =>
          obtain ⟨entry, hentry, hvalue⟩ := hasExpressionFields_iff.mp hexpression
          have hget := (Fields.get?_eq_some_iff (h [] fields rfl)).mpr hentry
          exact .inr ⟨.field entry.1, entry.2, hget, hvalue⟩
        | array items =>
          obtain ⟨item, hitem, hvalue⟩ := hasExpressionItems_iff.mp hexpression
          obtain ⟨n, hn⟩ := List.mem_iff_getElem?.mp hitem
          exact .inr ⟨.index n, item, hn, hvalue⟩
        | _ => cases hexpression
      rcases hstep with ⟨e, rfl⟩ | ⟨step, w, hstep, hw⟩
      · exact ⟨[], e, rfl⟩
      · obtain ⟨path, e, hat⟩ := ih step w hstep (h.of_step? hstep) hw
        refine ⟨step :: path, e, ?_⟩
        rw [at?_cons, hstep]
        exact hat
  · intro hat
    obtain ⟨path, e, hat⟩ := hat
    clear h
    induction path generalizing v with
    | nil =>
      obtain ⟨rfl⟩ := Option.some.inj hat
      rfl
    | cons step path ih =>
      rw [at?_cons] at hat
      obtain ⟨w, hstep, hat⟩ := Option.bind_eq_some_iff.mp hat
      exact hasExpression_of_step? hstep (ih hat)

/-- Ordered containers of one kind are equal if every step leads to the same in both. -/
theorem Ordered.eq_of_step?_eq (ha : a.Ordered) (hb : b.Ordered) (hjoins : a.joins b = true)
    (h : ∀ step, a.step? step = b.step? step) : a = b := by
  rcases joins_eq_true hjoins with ⟨fields, fields', rfl, rfl⟩ | ⟨items, items', rfl, rfl⟩
  · have hfields : fields = fields' :=
      Fields.eq_of_get?_eq (ha [] fields rfl) (hb [] fields' rfl) fun name => h (.field name)
    rw [hfields]
  · have hitems : items = items' := List.ext_getElem? fun n => h (.index n)
    rw [hitems]

theorem joins_comm (a b : Value) : a.joins b = b.joins a := by
  cases a <;> cases b <;> rfl

theorem joins_congr (h : a.joins b = true) (c : Value) : a.joins c = b.joins c := by
  rcases joins_eq_true h with ⟨fields, fields', rfl, rfl⟩ | ⟨items, items', rfl, rfl⟩
  · cases c <;> rfl
  · cases c <;> rfl

theorem joins_overlay (h : a.joins b = true) (c : Value) : (a.overlay b).joins c = b.joins c := by
  rcases joins_eq_true h with ⟨fields, fields', rfl, rfl⟩ | ⟨items, items', rfl, rfl⟩
  · cases c <;> rfl
  · cases c <;> rfl

theorem joins_overlay_right (h : a.joins b = true) (c : Value) :
    c.joins (a.overlay b) = c.joins b := by
  rw [joins_comm, joins_overlay h, joins_comm]

theorem Ordered.overlay (ha : a.Ordered) (hb : b.Ordered) : (a.overlay b).Ordered := by
  induction a using stepInduction generalizing b with
  | value a ih =>
    cases hjoins : a.joins b with
    | false =>
      rw [overlay_of_not_joins hjoins]
      exact hb
    | true =>
      apply ordered_of_step?
      · intro fields hfields
        rcases joins_eq_true hjoins with ⟨base, upper, rfl, rfl⟩ | ⟨base, upper, rfl, rfl⟩
        · cases hfields
          exact Fields.sorted_addMissing (Fields.sorted_overlayFields (ha [] base rfl) upper) upper
        · cases hfields
      · intro step w hstep
        rw [step?_overlay hjoins] at hstep
        rcases Option.merge_eq_some_iff.mp hstep with ⟨hw, -⟩ | ⟨-, hw⟩ | ⟨x, y, hx, hy, rfl⟩
        · exact ha.of_step? hw
        · exact hb.of_step? hw
        · exact ih step x hx (ha.of_step? hx) (hb.of_step? hy)

end Value

def Tree.Ordered (t : Tree) : Prop := t.toValue.Ordered

instance : DecidablePred Tree.Ordered := fun t => inferInstanceAs (Decidable t.toValue.Ordered)

theorem Tree.toValue_overlay (base upper : Tree) :
    (base.overlay upper).toValue = base.toValue.overlay upper.toValue := rfl

/-- A value together with the order of the fields in all its objects. -/
@[ext] structure OrderedValue where
  value : Value
  ordered : value.Ordered

/-- A tree together with the order of the fields in all its objects. Insertions, removals and overlays
lead from one such tree to another. -/
structure OrderedTree extends Tree where
  ordered : toTree.Ordered

namespace OrderedValue

instance : Coe OrderedValue Value := ⟨value⟩

def overlay (a b : OrderedValue) : OrderedValue := ⟨a.value.overlay b, a.ordered.overlay b.ordered⟩

end OrderedValue

namespace OrderedTree

instance : Coe OrderedTree Tree := ⟨toTree⟩

def root (t : OrderedTree) : OrderedValue := ⟨t.toValue, t.ordered⟩

theorem sorted (t : OrderedTree) : t.fields.Sorted := t.ordered [] t.fields rfl

theorem ext_root {a b : OrderedTree} (h : a.root = b.root) : a = b := by
  obtain ⟨⟨fields⟩, _⟩ := a
  obtain ⟨⟨fields'⟩, _⟩ := b
  cases h
  rfl

def empty : OrderedTree := ⟨.empty, by decide⟩

def insert (t : OrderedTree) (field : String) (value : OrderedValue) : OrderedTree where
  toTree := t.toTree.insert field value
  ordered := by
    obtain ⟨-, hfields⟩ := Value.ordered_object_iff.mp t.ordered
    refine Value.ordered_object_iff.mpr ⟨Fields.sorted_insert t.sorted field value.value, ?_⟩
    intro entry hentry
    rcases Fields.mem_insert hentry with rfl | hentry
    · exact value.ordered
    · exact hfields entry hentry

def erase (t : OrderedTree) (field : String) : OrderedTree where
  toTree := t.toTree.erase field
  ordered := by
    obtain ⟨hsorted, hfields⟩ := Value.ordered_object_iff.mp t.ordered
    refine Value.ordered_object_iff.mpr ⟨List.Pairwise.filter _ hsorted, ?_⟩
    intro entry hentry
    exact hfields entry (List.mem_filter.mp hentry).1

def overlay (base upper : OrderedTree) : OrderedTree where
  toTree := base.toTree.overlay upper
  ordered := base.root.ordered.overlay upper.root.ordered

theorem root_overlay (base upper : OrderedTree) :
    (base.overlay upper).root = base.root.overlay upper.root := rfl

/-- Properties of a road, with values of all sorts. -/
def road : OrderedTree where
  fields := [
    ("label", .object [("text", .string "A1")]),
    ("line", .object [
      ("dash", .array [.number .one, .object [("gap", .number .one)]]),
      ("width", .number .nan)])]
  ordered := by decide

/-- An override for roads: a label of another kind, and a line with further fields and items. -/
def detour : OrderedTree where
  fields := [
    ("label", .expression (.conditions [⟨"true", "closed"⟩])),
    ("line", .object [
      ("color", .string "red"),
      ("dash", .array [.null, .object [("gap", .bool true)], .string "dot"])])]
  ordered := by decide

end OrderedTree
end FeatureStyle
