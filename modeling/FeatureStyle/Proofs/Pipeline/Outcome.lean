import FeatureStyle.Proofs.Entries
import FeatureStyle.Pipeline.Basic

/-!
# Outcomes

What a tree resolves to for a feature, said without the choices that a pipeline has read before. The
main statement is `fieldsOf_outcome`: as long as the choices kept are the choices of their branches,
they make no difference.
-/

namespace FeatureStyle

namespace Value

mutual

/-- The value for a feature, every choice read anew. -/
def resolved? (f : Feature) : Value → Option Value
  | expression (.constant value) => resolved? f value
  | expression (.conditions branches) => (Choice.ofBranches branches).evaluate f
  | object fields => some (object (resolvedFields f fields))
  | array items => some (array (resolvedItems f items))
  | value => some value

def resolvedFields (f : Feature) : List (String × Value) → List (String × Value)
  | [] => []
  | (key, value) :: rest =>
    match resolved? f value with
    | some value => (key, value) :: resolvedFields f rest
    | none => resolvedFields f rest

def resolvedItems (f : Feature) : List Value → List Value
  | [] => []
  | item :: rest => (resolved? f item).getD null :: resolvedItems f rest

end

mutual

/-- The syntax errors of all branches in a value, in the order of resolution. -/
def defects : Value → List Defect
  | expression (.constant value) => defects value
  | expression (.conditions branches) => (Choice.ofBranches branches).defects
  | object fields => defectsFields fields
  | array items => defectsItems items
  | null | bool _ | number _ | string _ => []

def defectsFields : List (String × Value) → List Defect
  | [] => []
  | (_, value) :: rest => defects value ++ defectsFields rest

def defectsItems : List Value → List Defect
  | [] => []
  | item :: rest => defects item ++ defectsItems rest

end

end Value

/-- Every choice kept is the choice of its branches. -/
def ChoiceTable.Valid (choices : ChoiceTable) : Prop :=
  ∀ branches choice, Table.get? choices branches = some choice → choice = Choice.ofBranches branches

theorem ChoiceTable.valid_nil : ChoiceTable.Valid [] := by
  intro branches choice h
  cases h

namespace Progress

/-- A result of going on from `p`: a value, further warnings, and choices that are still valid. -/
structure Yields {α : Type} (p : Progress) (value : α) (warnings : List Warning)
    (result : α × Progress) : Prop where
  value : result.1 = value
  warnings : result.2.warnings = p.warnings ++ warnings
  valid : result.2.choices.Valid

private theorem choice_yields {p : Progress} (h : p.choices.Valid) (branches : List Branch) :
    p.Yields (Choice.ofBranches branches) [] (p.choice branches) := by
  rw [choice]
  split
  · rename_i choice hchoice
    exact ⟨h _ _ hchoice, by simp, h⟩
  · refine ⟨rfl, by simp, ?_⟩
    intro other choice hchoice
    rw [Table.get?_put] at hchoice
    split at hchoice
    · rename_i heq
      cases hchoice
      rw [heq]
    · exact h other choice hchoice

private theorem evaluate_yields {p : Progress} (h : p.choices.Valid) (f : Feature) (field : String)
    (branches : List Branch) :
    p.Yields ((Choice.ofBranches branches).evaluate f)
      ((Choice.ofBranches branches).defects.map (Warning.brokenBranch field))
      (p.evaluate f field branches) := by
  have hchoice := choice_yields h branches
  refine ⟨?_, ?_, hchoice.valid⟩
  · simp only [evaluate, hchoice.value]
  · simp only [evaluate, hchoice.value, hchoice.warnings, List.append_nil]

end Progress

namespace Value

private theorem resolveFields_cons (f : Feature) (field key : String) (value : Value)
    (rest : List (String × Value)) (p : Progress) :
    resolveFields f field ((key, value) :: rest) p =
      ((match (resolve f field value p).1 with
        | some known => (key, known) :: (resolveFields f field rest (resolve f field value p).2).1
        | none => (resolveFields f field rest (resolve f field value p).2).1),
        (resolveFields f field rest (resolve f field value p).2).2) := by
  simp only [resolveFields]
  split <;> simp only [*]

mutual

theorem resolve_yields (f : Feature) (field : String) :
    ∀ (v : Value) (p : Progress), p.choices.Valid →
      p.Yields (resolved? f v) (v.defects.map (Warning.brokenBranch field)) (resolve f field v p)
  | expression (.constant value), p, h => by
    rw [resolve, resolved?, defects]
    exact resolve_yields f field value p h
  | expression (.conditions branches), p, h => by
    rw [resolve, resolved?, defects]
    exact Progress.evaluate_yields h f field branches
  | object fields, p, h => by
    have hfields := resolveFields_yields f field fields p h
    rw [resolve, resolved?, defects]
    exact ⟨congrArg (fun fields => some (object fields)) hfields.value, hfields.warnings,
      hfields.valid⟩
  | array items, p, h => by
    have hitems := resolveItems_yields f field items p h
    rw [resolve, resolved?, defects]
    exact ⟨congrArg (fun items => some (array items)) hitems.value, hitems.warnings, hitems.valid⟩
  | null, p, h | bool _, p, h | number _, p, h | string _, p, h => by
    simp only [resolve, resolved?, defects]
    exact ⟨rfl, by simp, h⟩

theorem resolveFields_yields (f : Feature) (field : String) :
    ∀ (fields : List (String × Value)) (p : Progress), p.choices.Valid →
      p.Yields (resolvedFields f fields)
        ((defectsFields fields).map (Warning.brokenBranch field)) (resolveFields f field fields p)
  | [], p, h => ⟨rfl, by simp [resolveFields, defectsFields], h⟩
  | (key, value) :: rest, p, h => by
    have hvalue := resolve_yields f field value p h
    have hrest := resolveFields_yields f field rest _ hvalue.valid
    have hwarnings : (resolveFields f field rest (resolve f field value p).2).2.warnings =
        p.warnings ++ (defectsFields ((key, value) :: rest)).map (Warning.brokenBranch field) := by
      rw [hrest.warnings, hvalue.warnings, defectsFields, List.map_append, List.append_assoc]
    rw [resolveFields_cons, resolvedFields, hvalue.value, hrest.value]
    cases resolved? f value with
    | some value => exact ⟨rfl, hwarnings, hrest.valid⟩
    | none => exact ⟨rfl, hwarnings, hrest.valid⟩

theorem resolveItems_yields (f : Feature) (field : String) :
    ∀ (items : List Value) (p : Progress), p.choices.Valid →
      p.Yields (resolvedItems f items)
        ((defectsItems items).map (Warning.brokenBranch field)) (resolveItems f field items p)
  | [], p, h => ⟨rfl, by simp [resolveItems, defectsItems], h⟩
  | item :: rest, p, h => by
    have hitem := resolve_yields f field item p h
    have hrest := resolveItems_yields f field rest _ hitem.valid
    simp only [resolveItems, resolvedItems, defectsItems]
    refine ⟨?_, ?_, hrest.valid⟩
    · simp only [hitem.value, hrest.value]
    · rw [hrest.warnings, hitem.warnings, List.map_append, List.append_assoc]

end

theorem keys_plainFields (fields : List (String × Value)) :
    (plainFields fields).map Prod.fst =
      (fields.filter fun entry => entry.2.expression?.isNone).map Prod.fst := by
  induction fields with
  | nil => rfl
  | cons entry rest ih =>
    obtain ⟨key, value⟩ := entry
    rw [plainFields]
    cases value with
    | expression e => exact ih
    | _ => simp [plain, expression?, ih]

theorem plainFields_keys_sublist (fields : List (String × Value)) :
    ((plainFields fields).map Prod.fst).Sublist (fields.map Prod.fst) := by
  rw [keys_plainFields]
  exact List.filter_sublist.map Prod.fst

end Value

namespace Tree

def brokenBranches (fields : List (String × Value)) : List Warning :=
  fields.flatMap fun entry => entry.2.defects.map (Warning.brokenBranch entry.1)

private theorem resolveRoot_cons (f : Feature) (field : String) (value : Value)
    (rest : List (String × Value)) (p : Progress) :
    resolveRoot f ((field, value) :: rest) p =
      ((match (value.resolve f field p).1 with
        | some known => (field, known) :: (resolveRoot f rest (value.resolve f field p).2).1
        | none => (resolveRoot f rest (value.resolve f field p).2).1),
        (resolveRoot f rest (value.resolve f field p).2).2) := by
  simp only [resolveRoot]
  split <;> simp only [*]

theorem resolveRoot_yields (f : Feature) (fields : List (String × Value)) (p : Progress)
    (h : p.choices.Valid) :
    p.Yields (Value.resolvedFields f fields) (brokenBranches fields) (resolveRoot f fields p) := by
  induction fields generalizing p with
  | nil => exact ⟨rfl, by simp [resolveRoot, brokenBranches], h⟩
  | cons entry rest ih =>
    obtain ⟨field, value⟩ := entry
    have hvalue := Value.resolve_yields f field value p h
    have hrest := ih _ hvalue.valid
    have hwarnings : (resolveRoot f rest (value.resolve f field p).2).2.warnings =
        p.warnings ++ brokenBranches ((field, value) :: rest) := by
      rw [hrest.warnings, hvalue.warnings, List.append_assoc]
      rfl
    rw [resolveRoot_cons, Value.resolvedFields, hvalue.value, hrest.value]
    cases Value.resolved? f value with
    | some value => exact ⟨rfl, hwarnings, hrest.valid⟩
    | none => exact ⟨rfl, hwarnings, hrest.valid⟩

end Tree

/-- What a layer resolves to for a feature under a limit on the depth. The tree is the layer with the
override laid over it. -/
structure Outcome where
  fields : List (String × Value)
  warnings : List Warning

namespace Outcome

def of (limit : Nat) (layer tree : Tree) (feature : Feature) : Outcome :=
  if limit < tree.depth then ⟨layer.fallback limit, [.degraded tree.depth limit]⟩
  else ⟨Value.resolvedFields feature tree.fields, Tree.brokenBranches tree.fields⟩

theorem of_degraded {limit : Nat} {layer tree : Tree} {feature : Feature} (h : limit < tree.depth) :
    of limit layer tree feature =
      ⟨layer.fallback limit, [.degraded tree.depth limit]⟩ := if_pos h

theorem of_evaluated {limit : Nat} {layer tree : Tree} {feature : Feature}
    (h : ¬ limit < tree.depth) :
    of limit layer tree feature =
      ⟨Value.resolvedFields feature tree.fields, Tree.brokenBranches tree.fields⟩ := if_neg h

def static (o : Outcome) : List (String × Value) := o.fields.filter fun entry => !entry.2.isTimed

def timed (o : Outcome) : List (String × Value) := o.fields.filter fun entry => entry.2.isTimed

end Outcome

namespace Tree

theorem fallback_keys_sublist (layer : Tree) (limit : Nat) :
    ((layer.fallback limit).map Prod.fst).Sublist (layer.fields.map Prod.fst) := by
  rw [fallback]
  split
  · exact List.Sublist.map _ List.filter_sublist
  · exact Value.plainFields_keys_sublist layer.fields

end Tree

namespace Pipeline

variable {σ : Type}

/-- The fields of a feature are those of its outcome, whatever was resolved before. -/
theorem fieldsOf_outcome (p : Pipeline σ) (h : p.choices.Valid) (layer tree : Tree)
    (feature : Feature) :
    (p.fieldsOf layer tree feature).1 = (Outcome.of p.settings.depthLimit layer tree feature).fields ∧
      (p.fieldsOf layer tree feature).2.warnings =
        (Outcome.of p.settings.depthLimit layer tree feature).warnings ∧
      (p.fieldsOf layer tree feature).2.choices.Valid := by
  simp only [fieldsOf, Outcome.of]
  split
  · exact ⟨rfl, rfl, h⟩
  · have hroot := Tree.resolveRoot_yields feature tree.fields ⟨p.choices, [], []⟩ h
    exact ⟨hroot.value, by simpa using hroot.warnings, hroot.valid⟩

end Pipeline
end FeatureStyle
