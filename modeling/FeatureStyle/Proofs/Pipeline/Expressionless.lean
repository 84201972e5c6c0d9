import FeatureStyle.Proofs.Pipeline.Records
import FeatureStyle.Proofs.Pipeline.Walk

/-!
# Bags without expressions

A pipeline that arises from an empty one by calls, whatever the registry was at each of them and
whether they gave a result or failed, reads branches right and keeps only bags without expressions.
The main statement is `expressionless_of_arises`: neither in a static field of a bag nor in the
value behind a dynamic field is there an expression, be the feature degraded or not, and be the bag
new or kept.
-/

namespace FeatureStyle

/-- No static field of a bag has an expression, and each binding samples a value without one. -/
structure Bag.Expressionless {σ : Type} (sampler : FeatureId → String → Value → σ) (bag : Bag σ) :
    Prop where
  static : ∀ field value, (field, value) ∈ bag.fields → value.hasExpression = false
  dynamic : ∀ field binding, (field, binding) ∈ bag.dynamic →
    ∃ value : Value, value.hasExpression = false ∧
      binding.sampler = sampler bag.feature field value

namespace Renewal

variable {κ σ : Type} [KeySupply κ] {s : Renewal κ σ} {feature : FeatureId}

theorem mem_current_renewEach {fields : List (String × σ)} {field : String} {binding : Binding σ}
    (h : (field, binding) ∈ (s.renewEach feature fields).2.current) :
    (field, binding) ∈ s.current ∨ (field, binding.sampler) ∈ fields := by
  induction fields generalizing s with
  | nil => exact .inl h
  | cons entry fields ih =>
    obtain ⟨name, sampler⟩ := entry
    rw [renewEach] at h
    split at h
    · rename_i next hnext
      obtain ⟨-, renewed, hcurrent, hsampler, -⟩ := renew?_eq_some hnext
      rcases ih h with hmem | hmem
      · rw [hcurrent] at hmem
        rcases Fields.mem_insert hmem with heq | hold
        · cases heq
          exact .inr (hsampler ▸ List.mem_cons_self)
        · exact .inl hold
      · exact .inr (List.mem_cons_of_mem _ hmem)
    · exact .inl h

end Renewal

namespace Pipeline

variable {κ σ : Type} {p : Pipeline σ} {r : Registry κ σ}

/-- The pipelines that calls lead to. Before each call others may have left any registry, and the
call need not give a result. -/
inductive Arises (κ : Type) {σ : Type} [KeySupply κ] : Pipeline σ → Prop
  | empty (settings : Settings) (hash : Tree → UInt64)
      (sampler : FeatureId → String → Value → σ) : Arises κ (empty settings hash sampler)
  | perform {p : Pipeline σ} (h : Arises κ p) (r : Registry κ σ) (call : Call) :
      Arises κ (p.perform r call).pipeline

/-- A pipeline of some settings and samplers keeps the right choices, and bags without
expressions. -/
structure Clean (settings : Settings) (sampler : FeatureId → String → Value → σ) (p : Pipeline σ) :
    Prop where
  settings_eq : p.settings = settings
  sampler_eq : p.sampler = sampler
  choices : p.choices.Valid
  coherent : p.store.Coherent
  kept : ∀ feature stored, p.store.Keeps feature stored → stored.bag.Expressionless sampler

variable {settings : Settings} {sampler : FeatureId → String → Value → σ}

theorem clean_empty (settings : Settings) (hash : Tree → UInt64)
    (sampler : FeatureId → String → Value → σ) :
    (empty settings hash sampler).Clean settings sampler where
  settings_eq := rfl
  sampler_eq := rfl
  choices := ChoiceTable.valid_nil
  coherent := BagStore.coherent_empty settings.capacity
  kept := fun _ _ hkeeps => (BagStore.not_keeps_empty hkeeps).elim

namespace Clean

theorem with_held (h : p.Clean settings sampler) (held : Table FeatureId (Fields (Binding σ))) :
    ({ p with held } : Pipeline σ).Clean settings sampler :=
  ⟨h.settings_eq, h.sampler_eq, h.choices, h.coherent, h.kept⟩

private theorem with_choices (h : p.Clean settings sampler) {choices : ChoiceTable}
    (hchoices : choices.Valid) : ({ p with choices } : Pipeline σ).Clean settings sampler :=
  ⟨h.settings_eq, h.sampler_eq, hchoices, h.coherent, h.kept⟩

theorem forget (h : p.Clean settings sampler) (feature : FeatureId) :
    (p.forget feature).2.Clean settings sampler where
  settings_eq := h.settings_eq
  sampler_eq := h.sampler_eq
  choices := h.choices
  coherent := h.coherent.forget feature
  kept other stored hkeeps :=
    h.kept other stored ((BagStore.keeps_forget_iff h.coherent).mp hkeeps).2

theorem clear (h : p.Clean settings sampler) : p.clear.Clean settings sampler where
  settings_eq := h.settings_eq
  sampler_eq := h.sampler_eq
  choices := ChoiceTable.valid_nil
  coherent := BagStore.coherent_empty p.store.capacity
  kept := fun _ _ hkeeps => (BagStore.not_keeps_empty hkeeps).elim

private theorem release (h : p.Clean settings sampler) (r : Registry κ σ) (feature : FeatureId) :
    (p.release r feature).pipeline.Clean settings sampler := by
  obtain ⟨-, -, held, hpipeline, -⟩ := release_spec p r feature
  rw [hpipeline]
  exact (h.forget feature).with_held held

private theorem releaseAll (h : p.Clean settings sampler) (r : Registry κ σ) :
    (p.releaseAll r).pipeline.Clean settings sampler := by
  rw [Pipeline.releaseAll]
  split
  · exact (h.with_held []).clear
  · exact h.with_held []

theorem keep (h : p.Clean settings sampler) (tree : Tree) (feature : Feature) {bag : Bag σ}
    (hbag : bag.Expressionless sampler) : (p.keep tree feature bag).1.Clean settings sampler := by
  rw [Pipeline.keep]
  split
  · refine ⟨h.settings_eq, h.sampler_eq, h.choices, h.coherent.insert, ?_⟩
    intro other stored hkeeps
    rcases BagStore.keeps_insert h.coherent hkeeps with ⟨-, rfl⟩ | ⟨-, hold⟩
    · exact hbag
    · exact h.kept other stored hold
  · exact h

variable {layer tree : Tree} {target : Feature}

private theorem stored (h : p.Clean settings sampler) {bag : Bag σ}
    (hstored : p.stored? r tree target = some bag) : bag.Expressionless sampler := by
  rw [stored?] at hstored
  split at hstored
  · obtain ⟨hget, -⟩ := Option.filter_eq_some_iff.mp hstored
    obtain ⟨stored, hkeeps, rfl, -⟩ := BagStore.keeps_of_get? hget
    exact h.kept _ _ hkeeps
  · cases hstored

private theorem fieldsOf (h : p.Clean settings sampler) (layer tree : Tree) (target : Feature)
    {entry : String × Value} (hentry : entry ∈ (p.fieldsOf layer tree target).1) :
    entry.2.hasExpression = false := by
  have hfields := Outcome.hasExpression p.settings.depthLimit layer tree target
  rw [← (p.fieldsOf_outcome h.choices layer tree target).1] at hfields
  exact Value.hasExpressionFields_eq_false_iff.mp hfields entry hentry

variable [KeySupply κ]

theorem renewed (h : p.Clean settings sampler) (r : Registry κ σ) (layer tree : Tree)
    (target : Feature) :
    (p.renewed r layer tree target).pipeline.Clean settings sampler ∧
      ∀ bindings, (p.renewed r layer tree target).result = .ok bindings →
        (p.freshBag layer tree target bindings).Expressionless sampler := by
  have hread := h.with_choices (p.fieldsOf_outcome h.choices layer tree target).2.2
  rw [Pipeline.renewed]
  obtain ⟨s, keys, rfl, -, -, ⟨fault, herror, hpipeline⟩ | ⟨-, -, -, hresult, hpipeline⟩⟩ :=
    renewBindings_cases
      ({ p with choices := (p.fieldsOf layer tree target).2.choices } : Pipeline σ) r target.id
      ((p.fieldsOf layer tree target).1.filter fun entry => entry.2.isTimed)
  · rw [hpipeline, herror]
    refine ⟨hread.with_held _, ?_⟩
    rintro _ ⟨⟩
  · rw [hpipeline, hresult]
    refine ⟨hread.with_held _, ?_⟩
    rintro _ ⟨⟩
    refine ⟨?_, ?_⟩
    · intro field value hmem
      exact h.fieldsOf layer tree target (List.mem_filter.mp hmem).1
    · intro field binding hmem
      rcases Renewal.mem_current_renewEach hmem with hnone | hmem
      · cases hnone
      · obtain ⟨⟨name, value⟩, htimed, heq⟩ := List.mem_map.mp hmem
        obtain ⟨rfl, hsampler⟩ := Prod.mk.inj heq
        refine ⟨value, h.fieldsOf layer tree target (List.mem_filter.mp htimed).1, ?_⟩
        rw [← hsampler, ← h.sampler_eq]
        rfl

theorem resolveIn (h : p.Clean settings sampler) (r : Registry κ σ) (layer tree : Tree)
    (target : Feature) :
    (p.resolveIn r layer tree target).pipeline.Clean settings sampler ∧
      ∀ bag, (p.resolveIn r layer tree target).result = .ok bag → bag.Expressionless sampler := by
  cases hstored : p.stored? r tree target with
  | some bag =>
    rw [resolveIn_of_some hstored]
    refine ⟨h, ?_⟩
    rintro _ ⟨⟩
    exact h.stored hstored
  | none =>
    obtain ⟨hrenewed, hbags⟩ := h.renewed r layer tree target
    obtain ⟨-, ⟨fault, -, herror, hpipeline⟩ | ⟨bindings, hok, hresult, hpipeline⟩⟩ :=
      resolveIn_of_none layer hstored
    · rw [herror, hpipeline]
      refine ⟨hrenewed, ?_⟩
      rintro _ ⟨⟩
    · have hbag := hbags bindings hok
      rw [hresult, hpipeline]
      refine ⟨hrenewed.keep tree target hbag, ?_⟩
      rintro _ ⟨⟩
      exact hbag

private theorem resolveEach (h : p.Clean settings sampler) (r : Registry κ σ) (layer tree : Tree)
    (features : List Feature) :
    (p.resolveEach r layer tree features).pipeline.Clean settings sampler ∧
      ∀ bags, (p.resolveEach r layer tree features).result = .ok bags →
        ∀ bag ∈ bags, bag.Expressionless sampler := by
  induction features generalizing p r with
  | nil =>
    refine ⟨h, ?_⟩
    rintro _ ⟨⟩ bag hbag
    cases hbag
  | cons feature features ih =>
    obtain ⟨hfirst, hbag⟩ := h.resolveIn r layer tree feature
    simp only [Pipeline.resolveEach]
    split
    · refine ⟨hfirst, ?_⟩
      rintro _ ⟨⟩
    · rename_i bag hresult
      obtain ⟨hrest, hbags⟩ := ih hfirst (p.resolveIn r layer tree feature).registry
      refine ⟨hrest, ?_⟩
      intro bags hok other hother
      obtain ⟨others, hothers, rfl⟩ := map_eq_ok hok
      rcases List.mem_cons.mp hother with rfl | hother
      · exact hbag _ hresult
      · exact hbags others hothers other hother

private theorem perform (h : p.Clean settings sampler) (r : Registry κ σ) (call : Call) :
    (p.perform r call).pipeline.Clean settings sampler := by
  cases call with
  | resolveAll layer upper features =>
    rw [Pipeline.perform, resolveAll]
    split
    · exact (h.resolveEach r layer _ features).1
    · exact h
  | resolve layer upper feature => exact (h.resolveIn r layer _ feature).1
  | forget feature => exact h.forget feature
  | clear => exact h.clear
  | release feature => exact h.release r feature
  | releaseAll => exact h.releaseAll r

/-- The bags that a call gives have no expressions. -/
theorem perform_bags (h : p.Clean settings sampler) {call : Call} {bags : List (Bag σ)}
    (hok : (p.perform r call).result = .ok bags) {bag : Bag σ} (hbag : bag ∈ bags) :
    bag.Expressionless sampler := by
  cases hrequest : call.request? with
  | some request =>
    obtain ⟨layer, upper, features⟩ := request
    obtain ⟨-, hresult, -, -⟩ := perform_request hrequest hok
    exact (h.resolveEach r layer (layer.layered upper) features).2 bags hresult bag hbag
  | none =>
    rw [eq_nil_of_request?_eq_none hrequest hok] at hbag
    cases hbag

end Clean

variable [KeySupply κ]

theorem Arises.clean (h : Arises κ p) : p.Clean p.settings p.sampler := by
  induction h with
  | empty settings hash sampler => exact clean_empty settings hash sampler
  | perform _ r call ih =>
    have hclean := ih.perform r call
    have hsettings := hclean.settings_eq
    have hsampler := hclean.sampler_eq
    rw [← hsettings, ← hsampler] at hclean
    exact hclean

/-- Resolution walks every tree to its end, whatever was resolved before, and there is no expression
in the bags that a call gives. -/
theorem expressionless_of_arises (h : Arises κ p) (r : Registry κ σ) (call : Call) :
    (∀ (feature : Feature) (tree : Tree),
      Tree.Walk feature tree.fields (Tree.resolveRoot feature tree.fields ⟨p.choices, [], []⟩).1
        (Tree.resolveRoot feature tree.fields ⟨p.choices, [], []⟩).2.warnings) ∧
      ∀ bags, (p.perform r call).result = .ok bags →
        ∀ bag ∈ bags, bag.Expressionless p.sampler := by
  refine ⟨?_, ?_⟩
  · intro feature tree
    have hroot := Tree.resolveRoot_yields feature tree.fields ⟨p.choices, [], []⟩ h.clean.choices
    exact Tree.walk_iff.mpr ⟨hroot.value, hroot.warnings⟩
  · intro bags hok bag hbag
    exact h.clean.perform_bags hok hbag

def reading (depthLimit capacity : Option Nat) : Pipeline Value :=
  .empty (.ofOptions depthLimit capacity) (fun _ => 0) fun _ _ value => value

def soleKey : Registry KeySupply.Same Value := .empty .standard ⟨⟨"AAAAAAAAAAAAAAAAAAAAA"⟩⟩ 0

/-- Fields of all sorts: branches in a constant in a constant, of which the first is broken,
branches that do not hold, an item that stays unset, and a value that depends on time. -/
def mixed : OrderedTree where
  fields := [
    ("a", .expression (.constant (.expression (.constant
      (.expression (.conditions [⟨"", "no"⟩, ⟨"true", "yes"⟩])))))),
    ("b", .expression (.conditions [⟨"false", "no"⟩])),
    ("c", .array [.expression (.conditions [])]),
    ("x", .expression (.constant .timed))]
  ordered := by decide

/-- Neither the bag of `mixed` nor the one it is degraded to under a lower limit has expressions. -/
theorem mixed_expressionless :
    let call := Call.resolve mixed none (.ofId ⟨"f"⟩)
    (∃ bag, ((reading none none).perform soleKey call).result = .ok [bag] ∧
        bag.isDegraded = false ∧ bag.Expressionless (reading none none).sampler) ∧
      ∃ bag, ((reading (some 1) none).perform soleKey call).result = .ok [bag] ∧
        bag.isDegraded = true ∧ bag.Expressionless (reading (some 1) none).sampler := by
  intro call
  have harises : ∀ limit, Arises KeySupply.Same (reading limit none) :=
    fun _ => .empty _ _ _
  refine ⟨⟨_, rfl, by decide +kernel, ?_⟩, ⟨_, rfl, by decide +kernel, ?_⟩⟩
  · exact (expressionless_of_arises (harises none) soleKey call).2 _ rfl _ List.mem_cons_self
  · exact (expressionless_of_arises (harises (some 1)) soleKey call).2 _ rfl _ List.mem_cons_self

end Pipeline
end FeatureStyle
