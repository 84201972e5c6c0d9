import FeatureStyle.Proofs.Pipeline.Progress

/-!
# Resolution without a store

A pipeline that keeps no bags has a memory all the same: the choices it has read and the bindings it
holds. The main statement is `walked_of_uncached`: nothing of it can be seen in the fields and the
warnings of a bag, which are those of the one walk through the tree.
-/

namespace FeatureStyle

/-- A bag shows each field in one place: a value that depends on time through a binding that samples
it, any other value as it is. -/
structure Bag.Shows {σ : Type} (sampler : FeatureId → String → Value → σ) (bag : Bag σ)
    (fields : List (String × Value)) : Prop where
  timed : ∀ field value, Fields.get? fields field = some value → value.isTimed = true →
    bag.get? field = none ∧ ∃ binding, bag.binding? field = some binding ∧
      binding.sampler = sampler bag.feature field value
  static : ∀ field value, Fields.get? fields field = some value → value.isTimed = false →
    bag.get? field = some value ∧ bag.binding? field = none
  unset : ∀ field, Fields.get? fields field = none →
    bag.get? field = none ∧ bag.binding? field = none

private theorem Bag.shows_of_filter {σ : Type} {sampler : FeatureId → String → Value → σ}
    {bag : Bag σ}
    {fields : List (String × Value)}
    (hstatic : ∀ field, bag.get? field =
      (Fields.get? fields field).filter fun value => !value.isTimed)
    (hdynamic : ∀ field, (bag.binding? field).map Binding.sampler =
      ((Fields.get? fields field).filter Value.isTimed).map (sampler bag.feature field)) :
    bag.Shows sampler fields where
  timed := by
    intro field value hvalue htimed
    have hget := hstatic field
    have hbinding := hdynamic field
    rw [hvalue] at hget hbinding
    simp only [Option.filter, htimed, Bool.not_true, Bool.false_eq_true, if_false, if_true,
      Option.map_some] at hget hbinding
    exact ⟨hget, Option.map_eq_some_iff.mp hbinding⟩
  static := by
    intro field value hvalue htimed
    have hget := hstatic field
    have hbinding := hdynamic field
    rw [hvalue] at hget hbinding
    simp only [Option.filter, htimed, Bool.not_false, Bool.false_eq_true, if_false, if_true,
      Option.map_none] at hget hbinding
    exact ⟨hget, Option.map_eq_none_iff.mp hbinding⟩
  unset := by
    intro field hnone
    have hget := hstatic field
    have hbinding := hdynamic field
    rw [hnone] at hget hbinding
    exact ⟨hget, Option.map_eq_none_iff.mp hbinding⟩

/-- A bag is what the one walk through a tree gives for a feature. -/
structure Bag.Walked {σ : Type} (sampler : FeatureId → String → Value → σ) (tree : Tree)
    (feature : Feature) (bag : Bag σ) : Prop where
  feature_eq : bag.feature = feature.id
  exists_walk : ∃ fields warnings, Tree.Walk feature tree.fields fields warnings
  of_walk : ∀ fields warnings, Tree.Walk feature tree.fields fields warnings →
    bag.warnings = warnings ∧ bag.Shows sampler fields

/-- A bag presents an outcome for a feature. -/
structure Bag.Presents {σ : Type} (sampler : FeatureId → String → Value → σ) (outcome : Outcome)
    (feature : Feature) (bag : Bag σ) : Prop where
  feature_eq : bag.feature = feature.id
  fields_eq : bag.fields = outcome.static
  warnings_eq : bag.warnings = outcome.warnings
  shows : bag.Shows sampler outcome.fields

theorem Bag.Presents.walked {σ : Type} {sampler : FeatureId → String → Value → σ} {limit : Nat}
    {layer tree : Tree} {feature : Feature} {bag : Bag σ}
    (h : bag.Presents sampler (Outcome.of limit layer tree feature) feature)
    (hdepth : tree.depth ≤ limit) : bag.Walked sampler tree feature := by
  obtain ⟨hfeature, -, hwarnings, hshows⟩ := h
  rw [Outcome.of_evaluated (Nat.not_lt.mpr hdepth)] at hwarnings hshows
  refine ⟨hfeature, ⟨_, _, Tree.walk_resolved feature tree.fields⟩, ?_⟩
  intro fields warnings hwalk
  obtain ⟨rfl, rfl⟩ := Tree.walk_iff.mp hwalk
  exact ⟨hwarnings, hshows⟩

namespace Pipeline

variable {κ σ : Type} [KeySupply κ] {p : Pipeline σ} {r : Registry κ σ} {layer tree : OrderedTree}
  {settings : Settings} {sampler : FeatureId → String → Value → σ}

omit [KeySupply κ] in
private theorem stored?_of_capacity (hcapacity : p.settings.capacity = 0) (r : Registry κ σ)
    (tree : Tree)
    (target : Feature) : p.stored? r tree target = none := by
  rw [stored?, Settings.keepsBags, hcapacity]
  rfl

theorem Clean.resolveIn_presents (h : p.Clean settings sampler) (hcapacity : settings.capacity = 0)
    {target : Feature} {bag : Bag σ}
    (hok : (p.resolveIn r layer tree target).result = .ok bag) :
    bag.Presents sampler (Outcome.of settings.depthLimit layer tree target) target := by
  rw [← h.settings_eq] at hcapacity ⊢
  obtain ⟨bindings, rfl, -, hsamplers⟩ :=
    resolveIn_ok (stored?_of_capacity hcapacity r tree target) hok
  have hnodup := p.fieldsOf_keys_nodup layer tree target
  obtain ⟨hfields, hwarnings, -⟩ := p.fieldsOf_outcome h.choices layer tree target
  rw [hfields] at hnodup hsamplers
  have hstatic : (p.freshBag layer tree target bindings).fields =
      (Outcome.of p.settings.depthLimit layer tree target).static := by
    rw [freshBag, hfields]
    rfl
  refine ⟨rfl, hstatic, hwarnings, Bag.shows_of_filter ?_ ?_⟩
  · intro field
    rw [Bag.get?, hstatic]
    exact Table.get?_filter hnodup (fun value => !value.isTimed) field
  · intro field
    have hsampler := hsamplers field
    rw [Table.get?_filter hnodup Value.isTimed field, h.sampler_eq] at hsampler
    exact hsampler

private theorem Clean.resolveEach_presents (h : p.Clean settings sampler)
    (hcapacity : settings.capacity = 0) {features : List Feature} {bags : List (Bag σ)}
    (hok : (p.resolveEach r layer tree features).result = .ok bags) :
    List.Forall₂ (fun feature bag =>
      bag.Presents sampler (Outcome.of settings.depthLimit layer tree feature) feature)
      features bags := by
  induction features generalizing p r bags with
  | nil =>
    cases hok
    exact .nil
  | cons feature features ih =>
    simp only [Pipeline.resolveEach] at hok
    split at hok
    · cases hok
    · rename_i bag hbag
      obtain ⟨others, hothers, rfl⟩ := map_eq_ok hok
      exact .cons (h.resolveIn_presents hcapacity hbag)
        (ih (h.resolveIn r layer tree feature).1 hothers)

private theorem Clean.resolveEach_uncached (h : p.Clean settings sampler)
    (hcapacity : settings.capacity = 0) (hdepth : tree.depth ≤ settings.depthLimit)
    {features : List Feature} {bags : List (Bag σ)}
    (hok : (p.resolveEach r layer tree features).result = .ok bags) :
    List.Forall₂ (Bag.Walked sampler tree) features bags :=
  (h.resolveEach_presents hcapacity hok).imp fun _ _ hbag => hbag.walked hdepth

/-- Without a store, each feature of a call gets the outcome of its tree. -/
theorem Arises.presents (h : Arises κ p) (hcapacity : p.settings.capacity = 0)
    {upper : Option OrderedTree} {call : Call} {features : List Feature}
    (hrequest : call.request? = some (layer, upper, features)) {bags : List (Bag σ)}
    (hok : (p.perform r call).result = .ok bags) :
    List.Forall₂ (fun feature bag => bag.Presents p.sampler
      (Outcome.of p.settings.depthLimit layer (layer.layered upper) feature) feature)
      features bags := by
  obtain ⟨-, hresult, -, -⟩ := perform_request hrequest hok
  exact h.clean.resolveEach_presents hcapacity hresult

/-- Without a store, and within the limit on the depth, the bag of a feature is what the one walk
through the tree gives, whatever was resolved before. Distinct features get their bags, unless there
is no key for a field of one of them that depends on time. -/
theorem walked_of_uncached (h : Arises κ p) (hcapacity : p.settings.capacity = 0)
    (r : Registry κ σ) {call : Call} {layer : OrderedTree} {upper : Option OrderedTree}
    {features : List Feature} (hrequest : call.request? = some (layer, upper, features))
    (hdepth : (layer.layered upper).depth ≤ p.settings.depthLimit) :
    (∀ bags, (p.perform r call).result = .ok bags →
      List.Forall₂ (Bag.Walked p.sampler (layer.layered upper)) features bags) ∧
      ((features.map Feature.id).Nodup → (∀ feature ∈ features, p.Fits r feature.id) →
        (∃ bags, (p.perform r call).result = .ok bags) ∨
          (p.perform r call).result = .error .noFreeKey ∧ ∃ feature ∈ features,
            ∃ fields warnings, Tree.Walk feature (layer.layered upper).fields fields warnings ∧
              ∃ entry ∈ fields, entry.2.isTimed = true) := by
  refine ⟨?_, ?_⟩
  · intro bags hok
    obtain ⟨-, hresult, -, -⟩ := perform_request hrequest hok
    exact h.clean.resolveEach_uncached hcapacity hdepth hresult
  · intro hnodup hfits
    rw [perform_result hrequest hnodup]
    apply (resolveEach_result h.clean hnodup hfits layer (layer.layered upper)).imp_right
    rintro ⟨herror, feature, hfeature, entry, hentry, htimed⟩
    rw [Outcome.of_evaluated (Nat.not_lt.mpr hdepth)] at hentry
    exact ⟨herror, feature, hfeature, _, _, Tree.walk_resolved feature (layer.layered upper).fields,
      entry, hentry, htimed⟩

/-- A pipeline without a store that has resolved another layer before walks `mixed` anew. -/
theorem mixed_walked :
    let first := (reading none (some 0)).perform soleKey (.resolve (.probe "x") none (.ofId ⟨"f"⟩))
    Arises KeySupply.Same first.pipeline ∧ first.pipeline.settings.capacity = 0 ∧
      ∃ bag, (first.pipeline.perform first.registry (.resolve mixed none (.ofId ⟨"f"⟩))).result =
          .ok [bag] ∧ bag.warnings.length = 1 ∧
        List.Forall₂ (Bag.Walked first.pipeline.sampler mixed) [.ofId ⟨"f"⟩] [bag] := by
  intro first
  have harises : Arises KeySupply.Same first.pipeline := .perform (.empty _ _ _) soleKey _
  have hrequest : (Call.resolve mixed none (.ofId ⟨"f"⟩)).request? =
      some (mixed, none, [.ofId ⟨"f"⟩]) := rfl
  refine ⟨harises, rfl, _, rfl, by decide +kernel, ?_⟩
  exact (walked_of_uncached harises rfl first.registry hrequest (by decide)).1 _ rfl

end Pipeline
end FeatureStyle
