import FeatureStyle.Proofs.Pipeline.Expressionless
import FeatureStyle.Proofs.Pipeline.Likeness

/-!
# Where bags come from

Every bag that a call gives goes back to a resolution. If the bag is new, that is the resolution
asked for. If it was kept, it may be one of another layer, but its tree and its feature are equal to
those asked for. The main statement is `Arises.answers`, and `Answers.isDegraded_iff` says which bags
are degraded.
-/

namespace FeatureStyle

namespace Bag

variable {σ : Type}

/-- A bag is what a tree resolves to for a feature: it shows the static fields and the warnings of
the outcome, and each binding samples a value of the outcome that depends on time. -/
structure StemsFrom (settings : Settings) (sampler : FeatureId → String → Value → σ)
    (layer tree : Tree) (feature : Feature) (bag : Bag σ) : Prop where
  feature_eq : bag.feature = feature.id
  fields_eq : bag.fields = (Outcome.of settings.depthLimit layer tree feature).static
  warnings_eq : bag.warnings = (Outcome.of settings.depthLimit layer tree feature).warnings
  dynamic : ∀ field binding, (field, binding) ∈ bag.dynamic → ∃ value,
    (field, value) ∈ (Outcome.of settings.depthLimit layer tree feature).timed ∧
      binding.sampler = sampler feature.id field value

/-- A bag stems from a resolution of a tree and a feature that are equal to the given ones except
for the forms of numbers. -/
def Answers (settings : Settings) (sampler : FeatureId → String → Value → σ) (tree : Tree)
    (feature : Feature) (bag : Bag σ) : Prop :=
  ∃ layer tree' feature', Value.canonicalFields tree'.fields = Value.canonicalFields tree.fields ∧
    feature'.canonical = feature.canonical ∧ bag.StemsFrom settings sampler layer tree' feature'

variable {settings : Settings} {sampler : FeatureId → String → Value → σ} {layer tree : Tree}
  {feature : Feature} {bag : Bag σ}

private theorem StemsFrom.answers (h : bag.StemsFrom settings sampler layer tree feature) :
    bag.Answers settings sampler tree feature := ⟨layer, tree, feature, rfl, rfl, h⟩

private theorem StemsFrom.isDegraded_iff (h : bag.StemsFrom settings sampler layer tree feature) :
    bag.isDegraded = true ↔ settings.depthLimit < tree.depth := by
  rw [isDegraded, h.warnings_eq]
  by_cases hdepth : settings.depthLimit < tree.depth
  · rw [Outcome.of_degraded hdepth]
    simp [Warning.isDegraded, hdepth]
  · rw [Outcome.of_evaluated hdepth]
    simp [Tree.brokenBranches, Warning.isDegraded, hdepth]

theorem Answers.isDegraded_iff (h : bag.Answers settings sampler tree feature) :
    bag.isDegraded = true ↔ settings.depthLimit < tree.depth := by
  obtain ⟨layer, tree', feature', htree, -, hstems⟩ := h
  rw [hstems.isDegraded_iff, Tree.depth_eq htree]

end Bag

namespace Pipeline

variable {κ σ : Type} {settings : Settings} {sampler : FeatureId → String → Value → σ}
  {p : Pipeline σ} {r : Registry κ σ} {layer tree : Tree} {target : Feature}

/-- A clean pipeline that keeps only what it resolved the stored trees and features to. -/
structure Traced (settings : Settings) (sampler : FeatureId → String → Value → σ)
    (p : Pipeline σ) : Prop where
  clean : p.Clean settings sampler
  kept : ∀ feature stored, p.store.Keeps feature stored →
    ∃ layer, stored.bag.StemsFrom settings sampler layer stored.tree stored.feature

private theorem traced_empty (settings : Settings) (hash : Tree → UInt64)
    (sampler : FeatureId → String → Value → σ) :
    (empty settings hash sampler).Traced settings sampler :=
  ⟨clean_empty settings hash sampler, fun _ _ hkeeps => (BagStore.not_keeps_empty hkeeps).elim⟩

theorem sampled_of_renewBindings [KeySupply κ] {feature : FeatureId}
    {dynamic : List (String × Value)} {bindings : Fields (Binding σ)}
    (hok : (p.renewBindings r feature dynamic).result = .ok bindings) {field : String}
    {binding : Binding σ} (hmem : (field, binding) ∈ bindings) :
    ∃ value, (field, value) ∈ dynamic ∧ binding.sampler = p.sampler feature field value := by
  obtain ⟨s, keys, rfl, -, -, ⟨fault, herror, -⟩ | ⟨-, -, -, hresult, -⟩⟩ :=
    renewBindings_cases p r feature dynamic
  · rw [hok] at herror
    cases herror
  · rw [hok] at hresult
    cases hresult
    rcases Renewal.mem_current_renewEach hmem with hnone | hentry
    · cases hnone
    · obtain ⟨⟨name, value⟩, hvalue, heq⟩ := List.mem_map.mp hentry
      obtain ⟨rfl, hsampler⟩ := Prod.mk.inj heq
      exact ⟨value, hvalue, hsampler.symm⟩

namespace Traced

private theorem forget (h : p.Traced settings sampler) (feature : FeatureId) :
    (p.forget feature).2.Traced settings sampler where
  clean := h.clean.forget feature
  kept other stored hkeeps :=
    h.kept other stored ((BagStore.keeps_forget_iff h.clean.coherent).mp hkeeps).2

private theorem clear (h : p.Traced settings sampler) : p.clear.Traced settings sampler :=
  ⟨h.clean.clear, fun _ _ hkeeps => (BagStore.not_keeps_empty hkeeps).elim⟩

private theorem with_held (h : p.Traced settings sampler)
    (held : Table FeatureId (Fields (Binding σ))) :
    ({ p with held } : Pipeline σ).Traced settings sampler := ⟨h.clean.with_held held, h.kept⟩

private theorem release (h : p.Traced settings sampler) (r : Registry κ σ) (feature : FeatureId) :
    (p.release r feature).pipeline.Traced settings sampler := by
  obtain ⟨-, -, held, hpipeline, -⟩ := release_spec p r feature
  rw [hpipeline]
  exact (h.forget feature).with_held held

private theorem releaseAll (h : p.Traced settings sampler) (r : Registry κ σ) :
    (p.releaseAll r).pipeline.Traced settings sampler := by
  rw [Pipeline.releaseAll]
  split
  · exact (h.with_held []).clear
  · exact h.with_held []

private theorem keep (h : p.Traced settings sampler) {bag : Bag σ}
    (hbag : bag.StemsFrom settings sampler layer tree target)
    (hclean : bag.Expressionless sampler) :
    (p.keep tree target bag).1.Traced settings sampler := by
  refine ⟨h.clean.keep tree target hclean, ?_⟩
  intro other stored hkeeps
  rw [Pipeline.keep] at hkeeps
  split at hkeeps
  · rcases BagStore.keeps_insert h.clean.coherent hkeeps with ⟨-, rfl⟩ | ⟨-, hold⟩
    · exact ⟨layer, hbag⟩
    · exact h.kept other stored hold
  · exact h.kept other stored hkeeps

private theorem stored (h : p.Traced settings sampler) {bag : Bag σ}
    (hstored : p.stored? r tree target = some bag) : bag.Answers settings sampler tree target := by
  rw [stored?] at hstored
  split at hstored
  · obtain ⟨hget, -⟩ := Option.filter_eq_some_iff.mp hstored
    obtain ⟨stored, hkeeps, rfl, htree, hfeature⟩ := BagStore.keeps_of_get? hget
    obtain ⟨layer, hstems⟩ := h.kept _ _ hkeeps
    exact ⟨layer, stored.tree, stored.feature, Tree.canonicalFields_eq_of_beq htree,
      (Feature.eq_of_beq hfeature).2, hstems⟩
  · cases hstored

variable [KeySupply κ]

private theorem renewed (h : p.Traced settings sampler) (r : Registry κ σ) (layer tree : Tree)
    (target : Feature) : (p.renewed r layer tree target).pipeline.Traced settings sampler := by
  refine ⟨(h.clean.renewed r layer tree target).1, ?_⟩
  rw [Pipeline.renewed]
  obtain ⟨s, keys, -, -, -, ⟨fault, -, hpipeline⟩ | ⟨-, -, -, -, hpipeline⟩⟩ :=
    renewBindings_cases
      ({ p with choices := (p.fieldsOf layer tree target).2.choices } : Pipeline σ) r target.id
      ((p.fieldsOf layer tree target).1.filter fun entry => entry.2.isTimed)
  · rw [hpipeline]
    exact h.kept
  · rw [hpipeline]
    exact h.kept

private theorem freshBag (h : p.Traced settings sampler) {bindings : Fields (Binding σ)}
    (hok : (p.renewed r layer tree target).result = .ok bindings) :
    (p.freshBag layer tree target bindings).StemsFrom settings sampler layer tree target := by
  obtain ⟨hfields, hwarnings, -⟩ := p.fieldsOf_outcome h.clean.choices layer tree target
  rw [h.clean.settings_eq] at hfields hwarnings
  refine ⟨rfl, ?_, hwarnings, ?_⟩
  · rw [Pipeline.freshBag, hfields]
    rfl
  · intro field binding hmem
    obtain ⟨value, hvalue, hsampler⟩ := sampled_of_renewBindings hok hmem
    rw [hfields] at hvalue
    rw [← h.clean.sampler_eq]
    exact ⟨value, hvalue, hsampler⟩

private theorem resolveIn (h : p.Traced settings sampler) (r : Registry κ σ) (layer tree : Tree)
    (target : Feature) :
    (p.resolveIn r layer tree target).pipeline.Traced settings sampler ∧
      ∀ bag, (p.resolveIn r layer tree target).result = .ok bag →
        bag.Answers settings sampler tree target := by
  cases hstored : p.stored? r tree target with
  | some bag =>
    rw [resolveIn_of_some hstored]
    refine ⟨h, ?_⟩
    intro other hok
    cases hok
    exact h.stored hstored
  | none =>
    have hrenewed := h.renewed r layer tree target
    obtain ⟨-, ⟨fault, -, herror, hpipeline⟩ | ⟨bindings, hok, hresult, hpipeline⟩⟩ :=
      resolveIn_of_none layer hstored
    · rw [herror, hpipeline]
      refine ⟨hrenewed, ?_⟩
      intro bag hok
      cases hok
    · have hbag := h.freshBag hok
      rw [hresult, hpipeline]
      refine ⟨hrenewed.keep hbag ((h.clean.renewed r layer tree target).2 bindings hok), ?_⟩
      intro bag hok
      cases hok
      exact hbag.answers

private theorem resolveEach (h : p.Traced settings sampler) (r : Registry κ σ) (layer tree : Tree)
    (features : List Feature) :
    (p.resolveEach r layer tree features).pipeline.Traced settings sampler ∧
      ∀ bags, (p.resolveEach r layer tree features).result = .ok bags →
        ∀ bag ∈ bags, ∃ feature ∈ features, bag.Answers settings sampler tree feature := by
  induction features generalizing p r with
  | nil =>
    refine ⟨h, ?_⟩
    intro bags hok bag hbag
    cases hok
    cases hbag
  | cons feature features ih =>
    obtain ⟨hfirst, hbag⟩ := h.resolveIn r layer tree feature
    simp only [Pipeline.resolveEach]
    split
    · refine ⟨hfirst, ?_⟩
      intro bags hok
      cases hok
    · rename_i bag hresult
      obtain ⟨hrest, hbags⟩ := ih hfirst (p.resolveIn r layer tree feature).registry
      refine ⟨hrest, ?_⟩
      intro bags hok other hother
      obtain ⟨others, hothers, rfl⟩ := map_eq_ok hok
      rcases List.mem_cons.mp hother with rfl | hother
      · exact ⟨feature, List.mem_cons_self, hbag _ hresult⟩
      · obtain ⟨target, htarget, hanswers⟩ := hbags others hothers other hother
        exact ⟨target, List.mem_cons_of_mem feature htarget, hanswers⟩

private theorem perform (h : p.Traced settings sampler) (r : Registry κ σ) (call : Call) :
    (p.perform r call).pipeline.Traced settings sampler := by
  cases call with
  | resolveAll layer upper features =>
    rw [Pipeline.perform, resolveAll]
    split
    · exact (h.resolveEach r layer _ features).1
    · exact h
  | resolve layer upper feature => exact (h.resolveIn r layer _ feature).1
  | forget feature => exact h.forget feature
  | clear => exact h.clear
  | release feature => exact h.release r feature
  | releaseAll => exact h.releaseAll r

end Traced

variable [KeySupply κ]

theorem Arises.traced (h : Arises κ p) : p.Traced p.settings p.sampler := by
  induction h with
  | empty settings hash sampler => exact traced_empty settings hash sampler
  | perform _ r call ih =>
    have htraced := ih.perform r call
    have hsettings := htraced.clean.settings_eq
    have hsampler := htraced.clean.sampler_eq
    rw [← hsettings, ← hsampler] at htraced
    exact htraced

/-- Each bag that a call gives goes back to a resolution for one of its features. -/
theorem Arises.answers (h : Arises κ p) {call : Call} {layer : OrderedTree}
    {upper : Option OrderedTree} {features : List Feature}
    (hrequest : call.request? = some (layer, upper, features))
    {bags : List (Bag σ)} (hok : (p.perform r call).result = .ok bags) {bag : Bag σ}
    (hbag : bag ∈ bags) :
    ∃ feature ∈ features, bag.Answers p.settings p.sampler (layer.layered upper) feature := by
  obtain ⟨-, hresult, -, -⟩ := perform_request hrequest hok
  exact (h.traced.resolveEach r layer (layer.layered upper) features).2 bags hresult bag hbag

end Pipeline
end FeatureStyle
