import FeatureStyle.Proofs.Layer.Extent
import FeatureStyle.Proofs.Pipeline.Provenance

/-!
# Which features are degraded

A feature is degraded for the depth of its layer or of its override, never for both together, as an
overlay is no deeper than the deeper of the two. The main statement is `degraded_by_part`.
-/

namespace FeatureStyle

private theorem OrderedTree.overlay_extent (base upper : OrderedTree) :
    upper.depth ≤ (base.overlay upper).depth ∧
      (base.overlay upper).depth ≤ max base.depth upper.depth ∧
      ((base.overlay upper).hasExpression = true →
        base.hasExpression = true ∨ upper.hasExpression = true) ∧
      (upper.hasExpression = true → (base.overlay upper).hasExpression = true) :=
  ⟨upper.ordered.depth_le_overlay base.toValue, base.ordered.depth_overlay_le upper.ordered,
    base.ordered.hasExpression_overlay upper.ordered,
    base.ordered.hasExpression_overlay_of_upper upper.ordered⟩

namespace Pipeline

private theorem depth_layered_le {layer : OrderedTree} {upper : Option OrderedTree} {limit : Nat}
    (hdepth : layer.depth ≤ limit)
    (hdepths : ∀ u ∈ upper, u.depth ≤ limit) : (layer.layered upper).depth ≤ limit := by
  cases upper with
  | none => exact hdepth
  | some u =>
    obtain ⟨-, hle, -⟩ := layer.overlay_extent u
    exact Nat.le_trans hle (Nat.max_le.mpr ⟨hdepth, hdepths u rfl⟩)

private theorem depth_le_layered (layer u : OrderedTree) :
    u.depth ≤ (layer.layered (some u)).depth :=
  (layer.overlay_extent u).1

/-- An overlay is neither deeper than both sides nor flatter than its override, and it has no other
expressions than theirs and all of the override's. So a bag is degraded only if the layer or the
override is too deep by itself, and always if the override is. -/
theorem degraded_by_part :
    (∀ base upper : OrderedTree,
      upper.depth ≤ (base.overlay upper).depth ∧
        (base.overlay upper).depth ≤ max base.depth upper.depth ∧
        ((base.overlay upper).hasExpression = true →
          base.hasExpression = true ∨ upper.hasExpression = true) ∧
        (upper.hasExpression = true → (base.overlay upper).hasExpression = true)) ∧
    ∀ {κ σ : Type} [KeySupply κ] (p : Pipeline σ), Arises κ p →
      ∀ (r : Registry κ σ) (call : Call) (layer : OrderedTree) (upper : Option OrderedTree)
        (features : List Feature), call.request? = some (layer, upper, features) →
          ∀ bags, (p.perform r call).result = .ok bags → ∀ bag ∈ bags,
            (bag.isDegraded = true → p.settings.depthLimit < layer.depth ∨
              ∃ u ∈ upper, p.settings.depthLimit < u.depth) ∧
            ∀ u ∈ upper, p.settings.depthLimit < u.depth → bag.isDegraded = true := by
  refine ⟨OrderedTree.overlay_extent, ?_⟩
  intro κ σ _ p h r call layer upper features hrequest bags hok bag hbag
  obtain ⟨feature, -, hanswers⟩ := h.answers hrequest hok hbag
  rw [hanswers.isDegraded_iff]
  constructor
  · intro hdeep
    by_contra hnone
    simp only [not_or, not_exists, not_and, Nat.not_lt] at hnone
    have hle := depth_layered_le hnone.1 hnone.2
    omega
  · intro u hu hdeep
    cases hu
    exact Nat.lt_of_lt_of_le hdeep (depth_le_layered layer u)

/-- The detour is deeper than the limit, and what it is laid over is not. -/
theorem degraded_by_detour :
    let call := Call.resolve (.probe "label") (some .detour) (.ofId ⟨"f"⟩)
    (OrderedTree.probe "label").depth = 1 ∧ OrderedTree.detour.depth = 4 ∧
      ((OrderedTree.probe "label").overlay .detour).depth ≤ 4 ∧
      ((OrderedTree.probe "label").overlay .detour).hasExpression = true ∧
      ∃ bag, ((reading (some 3) none).perform soleKey call).result = .ok [bag] ∧
        bag.isDegraded = true := by
  intro call
  obtain ⟨-, hdepth, -, hexpression⟩ := degraded_by_part.1 (.probe "label") .detour
  refine ⟨rfl, rfl, hdepth, hexpression rfl, _, rfl, ?_⟩
  refine (degraded_by_part.2 (reading (some 3) none) (.empty _ _ _) soleKey call (.probe "label")
    (some .detour) [.ofId ⟨"f"⟩] rfl _ rfl _ List.mem_cons_self).2 .detour rfl ?_
  decide

end Pipeline
end FeatureStyle
