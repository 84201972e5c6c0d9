import FeatureStyle.Proofs.Layer.Ordered

/-!
# Overlays put on again

A value laid over itself is itself, and an overlay stays as it is when its override is laid over it
again or when it is laid over its base again. The main statement is `overlay_stable`.
-/

namespace FeatureStyle

namespace Value

variable {a b : Value}

theorem Ordered.overlay_self (h : a.Ordered) : a.overlay a = a := by
  induction a using stepInduction with
  | value a ih =>
    cases hjoins : a.joins a with
    | false => exact overlay_of_not_joins hjoins
    | true =>
      apply (h.overlay h).eq_of_step?_eq h ((joins_overlay hjoins a).trans hjoins)
      intro step
      rw [step?_overlay hjoins]
      cases hstep : a.step? step with
      | none => rfl
      | some w => exact congrArg some (ih step w hstep (h.of_step? hstep))

/-- An override laid over an overlay of it changes nothing. What only the override has is laid over
itself. -/
theorem Ordered.overlay_again (ha : a.Ordered) (hb : b.Ordered) :
    (a.overlay b).overlay b = a.overlay b := by
  induction a using stepInduction generalizing b with
  | value a ih =>
    cases hjoins : a.joins b with
    | false =>
      rw [overlay_of_not_joins hjoins]
      exact hb.overlay_self
    | true =>
      have hself : b.joins b = true := (joins_congr hjoins b).symm.trans hjoins
      have hagain : (a.overlay b).joins b = true := (joins_overlay hjoins b).trans hself
      have hordered := ha.overlay hb
      apply (hordered.overlay hb).eq_of_step?_eq hordered
      · rw [joins_overlay hagain, joins_comm]
        exact hagain
      · intro step
        rw [step?_overlay hagain, step?_overlay hjoins]
        cases hx : a.step? step with
        | none =>
          cases hy : b.step? step with
          | none => rfl
          | some y => exact congrArg some (hb.of_step? hy).overlay_self
        | some x =>
          cases hy : b.step? step with
          | none => rfl
          | some y => exact congrArg some (ih step x hx (ha.of_step? hx) (hb.of_step? hy))

/-- An overlay laid over its base changes nothing. What only the base has is laid over itself. -/
theorem Ordered.overlay_overlay (ha : a.Ordered) (hb : b.Ordered) :
    a.overlay (a.overlay b) = a.overlay b := by
  induction a using stepInduction generalizing b with
  | value a ih =>
    cases hjoins : a.joins b with
    | false =>
      rw [overlay_of_not_joins hjoins]
      exact overlay_of_not_joins hjoins
    | true =>
      have hagain : a.joins (a.overlay b) = true := (joins_overlay_right hjoins a).trans hjoins
      have hordered := ha.overlay hb
      apply (ha.overlay hordered).eq_of_step?_eq hordered
      · rw [joins_overlay hagain, joins_overlay hjoins, joins_overlay_right hjoins,
          ← joins_congr hjoins]
        exact hjoins
      · intro step
        rw [step?_overlay hagain, step?_overlay hjoins]
        cases hx : a.step? step with
        | none => cases b.step? step <;> rfl
        | some x =>
          cases hy : b.step? step with
          | none => exact congrArg some (ha.of_step? hx).overlay_self
          | some y => exact congrArg some (ih step x hx (ha.of_step? hx) (hb.of_step? hy))

private theorem overlayFields_nil (base : List (String × Value)) :
    overlayFields base [] = base := by
  induction base with
  | nil => rfl
  | cons entry base ih =>
    rw [overlayFields, ih]
    rfl

end Value

theorem Tree.overlay_empty (t : Tree) : t.overlay empty = t := by
  rw [overlay, empty, Value.overlayFields_nil]
  rfl

namespace OrderedTree

theorem overlay_empty (t : OrderedTree) : t.overlay empty = t :=
  ext_root (OrderedValue.ext (congrArg Tree.toValue t.toTree.overlay_empty))

theorem empty_overlay (t : OrderedTree) : empty.overlay t = t := by
  apply ext_root
  apply OrderedValue.ext
  apply (empty.overlay t).ordered.eq_of_step?_eq t.ordered rfl
  intro step
  rw [overlay, Tree.toValue_overlay, Value.step?_overlay rfl]
  cases step with
  | field name => cases t.toValue.step? (.field name) <;> rfl
  | index n => rfl

end OrderedTree

/-- Values and trees that list their fields in order are stable under overlays put on again, and the
empty tree changes nothing, above or below another. -/
theorem Value.overlay_stable :
    (∀ a : OrderedValue, a.overlay a = a) ∧
    (∀ a b : OrderedValue,
      (a.overlay b).overlay b = a.overlay b ∧ a.overlay (a.overlay b) = a.overlay b) ∧
    (∀ t : OrderedTree, t.overlay t = t ∧ t.overlay .empty = t ∧ OrderedTree.empty.overlay t = t) ∧
    ∀ a b : OrderedTree,
      (a.overlay b).overlay b = a.overlay b ∧ a.overlay (a.overlay b) = a.overlay b := by
  have hself (a : OrderedValue) : a.overlay a = a := OrderedValue.ext a.ordered.overlay_self
  have hagain (a b : OrderedValue) :
      (a.overlay b).overlay b = a.overlay b ∧ a.overlay (a.overlay b) = a.overlay b :=
    ⟨OrderedValue.ext (a.ordered.overlay_again b.ordered),
      OrderedValue.ext (a.ordered.overlay_overlay b.ordered)⟩
  refine ⟨hself, hagain, ?_, ?_⟩
  · intro t
    exact ⟨OrderedTree.ext_root (hself t.root), t.overlay_empty, t.empty_overlay⟩
  · intro a b
    obtain ⟨hupper, hbase⟩ := hagain a.root b.root
    exact ⟨OrderedTree.ext_root hupper, OrderedTree.ext_root hbase⟩

/-- The detour replaces the road's label, and putting it on once more replaces nothing. -/
theorem Value.overlay_stable_road :
    let road := OrderedTree.road
    let detour := OrderedTree.detour
    (road.overlay detour).get? "label" = detour.get? "label" ∧
      (road.overlay detour).overlay detour = road.overlay detour ∧
      road.overlay (road.overlay detour) = road.overlay detour :=
  ⟨rfl, overlay_stable.2.2.2 .road .detour⟩

end FeatureStyle
