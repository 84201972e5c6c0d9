import FeatureStyle.Proofs.Layer.Ordered

/-!
# The extent of overlays

An overlay is at least as deep as its override and at most as deep as the deeper of the two. It has
an expression if its override has one, and no expression that neither side has.
-/

namespace FeatureStyle
namespace Value

variable {a b : Value}

private theorem depth_pos_of_joins (h : a.joins b = true) : 0 < a.depth := by
  rcases joins_eq_true h with ⟨fields, fields', rfl, rfl⟩ | ⟨items, items', rfl, rfl⟩
  · rw [depth]
    omega
  · rw [depth]
    omega

theorem Ordered.depth_overlay_le (ha : a.Ordered) (hb : b.Ordered) :
    (a.overlay b).depth ≤ max a.depth b.depth := by
  induction a using stepInduction generalizing b with
  | value a ih =>
    cases hjoins : a.joins b with
    | false =>
      rw [overlay_of_not_joins hjoins]
      exact Nat.le_max_right _ _
    | true =>
      apply (ha.overlay hb).depth_le
      · intro _
        have hpos := depth_pos_of_joins hjoins
        omega
      · intro step w hstep
        rw [step?_overlay hjoins] at hstep
        rcases Option.merge_eq_some_iff.mp hstep with ⟨hw, -⟩ | ⟨-, hw⟩ | ⟨x, y, hx, hy, rfl⟩
        · have hlt := depth_lt_of_step? hw
          omega
        · have hlt := depth_lt_of_step? hw
          omega
        · have hle := ih step x hx (ha.of_step? hx) (hb.of_step? hy)
          have hxlt := depth_lt_of_step? hx
          have hylt := depth_lt_of_step? hy
          omega

/-- An overlay is as deep as its override: each step into the override leads, in the overlay, to the
same value or to an overlay of another with it. -/
theorem Ordered.depth_le_overlay (hb : b.Ordered) (a : Value) : b.depth ≤ (a.overlay b).depth := by
  induction a using stepInduction generalizing b with
  | value a ih =>
    cases hjoins : a.joins b with
    | false => exact Nat.le_of_eq (congrArg depth (overlay_of_not_joins hjoins).symm)
    | true =>
      apply hb.depth_le
      · intro hroot
        rw [← joins_overlay hjoins] at hroot
        exact depth_pos_of_joins hroot
      · intro step y hy
        cases hx : a.step? step with
        | none =>
          have hstep : (a.overlay b).step? step = some y := by
            rw [step?_overlay hjoins, hx, hy]
            rfl
          exact depth_lt_of_step? hstep
        | some x =>
          have hstep : (a.overlay b).step? step = some (x.overlay y) := by
            rw [step?_overlay hjoins, hx, hy]
            rfl
          exact Nat.lt_of_le_of_lt (ih step x hx (hb.of_step? hy)) (depth_lt_of_step? hstep)

theorem Ordered.hasExpression_overlay (ha : a.Ordered) (hb : b.Ordered)
    (h : (a.overlay b).hasExpression = true) :
    a.hasExpression = true ∨ b.hasExpression = true := by
  obtain ⟨path, e, hat⟩ := (ha.overlay hb).hasExpression_iff.mp h
  have hlaid := laidAt_overlay a b path
  rw [hat] at hlaid
  rcases hlaid.expression with hbase | hupper
  · exact .inl (ha.hasExpression_iff.mpr ⟨path, e, hbase⟩)
  · exact .inr (hb.hasExpression_iff.mpr ⟨path, e, hupper⟩)

theorem at?_overlay_expression {path : Path} {e : Expression Value}
    (h : b.at? path = some (expression e)) (a : Value) :
    (a.overlay b).at? path = some (expression e) := by
  have hlaid := laidAt_overlay a b path
  cases hbase : a.at? path with
  | none => exact hlaid.replaced _ h (.inl hbase)
  | some v =>
    by_cases hjoined : JoinedAlong a b path
    · have happly : v.overlay (expression e) = expression e :=
        overlay_of_not_joins (by cases v <;> rfl)
      rw [hlaid.joined v _ hbase h hjoined, happly]
    · exact hlaid.replaced _ h (.inr hjoined)

theorem Ordered.hasExpression_overlay_of_upper (ha : a.Ordered) (hb : b.Ordered)
    (h : b.hasExpression = true) : (a.overlay b).hasExpression = true := by
  obtain ⟨path, e, hat⟩ := hb.hasExpression_iff.mp h
  exact (ha.overlay hb).hasExpression_iff.mpr ⟨path, e, at?_overlay_expression hat a⟩

end Value
end FeatureStyle
