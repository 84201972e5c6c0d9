import FeatureStyle.Proofs.Layer.Ordered

/-!
# Regrouping layers

Three layers give the same whether the first two or the last two are put together first. The
exception is a middle layer with a value of another kind where the outer two both have an object or
both have an array: laid over the first layer, it replaces what the last one would have joined. The
main statement is `overlay_regrouped`.
-/

namespace FeatureStyle

namespace Value

/-- At the end of a path all three have a value, which they reach through containers that join. The
outer two are both objects or both arrays there, and the middle one is of another kind. -/
def InterruptedAt (a b c : Value) (path : Path) : Prop :=
  ∃ u v w, a.at? path = some u ∧ b.at? path = some v ∧ c.at? path = some w ∧
    JoinedAlong a b path ∧ JoinedAlong b c path ∧ u.joins w = true ∧ v.kind ≠ u.kind

/-- The middle one of three values interrupts the outer two nowhere. -/
def Groupable (a b c : Value) : Prop := ∀ path, ¬ InterruptedAt a b c path

variable {a b c x y z : Value} {step : PathStep} {path : Path}

private theorem joinedAlong_nil (a b : Value) : JoinedAlong a b [] := by
  intro start hstart hne
  exact absurd (List.prefix_nil.mp hstart) hne

theorem joins_iff_kind (h : a.joins c = true) : a.joins b = true ↔ b.kind = a.kind := by
  rcases joins_eq_true h with ⟨fields, fields', rfl, rfl⟩ | ⟨items, items', rfl, rfl⟩
  · cases b <;> simp [joins, kind]
  · cases b <;> simp [joins, kind]

private theorem interruptedAt_nil_iff :
    InterruptedAt a b c [] ↔ a.joins c = true ∧ a.joins b = false := by
  constructor
  · intro h
    obtain ⟨u, v, w, ⟨⟩, ⟨⟩, ⟨⟩, -, -, hjoins, hkind⟩ := h
    refine ⟨hjoins, ?_⟩
    rw [← Bool.not_eq_true, joins_iff_kind hjoins]
    exact hkind
  · intro h
    obtain ⟨hjoins, hkind⟩ := h
    rw [← Bool.not_eq_true, joins_iff_kind hjoins] at hkind
    exact ⟨a, b, c, rfl, rfl, rfl, joinedAlong_nil a b, joinedAlong_nil b c, hjoins, hkind⟩

private theorem interruptedAt_cons_iff (hab : a.joins b = true) (hbc : b.joins c = true)
    (hx : a.step? step = some x) (hy : b.step? step = some y) (hz : c.step? step = some z) :
    InterruptedAt a b c (step :: path) ↔ InterruptedAt x y z path := by
  simp only [InterruptedAt, at?_cons, hx, hy, hz, Option.bind_some, joinedAlong_cons hab hx hy,
    joinedAlong_cons hbc hy hz]

private theorem groupable_iff :
    Groupable a b c ↔ (a.joins c = true → a.joins b = true) ∧
      (a.joins b = true → b.joins c = true → ∀ step x y z, a.step? step = some x →
        b.step? step = some y → c.step? step = some z → Groupable x y z) := by
  constructor
  · intro h
    constructor
    · intro hac
      rw [← Bool.not_eq_false]
      intro hab
      exact h [] (interruptedAt_nil_iff.mpr ⟨hac, hab⟩)
    · intro hab hbc step x y z hx hy hz path hinterrupted
      exact h (step :: path) ((interruptedAt_cons_iff hab hbc hx hy hz).mpr hinterrupted)
  · intro h path hinterrupted
    cases path with
    | nil =>
      obtain ⟨hac, hab⟩ := interruptedAt_nil_iff.mp hinterrupted
      rw [h.1 hac] at hab
      cases hab
    | cons step path =>
      have hplaces := hinterrupted
      obtain ⟨u, v, w, hu, hv, hw, hjoined, hjoined', -⟩ := hplaces
      cases hab : a.joins b with
      | false => exact not_joinedAlong hab hjoined
      | true =>
        cases hbc : b.joins c with
        | false => exact not_joinedAlong hbc hjoined'
        | true =>
          rw [at?_cons] at hu hv hw
          obtain ⟨x, hx, -⟩ := Option.bind_eq_some_iff.mp hu
          obtain ⟨y, hy, -⟩ := Option.bind_eq_some_iff.mp hv
          obtain ⟨z, hz, -⟩ := Option.bind_eq_some_iff.mp hw
          exact h.2 hab hbc step x y z hx hy hz path
            ((interruptedAt_cons_iff hab hbc hx hy hz).mp hinterrupted)

/-- Overlays of ordered values can be regrouped as long as the middle one interrupts nowhere. -/
theorem Ordered.overlay_assoc (ha : a.Ordered) (hb : b.Ordered) (hc : c.Ordered)
    (h : Groupable a b c) : (a.overlay b).overlay c = a.overlay (b.overlay c) := by
  induction a using stepInduction generalizing b c with
  | value a ih =>
    cases hab : a.joins b with
    | false =>
      -- The base is gone, and it must not come back where the middle one is put under the last.
      cases hbc : b.joins c with
      | false =>
        have hac : a.joins c = false := by
          rw [← Bool.not_eq_true]
          intro hac
          rw [(groupable_iff.mp h).1 hac] at hab
          cases hab
        rw [overlay_of_not_joins hab, overlay_of_not_joins hbc, overlay_of_not_joins hac]
      | true =>
        have hright : a.joins (b.overlay c) = false := by
          rw [joins_overlay_right hbc, joins_comm, ← joins_congr hbc, joins_comm]
          exact hab
        rw [overlay_of_not_joins hab, overlay_of_not_joins hright]
    | true =>
      cases hbc : b.joins c with
      | false =>
        have hleft : (a.overlay b).joins c = false := (joins_overlay hab c).trans hbc
        have hac : a.joins c = false := (joins_congr hab c).trans hbc
        rw [overlay_of_not_joins hleft, overlay_of_not_joins hbc, overlay_of_not_joins hac]
      | true =>
        have hleft : (a.overlay b).joins c = true := (joins_overlay hab c).trans hbc
        have hright : a.joins (b.overlay c) = true := by
          rw [joins_overlay_right hbc, joins_congr hab]
          exact hbc
        -- All three join. A step that leads somewhere in all of them leads to a smaller case.
        apply ((ha.overlay hb).overlay hc).eq_of_step?_eq (ha.overlay (hb.overlay hc))
        · rw [joins_overlay hleft, joins_comm, joins_overlay hright, joins_overlay hbc,
            ← joins_congr hbc]
          exact hbc
        · intro step
          rw [step?_overlay hleft, step?_overlay hab, step?_overlay hright, step?_overlay hbc]
          cases hx : a.step? step with
          | none => cases b.step? step <;> cases c.step? step <;> rfl
          | some x =>
            cases hy : b.step? step with
            | none => cases c.step? step <;> rfl
            | some y =>
              cases hz : c.step? step with
              | none => rfl
              | some z =>
                exact congrArg some (ih step x hx (ha.of_step? hx) (hb.of_step? hy)
                  (hc.of_step? hz) ((groupable_iff.mp h).2 hab hbc step x y z hx hy hz))

end Value

def Tree.Groupable (a b c : Tree) : Prop := Value.Groupable a.toValue b.toValue c.toValue

private theorem Tree.overlayAll_append {layers : List Tree} (h : layers ≠ []) (more : List Tree) :
    overlayAll (layers ++ more) = more.foldl overlay (overlayAll layers) := by
  cases layers with
  | nil => exact absurd rfl h
  | cons first rest => exact List.foldl_append

namespace OrderedTree

variable {a b c : OrderedTree}

theorem overlay_assoc (h : Tree.Groupable a b c) :
    (a.overlay b).overlay c = a.overlay (b.overlay c) :=
  ext_root (OrderedValue.ext (a.ordered.overlay_assoc b.ordered c.ordered h))

private theorem ordered_overlayAll (layers : List OrderedTree) :
    (Tree.overlayAll (layers.map toTree)).Ordered := by
  cases layers with
  | nil => exact empty.ordered
  | cons first rest =>
    rw [List.map_cons, Tree.overlayAll]
    induction rest generalizing first with
    | nil => exact first.ordered
    | cons layer rest ih => exact ih (first.overlay layer)

def overlayAll (layers : List OrderedTree) : OrderedTree := ⟨_, ordered_overlayAll layers⟩

end OrderedTree

namespace Tree

open OrderedTree (road detour)

/-- Two neighbours among some layers can be put together first, if the lower one interrupts neither
the layers below it nor the upper one. -/
theorem overlay_regrouped :
    (∀ a b c : OrderedTree, Groupable a b c →
      (a.overlay b).overlay c = a.overlay (b.overlay c)) ∧
    ∀ (below : List OrderedTree) (b c : OrderedTree) (above : List Tree), below ≠ [] →
      Groupable (OrderedTree.overlayAll below) b c →
        let layers := below.map OrderedTree.toTree
        overlayAll (layers ++ [b.toTree, c.toTree] ++ above) =
          overlayAll (layers ++ [b.toTree.overlay c] ++ above) := by
  refine ⟨fun a b c h => OrderedTree.overlay_assoc h, ?_⟩
  intro below b c above hbelow h layers
  have hlayers : layers ≠ [] := by simpa [layers] using hbelow
  have hassoc : ((overlayAll layers).overlay b).overlay c =
      (overlayAll layers).overlay (b.toTree.overlay c) :=
    congrArg OrderedTree.toTree (OrderedTree.overlay_assoc h)
  rw [List.append_assoc, List.append_assoc, overlayAll_append hlayers, overlayAll_append hlayers]
  simp only [List.cons_append, List.nil_append, List.foldl_cons, hassoc]

/-- Another override for roads. It shares its label with the detour, and fields of the line with
the road. -/
def sign : OrderedTree where
  fields := [
    ("label", .string "detour"),
    ("line", .object [("width", .number .one)])]
  ordered := by decide

private theorem groupable_sign : Groupable road detour sign := by
  apply Value.groupable_iff.mpr
  refine ⟨fun _ => rfl, ?_⟩
  intro _ _ step x y z hx hy hz
  apply Value.groupable_iff.mpr
  cases step with
  | index n => cases hx
  | field name =>
    have hname : name = "label" ∨ name = "line" := by
      simpa [detour] using List.mem_map_of_mem (f := Prod.fst) (Table.mem_of_get? hy)
    rcases hname with rfl | rfl
    · cases hx
      cases hy
      cases hz
      refine ⟨fun h => ?_, fun h => ?_⟩ <;> cases h
    · cases hx
      cases hy
      cases hz
      refine ⟨fun _ => rfl, ?_⟩
      intro _ _ step x y z _ hy hz
      cases step with
      | index n => cases hy
      | field name =>
        have hname : name = "color" ∨ name = "dash" := by
          simpa using List.mem_map_of_mem (f := Prod.fst) (Table.mem_of_get? hy)
        have hother : name = "width" := by
          simpa using List.mem_map_of_mem (f := Prod.fst) (Table.mem_of_get? hz)
        rw [hother] at hname
        exact absurd hname (by decide)

theorem overlay_regrouped_sign :
    Groupable road detour sign ∧
      (road.overlay detour).overlay sign = road.overlay (detour.overlay sign) ∧
      overlayAll [road, detour, sign, road] = overlayAll [road, detour.overlay sign, road] :=
  ⟨groupable_sign, overlay_regrouped.1 road detour sign groupable_sign,
    overlay_regrouped.2 [road] detour sign [road.toTree] (List.cons_ne_nil _ _) groupable_sign⟩

/-- A number between two objects makes a difference: laid over the first one, it replaces the field
that the last one would have left as it is. -/
example :
    let a : Tree := ⟨[("k", .object [("x", .null)])]⟩
    let b : Tree := ⟨[("k", .number .one)]⟩
    let c : Tree := ⟨[("k", .object [])]⟩
    ((a.overlay b).overlay c).toValue.at? [.field "k", .field "x"] = none ∧
      (a.overlay (b.overlay c)).toValue.at? [.field "k", .field "x"] = some .null := ⟨rfl, rfl⟩

end Tree
end FeatureStyle
