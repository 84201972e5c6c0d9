import FeatureStyle.Layer.Overlay
import FeatureStyle.Proofs.Entries

/-!
# Overlays along paths

What stands at a place of an overlay depends on what base and override have there and on the way
to it. The main statement is `pathwise_overlay`: a place that both reach through containers that
join has the overlay of the two values, any other place that the override reaches has the override's
value, and the base shows through where the override ends in a container that joins.
-/

namespace FeatureStyle

namespace Fields

variable {α : Type}

private theorem get?_addMissing (fields more : Fields α) (key : String) :
    (fields.addMissing more).get? key = (fields.get? key).or (more.get? key) := by
  rw [addMissing]
  induction more generalizing fields with
  | nil => simp
  | cons entry more ih =>
    obtain ⟨name, value⟩ := entry
    rw [List.foldl_cons, ih, get?_cons]
    cases hname : fields.get? name with
    | some known =>
      have hcontains : fields.contains name = true := by rw [contains, hname]; rfl
      rw [if_pos hcontains]
      by_cases hkey : name = key
      · rw [← hkey, hname, Option.some_or, Option.some_or]
      · rw [if_neg hkey]
    | none =>
      have hlacks : ¬ fields.contains name = true := by simp [contains, hname]
      rw [if_neg hlacks, get?_insert]
      by_cases hkey : name = key
      · rw [if_pos hkey, if_pos hkey, ← hkey, hname, Option.some_or, Option.none_or]
      · rw [if_neg hkey, if_neg hkey]

end Fields

namespace Value

/-- Whether two values are laid over each other part by part: two objects, or two arrays. -/
def joins : Value → Value → Bool
  | object _, object _ | array _, array _ => true
  | _, _ => false

theorem joins_eq_true {b u : Value} (h : b.joins u = true) :
    (∃ base upper, b = object base ∧ u = object upper) ∨
      ∃ base upper, b = array base ∧ u = array upper := by
  cases b with
  | object base =>
    cases u with
    | object upper => exact .inl ⟨base, upper, rfl, rfl⟩
    | _ => cases h
  | array base =>
    cases u with
    | array upper => exact .inr ⟨base, upper, rfl, rfl⟩
    | _ => cases h
  | _ => cases h

theorem overlay_of_not_joins {b u : Value} (h : b.joins u = false) : b.overlay u = u := by
  cases b with
  | object base =>
    cases u with
    | object upper => cases h
    | _ => rfl
  | array base =>
    cases u with
    | array upper => cases h
    | _ => rfl
  | _ => rfl

private theorem eq_of_overlay_eq_expression {b u : Value} {e : Expression Value}
    (h : b.overlay u = expression e) : u = expression e := by
  cases hjoins : b.joins u with
  | false => rwa [overlay_of_not_joins hjoins] at h
  | true =>
    rcases joins_eq_true hjoins with ⟨base, upper, rfl, rfl⟩ | ⟨base, upper, rfl, rfl⟩
    · cases h
    · cases h

private theorem get?_overlayFields (base upper : Fields Value) (key : String) :
    Fields.get? (overlayFields base upper) key =
      (base.get? key).map fun b => ((upper.get? key).map (overlay b)).getD b := by
  induction base with
  | nil => rfl
  | cons entry base ih =>
    obtain ⟨name, b⟩ := entry
    rw [overlayFields, Fields.get?_cons, Fields.get?_cons, ih]
    by_cases hkey : name = key
    · subst hkey
      simp only [↓reduceIte, Option.map_some, Option.some.injEq]
      cases Fields.get? upper name <;> rfl
    · rw [if_neg hkey, if_neg hkey]

private theorem getElem?_overlayItems (base upper : List Value) (n : Nat) :
    (overlayItems base upper)[n]? = Option.merge overlay base[n]? upper[n]? := by
  induction base generalizing upper n with
  | nil => cases h : upper[n]? <;> simp [overlayItems, h]
  | cons b base ih =>
    cases upper with
    | nil => cases h : (b :: base)[n]? <;> simp [overlayItems, h]
    | cons u upper =>
      cases n with
      | zero => rfl
      | succ n => exact ih upper n

private theorem length_overlayItems (base upper : List Value) :
    (overlayItems base upper).length = max base.length upper.length := by
  induction base generalizing upper with
  | nil => simp [overlayItems]
  | cons b base ih =>
    cases upper with
    | nil => simp [overlayItems]
    | cons u upper =>
      rw [overlayItems, List.length_cons, List.length_cons, List.length_cons, ih]
      omega

theorem step?_overlay {base upper : Value} (h : base.joins upper = true) (step : PathStep) :
    (base.overlay upper).step? step =
      Option.merge overlay (base.step? step) (upper.step? step) := by
  rcases joins_eq_true h with ⟨base, upper, rfl, rfl⟩ | ⟨base, upper, rfl, rfl⟩
  · cases step with
    | field name =>
      simp only [overlay, step?, Fields.get?_addMissing, get?_overlayFields]
      cases Fields.get? base name <;> cases Fields.get? upper name <;> rfl
    | index n => rfl
  · cases step with
    | field name => rfl
    | index n => exact getElem?_overlayItems base upper n

/-- On the way along a path, short of its end, base and override both have a value, and the two
join. -/
def JoinedAlong (base upper : Value) (path : Path) : Prop :=
  ∀ start, start <+: path → start ≠ path →
    ∃ b u, base.at? start = some b ∧ upper.at? start = some u ∧ b.joins u = true

/-- On the way along a path, short of its end, every value of the override joins the base's. -/
def KeptAlong (base upper : Value) (path : Path) : Prop :=
  ∀ start, start <+: path → start ≠ path → ∀ u, upper.at? start = some u →
    ∃ b, base.at? start = some b ∧ b.joins u = true

/-- What an overlay has to have at the end of a path: the overlay of what both have there if they
are joined on the way, else what the override has, and where that ends, what the base has if it is
kept on the way. -/
structure LaidAt (base upper : Value) (path : Path) (result : Option Value) : Prop where
  joined : ∀ b u, base.at? path = some b → upper.at? path = some u →
    JoinedAlong base upper path → result = some (b.overlay u)
  replaced : ∀ u, upper.at? path = some u →
    base.at? path = none ∨ ¬ JoinedAlong base upper path → result = some u
  kept : ∀ b, base.at? path = some b → upper.at? path = none →
    KeptAlong base upper path → result = some b
  absent : upper.at? path = none →
    base.at? path = none ∨ ¬ KeptAlong base upper path → result = none

private theorem forall_start_cons {step : PathStep} {path : Path} {P : Path → Prop} :
    (∀ start, start <+: step :: path → start ≠ step :: path → P start) ↔
      P [] ∧ ∀ start, start <+: path → start ≠ path → P (step :: start) := by
  constructor
  · intro h
    refine ⟨h [] List.nil_prefix (by simp), ?_⟩
    intro start hstart hne
    exact h (step :: start) (List.cons_prefix_cons.mpr ⟨rfl, hstart⟩) (by simpa using hne)
  · intro h start hstart hne
    cases start with
    | nil => exact h.1
    | cons first start =>
      have hsplit := List.cons_prefix_cons.mp hstart
      rw [hsplit.1] at hne ⊢
      exact h.2 start hsplit.2 (by simpa using hne)

variable {base upper b u : Value} {step : PathStep} {path : Path}

theorem not_joinedAlong (h : base.joins upper = false) :
    ¬ JoinedAlong base upper (step :: path) := by
  intro hjoined
  obtain ⟨b, u, ⟨⟩, ⟨⟩, hjoins⟩ := (forall_start_cons.mp hjoined).1
  rw [h] at hjoins
  cases hjoins

private theorem not_keptAlong (h : base.joins upper = false) :
    ¬ KeptAlong base upper (step :: path) := by
  intro hkept
  obtain ⟨b, ⟨⟩, hjoins⟩ := (forall_start_cons.mp hkept).1 upper rfl
  rw [h] at hjoins
  cases hjoins

theorem joinedAlong_cons (h : base.joins upper = true) (hb : base.step? step = some b)
    (hu : upper.step? step = some u) :
    JoinedAlong base upper (step :: path) ↔ JoinedAlong b u path := by
  rw [JoinedAlong, forall_start_cons]
  simp only [at?_cons, hb, hu, Option.bind_some]
  exact and_iff_right ⟨base, upper, rfl, rfl, h⟩

private theorem keptAlong_cons (h : base.joins upper = true) (hb : base.step? step = some b)
    (hu : upper.step? step = some u) :
    KeptAlong base upper (step :: path) ↔ KeptAlong b u path := by
  rw [KeptAlong, forall_start_cons]
  simp only [at?_cons, hb, hu, Option.bind_some]
  refine and_iff_right ?_
  intro u hroot
  cases hroot
  exact ⟨base, rfl, h⟩

private theorem keptAlong_of_ends (h : base.joins upper = true) (hu : upper.step? step = none) :
    KeptAlong base upper (step :: path) := by
  rw [KeptAlong, forall_start_cons]
  simp only [at?_cons, hu, Option.bind_none]
  constructor
  · intro u hroot
    cases hroot
    exact ⟨base, rfl, h⟩
  · intro start _ _ u hnone
    cases hnone

private theorem laidAt_upper
    (h : base.at? path = none ∨ ¬ JoinedAlong base upper path ∧ ¬ KeptAlong base upper path) :
    LaidAt base upper path (upper.at? path) where
  joined b u hb hu hjoined := by
    rcases h with hnone | hapart
    · rw [hnone] at hb
      cases hb
    · exact absurd hjoined hapart.1
  replaced u hu _ := hu
  kept b hb hu hkept := by
    rcases h with hnone | hapart
    · rw [hnone] at hb
      cases hb
    · exact absurd hkept hapart.2
  absent hu _ := hu

private theorem laidAt_base (hu : upper.at? path = none) (hkept : KeptAlong base upper path) :
    LaidAt base upper path (base.at? path) where
  joined b u _ hreached := by
    rw [hu] at hreached
    cases hreached
  replaced u hreached := by
    rw [hu] at hreached
    cases hreached
  kept b hb _ _ := hb
  absent _ h := h.resolve_right fun hnot => hnot hkept

private theorem LaidAt.cons {result : Option Value} (h : base.joins upper = true)
    (hb : base.step? step = some b) (hu : upper.step? step = some u)
    (hlaid : LaidAt b u path result) : LaidAt base upper (step :: path) result := by
  constructor
  all_goals
    simp only [at?_cons, hb, hu, Option.bind_some, joinedAlong_cons h hb hu,
      keptAlong_cons h hb hu]
  · exact hlaid.joined
  · exact hlaid.replaced
  · exact hlaid.kept
  · exact hlaid.absent

/-- The law of overlays at every path, by induction on the path: as long as the two join, one step
leads to the overlay of what they have there. -/
theorem laidAt_overlay (base upper : Value) (path : Path) :
    LaidAt base upper path ((base.overlay upper).at? path) := by
  induction path generalizing base upper with
  | nil =>
    constructor
    · intro b u hb hu _
      cases hb
      cases hu
      rfl
    · intro u hu hapart
      rcases hapart with hnone | hapart
      · cases hnone
      · refine absurd ?_ hapart
        intro start hstart hne
        exact absurd (List.prefix_nil.mp hstart) hne
    · intro b _ hnone
      cases hnone
    · intro hnone
      cases hnone
  | cons step path ih =>
    cases hjoins : base.joins upper with
    | false =>
      rw [overlay_of_not_joins hjoins]
      exact laidAt_upper (.inr ⟨not_joinedAlong hjoins, not_keptAlong hjoins⟩)
    | true =>
      rw [at?_cons, step?_overlay hjoins]
      cases hb : base.step? step with
      | none =>
        have hnone : base.at? (step :: path) = none := by rw [at?_cons, hb, Option.bind_none]
        have hupper : LaidAt base upper (step :: path) (upper.at? (step :: path)) :=
          laidAt_upper (.inl hnone)
        rw [at?_cons] at hupper
        cases hu : upper.step? step <;> rwa [hu] at hupper
      | some b =>
        cases hu : upper.step? step with
        | none =>
          have hnone : upper.at? (step :: path) = none := by rw [at?_cons, hu, Option.bind_none]
          have hbase := laidAt_base hnone (keptAlong_of_ends hjoins hu)
          rwa [at?_cons, hb] at hbase
        | some u => exact (ih b u).cons hjoins hb hu

theorem LaidAt.expression {e : Expression Value}
    (h : LaidAt base upper path (some (.expression e))) :
    base.at? path = some (.expression e) ∨ upper.at? path = some (.expression e) := by
  cases hu : upper.at? path with
  | none =>
    cases hb : base.at? path with
    | none => cases h.absent hu (.inl hb)
    | some b =>
      by_cases hkept : KeptAlong base upper path
      · exact .inl (h.kept b hb hu hkept).symm
      · cases h.absent hu (.inr hkept)
  | some u =>
    refine .inr ?_
    cases hb : base.at? path with
    | none => exact (h.replaced u hu (.inl hb)).symm
    | some b =>
      by_cases hjoined : JoinedAlong base upper path
      · have hoverlay := Option.some.inj (h.joined b u hb hu hjoined)
        rw [eq_of_overlay_eq_expression hoverlay.symm]
      · exact (h.replaced u hu (.inr hjoined)).symm

/-- Overlays of values and of trees obey the law at every path. Two values that do not join give
the override's, two arrays give one as long as the longer of them, and an expression is taken or
replaced whole. -/
theorem pathwise_overlay :
    (∀ (base upper : Value) (path : Path),
      LaidAt base upper path ((base.overlay upper).at? path)) ∧
    (∀ (base upper : Tree) (path : Path),
      LaidAt base.toValue upper.toValue path ((base.overlay upper).toValue.at? path)) ∧
    (∀ b u : Value, b.joins u = false → b.overlay u = u) ∧
    (∀ b u : List Value, ∃ items, (array b).overlay (array u) = array items ∧
      items.length = max b.length u.length) ∧
    (∀ (e : Expression Value) (v : Value),
      (expression e).overlay v = v ∧ v.overlay (expression e) = expression e) ∧
    ∀ (base upper : Value) (path : Path) (e : Expression Value),
      (base.overlay upper).at? path = some (expression e) →
        base.at? path = some (expression e) ∨ upper.at? path = some (expression e) := by
  refine ⟨laidAt_overlay, ?_, fun _ _ => overlay_of_not_joins, ?_, ?_, ?_⟩
  · intro base upper path
    have hroot : (base.overlay upper).toValue = base.toValue.overlay upper.toValue := rfl
    rw [hroot]
    exact laidAt_overlay base.toValue upper.toValue path
  · intro b u
    exact ⟨overlayItems b u, rfl, length_overlayItems b u⟩
  · intro e v
    have hleft : joins (expression e) v = false := rfl
    have hright : v.joins (expression e) = false := by cases v <;> rfl
    exact ⟨overlay_of_not_joins hleft, overlay_of_not_joins hright⟩
  · intro base upper path e hexpression
    have hlaid := laidAt_overlay base upper path
    rw [hexpression] at hlaid
    exact hlaid.expression

/-- An item that only the base has shows through an array that joins. -/
example : ((object [("c", array [number .one, bool true])]).overlay
      (object [("c", array [string "x"])])).at? [.field "c", .index 1] = some (bool true) := rfl

end Value
end FeatureStyle
