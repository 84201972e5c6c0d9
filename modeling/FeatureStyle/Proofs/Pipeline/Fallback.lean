import FeatureStyle.Proofs.Layer.Plain
import FeatureStyle.Proofs.Pipeline.Stateless

/-!
# What a degraded feature shows

A degraded feature shows what its layer is reduced to. The override and the feature decide whether it
is degraded, and the override how deep its tree is said to be, but neither of them can be seen in its
values. The main statement is `degraded_depends_on_layer`.
-/

namespace FeatureStyle

/-- Two bags show the same values: they have equal static fields, and under the same names bindings
that sample equal values, each for the feature of its bag. -/
structure Bag.SameValues {σ τ : Type} (sampler : FeatureId → String → Value → σ)
    (sampler' : FeatureId → String → Value → τ) (a : Bag σ) (b : Bag τ) : Prop where
  static : a.fields = b.fields
  dynamic : ∀ field, (a.binding? field = none ∧ b.binding? field = none) ∨ ∃ value x y,
    a.binding? field = some x ∧ b.binding? field = some y ∧
      x.sampler = sampler a.feature field value ∧ y.sampler = sampler' b.feature field value

theorem Bag.Presents.sameValues {σ τ : Type} {sampler : FeatureId → String → Value → σ}
    {sampler' : FeatureId → String → Value → τ} {o o' : Outcome} {feature feature' : Feature}
    {a : Bag σ} {b : Bag τ} (ha : a.Presents sampler o feature)
    (hb : b.Presents sampler' o' feature') (h : o.fields = o'.fields) :
    a.SameValues sampler sampler' b where
  static := by rw [ha.fields_eq, hb.fields_eq, Outcome.static, Outcome.static, h]
  dynamic field := by
    cases hget : Fields.get? o.fields field with
    | none => exact .inl ⟨(ha.shows.unset field hget).2, (hb.shows.unset field (h ▸ hget)).2⟩
    | some value =>
      cases htimed : value.isTimed with
      | false =>
        exact .inl ⟨(ha.shows.static field value hget htimed).2,
          (hb.shows.static field value (h ▸ hget) htimed).2⟩
      | true =>
        obtain ⟨-, x, hx, hsampler⟩ := ha.shows.timed field value hget htimed
        obtain ⟨-, y, hy, hsampler'⟩ := hb.shows.timed field value (h ▸ hget) htimed
        exact .inr ⟨value, x, y, hx, hy, hsampler, hsampler'⟩

namespace Pipeline

/-- A pipeline without a store, whatever it was used for before and whatever is in the registry,
gives a bag for a feature, and the layer with the override laid over it is deeper than the limit. -/
structure Degrades {κ σ : Type} [KeySupply κ] (p : Pipeline σ) (r : Registry κ σ)
    (layer : OrderedTree) (limit : Nat) (upper : Option OrderedTree) (feature : Feature)
    (bag : Bag σ) : Prop where
  arises : Arises κ p
  capacity : p.settings.capacity = 0
  depthLimit : p.settings.depthLimit = limit
  deep : limit < (layer.layered upper).depth
  given : ∃ call features bags, call.request? = some (layer, upper, features) ∧
    (p.perform r call).result = .ok bags ∧ (feature, bag) ∈ features.zip bags

private theorem Degrades.presents {κ σ : Type} [KeySupply κ] {p : Pipeline σ} {r : Registry κ σ}
    {layer : OrderedTree} {limit : Nat} {upper : Option OrderedTree} {feature : Feature} {bag : Bag σ}
    (h : p.Degrades r layer limit upper feature bag) :
    bag.Presents p.sampler
      ⟨layer.fallback limit, [.degraded (layer.layered upper).depth limit]⟩ feature := by
  obtain ⟨call, features, bags, hrequest, hok, hmem⟩ := h.given
  have hbag := List.forall₂_zip (h.arises.presents h.capacity hrequest hok) hmem
  rwa [h.depthLimit, Outcome.of_degraded h.deep] at hbag

/-- Under a limit on the depth there is one list of fields that a layer is reduced to. A bag degraded
under that limit warns of the depth and nothing else, and shows these fields; so any two of them show
the same values, whatever the overrides and features are. Distinct features get their bags, unless
there is no key for one of these fields that depends on time. -/
theorem degraded_depends_on_layer (layer : OrderedTree) (limit : Nat) :
    ∃ fields, layer.ReducesTo limit fields ∧
      (∀ {κ σ : Type} [KeySupply κ] {p : Pipeline σ} {r : Registry κ σ}
        {upper : Option OrderedTree} {feature : Feature} {bag : Bag σ},
        p.Degrades r layer limit upper feature bag →
          bag.feature = feature.id ∧
            bag.warnings = [.degraded (layer.layered upper).depth limit] ∧
            bag.Shows p.sampler fields) ∧
      (∀ {κ κ' σ τ : Type} [KeySupply κ] [KeySupply κ'] {p : Pipeline σ} {p' : Pipeline τ}
        {r : Registry κ σ} {r' : Registry κ' τ} {upper upper' : Option OrderedTree}
        {feature feature' : Feature} {bag : Bag σ} {bag' : Bag τ},
        p.Degrades r layer limit upper feature bag →
          p'.Degrades r' layer limit upper' feature' bag' →
            bag.SameValues p.sampler p'.sampler bag') ∧
      ∀ {κ σ : Type} [KeySupply κ] {p : Pipeline σ}, Arises κ p → p.settings.capacity = 0 →
        p.settings.depthLimit = limit → ∀ (r : Registry κ σ) (call : Call)
          (upper : Option OrderedTree) (features : List Feature),
          call.request? = some (layer, upper, features) →
          limit < (layer.layered upper).depth → (features.map Feature.id).Nodup →
          (∀ feature ∈ features, p.Fits r feature.id) →
            (∃ bags, (p.perform r call).result = .ok bags ∧ features.length = bags.length) ∨
              (p.perform r call).result = .error .noFreeKey ∧
                ∃ entry ∈ fields, entry.2.isTimed = true := by
  refine ⟨layer.fallback limit, Tree.reduces_fallback layer limit, ?_, ?_, ?_⟩
  · intro κ σ _ p r upper feature bag h
    have hbag := h.presents
    exact ⟨hbag.feature_eq, hbag.warnings_eq, hbag.shows⟩
  · intro κ κ' σ τ _ _ p p' r r' upper upper' feature feature' bag bag' h h'
    exact h.presents.sameValues h'.presents rfl
  · intro κ σ _ p h hcapacity hlimit r call upper features hrequest hdeep hnodup hfits
    have hresult := resolveEach_result h.clean hnodup hfits layer (layer.layered upper)
    rw [hlimit, ← perform_result hrequest hnodup] at hresult
    rcases hresult with ⟨bags, hok⟩ | ⟨herror, feature, -, entry, hentry, htimed⟩
    · exact .inl ⟨bags, hok, (h.presents hcapacity hrequest hok).length_eq⟩
    · rw [Outcome.of_degraded hdeep] at hentry
      exact .inr ⟨herror, entry, hentry, htimed⟩

/-- A layer with a scalar, an expression at each kind of place, and a field that depends on time. -/
def signpost : OrderedTree where
  fields := [
    ("arms", .array [.string "north", .expression (.constant (.string "east"))]),
    ("label", .expression (.conditions [⟨"true", "A1"⟩])),
    ("light", .timed),
    ("pole", .object [("color", .expression (.constant (.string "red"))), ("width", .number .one)]),
    ("rank", .number .one)]
  ordered := by decide

def steep (name : String) : OrderedTree where
  fields := [(name, .object [(name, .object [])])]
  ordered := by simp [Tree.Ordered, Tree.toValue, Value.ordered_object_iff, Fields.Sorted]

/-- The signpost is degraded alike for two features with different overrides, to what is left of it
without its expressions. Under a lower limit only its scalar is left. -/
theorem signpost_degraded :
    let run (limit : Nat) (name : String) := (reading (some limit) (some 0)).perform soleKey
      (.resolve signpost (some (steep name)) (.ofId ⟨name⟩))
    (∃ high low, (run 2 "high").result = .ok [high] ∧ (run 2 "low").result = .ok [low] ∧
        high.SameValues (reading (some 2) (some 0)).sampler (reading (some 2) (some 0)).sampler low ∧
        high.get? "arms" = some (.array [.string "north", .null]) ∧ high.get? "label" = none ∧
        high.get? "pole" = some (.object [("width", .number .one)])) ∧
      ∃ bag, (run 1 "high").result = .ok [bag] ∧ bag.warnings = [.degraded 3 1] ∧
        bag.get? "rank" = some (.number .one) ∧ bag.get? "arms" = none := by
  intro run
  have hdegrades : ∀ (limit : Nat) (name : String) {bag}, max 1 limit = limit →
      limit < (layered signpost (some (steep name))).depth → (run limit name).result = .ok [bag] →
        (reading (some limit) (some 0)).Degrades soleKey signpost limit (some (steep name))
          (.ofId ⟨name⟩) bag :=
    fun _ _ _ hlimit hdeep hok =>
      ⟨.empty _ _ _, rfl, hlimit, hdeep, _, _, _, rfl, hok, List.mem_cons_self⟩
  refine ⟨?_, ?_⟩
  · obtain ⟨fields, -, -, hsame, -⟩ := degraded_depends_on_layer signpost 2
    refine ⟨_, _, rfl, rfl, ?_, rfl, rfl, rfl⟩
    exact hsame (hdegrades 2 "high" rfl (by decide) rfl) (hdegrades 2 "low" rfl (by decide) rfl)
  · obtain ⟨fields, hreduces, hshown, -, hgives⟩ := degraded_depends_on_layer signpost 1
    have hrank := hreduces.scalars (by decide) "rank"
    have harms := hreduces.scalars (by decide) "arms"
    rcases hgives (p := reading (some 1) (some 0)) (.empty _ _ _) rfl rfl soleKey
      (.resolve signpost (some (steep "high")) (.ofId ⟨"high"⟩)) _ _ rfl (by decide) (by decide)
      (by rintro _ _ _ ⟨⟩) with
      ⟨bags, hok, hlength⟩ | ⟨herror, -⟩
    · obtain ⟨bag, rfl⟩ := List.length_eq_one_iff.mp hlength.symm
      obtain ⟨-, hwarnings, hshows⟩ := hshown (hdegrades 1 "high" rfl (by decide) hok)
      exact ⟨bag, hok, hwarnings, (hshows.static "rank" _ hrank rfl).1, (hshows.unset "arms" harms).1⟩
    · cases herror

end Pipeline
end FeatureStyle
