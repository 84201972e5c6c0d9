import FeatureStyle.Proofs.Pipeline.Renewal
import FeatureStyle.Proofs.Pipeline.Call

/-!
# Confinement

Whatever a pipeline does, and even if it fails, it touches no binding of the registry but those whose
keys it remembers, and it remembers no further keys than ones that were free. The main statement is
`perform_confined`.
-/

namespace FeatureStyle
namespace Pipeline

variable {κ σ : Type} [KeySupply κ]

/-- The bindings held are listed by feature and by field, and only for features that have some. -/
structure Ordered (p : Pipeline σ) : Prop where
  functional : Table.Functional p.held
  sorted : ∀ feature, (p.heldFields feature).Sorted
  nonempty : ∀ feature, p.held.get? feature ≠ some []

/-- What leads from one state of a pipeline and its registry to the next leaves the bindings of
others alone. -/
structure Confined (p : Pipeline σ) (r : Registry κ σ) (p' : Pipeline σ) (r' : Registry κ σ) :
    Prop where
  settings : p'.settings = p.settings
  sampler : p'.sampler = p.sampler
  ordered : p'.Ordered
  shape : r'.shape = r.shape
  sound : r'.Sound
  frame : ∀ key binding, r.get? key = some binding → ¬ p.Remembers key →
    r'.get? key = some binding ∧ ¬ p'.Remembers key
  admitted : ∀ key, p'.Remembers key → p.Remembers key ∨ r.shape.admits key = true

theorem Confined.refl {p : Pipeline σ} {r : Registry κ σ} (hp : p.Ordered) (hr : r.Sound) :
    Confined p r p r :=
  ⟨rfl, rfl, hp, rfl, hr, fun _ _ hget hnew => ⟨hget, hnew⟩, fun _ h => .inl h⟩

theorem Confined.trans {p p' p'' : Pipeline σ} {r r' r'' : Registry κ σ}
    (h : Confined p r p' r') (h' : Confined p' r' p'' r'') : Confined p r p'' r'' where
  settings := h'.settings.trans h.settings
  sampler := h'.sampler.trans h.sampler
  ordered := h'.ordered
  shape := h'.shape.trans h.shape
  sound := h'.sound
  frame := by
    intro key binding hget hnew
    obtain ⟨hget', hnew'⟩ := h.frame key binding hget hnew
    exact h'.frame key binding hget' hnew'
  admitted := by
    intro key hkey
    rcases h'.admitted key hkey with hkey | hadmits
    · exact h.admitted key hkey
    · rw [h.shape] at hadmits
      exact .inr hadmits

theorem heldFields_of_get? {p : Pipeline σ} {feature : FeatureId} {fields : Fields (Binding σ)}
    (h : p.held.get? feature = some fields) : p.heldFields feature = fields := by
  rw [heldFields, h]
  rfl

private theorem heldFields_eq (p : Pipeline σ) (held : Table FeatureId (Fields (Binding σ)))
    (feature : FeatureId) :
    ({ p with held } : Pipeline σ).heldFields feature = (held.get? feature).getD [] := rfl

theorem heldFields_erase (p : Pipeline σ) (feature other : FeatureId) :
    ({ p with held := p.held.erase feature } : Pipeline σ).heldFields other =
      if feature = other then [] else p.heldFields other := by
  rw [heldFields_eq, Table.get?_erase]
  split <;> rfl

/-- The bindings of a pipeline with those of a feature replaced. -/
def withHeld (p : Pipeline σ) (feature : FeatureId) (fields : Fields (Binding σ)) : Pipeline σ :=
  { p with
    held := if fields.isEmpty then p.held.erase feature
      else (p.held.erase feature).put feature fields }

theorem heldFields_withHeld (p : Pipeline σ) (feature : FeatureId) (fields : Fields (Binding σ))
    (other : FeatureId) :
    (p.withHeld feature fields).heldFields other =
      if feature = other then fields else p.heldFields other := by
  rw [withHeld, heldFields_eq]
  split
  · rename_i hempty
    rw [Table.get?_erase, List.isEmpty_iff.mp hempty]
    split <;> rfl
  · rw [Table.get?_put, Table.get?_erase]
    split <;> rfl

private theorem Ordered.erase {p : Pipeline σ} (h : p.Ordered) (feature : FeatureId) :
    ({ p with held := p.held.erase feature } : Pipeline σ).Ordered where
  functional := Table.functional_erase h.functional feature
  sorted := by
    intro other
    rw [heldFields_erase]
    split
    · exact List.Pairwise.nil
    · exact h.sorted other
  nonempty := by
    intro other hother
    rw [Table.get?_erase] at hother
    split at hother
    · cases hother
    · exact h.nonempty other hother

private theorem Ordered.withHeld {p : Pipeline σ} (h : p.Ordered) (feature : FeatureId)
    {fields : Fields (Binding σ)} (hsorted : fields.Sorted) : (p.withHeld feature fields).Ordered := by
  refine ⟨?_, ?_, ?_⟩
  · rw [Pipeline.withHeld]
    split
    · exact Table.functional_erase h.functional feature
    · exact Table.functional_put (Table.functional_erase h.functional feature) feature fields
  · intro other
    rw [heldFields_withHeld]
    split
    · exact hsorted
    · exact h.sorted other
  · intro other hother
    rw [Pipeline.withHeld] at hother
    split at hother
    · exact (h.erase feature).nonempty other hother
    · rename_i hempty
      rw [Table.get?_put, Table.get?_erase] at hother
      split at hother
      · cases hother
        exact hempty rfl
      · exact h.nonempty other hother

theorem Ordered.with_choices {p : Pipeline σ} (h : p.Ordered) (choices : ChoiceTable) :
    ({ p with choices } : Pipeline σ).Ordered := ⟨h.functional, h.sorted, h.nonempty⟩

def renewal (p : Pipeline σ) (r : Registry κ σ) (feature : FeatureId)
    (dynamic : List (String × Value)) : Except Fault Unit × Renewal κ σ :=
  (⟨r, p.heldFields feature, [], []⟩ : Renewal κ σ).renewEach feature
    (dynamic.map fun entry => (entry.1, p.sampler feature entry.1 entry.2))

def leftover (s : Renewal κ σ) : List Key := s.previous.map fun entry => entry.2.key

variable {p : Pipeline σ} {r : Registry κ σ} {feature : FeatureId}
  {dynamic : List (String × Value)}

theorem renewBindings_eq (p : Pipeline σ) (r : Registry κ σ) (feature : FeatureId)
    (dynamic : List (String × Value)) : p.renewBindings r feature dynamic =
      match p.renewal r feature dynamic with
      | (.error fault, s) =>
        ⟨.error fault, { p with held := p.held.erase feature }, s.registry, s.events⟩
      | (.ok (), s) =>
        match s.registry.unbindEach (leftover s) with
        | (.error fault, r) => ⟨.error fault, { p with held := p.held.erase feature }, r, s.events⟩
        | (.ok (), r) => ⟨.ok s.current, p.withHeld feature s.current, r, s.events⟩ := rfl

omit [KeySupply κ] in
theorem sampled_names (p : Pipeline σ) (feature : FeatureId) (dynamic : List (String × Value)) :
    (dynamic.map fun entry => (entry.1, p.sampler feature entry.1 entry.2)).map Prod.fst =
      dynamic.map Prod.fst := by
  rw [List.map_map]
  rfl

/-- What a renewal of a new field keeps, the renewal of the bindings of a feature keeps. -/
theorem renewal_invariant {P : Renewal κ σ → Prop}
    (hstep : ∀ {s s' : Renewal κ σ} {field : String} {sampler : σ}, P s → s.registry.Sound →
      s.current.get? field = none → s.renew? feature field sampler = some s' → P s')
    (h : P ⟨r, p.heldFields feature, [], []⟩) (hr : r.Sound)
    (hn : (dynamic.map Prod.fst).Nodup) : P (p.renewal r feature dynamic).2 := by
  apply Renewal.renewEach_invariant hstep h hr
  · rw [sampled_names]
    exact hn
  · intro entry _
    rfl

theorem renewBindings_cases (p : Pipeline σ) (r : Registry κ σ) (feature : FeatureId)
    (dynamic : List (String × Value)) :
    ∃ s keys, (p.renewal r feature dynamic).2 = s ∧ keys ⊆ leftover s ∧
      (p.renewBindings r feature dynamic).registry = (s.registry.unbindEach keys).2 ∧
      ((∃ fault, (p.renewBindings r feature dynamic).result = .error fault ∧
          (p.renewBindings r feature dynamic).pipeline =
            { p with held := p.held.erase feature }) ∨
        (p.renewal r feature dynamic).1 = .ok () ∧ keys = leftover s ∧
          (s.registry.unbindEach keys).1 = .ok () ∧
          (p.renewBindings r feature dynamic).result = .ok s.current ∧
          (p.renewBindings r feature dynamic).pipeline = p.withHeld feature s.current) := by
  rw [renewBindings_eq]
  cases hrenewal : p.renewal r feature dynamic with
  | mk result s =>
    cases result with
    | error fault =>
      exact ⟨s, [], rfl, List.nil_subset _, rfl, .inl ⟨fault, rfl, rfl⟩⟩
    | ok _ =>
      refine ⟨s, leftover s, rfl, List.Subset.refl _, ?_⟩
      dsimp only
      cases hremoved : s.registry.unbindEach (leftover s) with
      | mk result registry =>
        cases result with
        | error fault => exact ⟨rfl, .inl ⟨fault, rfl, rfl⟩⟩
        | ok _ => exact ⟨rfl, .inr ⟨rfl, rfl, rfl, rfl, rfl⟩⟩

theorem renewal_extends (hr : r.Sound) (p : Pipeline σ) (feature : FeatureId)
    (dynamic : List (String × Value)) :
    Renewal.Extends ⟨r, p.heldFields feature, [], []⟩ (p.renewal r feature dynamic).2 :=
  Renewal.extends_renewEach hr _

theorem holds_of_mem_leftover {s : Renewal κ σ} (hp : p.Ordered)
    (h : Renewal.Extends ⟨r, p.heldFields feature, [], []⟩ s) {key : Key} (hkey : key ∈ leftover s) :
    ∃ field binding, p.Holds feature field binding ∧ binding.key = key := by
  obtain ⟨⟨field, old⟩, hmem, rfl⟩ := List.mem_map.mp hkey
  have hsorted := h.sorted (hp.sorted feature)
  exact ⟨field, old, h.previous field old ((Fields.get?_eq_some_iff hsorted).mpr hmem), rfl⟩

private theorem renewBindings_confined (hp : p.Ordered) (hr : r.Sound) (feature : FeatureId)
    (dynamic : List (String × Value)) :
    Confined p r (p.renewBindings r feature dynamic).pipeline
      (p.renewBindings r feature dynamic).registry := by
  obtain ⟨s, keys, rfl, hkeys, hregistry, hcase⟩ := renewBindings_cases p r feature dynamic
  have hext := renewal_extends hr p feature dynamic
  have hsorted := Renewal.sorted_renewEach (s := ⟨r, p.heldFields feature, [], []⟩)
    List.Pairwise.nil feature
    (dynamic.map fun entry => (entry.1, p.sampler feature entry.1 entry.2))
  -- The registry keeps every binding whose key is not remembered.
  have hframe : ∀ key binding, r.get? key = some binding → ¬ p.Remembers key →
      (p.renewBindings r feature dynamic).registry.get? key = some binding := by
    intro key binding hget hnew
    have hkept := hext.frame key binding hget fun x old hold hkey =>
      hnew ⟨feature, x, old, hold, hkey⟩
    rw [hregistry]
    rcases Registry.unbindEach_get? _ keys key with heq | ⟨hmem, -⟩
    · rw [heq, hkept]
    · obtain ⟨x, old, hold, hkey⟩ := holds_of_mem_leftover hp hext (hkeys hmem)
      exact absurd ⟨feature, x, old, hold, hkey⟩ hnew
  have hshape : (p.renewBindings r feature dynamic).registry.shape = r.shape := by
    rw [hregistry, (Registry.unbindEach_shape _ keys).1, hext.shape]
  have hsound : (p.renewBindings r feature dynamic).registry.Sound := by
    rw [hregistry]
    exact hext.sound.unbindEach keys
  rcases hcase with ⟨fault, -, hpipeline⟩ | ⟨-, -, -, -, hpipeline⟩
  · have hremembers : ∀ key, (p.renewBindings r feature dynamic).pipeline.Remembers key →
        p.Remembers key := by
      rintro key ⟨other, x, binding, hholds, hkey⟩
      rw [hpipeline, Holds, heldFields_erase] at hholds
      split at hholds
      · cases hholds
      · exact ⟨other, x, binding, hholds, hkey⟩
    refine ⟨by rw [hpipeline], by rw [hpipeline], by rw [hpipeline]; exact hp.erase feature, hshape,
      hsound, ?_, fun key hkey => .inl (hremembers key hkey)⟩
    intro key binding hget hnew
    exact ⟨hframe key binding hget hnew, fun h => hnew (hremembers key h)⟩
  · have hremembers : ∀ key, (p.renewBindings r feature dynamic).pipeline.Remembers key →
        p.Remembers key ∨ r.shape.admits key = true ∧ r.get? key = none := by
      rintro key ⟨other, x, binding, hholds, hkey⟩
      rw [hpipeline, Holds, heldFields_withHeld] at hholds
      split at hholds
      · rcases hext.known x binding hholds with h | ⟨hadmits, ⟨y, old, hold, hold_key⟩ | hfree⟩
        · cases h
        · exact .inl ⟨feature, y, old, hold, hold_key.trans hkey⟩
        · exact .inr (hkey ▸ ⟨hadmits, hfree⟩)
      · exact .inl ⟨other, x, binding, hholds, hkey⟩
    refine ⟨by rw [hpipeline]; rfl, by rw [hpipeline]; rfl,
      by rw [hpipeline]; exact hp.withHeld feature hsorted, hshape, hsound, ?_,
      fun key hkey => (hremembers key hkey).imp_right And.left⟩
    intro key binding hget hnew
    refine ⟨hframe key binding hget hnew, fun h => ?_⟩
    rcases hremembers key h with h | ⟨-, hfree⟩
    · exact hnew h
    · rw [hget] at hfree
      cases hfree

theorem Confined.of_held {p p' : Pipeline σ} (hp : p.Ordered) (hr : r.Sound)
    (hsettings : p'.settings = p.settings) (hsampler : p'.sampler = p.sampler)
    (hheld : p'.held = p.held) : Confined p r p' r := by
  have hfields : ∀ feature, p'.heldFields feature = p.heldFields feature := by
    intro feature
    rw [heldFields, hheld, heldFields]
  have hremembers : ∀ key, p'.Remembers key ↔ p.Remembers key := by
    intro key
    simp only [Remembers, Holds, hfields]
  refine ⟨hsettings, hsampler, ⟨hheld ▸ hp.functional, ?_, hheld ▸ hp.nonempty⟩, rfl, hr, ?_, ?_⟩
  · intro feature
    rw [hfields]
    exact hp.sorted feature
  · intro key binding hget hnew
    exact ⟨hget, fun h => hnew ((hremembers key).mp h)⟩
  · intro key h
    exact .inl ((hremembers key).mp h)

private theorem keep_confined (hp : p.Ordered) (hr : r.Sound) (tree : Tree) (feature : Feature)
    (bag : Bag σ) : Confined p r (p.keep tree feature bag).1 r := by
  rw [keep]
  split
  · exact .of_held hp hr rfl rfl rfl
  · exact .refl hp hr

def renewed (p : Pipeline σ) (r : Registry κ σ) (layer tree : Tree) (feature : Feature) :
    Turn κ σ (Fields (Binding σ)) :=
  ({ p with choices := (p.fieldsOf layer tree feature).2.choices } : Pipeline σ).renewBindings r
    feature.id ((p.fieldsOf layer tree feature).1.filter fun entry => entry.2.isTimed)

def freshBag (p : Pipeline σ) (layer tree : Tree) (feature : Feature)
    (bindings : Fields (Binding σ)) : Bag σ :=
  ⟨feature.id, (p.fieldsOf layer tree feature).1.filter fun entry => !entry.2.isTimed, bindings,
    (p.fieldsOf layer tree feature).2.warnings⟩

variable {layer tree : Tree} {target : Feature}

theorem resolveIn_of_some {bag : Bag σ} (h : p.stored? r tree target = some bag) :
    p.resolveIn r layer tree target = ⟨.ok bag, p, r, [.reused target.id]⟩ := by
  rw [resolveIn, h]

theorem resolveIn_of_none (layer : Tree) (h : p.stored? r tree target = none) :
    (p.resolveIn r layer tree target).registry = (p.renewed r layer tree target).registry ∧
      ((∃ fault, (p.renewed r layer tree target).result = .error fault ∧
          (p.resolveIn r layer tree target).result = .error fault ∧
          (p.resolveIn r layer tree target).pipeline =
            (p.renewed r layer tree target).pipeline) ∨
        ∃ bindings, (p.renewed r layer tree target).result = .ok bindings ∧
          (p.resolveIn r layer tree target).result = .ok (p.freshBag layer tree target bindings) ∧
          (p.resolveIn r layer tree target).pipeline =
            ((p.renewed r layer tree target).pipeline.keep tree target
              (p.freshBag layer tree target bindings)).1) := by
  have hfields : (p.fieldsOf layer tree target).1.partition (fun entry => entry.2.isTimed) =
      ((p.fieldsOf layer tree target).1.filter fun entry => entry.2.isTimed,
        (p.fieldsOf layer tree target).1.filter fun entry => !entry.2.isTimed) := by
    rw [List.partition_eq_filter_filter]
    rfl
  simp only [resolveIn, h, hfields]
  cases hresult : (p.renewed r layer tree target).result with
  | error fault =>
    rw [renewed] at hresult ⊢
    rw [hresult]
    exact ⟨rfl, .inl ⟨fault, rfl, rfl, rfl⟩⟩
  | ok bindings =>
    rw [renewed] at hresult ⊢
    rw [hresult]
    exact ⟨rfl, .inr ⟨bindings, rfl, rfl, rfl⟩⟩

private theorem renewed_confined (hp : p.Ordered) (hr : r.Sound) (layer tree : Tree)
    (target : Feature) :
    Confined p r (p.renewed r layer tree target).pipeline
      (p.renewed r layer tree target).registry := by
  have hchoices : Confined p r { p with choices := (p.fieldsOf layer tree target).2.choices } r :=
    .of_held hp hr rfl rfl rfl
  exact hchoices.trans (renewBindings_confined hchoices.ordered hr target.id _)

theorem resolveIn_confined (hp : p.Ordered) (hr : r.Sound) (layer tree : Tree) (target : Feature) :
    Confined p r (p.resolveIn r layer tree target).pipeline
      (p.resolveIn r layer tree target).registry := by
  cases hstored : p.stored? r tree target with
  | some bag =>
    rw [resolveIn_of_some hstored]
    exact .refl hp hr
  | none =>
    have hrenewed := renewed_confined hp hr layer tree target
    obtain ⟨hregistry, ⟨fault, -, -, hpipeline⟩ | ⟨bindings, -, -, hpipeline⟩⟩ :=
      resolveIn_of_none layer hstored
    · rw [hregistry, hpipeline]
      exact hrenewed
    · rw [hregistry, hpipeline]
      exact hrenewed.trans (keep_confined hrenewed.ordered hrenewed.sound tree target _)

theorem resolveEach_confined (hp : p.Ordered) (hr : r.Sound) (layer tree : Tree)
    (features : List Feature) :
    Confined p r (p.resolveEach r layer tree features).pipeline
      (p.resolveEach r layer tree features).registry := by
  induction features generalizing p r with
  | nil => exact .refl hp hr
  | cons feature features ih =>
    have hfirst := resolveIn_confined hp hr layer tree feature
    simp only [resolveEach]
    split
    · exact hfirst
    · exact hfirst.trans (ih hfirst.ordered hfirst.sound)

/-- Removing some of the keys that a pipeline remembers, and none that it goes on to remember. -/
theorem unbindEach_confined {p p' : Pipeline σ} (hp : p'.Ordered) (hr : r.Sound)
    (hsettings : p'.settings = p.settings) (hsampler : p'.sampler = p.sampler)
    (hheld : ∀ key, p'.Remembers key → p.Remembers key) {keys : List Key}
    (hkeys : ∀ key ∈ keys, p.Remembers key) : Confined p r p' (r.unbindEach keys).2 := by
  refine ⟨hsettings, hsampler, hp, (Registry.unbindEach_shape r keys).1, hr.unbindEach keys, ?_,
    fun key hkey => .inl (hheld key hkey)⟩
  intro key binding hget hnew
  refine ⟨?_, fun h => hnew (hheld key h)⟩
  rcases Registry.unbindEach_get? r keys key with heq | ⟨hmem, -⟩
  · rw [heq, hget]
  · exact absurd (hkeys key hmem) hnew

private theorem remembers_of_mem (hp : p.Ordered) {feature : FeatureId}
    {fields : Fields (Binding σ)}
    (h : (feature, fields) ∈ p.held) {entry : String × Binding σ} (hentry : entry ∈ fields) :
    p.Remembers entry.2.key := by
  have hfields := heldFields_of_get? (Table.get?_of_mem hp.functional h)
  refine ⟨feature, entry.1, entry.2, ?_, rfl⟩
  rw [Holds, Fields.get?_eq_some_iff (hp.sorted feature), hfields]
  exact hentry

private theorem forget_confined (hp : p.Ordered) (hr : r.Sound) (feature : FeatureId) :
    Confined p r (p.forget feature).2 r := .of_held hp hr rfl rfl rfl

private theorem clear_confined (hp : p.Ordered) (hr : r.Sound) : Confined p r p.clear r :=
  .of_held hp hr rfl rfl rfl

theorem mem_keys_iff (hp : p.Ordered) {feature : FeatureId} {key : Key} :
    key ∈ (p.heldFields feature).map (fun entry => entry.2.key) ↔
      ∃ field binding, p.Holds feature field binding ∧ binding.key = key := by
  simp only [Holds, Fields.get?_eq_some_iff (hp.sorted feature), List.mem_map, Prod.exists]

omit [KeySupply κ] in
theorem release_spec (p : Pipeline σ) (r : Registry κ σ) (feature : FeatureId) :
    (p.release r feature).registry =
        (r.unbindEach ((p.heldFields feature).map fun entry => entry.2.key)).2 ∧
      (p.release r feature).result.map (fun _ => ()) =
        (r.unbindEach ((p.heldFields feature).map fun entry => entry.2.key)).1 ∧
      ∃ held, (p.release r feature).pipeline = { (p.forget feature).2 with held } ∧
        (held = p.held ∧ p.held.get? feature = none ∨ held = p.held.erase feature) := by
  simp only [release, heldFields]
  cases hbindings : p.held.get? feature with
  | none => exact ⟨rfl, rfl, p.held, rfl, .inl ⟨rfl, rfl⟩⟩
  | some bindings =>
    refine ⟨rfl, ?_, p.held.erase feature, rfl, .inr rfl⟩
    simp only [Option.getD_some]
    cases (r.unbindEach (bindings.map fun entry => entry.2.key)).1 with
    | error fault => rfl
    | ok _ => rfl

omit [KeySupply κ] in
theorem heldFields_release (p : Pipeline σ) (r : Registry κ σ) (feature other : FeatureId) :
    (p.release r feature).pipeline.heldFields other =
      if feature = other then [] else p.heldFields other := by
  obtain ⟨-, -, held, hpipeline, ⟨rfl, hnone⟩ | rfl⟩ := release_spec p r feature
  · rw [hpipeline]
    split
    · rename_i heq
      rw [← heq, heldFields_eq, hnone]
      rfl
    · rfl
  · rw [hpipeline]
    exact heldFields_erase (p.forget feature).2 feature other

private theorem release_confined (hp : p.Ordered) (hr : r.Sound) (feature : FeatureId) :
    Confined p r (p.release r feature).pipeline (p.release r feature).registry := by
  obtain ⟨hregistry, -, held, hpipeline, hheld⟩ := release_spec p r feature
  have hordered : (p.release r feature).pipeline.Ordered := by
    have hforget := (forget_confined hp hr feature).ordered
    rw [hpipeline]
    rcases hheld with ⟨rfl, -⟩ | rfl
    · exact hforget
    · exact hforget.erase feature
  rw [hregistry]
  apply unbindEach_confined hordered hr (by rw [hpipeline]; rfl) (by rw [hpipeline]; rfl)
  · rintro key ⟨other, field, binding, hholds, hkey⟩
    rw [Holds, heldFields_release] at hholds
    split at hholds
    · cases hholds
    · exact ⟨other, field, binding, hholds, hkey⟩
  · intro key hkey
    obtain ⟨field, binding, hholds, hkey⟩ := (mem_keys_iff hp).mp hkey
    exact ⟨feature, field, binding, hholds, hkey⟩

def allKeys (p : Pipeline σ) : List Key :=
  (p.held.flatMap fun entry => entry.2).map fun entry => entry.2.key

theorem mem_allKeys_iff (hp : p.Ordered) {key : Key} : key ∈ p.allKeys ↔ p.Remembers key := by
  constructor
  · intro hkey
    obtain ⟨entry, hentry, rfl⟩ := List.mem_map.mp hkey
    obtain ⟨⟨feature, fields⟩, hfields, hentry⟩ := List.mem_flatMap.mp hentry
    exact remembers_of_mem hp hfields hentry
  · rintro ⟨feature, field, binding, hholds, rfl⟩
    rw [Holds, Fields.get?_eq_some_iff (hp.sorted feature)] at hholds
    cases hfields : p.held.get? feature with
    | none =>
      rw [heldFields, hfields] at hholds
      cases hholds
    | some fields =>
      rw [heldFields_of_get? hfields] at hholds
      apply List.mem_map_of_mem (f := fun entry => entry.2.key) (a := (field, binding))
      exact List.mem_flatMap.mpr ⟨_, Table.mem_of_get? hfields, hholds⟩

omit [KeySupply κ] in
theorem releaseAll_spec (p : Pipeline σ) (r : Registry κ σ) :
    (p.releaseAll r).registry = (r.unbindEach p.allKeys).2 ∧
      (p.releaseAll r).result.map (fun _ => ()) = (r.unbindEach p.allKeys).1 ∧
      (p.releaseAll r).pipeline.held = [] ∧
      (p.releaseAll r).pipeline.settings = p.settings ∧
      (p.releaseAll r).pipeline.sampler = p.sampler ∧
      ((p.releaseAll r).result.isOk → (p.releaseAll r).pipeline =
        ({ p with held := [] } : Pipeline σ).clear) := by
  have hkeys : ((p.held.flatMap fun entry => entry.2).map fun entry => entry.2.key) = p.allKeys :=
    rfl
  simp only [releaseAll, hkeys]
  cases hremoved : r.unbindEach p.allKeys with
  | mk result registry =>
    cases result with
    | error fault => exact ⟨rfl, rfl, rfl, rfl, rfl, fun hok => nomatch hok⟩
    | ok _ => exact ⟨rfl, rfl, rfl, rfl, rfl, fun _ => rfl⟩

private theorem releaseAll_confined (hp : p.Ordered) (hr : r.Sound) :
    Confined p r (p.releaseAll r).pipeline (p.releaseAll r).registry := by
  obtain ⟨hregistry, -, hheld, hsettings, hsampler, -⟩ := releaseAll_spec p r
  have hfields : ∀ feature, (p.releaseAll r).pipeline.heldFields feature = [] := by
    intro feature
    rw [heldFields, hheld]
    rfl
  have hempty : (p.releaseAll r).pipeline.Ordered := by
    refine ⟨by rw [hheld]; exact List.nodup_nil, ?_, by simp [hheld]⟩
    intro feature
    rw [hfields]
    exact List.Pairwise.nil
  rw [hregistry]
  apply unbindEach_confined hempty hr hsettings hsampler
  · rintro key ⟨feature, field, binding, hholds, -⟩
    rw [Holds, hfields] at hholds
    cases hholds
  · intro key hkey
    exact (mem_allKeys_iff hp).mp hkey

theorem perform_request {call : Call} {layer : OrderedTree} {upper : Option OrderedTree}
    {features : List Feature}
    (hrequest : call.request? = some (layer, upper, features)) {bags : List (Bag σ)}
    (hok : (p.perform r call).result = .ok bags) :
    (features.map Feature.id).Nodup ∧
      (p.resolveEach r layer (layer.layered upper) features).result = .ok bags ∧
      (p.perform r call).pipeline =
        (p.resolveEach r layer (layer.layered upper) features).pipeline ∧
      (p.perform r call).registry =
        (p.resolveEach r layer (layer.layered upper) features).registry := by
  cases call with
  | resolveAll layer upper features =>
    cases hrequest
    simp only [perform, resolveAll] at hok ⊢
    split at hok
    · rename_i hnodup
      rw [if_pos hnodup]
      exact ⟨hnodup, hok, rfl, rfl⟩
    · cases hok
  | resolve layer upper feature =>
    cases hrequest
    simp only [perform, resolve, resolveEach, ← OrderedTree.toTree_layered] at hok ⊢
    cases hresult : (p.resolveIn r layer (layer.layered upper) feature).result with
    | error fault =>
      rw [hresult] at hok
      cases hok
    | ok bag =>
      rw [hresult] at hok
      exact ⟨by simp, hok, rfl, rfl⟩
  | forget feature => cases hrequest
  | clear => cases hrequest
  | release feature => cases hrequest
  | releaseAll => cases hrequest

/-- A call touches no binding but those of the pipeline, and takes over no binding of another. -/
theorem perform_confined (hp : p.Ordered) (hr : r.Sound) (call : Call) :
    Confined p r (p.perform r call).pipeline (p.perform r call).registry := by
  cases call with
  | resolveAll layer upper features =>
    simp only [perform, resolveAll]
    split
    · exact resolveEach_confined hp hr layer _ features
    · exact .refl hp hr
  | resolve layer upper feature => exact resolveIn_confined hp hr layer _ feature
  | forget feature => exact forget_confined hp hr feature
  | clear => exact clear_confined hp hr
  | release feature => exact release_confined hp hr feature
  | releaseAll => exact releaseAll_confined hp hr

end Pipeline
end FeatureStyle
