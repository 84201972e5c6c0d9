import Mathlib.Data.Fintype.EquivFin
import FeatureStyle.Proofs.World.Basic

/-!
# Isolation of owners

Others may also remove what pipelines bound, and the key supply may then give the same key to someone
else. A pipeline recognizes its bindings by their keys only, so from then on it takes the other's
binding for its own. The main statement is `isolated_iff_guarded`: a pipeline respects the bindings of
others, and its bags list bindings that are good for their fields, just as long as each binding it
holds is still the one it made.
-/

namespace FeatureStyle

def Registry.resupply {κ κ' σ : Type} (r : Registry κ σ) (supply : κ') : Registry κ' σ :=
  ⟨r.shape, supply, r.patience, r.bindings, r.index, r.collisions⟩

private theorem Registry.Sound.resupply {κ κ' σ : Type} [KeySupply κ] [KeySupply κ']
    {r : Registry κ σ}
    (h : r.Sound) {supply : κ'} (hsupply : KeySupply.Admissible r.shape supply) :
    (r.resupply supply).Sound := ⟨h.keyed, h.bound, hsupply⟩

open OrderedTree (probe)

namespace Pipeline

variable {κ σ : Type} [KeySupply κ] {p : Pipeline σ} {r : Registry κ σ} {ledger : Ledger}
  {feature : FeatureId} {field : String}

private theorem fieldsOf_probe (p : Pipeline σ) (field : String) (target : Feature) :
    p.fieldsOf (probe field) (probe field) target = ([(field, .timed)], ⟨p.choices, [], []⟩) := by
  have hdepth : ¬ p.settings.depthLimit < (probe field).depth := by
    have hpos := p.settings.depthLimit_pos
    have hone : (probe field).depth = 1 := rfl
    omega
  simp only [fieldsOf, if_neg hdepth]
  rfl

private theorem perform_resolve (p : Pipeline σ) (r : Registry κ σ) (layer : OrderedTree)
    (target : Feature) :
    (p.perform r (.resolve layer none target)).result =
        (p.resolveIn r layer layer target).result.map (fun bag => [bag]) ∧
      (p.perform r (.resolve layer none target)).registry =
        (p.resolveIn r layer layer target).registry := by
  simp only [perform, resolve, layered, Option.map_none, and_self]

private theorem renewBindings_of_renewal {dynamic : List (String × Value)} {s : Renewal κ σ}
    (h : p.renewal r feature dynamic = (.ok (), s))
    (hadmits : ∀ key ∈ leftover s, s.registry.shape.admits key = true) :
    (p.renewBindings r feature dynamic).result = .ok s.current ∧
      (p.renewBindings r feature dynamic).registry = (s.registry.unbindEach (leftover s)).2 := by
  have hremoved := Registry.unbindEach_of_admits hadmits
  rw [renewBindings_eq, h]
  dsimp only
  cases hresult : s.registry.unbindEach (leftover s) with
  | mk result registry =>
    rw [hresult] at hremoved
    cases hremoved
    exact ⟨rfl, rfl⟩

/-- Resolving the probe of a field renews the binding of that field and drops all others of the
feature. -/
theorem perform_probe (hstored : p.stored? r (probe field) (.ofId feature) = none)
    {s : Renewal κ σ} (hrenew : Renewal.renew? ⟨r, p.heldFields feature, [], []⟩ feature field
      (p.sampler feature field .timed) = some s)
    (hadmits : ∀ key ∈ leftover s, s.registry.shape.admits key = true) :
    ∃ bag, (p.perform r (.resolve (probe field) none (.ofId feature))).result = .ok [bag] ∧
      bag.feature = feature ∧ bag.dynamic = s.current ∧
      (p.perform r (.resolve (probe field) none (.ofId feature))).registry =
        (s.registry.unbindEach (leftover s)).2 := by
  have hrenewal : p.renewal r feature [(field, .timed)] = (.ok (), s) := by
    simp only [renewal, List.map_cons, List.map_nil, Renewal.renewEach]
    rw [hrenew]
  have hrenewed : p.renewed r (probe field) (probe field) (.ofId feature) =
      p.renewBindings r feature [(field, .timed)] := by
    rw [renewed, fieldsOf_probe]
    rfl
  obtain ⟨hok, hregistry⟩ := renewBindings_of_renewal hrenewal hadmits
  rw [← hrenewed] at hok hregistry
  obtain ⟨hsame, ⟨fault, herror, -⟩ | ⟨bindings, hbindings, hresult, -⟩⟩ :=
    resolveIn_of_none (probe field) hstored
  · rw [hok] at herror
    cases herror
  · rw [hok] at hbindings
    cases hbindings
    obtain ⟨hperform, hperform_registry⟩ := perform_resolve p r (probe field) (.ofId feature)
    refine ⟨p.freshBag (probe field) (probe field) (.ofId feature) s.current, ?_, rfl, rfl, ?_⟩
    · rw [hperform, hresult]
      rfl
    · rw [hperform_registry, hsame, hregistry]

private theorem perform_probe_of_stored (h : p.Records ledger) {bag : Bag σ}
    (hstored : p.stored? r (probe field) (.ofId feature) = some bag) :
    ∃ bag, (p.perform r (.resolve (probe field) none (.ofId feature))).result = .ok [bag] ∧
      bag.feature = feature ∧ bag.dynamic = p.heldFields feature ∧
      (p.perform r (.resolve (probe field) none (.ofId feature))).registry = r := by
  obtain ⟨origin, horigin, -, rfl⟩ := h.stored (probe field) hstored
  have hid : origin.feature.id = feature := (h.origins _ _ horigin).1
  obtain ⟨hperform, hregistry⟩ := perform_resolve p r (probe field) (.ofId feature)
  rw [resolveIn_of_some hstored] at hperform hregistry
  exact ⟨p.recalled origin, hperform, hid, by rw [recalled, hid], hregistry⟩

end Pipeline

namespace World

variable {ι κ σ : Type} {w : World ι κ σ} {i : ι}

/-- A turn of a pipeline leaves the bindings of all others as they are, and its bags list bindings
that are in the registry for the feature and the field. -/
structure Isolated {κ' : Type} (w : World ι κ σ) (i : ι) (turn : Turn κ' σ (List (Bag σ))) :
    Prop where
  spared : ∀ key binding, w.registry.get? key = some binding → w.owner key ≠ some i →
    turn.registry.get? key = some binding
  listed : ∀ bags, turn.result = .ok bags → ∀ bag ∈ bags, ∀ field binding,
    bag.dynamic.get? field = some binding → ∃ known,
      turn.registry.get? binding.key = some known ∧ known.feature = bag.feature ∧
        known.field = field

/-- Every binding that a pipeline holds is in the registry for its feature and field, and the pipeline
made it. -/
def Guarded (w : World ι κ σ) (i : ι) : Prop :=
  ∀ feature field binding, (w.pipelines i).Holds feature field binding → ∃ known,
    w.registry.get? binding.key = some known ∧ w.owner binding.key = some i ∧
      known.feature = feature ∧ known.field = field

variable [KeySupply κ]

private theorem Regular.isolated (h : w.Regular) (hguarded : w.Guarded i) {κ' : Type} [KeySupply κ']
    {supply : κ'} (hsupply : KeySupply.Admissible w.registry.shape supply) (call : Call) :
    w.Isolated i ((w.pipelines i).perform (w.registry.resupply supply) call) := by
  have hsound := h.sound.resupply hsupply
  have hguards : (w.pipelines i).Guards (w.registry.resupply supply) := by
    intro feature field binding hholds
    obtain ⟨known, hget, -, hknown⟩ := hguarded feature field binding hholds
    exact ⟨known, hget, hknown⟩
  constructor
  · intro key binding hget howner
    refine ((Pipeline.perform_confined (h.ordered i) hsound call).frame key binding hget ?_).1
    rintro ⟨feature, field, held, hholds, rfl⟩
    obtain ⟨-, -, hmine, -⟩ := hguarded feature field held hholds
    exact howner hmine
  · intro bags hok bag hbag field binding hlisted
    rw [(h.records i).dynamic_of_mem (h.ordered i) hsound hok hbag] at hlisted
    exact Pipeline.perform_guards (h.ordered i) hsound hguards hok bag.feature field binding
      hlisted

/-- The supplies that may go on from a world, and the calls that may be made then. -/
def AlwaysIsolated (w : World ι κ σ) (i : ι) : Prop :=
  ∀ (κ' : Type) [KeySupply κ'] (supply : κ'), KeySupply.Admissible w.registry.shape supply →
    ∀ call : Call, w.Isolated i ((w.pipelines i).perform (w.registry.resupply supply) call)

variable {feature : FeatureId} {field : String} {binding : Binding σ}

private theorem Regular.admits_held (h : w.Regular)
    (hholds : (w.pipelines i).Holds feature field binding) :
    w.registry.shape.admits binding.key = true :=
  h.admitted i binding.key ⟨feature, field, binding, hholds, rfl⟩

/-- A binding held that others made is removed when its feature is released. -/
theorem Regular.owner_of_isolated (h : w.Regular) (hisolated : w.AlwaysIsolated i)
    (hholds : (w.pipelines i).Holds feature field binding) {known : Binding σ}
    (hget : w.registry.get? binding.key = some known) : w.owner binding.key = some i := by
  have hsupply := KeySupply.admissible_same (h.admits_held hholds)
  by_contra howner
  have hspared := (hisolated _ _ hsupply (.release feature)).spared
    binding.key known hget howner
  obtain ⟨hregistry, -⟩ := Pipeline.release_spec (w.pipelines i)
    (w.registry.resupply (KeySupply.Same.mk binding.key)) feature
  have hmem := (Pipeline.mem_keys_iff (h.ordered i)).mpr ⟨field, binding, hholds, rfl⟩
  have hremoved : (Registry.unbindEach (w.registry.resupply (KeySupply.Same.mk binding.key))
      (((w.pipelines i).heldFields feature).map fun entry => entry.2.key)).1 = .ok () := by
    apply Registry.unbindEach_of_admits
    intro key hkey
    obtain ⟨other, held, hheld, rfl⟩ := (Pipeline.mem_keys_iff (h.ordered i)).mp hkey
    exact h.admits_held hheld
  have hgone := Registry.get?_unbindEach_of_mem hremoved hmem
  rw [← hregistry] at hgone
  exact Option.some_ne_none known (hspared.symm.trans hgone)

private theorem Regular.probe_listed (h : w.Regular) (hisolated : w.AlwaysIsolated i) {κ' : Type}
    [KeySupply κ'] {supply : κ'} (hsupply : KeySupply.Admissible w.registry.shape supply)
    (hstored : (w.pipelines i).stored? (w.registry.resupply supply) (probe field)
      (.ofId feature) = none) {s : Renewal κ' σ}
    (hrenew : Renewal.renew? ⟨w.registry.resupply supply, (w.pipelines i).heldFields feature, [], []⟩
      feature field ((w.pipelines i).sampler feature field .timed) = some s)
    (hcurrent : s.current.get? field = some binding) :
    (s.registry.unbindEach (Pipeline.leftover s)).1 = .ok () ∧ ∃ known,
      (s.registry.unbindEach (Pipeline.leftover s)).2.get? binding.key = some known ∧
        known.feature = feature ∧ known.field = field := by
  have hsound := h.sound.resupply hsupply
  have hext := Renewal.extends_of_renew? (s := ⟨w.registry.resupply supply, _, [], []⟩) hsound hrenew
  have hadmits : ∀ key ∈ Pipeline.leftover s, s.registry.shape.admits key = true := by
    intro key hkey
    obtain ⟨other, held, hheld, rfl⟩ := Pipeline.holds_of_mem_leftover (h.ordered i) hext hkey
    rw [hext.shape]
    exact h.admits_held hheld
  obtain ⟨bag, hok, hfeature, hdynamic, hregistry⟩ := Pipeline.perform_probe hstored hrenew hadmits
  have hturn := hisolated _ supply hsupply (.resolve (probe field) none (.ofId feature))
  rw [← hdynamic] at hcurrent
  have hlisted := hturn.listed _ hok bag List.mem_cons_self field binding hcurrent
  rw [hregistry, hfeature] at hlisted
  exact ⟨Registry.unbindEach_of_admits hadmits, hlisted⟩

/-- A binding held that is in the registry for another field is listed for its own. -/
theorem Regular.known_of_isolated (h : w.Regular) (hisolated : w.AlwaysIsolated i)
    (hholds : (w.pipelines i).Holds feature field binding) {known : Binding σ}
    (hget : w.registry.get? binding.key = some known) :
    known.feature = feature ∧ known.field = field := by
  have hsupply := KeySupply.admissible_same (h.admits_held hholds)
  have hkey : known.key = binding.key := h.sound.keyed _ _ hget
  let r := w.registry.resupply (KeySupply.Same.mk binding.key)
  cases hstored : (w.pipelines i).stored? r (probe field) (.ofId feature) with
  | some stored =>
    obtain ⟨bag, hok, hfeature, hdynamic, hregistry⟩ :=
      Pipeline.perform_probe_of_stored (h.records i) hstored
    have hturn := hisolated _ _ hsupply (.resolve (probe field) none (.ofId feature))
    obtain ⟨other, hother, hother_feature, hother_field⟩ :=
      hturn.listed _ hok bag List.mem_cons_self field binding (by rw [hdynamic]; exact hholds)
    rw [hregistry] at hother
    cases hget.symm.trans hother
    exact ⟨hother_feature.trans hfeature, hother_field⟩
  | none =>
    let sampler := (w.pipelines i).sampler feature field .timed
    have hrenew := Renewal.renew?_of_bound (s := ⟨r, (w.pipelines i).heldFields feature, [], []⟩)
      feature sampler hholds hget
    have hcurrent : Fields.get? (Fields.insert [] field { known with sampler }) field =
        some { known with sampler } := by rw [Fields.get?_insert, if_pos rfl]
    obtain ⟨-, other, hother, hother_feature, hother_field⟩ :=
      h.probe_listed hisolated hsupply hstored hrenew hcurrent
    have hrebound : (r.rebind binding.key sampler).2.get? known.key =
        some { known with sampler } := by
      have hget' : r.get? known.key = some known := by
        rw [hkey]
        exact hget
      rw [Registry.get?_rebind, if_pos hkey.symm, hget']
      rfl
    rcases Registry.unbindEach_get? (r.rebind binding.key sampler).2 _ known.key with hsame | ⟨-, hgone⟩
    · rw [hsame, hrebound] at hother
      cases hother
      exact ⟨hother_feature, hother_field⟩
    · rw [hgone] at hother
      cases hother

omit [KeySupply κ] in
private theorem exists_name (fields : Fields (Binding σ)) : ∃ name, fields.get? name = none := by
  obtain ⟨name, hname⟩ := Infinite.exists_notMem_finset (fields.map Prod.fst).toFinset
  exact ⟨name, Table.get?_eq_none_iff.mpr (by simpa using hname)⟩

theorem Regular.bound_of_isolated (h : w.Regular) (hisolated : w.AlwaysIsolated i)
    (hholds : (w.pipelines i).Holds feature field binding) :
    ∃ known, w.registry.get? binding.key = some known := by
  by_contra hunbound
  have hnone : w.registry.get? binding.key = none := by
    rw [Option.eq_none_iff_forall_ne_some]
    exact fun known hget => hunbound ⟨known, hget⟩
  have hsupply := KeySupply.admissible_same (h.admits_held hholds)
  obtain ⟨name, hname⟩ := exists_name ((w.pipelines i).heldFields feature)
  let r := w.registry.resupply (KeySupply.Same.mk binding.key)
  cases hstored : (w.pipelines i).stored? r (probe name) (.ofId feature) with
  | some stored =>
    obtain ⟨bag, hok, hfeature, hdynamic, hregistry⟩ :=
      Pipeline.perform_probe_of_stored (h.records i) hstored
    have hturn := hisolated _ _ hsupply (.resolve (probe name) none (.ofId feature))
    obtain ⟨other, hother, -⟩ :=
      hturn.listed _ hok bag List.mem_cons_self field binding (by rw [hdynamic]; exact hholds)
    rw [hregistry] at hother
    exact hunbound ⟨other, hother⟩
  | none =>
    let sampler := (w.pipelines i).sampler feature name .timed
    obtain ⟨registry, hbind⟩ := Registry.bind?_of_free (r := r) feature name sampler hnone
    have hrenew := Renewal.renew?_of_free (s := ⟨r, (w.pipelines i).heldFields feature, [], []⟩)
      hname hbind
    obtain ⟨hremoved, other, hother, -⟩ := h.probe_listed hisolated hsupply hstored hrenew
      (by rw [Fields.get?_insert, if_pos rfl])
    have hne : name ≠ field := by
      rintro rfl
      rw [Pipeline.Holds, hname] at hholds
      cases hholds
    have hleft : Fields.get? (((w.pipelines i).heldFields feature).erase name) field =
        some binding := by
      rw [Fields.get?_erase, if_neg hne]
      exact hholds
    rw [Fields.get?_eq_some_iff (Fields.sorted_erase ((h.ordered i).sorted feature) name)] at hleft
    have hgone := Registry.get?_unbindEach_of_mem hremoved (List.mem_map_of_mem hleft)
    exact Option.some_ne_none other (hother.symm.trans hgone)

theorem isolated_iff_guarded [DecidableEq ι] {may : World ι κ σ → Act σ → Prop}
    (h : Reachable may w) (i : ι) : w.AlwaysIsolated i ↔ w.Guarded i := by
  constructor
  · intro hisolated feature field binding hholds
    obtain ⟨known, hget⟩ := h.regular.bound_of_isolated hisolated hholds
    exact ⟨known, hget, h.regular.owner_of_isolated hisolated hholds hget,
      h.regular.known_of_isolated hisolated hholds hget⟩
  · intro hguarded κ' _ supply hsupply call
    exact h.regular.isolated hguarded hsupply call

/-- A pipeline is guarded after it resolved a field, and so it is isolated then. -/
theorem lone_alwaysIsolated :
    ∃ bags, ((lone 8).turn () (.resolve (.probe "x") none (.ofId ⟨"f"⟩))).result = .ok bags ∧
      ((lone 8).call () (.resolve (.probe "x") none (.ofId ⟨"f"⟩)) bags).AlwaysIsolated () := by
  refine ⟨_, rfl, (isolated_iff_guarded
    (.call (reachable_lone (fun _ _ => True) 8) rfl) ()).mpr ?_⟩
  intro feature field binding hholds
  have hheld : (((lone 8).turn () (.resolve (.probe "x") none (.ofId ⟨"f"⟩))).pipeline).held =
      [(⟨"f"⟩, [("x", ⟨⟨"AAAAAAAAAAAAAAAAAAAAA"⟩, ⟨"f"⟩, "x", "pipeline"⟩)])] := rfl
  rw [Pipeline.Holds, Pipeline.heldFields, (call_self ..).1, hheld, Table.get?_cons] at hholds
  split at hholds
  · rw [Option.getD_some, Fields.get?_cons] at hholds
    split at hholds
    · rename_i hfeature hfield
      cases hholds
      exact ⟨_, rfl, rfl, hfeature, hfield⟩
    · cases hholds
  · cases hholds

/-- Others remove the binding of a pipeline and bind a field of their own, for which the key is issued
again. -/
def reissued : World Unit KeySupply.Same String :=
  let request := Call.resolve (.probe "x") none (.ofId ⟨"f"⟩)
  let bags := ((lone 0).turn () request).result.toOption.getD []
  (((lone 0).call () request bags).act (.unbind ⟨"AAAAAAAAAAAAAAAAAAAAA"⟩)).act
    (.bind ⟨"g"⟩ "y" "others")

/-- When the pipeline then resolves its feature again it replaces the sampler of the others. -/
theorem reissued_not_isolated : Reachable (fun _ _ => True) reissued ∧
    ¬ reissued.Isolated () (reissued.turn () (.resolve (.probe "x") none (.ofId ⟨"f"⟩))) := by
  constructor
  · simp only [reissued]
    apply Reachable.act (Reachable.act _ trivial) trivial
    exact .call (reachable_lone _ 0) rfl
  · intro hisolated
    have hspared := hisolated.spared ⟨"AAAAAAAAAAAAAAAAAAAAA"⟩
      ⟨⟨"AAAAAAAAAAAAAAAAAAAAA"⟩, ⟨"g"⟩, "y", "others"⟩ rfl (by decide)
    have hsampler := congrArg (Option.map Binding.sampler) hspared
    exact absurd hsampler (by decide)

end World
end FeatureStyle
