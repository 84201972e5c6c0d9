import FeatureStyle.Proofs.Pipeline.Expressionless

/-!
# When resolution gives a result

As long as the keys that a pipeline holds for the features of a pass have the shape of the
registry's keys, the pass fails only because there is no key left for a field that depends on time.
The main statement is `resolveEach_result`.
-/

namespace FeatureStyle

namespace Renewal

variable {κ σ : Type} [KeySupply κ] {s s' : Renewal κ σ} {feature : FeatureId} {field : String}
  {sampler : σ}

private theorem shape_of_renew? (h : s.renew? feature field sampler = some s') :
    s'.registry.shape = s.registry.shape := by
  obtain ⟨-, binding, -, -, ⟨old, known, -, -, -, hregistry⟩ | ⟨-, taken, hbind⟩⟩ :=
    renew?_eq_some h
  · rw [hregistry, Registry.rebind_shape]
  · exact (Registry.bind?_eq_some hbind).2.2.2.2.1

private theorem renewEach_shape (s : Renewal κ σ) (feature : FeatureId)
    (fields : List (String × σ)) :
    (s.renewEach feature fields).2.registry.shape = s.registry.shape := by
  induction fields generalizing s with
  | nil => rfl
  | cons entry fields ih =>
    obtain ⟨field, sampler⟩ := entry
    rw [renewEach]
    split
    · rename_i next hnext
      exact (ih next).trans (shape_of_renew? hnext)
    · rfl

theorem previous_renewEach_subset (s : Renewal κ σ) (feature : FeatureId)
    (fields : List (String × σ)) : (s.renewEach feature fields).2.previous ⊆ s.previous := by
  induction fields generalizing s with
  | nil => exact List.Subset.refl _
  | cons entry fields ih =>
    obtain ⟨field, sampler⟩ := entry
    rw [renewEach]
    split
    · rename_i next hnext
      have hprevious : next.previous ⊆ s.previous := by
        rw [(renew?_eq_some hnext).1]
        exact List.filter_subset_self _
      exact List.Subset.trans (ih next) hprevious
    · exact List.Subset.refl _

private theorem renewEach_result (s : Renewal κ σ) (feature : FeatureId)
    (fields : List (String × σ)) :
    (s.renewEach feature fields).1 = .ok () ∨
      (s.renewEach feature fields).1 = .error .noFreeKey ∧ fields ≠ [] := by
  induction fields generalizing s with
  | nil => exact .inl rfl
  | cons entry fields ih =>
    obtain ⟨field, sampler⟩ := entry
    rw [renewEach]
    split
    · rename_i next hnext
      exact (ih next).imp_right fun herror => ⟨herror.1, List.cons_ne_nil _ _⟩
    · exact .inr ⟨rfl, List.cons_ne_nil _ _⟩

end Renewal

namespace Pipeline

variable {κ σ : Type} [KeySupply κ] {p : Pipeline σ} {r : Registry κ σ}

/-- The keys held for a feature have the shape of the keys of a registry. -/
def Fits (p : Pipeline σ) (r : Registry κ σ) (feature : FeatureId) : Prop :=
  ∀ entry ∈ p.heldFields feature, r.shape.admits entry.2.key = true

theorem renewBindings_frame (p : Pipeline σ) (r : Registry κ σ) (feature : FeatureId)
    (dynamic : List (String × Value)) :
    (p.renewBindings r feature dynamic).registry.shape = r.shape ∧
      ∀ other, other ≠ feature →
        (p.renewBindings r feature dynamic).pipeline.heldFields other = p.heldFields other := by
  obtain ⟨s, keys, hs, -, hregistry, hcase⟩ := renewBindings_cases p r feature dynamic
  refine ⟨?_, ?_⟩
  · rw [hregistry, (Registry.unbindEach_shape _ keys).1, ← hs]
    exact Renewal.renewEach_shape ..
  · intro other hother
    rcases hcase with ⟨fault, -, hpipeline⟩ | ⟨-, -, -, -, hpipeline⟩
    · rw [hpipeline, heldFields_erase, if_neg (Ne.symm hother)]
    · rw [hpipeline, heldFields_withHeld, if_neg (Ne.symm hother)]

theorem renewBindings_result {feature : FeatureId} (h : p.Fits r feature)
    (dynamic : List (String × Value)) :
    (∃ bindings, (p.renewBindings r feature dynamic).result = .ok bindings) ∨
      (p.renewBindings r feature dynamic).result = .error .noFreeKey ∧ dynamic ≠ [] := by
  have hshape : (p.renewal r feature dynamic).2.registry.shape = r.shape :=
    Renewal.renewEach_shape ..
  have hprevious : (p.renewal r feature dynamic).2.previous ⊆ p.heldFields feature :=
    Renewal.previous_renewEach_subset ..
  have hresult := Renewal.renewEach_result ⟨r, p.heldFields feature, [], []⟩ feature
    (dynamic.map fun entry => (entry.1, p.sampler feature entry.1 entry.2))
  rw [renewBindings_eq]
  cases hrenewal : p.renewal r feature dynamic with
  | mk result s =>
    rw [hrenewal] at hshape hprevious
    rw [← renewal, hrenewal] at hresult
    rcases hresult with rfl | ⟨rfl, hdynamic⟩
    · have hremoved : (s.registry.unbindEach (leftover s)).1 = .ok () := by
        apply Registry.unbindEach_of_admits
        intro key hkey
        obtain ⟨entry, hentry, rfl⟩ := List.mem_map.mp hkey
        rw [hshape]
        exact h entry (hprevious hentry)
      left
      dsimp only
      cases hunbound : s.registry.unbindEach (leftover s) with
      | mk removed registry =>
        rw [hunbound] at hremoved
        cases hremoved
        exact ⟨s.current, rfl⟩
    · refine .inr ⟨rfl, ?_⟩
      rintro rfl
      exact hdynamic rfl

variable {settings : Settings} {sampler : FeatureId → String → Value → σ} {layer tree : Tree}
  {target : Feature}

theorem resolveIn_frame (p : Pipeline σ) (r : Registry κ σ) (layer tree : Tree) (target : Feature) :
    (p.resolveIn r layer tree target).registry.shape = r.shape ∧
      ∀ other, other ≠ target.id →
        (p.resolveIn r layer tree target).pipeline.heldFields other = p.heldFields other := by
  cases hstored : p.stored? r tree target with
  | some bag =>
    rw [resolveIn_of_some hstored]
    exact ⟨rfl, fun _ _ => rfl⟩
  | none =>
    obtain ⟨hshape, hheld⟩ := renewBindings_frame
      ({ p with choices := (p.fieldsOf layer tree target).2.choices } : Pipeline σ) r target.id
      ((p.fieldsOf layer tree target).1.filter fun entry => entry.2.isTimed)
    obtain ⟨hregistry, ⟨fault, -, -, hpipeline⟩ | ⟨bindings, -, -, hpipeline⟩⟩ :=
      resolveIn_of_none layer hstored
    · rw [hregistry, hpipeline]
      exact ⟨hshape, hheld⟩
    · rw [hregistry, hpipeline, keep_eq]
      exact ⟨hshape, hheld⟩

theorem resolveIn_result (h : p.choices.Valid) (hfits : p.Fits r target.id)
    (layer tree : Tree) : (∃ bag, (p.resolveIn r layer tree target).result = .ok bag) ∨
      (p.resolveIn r layer tree target).result = .error .noFreeKey ∧
        ∃ entry ∈ (Outcome.of p.settings.depthLimit layer tree target).fields,
          entry.2.isTimed = true := by
  cases hstored : p.stored? r tree target with
  | some bag =>
    rw [resolveIn_of_some hstored]
    exact .inl ⟨bag, rfl⟩
  | none =>
    have hrenewed := renewBindings_result
      (p := { p with choices := (p.fieldsOf layer tree target).2.choices }) (r := r) hfits
      ((p.fieldsOf layer tree target).1.filter fun entry => entry.2.isTimed)
    rw [← renewed] at hrenewed
    obtain ⟨-, ⟨fault, hfault, hresult, -⟩ | ⟨bindings, -, hresult, -⟩⟩ :=
      resolveIn_of_none layer hstored
    · rcases hrenewed with ⟨bindings, hok⟩ | ⟨herror, htimed⟩
      · rw [hfault] at hok
        cases hok
      · rw [hfault] at herror
        cases herror
        refine .inr ⟨hresult, ?_⟩
        obtain ⟨entry, hentry⟩ := List.exists_mem_of_ne_nil _ htimed
        obtain ⟨hentry, htimed⟩ := List.mem_filter.mp hentry
        rw [(p.fieldsOf_outcome h layer tree target).1] at hentry
        exact ⟨entry, hentry, htimed⟩
    · exact .inl ⟨_, hresult⟩

/-- Features get their bags, unless there is no key for a field of one of them that depends on
time. -/
theorem resolveEach_result (h : p.Clean settings sampler) {features : List Feature}
    (hnodup : (features.map Feature.id).Nodup)
    (hfits : ∀ feature ∈ features, p.Fits r feature.id) (layer tree : Tree) :
    (∃ bags, (p.resolveEach r layer tree features).result = .ok bags) ∨
      (p.resolveEach r layer tree features).result = .error .noFreeKey ∧
        ∃ feature ∈ features, ∃ entry ∈ (Outcome.of settings.depthLimit layer tree feature).fields,
          entry.2.isTimed = true := by
  induction features generalizing p r with
  | nil => exact .inl ⟨[], rfl⟩
  | cons feature features ih =>
    obtain ⟨hnew, hnodup⟩ := List.nodup_cons.mp hnodup
    obtain ⟨hshape, hheld⟩ := resolveIn_frame p r layer tree feature
    have hfirst := resolveIn_result h.choices (hfits feature List.mem_cons_self) layer tree
    rw [h.settings_eq] at hfirst
    have hrest := ih (h.resolveIn r layer tree feature).1
      (r := (p.resolveIn r layer tree feature).registry) hnodup ?_
    · simp only [resolveEach]
      rcases hfirst with ⟨bag, hbag⟩ | ⟨herror, htimed⟩
      · rw [hbag]
        rcases hrest with ⟨bags, hbags⟩ | ⟨herror, other, hother, htimed⟩
        · exact .inl ⟨bag :: bags, by rw [hbags]; rfl⟩
        · exact .inr ⟨by rw [herror]; rfl, other, List.mem_cons_of_mem _ hother, htimed⟩
      · rw [herror]
        exact .inr ⟨rfl, feature, List.mem_cons_self, htimed⟩
    · intro other hother entry hentry
      have hne : other.id ≠ feature.id := fun heq => hnew (heq ▸ List.mem_map_of_mem hother)
      rw [hheld other.id hne] at hentry
      rw [hshape]
      exact hfits other (List.mem_cons_of_mem _ hother) entry hentry

theorem perform_result {call : Call} {layer : OrderedTree} {upper : Option OrderedTree}
    {features : List Feature} (hrequest : call.request? = some (layer, upper, features))
    (hnodup : (features.map Feature.id).Nodup) :
    (p.perform r call).result =
      (p.resolveEach r layer (layer.layered upper) features).result := by
  cases call with
  | resolveAll layer upper features =>
    cases hrequest
    rw [perform, resolveAll, if_pos hnodup, OrderedTree.toTree_layered]
  | resolve layer upper feature =>
    cases hrequest
    simp only [perform, resolve, resolveEach, ← OrderedTree.toTree_layered]
    cases (p.resolveIn r layer (layer.layered upper) feature).result with
    | error fault => rfl
    | ok bag => rfl
  | forget feature => cases hrequest
  | clear => cases hrequest
  | release feature => cases hrequest
  | releaseAll => cases hrequest

end Pipeline
end FeatureStyle
