import FeatureStyle.Proofs.Pipeline.Progress

/-!
# Keys that stay

As long as a field of a feature depends on time it keeps the key that is held for it. Once the
feature is resolved and the field does not depend on time any more, the key is free. The main
statement is `resolveEach_keepsKey`.
-/

namespace FeatureStyle

namespace Renewal

variable {κ σ : Type} [KeySupply κ] {r : Registry κ σ} {s s' : Renewal κ σ}
  {held : Fields (Binding σ)} {feature : FeatureId} {field : String} {sampler : σ}

/-- The bindings held before are still to be renewed, or were renewed under their keys. -/
def Steady (held : Fields (Binding σ)) (s : Renewal κ σ) : Prop :=
  ∀ x old, held.get? x = some old → s.previous.get? x = some old ∨
    ∃ binding, s.current.get? x = some binding ∧ binding.key = old.key

private theorem Steady.step (h : Steady held s) (hunderway : Underway r held feature s)
    (hs : s.registry.Sound) (hfresh : s.current.get? field = none)
    (hstep : s.renew? feature field sampler = some s') : Steady held s' := by
  obtain ⟨hprevious, binding, hcurrent, -, hcase⟩ := renew?_eq_some hstep
  intro x old hheld
  by_cases hx : field = x
  · subst hx
    rcases h field old hheld with hold | ⟨known, hknown, -⟩
    · obtain ⟨known, hknown, -, -⟩ := hunderway.previous field old hold
      rcases hcase with ⟨other, bound, hother, hbound, hbinding, -⟩ | ⟨hgone, -⟩
      · rw [hold] at hother
        cases hother
        refine .inr ⟨binding, by rw [hcurrent, Fields.get?_insert, if_pos rfl], ?_⟩
        rw [hbinding]
        exact hs.keyed old.key bound hbound
      · rw [hgone old hold] at hknown
        cases hknown
    · rw [hfresh] at hknown
      cases hknown
  · rw [hprevious, hcurrent, Fields.get?_erase, Fields.get?_insert, if_neg hx, if_neg hx]
    exact h x old hheld

end Renewal

namespace Pipeline

variable {κ σ : Type} {p : Pipeline σ} {r : Registry κ σ} {feature : FeatureId} {field : String}
  {binding : Binding σ}

/-- What is held for a field has the given key, and if nothing is held for it, the key is free. -/
structure KeepsKey (p : Pipeline σ) (r : Registry κ σ) (feature : FeatureId) (field : String)
    (key : Key) : Prop where
  held : ∀ binding, p.Holds feature field binding → binding.key = key
  freed : (p.heldFields feature).get? field = none → r.get? key = none

private theorem keepsKey_of_holds (h : p.Holds feature field binding) :
    p.KeepsKey r feature field binding.key where
  held := by
    intro other hother
    rw [Holds, h] at hother
    cases hother
    rfl
  freed := by
    intro hnone
    rw [h] at hnone
    cases hnone

variable [KeySupply κ]

private theorem renewal_steady (hr : r.Sound) (hg : p.Guards r) (feature : FeatureId)
    {dynamic : List (String × Value)} (hn : (dynamic.map Prod.fst).Nodup) :
    Renewal.Steady (p.heldFields feature) (p.renewal r feature dynamic).2 := by
  let P (s : Renewal κ σ) : Prop :=
    Renewal.Underway r (p.heldFields feature) feature s ∧ Renewal.Steady (p.heldFields feature) s
  refine (renewal_invariant (P := P) ?_ ?_ hr hn).2
  · intro s s' field sampler ⟨hunderway, hsteady⟩ hs hfresh hstep
    exact ⟨hunderway.step hs hfresh hstep, hsteady.step hunderway hs hfresh hstep⟩
  · exact ⟨.start (hg feature), fun x old hold => .inl hold⟩

private theorem renewBindings_keepsKey (hp : p.Ordered) (hr : r.Sound) (hg : p.Guards r)
    {dynamic : List (String × Value)} (hn : (dynamic.map Prod.fst).Nodup)
    {bindings : Fields (Binding σ)}
    (hok : (p.renewBindings r feature dynamic).result = .ok bindings)
    (hholds : p.Holds feature field binding) :
    (p.renewBindings r feature dynamic).pipeline.KeepsKey
      (p.renewBindings r feature dynamic).registry feature field binding.key := by
  obtain ⟨s, keys, rfl, -, hregistry, hcase⟩ := renewBindings_cases p r feature dynamic
  rcases hcase with ⟨fault, herror, -⟩ | ⟨-, rfl, hremoved, -, hpipeline⟩
  · rw [hok] at herror
    cases herror
  have hunderway := renewal_underway hr hg feature hn
  have hsorted := (renewal_extends hr p feature dynamic).sorted (hp.sorted feature)
  have hfields := heldFields_withHeld p feature (p.renewal r feature dynamic).2.current feature
  rw [if_pos rfl] at hfields
  rw [hpipeline, hregistry]
  rcases renewal_steady hr hg feature hn field binding hholds with hold | ⟨known, hknown, hkey⟩
  · constructor
    · intro other hother
      rw [Holds, hfields, hunderway.apart field binding hold] at hother
      cases hother
    · intro _
      apply Registry.get?_unbindEach_of_mem hremoved
      exact (mem_leftover_iff hsorted).mpr ⟨field, binding, hold, rfl⟩
  · rw [← hkey]
    apply keepsKey_of_holds
    rw [Holds, hfields]
    exact hknown

variable {layer tree : OrderedTree} {target : Feature}

private theorem resolveIn_keepsKey (hp : p.Ordered) (hr : r.Sound) (hg : p.Guards r) {bag : Bag σ}
    (hok : (p.resolveIn r layer tree target).result = .ok bag)
    (hholds : p.Holds target.id field binding) :
    (p.resolveIn r layer tree target).pipeline.KeepsKey
      (p.resolveIn r layer tree target).registry target.id field binding.key := by
  cases hstored : p.stored? r tree target with
  | some stored =>
    rw [resolveIn_of_some hstored]
    exact keepsKey_of_holds hholds
  | none =>
    obtain ⟨hregistry, ⟨fault, -, herror, -⟩ | ⟨bindings, hrenewed, -, hpipeline⟩⟩ :=
      resolveIn_of_none layer hstored
    · rw [hok] at herror
      cases herror
    · have hkeeps := renewBindings_keepsKey
        (hp.with_choices (p.fieldsOf layer tree target).2.choices) hr hg
        (p.timed_keys_nodup layer tree target) hrenewed hholds
      rw [← renewed] at hkeeps
      rw [hregistry, hpipeline, keep_eq]
      exact ⟨hkeeps.held, hkeeps.freed⟩

private theorem resolveEach_frame (p : Pipeline σ) (r : Registry κ σ) (layer tree : Tree)
    (features : List Feature) {other : FeatureId} (hother : other ∉ features.map Feature.id) :
    (p.resolveEach r layer tree features).pipeline.heldFields other = p.heldFields other := by
  induction features generalizing p r with
  | nil => rfl
  | cons first features ih =>
    rw [List.map_cons, List.mem_cons, not_or] at hother
    have hfirst := (resolveIn_frame p r layer tree first).2 other hother.1
    simp only [resolveEach]
    split
    · exact hfirst
    · exact (ih _ _ hother.2).trans hfirst

theorem resolveEach_append {features more : List Feature} {bags : List (Bag σ)}
    (hok : (p.resolveEach r layer tree (features ++ more)).result = .ok bags) :
    let first := p.resolveEach r layer tree features
    let second := first.pipeline.resolveEach first.registry layer tree more
    (∃ bags₁, first.result = .ok bags₁) ∧ (∃ bags₂, second.result = .ok bags₂) ∧
      (p.resolveEach r layer tree (features ++ more)).pipeline = second.pipeline ∧
      (p.resolveEach r layer tree (features ++ more)).registry = second.registry := by
  induction features generalizing p r bags with
  | nil => exact ⟨⟨[], rfl⟩, ⟨bags, hok⟩, rfl, rfl⟩
  | cons feature features ih =>
    simp only [List.cons_append, resolveEach] at hok ⊢
    split at hok
    · cases hok
    · rename_i bag hbag
      obtain ⟨rest, hrest, -⟩ := map_eq_ok hok
      obtain ⟨⟨bags₁, hfirst⟩, hsecond, hpipeline, hregistry⟩ := ih hrest
      exact ⟨⟨bag :: bags₁, by rw [hfirst]; rfl⟩, hsecond, hpipeline, hregistry⟩

private theorem resolveEach_singleton {bags : List (Bag σ)}
    (hok : (p.resolveEach r layer tree [target]).result = .ok bags) :
    (∃ bag, (p.resolveIn r layer tree target).result = .ok bag) ∧
      (p.resolveEach r layer tree [target]).pipeline =
        (p.resolveIn r layer tree target).pipeline ∧
      (p.resolveEach r layer tree [target]).registry =
        (p.resolveIn r layer tree target).registry := by
  simp only [resolveEach] at hok ⊢
  split at hok
  · cases hok
  · rename_i bag hbag
    exact ⟨⟨bag, hbag⟩, rfl, rfl⟩

theorem feature_mem_of_bound (hp : p.Ordered) (hr : r.Sound) (ht : p.Tracks r)
    {features : List Feature} {bags : List (Bag σ)}
    (hok : (p.resolveEach r layer tree features).result = .ok bags)
    {key : Key} (hfree : r.get? key = none) {known : Binding σ}
    (hknown : (p.resolveEach r layer tree features).registry.get? key = some known) :
    known.feature ∈ features.map Feature.id := by
  have haccounts := resolveEach_accounts hp hr ht hok
  rcases haccounts.bindings key known hknown with ⟨feature, field, hholds, rfl⟩ | ⟨hget, -⟩
  · obtain ⟨-, hfeature, -⟩ := haccounts.tracks feature field known hholds
    by_contra hnew
    rw [hfeature] at hnew
    rw [Holds, resolveEach_frame p r layer tree features hnew] at hholds
    rw [(ht feature field known hholds).1] at hfree
    cases hfree
  · rw [hfree] at hget
    cases hget

/-- When the turn of a feature is over, each of its fields that had a key has kept it, or the key is
free. -/
theorem resolveEach_keepsKey (hp : p.Ordered) (hr : r.Sound) (ht : p.Tracks r)
    {before : List Feature} (hnew : target.id ∉ before.map Feature.id) {bags : List (Bag σ)}
    (hok : (p.resolveEach r layer tree (before ++ [target])).result = .ok bags)
    (hholds : p.Holds target.id field binding) :
    (p.resolveEach r layer tree (before ++ [target])).pipeline.KeepsKey
      (p.resolveEach r layer tree (before ++ [target])).registry target.id field binding.key := by
  obtain ⟨⟨bags₁, hbefore⟩, ⟨bags₂, hturn⟩, hpipeline, hregistry⟩ := resolveEach_append hok
  obtain ⟨⟨bag, hbag⟩, hpipeline', hregistry'⟩ := resolveEach_singleton hturn
  have hconfined := resolveEach_confined hp hr layer tree before
  have haccounts := resolveEach_accounts hp hr ht hbefore
  rw [hpipeline, hregistry, hpipeline', hregistry']
  apply resolveIn_keepsKey hconfined.ordered hconfined.sound haccounts.tracks.guards hbag
  rw [Holds, resolveEach_frame p r layer tree before hnew]
  exact hholds

/-- What is resolved after a feature changes nothing that is held for it, and a key that was free
then can only be bound for a feature resolved after it. -/
theorem resolveEach_after (hp : p.Ordered) (hr : r.Sound) (ht : p.Tracks r)
    {features after : List Feature}
    {bags : List (Bag σ)} (hok : (p.resolveEach r layer tree (features ++ after)).result = .ok bags)
    {other : FeatureId} (hother : other ∉ after.map Feature.id) :
    (∃ bags₁, (p.resolveEach r layer tree features).result = .ok bags₁) ∧
      (p.resolveEach r layer tree (features ++ after)).pipeline.heldFields other =
        (p.resolveEach r layer tree features).pipeline.heldFields other ∧
      ∀ key known, (p.resolveEach r layer tree features).registry.get? key = none →
        (p.resolveEach r layer tree (features ++ after)).registry.get? key = some known →
          known.feature ∈ after.map Feature.id := by
  obtain ⟨⟨bags₁, hfeatures⟩, ⟨bags₂, hafter⟩, hpipeline, hregistry⟩ := resolveEach_append hok
  have hconfined := resolveEach_confined hp hr layer tree features
  have haccounts := resolveEach_accounts hp hr ht hfeatures
  rw [hpipeline, hregistry]
  refine ⟨⟨bags₁, hfeatures⟩, resolveEach_frame _ _ layer tree after hother, ?_⟩
  intro key known hfree hknown
  exact feature_mem_of_bound hconfined.ordered hconfined.sound haccounts.tracks hafter hfree hknown

end Pipeline
end FeatureStyle
