import FeatureStyle.Proofs.Bag.History
import FeatureStyle.Proofs.Pipeline.Confinement

/-!
# Effects of calls

What a call does to the registry is a sequence of the registry's own operations, and what it does to
the store of bags is a sequence of the store's. So what these operations keep, every call keeps, and
also one that gives no result.
-/

namespace FeatureStyle

namespace Registry

variable {κ σ : Type} [KeySupply κ]

/-- The operations that a pipeline uses keep a property of registries. -/
structure KeepsUp (P : Registry κ σ → Prop) : Prop where
  bind : ∀ {r r' : Registry κ σ} {feature : FeatureId} {field : String} {sampler : σ}
    {binding : Binding σ} {taken : List Key}, P r →
      r.bind? feature field sampler = some (binding, r', taken) → P r'
  rebind : ∀ {r : Registry κ σ} (key : Key) (sampler : σ), P r → P (r.rebind key sampler).2
  remove : ∀ {r : Registry κ σ} (key : Key), P r → P (r.remove key).2

namespace KeepsUp

variable {P : Registry κ σ → Prop} {r : Registry κ σ} {p : Pipeline σ}

private theorem unbindEach (h : KeepsUp P) (hr : P r) (keys : List Key) :
    P (r.unbindEach keys).2 := by
  induction keys generalizing r with
  | nil => exact hr
  | cons key keys ih =>
    rw [Registry.unbindEach]
    split
    · rename_i held r' hunbind
      rw [eq_remove_of_unbind hunbind]
      exact ih (h.remove key hr)
    · exact hr

private theorem renewEach (h : KeepsUp P) {s : Renewal κ σ} (hs : P s.registry)
    (feature : FeatureId)
    (fields : List (String × σ)) : P (s.renewEach feature fields).2.registry := by
  induction fields generalizing s with
  | nil => exact hs
  | cons entry fields ih =>
    obtain ⟨field, sampler⟩ := entry
    rw [Renewal.renewEach]
    split
    · rename_i next hnext
      apply ih
      obtain ⟨-, binding, -, -, ⟨old, known, -, -, -, hregistry⟩ | ⟨-, taken, hbind⟩⟩ :=
        Renewal.renew?_eq_some hnext
      · rw [hregistry]
        exact h.rebind old.key sampler hs
      · exact h.bind hs hbind
    · exact hs

private theorem renewBindings (h : KeepsUp P) (hr : P r) (feature : FeatureId)
    (dynamic : List (String × Value)) : P (p.renewBindings r feature dynamic).registry := by
  obtain ⟨s, keys, rfl, -, hregistry, -⟩ := Pipeline.renewBindings_cases p r feature dynamic
  rw [hregistry]
  apply h.unbindEach
  exact h.renewEach (s := ⟨r, p.heldFields feature, [], []⟩) hr feature _

theorem resolveIn (h : KeepsUp P) (hr : P r) (layer tree : Tree) (target : Feature) :
    P (p.resolveIn r layer tree target).registry := by
  cases hstored : p.stored? r tree target with
  | some bag =>
    rw [Pipeline.resolveIn_of_some hstored]
    exact hr
  | none =>
    rw [(Pipeline.resolveIn_of_none layer hstored).1]
    exact h.renewBindings hr _ _

private theorem resolveEach (h : KeepsUp P) (hr : P r) (layer tree : Tree)
    (features : List Feature) :
    P (p.resolveEach r layer tree features).registry := by
  induction features generalizing p r with
  | nil => exact hr
  | cons feature features ih =>
    have hfirst := h.resolveIn (p := p) hr layer tree feature
    simp only [Pipeline.resolveEach]
    split
    · exact hfirst
    · exact ih hfirst

theorem perform (h : KeepsUp P) (hr : P r) (call : Call) : P (p.perform r call).registry := by
  cases call with
  | resolveAll layer upper features =>
    simp only [Pipeline.perform, Pipeline.resolveAll]
    split
    · exact h.resolveEach hr layer _ features
    · exact hr
  | resolve layer upper feature => exact h.resolveIn hr layer _ feature
  | forget feature => exact hr
  | clear => exact hr
  | release feature =>
    simp only [Pipeline.perform, (Pipeline.release_spec p r feature).1]
    exact h.unbindEach hr _
  | releaseAll =>
    simp only [Pipeline.perform, (Pipeline.releaseAll_spec p r).1]
    exact h.unbindEach hr _

end KeepsUp

theorem keepsUp_functional : KeepsUp fun r : Registry κ σ => Table.Functional r.bindings where
  bind := by
    intro r r' feature field sampler binding taken hr hbind
    obtain ⟨found, -, heq⟩ := Option.map_eq_some_iff.mp hbind
    cases heq
    exact Table.functional_put hr _ _
  rebind := by
    intro r key sampler hr
    rw [Registry.rebind]
    split
    · exact Table.functional_update hr key fun binding => { binding with sampler }
    · exact hr
  remove := by
    intro r key hr
    rw [Registry.remove]
    split
    · exact hr
    · exact Table.functional_erase hr key

end Registry

namespace Pipeline

variable {κ σ : Type} {p : Pipeline σ} {r : Registry κ σ}

/-- A pipeline goes from one state to another by operations of its store, under its hash. -/
structure Stores (p p' : Pipeline σ) : Prop where
  hash : p'.hash = p.hash
  store : ∃ calls, p'.store = p.store.after p.hash calls

private theorem Stores.of_eq {p' : Pipeline σ} (hhash : p'.hash = p.hash)
    (hstore : p'.store = p.store) :
    p.Stores p' := ⟨hhash, [], hstore⟩

private theorem Stores.of_call {p' : Pipeline σ} (hhash : p'.hash = p.hash) (call : StoreCall σ)
    (hstore : p'.store = (p.store.perform p.hash call).2) : p.Stores p' := ⟨hhash, [call], hstore⟩

theorem Stores.trans {p' p'' : Pipeline σ} (h : p.Stores p') (h' : p'.Stores p'') :
    p.Stores p'' := by
  obtain ⟨hhash, calls, hstore⟩ := h
  obtain ⟨hhash', calls', hstore'⟩ := h'
  refine ⟨hhash'.trans hhash, calls ++ calls', ?_⟩
  rw [hstore', hstore, hhash, BagStore.after, BagStore.after, BagStore.after, List.foldl_append]

theorem Stores.consistent {p' : Pipeline σ} (h : p.Stores p') (hp : p.store.Consistent p.hash) :
    p'.store.Consistent p'.hash := by
  obtain ⟨hhash, calls, hstore⟩ := h
  rw [hhash, hstore]
  exact hp.after calls

private theorem stores_forget (p : Pipeline σ) (feature : FeatureId) :
    p.Stores (p.forget feature).2 :=
  .of_call rfl (.forget feature) rfl

private theorem stores_clear (p : Pipeline σ) : p.Stores p.clear := .of_call rfl .clear rfl

private theorem stores_keep (p : Pipeline σ) (tree : Tree) (feature : Feature) (bag : Bag σ) :
    p.Stores (p.keep tree feature bag).1 := by
  rw [keep]
  split
  · exact .of_call rfl (.insert tree feature bag) rfl
  · exact .of_eq rfl rfl

private theorem stores_release (p : Pipeline σ) (r : Registry κ σ) (feature : FeatureId) :
    p.Stores (p.release r feature).pipeline := by
  obtain ⟨-, -, held, hpipeline, -⟩ := release_spec p r feature
  rw [hpipeline]
  exact (p.stores_forget feature).trans (.of_eq rfl rfl)

private theorem stores_releaseAll (p : Pipeline σ) (r : Registry κ σ) :
    p.Stores (p.releaseAll r).pipeline := by
  rw [releaseAll]
  split
  · exact .of_call rfl .clear rfl
  · exact .of_eq rfl rfl

variable [KeySupply κ]

private theorem stores_renewed (p : Pipeline σ) (r : Registry κ σ) (layer tree : Tree)
    (target : Feature) :
    p.Stores (p.renewed r layer tree target).pipeline := by
  rw [renewed]
  obtain ⟨s, keys, -, -, -, ⟨fault, -, hpipeline⟩ | ⟨-, -, -, -, hpipeline⟩⟩ :=
    renewBindings_cases
      ({ p with choices := (p.fieldsOf layer tree target).2.choices } : Pipeline σ) r target.id
      ((p.fieldsOf layer tree target).1.filter fun entry => entry.2.isTimed)
  · rw [hpipeline]
    exact .of_eq rfl rfl
  · rw [hpipeline]
    exact .of_eq rfl rfl

theorem stores_resolveIn (p : Pipeline σ) (r : Registry κ σ) (layer tree : Tree)
    (target : Feature) : p.Stores (p.resolveIn r layer tree target).pipeline := by
  cases hstored : p.stored? r tree target with
  | some bag =>
    rw [resolveIn_of_some hstored]
    exact .of_eq rfl rfl
  | none =>
    have hrenewed := p.stores_renewed r layer tree target
    obtain ⟨-, ⟨fault, -, -, hpipeline⟩ | ⟨bindings, -, -, hpipeline⟩⟩ :=
      resolveIn_of_none layer hstored
    · rw [hpipeline]
      exact hrenewed
    · rw [hpipeline]
      exact hrenewed.trans (stores_keep _ tree target _)

private theorem stores_resolveEach (p : Pipeline σ) (r : Registry κ σ) (layer tree : Tree)
    (features : List Feature) : p.Stores (p.resolveEach r layer tree features).pipeline := by
  induction features generalizing p r with
  | nil => exact .of_eq rfl rfl
  | cons feature features ih =>
    have hfirst := p.stores_resolveIn r layer tree feature
    simp only [resolveEach]
    split
    · exact hfirst
    · exact hfirst.trans (ih _ _)

/-- Whatever a call does to the store, the store could have been asked to do. -/
theorem stores_perform (p : Pipeline σ) (r : Registry κ σ) (call : Call) :
    p.Stores (p.perform r call).pipeline := by
  cases call with
  | resolveAll layer upper features =>
    simp only [perform, resolveAll]
    split
    · exact p.stores_resolveEach r layer _ features
    · exact .of_eq rfl rfl
  | resolve layer upper feature => exact p.stores_resolveIn r layer _ feature
  | forget feature => exact p.stores_forget feature
  | clear => exact p.stores_clear
  | release feature => exact p.stores_release r feature
  | releaseAll => exact p.stores_releaseAll r

end Pipeline
end FeatureStyle
