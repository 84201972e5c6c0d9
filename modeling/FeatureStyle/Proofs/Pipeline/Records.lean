import Mathlib.Data.List.Forall2
import FeatureStyle.Proofs.Bag.Coherence
import FeatureStyle.Proofs.Pipeline.Guard

/-!
# What a pipeline remembers

The bindings that a pipeline holds for a feature, and the bag it stores for it, go back to one and the
same resolution: the latest one that was not answered from the store. `Records` says so, and a call
that gives a result keeps it. Nothing is asked of the registry, which others may change at will.
-/

namespace FeatureStyle

/-- The fields of a feature that depend on time, by its resolution on record. -/
def Ledger.timed (ledger : Ledger) (feature : FeatureId) : List (String × Value) :=
  match ledger feature with
  | some origin => origin.fields.filter fun entry => entry.2.isTimed
  | none => []

theorem Ledger.set_self (ledger : Ledger) (feature : FeatureId) (origin : Option Origin) :
    ledger.set feature origin feature = origin := if_pos rfl

private theorem Ledger.set_of_ne {feature other : FeatureId} (h : other ≠ feature) (ledger : Ledger)
    (origin : Option Origin) : ledger.set feature origin other = ledger other := if_neg h

/-- An origin explains the answer to a request: it was asked for the same or, if bags are kept, for an
equal tree and an equal feature. -/
def Origin.Answers (origin : Origin) (settings : Settings) (layer tree : Tree)
    (feature : Feature) : Prop :=
  origin.layer = layer ∧ origin.tree = tree ∧ origin.feature = feature ∨
    settings.keepsBags = true ∧ (origin.tree == tree) = true ∧ (origin.feature == feature) = true

namespace Pipeline

variable {κ σ : Type}

/-- What a resolution on record comes to. -/
def outcome (p : Pipeline σ) (origin : Origin) : Outcome :=
  Outcome.of p.settings.depthLimit origin.layer origin.tree origin.feature

/-- The bag that a resolution on record gave. -/
def recalled (p : Pipeline σ) (origin : Origin) : Bag σ :=
  ⟨origin.feature.id, (p.outcome origin).static, p.heldFields origin.feature.id,
    (p.outcome origin).warnings⟩

/-- The memory of a pipeline agrees with a ledger. -/
structure Records (p : Pipeline σ) (ledger : Ledger) : Prop where
  choices : p.choices.Valid
  coherent : p.store.Coherent
  capacity : p.store.capacity = p.settings.capacity
  idle : p.settings.capacity = 0 → ∀ feature stored, ¬ p.store.Keeps feature stored
  origins : ∀ feature origin, ledger feature = some origin →
    origin.feature.id = feature ∧ origin.fields = (p.outcome origin).fields
  samplers : ∀ feature field, ((p.heldFields feature).get? field).map Binding.sampler =
    (Table.get? (ledger.timed feature) field).map (p.sampler feature field)
  kept : ∀ feature stored, p.store.Keeps feature stored → ∃ origin, ledger feature = some origin ∧
    origin.tree = stored.tree ∧ origin.feature = stored.feature ∧ stored.bag = p.recalled origin

theorem records_empty (settings : Settings) (hash : Tree → UInt64)
    (sampler : FeatureId → String → Value → σ) :
    (empty settings hash sampler).Records Ledger.empty where
  choices := ChoiceTable.valid_nil
  coherent := BagStore.coherent_empty settings.capacity
  capacity := rfl
  idle := fun _ _ _ hkeeps => BagStore.not_keeps_empty hkeeps
  origins := by
    intro feature origin horigin
    cases horigin
  samplers := fun _ _ => rfl
  kept := fun _ _ hkeeps => (BagStore.not_keeps_empty hkeeps).elim

theorem ordered_empty (settings : Settings) (hash : Tree → UInt64)
    (sampler : FeatureId → String → Value → σ) : (empty settings hash sampler).Ordered :=
  ⟨List.nodup_nil, fun _ => List.Pairwise.nil, by simp [empty]⟩

variable {p q : Pipeline σ} {r : Registry κ σ} {ledger : Ledger}

private theorem outcome_congr (h : q.settings = p.settings) (origin : Origin) :
    q.outcome origin = p.outcome origin := by
  rw [outcome, outcome, h]

private theorem recalled_congr (h : q.settings = p.settings) {origin : Origin}
    (hheld : q.heldFields origin.feature.id = p.heldFields origin.feature.id) :
    q.recalled origin = p.recalled origin := by
  rw [recalled, recalled, outcome_congr h, hheld]

private theorem Records.of_store (h : p.Records ledger) (hsettings : q.settings = p.settings)
    (hsampler : q.sampler = p.sampler) (hheld : q.held = p.held) (hchoices : q.choices.Valid)
    (hcoherent : q.store.Coherent) (hcapacity : q.store.capacity = p.store.capacity)
    (hkeeps : ∀ feature stored, q.store.Keeps feature stored → p.store.Keeps feature stored) :
    q.Records ledger where
  choices := hchoices
  coherent := hcoherent
  capacity := by rw [hcapacity, h.capacity, hsettings]
  idle := by
    intro hzero feature stored hstored
    rw [hsettings] at hzero
    exact h.idle hzero feature stored (hkeeps feature stored hstored)
  origins := by
    intro feature origin horigin
    rw [outcome_congr hsettings]
    exact h.origins feature origin horigin
  samplers := by
    intro feature field
    rw [heldFields, hheld, hsampler]
    exact h.samplers feature field
  kept := by
    intro feature stored hstored
    obtain ⟨origin, horigin, htree, hfeature, hbag⟩ := h.kept feature stored (hkeeps _ _ hstored)
    refine ⟨origin, horigin, htree, hfeature, ?_⟩
    rw [recalled_congr hsettings]
    · exact hbag
    · rw [heldFields, heldFields, hheld]

private theorem Records.forget (h : p.Records ledger) (feature : FeatureId) :
    (p.forget feature).2.Records ledger := by
  apply h.of_store (q := (p.forget feature).2) rfl rfl rfl h.choices (h.coherent.forget feature)
    (BagStore.forget_capacity p.store feature)
  intro other stored hstored
  exact ((BagStore.keeps_forget_iff h.coherent).mp hstored).2

private theorem Records.clear (h : p.Records ledger) : p.clear.Records ledger := by
  apply h.of_store (q := p.clear) rfl rfl rfl ChoiceTable.valid_nil
    (BagStore.coherent_empty p.store.capacity) rfl
  intro feature stored hstored
  exact (BagStore.not_keeps_empty hstored).elim

private theorem Records.release (h : p.Records ledger) (feature : FeatureId) :
    (p.release r feature).pipeline.Records (ledger.set feature none) := by
  have hforget := h.forget feature
  have hfields := heldFields_release p r feature
  obtain ⟨-, -, held, hpipeline, -⟩ := release_spec p r feature
  have hsettings : (p.release r feature).pipeline.settings = p.settings := by rw [hpipeline]; rfl
  have hsampler : (p.release r feature).pipeline.sampler = p.sampler := by rw [hpipeline]; rfl
  have hstore : (p.release r feature).pipeline.store = (p.forget feature).2.store := by
    rw [hpipeline]
  have hchoices : (p.release r feature).pipeline.choices = p.choices := by rw [hpipeline]; rfl
  have hother : ∀ other origin, ledger.set feature none other = some origin →
      other ≠ feature ∧ ledger other = some origin := by
    intro other origin horigin
    by_cases heq : other = feature
    · rw [heq, Ledger.set_self] at horigin
      cases horigin
    · rw [Ledger.set_of_ne heq] at horigin
      exact ⟨heq, horigin⟩
  constructor
  · rw [hchoices]
    exact h.choices
  · rw [hstore]
    exact hforget.coherent
  · rw [hstore, hsettings]
    exact hforget.capacity
  · intro hzero other stored
    rw [hsettings] at hzero
    rw [hstore]
    exact hforget.idle hzero other stored
  · intro other origin horigin
    rw [outcome_congr hsettings]
    exact h.origins other origin (hother other origin horigin).2
  · intro other field
    rw [hfields, hsampler, Ledger.timed]
    split
    · rename_i heq
      rw [← heq, Ledger.set_self]
      rfl
    · rename_i hne
      rw [Ledger.set_of_ne (Ne.symm hne)]
      exact h.samplers other field
  · intro other stored hstored
    rw [hstore] at hstored
    obtain ⟨hne, hkeeps⟩ := (BagStore.keeps_forget_iff h.coherent).mp hstored
    obtain ⟨origin, horigin, htree, hfeature, hbag⟩ := h.kept other stored hkeeps
    refine ⟨origin, by rw [Ledger.set_of_ne hne, horigin], htree, hfeature, ?_⟩
    rw [recalled_congr hsettings]
    · exact hbag
    · rw [hfields, (h.origins other origin horigin).1, if_neg (Ne.symm hne)]

private theorem Records.releaseAll (h : p.Records ledger) {count : Nat}
    (hok : (p.releaseAll r).result = .ok count) :
    (p.releaseAll r).pipeline.Records Ledger.empty := by
  obtain ⟨-, -, -, -, -, hpipeline⟩ := releaseAll_spec p r
  rw [hpipeline (by rw [hok]; rfl)]
  constructor
  · exact ChoiceTable.valid_nil
  · exact BagStore.coherent_empty p.store.capacity
  · exact h.capacity
  · exact fun _ _ _ hkeeps => BagStore.not_keeps_empty hkeeps
  · intro feature origin horigin
    cases horigin
  · exact fun _ _ => rfl
  · exact fun _ _ hkeeps => (BagStore.not_keeps_empty hkeeps).elim

variable {layer tree : Tree} {target : Feature}

private theorem visited_of_some {bag : Bag σ} (h : p.stored? r tree target = some bag) :
    p.visited r layer tree target ledger = ledger := by
  rw [visited, h]

theorem visited_of_none (h : p.stored? r tree target = none) :
    p.visited r layer tree target ledger =
      ledger.set target.id (some ⟨layer, tree, target, (p.fieldsOf layer tree target).1⟩) := by
  rw [visited, h]

theorem Records.stored (h : p.Records ledger) (layer : Tree) {bag : Bag σ}
    (hstored : p.stored? r tree target = some bag) :
    ∃ origin, ledger target.id = some origin ∧ origin.Answers p.settings layer tree target ∧
      bag = p.recalled origin := by
  rw [stored?] at hstored
  split at hstored
  · rename_i hkeepsBags
    obtain ⟨hget, -⟩ := Option.filter_eq_some_iff.mp hstored
    obtain ⟨stored, hkeeps, hbag, htree, hfeature⟩ := BagStore.keeps_of_get? hget
    obtain ⟨origin, horigin, horigin_tree, horigin_feature, hrecalled⟩ := h.kept _ _ hkeeps
    rw [← horigin_tree] at htree
    rw [← horigin_feature] at hfeature
    exact ⟨origin, horigin, .inr ⟨hkeepsBags, htree, hfeature⟩, hbag ▸ hrecalled⟩
  · cases hstored

variable [KeySupply κ]

private theorem renewBindings_ok {feature : FeatureId} {dynamic : List (String × Value)}
    (hn : (dynamic.map Prod.fst).Nodup) {bindings : Fields (Binding σ)}
    (hok : (p.renewBindings r feature dynamic).result = .ok bindings) :
    (p.renewBindings r feature dynamic).pipeline = p.withHeld feature bindings ∧
      ∀ field, (bindings.get? field).map Binding.sampler =
        (Table.get? dynamic field).map (p.sampler feature field) := by
  obtain ⟨s, keys, rfl, -, -, hcase⟩ := renewBindings_cases p r feature dynamic
  rcases hcase with ⟨fault, herror, -⟩ | ⟨hrenewed, -, -, hresult, hpipeline⟩
  · rw [hok] at herror
    cases herror
  · rw [hok] at hresult
    cases hresult
    refine ⟨hpipeline, ?_⟩
    intro field
    have hcurrent := Renewal.current_renewEach (p.sampled_names feature dynamic ▸ hn) hrenewed field
    have hmap := Fields.get?_map dynamic (fun name value => p.sampler feature name value) field
    rw [Fields.get?] at hmap
    rw [hmap] at hcurrent
    exact hcurrent.trans (Option.or_none)

theorem resolveIn_ok {layer tree : OrderedTree} {bag : Bag σ}
    (hstored : p.stored? r tree target = none)
    (hok : (p.resolveIn r layer tree target).result = .ok bag) :
    ∃ bindings, bag = p.freshBag layer tree target bindings ∧
      (p.resolveIn r layer tree target).pipeline =
        ((({ p with choices := (p.fieldsOf layer tree target).2.choices } : Pipeline σ).withHeld
          target.id bindings).keep tree target bag).1 ∧
      ∀ field, (bindings.get? field).map Binding.sampler =
        (Table.get? ((p.fieldsOf layer tree target).1.filter fun entry => entry.2.isTimed)
          field).map (p.sampler target.id field) := by
  obtain ⟨-, ⟨fault, -, herror, -⟩ | ⟨bindings, hrenewed, hresult, hpipeline⟩⟩ :=
    resolveIn_of_none layer hstored
  · rw [hok] at herror
    cases herror
  · rw [hok] at hresult
    cases hresult
    obtain ⟨hheld, hsamplers⟩ :=
      renewBindings_ok (p.timed_keys_nodup layer tree target) hrenewed
    refine ⟨bindings, rfl, ?_, hsamplers⟩
    rw [hpipeline, renewed, hheld]

omit [KeySupply κ] in
theorem keep_eq (p : Pipeline σ) (tree : Tree) (feature : Feature) (bag : Bag σ) :
    (p.keep tree feature bag).1 =
      { p with
        store := if p.settings.keepsBags then (p.store.insert (p.hash tree) tree feature bag).2
          else p.store } := by
  rw [keep]
  split <;> rfl

omit [KeySupply κ] in
/-- After a bag is kept, the store keeps it, or a bag of another feature that it kept before. -/
theorem Records.keeps_of_kept (h : p.Records ledger) {bag : Bag σ} {feature : FeatureId}
    {stored : StoredBag σ}
    (hstored : (if p.settings.keepsBags then (p.store.insert (p.hash tree) tree target bag).2
      else p.store).Keeps feature stored) :
    feature = target.id ∧ stored = ⟨tree, target, bag⟩ ∨
      feature ≠ target.id ∧ p.store.Keeps feature stored := by
  split at hstored
  · rcases BagStore.keeps_insert h.coherent hstored with hnew | ⟨hzero | hne, hold⟩
    · exact .inl hnew
    · rw [h.capacity] at hzero
      exact absurd hold (h.idle hzero feature stored)
    · exact .inr ⟨hne, hold⟩
  · rename_i hkeepsBags
    have hzero : p.settings.capacity = 0 := by
      simpa [Settings.keepsBags] using hkeepsBags
    exact absurd hstored (h.idle hzero feature stored)

private theorem Records.fresh (h : p.Records ledger) {bindings : Fields (Binding σ)}
    (hsamplers : ∀ field, (bindings.get? field).map Binding.sampler =
      (Table.get? ((p.fieldsOf layer tree target).1.filter fun entry => entry.2.isTimed)
        field).map (p.sampler target.id field))
    (hq : q = ((({ p with choices := (p.fieldsOf layer tree target).2.choices } :
      Pipeline σ).withHeld target.id bindings).keep tree target
        (p.freshBag layer tree target bindings)).1) :
    q.Records
        (ledger.set target.id (some ⟨layer, tree, target, (p.fieldsOf layer tree target).1⟩)) ∧
      p.freshBag layer tree target bindings =
        q.recalled ⟨layer, tree, target, (p.fieldsOf layer tree target).1⟩ ∧
      ∀ other, other ≠ target.id → q.heldFields other = p.heldFields other := by
  obtain ⟨hfields, hwarnings, hvalid⟩ := p.fieldsOf_outcome h.choices layer tree target
  rw [keep_eq] at hq
  have hsettings : q.settings = p.settings := by rw [hq]; rfl
  have hsampler : q.sampler = p.sampler := by rw [hq]; rfl
  have hheld : ∀ other, q.heldFields other =
      if target.id = other then bindings else p.heldFields other := by
    intro other
    rw [hq]
    exact heldFields_withHeld p target.id bindings other
  have hstore : q.store = if p.settings.keepsBags then
      (p.store.insert (p.hash tree) tree target (p.freshBag layer tree target bindings)).2
      else p.store := by
    rw [hq]
    rfl
  have hrecalled : p.freshBag layer tree target bindings =
      q.recalled ⟨layer, tree, target, (p.fieldsOf layer tree target).1⟩ := by
    rw [recalled, outcome_congr hsettings, hheld, if_pos rfl, freshBag, hfields, hwarnings]
    rfl
  refine ⟨?_, hrecalled, fun other hother => by rw [hheld, if_neg (Ne.symm hother)]⟩
  constructor
  · rw [hq]
    exact hvalid
  · rw [hstore]
    split
    · exact h.coherent.insert
    · exact h.coherent
  · rw [hstore, hsettings]
    split
    · rw [BagStore.insert_capacity, h.capacity]
    · exact h.capacity
  · intro hzero
    rw [hsettings] at hzero
    have hkeeps : p.settings.keepsBags = false := by rw [Settings.keepsBags, hzero]; rfl
    rw [hstore, hkeeps]
    exact h.idle hzero
  · intro feature origin horigin
    rw [outcome_congr hsettings]
    by_cases heq : feature = target.id
    · rw [heq, Ledger.set_self] at horigin
      cases horigin
      exact ⟨heq.symm, hfields⟩
    · rw [Ledger.set_of_ne heq] at horigin
      exact h.origins feature origin horigin
  · intro feature field
    rw [hheld, hsampler, Ledger.timed]
    split
    · rename_i heq
      rw [← heq, Ledger.set_self]
      exact hsamplers field
    · rename_i hne
      rw [Ledger.set_of_ne (Ne.symm hne)]
      exact h.samplers feature field
  · intro feature stored hstored
    rw [hstore] at hstored
    rcases h.keeps_of_kept hstored with ⟨rfl, rfl⟩ | ⟨hne, hold⟩
    · exact ⟨_, Ledger.set_self _ _ _, rfl, rfl, hrecalled⟩
    · obtain ⟨origin, horigin, htree, hfeature, hbag⟩ := h.kept feature stored hold
      refine ⟨origin, by rw [Ledger.set_of_ne hne, horigin], htree, hfeature, ?_⟩
      rw [recalled_congr hsettings]
      · exact hbag
      · rw [(h.origins feature origin horigin).1, hheld, if_neg (Ne.symm hne)]

theorem Records.resolveIn (h : p.Records ledger) {layer tree : OrderedTree} {bag : Bag σ}
    (hok : (p.resolveIn r layer tree target).result = .ok bag) :
    (p.resolveIn r layer tree target).pipeline.Records (p.visited r layer tree target ledger) ∧
      (∃ origin, p.visited r layer tree target ledger target.id = some origin ∧
        origin.Answers p.settings layer tree target ∧
        bag = (p.resolveIn r layer tree target).pipeline.recalled origin) ∧
      ∀ other, other ≠ target.id →
        (p.resolveIn r layer tree target).pipeline.heldFields other = p.heldFields other ∧
          p.visited r layer tree target ledger other = ledger other := by
  cases hstored : p.stored? r tree target with
  | some stored =>
    obtain ⟨origin, horigin, hanswers, hbag⟩ := h.stored layer hstored
    rw [resolveIn_of_some hstored] at hok ⊢
    cases hok
    rw [visited_of_some hstored]
    exact ⟨h, ⟨origin, horigin, hanswers, hbag⟩, fun _ _ => ⟨rfl, rfl⟩⟩
  | none =>
    obtain ⟨bindings, rfl, hpipeline, hsamplers⟩ := resolveIn_ok hstored hok
    obtain ⟨hrecords, hbag, hheld⟩ := h.fresh hsamplers hpipeline
    rw [visited_of_none hstored]
    refine ⟨hrecords, ⟨_, Ledger.set_self _ _ _, .inl ⟨rfl, rfl, rfl⟩, hbag⟩, ?_⟩
    intro other hother
    exact ⟨hheld other hother, Ledger.set_of_ne hother _ _⟩

/-- The bags of several features are recalled from the resolutions on record in the end, if no
feature is resolved twice. -/
theorem Records.resolveEach (h : p.Records ledger) (hp : p.Ordered) (hr : r.Sound)
    {layer tree : OrderedTree} {features : List Feature}
    (hnodup : (features.map Feature.id).Nodup) {bags : List (Bag σ)}
    (hok : (p.resolveEach r layer tree features).result = .ok bags) :
    (p.resolveEach r layer tree features).pipeline.Records
        (p.visitedEach r layer tree features ledger) ∧
      List.Forall₂ (fun (feature : Feature) bag => ∃ origin,
        p.visitedEach r layer tree features ledger feature.id = some origin ∧
          origin.Answers p.settings layer tree feature ∧
          bag = (p.resolveEach r layer tree features).pipeline.recalled origin) features bags ∧
      ∀ other, other ∉ features.map Feature.id →
        (p.resolveEach r layer tree features).pipeline.heldFields other = p.heldFields other ∧
          p.visitedEach r layer tree features ledger other = ledger other := by
  induction features generalizing p r ledger bags with
  | nil =>
    cases hok
    exact ⟨h, .nil, fun _ _ => ⟨rfl, rfl⟩⟩
  | cons feature features ih =>
    obtain ⟨hnew, hnodup⟩ := List.nodup_cons.mp hnodup
    simp only [Pipeline.resolveEach, visitedEach] at hok ⊢
    split at hok
    · cases hok
    · rename_i bag hbag
      obtain ⟨hfirst, ⟨origin, horigin, hanswers, hrecalled⟩, hothers⟩ :=
        h.resolveIn hbag
      obtain ⟨rest, hrest, rfl⟩ := map_eq_ok hok
      have hconfined := resolveIn_confined hp hr layer tree feature
      obtain ⟨hrecords, hbags, hframe⟩ :=
        ih hfirst hconfined.ordered hconfined.sound hnodup hrest
      rw [hconfined.settings] at hbags
      obtain ⟨hheld, hledger⟩ := hframe feature.id hnew
      have hid := (hfirst.origins _ _ horigin).1
      refine ⟨hrecords, .cons ⟨origin, hledger.trans horigin, hanswers, ?_⟩ hbags, ?_⟩
      · rw [hrecalled]
        apply Eq.symm
        apply recalled_congr
        · exact (resolveEach_confined hconfined.ordered hconfined.sound layer tree features).settings
        · rw [hid, hheld]
      · intro other hother
        rw [List.map_cons, List.mem_cons, not_or] at hother
        obtain ⟨hheld, hledger⟩ := hframe other hother.2
        obtain ⟨hheld', hledger'⟩ := hothers other hother.1
        exact ⟨hheld.trans hheld', hledger.trans hledger'⟩

private theorem recorded_request {call : Call} {layer : OrderedTree} {upper : Option OrderedTree}
    {features : List Feature} (hrequest : call.request? = some (layer, upper, features)) :
    p.recorded r ledger call =
      p.visitedEach r layer (layer.layered upper) features ledger := by
  cases call with
  | resolveAll layer upper features =>
    cases hrequest
    rfl
  | resolve layer upper feature =>
    cases hrequest
    rfl
  | forget feature => cases hrequest
  | clear => cases hrequest
  | release feature => cases hrequest
  | releaseAll => cases hrequest

omit [KeySupply κ] in
private theorem touches_of_mem {call : Call} {layer : OrderedTree} {upper : Option OrderedTree}
    {features : List Feature}
    (hrequest : call.request? = some (layer, upper, features)) {other : FeatureId} :
    call.Touches other ↔ other ∈ features.map Feature.id := by
  cases call with
  | resolveAll layer upper features =>
    cases hrequest
    exact Iff.rfl
  | resolve layer upper feature =>
    cases hrequest
    simp [Call.Touches]
  | forget feature => cases hrequest
  | clear => cases hrequest
  | release feature => cases hrequest
  | releaseAll => cases hrequest

variable {call : Call} {bags : List (Bag σ)}

/-- The bags that a call gives are recalled from the resolutions on record after it. -/
theorem Records.perform_bags (h : p.Records ledger) (hp : p.Ordered) (hr : r.Sound)
    (hok : (p.perform r call).result = .ok bags) {layer : OrderedTree} {upper : Option OrderedTree}
    {features : List Feature} (hrequest : call.request? = some (layer, upper, features)) :
    List.Forall₂ (fun (feature : Feature) bag => ∃ origin,
      p.recorded r ledger call feature.id = some origin ∧
        origin.Answers p.settings layer (layer.layered upper) feature ∧
        bag = (p.perform r call).pipeline.recalled origin) features bags := by
  obtain ⟨hnodup, hresult, hpipeline, -⟩ := perform_request hrequest hok
  rw [hpipeline, recorded_request hrequest]
  exact (h.resolveEach hp hr hnodup hresult).2.1

theorem Records.perform (h : p.Records ledger) (hp : p.Ordered) (hr : r.Sound)
    (hok : (p.perform r call).result = .ok bags) :
    (p.perform r call).pipeline.Records (p.recorded r ledger call) ∧
      ∀ other, ¬ call.Touches other →
        (p.perform r call).pipeline.heldFields other = p.heldFields other := by
  cases hrequest : call.request? with
  | some request =>
    obtain ⟨layer, upper, features⟩ := request
    obtain ⟨hnodup, hresult, hpipeline, -⟩ := perform_request hrequest hok
    obtain ⟨hrecords, -, hframe⟩ := h.resolveEach hp hr hnodup hresult
    rw [hpipeline, recorded_request hrequest]
    refine ⟨hrecords, fun other hother => (hframe other ?_).1⟩
    rw [← touches_of_mem hrequest]
    exact hother
  | none =>
    cases call with
    | resolveAll layer upper features => cases hrequest
    | resolve layer upper feature => cases hrequest
    | forget feature => exact ⟨h.forget feature, fun _ _ => rfl⟩
    | clear => exact ⟨h.clear, fun _ _ => rfl⟩
    | release feature =>
      refine ⟨h.release feature, fun other hother => ?_⟩
      exact (heldFields_release p r feature other).trans (if_neg (Ne.symm hother))
    | releaseAll =>
      obtain ⟨count, hcount, -⟩ := map_eq_ok hok
      exact ⟨h.releaseAll hcount, fun other hother => absurd trivial hother⟩

private theorem forall₂_mem_left {α β : Type} {R : α → β → Prop} {xs : List α} {ys : List β}
    (h : List.Forall₂ R xs ys) {x : α} (hx : x ∈ xs) : ∃ y ∈ ys, R x y := by
  induction h with
  | nil => cases hx
  | cons hhead _ ih =>
    rcases List.mem_cons.mp hx with rfl | hx
    · exact ⟨_, List.mem_cons_self, hhead⟩
    · obtain ⟨y, hy, hxy⟩ := ih hx
      exact ⟨y, List.mem_cons_of_mem _ hy, hxy⟩

theorem eq_nil_of_request?_eq_none (hrequest : call.request? = none)
    (hok : (p.perform r call).result = .ok bags) : bags = [] := by
  cases call with
  | resolveAll layer upper features => cases hrequest
  | resolve layer upper feature => cases hrequest
  | forget feature => exact (Except.ok.inj hok).symm
  | clear => exact (Except.ok.inj hok).symm
  | release feature => exact (map_eq_ok hok).choose_spec.2.symm
  | releaseAll => exact (map_eq_ok hok).choose_spec.2.symm

theorem Records.dynamic_of_mem (h : p.Records ledger) (hp : p.Ordered) (hr : r.Sound)
    (hok : (p.perform r call).result = .ok bags) {bag : Bag σ} (hbag : bag ∈ bags) :
    bag.dynamic = (p.perform r call).pipeline.heldFields bag.feature := by
  cases hrequest : call.request? with
  | some request =>
    obtain ⟨layer, upper, features⟩ := request
    have hbags := h.perform_bags hp hr hok hrequest
    obtain ⟨feature, -, origin, -, -, rfl⟩ := forall₂_mem_left hbags.flip hbag
    rfl
  | none =>
    rw [eq_nil_of_request?_eq_none hrequest hok] at hbag
    cases hbag

theorem Records.exists_bag (h : p.Records ledger) (hp : p.Ordered) (hr : r.Sound)
    (hok : (p.perform r call).result = .ok bags) {layer : OrderedTree} {upper : Option OrderedTree}
    {features : List Feature} (hrequest : call.request? = some (layer, upper, features))
    {feature : FeatureId} (htouches : call.Touches feature) :
    ∃ bag ∈ bags, bag.feature = feature := by
  rw [touches_of_mem hrequest] at htouches
  obtain ⟨target, htarget, rfl⟩ := List.mem_map.mp htouches
  have hbags := h.perform_bags hp hr hok hrequest
  obtain ⟨bag, hbag, origin, horigin, -, rfl⟩ := forall₂_mem_left hbags htarget
  exact ⟨_, hbag, ((h.perform hp hr hok).1.origins _ _ horigin).1⟩

end Pipeline
end FeatureStyle
