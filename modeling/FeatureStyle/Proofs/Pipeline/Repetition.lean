import FeatureStyle.Proofs.Pipeline.Effects
import FeatureStyle.Proofs.Pipeline.Records

/-!
# Resolving a feature again

A feature that was resolved just now is resolved to the same bag again, and no binding is touched,
whether the bag comes from the store or is made anew. The main statement is `resolveIn_again`.
-/

namespace FeatureStyle

namespace Renewal

variable {κ σ : Type} {s : Renewal κ σ} {field : String} {binding : Binding σ}
  {fields : List (String × σ)}

/-- A previous binding becomes a current one as it is. -/
def takeOver (s : Renewal κ σ) (field : String) (binding : Binding σ) : Renewal κ σ :=
  { s with
    previous := s.previous.erase field
    current := s.current.insert field binding }

/-- Fields have previous bindings that are in the registry with the samplers they are to have. -/
def UpToDate (s : Renewal κ σ) (fields : List (String × σ)) : Prop :=
  ∀ entry ∈ fields, ∃ binding, s.previous.get? entry.1 = some binding ∧
    s.registry.get? binding.key = some binding ∧ binding.sampler = entry.2

private theorem UpToDate.takeOver (h : s.UpToDate fields) (hnew : field ∉ fields.map Prod.fst)
    (binding : Binding σ) : (s.takeOver field binding).UpToDate fields := by
  intro entry hentry
  obtain ⟨old, hold, hbound⟩ := h entry hentry
  refine ⟨old, ?_, hbound⟩
  rw [Renewal.takeOver, Fields.get?_erase, if_neg]
  · exact hold
  · intro heq
    have hmem : entry.1 ∈ fields.map Prod.fst := List.mem_map_of_mem hentry
    rw [← heq] at hmem
    exact hnew hmem

variable [KeySupply κ]

private theorem renew?_idle (hr : Table.Functional s.registry.bindings) (feature : FeatureId)
    (hold : s.previous.get? field = some binding)
    (hget : s.registry.get? binding.key = some binding) :
    s.renew? feature field binding.sampler = some (s.takeOver field binding) := by
  rw [renew?_of_bound feature binding.sampler hold hget, Registry.rebind_self hr hget]
  rfl

private theorem renewEach_idle (hr : Table.Functional s.registry.bindings) (feature : FeatureId)
    (hn : (fields.map Prod.fst).Nodup) (h : s.UpToDate fields) :
    (s.renewEach feature fields).1 = .ok () ∧
      (s.renewEach feature fields).2.registry = s.registry ∧
      (∀ x, (s.renewEach feature fields).2.previous.get? x =
        if x ∈ fields.map Prod.fst then none else s.previous.get? x) ∧
      ∀ x, (s.renewEach feature fields).2.current.get? x =
        if x ∈ fields.map Prod.fst then s.previous.get? x else s.current.get? x := by
  induction fields generalizing s with
  | nil => exact ⟨rfl, rfl, fun _ => rfl, fun _ => rfl⟩
  | cons entry fields ih =>
    obtain ⟨field, sampler⟩ := entry
    rw [List.map_cons, List.nodup_cons] at hn
    obtain ⟨hnew, hrest⟩ := hn
    obtain ⟨binding, hold, hget, rfl⟩ := h _ List.mem_cons_self
    have htail : s.UpToDate fields := fun other hother => h other (List.mem_cons_of_mem _ hother)
    obtain ⟨hok, hregistry, hprevious, hcurrent⟩ :=
      ih (s := s.takeOver field binding) hr hrest (htail.takeOver hnew binding)
    rw [renewEach, renew?_idle hr feature hold hget]
    refine ⟨hok, hregistry, fun x => ?_, fun x => ?_⟩
    · rw [hprevious, takeOver, Fields.get?_erase, List.map_cons]
      by_cases hx : field = x
      · subst hx
        simp
      · simp only [List.mem_cons, if_neg hx, Ne.symm hx, false_or]
    · rw [hcurrent, takeOver, Fields.get?_insert, Fields.get?_erase, List.map_cons]
      by_cases hx : field = x
      · subst hx
        simp [hnew, hold]
      · simp only [List.mem_cons, if_neg hx, Ne.symm hx, false_or]

end Renewal

namespace Pipeline

variable {κ σ : Type} {p : Pipeline σ} {r : Registry κ σ} {ledger : Ledger} {layer tree : Tree}
  {target : Feature}

private theorem withHeld_of_held {q : Pipeline σ} {feature : FeatureId}
    {fields : Fields (Binding σ)}
    (h : q.held = (p.withHeld feature fields).held) :
    (q.withHeld feature (q.heldFields feature)).held = q.held := by
  have hfields : q.heldFields feature = fields := by
    rw [heldFields, h, ← heldFields, heldFields_withHeld, if_pos rfl]
  have herase : q.held.erase feature = p.held.erase feature := by
    rw [h, withHeld]
    split
    · exact Table.erase_erase p.held feature
    · exact (Table.erase_put _ feature fields).trans (Table.erase_erase p.held feature)
  rw [hfields, h, withHeld, herase]
  rfl

theorem Records.eq_recalled_of_stored (h : p.Records ledger) {origin : Origin}
    (horigin : ledger target.id = some origin) {bag : Bag σ}
    (hstored : p.stored? r tree target = some bag) : bag = p.recalled origin := by
  obtain ⟨other, hother, -, hbag⟩ := h.stored tree hstored
  rw [horigin] at hother
  cases hother
  exact hbag

variable [KeySupply κ]

section Renewing

variable {feature : FeatureId} {dynamic : List (String × Value)}

theorem renewal_idle (hp : p.Ordered) (ht : p.Tracks r) (hr : Table.Functional r.bindings)
    (hn : (dynamic.map Prod.fst).Nodup)
    (hsamplers : ∀ field, ((p.heldFields feature).get? field).map Binding.sampler =
      (Table.get? dynamic field).map (p.sampler feature field)) :
    (p.renewal r feature dynamic).1 = .ok () ∧ (p.renewal r feature dynamic).2.registry = r ∧
      (p.renewal r feature dynamic).2.previous = [] ∧
      (p.renewal r feature dynamic).2.current = p.heldFields feature := by
  have hheld : Renewal.UpToDate ⟨r, p.heldFields feature, [], []⟩
      (dynamic.map fun entry => (entry.1, p.sampler feature entry.1 entry.2)) := by
    intro entry hentry
    obtain ⟨⟨field, value⟩, hmem, rfl⟩ := List.mem_map.mp hentry
    have hsampler := hsamplers field
    rw [Table.get?_of_mem hn hmem] at hsampler
    obtain ⟨binding, hbinding, heq⟩ := Option.map_eq_some_iff.mp hsampler
    exact ⟨binding, hbinding, (ht feature field binding hbinding).1, heq⟩
  have hunnamed : ∀ x, x ∉ dynamic.map Prod.fst → (p.heldFields feature).get? x = none := by
    intro x hx
    have hsampler := hsamplers x
    rw [Table.get?_eq_none_iff.mpr hx] at hsampler
    exact Option.map_eq_none_iff.mp hsampler
  have hnames := p.sampled_names feature dynamic
  obtain ⟨hok, hregistry, hprevious, hcurrent⟩ :=
    Renewal.renewEach_idle hr feature (hnames ▸ hn) hheld
  have hsorted := Renewal.sorted_renewEach (s := ⟨r, p.heldFields feature, [], []⟩)
    List.Pairwise.nil feature
    (dynamic.map fun entry => (entry.1, p.sampler feature entry.1 entry.2))
  rw [← renewal] at hok hregistry hprevious hcurrent hsorted
  rw [hnames] at hprevious hcurrent
  refine ⟨hok, hregistry, ?_, ?_⟩
  · apply Fields.eq_nil_of_get?_eq_none
    intro x
    rw [hprevious]
    split
    · rfl
    · exact hunnamed x ‹_›
  · apply Fields.eq_of_get?_eq hsorted (hp.sorted feature)
    intro x
    rw [hcurrent]
    split
    · rfl
    · exact (hunnamed x ‹_›).symm

private theorem renewBindings_idle (hp : p.Ordered) (ht : p.Tracks r)
    (hr : Table.Functional r.bindings)
    (hn : (dynamic.map Prod.fst).Nodup)
    (hsamplers : ∀ field, ((p.heldFields feature).get? field).map Binding.sampler =
      (Table.get? dynamic field).map (p.sampler feature field)) :
    (p.renewBindings r feature dynamic).result = .ok (p.heldFields feature) ∧
      (p.renewBindings r feature dynamic).registry = r ∧
      (p.renewBindings r feature dynamic).pipeline =
        p.withHeld feature (p.heldFields feature) := by
  obtain ⟨hok, hregistry, hprevious, hcurrent⟩ := renewal_idle hp ht hr hn hsamplers
  have hrenewal : p.renewal r feature dynamic = (.ok (), (p.renewal r feature dynamic).2) :=
    Prod.ext hok rfl
  rw [renewBindings_eq, hrenewal]
  simp only [leftover, hprevious, hcurrent, hregistry, List.map_nil, Registry.unbindEach, and_self]

end Renewing

theorem Records.resolveIn_idle (h : p.Records ledger) (hp : p.Ordered) (ht : p.Tracks r)
    (hr : Table.Functional r.bindings) {layer tree : OrderedTree} {fields : List (String × Value)}
    (horigin : ledger target.id = some ⟨layer, tree, target, fields⟩)
    (hstored : p.stored? r tree target = none) :
    let bag := p.recalled ⟨layer, tree, target, fields⟩
    (p.resolveIn r layer tree target).result = .ok bag ∧
      (p.resolveIn r layer tree target).registry = r ∧
      (p.resolveIn r layer tree target).pipeline =
        ((({ p with choices := (p.fieldsOf layer tree target).2.choices } : Pipeline σ).withHeld
          target.id (p.heldFields target.id)).keep tree target bag).1 := by
  obtain ⟨hfields, hwarnings, -⟩ := p.fieldsOf_outcome h.choices layer tree target
  have hsame : (p.fieldsOf layer tree target).1 = fields :=
    hfields.trans (h.origins _ _ horigin).2.symm
  have hsamplers : ∀ field, ((p.heldFields target.id).get? field).map Binding.sampler =
      (Table.get? ((p.fieldsOf layer tree target).1.filter fun entry => entry.2.isTimed)
        field).map (p.sampler target.id field) := by
    intro field
    rw [h.samplers, Ledger.timed, horigin, hsame]
  obtain ⟨hresult, hregistry, hpipeline⟩ := renewBindings_idle
    (hp.with_choices (p.fieldsOf layer tree target).2.choices) ht hr
    (p.timed_keys_nodup layer tree target) hsamplers
  rw [← renewed] at hresult hregistry hpipeline
  have hbag : p.freshBag layer tree target (p.heldFields target.id) =
      p.recalled ⟨layer, tree, target, fields⟩ := by
    rw [freshBag, recalled, hfields, hwarnings]
    rfl
  obtain ⟨hturn, ⟨fault, hfault, -, -⟩ | ⟨bindings, hbindings, hok, hkept⟩⟩ :=
    resolveIn_of_none layer hstored
  · rw [hresult] at hfault
    cases hfault
  · rw [hresult] at hbindings
    cases hbindings
    rw [← hbag]
    refine ⟨hok, hturn.trans hregistry, ?_⟩
    rw [hkept, hpipeline]
    rfl

/-- Resolving what a pipeline has on record gives the bag recalled from it. If the bindings of the
feature are in their place and its bag is in the store, everything stays as it is. -/
theorem Records.resolveIn_current (h : p.Records ledger) (hp : p.Ordered) (ht : p.Tracks r)
    (hr : Table.Functional r.bindings) (hstore : p.store.Consistent p.hash)
    {layer tree : OrderedTree} {fields : List (String × Value)}
    (horigin : ledger target.id = some ⟨layer, tree, target, fields⟩)
    (hplace : (p.withHeld target.id (p.heldFields target.id)).held = p.held)
    (hkept : p.settings.keepsBags = true → ∃ stored, p.store.Keeps target.id stored) :
    (p.resolveIn r layer tree target).result =
        .ok (p.recalled ⟨layer, tree, target, fields⟩) ∧
      (p.resolveIn r layer tree target).registry = r ∧
      (p.resolveIn r layer tree target).pipeline.held = p.held ∧
      (p.resolveIn r layer tree target).pipeline.store.size = p.store.size := by
  cases hstored : p.stored? r tree target with
  | some bag =>
    rw [resolveIn_of_some hstored, h.eq_recalled_of_stored horigin hstored]
    exact ⟨rfl, rfl, rfl, rfl⟩
  | none =>
    obtain ⟨hresult, hregistry, hpipeline⟩ := h.resolveIn_idle hp ht hr horigin hstored
    rw [hpipeline, keep_held, keep_eq]
    refine ⟨hresult, hregistry, hplace, ?_⟩
    dsimp only
    split
    · rename_i hkeepsBags
      obtain ⟨stored, hstored⟩ := hkept hkeepsBags
      exact hstore.size_insert hstored
    · rfl

theorem resolveIn_fresh {layer tree : OrderedTree} (hstore : p.store.Consistent p.hash)
    (hcapacity : p.store.capacity = p.settings.capacity)
    (hstored : p.stored? r tree target = none) {bag : Bag σ}
    (hok : (p.resolveIn r layer tree target).result = .ok bag) :
    let q := (p.resolveIn r layer tree target).pipeline
    (q.withHeld target.id (q.heldFields target.id)).held = q.held ∧
      (q.settings.keepsBags = true → q.store.Keeps target.id ⟨tree, target, bag⟩) := by
  obtain ⟨bindings, -, hpipeline, -⟩ := resolveIn_ok hstored hok
  refine ⟨?_, fun hkeepsBags => ?_⟩
  · apply withHeld_of_held
    rw [hpipeline, keep_held]
  · rw [hpipeline, keep_eq] at hkeepsBags ⊢
    have hpositive : 0 < p.settings.capacity := of_decide_eq_true hkeepsBags
    have hnonzero : p.store.capacity ≠ 0 := by omega
    dsimp only at hkeepsBags ⊢
    rw [if_pos hkeepsBags]
    exact (BagStore.keeps_insert_iff hstore hnonzero).mpr (.inl ⟨rfl, rfl⟩)

/-- A feature that was resolved gets the same bag again, and neither the registry nor what is held
nor the number of stored bags changes. -/
theorem resolveIn_again (h : p.Records ledger) (hp : p.Ordered) (hs : r.Sound) (ht : p.Tracks r)
    (hr : Table.Functional r.bindings) (hstore : p.store.Consistent p.hash)
    {layer tree : OrderedTree} {bag : Bag σ}
    (hok : (p.resolveIn r layer tree target).result = .ok bag) :
    let first := p.resolveIn r layer tree target
    let second := first.pipeline.resolveIn first.registry layer tree target
    second.result = .ok bag ∧ second.registry = first.registry ∧
      second.pipeline.held = first.pipeline.held ∧
      second.pipeline.store.size = first.pipeline.store.size := by
  cases hstored : p.stored? r tree target with
  | some stored =>
    -- Nothing happened the first time, so the bag is found again.
    rw [resolveIn_of_some hstored] at hok ⊢
    dsimp only
    rw [resolveIn_of_some hstored]
    exact ⟨hok, rfl, rfl, rfl⟩
  | none =>
    obtain ⟨hrecords, ⟨origin, horigin, -, hbag⟩, -⟩ := h.resolveIn hok
    rw [visited_of_none hstored, Ledger.set_self] at horigin
    cases horigin
    rw [visited_of_none hstored] at hrecords
    have hconfined := resolveIn_confined hp hs layer tree target
    obtain ⟨touched, hrenews⟩ := resolveIn_renews hp hs ht.guards hok
    obtain ⟨hplace, hkept⟩ := resolveIn_fresh hstore h.capacity hstored hok
    rw [hbag]
    exact hrecords.resolveIn_current hconfined.ordered (hrenews.tracks ht)
      (Registry.keepsUp_functional.resolveIn hr layer tree target)
      ((p.stores_resolveIn r layer tree target).consistent hstore) (Ledger.set_self _ _ _) hplace
      fun hkeepsBags => ⟨_, hkept hkeepsBags⟩

end Pipeline
end FeatureStyle
