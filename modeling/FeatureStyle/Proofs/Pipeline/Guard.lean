import FeatureStyle.Proofs.Layer.Ordered
import FeatureStyle.Proofs.Pipeline.Confinement
import FeatureStyle.Proofs.Pipeline.Outcome

/-!
# Guarded bindings

A pipeline is guarded if each binding it holds is in the registry for its own feature and field. A
guarded pipeline stays guarded: it renews its bindings one feature at a time, and those of one feature
are never in the way of another's. If moreover the registry has the very bindings that are held, then
after every call each binding of the registry either is held or was another's before.
-/

namespace FeatureStyle

namespace Tree

private theorem resolveRoot_keys_sublist (f : Feature) (fields : List (String × Value))
    (p : Progress) :
    ((resolveRoot f fields p).1.map Prod.fst).Sublist (fields.map Prod.fst) := by
  induction fields generalizing p with
  | nil => exact List.Sublist.refl _
  | cons entry fields ih =>
    obtain ⟨field, value⟩ := entry
    simp only [resolveRoot]
    split
    · exact (ih _).cons_cons field
    · exact (ih _).cons field

end Tree

namespace Pipeline

variable {κ σ : Type} {p p' : Pipeline σ} {r r' : Registry κ σ}

theorem fieldsOf_keys_nodup (p : Pipeline σ) (layer tree : OrderedTree) (feature : Feature) :
    ((p.fieldsOf layer tree feature).1.map Prod.fst).Nodup := by
  simp only [fieldsOf]
  split
  · exact (Fields.functional_of_sorted layer.sorted).sublist (layer.fallback_keys_sublist _)
  · exact (Fields.functional_of_sorted tree.sorted).sublist
      (Tree.resolveRoot_keys_sublist feature tree.fields _)

theorem timed_keys_nodup (p : Pipeline σ) (layer tree : OrderedTree) (feature : Feature) :
    (((p.fieldsOf layer tree feature).1.filter fun entry => entry.2.isTimed).map
      Prod.fst).Nodup :=
  (p.fieldsOf_keys_nodup layer tree feature).sublist (List.filter_sublist.map Prod.fst)

/-- Every binding held is in the registry for its feature and field. -/
def Guards (p : Pipeline σ) (r : Registry κ σ) : Prop :=
  ∀ feature field binding, p.Holds feature field binding → ∃ known,
    r.get? binding.key = some known ∧ known.feature = feature ∧ known.field = field

/-- Every binding held is in the registry as it is, and for its feature and field. -/
def Tracks (p : Pipeline σ) (r : Registry κ σ) : Prop :=
  ∀ feature field binding, p.Holds feature field binding →
    r.get? binding.key = some binding ∧ binding.feature = feature ∧ binding.field = field

theorem Tracks.guards (h : p.Tracks r) : p.Guards r :=
  fun feature field binding hholds => ⟨binding, h feature field binding hholds⟩

theorem Guards.inj (h : p.Guards r) {feature feature' : FeatureId} {field field' : String}
    {binding binding' : Binding σ} (hholds : p.Holds feature field binding)
    (hholds' : p.Holds feature' field' binding') (hkey : binding.key = binding'.key) :
    feature = feature' ∧ field = field' := by
  obtain ⟨known, hknown, hfeature, hfield⟩ := h feature field binding hholds
  obtain ⟨known', hknown', hfeature', hfield'⟩ := h feature' field' binding' hholds'
  rw [hkey, hknown'] at hknown
  cases hknown
  exact ⟨hfeature.symm.trans hfeature', hfield.symm.trans hfield'⟩

/-- The bindings of some features are replaced in the pipeline and in the registry, and everything
else is left alone. -/
structure Renews (p : Pipeline σ) (r : Registry κ σ) (touched : FeatureId → Prop)
    (p' : Pipeline σ) (r' : Registry κ σ) : Prop where
  others : ∀ feature, ¬ touched feature → p'.heldFields feature = p.heldFields feature
  untouched : ∀ feature field binding, ¬ touched feature → p.Holds feature field binding →
    r'.get? binding.key = r.get? binding.key
  current : ∀ feature field binding, touched feature → p'.Holds feature field binding →
    r'.get? binding.key = some binding ∧ binding.feature = feature ∧ binding.field = field
  accounted : ∀ key binding, r'.get? key = some binding →
    (∃ feature field, p'.Holds feature field binding ∧ binding.key = key) ∨
      r.get? key = some binding ∧
        ∀ feature field old, touched feature → p.Holds feature field old → old.key ≠ key

private theorem Renews.of_held (h : p'.held = p.held) : Renews p r (fun _ => False) p' r where
  others := by
    intro feature _
    rw [heldFields, h, heldFields]
  untouched := fun _ _ _ _ _ => rfl
  current := fun _ _ _ hfalse => hfalse.elim
  accounted := fun _ _ hget => .inr ⟨hget, fun _ _ _ hfalse => hfalse.elim⟩

variable {touched : FeatureId → Prop}

private theorem Renews.guards (h : Renews p r touched p' r') (hg : p.Guards r) : p'.Guards r' := by
  intro feature field binding hholds
  by_cases htouched : touched feature
  · exact ⟨binding, h.current feature field binding htouched hholds⟩
  · rw [Holds, h.others feature htouched] at hholds
    rw [h.untouched feature field binding htouched hholds]
    exact hg feature field binding hholds

theorem Renews.tracks (h : Renews p r touched p' r') (ht : p.Tracks r) : p'.Tracks r' := by
  intro feature field binding hholds
  by_cases htouched : touched feature
  · exact h.current feature field binding htouched hholds
  · rw [Holds, h.others feature htouched] at hholds
    rw [h.untouched feature field binding htouched hholds]
    exact ht feature field binding hholds

theorem Renews.accounts (h : Renews p r touched p' r') (ht : p.Tracks r) {key : Key}
    {binding : Binding σ} (hget : r'.get? key = some binding) :
    (∃ feature field, p'.Holds feature field binding ∧ binding.key = key) ∨
      r.get? key = some binding ∧ ¬ p.Remembers key := by
  rcases h.accounted key binding hget with hheld | ⟨hget, hother⟩
  · exact .inl hheld
  · by_cases hremembers : p.Remembers key
    · obtain ⟨feature, field, old, hold, hkey⟩ := hremembers
      have htouched : ¬ touched feature := fun h => hother feature field old h hold hkey
      have hold_get := (ht feature field old hold).1
      rw [hkey, hget] at hold_get
      cases hold_get
      refine .inl ⟨feature, field, ?_, hkey⟩
      rw [Holds, h.others feature htouched]
      exact hold
    · exact .inr ⟨hget, hremembers⟩

/-- What leads from one state of a pipeline and its registry to the next leaves every binding held in
the registry as it is, and every binding of the registry is held or was another's before. -/
structure Accounts (p : Pipeline σ) (r : Registry κ σ) (p' : Pipeline σ) (r' : Registry κ σ) :
    Prop where
  tracks : p'.Tracks r'
  bindings : ∀ key binding, r'.get? key = some binding →
    (∃ feature field, p'.Holds feature field binding ∧ binding.key = key) ∨
      r.get? key = some binding ∧ ¬ p.Remembers key

private theorem Accounts.refl (h : p.Tracks r) : Accounts p r p r where
  tracks := h
  bindings := by
    intro key binding hget
    by_cases hremembers : p.Remembers key
    · obtain ⟨feature, field, old, hold, hkey⟩ := hremembers
      have hold_get := (h feature field old hold).1
      rw [hkey, hget] at hold_get
      cases hold_get
      exact .inl ⟨feature, field, hold, hkey⟩
    · exact .inr ⟨hget, hremembers⟩

private theorem Accounts.renews {p₁ p₂ : Pipeline σ} {r₁ r₂ : Registry κ σ} (h : Accounts p r p₁ r₁)
    (hrenews : Renews p₁ r₁ touched p₂ r₂) : Accounts p r p₂ r₂ where
  tracks := hrenews.tracks h.tracks
  bindings := by
    intro key binding hget
    rcases hrenews.accounts h.tracks hget with hheld | ⟨hget, hnew⟩
    · exact .inl hheld
    · rcases h.bindings key binding hget with ⟨feature, field, hholds, hkey⟩ | hother
      · exact absurd ⟨feature, field, binding, hholds, hkey⟩ hnew
      · exact .inr hother

variable [KeySupply κ]

theorem renewal_underway (hr : r.Sound) (hg : p.Guards r) (feature : FeatureId)
    {dynamic : List (String × Value)} (hn : (dynamic.map Prod.fst).Nodup) :
    Renewal.Underway r (p.heldFields feature) feature (p.renewal r feature dynamic).2 := by
  exact renewal_invariant (fun h hs hfresh hstep => h.step hs hfresh hstep)
    (Renewal.Underway.start (hg feature)) hr hn

omit [KeySupply κ] in
theorem mem_leftover_iff {s : Renewal κ σ} (hs : s.previous.Sorted) {key : Key} :
    key ∈ leftover s ↔ ∃ field old, s.previous.get? field = some old ∧ old.key = key := by
  simp only [leftover, List.mem_map, Prod.exists, Fields.get?_eq_some_iff hs]

private theorem renewBindings_renews (hp : p.Ordered) (hr : r.Sound) (hg : p.Guards r)
    {feature : FeatureId} {dynamic : List (String × Value)} (hn : (dynamic.map Prod.fst).Nodup)
    {bindings : Fields (Binding σ)}
    (hok : (p.renewBindings r feature dynamic).result = .ok bindings) :
    Renews p r (fun other => other = feature) (p.renewBindings r feature dynamic).pipeline
      (p.renewBindings r feature dynamic).registry := by
  obtain ⟨s, keys, rfl, -, hregistry, hcase⟩ := renewBindings_cases p r feature dynamic
  rcases hcase with ⟨fault, herror, -⟩ | ⟨hrenewed, rfl, hremoved, -, hpipeline⟩
  · rw [hok] at herror
    cases herror
  have hext := renewal_extends hr p feature dynamic
  have hunderway := renewal_underway hr hg feature hn
  have hsorted := hext.sorted (hp.sorted feature)
  have hfields := heldFields_withHeld p feature (p.renewal r feature dynamic).2.current
  rw [hpipeline, hregistry]
  -- What is still to be renewed in the end is for other fields than what was renewed.
  have hkept : ∀ field binding,
      (p.renewal r feature dynamic).2.current.get? field = some binding →
        binding.key ∉ leftover (p.renewal r feature dynamic).2 := by
    intro field binding hcurrent hmem
    obtain ⟨field', old, hold, hkey⟩ := (mem_leftover_iff hsorted).mp hmem
    obtain ⟨known, hknown, -, hfield'⟩ := hunderway.previous field' old hold
    obtain ⟨hget, -, hfield⟩ := hunderway.current field binding hcurrent
    rw [hkey, hget] at hknown
    cases hknown
    have hnone := hunderway.apart field' old hold
    rw [← hfield', hfield, hcurrent] at hnone
    cases hnone
  constructor
  · intro other hother
    rw [hfields, if_neg (Ne.symm hother)]
  · intro other field binding hother hholds
    obtain ⟨known, hknown, hfeature, -⟩ := hg other field binding hholds
    have hforeign : ∀ x old, p.Holds feature x old → old.key ≠ binding.key := by
      intro x old hold hkey
      exact hother (hg.inj hholds hold hkey.symm).1
    have hget := hext.frame binding.key known hknown hforeign
    rw [Registry.get?_unbindEach_of_notMem, hget, hknown]
    intro hmem
    obtain ⟨x, old, hold, hkey⟩ := holds_of_mem_leftover hp hext hmem
    exact hforeign x old hold hkey
  · rintro other field binding rfl hholds
    rw [Holds, hfields, if_pos rfl] at hholds
    obtain ⟨hget, hfeature, hfield⟩ := hunderway.current field binding hholds
    refine ⟨?_, hfeature, hfield⟩
    rw [Registry.get?_unbindEach_of_notMem (hkept field binding hholds), hget]
  · intro key binding hget
    obtain ⟨hnot, hbefore⟩ := (Registry.get?_unbindEach_of_ok hremoved).mp hget
    rcases hunderway.accounted key binding hbefore with ⟨x, hx⟩ | hprevious | ⟨hget, hother⟩
    · refine .inl ⟨feature, x, ?_, hext.sound.keyed key binding hbefore⟩
      rw [Holds, hfields, if_pos rfl]
      exact hx
    · exact absurd ((mem_leftover_iff hsorted).mpr hprevious) hnot
    · refine .inr ⟨hget, ?_⟩
      rintro other x old rfl hold
      exact hother x old hold

omit [KeySupply κ] in
private theorem Renews.congr {q q' : Pipeline σ} (h : Renews p r touched p' r')
    (hq : q.held = p.held)
    (hq' : q'.held = p'.held) : Renews q r touched q' r' := by
  have hfields : ∀ feature, q.heldFields feature = p.heldFields feature := by
    intro feature
    rw [heldFields, heldFields, hq]
  have hfields' : ∀ feature, q'.heldFields feature = p'.heldFields feature := by
    intro feature
    rw [heldFields, heldFields, hq']
  obtain ⟨hothers, huntouched, hcurrent, haccounted⟩ := h
  simp only [Holds] at huntouched hcurrent haccounted
  constructor
  · intro feature htouched
    rw [hfields, hfields', hothers feature htouched]
  · simpa only [Holds, hfields] using huntouched
  · simpa only [Holds, hfields'] using hcurrent
  · simpa only [Holds, hfields, hfields'] using haccounted

theorem keep_held (p : Pipeline σ) (tree : Tree) (feature : Feature) (bag : Bag σ) :
    (p.keep tree feature bag).1.held = p.held := by
  rw [keep]
  split <;> rfl

variable {layer tree : OrderedTree} {target : Feature}

theorem resolveIn_renews (hp : p.Ordered) (hr : r.Sound) (hg : p.Guards r) {bag : Bag σ}
    (hok : (p.resolveIn r layer tree target).result = .ok bag) :
    ∃ touched, Renews p r touched (p.resolveIn r layer tree target).pipeline
      (p.resolveIn r layer tree target).registry := by
  cases hstored : p.stored? r tree target with
  | some stored =>
    rw [resolveIn_of_some hstored]
    exact ⟨_, .of_held rfl⟩
  | none =>
    obtain ⟨hregistry, ⟨fault, -, herror, -⟩ | ⟨bindings, hrenewed, -, hpipeline⟩⟩ :=
      resolveIn_of_none layer hstored
    · rw [hok] at herror
      cases herror
    · have hrenews : Renews _ r (fun other => other = target.id)
          (p.renewed r layer tree target).pipeline (p.renewed r layer tree target).registry :=
        renewBindings_renews (hp.with_choices (p.fieldsOf layer tree target).2.choices) hr hg
          (p.timed_keys_nodup layer tree target) hrenewed
      rw [hregistry, hpipeline]
      exact ⟨_, hrenews.congr (q := p) rfl (keep_held _ tree target _)⟩

theorem map_eq_ok {α β : Type} {result : Except Fault α} {f : α → β} {value : β}
    (h : result.map f = .ok value) : ∃ a, result = .ok a ∧ f a = value := by
  cases result with
  | error fault => cases h
  | ok a => exact ⟨a, rfl, Except.ok.inj h⟩

private theorem map_ok {α : Type} {result : Except Fault α} {removed : Except Fault Unit}
    {value : α}
    (h : result.map (fun _ => ()) = removed) (hok : result = .ok value) : removed = .ok () := by
  rw [← h, hok]
  rfl

omit [KeySupply κ] in
private theorem release_renews (hp : p.Ordered) (hg : p.Guards r) (feature : FeatureId)
    {count : Nat}
    (hok : (p.release r feature).result = .ok count) :
    Renews p r (fun other => other = feature) (p.release r feature).pipeline
      (p.release r feature).registry := by
  obtain ⟨hregistry, hresult, -⟩ := release_spec p r feature
  have hremoved := map_ok hresult hok
  have hfields := heldFields_release p r feature
  rw [hregistry]
  constructor
  · intro other hother
    rw [hfields, if_neg (Ne.symm hother)]
  · intro other field binding hother hholds
    apply Registry.get?_unbindEach_of_notMem
    intro hmem
    obtain ⟨x, old, hold, hkey⟩ := (mem_keys_iff hp).mp hmem
    exact hother (hg.inj hholds hold hkey.symm).1
  · rintro other field binding rfl hholds
    rw [Holds, hfields, if_pos rfl] at hholds
    cases hholds
  · intro key binding hget
    obtain ⟨hnot, hget⟩ := (Registry.get?_unbindEach_of_ok hremoved).mp hget
    refine .inr ⟨hget, ?_⟩
    rintro other field old rfl hold hkey
    exact hnot ((mem_keys_iff hp).mpr ⟨field, old, hold, hkey⟩)

omit [KeySupply κ] in
private theorem releaseAll_renews (hp : p.Ordered) {count : Nat}
    (hok : (p.releaseAll r).result = .ok count) :
    Renews p r (fun _ => True) (p.releaseAll r).pipeline (p.releaseAll r).registry := by
  obtain ⟨hregistry, hresult, hheld, -⟩ := releaseAll_spec p r
  have hremoved := map_ok hresult hok
  rw [hregistry]
  constructor
  · intro other hother
    exact absurd trivial hother
  · intro other field binding hother
    exact absurd trivial hother
  · intro other field binding _ hholds
    rw [Holds, heldFields, hheld] at hholds
    cases hholds
  · intro key binding hget
    obtain ⟨hnot, hget⟩ := (Registry.get?_unbindEach_of_ok hremoved).mp hget
    refine .inr ⟨hget, ?_⟩
    intro other field old _ hold hkey
    exact hnot ((mem_allKeys_iff hp).mpr ⟨other, field, old, hold, hkey⟩)

variable {P : Pipeline σ → Registry κ σ → Prop}

theorem resolveEach_invariant (hguards : ∀ p r, P p r → p.Guards r)
    (hrenews : ∀ p r touched p' r', P p r → Renews p r touched p' r' → P p' r')
    (hp : p.Ordered) (hr : r.Sound) (h : P p r) {features : List Feature} {bags : List (Bag σ)}
    (hok : (p.resolveEach r layer tree features).result = .ok bags) :
    P (p.resolveEach r layer tree features).pipeline
      (p.resolveEach r layer tree features).registry := by
  induction features generalizing p r bags with
  | nil => exact h
  | cons feature features ih =>
    have hconfined := resolveIn_confined hp hr layer tree feature
    simp only [resolveEach] at hok ⊢
    split at hok
    · cases hok
    · rename_i bag hbag
      obtain ⟨touched, hfirst⟩ := resolveIn_renews hp hr (hguards p r h) hbag
      obtain ⟨rest, hrest, -⟩ := map_eq_ok hok
      exact ih hconfined.ordered hconfined.sound (hrenews _ _ touched _ _ h hfirst) hrest

/-- What renewals preserve, as long as it implies that the pipeline is guarded, is preserved by every
call that gives a result. -/
theorem perform_invariant (hguards : ∀ p r, P p r → p.Guards r)
    (hrenews : ∀ p r touched p' r', P p r → Renews p r touched p' r' → P p' r')
    (hp : p.Ordered) (hr : r.Sound) (h : P p r) {call : Call} {bags : List (Bag σ)}
    (hok : (p.perform r call).result = .ok bags) :
    P (p.perform r call).pipeline (p.perform r call).registry := by
  cases hrequest : call.request? with
  | some request =>
    obtain ⟨layer, upper, features⟩ := request
    obtain ⟨-, hok, hpipeline, hregistry⟩ := perform_request hrequest hok
    rw [hpipeline, hregistry]
    exact resolveEach_invariant hguards hrenews hp hr h hok
  | none =>
    cases call with
    | resolveAll layer upper features => cases hrequest
    | resolve layer upper feature => cases hrequest
    | forget feature => exact hrenews _ _ _ _ _ h (.of_held rfl)
    | clear => exact hrenews _ _ _ _ _ h (.of_held rfl)
    | release feature =>
      obtain ⟨count, hcount, -⟩ := map_eq_ok hok
      exact hrenews _ _ _ _ _ h (release_renews hp (hguards p r h) feature hcount)
    | releaseAll =>
      obtain ⟨count, hcount, -⟩ := map_eq_ok hok
      exact hrenews _ _ _ _ _ h (releaseAll_renews hp hcount)

theorem perform_guards (hp : p.Ordered) (hr : r.Sound) (h : p.Guards r) {call : Call}
    {bags : List (Bag σ)} (hok : (p.perform r call).result = .ok bags) :
    (p.perform r call).pipeline.Guards (p.perform r call).registry :=
  perform_invariant (P := Guards) (fun _ _ h => h) (fun _ _ _ _ _ h hrenews => hrenews.guards h)
    hp hr h hok

theorem resolveEach_accounts (hp : p.Ordered) (hr : r.Sound) (h : p.Tracks r) {features : List Feature}
    {bags : List (Bag σ)} (hok : (p.resolveEach r layer tree features).result = .ok bags) :
    Accounts p r (p.resolveEach r layer tree features).pipeline
      (p.resolveEach r layer tree features).registry :=
  resolveEach_invariant (P := Accounts p r) (fun _ _ h => h.tracks.guards)
    (fun _ _ _ _ _ h hrenews => h.renews hrenews) hp hr (.refl h) hok

/-- After a call every binding held is in the registry as it is, and every binding of the registry
is held or was another's before. -/
theorem perform_accounts (hp : p.Ordered) (hr : r.Sound) (h : p.Tracks r) {call : Call}
    {bags : List (Bag σ)} (hok : (p.perform r call).result = .ok bags) :
    Accounts p r (p.perform r call).pipeline (p.perform r call).registry :=
  perform_invariant (P := Accounts p r) (fun _ _ h => h.tracks.guards)
    (fun _ _ _ _ _ h hrenews => h.renews hrenews) hp hr (.refl h) hok

end Pipeline
end FeatureStyle
