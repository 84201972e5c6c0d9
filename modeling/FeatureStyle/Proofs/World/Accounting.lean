import FeatureStyle.Proofs.World.Basic

/-!
# Accounting for bindings

As long as others keep their hands off the bindings of pipelines, the bindings of the registry that
are not theirs are exactly the ones that pipelines hold, each once, and each with the sampler of the
resolution it goes back to. `Settled` is the invariant behind this.
-/

namespace FeatureStyle

/-- Others rebind and unbind only what they bound. -/
def Act.Own {ι κ σ : Type} (w : World ι κ σ) : Act σ → Prop
  | .bind .. => True
  | .rebind key _ | .unbind key => w.registry.contains key = true → w.owner key = none
  | .unbindAll feature => ∀ key ∈ w.registry.keysOf feature, w.owner key = none

namespace World

variable {ι κ σ : Type} [KeySupply κ] {w : World ι κ σ}

/-- The pipelines, the registry and the past agree with each other. -/
structure Settled (w : World ι κ σ) : Prop extends w.Regular where
  tracks : ∀ i, (w.pipelines i).Tracks w.registry
  owned : ∀ i key, (w.pipelines i).Remembers key → w.owner key = some i
  held : ∀ i key binding, w.registry.get? key = some binding → w.owner key = some i →
    (w.pipelines i).Remembers key
  returned : ∀ i feature bag, w.returned i feature = some bag →
    bag.dynamic = (w.pipelines i).heldFields feature

private theorem settled_initial {shape : KeyShape} {supply : κ} (patience : Nat)
    (settings : ι → Settings)
    (hash : ι → Tree → UInt64) (sampler : ι → FeatureId → String → Value → σ)
    (hsupply : KeySupply.Admissible shape supply) :
    (initial shape supply patience settings hash sampler).Settled where
  toRegular := regular_initial patience settings hash sampler hsupply
  tracks := by
    intro i feature field binding hholds
    cases hholds
  owned := by
    rintro i key ⟨feature, field, binding, hholds, -⟩
    cases hholds
  held := by
    intro i key binding hget
    cases hget
  returned := by
    intro i feature bag hbag
    cases hbag

theorem Settled.get?_of_remembers (h : w.Settled) {i : ι} {key : Key}
    (hkey : (w.pipelines i).Remembers key) : ∃ binding, w.registry.get? key = some binding := by
  obtain ⟨feature, field, binding, hholds, rfl⟩ := hkey
  exact ⟨binding, (h.tracks i feature field binding hholds).1⟩

section act

variable {a : Act σ}

theorem act_own (hown : a.Own w) (key : Key) :
    ((w.act a).registry.get? key = w.registry.get? key ∧ (w.act a).owner key = w.owner key) ∨
      (w.act a).owner key = none ∧ (w.registry.get? key = none ∨ w.owner key = none) := by
  cases a with
  | bind feature field sampler =>
    rw [act]
    split
    · rename_i binding registry taken hbind
      obtain ⟨-, -, -, hfree, -, hget⟩ := Registry.bind?_eq_some hbind
      by_cases hkey : binding.key = key
      · subst hkey
        exact .inr ⟨Function.update_self .., .inl hfree⟩
      · refine .inl ⟨?_, Function.update_of_ne (Ne.symm hkey) ..⟩
        rw [hget, if_neg hkey]
    · exact .inl ⟨rfl, rfl⟩
  | rebind other sampler =>
    by_cases hkey : other = key
    · subst hkey
      cases hget : w.registry.get? other with
      | none =>
        refine .inl ⟨?_, rfl⟩
        rw [act, Registry.get?_rebind, if_pos rfl, hget]
        rfl
      | some binding =>
        have hnone := hown (Registry.contains_iff.mpr ⟨binding, hget⟩)
        exact .inr ⟨hnone, .inr hnone⟩
    · refine .inl ⟨?_, rfl⟩
      rw [act, Registry.get?_rebind, if_neg hkey]
  | unbind other =>
    rw [act]
    split
    · rename_i hunbind
      rw [Registry.eq_remove_of_unbind hunbind]
      by_cases hkey : other = key
      · subst hkey
        cases hget : w.registry.get? other with
        | none => exact .inl ⟨by rw [Registry.get?_remove, if_pos rfl], rfl⟩
        | some binding =>
          have hnone := hown (Registry.contains_iff.mpr ⟨binding, hget⟩)
          exact .inr ⟨hnone, .inr hnone⟩
      · exact .inl ⟨by rw [Registry.get?_remove, if_neg hkey], rfl⟩
    · exact .inl ⟨rfl, rfl⟩
  | unbindAll feature =>
    by_cases hkey : key ∈ w.registry.keysOf feature
    · exact .inr ⟨hown key hkey, .inr (hown key hkey)⟩
    · exact .inl ⟨by rw [act, Registry.get?_unbindAll, if_neg hkey], rfl⟩

private theorem Settled.act_of_remembers (h : w.Settled) (hown : a.Own w) {i : ι} {key : Key}
    (hkey : (w.pipelines i).Remembers key) :
    (w.act a).registry.get? key = w.registry.get? key ∧ (w.act a).owner key = w.owner key := by
  obtain ⟨binding, hget⟩ := h.get?_of_remembers hkey
  have howner := h.owned i key hkey
  rcases act_own hown key with hsame | ⟨-, hfree | hnone⟩
  · exact hsame
  · rw [hget] at hfree
    cases hfree
  · rw [howner] at hnone
    cases hnone

private theorem Settled.act (h : w.Settled) (hown : a.Own w) : (w.act a).Settled := by
  obtain ⟨hpipelines, -, hreturned⟩ := act_frame w a
  refine ⟨h.toRegular.act a, ?_, ?_, ?_, ?_⟩
  · intro i feature field binding hholds
    rw [hpipelines] at hholds
    rw [(h.act_of_remembers hown ⟨feature, field, binding, hholds, rfl⟩).1]
    exact h.tracks i feature field binding hholds
  · intro i key hkey
    rw [hpipelines] at hkey
    rw [(h.act_of_remembers hown hkey).2]
    exact h.owned i key hkey
  · intro i key binding hget howner
    rw [hpipelines]
    rcases act_own hown key with ⟨hsame, hsame_owner⟩ | ⟨hnone, -⟩
    · rw [hsame] at hget
      rw [hsame_owner] at howner
      exact h.held i key binding hget howner
    · rw [hnone] at howner
      cases howner
  · rw [hpipelines, hreturned]
    exact h.returned

end act

section call

variable [DecidableEq ι] {i : ι} {c : Call} {bags : List (Bag σ)}

/-- What a call leaves alone: the binding, its owner, and that others remember it. -/
theorem Settled.call_of_remembers (h : w.Settled) (c : Call) (bags : List (Bag σ)) {j : ι}
    (hne : j ≠ i) {key : Key} (hkey : (w.pipelines j).Remembers key) :
    ∃ binding, w.registry.get? key = some binding ∧ ¬ (w.pipelines i).Remembers key ∧
      (w.call i c bags).registry.get? key = some binding ∧
      (w.call i c bags).owner key = w.owner key := by
  obtain ⟨binding, hget⟩ := h.get?_of_remembers hkey
  have hnew : ¬ (w.pipelines i).Remembers key := by
    intro hremembers
    have howner := h.owned i key hremembers
    rw [h.owned j key hkey] at howner
    exact hne (Option.some.inj howner)
  have hconfined := Pipeline.perform_confined (h.ordered i) h.sound c
  exact ⟨binding, hget, hnew, (hconfined.frame key binding hget hnew).1,
    Pipeline.owners_of_spared (h.ordered i) h.sound c hget hnew⟩

omit [DecidableEq ι] in
private theorem Settled.call_returned (h : w.Settled) (hok : (w.turn i c).result = .ok bags)
    {feature : FeatureId} {bag : Bag σ}
    (hbag : c.returned bags (w.returned i) feature = some bag) :
    bag.dynamic = (w.turn i c).pipeline.heldFields feature := by
  have hrecords := h.records i
  obtain ⟨hafter, hframe⟩ := hrecords.perform (h.ordered i) h.sound hok
  have hold : w.returned i feature = some bag → ¬ c.Touches feature →
      bag.dynamic = (w.turn i c).pipeline.heldFields feature := by
    intro hold htouches
    rw [turn, hframe feature htouches]
    exact h.returned i feature bag hold
  have hrequested : ∀ layer upper features, c.request? = some (layer, upper, features) →
      (bags.find? fun bag => bag.feature = feature).or (w.returned i feature) = some bag →
      bag.dynamic = (w.turn i c).pipeline.heldFields feature := by
    intro layer upper features hrequest hfound
    cases hfind : bags.find? fun bag => bag.feature = feature with
    | some found =>
      rw [hfind] at hfound
      cases hfound
      have hfeature : bag.feature = feature := by simpa using List.find?_some hfind
      rw [← hfeature]
      exact hrecords.dynamic_of_mem (h.ordered i) h.sound hok (List.mem_of_find?_eq_some hfind)
    | none =>
      rw [hfind] at hfound
      refine hold hfound ?_
      intro htouches
      obtain ⟨other, hother, hfeature⟩ :=
        hrecords.exists_bag (h.ordered i) h.sound hok hrequest htouches
      have hnot := List.find?_eq_none.mp hfind other hother
      exact hnot (decide_eq_true hfeature)
  cases c with
  | resolveAll layer upper features => exact hrequested layer upper features rfl hbag
  | resolve layer upper target => exact hrequested layer upper [target] rfl hbag
  | forget target => exact hold hbag (fun h => h)
  | clear => exact hold hbag (fun h => h)
  | release target =>
    rw [Call.returned] at hbag
    split at hbag
    · cases hbag
    · rename_i hne
      exact hold hbag hne
  | releaseAll => cases hbag

private theorem Settled.call (h : w.Settled) (hok : (w.turn i c).result = .ok bags) :
    (w.call i c bags).Settled := by
  obtain ⟨htracks, haccounted⟩ :=
    Pipeline.perform_accounts (h.ordered i) h.sound (h.tracks i) hok
  obtain ⟨hpipeline, -, hreturned⟩ := call_self w i c bags
  have howned : ∀ key, (w.turn i c).pipeline.Remembers key →
      (w.call i c bags).owner key = some i := fun key hkey =>
    Pipeline.owners_of_remembers (h.ordered i) h.sound (h.owned i) hok hkey
  refine ⟨h.toRegular.call hok, ?_, ?_, ?_, ?_⟩
  · intro j
    by_cases hj : j = i
    · rw [hj, hpipeline]
      exact htracks
    · rw [(call_other hj w c bags).1]
      intro feature field binding hholds
      obtain ⟨known, hget, -, hget', -⟩ :=
        h.call_of_remembers c bags hj ⟨feature, field, binding, hholds, rfl⟩
      rw [hget', ← hget]
      exact h.tracks j feature field binding hholds
  · intro j key hkey
    by_cases hj : j = i
    · rw [hj, hpipeline] at hkey
      rw [hj]
      exact howned key hkey
    · rw [(call_other hj w c bags).1] at hkey
      obtain ⟨-, -, -, -, howner⟩ := h.call_of_remembers c bags hj hkey
      rw [howner]
      exact h.owned j key hkey
  · intro j key binding hget howner
    rcases haccounted key binding hget with ⟨feature, field, hholds, hkey⟩ | ⟨hget, hnew⟩
    · have hremembers : (w.turn i c).pipeline.Remembers key :=
        ⟨feature, field, binding, hholds, hkey⟩
      rw [howned key hremembers] at howner
      cases howner
      rw [hpipeline]
      exact hremembers
    · have hsame : (w.call i c bags).owner key = w.owner key :=
        Pipeline.owners_of_spared (h.ordered i) h.sound c hget hnew
      rw [hsame] at howner
      have hremembers := h.held j key binding hget howner
      have hj : j ≠ i := by
        intro heq
        rw [heq] at hremembers
        exact hnew hremembers
      rw [(call_other hj w c bags).1]
      exact hremembers
  · intro j feature bag hbag
    by_cases hj : j = i
    · rw [hj, hreturned] at hbag
      rw [hj, hpipeline]
      exact h.call_returned hok hbag
    · rw [(call_other hj w c bags).2.2] at hbag
      rw [(call_other hj w c bags).1]
      exact h.returned j feature bag hbag

theorem Reachable.settled (h : Reachable (fun w (a : Act σ) => a.Own w) w) : w.Settled := by
  induction h with
  | initial patience settings hash sampler hsupply =>
    exact settled_initial patience settings hash sampler hsupply
  | call _ hok ih => exact ih.call hok
  | act _ hmay ih => exact ih.act hmay

end call

/-- The bindings of the registry are accounted for. -/
structure Accounted (w : World ι κ σ) : Prop where
  /-- The bindings that others did not make are those that pipelines hold. -/
  union : ∀ key binding, (w.registry.get? key = some binding ∧ w.owner key ≠ none) ↔
    ∃ i feature field, (w.pipelines i).Holds feature field binding ∧ binding.key = key
  /-- No key is held twice. -/
  disjoint : ∀ i j feature feature' field field' binding binding',
    (w.pipelines i).Holds feature field binding →
      (w.pipelines j).Holds feature' field' binding' → binding.key = binding'.key →
        i = j ∧ feature = feature' ∧ field = field'
  /-- What is held for a field is in the registry for that field, with the sampler of the value that
  the resolution on record gave. -/
  entries : ∀ i feature field binding, (w.pipelines i).Holds feature field binding →
    w.registry.get? binding.key = some binding ∧ binding.feature = feature ∧
      binding.field = field ∧ ∃ origin value, w.ledgers i feature = some origin ∧
        (field, value) ∈ origin.fields ∧ value.isTimed = true ∧
        binding.sampler = (w.pipelines i).sampler feature field value
  nonempty : ∀ i feature, (w.pipelines i).held.get? feature ≠ some []
  /-- The bag returned last for a feature lists what is held for it. -/
  returned : ∀ i feature bag, w.returned i feature = some bag →
    bag.dynamic = (w.pipelines i).heldFields feature
  /-- So does the bag stored for it. -/
  stored : ∀ i feature stored, (w.pipelines i).store.Keeps feature stored →
    stored.bag.dynamic = (w.pipelines i).heldFields feature

theorem Settled.accounted (h : w.Settled) : w.Accounted where
  union := by
    intro key binding
    constructor
    · rintro ⟨hget, howner⟩
      obtain ⟨i, hi⟩ := Option.ne_none_iff_exists'.mp howner
      obtain ⟨feature, field, held, hholds, hkey⟩ := h.held i key binding hget hi
      have hheld := (h.tracks i feature field held hholds).1
      rw [hkey, hget] at hheld
      cases hheld
      exact ⟨i, feature, field, hholds, hkey⟩
    · rintro ⟨i, feature, field, hholds, rfl⟩
      refine ⟨(h.tracks i feature field binding hholds).1, ?_⟩
      rw [h.owned i binding.key ⟨feature, field, binding, hholds, rfl⟩]
      exact Option.some_ne_none i
  disjoint := by
    intro i j feature feature' field field' binding binding' hholds hholds' hkey
    have hi := h.owned i binding.key ⟨feature, field, binding, hholds, rfl⟩
    have hj := h.owned j binding'.key ⟨feature', field', binding', hholds', rfl⟩
    rw [hkey, hj] at hi
    cases hi
    exact ⟨rfl, (h.tracks _).guards.inj hholds hholds' hkey⟩
  entries := by
    intro i feature field binding hholds
    obtain ⟨hget, hfeature, hfield⟩ := h.tracks i feature field binding hholds
    refine ⟨hget, hfeature, hfield, ?_⟩
    have hsampler := (h.records i).samplers feature field
    rw [hholds, Option.map_some] at hsampler
    obtain ⟨value, hvalue, hsampler⟩ := Option.map_eq_some_iff.mp hsampler.symm
    have hmem := Table.mem_of_get? hvalue
    rw [Ledger.timed] at hmem
    split at hmem
    · rename_i origin horigin
      obtain ⟨hmem, htimed⟩ := List.mem_filter.mp hmem
      exact ⟨origin, value, horigin, hmem, htimed, hsampler.symm⟩
    · cases hmem
  nonempty i := (h.ordered i).nonempty
  returned := h.returned
  stored := by
    intro i feature stored hstored
    obtain ⟨origin, horigin, -, -, hbag⟩ := (h.records i).kept feature stored hstored
    rw [hbag, Pipeline.recalled, ((h.records i).origins feature origin horigin).1]

/-- In every world that pipelines and well-behaved others can reach, no binding leaks and none
dangles. -/
theorem accounted_of_reachable [DecidableEq ι]
    (h : Reachable (fun w (a : Act σ) => a.Own w) w) : w.Accounted := h.settled.accounted

/-- After a pipeline resolved a field the registry has one binding, and it is accounted for. -/
theorem lone_accounted :
    ∃ bags, ((lone 8).turn () (.resolve (.probe "x") none (.ofId ⟨"f"⟩))).result = .ok bags ∧
      ((lone 8).call () (.resolve (.probe "x") none (.ofId ⟨"f"⟩)) bags).registry.size = 1 ∧
      ((lone 8).call () (.resolve (.probe "x") none (.ofId ⟨"f"⟩)) bags).Accounted :=
  ⟨_, rfl, rfl, accounted_of_reachable (.call (reachable_lone _ 8) rfl)⟩

end World
end FeatureStyle
