import FeatureStyle.Proofs.Registry.Operations
import FeatureStyle.Pipeline.Basic

/-!
# Renewing the bindings of a feature

What a renewal can do to a registry, step by step. `Extends` says what holds of every renewal, also of
one that stops early. `Underway` is the invariant of a renewal that starts from bindings which all are
in the registry: it accounts for every binding there is.
-/

namespace FeatureStyle
namespace Renewal

variable {κ σ : Type} [KeySupply κ] {s s' : Renewal κ σ} {feature : FeatureId} {field : String}
  {sampler : σ}

theorem renew?_eq_some (h : s.renew? feature field sampler = some s') :
    s'.previous = s.previous.erase field ∧
      ∃ binding, s'.current = s.current.insert field binding ∧ binding.sampler = sampler ∧
        ((∃ old known, s.previous.get? field = some old ∧
            s.registry.get? old.key = some known ∧ binding = { known with sampler } ∧
            s'.registry = (s.registry.rebind old.key sampler).2) ∨
          ((∀ old, s.previous.get? field = some old → s.registry.get? old.key = none) ∧
            ∃ taken, s.registry.bind? feature field sampler =
              some (binding, s'.registry, taken))) := by
  simp only [renew?] at h
  split at h
  · rename_i binding registry hrefreshed
    obtain ⟨old, hold, hrefresh⟩ := Option.bind_eq_some_iff.mp hrefreshed
    obtain ⟨hregistry, known, hknown, hbinding⟩ := Registry.refresh?_eq_some hrefresh
    cases h
    exact ⟨rfl, binding, rfl, by rw [hbinding], .inl ⟨old, known, hold, hknown, hbinding, hregistry⟩⟩
  · rename_i hrefreshed
    obtain ⟨⟨binding, registry, taken⟩, hbind, heq⟩ := Option.map_eq_some_iff.mp h
    have hsampler := (Registry.bind?_eq_some hbind).2.2.1
    cases heq
    refine ⟨rfl, binding, rfl, hsampler, .inr ⟨?_, taken, hbind⟩⟩
    intro old hold
    rw [Option.bind_eq_none_iff] at hrefreshed
    exact Registry.refresh?_eq_none_iff.mp (hrefreshed old hold)

theorem renew?_of_bound (feature : FeatureId) (sampler : σ) {old known : Binding σ}
    (hold : s.previous.get? field = some old) (hget : s.registry.get? old.key = some known) :
    s.renew? feature field sampler = some
      { s with
        registry := (s.registry.rebind old.key sampler).2
        previous := s.previous.erase field
        current := s.current.insert field { known with sampler } } := by
  cases hrefresh : s.registry.refresh? old.key sampler with
  | none =>
    rw [Registry.refresh?_eq_none_iff, hget] at hrefresh
    cases hrefresh
  | some refreshed =>
    obtain ⟨binding, registry⟩ := refreshed
    obtain ⟨rfl, other, hother, rfl⟩ := Registry.refresh?_eq_some hrefresh
    rw [hget] at hother
    cases hother
    simp only [renew?, hold, Option.bind_some, hrefresh]

theorem renew?_of_free {binding : Binding σ} {registry : Registry κ σ} {taken : List Key}
    (hnone : s.previous.get? field = none)
    (hbind : s.registry.bind? feature field sampler = some (binding, registry, taken)) :
    s.renew? feature field sampler = some
      { registry
        previous := s.previous.erase field
        current := s.current.insert field binding
        events := s.events ++ taken.map Event.takenKey } := by
  simp only [renew?, hnone, Option.bind_none, hbind, Option.map_some]

/-- What any number of renewals leave of a state: they touch no binding but those they were to renew,
and every key they use was one of these or was free. -/
structure Extends (s s' : Renewal κ σ) : Prop where
  shape : s'.registry.shape = s.registry.shape
  sound : s'.registry.Sound
  previous : ∀ x old, s'.previous.get? x = some old → s.previous.get? x = some old
  sorted : s.previous.Sorted → s'.previous.Sorted
  grown : ∀ key, s'.registry.get? key = none → s.registry.get? key = none
  frame : ∀ key binding, s.registry.get? key = some binding →
    (∀ x old, s.previous.get? x = some old → old.key ≠ key) → s'.registry.get? key = some binding
  known : ∀ x binding, s'.current.get? x = some binding → s.current.get? x = some binding ∨
    s.registry.shape.admits binding.key = true ∧
      ((∃ y old, s.previous.get? y = some old ∧ old.key = binding.key) ∨
        s.registry.get? binding.key = none)

theorem Extends.refl (h : s.registry.Sound) : s.Extends s :=
  ⟨rfl, h, fun _ _ h => h, fun h => h, fun _ h => h, fun _ _ h _ => h, fun _ _ h => .inl h⟩

theorem Extends.trans {s'' : Renewal κ σ} (h : s.Extends s') (h' : s'.Extends s'') :
    s.Extends s'' where
  shape := h'.shape.trans h.shape
  sound := h'.sound
  previous := fun x old hold => h.previous x old (h'.previous x old hold)
  sorted := fun hsorted => h'.sorted (h.sorted hsorted)
  grown := fun key hnone => h.grown key (h'.grown key hnone)
  frame := by
    intro key binding hget hother
    apply h'.frame key binding (h.frame key binding hget hother)
    intro x old hold
    exact hother x old (h.previous x old hold)
  known := by
    intro x binding hcurrent
    rcases h'.known x binding hcurrent with hcurrent | ⟨hadmits, hkey⟩
    · exact h.known x binding hcurrent
    · rw [h.shape] at hadmits
      refine .inr ⟨hadmits, hkey.imp ?_ (h.grown _)⟩
      rintro ⟨y, old, hold, hkey⟩
      exact ⟨y, old, h.previous y old hold, hkey⟩

theorem extends_of_renew? (hs : s.registry.Sound) (h : s.renew? feature field sampler = some s') :
    s.Extends s' := by
  obtain ⟨hprevious, binding, hcurrent, -, hcase⟩ := renew?_eq_some h
  have hsub : ∀ x old, s'.previous.get? x = some old → s.previous.get? x = some old := by
    intro x old hold
    rw [hprevious, Fields.get?_erase] at hold
    split at hold
    · cases hold
    · exact hold
  have hsorted : s.previous.Sorted → s'.previous.Sorted := by
    intro hsorted
    rw [hprevious]
    exact Fields.sorted_erase hsorted field
  have hknown : ∀ x b, s'.current.get? x = some b → b = binding ∨ s.current.get? x = some b := by
    intro x b hb
    rw [hcurrent, Fields.get?_insert] at hb
    split at hb
    · exact .inl (Option.some.inj hb).symm
    · exact .inr hb
  rcases hcase with ⟨old, known, hold, hget, hbinding, hregistry⟩ | ⟨-, taken, hbind⟩
  · have hkey : binding.key = old.key := by
      rw [hbinding]
      exact hs.keyed old.key known hget
    refine ⟨?_, ?_, hsub, hsorted, ?_, ?_, ?_⟩
    · rw [hregistry, Registry.rebind_shape]
    · rw [hregistry]
      exact hs.rebind _ _
    · intro key hnone
      rw [hregistry, Registry.get?_rebind] at hnone
      split at hnone
      · exact Option.map_eq_none_iff.mp hnone
      · exact hnone
    · intro key b hb hother
      rw [hregistry, Registry.get?_rebind, if_neg (hother field old hold)]
      exact hb
    · intro x b hb
      refine (hknown x b hb).symm.imp_right ?_
      rintro rfl
      rw [hkey]
      exact ⟨hs.bound _ _ hget, .inl ⟨field, old, hold, rfl⟩⟩
  · obtain ⟨-, -, -, hfree, hshape, hget⟩ := Registry.bind?_eq_some hbind
    have hsound := hs.bind? hbind
    refine ⟨hshape, hsound, hsub, hsorted, ?_, ?_, ?_⟩
    · intro key hnone
      rw [hget] at hnone
      split at hnone
      · cases hnone
      · exact hnone
    · intro key b hb hother
      rw [hget]
      split
      · rename_i hkey
        rw [← hkey, hfree] at hb
        cases hb
      · exact hb
    · intro x b hb
      refine (hknown x b hb).symm.imp_right ?_
      rintro rfl
      have hnew : s'.registry.get? b.key = some b := by rw [hget, if_pos rfl]
      exact ⟨hshape ▸ hsound.bound _ _ hnew, .inr hfree⟩

theorem extends_renewEach (hs : s.registry.Sound) (fields : List (String × σ)) :
    s.Extends (s.renewEach feature fields).2 := by
  induction fields generalizing s with
  | nil => exact Extends.refl hs
  | cons entry fields ih =>
    obtain ⟨field, sampler⟩ := entry
    rw [renewEach]
    split
    · rename_i next hnext
      have hstep := extends_of_renew? hs hnext
      exact hstep.trans (ih hstep.sound)
    · exact Extends.refl hs

theorem current_renewEach {fields : List (String × σ)} (hn : (fields.map Prod.fst).Nodup)
    (h : (s.renewEach feature fields).1 = .ok ()) (x : String) :
    ((s.renewEach feature fields).2.current.get? x).map Binding.sampler =
      (Table.get? fields x).or ((s.current.get? x).map Binding.sampler) := by
  induction fields generalizing s with
  | nil => rfl
  | cons entry fields ih =>
    obtain ⟨field, sampler⟩ := entry
    rw [List.map_cons, List.nodup_cons] at hn
    rw [renewEach] at h ⊢
    split at h
    · rename_i next hnext
      obtain ⟨-, binding, hcurrent, hsampler, -⟩ := renew?_eq_some hnext
      rw [ih hn.2 h, hcurrent, Fields.get?_insert, Table.get?_cons]
      split
      · rename_i hfield
        have hnone : Table.get? fields x = none := by
          rw [Table.get?_eq_none_iff, ← hfield]
          exact hn.1
        rw [hnone, Option.map_some, hsampler]
        rfl
      · rfl
    · cases h

theorem sorted_renewEach (hs : s.current.Sorted) (feature : FeatureId) (fields : List (String × σ)) :
    (s.renewEach feature fields).2.current.Sorted := by
  induction fields generalizing s with
  | nil => exact hs
  | cons entry fields ih =>
    obtain ⟨field, sampler⟩ := entry
    rw [renewEach]
    split
    · rename_i next hnext
      obtain ⟨-, binding, hcurrent, -⟩ := renew?_eq_some hnext
      apply ih
      rw [hcurrent]
      exact Fields.sorted_insert hs field binding
    · exact hs

/-- A renewal of `held`, bindings that all are in the registry `r` for their own fields. Every
binding of the registry is a renewed one, one still to be renewed, or another's. -/
structure Underway (r : Registry κ σ) (held : Fields (Binding σ)) (feature : FeatureId)
    (s : Renewal κ σ) : Prop where
  previous : ∀ x old, s.previous.get? x = some old →
    ∃ binding, s.registry.get? old.key = some binding ∧ binding.feature = feature ∧
      binding.field = x
  current : ∀ x binding, s.current.get? x = some binding →
    s.registry.get? binding.key = some binding ∧ binding.feature = feature ∧ binding.field = x
  apart : ∀ x old, s.previous.get? x = some old → s.current.get? x = none
  accounted : ∀ key binding, s.registry.get? key = some binding →
    (∃ x, s.current.get? x = some binding) ∨
      (∃ x old, s.previous.get? x = some old ∧ old.key = key) ∨
        r.get? key = some binding ∧ ∀ x old, held.get? x = some old → old.key ≠ key

omit [KeySupply κ] in
theorem Underway.start {r : Registry κ σ} {held : Fields (Binding σ)}
    (h : ∀ x old, held.get? x = some old →
      ∃ binding, r.get? old.key = some binding ∧ binding.feature = feature ∧ binding.field = x) :
    Underway r held feature ⟨r, held, [], []⟩ where
  previous := h
  current := by
    intro x binding hcurrent
    cases hcurrent
  apart := fun _ _ _ => rfl
  accounted := by
    intro key binding hget
    by_cases hheld : ∃ x old, held.get? x = some old ∧ old.key = key
    · exact .inr (.inl hheld)
    · exact .inr (.inr ⟨hget, fun x old hold hkey => hheld ⟨x, old, hold, hkey⟩⟩)

variable {r : Registry κ σ} {held : Fields (Binding σ)}

/-- Under way, a renewal changes the registry at the key of its own binding only, and no other
binding of the registry is for its field. -/
private theorem Underway.renewed (h : Underway r held feature s) (hs : s.registry.Sound)
    (hstep : s.renew? feature field sampler = some s') :
    ∃ binding, s'.previous = s.previous.erase field ∧
      s'.current = s.current.insert field binding ∧ binding.feature = feature ∧
      binding.field = field ∧
      (∀ key, s'.registry.get? key =
        if binding.key = key then some binding else s.registry.get? key) ∧
      (∀ known, s.registry.get? binding.key = some known → known.field = field) ∧
      ∀ old, s.previous.get? field = some old → binding.key ≠ old.key →
        s.registry.get? old.key = none := by
  obtain ⟨hprevious, binding, hcurrent, -, hcase⟩ := renew?_eq_some hstep
  refine ⟨binding, hprevious, hcurrent, ?_⟩
  rcases hcase with ⟨old, known, hold, hget, hbinding, hregistry⟩ | ⟨hgone, taken, hbind⟩
  · obtain ⟨other, hother, hfeature, hfield⟩ := h.previous field old hold
    rw [hget] at hother
    cases hother
    have hkey : binding.key = old.key := by
      rw [hbinding]
      exact hs.keyed old.key known hget
    refine ⟨by rw [hbinding, ← hfeature], by rw [hbinding, ← hfield], ?_, ?_, ?_⟩
    · intro key
      rw [hregistry, Registry.get?_rebind, hkey]
      split
      · rename_i heq
        rw [← heq, hget, hbinding]
        rfl
      · rfl
    · intro other hother
      rw [hkey, hget] at hother
      cases hother
      exact hfield
    · intro other hother hne
      rw [hold] at hother
      cases hother
      exact absurd hkey hne
  · obtain ⟨hfeature, hfield, -, hfree, -, hget⟩ := Registry.bind?_eq_some hbind
    refine ⟨hfeature, hfield, hget, ?_, fun old hold _ => hgone old hold⟩
    intro known hknown
    rw [hfree] at hknown
    cases hknown

theorem Underway.step (h : Underway r held feature s) (hs : s.registry.Sound)
    (hfresh : s.current.get? field = none) (hstep : s.renew? feature field sampler = some s') :
    Underway r held feature s' := by
  obtain ⟨binding, hprevious, hcurrent, hfeature, hfield, hget, hmine, hgone⟩ := h.renewed hs hstep
  have hsub : ∀ x old, s'.previous.get? x = some old →
      field ≠ x ∧ s.previous.get? x = some old := by
    intro x old hold
    rw [hprevious, Fields.get?_erase] at hold
    split at hold
    · cases hold
    · rename_i hne
      exact ⟨hne, hold⟩
  have hinsert : ∀ x, s'.current.get? x = if field = x then some binding else s.current.get? x := by
    intro x
    rw [hcurrent, Fields.get?_insert]
  have hkeep : ∀ key known, s.registry.get? key = some known → known.field ≠ field →
      s'.registry.get? key = some known := by
    intro key known hknown hne
    rw [hget, if_neg]
    · exact hknown
    · intro hkey
      rw [← hkey] at hknown
      exact hne (hmine known hknown)
  constructor
  · intro x old hold
    obtain ⟨hne, hold⟩ := hsub x old hold
    obtain ⟨known, hknown, hknown_feature, hknown_field⟩ := h.previous x old hold
    have hother : known.field ≠ field := fun heq => hne (heq.symm.trans hknown_field)
    exact ⟨known, hkeep old.key known hknown hother, hknown_feature, hknown_field⟩
  · intro x b hb
    rw [hinsert] at hb
    split at hb
    · rename_i heq
      cases hb
      exact ⟨by rw [hget, if_pos rfl], hfeature, hfield.trans heq⟩
    · rename_i hne
      obtain ⟨hb_get, hb_feature, hb_field⟩ := h.current x b hb
      have hother : b.field ≠ field := fun heq => hne (heq.symm.trans hb_field)
      exact ⟨hkeep b.key b hb_get hother, hb_feature, hb_field⟩
  · intro x old hold
    obtain ⟨hne, hold⟩ := hsub x old hold
    rw [hinsert, if_neg hne]
    exact h.apart x old hold
  · intro key b hb
    rw [hget] at hb
    split at hb
    · cases hb
      exact .inl ⟨field, by rw [hinsert, if_pos rfl]⟩
    · rename_i hkey
      rcases h.accounted key b hb with ⟨x, hx⟩ | ⟨x, old, hold, hold_key⟩ | hother
      · refine .inl ⟨x, ?_⟩
        rw [hinsert, if_neg]
        · exact hx
        · intro heq
          rw [← heq, hfresh] at hx
          cases hx
      · refine .inr (.inl ⟨x, old, ?_, hold_key⟩)
        rw [hprevious, Fields.get?_erase, if_neg]
        · exact hold
        · intro heq
          rw [← heq] at hold
          rw [← hold_key] at hkey hb
          rw [hgone old hold hkey] at hb
          cases hb
      · exact .inr (.inr hother)

/-- What a renewal of a new field keeps, the renewal of distinct new fields keeps. -/
theorem renewEach_invariant {P : Renewal κ σ → Prop} {feature : FeatureId}
    (hstep : ∀ {s s' : Renewal κ σ} {field : String} {sampler : σ}, P s → s.registry.Sound →
      s.current.get? field = none → s.renew? feature field sampler = some s' → P s')
    {fields : List (String × σ)} (h : P s) (hs : s.registry.Sound)
    (hn : (fields.map Prod.fst).Nodup) (hfresh : ∀ entry ∈ fields, s.current.get? entry.1 = none) :
    P (s.renewEach feature fields).2 := by
  induction fields generalizing s with
  | nil => exact h
  | cons entry fields ih =>
    obtain ⟨field, sampler⟩ := entry
    rw [List.map_cons, List.nodup_cons] at hn
    rw [renewEach]
    split
    · rename_i next hnext
      have hfield := hfresh (field, sampler) List.mem_cons_self
      apply ih (hstep h hs hfield hnext) (extends_of_renew? hs hnext).sound hn.2
      intro other hother
      obtain ⟨-, binding, hcurrent, -⟩ := renew?_eq_some hnext
      rw [hcurrent, Fields.get?_insert, if_neg]
      · exact hfresh other (List.mem_cons_of_mem _ hother)
      · intro heq
        have hmem : other.1 ∈ fields.map Prod.fst := List.mem_map_of_mem hother
        rw [← heq] at hmem
        exact hn.1 hmem
    · exact h

end Renewal
end FeatureStyle
