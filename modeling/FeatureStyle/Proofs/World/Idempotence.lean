import FeatureStyle.Proofs.Pipeline.Progress
import FeatureStyle.Proofs.Pipeline.Repetition
import FeatureStyle.Proofs.World.Accounting

/-!
# Resolving is idempotent

In every world that pipelines and well-behaved others can reach, a feature that is resolved twice in
a row gets the same bag both times, and the second time changes neither the registry nor what is
held. The main statement is `World.resolve_again`.
-/

namespace FeatureStyle
namespace World

variable {ι κ σ : Type} [KeySupply κ] {w : World ι κ σ}

private theorem functional_foldl_erase {κ' α : Type} [DecidableEq κ'] {t : Table κ' α}
    (ht : t.Functional) (keys : List κ') :
    Table.Functional (keys.foldl (fun t key => t.erase key) t) := by
  induction keys generalizing t with
  | nil => exact ht
  | cons key keys ih => exact ih (Table.functional_erase ht key)

theorem functional_act (h : Table.Functional w.registry.bindings) (a : Act σ) :
    Table.Functional (w.act a).registry.bindings := by
  cases a with
  | bind feature field sampler =>
    rw [act]
    split
    · rename_i hbind
      exact Registry.keepsUp_functional.bind h hbind
    · exact h
  | rebind key sampler => exact Registry.keepsUp_functional.rebind key sampler h
  | unbind key =>
    rw [act]
    split
    · rename_i hunbind
      rw [Registry.eq_remove_of_unbind hunbind]
      exact Registry.keepsUp_functional.remove key h
    · exact h
  | unbindAll feature => exact functional_foldl_erase h _

private theorem Settled.fits (h : w.Settled) (i : ι) (feature : FeatureId) :
    (w.pipelines i).Fits w.registry feature := by
  intro entry hentry
  apply h.admitted i
  exact ⟨feature, entry.1, entry.2,
    (Fields.get?_eq_some_iff ((h.ordered i).sorted feature)).mpr hentry, rfl⟩

variable [DecidableEq ι] {may : World ι κ σ → Act σ → Prop} {i : ι}

theorem Reachable.functional (h : Reachable may w) : Table.Functional w.registry.bindings := by
  induction h with
  | initial => exact List.nodup_nil
  | call _ _ ih => exact Registry.keepsUp_functional.perform ih _
  | act _ _ ih => exact functional_act ih _

theorem Reachable.consistent (h : Reachable may w) (i : ι) :
    (w.pipelines i).store.Consistent (w.pipelines i).hash := by
  induction h with
  | initial patience settings hash sampler _ =>
    exact BagStore.consistent_empty (hash i) (settings i).capacity
  | @call w j c bags _ _ ih =>
    by_cases hi : i = j
    · subst hi
      rw [(call_self w i c bags).1]
      exact ((w.pipelines i).stores_perform w.registry c).consistent ih
    · rw [(call_other hi w c bags).1]
      exact ih
  | act _ _ ih =>
    rw [(act_frame _ _).1]
    exact ih

/-- A feature gets its bag unless there is no key for a field of it that depends on time, and asked
again it gets the same bag. The second time leaves the registry and the bindings held as they are,
and as many bags stored. -/
theorem resolve_again (h : Reachable (fun w (a : Act σ) => a.Own w) w) (layer : OrderedTree)
    (upper : Option OrderedTree) (target : Feature) :
    let upper' := upper.map OrderedTree.toTree
    let first := (w.pipelines i).resolve w.registry layer upper' target
    let second := first.pipeline.resolve first.registry layer upper' target
    ((∃ bag, first.result = .ok bag) ∨ first.result = .error .noFreeKey ∧
        ∃ entry ∈ (Outcome.of (w.pipelines i).settings.depthLimit layer
          (layer.layered upper) target).fields, entry.2.isTimed = true) ∧
      ∀ bag, first.result = .ok bag →
        second.result = .ok bag ∧ second.registry = first.registry ∧
          second.pipeline.held = first.pipeline.held ∧
          second.pipeline.store.size = first.pipeline.store.size := by
  have hsettled := h.settled
  have hrecords := hsettled.records i
  simp only [Pipeline.resolve, ← OrderedTree.toTree_layered]
  refine ⟨?_, fun bag hok => ?_⟩
  · exact Pipeline.resolveIn_result hrecords.choices (hsettled.fits i target.id) layer
      (layer.layered upper)
  · exact Pipeline.resolveIn_again hrecords (hsettled.ordered i) hsettled.sound
      (hsettled.tracks i) h.functional (h.consistent i) hok

/-- A field that depends on time keeps its binding when it is resolved again. -/
theorem lone_again :
    let layer := OrderedTree.probe "x"
    let first := ((lone 8).pipelines ()).resolve (lone 8).registry layer none (.ofId ⟨"f"⟩)
    let second := first.pipeline.resolve first.registry layer none (.ofId ⟨"f"⟩)
    ∃ bag, first.result = .ok bag ∧ second.result = .ok bag ∧
      second.registry = first.registry ∧ bag.dynamic.length = 1 := by
  intro layer first second
  obtain ⟨-, hagain⟩ := resolve_again (i := ()) (reachable_lone _ 8) layer none (.ofId ⟨"f"⟩)
  refine ⟨_, rfl, ?_⟩
  obtain ⟨hresult, hregistry, -, -⟩ := hagain _ rfl
  exact ⟨hresult, hregistry, rfl⟩

end World
end FeatureStyle
