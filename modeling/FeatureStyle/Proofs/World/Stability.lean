import Mathlib.Data.List.Nodup
import FeatureStyle.Proofs.Pipeline.Stability
import FeatureStyle.Proofs.World.Accounting

/-!
# Keys are stable

From one resolution of a feature to the next by the same pipeline, however much is done in between,
a field that still depends on time keeps its key, and a field that does not loses it. The main
statement is `World.keys_stable`.
-/

namespace FeatureStyle
namespace World

variable {ι κ σ : Type} [KeySupply κ] [DecidableEq ι] {w : World ι κ σ} {i : ι} {bag : Bag σ}

/-- A pipeline got a bag when it last resolved the feature of the bag, and has not released the
feature since. In the meantime all pipelines may make any other calls, and others may act on
their own bindings. -/
inductive Latest (i : ι) (bag : Bag σ) : World ι κ σ → Prop
  | resolved {w : World ι κ σ} {c : Call} {bags : List (Bag σ)}
      (h : Reachable (fun w (a : Act σ) => a.Own w) w)
      (hok : (w.turn i c).result = .ok bags) (hbag : bag ∈ bags) : Latest i bag (w.call i c bags)
  | call {w : World ι κ σ} {j : ι} {c : Call} {bags : List (Bag σ)} (h : Latest i bag w)
      (hok : (w.turn j c).result = .ok bags)
      (hspared : j = i → ¬ c.Touches bag.feature) : Latest i bag (w.call j c bags)
  | act {w : World ι κ σ} {a : Act σ} (h : Latest i bag w) (hown : a.Own w) :
      Latest i bag (w.act a)

private theorem Latest.reachable (h : Latest i bag w) :
    Reachable (fun w (a : Act σ) => a.Own w) w := by
  induction h with
  | resolved h hok _ => exact .call h hok
  | call _ hok _ ih => exact .call ih hok
  | act _ hown ih => exact .act ih hown

theorem Latest.dynamic_eq (h : Latest i bag w) :
    bag.dynamic = (w.pipelines i).heldFields bag.feature := by
  induction h with
  | @resolved w c bags h hok hbag =>
    have hsettled := h.settled
    rw [(call_self w i c bags).1]
    exact (hsettled.records i).dynamic_of_mem (hsettled.ordered i) hsettled.sound hok hbag
  | @call w j c bags h hok hspared ih =>
    have hsettled := h.reachable.settled
    by_cases hj : i = j
    · subst hj
      have hframe := ((hsettled.records i).perform (hsettled.ordered i) hsettled.sound hok).2
      rw [(call_self w i c bags).1]
      exact ih.trans (hframe bag.feature (hspared rfl)).symm
    · rw [(call_other hj w c bags).1]
      exact ih
  | @act w a h hown ih =>
    rw [(act_frame w a).1]
    exact ih

/-- The next time a feature is resolved, a field that still depends on time has its key again. The
key of a field that does not is free when the feature's turn is over, and until the end of the pass
it can only be issued again for a feature whose turn is later. -/
theorem keys_stable (h : Latest i bag w) {c : Call} {bags : List (Bag σ)}
    (hok : (w.turn i c).result = .ok bags) {layer : OrderedTree} {upper : Option OrderedTree}
    {before after : List Feature} {target : Feature}
    (hrequest : c.request? = some (layer, upper, before ++ target :: after))
    (htarget : target.id = bag.feature) {next : Bag σ} (hnext : next ∈ bags)
    (hsame : next.feature = bag.feature) {field : String} {binding : Binding σ}
    (hbinding : bag.binding? field = some binding) :
    (∀ again, next.binding? field = some again → again.key = binding.key) ∧
      (next.binding? field = none →
        ((w.pipelines i).resolveEach w.registry layer (layer.layered upper)
            (before ++ [target])).registry.get? binding.key = none ∧
          ∀ known, (w.turn i c).registry.get? binding.key = some known →
            known.feature ∈ after.map Feature.id) := by
  have hsettled := h.reachable.settled
  obtain ⟨hnodup, hpass, hpipeline, hregistry⟩ := Pipeline.perform_request hrequest hok
  have hdynamic : next.dynamic = (w.turn i c).pipeline.heldFields target.id := by
    rw [htarget, ← hsame]
    exact (hsettled.records i).dynamic_of_mem (hsettled.ordered i) hsettled.sound hok hnext
  have hholds : (w.pipelines i).Holds target.id field binding := by
    rw [Pipeline.Holds, htarget, ← h.dynamic_eq]
    exact hbinding
  rw [List.map_append, List.map_cons, List.nodup_middle, List.nodup_cons, List.mem_append,
    not_or] at hnodup
  obtain ⟨⟨hbefore, hafter⟩, -⟩ := hnodup
  have hsplit : before ++ target :: after = (before ++ [target]) ++ after := by simp
  rw [hsplit] at hpass hpipeline hregistry
  obtain ⟨⟨bags', hturn⟩, hheld, hlater⟩ := Pipeline.resolveEach_after (hsettled.ordered i)
    hsettled.sound (hsettled.tracks i) hpass hafter
  have hkeeps := Pipeline.resolveEach_keepsKey (hsettled.ordered i) hsettled.sound
    (hsettled.tracks i) hbefore hturn hholds
  have hheld' : next.dynamic = ((w.pipelines i).resolveEach w.registry layer
      (layer.layered upper) (before ++ [target])).pipeline.heldFields target.id := by
    rw [hdynamic, turn, hpipeline, hheld]
  rw [Bag.binding?, hheld', turn, hregistry]
  refine ⟨hkeeps.held, fun hnone => ?_⟩
  have hfree := hkeeps.freed hnone
  exact ⟨hfree, fun known => hlater binding.key known hfree⟩

/-- A field that depends on time has its key again after all stored bags were dropped, and a layer
without the field frees the key. -/
theorem lone_keys_stable :
    let key : Key := ⟨"AAAAAAAAAAAAAAAAAAAAA"⟩
    let bag : Bag String := ⟨⟨"f"⟩, [], [("x", ⟨key, ⟨"f"⟩, "x", "pipeline"⟩)], []⟩
    let probe := Call.resolve (.probe "x") none (.ofId ⟨"f"⟩)
    let bare := Call.resolve .empty none (.ofId ⟨"f"⟩)
    let w := ((lone 8).call () probe [bag]).call () .clear []
    Latest () bag w ∧ (∃ next, (w.turn () probe).result = .ok [next] ∧
        ∃ again, next.binding? "x" = some again ∧ again.key = key) ∧
      ∃ next, (w.turn () bare).result = .ok [next] ∧ next.binding? "x" = none ∧
        (w.turn () bare).registry.get? key = none := by
  intro key bag probe bare w
  have hlatest : Latest () bag w :=
    .call (.resolved (reachable_lone _ 8) rfl List.mem_cons_self) rfl fun _ h => h
  have hbinding : bag.binding? "x" = some ⟨key, ⟨"f"⟩, "x", "pipeline"⟩ := rfl
  refine ⟨hlatest, ⟨bag, rfl, _, hbinding, ?_⟩, ⟨⟨"f"⟩, [], [], []⟩, rfl, rfl, ?_⟩
  · have hok : (w.turn () probe).result = .ok [bag] := rfl
    have hrequest : probe.request? = some (.probe "x", none, [] ++ [.ofId ⟨"f"⟩]) := rfl
    have hstable := keys_stable hlatest hok hrequest rfl List.mem_cons_self rfl hbinding
    exact hstable.1 _ hbinding
  · have hok : (w.turn () bare).result = .ok [⟨⟨"f"⟩, [], [], []⟩] := rfl
    have hrequest : bare.request? = some (.empty, none, [] ++ [.ofId ⟨"f"⟩]) := rfl
    have hstable := keys_stable hlatest hok hrequest rfl List.mem_cons_self rfl hbinding
    obtain ⟨-, hlater⟩ := hstable.2 rfl
    cases hget : (w.turn () bare).registry.get? key with
    | none => rfl
    | some known => exact absurd (hlater known hget) List.not_mem_nil

end World
end FeatureStyle
