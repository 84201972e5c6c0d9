import Mathlib.Logic.Function.Basic
import FeatureStyle.Proofs.Pipeline.Records

/-!
# Worlds

Several pipelines share a registry, and so do others who bind fields of their own. A world holds the
registry and the pipelines, and what happened that still matters: the resolutions on record, the bags
returned, and who made the bindings.
-/

namespace FeatureStyle

/-- The bag last returned for every feature, until the feature is released. -/
def Call.returned {σ : Type} (bags : List (Bag σ)) (before : FeatureId → Option (Bag σ)) :
    Call → FeatureId → Option (Bag σ)
  | resolveAll .., other | resolve .., other =>
    (bags.find? fun bag => bag.feature = other).or (before other)
  | forget _, other | clear, other => before other
  | release feature, other => if other = feature then none else before other
  | releaseAll, _ => none

namespace Pipeline

variable {ι κ σ : Type}

/-- Who made the bindings after a step of `i`: a key that was not bound before can only have been
bound by `i`. -/
def claim (i : ι) (r : Registry κ σ) (owner : Key → Option ι) : Key → Option ι :=
  fun key => if r.contains key then owner key else some i

variable [KeySupply κ]

/-- Who made the bindings after features are resolved by `i`, one after the other. -/
def ownersEach (i : ι) (p : Pipeline σ) (r : Registry κ σ) (layer tree : Tree) :
    List Feature → (Key → Option ι) → Key → Option ι
  | [], owner => owner
  | feature :: features, owner =>
    let first := p.resolveIn r layer tree feature
    first.pipeline.ownersEach i first.registry layer tree features (claim i r owner)

/-- Who made the bindings after a call by `i`. -/
def owners (i : ι) (p : Pipeline σ) (r : Registry κ σ) (owner : Key → Option ι) (call : Call) :
    Key → Option ι :=
  match call.request? with
  | some (layer, upper, features) => p.ownersEach i r layer (layer.layered upper) features owner
  | none => claim i r owner

variable {i : ι} {p p' : Pipeline σ} {r r' : Registry κ σ} {owner : Key → Option ι} {key : Key}

omit [KeySupply κ] in
private theorem claim_of_bound {binding : Binding σ} (hget : r.get? key = some binding) :
    claim i r owner key = owner key := if_pos (Registry.contains_iff.mpr ⟨binding, hget⟩)

theorem Confined.claim_of_remembers (h : Confined p r p' r')
    (howner : ∀ key, p.Remembers key → owner key = some i) (hkey : p'.Remembers key) :
    claim i r owner key = some i := by
  cases hget : r.get? key with
  | none => exact if_neg (by rw [Registry.contains_eq_false_iff.mpr hget]; exact Bool.false_ne_true)
  | some binding =>
    rw [claim_of_bound hget]
    by_cases hremembers : p.Remembers key
    · exact howner key hremembers
    · exact absurd hkey (h.frame key binding hget hremembers).2

private theorem ownersEach_of_spared (hp : p.Ordered) (hr : r.Sound) (layer tree : Tree)
    (features : List Feature) {binding : Binding σ} (hget : r.get? key = some binding)
    (hnew : ¬ p.Remembers key) :
    p.ownersEach i r layer tree features owner key = owner key := by
  induction features generalizing p r owner with
  | nil => rfl
  | cons feature features ih =>
    have hfirst := resolveIn_confined hp hr layer tree feature
    obtain ⟨hget', hnew'⟩ := hfirst.frame key binding hget hnew
    rw [ownersEach, ih hfirst.ordered hfirst.sound hget' hnew', claim_of_bound hget]

theorem owners_of_spared (hp : p.Ordered) (hr : r.Sound) (call : Call) {binding : Binding σ}
    (hget : r.get? key = some binding) (hnew : ¬ p.Remembers key) :
    p.owners i r owner call key = owner key := by
  rw [owners]
  cases call.request? with
  | some request => exact ownersEach_of_spared hp hr _ _ _ hget hnew
  | none => exact claim_of_bound hget

private theorem ownersEach_of_remembers (hp : p.Ordered) (hr : r.Sound) {layer tree : Tree}
    {features : List Feature} (howner : ∀ key, p.Remembers key → owner key = some i)
    {bags : List (Bag σ)} (hok : (p.resolveEach r layer tree features).result = .ok bags)
    (hkey : (p.resolveEach r layer tree features).pipeline.Remembers key) :
    p.ownersEach i r layer tree features owner key = some i := by
  induction features generalizing p r owner bags with
  | nil => exact howner key hkey
  | cons feature features ih =>
    have hfirst := resolveIn_confined hp hr layer tree feature
    simp only [resolveEach] at hok hkey
    rw [ownersEach]
    split at hok
    · cases hok
    · rename_i bag hbag
      obtain ⟨rest, hrest, -⟩ := map_eq_ok hok
      rw [hbag] at hkey
      exact ih hfirst.ordered hfirst.sound (fun _ => hfirst.claim_of_remembers howner) hrest hkey

/-- A pipeline owns the bindings it holds after a call if it owned those it held before. -/
theorem owners_of_remembers (hp : p.Ordered) (hr : r.Sound)
    (howner : ∀ key, p.Remembers key → owner key = some i) {call : Call} {bags : List (Bag σ)}
    (hok : (p.perform r call).result = .ok bags)
    (hkey : (p.perform r call).pipeline.Remembers key) :
    p.owners i r owner call key = some i := by
  rw [owners]
  cases hrequest : call.request? with
  | some request =>
    obtain ⟨layer, upper, features⟩ := request
    obtain ⟨-, hok, hpipeline, -⟩ := perform_request hrequest hok
    rw [hpipeline] at hkey
    exact ownersEach_of_remembers hp hr howner hok hkey
  | none => exact (perform_confined hp hr call).claim_of_remembers howner hkey

end Pipeline

/-- Pipelines named by `ι` that share a registry. -/
structure World (ι κ σ : Type) where
  registry : Registry κ σ
  pipelines : ι → Pipeline σ
  ledgers : ι → Ledger
  /-- The bag that a pipeline returned last for a feature, until it released the feature. -/
  returned : ι → FeatureId → Option (Bag σ)
  /-- The pipeline that made the binding of a key; none if others did. -/
  owner : Key → Option ι

namespace World

variable {ι κ σ : Type} [KeySupply κ]

def initial (shape : KeyShape) (supply : κ) (patience : Nat) (settings : ι → Settings)
    (hash : ι → Tree → UInt64) (sampler : ι → FeatureId → String → Value → σ) : World ι κ σ where
  registry := .empty shape supply patience
  pipelines i := .empty (settings i) (hash i) (sampler i)
  ledgers _ := .empty
  returned _ _ := none
  owner _ := none

def turn (w : World ι κ σ) (i : ι) (call : Call) : Turn κ σ (List (Bag σ)) :=
  (w.pipelines i).perform w.registry call

def call [DecidableEq ι] (w : World ι κ σ) (i : ι) (call : Call) (bags : List (Bag σ)) :
    World ι κ σ where
  registry := (w.turn i call).registry
  pipelines := Function.update w.pipelines i (w.turn i call).pipeline
  ledgers := Function.update w.ledgers i
    ((w.pipelines i).recorded w.registry (w.ledgers i) call)
  returned := Function.update w.returned i (call.returned bags (w.returned i))
  owner := (w.pipelines i).owners i w.registry w.owner call

def act (w : World ι κ σ) : Act σ → World ι κ σ
  | .bind feature field sampler =>
    match w.registry.bind? feature field sampler with
    | some (binding, registry, _) =>
      { w with registry, owner := Function.update w.owner binding.key none }
    | none => w
  | .rebind key sampler => { w with registry := (w.registry.rebind key sampler).2 }
  | .unbind key =>
    match w.registry.unbind key with
    | .ok (_, registry) => { w with registry }
    | .error _ => w
  | .unbindAll feature => { w with registry := (w.registry.unbindAll feature).2 }

/-- The worlds that calls and acts lead to, where others may do what a policy says. A call that gives
no result leads nowhere. -/
inductive Reachable [DecidableEq ι] (may : World ι κ σ → Act σ → Prop) : World ι κ σ → Prop
  | initial {shape : KeyShape} {supply : κ} (patience : Nat) (settings : ι → Settings)
      (hash : ι → Tree → UInt64) (sampler : ι → FeatureId → String → Value → σ)
      (hsupply : KeySupply.Admissible shape supply) :
      Reachable may (initial shape supply patience settings hash sampler)
  | call {w : World ι κ σ} {i : ι} {call : Call} {bags : List (Bag σ)} (h : Reachable may w)
      (hok : (w.turn i call).result = .ok bags) :
      Reachable may (w.call i call bags)
  | act {w : World ι κ σ} {a : Act σ} (h : Reachable may w) (hmay : may w a) :
      Reachable may (w.act a)

variable {w : World ι κ σ} {i j : ι}

theorem act_frame (w : World ι κ σ) (a : Act σ) : (w.act a).pipelines = w.pipelines ∧
    (w.act a).ledgers = w.ledgers ∧ (w.act a).returned = w.returned := by
  cases a with
  | bind feature field sampler =>
    rw [act]
    split <;> exact ⟨rfl, rfl, rfl⟩
  | rebind key sampler => exact ⟨rfl, rfl, rfl⟩
  | unbind key =>
    rw [act]
    split <;> exact ⟨rfl, rfl, rfl⟩
  | unbindAll feature => exact ⟨rfl, rfl, rfl⟩

private theorem act_sound (h : w.registry.Sound) (a : Act σ) :
    (w.act a).registry.Sound ∧ (w.act a).registry.shape = w.registry.shape := by
  cases a with
  | bind feature field sampler =>
    rw [act]
    split
    · rename_i hbind
      exact ⟨h.bind? hbind, (Registry.bind?_eq_some hbind).2.2.2.2.1⟩
    · exact ⟨h, rfl⟩
  | rebind key sampler => exact ⟨h.rebind key sampler, Registry.rebind_shape ..⟩
  | unbind key =>
    rw [act]
    split
    · rename_i hunbind
      rw [Registry.eq_remove_of_unbind hunbind]
      exact ⟨h.remove key, Registry.remove_shape ..⟩
    · exact ⟨h, rfl⟩
  | unbindAll feature => exact ⟨h.unbindAll feature, rfl⟩

section call

variable [DecidableEq ι] {c : Call} {bags : List (Bag σ)}

theorem call_self (w : World ι κ σ) (i : ι) (c : Call) (bags : List (Bag σ)) :
    (w.call i c bags).pipelines i = (w.turn i c).pipeline ∧
      (w.call i c bags).ledgers i =
        (w.pipelines i).recorded w.registry (w.ledgers i) c ∧
      (w.call i c bags).returned i = c.returned bags (w.returned i) :=
  ⟨Function.update_self .., Function.update_self .., Function.update_self ..⟩

theorem call_other (h : j ≠ i) (w : World ι κ σ) (c : Call) (bags : List (Bag σ)) :
    (w.call i c bags).pipelines j = w.pipelines j ∧
      (w.call i c bags).ledgers j = w.ledgers j ∧
      (w.call i c bags).returned j = w.returned j :=
  ⟨Function.update_of_ne h .., Function.update_of_ne h .., Function.update_of_ne h ..⟩

end call

/-- What no act can spoil: each pipeline agrees with its own past, and its keys have the shape of the
registry's. -/
structure Regular (w : World ι κ σ) : Prop where
  sound : w.registry.Sound
  ordered : ∀ i, (w.pipelines i).Ordered
  records : ∀ i, (w.pipelines i).Records (w.ledgers i)
  admitted : ∀ i key, (w.pipelines i).Remembers key → w.registry.shape.admits key = true

theorem regular_initial {shape : KeyShape} {supply : κ} (patience : Nat) (settings : ι → Settings)
    (hash : ι → Tree → UInt64) (sampler : ι → FeatureId → String → Value → σ)
    (hsupply : KeySupply.Admissible shape supply) :
    (initial shape supply patience settings hash sampler).Regular where
  sound := Registry.sound_empty patience hsupply
  ordered i := Pipeline.ordered_empty (settings i) (hash i) (sampler i)
  records i := Pipeline.records_empty (settings i) (hash i) (sampler i)
  admitted := by
    rintro i key ⟨feature, field, binding, hholds, -⟩
    cases hholds

theorem Regular.act (h : w.Regular) (a : Act σ) : (w.act a).Regular := by
  obtain ⟨hpipelines, hledgers, -⟩ := act_frame w a
  obtain ⟨hsound, hshape⟩ := act_sound h.sound a
  refine ⟨hsound, ?_, ?_, ?_⟩
  · rw [hpipelines]
    exact h.ordered
  · rw [hpipelines, hledgers]
    exact h.records
  · rw [hpipelines, hshape]
    exact h.admitted

theorem Regular.call [DecidableEq ι] {c : Call} {bags : List (Bag σ)} (h : w.Regular)
    (hok : (w.turn i c).result = .ok bags) : (w.call i c bags).Regular := by
  have hconfined := Pipeline.perform_confined (h.ordered i) h.sound c
  obtain ⟨hpipeline, hledger, -⟩ := call_self w i c bags
  refine ⟨hconfined.sound, ?_, ?_, ?_⟩
  · intro j
    by_cases hj : j = i
    · rw [hj, hpipeline]
      exact hconfined.ordered
    · rw [(call_other hj w c bags).1]
      exact h.ordered j
  · intro j
    by_cases hj : j = i
    · rw [hj, hpipeline, hledger]
      exact ((h.records i).perform (h.ordered i) h.sound hok).1
    · rw [(call_other hj w c bags).1, (call_other hj w c bags).2.1]
      exact h.records j
  · intro j key hkey
    have hshape : (w.call i c bags).registry.shape = w.registry.shape := hconfined.shape
    rw [hshape]
    by_cases hj : j = i
    · rw [hj, hpipeline] at hkey
      exact (hconfined.admitted key hkey).elim (h.admitted i key) (fun hadmits => hadmits)
    · rw [(call_other hj w c bags).1] at hkey
      exact h.admitted j key hkey

theorem Regular.call_keeps [DecidableEq ι] (h : w.Regular) (i : ι) (c : Call)
    (bags : List (Bag σ)) :
    ((w.call i c bags).pipelines i).settings = (w.pipelines i).settings ∧
      ((w.call i c bags).pipelines i).sampler = (w.pipelines i).sampler := by
  have hconfined := Pipeline.perform_confined (h.ordered i) h.sound c
  rw [(call_self w i c bags).1]
  exact ⟨hconfined.settings, hconfined.sampler⟩

theorem Reachable.regular [DecidableEq ι] {may : World ι κ σ → Act σ → Prop}
    (h : Reachable may w) : w.Regular := by
  induction h with
  | initial patience settings hash sampler hsupply =>
    exact regular_initial patience settings hash sampler hsupply
  | call _ hok ih => exact ih.call hok
  | act _ _ ih => exact ih.act _

/-- A world of one pipeline, in which there is one key. Samplers are texts that say whose they are. -/
def lone (capacity : Nat) : World Unit KeySupply.Same String :=
  initial .standard ⟨⟨"AAAAAAAAAAAAAAAAAAAAA"⟩⟩ 0 (fun _ => .ofOptions none (some capacity))
    (fun _ _ => 0) (fun _ _ _ _ => "pipeline")

theorem reachable_lone (may : World Unit KeySupply.Same String → Act String → Prop)
    (capacity : Nat) : Reachable may (lone capacity) :=
  .initial 0 _ _ _ (KeySupply.admissible_same (by decide +kernel))

end World
end FeatureStyle
