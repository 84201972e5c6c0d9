import FeatureStyle.Proofs.Pipeline.Likeness
import FeatureStyle.Proofs.World.Accounting

/-!
# Bags from the store

A pipeline that keeps bags answers a request with the bag of an equal tree and an equal feature. How
far that bag can be told from the one that a pipeline without a store gives is settled by the
resolution it goes back to: the tree alone does not say what a degraded feature shows, for that comes
from the layer.
-/

namespace FeatureStyle

/-- Two bags cannot be told apart: they show alike static fields, the same warnings and the same
dynamic fields, and these are sampled alike. -/
structure Bag.Agree {σ σ' : Type} (sample sample' : Key → Option Value) (a : Bag σ)
    (b : Bag σ') : Prop where
  feature : a.feature = b.feature
  fields : Value.alikeFields a.fields b.fields = true
  warnings : a.warnings = b.warnings
  names : ∀ field, (a.binding? field).isSome = (b.binding? field).isSome
  samples : ∀ field binding binding', a.binding? field = some binding →
    b.binding? field = some binding' → ∃ value value', sample binding.key = some value ∧
      sample' binding'.key = some value' ∧ value.alike value' = true

/-- Two lists of fields look alike: the static fields are alike, and the same fields depend on
time. -/
def Value.ShowAlike (fields fields' : List (String × Value)) : Prop :=
  alikeFields (fields.filter fun entry => !entry.2.isTimed)
      (fields'.filter fun entry => !entry.2.isTimed) = true ∧
    ∀ field, (Table.get? (fields.filter fun entry => entry.2.isTimed) field).isSome =
      (Table.get? (fields'.filter fun entry => entry.2.isTimed) field).isSome

/-- A resolution on record can pass for one of another layer with an equal tree. If they are
degraded, what the layers show without their expressions has to look alike. In any case the samples
of the values that depend on time have to be alike. -/
structure Origin.PassesFor (limit : Nat) (source : FeatureId → String → Value → Value)
    (origin : Origin) (layer tree : Tree) (feature : Feature) : Prop where
  degraded : limit < tree.depth →
    Value.ShowAlike (origin.layer.fallback limit) (layer.fallback limit)
  sampled : ∀ field value value',
    Table.get? (Outcome.of limit origin.layer origin.tree origin.feature).timed field = some value →
      Table.get? (Outcome.of limit layer tree feature).timed field = some value' →
        (source feature.id field value).alike (source feature.id field value') = true

private theorem Origin.Answers.alike {origin : Origin} {settings : Settings} {layer tree : Tree}
    {feature : Feature} (h : origin.Answers settings layer tree feature) :
    Value.canonicalFields origin.tree.fields = Value.canonicalFields tree.fields ∧
      origin.feature.canonical = feature.canonical := by
  rcases h with ⟨-, rfl, rfl⟩ | ⟨-, htree, hfeature⟩
  · exact ⟨rfl, rfl⟩
  · exact ⟨Tree.canonicalFields_eq_of_beq htree, (Feature.eq_of_beq hfeature).2⟩

private theorem Origin.Answers.eq_of_capacity {origin : Origin} {settings : Settings}
    {layer tree : Tree}
    {feature : Feature} (h : origin.Answers settings layer tree feature)
    (hcapacity : settings.capacity = 0) :
    origin.layer = layer ∧ origin.tree = tree ∧ origin.feature = feature := by
  rcases h with hsame | ⟨hkeeps, -⟩
  · exact hsame
  · rw [Settings.keepsBags, hcapacity] at hkeeps
    cases hkeeps

namespace Outcome

private theorem showAlike_of_canonicalFields {o o' : Outcome}
    (h : Value.canonicalFields o.fields = Value.canonicalFields o'.fields) :
    Value.ShowAlike o.fields o'.fields := by
  obtain ⟨hstatic, htimed⟩ := canonicalFields_parts h
  refine ⟨(Value.alikeFields_iff _ _).mpr hstatic, fun field => ?_⟩
  have hget := congrArg (fun fields => (Fields.get? fields field).isSome) htimed
  simp only [Value.get?_canonicalFields, Option.isSome_map] at hget
  exact hget

theorem showAlike_iff (limit : Nat) (layer layer' : Tree) {tree tree' : Tree}
    {feature feature' : Feature}
    (htree : Value.canonicalFields tree.fields = Value.canonicalFields tree'.fields)
    (hfeature : feature.canonical = feature'.canonical) :
    Value.ShowAlike (of limit layer tree feature).fields (of limit layer' tree' feature').fields ↔
      (limit < tree'.depth → Value.ShowAlike (layer.fallback limit) (layer'.fallback limit)) := by
  have hdepth := Tree.depth_eq htree
  by_cases hdegraded : limit < tree'.depth
  · rw [of_degraded hdegraded, of_degraded (hdepth ▸ hdegraded)]
    simp only [hdegraded, true_imp_iff]
  · have hfields := (of_alike limit layer layer' htree hfeature).2 (hdepth ▸ hdegraded)
    simp only [hdegraded, false_imp_iff, iff_true]
    exact showAlike_of_canonicalFields hfields

end Outcome

namespace Pipeline

variable {κ σ : Type} {p : Pipeline σ} {r : Registry κ σ} {ledger : Ledger} {origin : Origin}
  {feature : FeatureId}

private theorem Records.timed (h : p.Records ledger) (horigin : ledger feature = some origin) :
    ledger.timed feature = (p.outcome origin).timed := by
  rw [Ledger.timed, horigin]
  simp only [(h.origins feature origin horigin).2]
  rfl

private theorem Records.isSome_held (h : p.Records ledger) (horigin : ledger feature = some origin)
    (field : String) :
    ((p.heldFields feature).get? field).isSome =
      (Table.get? (p.outcome origin).timed field).isSome := by
  have hsampler := congrArg Option.isSome (h.samplers feature field)
  rwa [Option.isSome_map, Option.isSome_map, h.timed horigin] at hsampler

private theorem Records.sample?_held (h : p.Records ledger) (hr : p.Tracks r)
    (horigin : ledger feature = some origin) (read : σ → Value) {field : String}
    {binding : Binding σ} (hholds : (p.heldFields feature).get? field = some binding) :
    ∃ value, Table.get? (p.outcome origin).timed field = some value ∧
      r.sample? read binding.key = some (read (p.sampler feature field value)) := by
  have hsampler := h.samplers feature field
  rw [hholds, Option.map_some, h.timed horigin] at hsampler
  obtain ⟨value, hvalue, hsampler⟩ := Option.map_eq_some_iff.mp hsampler.symm
  refine ⟨value, hvalue, ?_⟩
  rw [Registry.sample?, (hr feature field binding hholds).1, Option.map_some, hsampler]

variable {σ' κ' : Type} {p' : Pipeline σ'} {r' : Registry κ' σ'} {ledger' : Ledger}
  {origin' : Origin} {source : FeatureId → String → Value → Value} {read : σ → Value}
  {read' : σ' → Value}

/-- Bags recalled from resolutions of equal trees and features agree exactly if one resolution can
pass for the other. -/
theorem recalled_agree_iff (h : p.Records ledger) (hr : p.Tracks r)
    (horigin : ledger origin.feature.id = some origin)
    (hread : ∀ feature field value, read (p.sampler feature field value) =
      source feature field value)
    (h' : p'.Records ledger') (hr' : p'.Tracks r')
    (horigin' : ledger' origin'.feature.id = some origin')
    (hread' : ∀ feature field value, read' (p'.sampler feature field value) =
      source feature field value)
    (hlimit : p'.settings.depthLimit = p.settings.depthLimit)
    (htree : Value.canonicalFields origin.tree.fields = Value.canonicalFields origin'.tree.fields)
    (hid : origin.feature.id = origin'.feature.id)
    (hfeature : origin.feature.canonical = origin'.feature.canonical) :
    (p.recalled origin).Agree (r.sample? read) (r'.sample? read') (p'.recalled origin') ↔
      origin.PassesFor p.settings.depthLimit source origin'.layer origin'.tree origin'.feature := by
  have houtcome : p'.outcome origin' =
      Outcome.of p.settings.depthLimit origin'.layer origin'.tree origin'.feature := by
    rw [outcome, hlimit]
  have hshow := Outcome.showAlike_iff p.settings.depthLimit origin.layer origin'.layer htree hfeature
  have hnames : ∀ field, ((p.recalled origin).binding? field).isSome =
      (Table.get? (p.outcome origin).timed field).isSome := h.isSome_held horigin
  have hnames' : ∀ field, ((p'.recalled origin').binding? field).isSome =
      (Table.get? (p'.outcome origin').timed field).isSome := h'.isSome_held horigin'
  constructor
  · intro hagree
    refine ⟨hshow.mp ⟨?_, ?_⟩, ?_⟩
    · have hfields := hagree.fields
      simp only [recalled, houtcome] at hfields
      exact hfields
    · intro field
      have hname := hagree.names field
      rw [hnames, hnames', houtcome] at hname
      exact hname
    · intro field value value' hvalue hvalue'
      have hsome := hnames field
      have hsome' := hnames' field
      rw [outcome, hvalue, Option.isSome_some, Option.isSome_iff_exists] at hsome
      rw [houtcome, hvalue', Option.isSome_some, Option.isSome_iff_exists] at hsome'
      obtain ⟨binding, hbinding⟩ := hsome
      obtain ⟨binding', hbinding'⟩ := hsome'
      obtain ⟨known, hknown, hsample⟩ := h.sample?_held hr horigin read hbinding
      obtain ⟨known', hknown', hsample'⟩ := h'.sample?_held hr' horigin' read' hbinding'
      rw [outcome, hvalue] at hknown
      rw [houtcome, hvalue'] at hknown'
      cases hknown
      cases hknown'
      rw [hread, hid] at hsample
      rw [hread'] at hsample'
      obtain ⟨a, b, ha, hb, halike⟩ := hagree.samples field binding binding' hbinding hbinding'
      rw [hsample] at ha
      rw [hsample'] at hb
      cases ha
      cases hb
      exact halike
  · intro hpasses
    obtain ⟨hstatic, hdynamic⟩ := hshow.mpr hpasses.degraded
    refine ⟨hid, ?_, ?_, ?_, ?_⟩
    · simp only [recalled, houtcome]
      exact hstatic
    · simp only [recalled, houtcome]
      exact (Outcome.of_alike _ _ _ htree hfeature).1
    · intro field
      rw [hnames, hnames', houtcome]
      exact hdynamic field
    · intro field binding binding' hbinding hbinding'
      obtain ⟨value, hvalue, hsample⟩ := h.sample?_held hr horigin read hbinding
      obtain ⟨value', hvalue', hsample'⟩ := h'.sample?_held hr' horigin' read' hbinding'
      rw [houtcome] at hvalue'
      rw [hread] at hsample
      rw [hread'] at hsample'
      refine ⟨_, _, hsample, hsample', ?_⟩
      rw [hid]
      exact hpasses.sampled field value value' hvalue hvalue'

/-- The bag of a resolution on record agrees with the one of a resolution that was asked for the same
thing exactly if the first can pass for the second. -/
theorem agree_iff_of_answers {settings : Settings} {layer tree : Tree} {target : Feature}
    (h : p.Records ledger) (hr : p.Tracks r) (horigin : ledger target.id = some origin)
    (hread : ∀ feature field value, read (p.sampler feature field value) =
      source feature field value)
    (hanswers : origin.Answers settings layer tree target)
    (h' : p'.Records ledger') (hr' : p'.Tracks r') (horigin' : ledger' target.id = some origin')
    (hread' : ∀ feature field value, read' (p'.sampler feature field value) =
      source feature field value)
    (hsame : origin'.layer = layer ∧ origin'.tree = tree ∧ origin'.feature = target)
    (hlimit : p'.settings.depthLimit = p.settings.depthLimit) :
    (p.recalled origin).Agree (r.sample? read) (r'.sample? read') (p'.recalled origin') ↔
      origin.PassesFor p.settings.depthLimit source layer tree target := by
  obtain ⟨rfl, rfl, rfl⟩ := hsame
  obtain ⟨htree, hfeature⟩ := hanswers.alike
  have hid : origin.feature.id = origin'.feature.id := (h.origins _ _ horigin).1
  rw [← hid] at horigin
  exact recalled_agree_iff h hr horigin hread h' hr' horigin' hread' hlimit htree hid hfeature

end Pipeline

private theorem forall₂_iff_of_forall₂ {α β γ : Type} {R : α → β → Prop} {S : α → γ → Prop}
    {Q : β → γ → Prop} {P : α → Prop} {xs : List α} {ys : List β} {zs : List γ}
    (hys : List.Forall₂ R xs ys) (hzs : List.Forall₂ S xs zs)
    (h : ∀ x y z, R x y → S x z → (Q y z ↔ P x)) : List.Forall₂ Q ys zs ↔ ∀ x ∈ xs, P x := by
  induction hys generalizing zs with
  | nil =>
    cases hzs
    simp
  | cons hxy _ ih =>
    cases hzs with
    | cons hxz hzs =>
      rw [List.forall₂_cons, List.forall_mem_cons, h _ _ _ hxy hxz, ih hzs]

namespace World

variable {ι ι' κ κ' σ σ' : Type} [DecidableEq ι] [DecidableEq ι'] [KeySupply κ] [KeySupply κ']
  {w : World ι κ σ} {w' : World ι' κ' σ'} {i : ι} {j : ι'} {call : Call}
  {source : FeatureId → String → Value → Value} {read : σ → Value} {read' : σ' → Value}

/-- The bags that a pipeline returns agree with those of a pipeline without a store exactly as long as
the resolutions they go back to can pass for resolutions of the layer that is asked for. -/
theorem agree_iff_passesFor (h : Reachable (fun w (a : Act σ) => a.Own w) w)
    (h' : Reachable (fun w (a : Act σ') => a.Own w) w')
    (hcapacity : (w'.pipelines j).settings.capacity = 0)
    (hlimit : (w'.pipelines j).settings.depthLimit = (w.pipelines i).settings.depthLimit)
    (hread : ∀ feature field value, read ((w.pipelines i).sampler feature field value) =
      source feature field value)
    (hread' : ∀ feature field value, read' ((w'.pipelines j).sampler feature field value) =
      source feature field value)
    {bags : List (Bag σ)} (hok : (w.turn i call).result = .ok bags)
    {bags' : List (Bag σ')} (hok' : (w'.turn j call).result = .ok bags') :
    List.Forall₂ (Bag.Agree ((w.call i call bags).registry.sample? read)
        ((w'.call j call bags').registry.sample? read')) bags bags' ↔
      ∀ layer upper features, call.request? = some (layer, upper, features) →
        ∀ feature ∈ features, ∀ origin,
          (w.call i call bags).ledgers i feature.id = some origin →
            origin.PassesFor (w.pipelines i).settings.depthLimit source layer
              (layer.layered upper) feature := by
  cases hrequest : call.request? with
  | none =>
    rw [Pipeline.eq_nil_of_request?_eq_none hrequest hok,
      Pipeline.eq_nil_of_request?_eq_none hrequest hok']
    simp
  | some request =>
    obtain ⟨layer, upper, features⟩ := request
    have hbags := (h.settled.records i).perform_bags (h.settled.ordered i) h.settled.sound hok
      hrequest
    have hbags' := (h'.settled.records j).perform_bags (h'.settled.ordered j) h'.settled.sound
      hok' hrequest
    have hafter := (Reachable.call h hok).settled
    have hafter' := (Reachable.call h' hok').settled
    obtain ⟨hpipeline, hledger, -⟩ := call_self w i call bags
    obtain ⟨hpipeline', hledger', -⟩ := call_self w' j call bags'
    have hrecords := hafter.records i
    have hrecords' := hafter'.records j
    have htracks := hafter.tracks i
    have htracks' := hafter'.tracks j
    obtain ⟨hsettings, hsampler⟩ := h.regular.call_keeps i call bags
    obtain ⟨hsettings', hsampler'⟩ := h'.regular.call_keeps j call bags'
    rw [← hsampler] at hread
    rw [← hsampler'] at hread'
    rw [← hsettings, ← hsettings'] at hlimit
    refine (forall₂_iff_of_forall₂ (P := fun feature => ∀ origin,
      (w.call i call bags).ledgers i feature.id = some origin →
        origin.PassesFor (w.pipelines i).settings.depthLimit source layer
          (layer.layered upper) feature) hbags hbags' ?_).trans ?_
    · rintro feature _ _ ⟨origin, horigin, hanswers, rfl⟩ ⟨origin', horigin', hanswers', rfl⟩
      rw [← hledger] at horigin
      rw [← hledger'] at horigin'
      have hagree := Pipeline.agree_iff_of_answers hrecords htracks horigin hread hanswers
        hrecords' htracks' horigin' hread' (hanswers'.eq_of_capacity hcapacity) hlimit
      rw [hsettings, hpipeline, hpipeline'] at hagree
      refine hagree.trans ⟨?_, ?_⟩
      · intro hpasses other hother
        rw [horigin] at hother
        cases hother
        exact hpasses
      · intro hall
        exact hall origin horigin
    · constructor
      · rintro hall _ _ _ ⟨⟩
        exact hall
      · intro hall
        exact hall layer upper features rfl

/-- A world of one pipeline that degrades trees of more than two levels. Samplers are the values that
they sample. -/
def shallow (capacity : Nat) : World Unit KeySupply.Same Value :=
  initial .standard ⟨⟨"AAAAAAAAAAAAAAAAAAAAA"⟩⟩ 0
    (fun _ => .ofOptions (some 2) (some capacity)) (fun _ _ => 0) (fun _ _ _ value => value)

private theorem reachable_shallow (capacity : Nat) :
    Reachable (fun w (a : Act Value) => a.Own w) (shallow capacity) :=
  .initial 0 _ _ _ (KeySupply.admissible_same (by decide +kernel))

def probeBag : Bag Value :=
  ⟨⟨"f"⟩, [], [("x", ⟨⟨"AAAAAAAAAAAAAAAAAAAAA"⟩, ⟨"f"⟩, "x", .timed⟩)], []⟩

/-- A field that depends on time is shown alike when it is resolved again and its bag is kept. -/
theorem shallow_agree :
    let request := Call.resolve (.probe "x") none (.ofId ⟨"f"⟩)
    let w := (shallow 8).call () request [probeBag]
    let w' := (shallow 0).call () request [probeBag]
    (w.turn () request).result = .ok [probeBag] ∧ (w'.turn () request).result = .ok [probeBag] ∧
      List.Forall₂ (Bag.Agree ((w.call () request [probeBag]).registry.sample? id)
        ((w'.call () request [probeBag]).registry.sample? id)) [probeBag] [probeBag] := by
  intro request w w'
  have hw : Reachable (fun w (a : Act Value) => a.Own w) w := .call (reachable_shallow 8) rfl
  have hw' : Reachable (fun w (a : Act Value) => a.Own w) w' := .call (reachable_shallow 0) rfl
  have hok : (w.turn () request).result = .ok [probeBag] := rfl
  have hok' : (w'.turn () request).result = .ok [probeBag] := rfl
  obtain ⟨hsettings, hsampler⟩ :=
    (reachable_shallow 8).regular.call_keeps () request [probeBag]
  obtain ⟨hsettings', hsampler'⟩ :=
    (reachable_shallow 0).regular.call_keeps () request [probeBag]
  have hlimit : (w'.pipelines ()).settings.depthLimit = (w.pipelines ()).settings.depthLimit := by
    rw [hsettings, hsettings']
    rfl
  have hread : ∀ feature field value,
      id ((w.pipelines ()).sampler feature field value) = value := by
    rw [hsampler]
    exact fun _ _ _ => rfl
  have hread' : ∀ feature field value,
      id ((w'.pipelines ()).sampler feature field value) = value := by
    rw [hsampler']
    exact fun _ _ _ => rfl
  refine ⟨hok, hok', (agree_iff_passesFor hw hw' (congrArg Settings.capacity hsettings') hlimit
    hread hread' hok hok').mpr ?_⟩
  · rintro _ _ _ ⟨⟩ feature hfeature origin horigin
    rw [List.mem_singleton.mp hfeature] at horigin ⊢
    have hledger : (w.call () request [probeBag]).ledgers () ⟨"f"⟩ =
        some ⟨OrderedTree.probe "x", OrderedTree.probe "x", .ofId ⟨"f"⟩, [("x", .timed)]⟩ := rfl
    rw [Feature.ofId, hledger] at horigin
    cases horigin
    refine ⟨fun hdegraded => absurd hdegraded ?_, ?_⟩
    · rw [hsettings]
      decide
    · intro field value value' hvalue hvalue'
      cases hvalue.symm.trans hvalue'
      exact (Value.alike_iff _ _).mpr rfl

def flatLayer : OrderedTree where
  fields := [("a", .object [("b", .number .one)])]
  ordered := by decide

def deepLayer : OrderedTree where
  fields := [("k", .object [("k", .object [("k", .number .one)])])]
  ordered := by decide

def degradedBag (fields : Fields Value) : Bag Value := ⟨⟨"f"⟩, fields, [], [.degraded 3 2]⟩

theorem shallow_not_agree :
    let first := Call.resolve flatLayer (some deepLayer) (.ofId ⟨"f"⟩)
    let second := Call.resolve (flatLayer.overlay deepLayer) none (.ofId ⟨"f"⟩)
    let w := (shallow 8).call () first [degradedBag flatLayer.fields]
    let w' := (shallow 0).call () first [degradedBag flatLayer.fields]
    Reachable (fun w (a : Act Value) => a.Own w) w ∧
      Reachable (fun w (a : Act Value) => a.Own w) w' ∧
      (w.turn () second).result = .ok [degradedBag flatLayer.fields] ∧
      (w'.turn () second).result = .ok [degradedBag []] ∧
      ¬ (degradedBag flatLayer.fields).Agree
        ((w.call () second [degradedBag flatLayer.fields]).registry.sample? id)
        ((w'.call () second [degradedBag []]).registry.sample? id) (degradedBag []) := by
  refine ⟨.call (reachable_shallow 8) rfl, .call (reachable_shallow 0) rfl, rfl, rfl, ?_⟩
  intro hagree
  exact absurd hagree.fields (by decide)

end World
end FeatureStyle
