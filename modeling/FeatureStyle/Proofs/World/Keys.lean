import FeatureStyle.Proofs.Pipeline.Progress
import FeatureStyle.Proofs.Registry.Drawing
import FeatureStyle.Proofs.World.Basic

/-!
# Keys have the shape they were drawn for

In a world whose keys are drawn from words, the registry, the bindings that pipelines hold and the bags
they store have only keys of the registry's shape. A pipeline therefore never hands the registry a key
that it refuses. The main statement is `drawn_keys_admitted`.
-/

namespace FeatureStyle

namespace Pipeline

variable {κ σ : Type} [KeySupply κ] {p : Pipeline σ} {r : Registry κ σ} {layer tree : Tree}
  {key : Key}

/-- All keys that a pipeline remembers have the shape of the keys of a registry. -/
def FitsAll (p : Pipeline σ) (r : Registry κ σ) : Prop :=
  ∀ key, p.Remembers key → r.shape.admits key = true

omit [KeySupply κ] in
private theorem FitsAll.fits (h : p.FitsAll r) (hp : p.Ordered) (feature : FeatureId) :
    p.Fits r feature := by
  intro entry hentry
  apply h
  refine ⟨feature, entry.1, entry.2, ?_, rfl⟩
  rw [Holds, Fields.get?_eq_some_iff (hp.sorted feature)]
  exact hentry

theorem FitsAll.confined {p' : Pipeline σ} {r' : Registry κ σ} (h : p.FitsAll r)
    (hconfined : Confined p r p' r') : p'.FitsAll r' := by
  intro key hkey
  rw [hconfined.shape]
  rcases hconfined.admitted key hkey with hremembers | hadmits
  · exact h key hremembers
  · exact hadmits

private theorem resolveIn_ne_foreignKey (h : p.FitsAll r) (hp : p.Ordered) (layer tree : Tree)
    (target : Feature) (key : Key) :
    (p.resolveIn r layer tree target).result ≠ .error (.foreignKey key) := by
  intro hforeign
  cases hstored : p.stored? r tree target with
  | some bag =>
    rw [resolveIn_of_some hstored] at hforeign
    cases hforeign
  | none =>
    have hrenewed := renewBindings_result
      (p := { p with choices := (p.fieldsOf layer tree target).2.choices }) (h.fits hp target.id)
      ((p.fieldsOf layer tree target).1.filter fun entry => entry.2.isTimed)
    rw [← renewed] at hrenewed
    obtain ⟨-, ⟨fault, hfault, hresult, -⟩ | ⟨bindings, -, hresult, -⟩⟩ :=
      resolveIn_of_none layer hstored
    · rw [hforeign] at hresult
      rw [hfault] at hrenewed
      simp_all
    · rw [hforeign] at hresult
      cases hresult

private theorem map_ne_error {α β : Type} {result : Except Fault α} {fault : Fault}
    (h : result ≠ .error fault) (f : α → β) : result.map f ≠ .error fault := by
  cases result with
  | error other => simpa [Except.map] using h
  | ok value => simp [Except.map]

private theorem resolveEach_ne_foreignKey (h : p.FitsAll r) (hp : p.Ordered) (hr : r.Sound)
    (layer tree : Tree) (features : List Feature) (key : Key) :
    (p.resolveEach r layer tree features).result ≠ .error (.foreignKey key) := by
  induction features generalizing p r with
  | nil => simp [resolveEach]
  | cons feature features ih =>
    have hfirst := resolveIn_ne_foreignKey h hp layer tree feature key
    have hconfined := resolveIn_confined hp hr layer tree feature
    have hrest := ih (h.confined hconfined) hconfined.ordered hconfined.sound
    rw [resolveEach]
    dsimp only
    split
    · rename_i fault hfault
      rw [hfault] at hfirst
      simpa using hfirst
    · exact map_ne_error hrest _

/-- No call of a pipeline hands the registry a key that it refuses. -/
theorem perform_ne_foreignKey (h : p.FitsAll r) (hp : p.Ordered) (hr : r.Sound) (call : Call)
    (key : Key) : (p.perform r call).result ≠ .error (.foreignKey key) := by
  have hremoved : ∀ {result : Except Fault Nat} {keys : List Key},
      result.map (fun _ => ()) = (r.unbindEach keys).1 → (∀ key ∈ keys, p.Remembers key) →
        result ≠ .error (.foreignKey key) := by
    intro result keys hresult hkeys hforeign
    rw [Registry.unbindEach_of_admits fun key hkey => h key (hkeys key hkey), hforeign] at hresult
    cases hresult
  cases call with
  | resolveAll layer upper features =>
    simp only [perform, resolveAll]
    split
    · exact resolveEach_ne_foreignKey h hp hr layer _ features key
    · simp
  | resolve layer upper feature =>
    exact map_ne_error (resolveIn_ne_foreignKey h hp layer _ feature key) _
  | forget feature => simp [perform]
  | clear => simp [perform]
  | release feature =>
    apply map_ne_error (hremoved (release_spec p r feature).2.1 _)
    intro key hkey
    obtain ⟨field, binding, hholds, hkey⟩ := (mem_keys_iff hp).mp hkey
    exact ⟨feature, field, binding, hholds, hkey⟩
  | releaseAll =>
    apply map_ne_error (hremoved (releaseAll_spec p r).2.1 _)
    intro key hkey
    exact (mem_allKeys_iff hp).mp hkey

end Pipeline

namespace World

variable {ι κ σ : Type} [KeySupply κ] {w : World ι κ σ}

theorem Regular.fitsAll (h : w.Regular) (i : ι) : (w.pipelines i).FitsAll w.registry :=
  h.admitted i

theorem Regular.admits_stored (h : w.Regular) {i : ι} {feature : FeatureId} {stored : StoredBag σ}
    (hkeeps : (w.pipelines i).store.Keeps feature stored) {entry : String × Binding σ}
    (hentry : entry ∈ stored.bag.dynamic) : w.registry.shape.admits entry.2.key = true := by
  obtain ⟨origin, -, -, -, hbag⟩ := (h.records i).kept feature stored hkeeps
  rw [hbag] at hentry
  exact (h.fitsAll i).fits (h.ordered i) origin.feature.id entry hentry

private theorem Regular.admits_bound (h : w.Regular) {key : Key}
    (hbound : w.registry.contains key = true) :
    w.registry.shape.admits key = true := by
  obtain ⟨binding, hget⟩ := Registry.contains_iff.mp hbound
  exact h.sound.bound key binding hget

section Drawing

variable {ι ω σ : Type} [WordSupply ω] [DecidableEq ι]

/-- The shapes are what is accepted. A key that is drawn for a shape has its length and its symbols,
whatever the words are, every such key is drawn from some words, and there are as many as texts over
the alphabet. So whatever pipelines and others do in a world whose keys are drawn from words, all keys
have the shape of the registry's, and no pipeline ever hands the registry a key that it refuses. -/
theorem drawn_keys_admitted (shape : KeyShape) :
    KeyShape.make (String.ofList shape.alphabet) shape.length = .ok shape ∧
      (∀ key, shape.admits key = true ↔ key.text.toUTF8.size = shape.length ∧
        ∀ byte ∈ key.text.toUTF8.data.toList, byte ∈ shape.symbolBytes) ∧
      (∀ words : ω, shape.admits (WordSupply.key shape words).1 = true ∧
        (WordSupply.key shape words).1.text.toList.length = shape.length) ∧
      (∀ key, shape.admits key = true →
        ∃ words, (WordSupply.key shape (WordSource.cycle words 0)).1 = key) ∧
      {key | shape.admits key = true}.ncard = shape.alphabet.length ^ shape.length ∧
      2 ^ 32 ≤ shape.alphabet.length ^ shape.length ∧
      ∀ w : World ι ω σ, Reachable (fun _ _ => True) w → w.registry.shape = shape →
        (∀ key, w.registry.contains key = true → shape.admits key = true) ∧
        (∀ i key, (w.pipelines i).Remembers key → shape.admits key = true) ∧
        (∀ i feature stored, (w.pipelines i).store.Keeps feature stored →
          ∀ entry ∈ stored.bag.dynamic, shape.admits entry.2.key = true) ∧
        ∀ i call key, (w.turn i call).result ≠ .error (.foreignKey key) ∧
          ((w.turn i call).registry.contains key = true ∨
            (w.turn i call).pipeline.Remembers key → shape.admits key = true) := by
  refine ⟨shape.make_eq, fun _ => shape.admits_iff_bytes, ?_, fun _ => KeyShape.exists_words,
    shape.ncard_admits, shape.two_pow_le, ?_⟩
  · intro words
    have hadmits := shape.admits_key words
    exact ⟨hadmits, (KeyShape.admits_iff.mp hadmits).1⟩
  · rintro w hreachable rfl
    have hregular := hreachable.regular
    refine ⟨fun _ => hregular.admits_bound, hregular.admitted, ?_, ?_⟩
    · intro i feature stored hkeeps entry hentry
      exact hregular.admits_stored hkeeps hentry
    · intro i call key
      have hfits := hregular.fitsAll i
      have hconfined := Pipeline.perform_confined (hregular.ordered i) hregular.sound call
      refine ⟨Pipeline.perform_ne_foreignKey hfits (hregular.ordered i) hregular.sound call key, ?_⟩
      rintro (hbound | hremembers)
      · obtain ⟨binding, hget⟩ := Registry.contains_iff.mp hbound
        exact hconfined.shape ▸ hconfined.sound.bound key binding hget
      · exact hconfined.shape ▸ hfits.confined hconfined key hremembers

/-- A world of one pipeline, in which all words are zero, after a field was bound. -/
def zeros : World Unit WordSource String :=
  let start := initial .standard (.cycle [0] 0) 0 (fun _ => .ofOptions none (some 1))
    (fun _ _ => 0) (fun _ _ _ _ => "pipeline")
  let request := Call.resolve (.probe "x") none (.ofId ⟨"f"⟩)
  start.call () request ((start.turn () request).result.toOption.getD [])

private theorem reachable_zeros : Reachable (fun _ _ => True) zeros :=
  .call (.initial 0 _ _ _ (KeyShape.admissible_of_words _ _)) rfl

theorem drawn_keys_admitted_zeros :
    zeros.registry.contains ⟨"AAAAAAAAAAAAAAAAAAAAA"⟩ = true ∧
      KeyShape.standard.admits ⟨"AAAAAAAAAAAAAAAAAAAAA"⟩ = true ∧
      ∃ words, (WordSupply.key .standard (WordSource.cycle words 0)).1 =
        ⟨"AAAAAAAAAAAAAAAAAAAAA"⟩ := by
  obtain ⟨-, -, -, hdrawn, -, -, hworlds⟩ :=
    drawn_keys_admitted (ι := Unit) (ω := WordSource) (σ := String) .standard
  have hbound : zeros.registry.contains ⟨"AAAAAAAAAAAAAAAAAAAAA"⟩ = true := by decide
  have hadmits := (hworlds zeros reachable_zeros rfl).1 _ hbound
  exact ⟨hbound, hadmits, hdrawn _ hadmits⟩

end Drawing

end World
end FeatureStyle
