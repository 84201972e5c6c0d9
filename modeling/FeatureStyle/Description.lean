import FeatureStyle.Pipeline.Basic

/-!
# Descriptions

One-line texts of bindings, registries and pipelines for diagnostics. Samplers and the contents of
tables are left out.
-/

namespace FeatureStyle

private def braced (name fields : String) : String := name ++ " \x7b " ++ fields ++ " \x7d"

/-- The alphabet is given by the codes of its symbols. -/
def KeyShape.describe (shape : KeyShape) : String :=
  let codes := shape.alphabet.map fun c => toString c.toNat
  braced "KeyConfig" ("alphabet: [" ++ String.intercalate ", " codes ++ s!"], length: {shape.length}")

def Binding.describe {σ : Type} (binding : Binding σ) : String :=
  braced "DynamicBinding"
    ("key: BindingKey(" ++ Text.quoteText binding.key.text ++ "), feature_id: FeatureId(" ++
      Text.quoteText binding.feature.text ++ "), field: " ++ Text.quoteText binding.field ++ ", ..")

def Registry.describe {κ σ : Type} (r : Registry κ σ) : String :=
  braced "DynamicPropertyBinder"
    ("config: " ++ r.shape.describe ++
      s!", bindings: {r.size}, features: {r.index.length}, collisions: {r.collisions}, ..")

def Settings.describe (settings : Settings) : String :=
  braced "PipelineConfig"
    s!"max_depth: {settings.depthLimit}, cache_capacity: {settings.capacity}"

def Pipeline.describe {κ σ : Type} (p : Pipeline σ) (r : Registry κ σ) : String :=
  braced "ResolutionPipeline"
    ("config: " ++ p.settings.describe ++ ", binder: " ++ r.describe ++
      s!", compiled: {p.choices.length}, cache: {p.store.size}, live: {p.held.length}, ..")

end FeatureStyle
