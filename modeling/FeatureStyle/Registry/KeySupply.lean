import FeatureStyle.Registry.KeyShape

/-!
# Supplies of keys

A supply is a state from which candidates for keys are drawn one after the other. From a supply of
random words every key of a shape is drawn symbol by symbol, each symbol uniformly.
-/

namespace FeatureStyle

/-- States that candidates for keys can be drawn from. -/
class KeySupply (κ : Type) where
  /-- The next candidate, and the state behind it. -/
  next : KeyShape → κ → Key × κ

/-- States that 32-bit words can be drawn from. -/
class WordSupply (ω : Type) where
  /-- The next word, and the state behind it. -/
  next : ω → UInt32 × ω

namespace WordSupply

variable {ω : Type} [WordSupply ω]

/-- An index below `n`: the high half of a word times `n`. Where the low half leaves the index open,
one more word decides whether it is the next one. -/
def index (n : Nat) (words : ω) : Nat × ω :=
  let (word, words) := next words
  let high := word.toNat * n / UInt32.size
  let low := word.toNat * n % UInt32.size
  if UInt32.size - n < low then
    let (more, words) := next words
    (if UInt32.size ≤ low + more.toNat * n / UInt32.size then high + 1 else high, words)
  else (high, words)

def symbols (alphabet : List Char) : Nat → ω → List Char × ω
  | 0, words => ([], words)
  | count + 1, words =>
    let (index, words) := index alphabet.length words
    let (others, words) := symbols alphabet count words
    (alphabet.getD index '0' :: others, words)

def key (shape : KeyShape) (words : ω) : Key × ω :=
  let (symbols, words) := symbols shape.alphabet shape.length words
  (⟨String.ofList symbols⟩, words)

def keys (shape : KeyShape) : Nat → ω → List Key × ω
  | 0, words => ([], words)
  | count + 1, words =>
    let (first, words) := key shape words
    let (others, words) := keys shape count words
    (first :: others, words)

end WordSupply
end FeatureStyle
