import FeatureStyle.Registry.KeySupply

/-!
# Key streams

The supplies of a session: keys that are listed in advance, or keys drawn from a source of words that
can be repeated.
-/

namespace FeatureStyle

/-- A source of 32-bit words that counts the words drawn. -/
inductive WordSource
  /-- The listed words in order, over and over. -/
  | cycle (words : List UInt32) (drawn : Nat)
  /-- A linear congruential generator. -/
  | congruential (state : UInt32) (drawn : Nat)

namespace WordSource

def drawn : WordSource → Nat
  | cycle _ drawn | congruential _ drawn => drawn

def next : WordSource → UInt32 × WordSource
  | cycle words drawn => (words.getD (drawn % words.length) 0, cycle words (drawn + 1))
  | congruential state drawn =>
    let word := state * 1664525 + 1013904223
    (word, congruential word (drawn + 1))

instance : WordSupply WordSource := ⟨next⟩

end WordSource

inductive KeyStream
  /-- The listed keys, and behind them the numbers from one on, of which some were issued. -/
  | listed (keys : List Key) (issued : Nat)
  | random (words : WordSource)

namespace KeyStream

/-- A number as a key, filled up with zeros in front. -/
def numbered (shape : KeyShape) (n : Nat) : Key :=
  let digits := Nat.toDigits 10 n
  ⟨String.ofList (List.replicate (shape.length - digits.length) '0' ++ digits)⟩

def next (shape : KeyShape) : KeyStream → Key × KeyStream
  | listed (key :: keys) issued => (key, listed keys issued)
  | listed [] issued => (numbered shape (issued + 1), listed [] (issued + 1))
  | random words =>
    let (key, words) := WordSupply.key shape words
    (key, random words)

instance : KeySupply KeyStream := ⟨next⟩

end KeyStream
end FeatureStyle
