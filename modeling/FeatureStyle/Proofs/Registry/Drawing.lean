import Mathlib.Data.Fintype.BigOperators
import Mathlib.Data.Set.Card
import Mathlib.Data.List.GetD
import Mathlib.Data.List.Perm.Subperm
import Mathlib.Tactic.NormNum
import FeatureStyle.Session.KeyStream
import FeatureStyle.Proofs.Registry.Operations

/-!
# Keys drawn from random words

Every key that is drawn from words has its shape, every key of the shape is drawn from some words, and
there are as many keys as texts over the alphabet. A shape has at most 128 symbols, so an index drawn
from a word never leaves the alphabet, and for every index there is a word that decides it alone.
-/

namespace FeatureStyle

namespace WordSupply

variable {ω : Type} [WordSupply ω] {n : Nat}

/-- The index is the high half of the product or the next one, which is below `n` too: where the high
half is the last index, the low half is too small for a correction. -/
theorem index_lt (hpos : 0 < n) (hsize : n ≤ UInt32.size) (words : ω) :
    (index n words).1 < n := by
  have hword : (next words).1.toNat < UInt32.size := UInt32.toNat_lt_size _
  have hproduct : (next words).1.toNat * n + n ≤ UInt32.size * n := by
    rw [← Nat.succ_mul]
    exact Nat.mul_le_mul_right n hword
  simp only [index, UInt32.size] at hproduct hsize ⊢
  split
  · split <;> (dsimp only; omega)
  · dsimp only
    omega

private theorem symbols_spec {alphabet : List Char} (hpos : 0 < alphabet.length)
    (hsize : alphabet.length ≤ UInt32.size) (count : Nat) (words : ω) :
    (symbols alphabet count words).1.length = count ∧
      ∀ c ∈ (symbols alphabet count words).1, c ∈ alphabet := by
  induction count generalizing words with
  | zero => simp [symbols]
  | succ count ih =>
    have hindex := index_lt hpos hsize words
    obtain ⟨hlength, hmem⟩ := ih (index alphabet.length words).2
    simp only [symbols, List.length_cons, List.mem_cons, forall_eq_or_imp, hlength, true_and]
    refine ⟨?_, hmem⟩
    rw [List.getD_eq_getElem _ _ hindex]
    exact List.getElem_mem hindex

end WordSupply

namespace KeyShape

variable {shape : KeyShape} {key : Key}

theorem admits_iff :
    shape.admits key = true ↔
      key.text.toList.length = shape.length ∧ ∀ c ∈ key.text.toList, c ∈ shape.alphabet := by
  simp [admits]

private theorem sixteen_le (shape : KeyShape) : 16 ≤ shape.alphabet.length := shape.leastSymbols_le

private theorem alphabet_length_le (shape : KeyShape) : shape.alphabet.length ≤ 128 := by
  have hcodes : (shape.alphabet.map Char.toNat).Nodup :=
    shape.nodup.map fun _ _ heq => Char.toNat_inj.mp heq
  have hrange : shape.alphabet.map Char.toNat ⊆ List.range 128 := by
    intro code hcode
    obtain ⟨c, hc, rfl⟩ := List.mem_map.mp hcode
    exact List.mem_range.mpr (shape.ascii c hc)
  have hle := (List.subperm_of_subset hcodes hrange).length_le
  simpa using hle

theorem make_eq (shape : KeyShape) :
    make (String.ofList shape.alphabet) shape.length = .ok shape := by
  have hsymbols : symbolError? [] (String.ofList shape.alphabet).toList = none := by
    rw [symbolError?_eq_none_iff, String.toList_ofList]
    exact ⟨shape.ascii, shape.nodup, by simp⟩
  have hsize := shape.leastSymbols_le
  have hlength := shape.leastLength_le
  unfold make
  split
  · rename_i e herror
    rw [hsymbols] at herror
    cases herror
  · rw [dif_neg (by simpa using hsize), dif_neg (by omega)]
    simp

theorem admits_key {ω : Type} [WordSupply ω] (shape : KeyShape) (words : ω) :
    shape.admits (WordSupply.key shape words).1 = true := by
  have hmin := shape.sixteen_le
  have hmax := shape.alphabet_length_le
  have hpos : 0 < shape.alphabet.length := by omega
  have hsize : shape.alphabet.length ≤ UInt32.size := by
    simp only [UInt32.size]
    omega
  have hsymbols := WordSupply.symbols_spec hpos hsize shape.length words
  rw [admits_iff]
  simpa [WordSupply.key] using hsymbols

/-- Drawing from words is a supply of keys. -/
instance {ω : Type} [WordSupply ω] : KeySupply ω := ⟨WordSupply.key⟩

theorem admissible_of_words {ω : Type} [WordSupply ω] (shape : KeyShape) (words : ω) :
    KeySupply.Admissible shape words := fun _ => shape.admits_key _

section Bytes

def symbolBytes (shape : KeyShape) : List UInt8 := shape.alphabet.map fun c => UInt8.ofNat c.toNat

private theorem bytes_eq (text : String) :
    text.toUTF8.data.toList = text.toList.flatMap String.utf8EncodeChar := by
  have htext : text = String.ofList text.toList := String.ofList_toList.symm
  conv_lhs => rw [htext]
  rw [String.toUTF8_eq_toByteArray, String.toByteArray_ofList, List.utf8Encode]
  simp

private theorem mem_utf8EncodeChar {c : Char} (hc : 128 ≤ c.toNat) :
    ∃ byte ∈ String.utf8EncodeChar c, 128 ≤ byte.toNat := by
  have hle : ¬ c.val.toNat ≤ 127 := by
    change ¬ c.toNat ≤ 127
    omega
  rw [String.utf8EncodeChar]
  simp only [hle, ↓reduceIte]
  split
  · exact ⟨_, List.mem_cons_self, by simp; omega⟩
  · split
    · exact ⟨_, List.mem_cons_self, by simp; omega⟩
    · exact ⟨_, List.mem_cons_self, by simp; omega⟩

private theorem utf8EncodeChar_ascii {c : Char} (hc : c.toNat < 128) :
    String.utf8EncodeChar c = [UInt8.ofNat c.toNat] := by
  have hle : c.val.toNat ≤ 127 := by
    change c.toNat ≤ 127
    omega
  rw [String.utf8EncodeChar]
  simp only [hle, ↓reduceIte]
  rfl

private theorem bytes_of_ascii {text : String} (h : ∀ c ∈ text.toList, c.toNat < 128) :
    text.toUTF8.data.toList = text.toList.map fun c => UInt8.ofNat c.toNat := by
  rw [bytes_eq, List.map_eq_flatMap]
  exact List.flatMap_congr fun c hc => utf8EncodeChar_ascii (h c hc)

private theorem toNat_byte {c : Char} (hc : c.toNat < 128) :
    (UInt8.ofNat c.toNat).toNat = c.toNat := by
  rw [UInt8.toNat_ofNat']
  omega

private theorem lt_of_mem_symbolBytes {byte : UInt8} (h : byte ∈ shape.symbolBytes) :
    byte.toNat < 128 := by
  obtain ⟨c, hc, rfl⟩ := List.mem_map.mp h
  have hlt := shape.ascii c hc
  rw [toNat_byte hlt]
  exact hlt

private theorem mem_symbolBytes_iff {c : Char} (hc : c.toNat < 128) :
    UInt8.ofNat c.toNat ∈ shape.symbolBytes ↔ c ∈ shape.alphabet := by
  constructor
  · intro h
    obtain ⟨d, hd, heq⟩ := List.mem_map.mp h
    have hcodes := congrArg UInt8.toNat heq
    rw [toNat_byte (shape.ascii d hd), toNat_byte hc] at hcodes
    rw [← Char.toNat_inj.mp hcodes]
    exact hd
  · exact List.mem_map_of_mem

/-- To check the bytes of a key is to check its characters, since symbols are ASCII. -/
theorem admits_iff_bytes :
    shape.admits key = true ↔ key.text.toUTF8.size = shape.length ∧
      ∀ byte ∈ key.text.toUTF8.data.toList, byte ∈ shape.symbolBytes := by
  have hsize : key.text.toUTF8.size = key.text.toUTF8.data.toList.length := by simp
  rw [admits_iff, hsize]
  constructor
  · rintro ⟨hlength, hmem⟩
    rw [bytes_of_ascii fun c hc => shape.ascii c (hmem c hc)]
    refine ⟨by simpa using hlength, ?_⟩
    intro byte hbyte
    obtain ⟨c, hc, rfl⟩ := List.mem_map.mp hbyte
    exact List.mem_map_of_mem (hmem c hc)
  · rintro ⟨hlength, hmem⟩
    have hascii : ∀ c ∈ key.text.toList, c.toNat < 128 := by
      intro c hc
      by_contra hlarge
      obtain ⟨byte, hbyte, hle⟩ := mem_utf8EncodeChar (Nat.not_lt.mp hlarge)
      have hlt := lt_of_mem_symbolBytes (hmem byte (by
        rw [bytes_eq]
        exact List.mem_flatMap.mpr ⟨c, hc, hbyte⟩))
      omega
    rw [bytes_of_ascii hascii] at hlength hmem
    refine ⟨by simpa using hlength, ?_⟩
    intro c hc
    exact (mem_symbolBytes_iff (hascii c hc)).mp (hmem _ (List.mem_map_of_mem hc))

end Bytes

section Reaching

/-- The least word whose product with `n` has a given index as its high half. -/
def wordFor (n index : Nat) : UInt32 := UInt32.ofNat ((index * UInt32.size + n - 1) / n)

private theorem toNat_wordFor {n index : Nat} (hindex : index < n) (hsize : n ≤ UInt32.size) :
    (wordFor n index).toNat = (index * UInt32.size + n - 1) / n := by
  apply UInt32.toNat_ofNat_of_lt
  have hnext : (index + 1) * UInt32.size ≤ n * UInt32.size := Nat.mul_le_mul_right _ hindex
  rw [Nat.div_lt_iff_lt_mul (Nat.zero_lt_of_lt hindex), Nat.mul_comm _ n]
  simp only [UInt32.size] at hsize hnext ⊢
  omega

private theorem index_wordFor {ω : Type} [WordSupply ω] {n index : Nat} (hindex : index < n)
    (hsize : 2 * n ≤ UInt32.size) {words : ω} (hword : (WordSupply.next words).1 = wordFor n index) :
    WordSupply.index n words = (index, (WordSupply.next words).2) := by
  have hmod := Nat.mod_lt (index * UInt32.size + n - 1) (Nat.zero_lt_of_lt hindex)
  have hproduct := Nat.div_add_mod' (index * UInt32.size + n - 1) n
  rw [← toNat_wordFor hindex (by omega), ← hword] at hproduct
  simp only [UInt32.size] at hproduct hmod hsize
  -- The low half of the product is below `n`, so the index is the high half and no word is drawn
  -- besides this one.
  have hhigh : (WordSupply.next words).1.toNat * n / 4294967296 = index := by omega
  have hlow : ¬ 4294967296 - n < (WordSupply.next words).1.toNat * n % 4294967296 := by omega
  simp only [WordSupply.index, UInt32.size, hhigh, hlow, ↓reduceIte]

private theorem symbols_cycle {alphabet : List Char} (hsize : 2 * alphabet.length ≤ UInt32.size)
    {text : List Char} (htext : ∀ c ∈ text, c ∈ alphabet) (front : List UInt32) :
    (WordSupply.symbols alphabet text.length (WordSource.cycle
      (front ++ text.map fun c => wordFor alphabet.length (alphabet.idxOf c))
      front.length)).1 = text := by
  induction text generalizing front with
  | nil => rfl
  | cons c text ih =>
    have hindex := List.idxOf_lt_length_of_mem (htext c List.mem_cons_self)
    have hrest := ih (fun d hd => htext d (List.mem_cons_of_mem _ hd))
      (front ++ [wordFor alphabet.length (alphabet.idxOf c)])
    have hword : WordSupply.next (WordSource.cycle
        (front ++ (c :: text).map fun c => wordFor alphabet.length (alphabet.idxOf c))
        front.length) = (wordFor alphabet.length (alphabet.idxOf c), WordSource.cycle
        (front ++ (c :: text).map fun c => wordFor alphabet.length (alphabet.idxOf c))
        (front.length + 1)) := by
      simp [WordSupply.next, WordSource.next, Nat.mod_eq_of_lt]
    rw [List.length_cons, WordSupply.symbols, index_wordFor hindex hsize (by rw [hword]), hword]
    simp only [List.append_assoc, List.map_cons, List.length_append, List.length_singleton,
      List.singleton_append] at hrest ⊢
    rw [hrest, List.getD_eq_getElem _ _ hindex, List.getElem_idxOf]

/-- Every key of a shape is drawn from some words. -/
theorem exists_words (h : shape.admits key = true) :
    ∃ words, (WordSupply.key shape (WordSource.cycle words 0)).1 = key := by
  obtain ⟨hlength, hmem⟩ := admits_iff.mp h
  have hmax := shape.alphabet_length_le
  have hsymbols := symbols_cycle (by simp only [UInt32.size]; omega) hmem []
  rw [hlength] at hsymbols
  refine ⟨key.text.toList.map fun c =>
    wordFor shape.alphabet.length (shape.alphabet.idxOf c), ?_⟩
  simp only [List.nil_append, List.length_nil] at hsymbols
  simp only [WordSupply.key]
  rw [hsymbols, String.ofList_toList]

end Reaching

section Counting

variable (shape : KeyShape)

def keyOf (row : List.Vector {c // c ∈ shape.alphabet} shape.length) : Key :=
  ⟨String.ofList (row.toList.map Subtype.val)⟩

theorem keyOf_injective : Function.Injective shape.keyOf := by
  intro row row' heq
  have htexts := congrArg (fun key => key.text.toList) heq
  simp only [keyOf, String.toList_ofList] at htexts
  exact List.Vector.toList_injective (Subtype.val_injective.list_map htexts)

private theorem range_keyOf : Set.range shape.keyOf = {key | shape.admits key = true} := by
  ext key
  simp only [Set.mem_range, Set.mem_ofPred_eq, admits_iff]
  constructor
  · rintro ⟨row, rfl⟩
    simp only [keyOf, String.toList_ofList, List.length_map, List.Vector.toList_length, true_and]
    intro c hc
    obtain ⟨symbol, -, rfl⟩ := List.mem_map.mp hc
    exact symbol.2
  · rintro ⟨hlength, hmem⟩
    refine ⟨⟨key.text.toList.pmap Subtype.mk hmem, by simpa using hlength⟩, ?_⟩
    simp [keyOf, List.Vector.toList, List.map_pmap]

theorem ncard_admits :
    {key | shape.admits key = true}.ncard = shape.alphabet.length ^ shape.length := by
  have hsymbols : Fintype.card {c // c ∈ shape.alphabet} = shape.alphabet.length := by
    rw [← List.toFinset_card_of_nodup shape.nodup, ← Fintype.card_coe]
    simp
  rw [← range_keyOf, ← Set.image_univ, Set.ncard_image_of_injective _ shape.keyOf_injective,
    Set.ncard_univ, Nat.card_eq_fintype_card, card_vector, hsymbols]

theorem two_pow_le : 2 ^ 32 ≤ shape.alphabet.length ^ shape.length := by
  calc 2 ^ 32 = 16 ^ 8 := by norm_num
    _ ≤ shape.alphabet.length ^ 8 := Nat.pow_le_pow_left shape.sixteen_le 8
    _ ≤ shape.alphabet.length ^ shape.length :=
      Nat.pow_le_pow_right (by have := shape.sixteen_le; omega) shape.leastLength_le

end Counting

end KeyShape
end FeatureStyle
