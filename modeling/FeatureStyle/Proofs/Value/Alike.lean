import FeatureStyle.Layer.Tree
import FeatureStyle.Proofs.Entries

/-!
# Values that look alike

Two values are alike if they are equal, where a value that is not a number counts as equal to any
other of that kind. Alike values have the same canonical form, in which there is one zero and one
value that is not a number.
-/

namespace FeatureStyle

namespace Double

/-- Numeric equality in which all values that are not numbers are equal. -/
def alike (x y : Double) : Bool := x == y || x.isNaN && y.isNaN

def canonical (x : Double) : Double := if x.isZero then zero else if x.isNaN then nan else x

theorem beq_iff {x y : Double} :
    (x == y) = true ↔ x.isNaN = false ∧ y.isNaN = false ∧ x.place = y.place := by
  show Double.beq x y = true ↔ _
  simp [Double.beq, and_assoc]

private theorem place_eq_zero {x : Double} : x.place = 0 ↔ x.isZero = true := by
  rw [place, isZero, decide_eq_true_iff]
  split <;> omega

private theorem eq_of_place_eq {x y : Double} (h : x.place = y.place) (hx : x.isZero = false) :
    x = y := by
  have hne : x.place ≠ 0 := by
    intro hzero
    rw [place_eq_zero, hx] at hzero
    cases hzero
  obtain ⟨a, m⟩ := x
  obtain ⟨b, n⟩ := y
  simp only [place] at h hne
  have hsign : a = b := by
    cases a <;> cases b <;> simp only [Bool.false_eq_true, ↓reduceIte] at h hne
    · rfl
    · omega
    · omega
    · rfl
  have hmagnitude : m = n := by
    apply Fin.ext
    cases a <;> cases hsign <;> simp only [Bool.false_eq_true, ↓reduceIte] at h <;> omega
  rw [hsign, hmagnitude]

theorem isNaN_of_isZero {x : Double} (h : x.isZero = true) : x.isNaN = false := by
  have hm : x.magnitude.val = 0 := decide_eq_true_iff.mp h
  rw [isNaN, hm]
  decide

theorem canonical_eq_zero {x : Double} : x.canonical = zero ↔ x.isZero = true := by
  rw [canonical]
  constructor
  · intro h
    split at h
    next hzero => exact hzero
    next =>
      split at h
      next => exact absurd h (by decide)
      next =>
        rw [h]
        decide
  · intro h
    rw [if_pos h]

theorem canonical_eq_nan {x : Double} : x.canonical = nan ↔ x.isNaN = true := by
  rw [canonical]
  constructor
  · intro h
    split at h
    next => exact absurd h (by decide)
    next =>
      split at h
      next hnan => exact hnan
      next =>
        rw [h]
        decide
  · intro h
    rw [if_neg, if_pos h]
    intro hzero
    rw [isNaN_of_isZero hzero] at h
    cases h

theorem canonical_of_ne {x : Double} (hzero : x.isZero = false) (hnan : x.isNaN = false) :
    x.canonical = x := by
  rw [canonical, hzero, hnan]
  rfl

theorem alike_iff {x y : Double} : x.alike y = true ↔ x.canonical = y.canonical := by
  rw [alike, Bool.or_eq_true, Bool.and_eq_true, beq_iff]
  cases hx : x.isNaN with
  | true =>
    rw [canonical_eq_nan.mpr hx, eq_comm (a := nan), canonical_eq_nan]
    simp
  | false =>
    cases hy : y.isNaN with
    | true =>
      rw [canonical_eq_nan.mpr hy, canonical_eq_nan, hx]
      simp
    | false =>
      cases hzero : x.isZero with
      | true =>
        rw [canonical_eq_zero.mpr hzero, eq_comm (a := zero), canonical_eq_zero,
          place_eq_zero.mpr hzero, eq_comm (a := 0), place_eq_zero]
        simp
      | false =>
        have hcanonical : x.canonical = y.canonical ↔ x = y := by
          rw [canonical_of_ne hzero hx]
          cases hzero' : y.isZero with
          | true =>
            rw [canonical_eq_zero.mpr hzero']
            constructor
            · intro h
              rw [h] at hzero
              cases hzero
            · intro h
              rw [h, hzero'] at hzero
              cases hzero
          | false => rw [canonical_of_ne hzero' hy]
        rw [hcanonical]
        simp only [true_and, Bool.false_eq_true, and_self, or_false]
        constructor
        · intro h
          exact eq_of_place_eq h hzero
        · rintro rfl
          rfl

private theorem place_canonical {x : Double} (h : x.isNaN = false) :
    x.canonical.place = x.place := by
  cases hzero : x.isZero with
  | true => rw [canonical_eq_zero.mpr hzero, place_eq_zero.mpr hzero]; rfl
  | false => rw [canonical_of_ne hzero h]

@[simp] theorem canonical_canonical (x : Double) : x.canonical.canonical = x.canonical := by
  cases hzero : x.isZero with
  | true => rw [canonical_eq_zero.mpr hzero]; rfl
  | false =>
    cases hnan : x.isNaN with
    | true => rw [canonical_eq_nan.mpr hnan]; rfl
    | false => rw [canonical_of_ne hzero hnan, canonical_of_ne hzero hnan]

@[simp] theorem isNaN_canonical (x : Double) : x.canonical.isNaN = x.isNaN := by
  rw [Bool.eq_iff_iff, ← canonical_eq_nan, canonical_canonical, canonical_eq_nan]

@[simp] theorem isZero_canonical (x : Double) : x.canonical.isZero = x.isZero := by
  rw [Bool.eq_iff_iff, ← canonical_eq_zero, canonical_canonical, canonical_eq_zero]

theorem compare?_canonical (x y : Double) :
    x.canonical.compare? y.canonical = x.compare? y := by
  rw [compare?, compare?, isNaN_canonical, isNaN_canonical]
  split
  next => rfl
  next h =>
    rw [Bool.or_eq_true, not_or, Bool.not_eq_true, Bool.not_eq_true] at h
    rw [place_canonical h.1, place_canonical h.2]

theorem canonical_neg (x : Double) : (-x.canonical).canonical = (-x).canonical := by
  cases hzero : x.isZero with
  | true =>
    have hneg : (-x).isZero = true := hzero
    rw [canonical_eq_zero.mpr hzero, canonical_eq_zero.mpr hneg]
    rfl
  | false =>
    cases hnan : x.isNaN with
    | true =>
      have hneg : (-x).isNaN = true := hnan
      rw [canonical_eq_nan.mpr hnan, canonical_eq_nan.mpr hneg]
      rfl
    | false => rw [canonical_of_ne hzero hnan]

end Double

namespace Value

mutual

/-- Equality of values in which numbers are compared by `Double.alike`. -/
def alike : Value → Value → Bool
  | null, null => true
  | bool a, bool b => a == b
  | number x, number y => x.alike y
  | string s, string t => s == t
  | object a, object b => alikeFields a b
  | array a, array b => alikeItems a b
  | expression (.constant a), expression (.constant b) => alike a b
  | expression (.conditions a), expression (.conditions b) => a == b
  | _, _ => false

def alikeFields : List (String × Value) → List (String × Value) → Bool
  | [], [] => true
  | (key, a) :: as, (key', b) :: bs => key == key' && alike a b && alikeFields as bs
  | _, _ => false

def alikeItems : List Value → List Value → Bool
  | [], [] => true
  | a :: as, b :: bs => alike a b && alikeItems as bs
  | _, _ => false

end

mutual

/-- The value with every number in canonical form. -/
def canonical : Value → Value
  | number x => number x.canonical
  | object fields => object (canonicalFields fields)
  | array items => array (canonicalItems items)
  | expression (.constant value) => expression (.constant (canonical value))
  | value => value

def canonicalFields : List (String × Value) → List (String × Value)
  | [] => []
  | (key, value) :: rest => (key, canonical value) :: canonicalFields rest

def canonicalItems : List Value → List Value
  | [] => []
  | item :: rest => canonical item :: canonicalItems rest

end

mutual

/-- Values are alike exactly if they have the same canonical form. -/
theorem alike_iff : ∀ a b : Value, a.alike b = true ↔ a.canonical = b.canonical
  | number x, b => by
    cases b with
    | number y => rw [alike, canonical, canonical, number.injEq, Double.alike_iff]
    | expression e => cases e <;> simp [alike, canonical]
    | _ => simp [alike, canonical]
  | object fields, b => by
    cases b with
    | object other => rw [alike, canonical, canonical, object.injEq, alikeFields_iff fields other]
    | expression e => cases e <;> simp [alike, canonical]
    | _ => simp [alike, canonical]
  | array items, b => by
    cases b with
    | array other => rw [alike, canonical, canonical, array.injEq, alikeItems_iff items other]
    | expression e => cases e <;> simp [alike, canonical]
    | _ => simp [alike, canonical]
  | expression (.constant value), b => by
    cases b with
    | expression e =>
      cases e with
      | constant other => simp [alike, canonical, alike_iff value other]
      | conditions branches => simp [alike, canonical]
    | _ => simp [alike, canonical]
  | expression (.conditions branches), b => by
    cases b with
    | expression e => cases e <;> simp [alike, canonical]
    | _ => simp [alike, canonical]
  | null, b | bool _, b | string _, b => by
    cases b with
    | expression e => cases e <;> simp [alike, canonical]
    | _ => simp [alike, canonical]

theorem alikeFields_iff : ∀ as bs : List (String × Value),
    alikeFields as bs = true ↔ canonicalFields as = canonicalFields bs
  | [], bs => by cases bs <;> simp [alikeFields, canonicalFields]
  | (key, a) :: as, bs => by
    cases bs with
    | nil => simp [alikeFields, canonicalFields]
    | cons entry bs =>
      simp [alikeFields, canonicalFields, alike_iff a entry.2, alikeFields_iff as bs, and_assoc]

theorem alikeItems_iff : ∀ as bs : List Value,
    alikeItems as bs = true ↔ canonicalItems as = canonicalItems bs
  | [], bs => by cases bs <;> simp [alikeItems, canonicalItems]
  | a :: as, bs => by
    cases bs with
    | nil => simp [alikeItems, canonicalItems]
    | cons b bs => simp [alikeItems, canonicalItems, alike_iff a b, alikeItems_iff as bs]

end

mutual

theorem alike_of_beq : ∀ a b : Value, Value.beq a b = true → a.alike b = true
  | number x, b, h => by
    cases b with
    | number y => exact Bool.or_eq_true_iff.mpr (.inl h)
    | _ => cases h
  | object fields, b, h => by
    cases b with
    | object other => exact alikeFields_of_beq fields other h
    | _ => cases h
  | array items, b, h => by
    cases b with
    | array other => exact alikeItems_of_beq items other h
    | _ => cases h
  | expression (.constant value), b, h => by
    cases b with
    | expression e =>
      cases e with
      | constant other => exact alike_of_beq value other h
      | conditions branches => cases h
    | _ => cases h
  | expression (.conditions branches), b, h => by
    cases b with
    | expression e =>
      cases e with
      | constant other => cases h
      | conditions other => exact h
    | _ => cases h
  | null, b, h | bool _, b, h | string _, b, h => by
    cases b <;> exact h

theorem alikeFields_of_beq : ∀ as bs : List (String × Value),
    beqFields as bs = true → alikeFields as bs = true
  | [], bs, h => by
    cases bs with
    | nil => rfl
    | cons entry bs => cases h
  | (key, a) :: as, bs, h => by
    cases bs with
    | nil => cases h
    | cons entry bs =>
      simp only [beqFields, Bool.and_eq_true] at h
      simp only [alikeFields, Bool.and_eq_true]
      exact ⟨⟨h.1.1, alike_of_beq a entry.2 h.1.2⟩, alikeFields_of_beq as bs h.2⟩

theorem alikeItems_of_beq : ∀ as bs : List Value,
    beqItems as bs = true → alikeItems as bs = true
  | [], bs, h => by
    cases bs with
    | nil => rfl
    | cons b bs => cases h
  | a :: as, bs, h => by
    cases bs with
    | nil => cases h
    | cons b bs =>
      simp only [beqItems, Bool.and_eq_true] at h
      simp only [alikeItems, Bool.and_eq_true]
      exact ⟨alike_of_beq a b h.1, alikeItems_of_beq as bs h.2⟩

end

theorem canonicalFields_eq_map (fields : List (String × Value)) :
    canonicalFields fields = fields.map fun entry => (entry.1, entry.2.canonical) := by
  induction fields with
  | nil => rfl
  | cons entry rest ih => rw [canonicalFields, ih, List.map_cons]

theorem get?_canonicalFields (fields : List (String × Value)) (key : String) :
    Fields.get? (canonicalFields fields) key = (Fields.get? fields key).map canonical := by
  rw [canonicalFields_eq_map]
  exact Fields.get?_map fields (fun _ => canonical) key

mutual

@[simp] theorem depth_canonical : ∀ v : Value, v.canonical.depth = v.depth
  | object fields => by rw [canonical, depth, depth, depthFields_canonicalFields fields]
  | array items => by rw [canonical, depth, depth, depthItems_canonicalItems items]
  | expression (.constant _) | expression (.conditions _) | null | bool _ | number _ | string _ =>
    rfl

theorem depthFields_canonicalFields : ∀ fields : List (String × Value),
    depthFields (canonicalFields fields) = depthFields fields
  | [] => rfl
  | (_, value) :: rest => by
    rw [canonicalFields, depthFields, depthFields, depth_canonical value,
      depthFields_canonicalFields rest]

theorem depthItems_canonicalItems : ∀ items : List Value,
    depthItems (canonicalItems items) = depthItems items
  | [] => rfl
  | item :: rest => by
    rw [canonicalItems, depthItems, depthItems, depth_canonical item,
      depthItems_canonicalItems rest]

end

@[simp] theorem isTimed_canonical (v : Value) : v.canonical.isTimed = v.isTimed := by
  cases v with
  | object fields =>
    rw [canonical, isTimed, isTimed, get?_canonicalFields]
    cases Fields.get? fields timeKey with
    | none => rfl
    | some marker =>
      cases marker with
      | expression e => cases e <;> rfl
      | _ => rfl
  | expression e => cases e <;> rfl
  | null | bool _ | number _ | string _ | array _ => rfl

@[simp] theorem isScalar_canonical (v : Value) : v.canonical.isScalar = v.isScalar := by
  cases v with
  | expression e => cases e <;> rfl
  | null | bool _ | number _ | string _ | object _ | array _ => rfl

theorem canonicalFields_filter (p : Value → Bool) (hp : ∀ v : Value, p v.canonical = p v)
    (fields : List (String × Value)) :
    canonicalFields (fields.filter fun entry => p entry.2) =
      (canonicalFields fields).filter fun entry => p entry.2 := by
  simp only [canonicalFields_eq_map, List.filter_map]
  congr 1
  apply List.filter_congr
  intro entry _
  exact (hp entry.2).symm

end Value
end FeatureStyle
