import FeatureStyle.Proofs.Value.Alike

/-!
# Digests tell values apart

The writes for a value end where they end, whatever is written next: a tag says what follows, and a
length in front of fields, items and branches says how many there are. So two values have the same
digest exactly if they are alike, and a hash of the digest never tells equal values apart. The main
statement is `digest_faithful`.
-/

namespace FeatureStyle

namespace Double

private theorem toNat_toBits (x : Double) :
    x.toBits.toNat = x.magnitude + if x.negative then magnitudes else 0 := by
  rw [toBits, UInt64.toNat_ofNat']
  apply Nat.mod_eq_of_lt
  have hlt : x.magnitude.val < 0x8000000000000000 := x.magnitude.isLt
  simp only [magnitudes]
  split <;> omega

theorem eq_of_toBits {x y : Double} (h : x.toBits.toNat = y.toBits.toNat) : x = y := by
  rw [toNat_toBits, toNat_toBits] at h
  have hx := x.magnitude.isLt
  have hy := y.magnitude.isLt
  obtain ⟨a, m⟩ := x
  obtain ⟨b, n⟩ := y
  cases a <;> cases b <;> simp only [Bool.false_eq_true, ↓reduceIte] at h hx hy
  · rw [Fin.ext (show m.val = n.val by omega)]
  · omega
  · omega
  · rw [Fin.ext (show m.val = n.val by omega)]

private theorem digest_eq_toBits (x : Double) : x.digest = x.canonical.toBits.toNat := by
  rw [digest, canonical]
  split
  · rfl
  · split <;> rfl

theorem digest_eq_iff {x y : Double} : x.digest = y.digest ↔ x.canonical = y.canonical := by
  rw [digest_eq_toBits, digest_eq_toBits]
  exact ⟨eq_of_toBits, fun h => by rw [h]⟩

end Double

theorem Branch.flatMap_digest_append_iff {as bs : List Branch} (h : as.length = bs.length)
    (r s : List Write) :
    as.flatMap digest ++ r = bs.flatMap digest ++ s ↔ as = bs ∧ r = s := by
  induction as generalizing bs with
  | nil =>
    cases bs with
    | nil => simp
    | cons b bs => simp at h
  | cons a as ih =>
    cases bs with
    | nil => simp at h
    | cons b bs =>
      obtain ⟨condition, result⟩ := a
      obtain ⟨condition', result'⟩ := b
      simp [digest, ih (Nat.succ.inj h), and_assoc]

namespace Value

private theorem length_canonicalFields (fields : List (String × Value)) :
    (canonicalFields fields).length = fields.length := by
  rw [canonicalFields_eq_map, List.length_map]

private theorem length_canonicalItems (items : List Value) :
    (canonicalItems items).length = items.length := by
  induction items with
  | nil => rfl
  | cons item rest ih => rw [canonicalItems, List.length_cons, ih, List.length_cons]

mutual

/-- What is written determines the value up to its canonical form, and where the writes for it end. -/
theorem digest_append_iff : ∀ (a b : Value) (r s : List Write),
    digest a ++ r = digest b ++ s ↔ a.canonical = b.canonical ∧ r = s
  | number x, b, r, s => by
    cases b with
    | number y => simp [digest, canonical, Double.digest_eq_iff]
    | expression e => cases e <;> simp [digest, canonical, Kind.index]
    | _ => simp [digest, canonical, Kind.index]
  | object fields, b, r, s => by
    cases b with
    | object other =>
      by_cases hlength : fields.length = other.length
      · simp [digest, canonical, hlength, digestFields_append_iff fields other hlength]
      · have hne : canonicalFields fields ≠ canonicalFields other := by
          intro h
          apply hlength
          rw [← length_canonicalFields, h, length_canonicalFields]
        simp [digest, canonical, hlength, hne]
    | expression e => cases e <;> simp [digest, canonical, Kind.index]
    | _ => simp [digest, canonical, Kind.index]
  | array items, b, r, s => by
    cases b with
    | array other =>
      by_cases hlength : items.length = other.length
      · simp [digest, canonical, hlength, digestItems_append_iff items other hlength]
      · have hne : canonicalItems items ≠ canonicalItems other := by
          intro h
          apply hlength
          rw [← length_canonicalItems, h, length_canonicalItems]
        simp [digest, canonical, hlength, hne]
    | expression e => cases e <;> simp [digest, canonical, Kind.index]
    | _ => simp [digest, canonical, Kind.index]
  | expression (.constant value), b, r, s => by
    cases b with
    | expression e =>
      cases e with
      | constant other => simp [digest, canonical, digest_append_iff value other]
      | conditions branches => simp [digest, canonical]
    | _ => simp [digest, canonical, Kind.index]
  | expression (.conditions branches), b, r, s => by
    cases b with
    | expression e =>
      cases e with
      | constant other => simp [digest, canonical]
      | conditions other =>
        by_cases hlength : branches.length = other.length
        · simp [digest, canonical, hlength, Branch.flatMap_digest_append_iff hlength]
        · have hne : branches ≠ other := fun h => hlength (congrArg List.length h)
          simp [digest, canonical, hlength, hne]
    | _ => simp [digest, canonical, Kind.index]
  | bool x, b, r, s => by
    cases b with
    | bool y => cases x <;> cases y <;> simp [digest, canonical]
    | expression e => cases e <;> simp [digest, canonical, Kind.index]
    | _ => simp [digest, canonical, Kind.index]
  | null, b, r, s | string _, b, r, s => by
    cases b with
    | expression e => cases e <;> simp [digest, canonical, Kind.index]
    | _ => simp [digest, canonical, Kind.index]

theorem digestFields_append_iff : ∀ as bs : List (String × Value), as.length = bs.length →
    ∀ r s : List Write, digestFields as ++ r = digestFields bs ++ s ↔
      canonicalFields as = canonicalFields bs ∧ r = s
  | [], bs, hlength, r, s => by
    cases bs with
    | nil => simp [digestFields, canonicalFields]
    | cons entry bs => cases hlength
  | (key, a) :: as, bs, hlength, r, s => by
    cases bs with
    | nil => cases hlength
    | cons entry bs =>
      simp [digestFields, canonicalFields, digest_append_iff a entry.2,
        digestFields_append_iff as bs (Nat.succ.inj hlength), and_assoc]

theorem digestItems_append_iff : ∀ as bs : List Value, as.length = bs.length →
    ∀ r s : List Write, digestItems as ++ r = digestItems bs ++ s ↔
      canonicalItems as = canonicalItems bs ∧ r = s
  | [], bs, hlength, r, s => by
    cases bs with
    | nil => simp [digestItems, canonicalItems]
    | cons b bs => cases hlength
  | a :: as, bs, hlength, r, s => by
    cases bs with
    | nil => cases hlength
    | cons b bs =>
      simp [digestItems, canonicalItems, digest_append_iff a b,
        digestItems_append_iff as bs (Nat.succ.inj hlength), and_assoc]

end

theorem digest_eq_iff {a b : Value} : a.digest = b.digest ↔ a.canonical = b.canonical := by
  simpa using digest_append_iff a b [] []

mutual

/-- Whether something that is not a number stands anywhere in the value, also inside a constant. -/
def hasNaN : Value → Bool
  | number x => x.isNaN
  | object fields => hasNaNFields fields
  | array items => hasNaNItems items
  | expression (.constant value) => hasNaN value
  | expression (.conditions _) | null | bool _ | string _ => false

def hasNaNFields : List (String × Value) → Bool
  | [] => false
  | (_, value) :: fields => hasNaN value || hasNaNFields fields

def hasNaNItems : List Value → Bool
  | [] => false
  | item :: items => hasNaN item || hasNaNItems items

end

mutual

theorem alike_eq_beq : ∀ a b : Value, a.hasNaN = false → a.alike b = Value.beq a b
  | number x, b, h => by
    cases b with
    | number y =>
      rw [hasNaN] at h
      simp [alike, Value.beq, Double.alike, h]
    | _ => rfl
  | object fields, b, h => by
    cases b with
    | object other => exact alikeFields_eq_beqFields fields other h
    | _ => rfl
  | array items, b, h => by
    cases b with
    | array other => exact alikeItems_eq_beqItems items other h
    | _ => rfl
  | expression (.constant value), b, h => by
    cases b with
    | expression e =>
      cases e with
      | constant other => exact alike_eq_beq value other h
      | conditions branches => rfl
    | _ => rfl
  | expression (.conditions branches), b, h => by
    cases b with
    | expression e => cases e <;> rfl
    | _ => rfl
  | null, b, h | bool _, b, h | string _, b, h => by
    cases b <;> rfl

theorem alikeFields_eq_beqFields : ∀ as bs : List (String × Value), hasNaNFields as = false →
    alikeFields as bs = beqFields as bs
  | [], bs, h => by cases bs <;> rfl
  | (key, a) :: as, bs, h => by
    rw [hasNaNFields, Bool.or_eq_false_iff] at h
    cases bs with
    | nil => rfl
    | cons entry bs =>
      rw [alikeFields, beqFields, alike_eq_beq a entry.2 h.1, alikeFields_eq_beqFields as bs h.2]

theorem alikeItems_eq_beqItems : ∀ as bs : List Value, hasNaNItems as = false →
    alikeItems as bs = beqItems as bs
  | [], bs, h => by cases bs <;> rfl
  | a :: as, bs, h => by
    rw [hasNaNItems, Bool.or_eq_false_iff] at h
    cases bs with
    | nil => rfl
    | cons b bs => rw [alikeItems, beqItems, alike_eq_beq a b h.1, alikeItems_eq_beqItems as bs h.2]

end

private theorem digest_eq_of_beq {a b : Value} (h : (a == b) = true) : a.digest = b.digest :=
  digest_eq_iff.mpr ((alike_iff a b).mp (alike_of_beq a b h))

theorem digest_eq_iff_beq {a b : Value} (h : a.hasNaN = false) :
    a.digest = b.digest ↔ (a == b) = true := by
  rw [digest_eq_iff, ← alike_iff, alike_eq_beq a b h]
  rfl

end Value

theorem Tree.digest_toValue (t : Tree) :
    t.toValue.digest = .word Kind.object.index :: t.digest := by
  rw [toValue, Value.digest, digest]

private theorem Tree.digest_eq_of_beq {t u : Tree} (h : (t == u) = true) : t.digest = u.digest := by
  have hvalue := Value.digest_eq_of_beq (a := t.toValue) (b := u.toValue) h
  rw [digest_toValue, digest_toValue] at hvalue
  exact List.tail_eq_of_cons_eq hvalue

/-- Equal values have equal digests. Digests are equal exactly if the values are once there is one zero
and one value that is not a number; so they are equal exactly if the values are, unless a value that
is not a number stands in them. Whatever hash is taken of digests, equal trees have equal hashes. -/
theorem Value.digest_faithful (a b : Value) :
    ((a == b) = true → a.digest = b.digest) ∧
      (a.digest = b.digest ↔ a.canonical = b.canonical) ∧
      (a.hasNaN = false → b.hasNaN = false → (a.digest = b.digest ↔ (a == b) = true)) ∧
      ∀ (t u : Tree) (hash : List Write → UInt64), (t == u) = true → hash t.digest = hash u.digest := by
  refine ⟨digest_eq_of_beq, digest_eq_iff, fun ha _ => digest_eq_iff_beq ha, fun t u hash h => ?_⟩
  rw [Tree.digest_eq_of_beq h]

/-- Zeros of both signs, in an array and inside a constant, are written alike. -/
theorem Value.digest_faithful_zeros :
    let a : Value := .array [.number .zero, .expression (.constant (.number (-.zero)))]
    let b : Value := .array [.number (-.zero), .expression (.constant (.number .zero))]
    let t : Tree := ⟨[("offsets", a)]⟩
    let u : Tree := ⟨[("offsets", b)]⟩
    (a == b) = true ∧ a.hasNaN = false ∧ b.hasNaN = false ∧ (t == u) = true ∧
      a.digest = b.digest ∧ (a.digest = b.digest ↔ (a == b) = true) ∧
      hash t.digest = hash u.digest := by
  intro a b t u
  obtain ⟨hequal, -, hnumbers, htrees⟩ := digest_faithful a b
  have hab : (a == b) = true := by decide
  have htu : (t == u) = true := by decide
  exact ⟨hab, rfl, rfl, htu, hequal hab, hnumbers rfl rfl, htrees t u hash htu⟩

end FeatureStyle
