import FeatureStyle.Session.Printer
import FeatureStyle.Value.Authoring

/-!
# Reading back what was written

The document of a value reads as that value exactly if the document can spell every number and
constant in it and no plain object in it is spelled like an expression. What was read from a
document is always such a value.
-/

namespace FeatureStyle

theorem roundHalfEven_le (num den : Nat) : roundHalfEven num den ≤ num / den + 1 := by
  simp only [roundHalfEven]
  split <;> omega

namespace Double

private theorem roundHalfEven_shift_le {n shift : Nat} (h : n.log2 ≤ shift + 52) :
    roundHalfEven n (1 <<< shift) ≤ 2 * fractions := by
  have hn : n < 2 * fractions * (1 <<< shift) := by
    calc n < 2 ^ (n.log2 + 1) := Nat.lt_log2_self
      _ ≤ 2 ^ (53 + shift) := Nat.pow_le_pow_right (by decide) (by omega)
      _ = 2 * fractions * (1 <<< shift) := by
        rw [Nat.pow_add, Nat.one_shiftLeft]
        rfl
  have hquotient : n / (1 <<< shift) < 2 * fractions := Nat.div_lt_of_lt_mul (by rwa [Nat.mul_comm])
  exact Nat.le_trans (roundHalfEven_le _ _) hquotient

private theorem log2_shiftLeft_le {n bits shift : Nat} (h : n < 1 <<< bits) :
    (n <<< shift).log2 ≤ bits + shift := by
  rw [Nat.one_shiftLeft] at h
  rw [Nat.shiftLeft_eq]
  by_cases hzero : n * 2 ^ shift = 0
  · rw [hzero]
    exact Nat.zero_le _
  · have hlt : n * 2 ^ shift < 2 ^ (bits + shift) := by
      rw [Nat.pow_add]
      exact Nat.mul_lt_mul_of_pos_right h (Nat.two_pow_pos _)
    exact Nat.le_of_lt ((Nat.log2_lt hzero).mpr hlt)

private theorem nearestMagnitude_lt {n : Nat} (h : n < UInt64.size) :
    nearestMagnitude n 1 < infinityMagnitude := by
  have hlog : (n <<< 1074).log2 ≤ 64 + 1074 := log2_shiftLeft_le h
  simp only [nearestMagnitude, Nat.div_one]
  generalize n <<< 1074 = scaled at hlog ⊢
  have hround : roundHalfEven scaled (1 <<< (scaled.log2 - 52)) ≤ 2 * fractions :=
    roundHalfEven_shift_le (by omega)
  have hexponent : (scaled.log2 - 52) * fractions ≤ 1086 * fractions :=
    Nat.mul_le_mul_right _ (by omega)
  refine Nat.lt_of_le_of_lt (Nat.min_le_right _ _) ?_
  refine Nat.lt_of_le_of_lt (Nat.add_le_add hexponent hround) ?_
  decide

theorem isFinite_ofInt {n : Int} (h : n.natAbs < UInt64.size) : (ofInt n).isFinite = true := by
  have hlt := nearestMagnitude_lt h
  rw [isFinite, decide_eq_true_iff]
  exact Nat.lt_of_le_of_lt (Nat.min_le_left _ _) hlt

end Double

/-- The numbers of a document: integers of 64 bits, signed or unsigned, and finite numbers. -/
def JsonNumber.fits : JsonNumber → Bool
  | integer n => -(UInt64.size / 2 : Nat) ≤ n ∧ n < UInt64.size
  | double x => x.isFinite

private theorem JsonNumber.isFinite_toDouble {n : JsonNumber} (h : n.fits = true) :
    n.toDouble.isFinite = true := by
  cases n with
  | integer n =>
    have hbounds := of_decide_eq_true h
    apply Double.isFinite_ofInt
    have hsize : UInt64.size = 0x10000000000000000 := rfl
    omega
  | double x => exact h

namespace Json

mutual

def fits : Json → Bool
  | number n => n.fits
  | array items => fitsItems items
  | object members => fitsMembers members
  | null | bool _ | string _ => true

def fitsItems : List Json → Bool
  | [] => true
  | item :: items => item.fits && fitsItems items

def fitsMembers : List (String × Json) → Bool
  | [] => true
  | (_, member) :: members => member.fits && fitsMembers members

end

end Json

namespace Value

/-- `Part u v` says that `u` stands somewhere in `v`: it is `v`, or stands in a field, in an item or
in the constant of an expression. -/
inductive Part : Value → Value → Prop
  | whole (v : Value) : Part v v
  | field {u w : Value} {key : String} {fields : List (String × Value)}
      (mem : (key, w) ∈ fields) (part : Part u w) : Part u (object fields)
  | item {u w : Value} {items : List Value} (mem : w ∈ items) (part : Part u w) :
      Part u (array items)
  | constant {u w : Value} (part : Part u w) : Part u (expression (.constant w))

/-- The values that a constant can have in a document. -/
def isLiteral : Value → Bool
  | bool _ | number _ | string _ => true
  | null | object _ | array _ | expression _ => false

/-- The values that, as the only field of an object and under the expression key, are spelled like
an expression. -/
def isPayload : Value → Bool
  | bool _ | number _ | string _ => true
  | object fields =>
    match Fields.get? fields Authoring.conditionsMember with
    | some (array _) => true
    | _ => false
  | null | array _ | expression _ => false

/-- The values that documents can spell. -/
structure Importable (v : Value) : Prop where
  finite : ∀ x, Part (number x) v → x.isFinite = true
  literal : ∀ u, Part (expression (.constant u)) v → u.isLiteral = true
  plain : ∀ u, Part (object [(Authoring.expressionMember, u)]) v → u.isPayload = false

theorem Part.trans {u v w : Value} (huv : Part u v) (hvw : Part v w) : Part u w := by
  induction hvw with
  | whole => exact huv
  | field hmem _ ih => exact .field hmem ih
  | item hmem _ ih => exact .item hmem ih
  | constant _ ih => exact .constant ih

private theorem Importable.part {v w : Value} (h : v.Importable) (hpart : Part w v) :
    w.Importable where
  finite x hx := h.finite x (hx.trans hpart)
  literal u hu := h.literal u (hu.trans hpart)
  plain u hu := h.plain u (hu.trans hpart)

private theorem importable_null : null.Importable := by
  constructor <;> intro _ hpart <;> cases hpart

private theorem importable_bool (b : Bool) : (bool b).Importable := by
  constructor <;> intro _ hpart <;> cases hpart

private theorem importable_string (s : String) : (string s).Importable := by
  constructor <;> intro _ hpart <;> cases hpart

private theorem importable_conditions (branches : List Branch) :
    (expression (.conditions branches)).Importable := by
  constructor <;> intro _ hpart <;> cases hpart

private theorem importable_number {x : Double} : (number x).Importable ↔ x.isFinite = true := by
  constructor
  · intro h
    exact h.finite x (.whole _)
  · intro h
    constructor <;> intro _ hpart <;> cases hpart
    exact h

private theorem importable_array {items : List Value} :
    (array items).Importable ↔ ∀ item ∈ items, item.Importable := by
  constructor
  · intro h item hmem
    exact h.part (.item hmem (.whole item))
  · intro h
    constructor
    · intro x hpart
      cases hpart with
      | item hmem hpart => exact (h _ hmem).finite x hpart
    · intro u hpart
      cases hpart with
      | item hmem hpart => exact (h _ hmem).literal u hpart
    · intro u hpart
      cases hpart with
      | item hmem hpart => exact (h _ hmem).plain u hpart

private theorem importable_object {fields : List (String × Value)} :
    (object fields).Importable ↔
      (∀ field ∈ fields, field.2.Importable) ∧
        ∀ u, fields = [(Authoring.expressionMember, u)] → u.isPayload = false := by
  constructor
  · intro h
    refine ⟨fun field hmem => h.part (.field hmem (.whole field.2)), fun u heq => ?_⟩
    subst heq
    exact h.plain u (.whole _)
  · intro ⟨h, hplain⟩
    constructor
    · intro x hpart
      cases hpart with
      | field hmem hpart => exact (h _ hmem).finite x hpart
    · intro u hpart
      cases hpart with
      | field hmem hpart => exact (h _ hmem).literal u hpart
    · intro u hpart
      cases hpart with
      | whole => exact hplain u rfl
      | field hmem hpart => exact (h _ hmem).plain u hpart

private theorem importable_constant {v : Value} :
    (expression (.constant v)).Importable ↔ v.isLiteral = true ∧ v.Importable := by
  constructor
  · intro h
    exact ⟨h.literal v (.whole _), h.part (.constant (.whole v))⟩
  · intro ⟨hliteral, h⟩
    constructor
    · intro x hpart
      cases hpart with
      | constant hpart => exact h.finite x hpart
    · intro u hpart
      cases hpart with
      | whole => exact hliteral
      | constant hpart => exact h.literal u hpart
    · intro u hpart
      cases hpart with
      | constant hpart => exact h.plain u hpart

end Value

namespace Authoring

private theorem get?_toJsonFields (fields : List (String × Value)) (key : String) :
    Fields.get? (Value.toJsonFields fields) key = (Fields.get? fields key).map Value.toJson := by
  induction fields with
  | nil => rfl
  | cons field fields ih =>
    obtain ⟨key', value⟩ := field
    simp only [Fields.get?, Value.toJsonFields, Table.get?_cons] at ih ⊢
    rw [ih]
    split <;> rfl

theorem toJson_eq_array {v : Value} :
    (∃ items, v.toJson = .array items) ↔ ∃ items, v = .array items := by
  constructor
  · intro ⟨items, h⟩
    unfold Value.toJson at h
    split at h <;> try cases h
    · split at h <;> cases h
    · exact ⟨_, rfl⟩
  · intro ⟨items, h⟩
    rw [h, Value.toJson]
    exact ⟨_, rfl⟩

private theorem isPayload_object {fields : List (String × Value)} :
    (Value.object fields).isPayload = false ↔
      ∀ value ∈ Fields.get? fields conditionsMember, ¬∃ items, value = .array items := by
  simp only [Value.isPayload]
  split
  · rename_i items h
    simp [h]
  · rename_i h
    constructor
    · intro _ value hmem ⟨items, heq⟩
      exact h items (heq ▸ hmem)
    · intro _
      rfl

variable [NumberPrinter]

private theorem filterMap_branch? (branches : List Branch) :
    (branches.map fun branch =>
        Json.array [.string branch.condition, .string branch.result]).filterMap branch? =
      branches := by
  rw [List.filterMap_map]
  exact List.filterMap_some

private theorem get?_ofJsonMembers (members : List (String × Json)) (key : String) :
    Fields.get? (Value.ofJsonMembers members) key = (Fields.get? members key).map Value.ofJson := by
  induction members with
  | nil => rfl
  | cons member members ih =>
    obtain ⟨key', document⟩ := member
    simp only [Fields.get?, Value.ofJsonMembers, Table.get?_cons] at ih ⊢
    rw [ih]
    split <;> rfl

private theorem ofJson_eq_array {x : Json} :
    (∃ items, Value.ofJson x = .array items) ↔ ∃ items, x = .array items := by
  constructor
  · intro ⟨items, h⟩
    unfold Value.ofJson at h
    split at h <;> try cases h
    · exact ⟨_, rfl⟩
    · split at h <;> cases h
  · intro ⟨items, h⟩
    rw [h, Value.ofJson]
    exact ⟨_, rfl⟩

private theorem payload?_object {members : List (String × Json)} :
    payload? (.object members) = none ↔
      ∀ document ∈ Fields.get? members conditionsMember, ¬∃ items, document = .array items := by
  simp only [payload?]
  split
  · rename_i pairs h
    simp [h]
  · rename_i h
    constructor
    · intro _ document hmem ⟨items, heq⟩
      exact h items (heq ▸ hmem)
    · intro _
      rfl

private theorem payload?_toJson_expression (e : Expression Value) :
    payload? (Value.expression e).toJson = none := by
  have hkeys : expressionMember ≠ conditionsMember := by decide
  cases e <;> simp [Value.toJson, payload?, Fields.get?, Table.get?_cons, hkeys]

/-- The document of an importable value reads as an expression under the expression key exactly if
the value has the shape of one. -/
theorem payload?_toJson {v : Value} (h : v.Importable) :
    payload? v.toJson = none ↔ v.isPayload = false := by
  cases v with
  | null => exact ⟨fun _ => rfl, fun _ => rfl⟩
  | bool b => simp [Value.toJson, payload?, Value.isPayload]
  | string s => simp [Value.toJson, payload?, Value.isPayload]
  | number x =>
    have hfinite := Value.importable_number.mp h
    simp [Value.toJson, hfinite, payload?, Value.isPayload]
  | array items => simp [Value.toJson, payload?, Value.isPayload]
  | object fields =>
    rw [Value.toJson, payload?_object, isPayload_object, get?_toJsonFields]
    simp only [Option.mem_def, Option.map_eq_some_iff, forall_exists_index, and_imp,
      forall_apply_eq_imp_iff₂, toJson_eq_array]
  | expression e => simp [payload?_toJson_expression, Value.isPayload]

theorem isPayload_ofJson {x : Json} (h : payload? x = none) :
    (Value.ofJson x).isPayload = false := by
  cases x with
  | null => rfl
  | bool b => cases h
  | number n => cases h
  | string s => cases h
  | array items => rfl
  | object members =>
    rw [Value.ofJson]
    split
    · rfl
    · rw [payload?_object] at h
      rw [isPayload_object, get?_ofJsonMembers]
      simpa only [Option.mem_def, Option.map_eq_some_iff, forall_exists_index, and_imp,
        forall_apply_eq_imp_iff₂, ofJson_eq_array] using h

theorem payload?_toJson_eq_constant {v : Value} :
    payload? v.toJson = some (.constant v) ↔ v.isLiteral = true ∧ v.Importable := by
  cases v with
  | null => simp [Value.toJson, payload?, Value.isLiteral]
  | bool b => simp [Value.toJson, payload?, Value.isLiteral, Value.importable_bool]
  | string s => simp [Value.toJson, payload?, Value.isLiteral, Value.importable_string]
  | number x =>
    rw [Value.importable_number]
    cases hfinite : x.isFinite <;>
      simp [Value.toJson, hfinite, payload?, Value.isLiteral, JsonNumber.toDouble]
  | array items => simp [Value.toJson, payload?, Value.isLiteral]
  | object fields =>
    simp only [Value.toJson, payload?, Value.isLiteral]
    split <;> simp
  | expression e => simp [payload?_toJson_expression, Value.isLiteral]

private theorem expression?_eq_none {members : List (String × Json)} :
    expression? members = none ↔
      ∀ document, members = [(expressionMember, document)] → payload? document = none := by
  unfold expression?
  split
  · rename_i key payload
    split
    · rename_i hkey
      simp [hkey]
    · rename_i hkey
      simp [hkey]
  · rename_i hsingle
    constructor
    · intro _ document heq
      exact absurd heq (hsingle _ _)
    · intro _
      rfl

private theorem importable_of_payload? {x : Json} {e : Expression Value} (hfits : x.fits = true)
    (h : payload? x = some e) : (Value.expression e).Importable := by
  cases x with
  | null => cases h
  | array items => cases h
  | bool b =>
    cases h
    exact Value.importable_constant.mpr ⟨rfl, Value.importable_bool b⟩
  | string s =>
    cases h
    exact Value.importable_constant.mpr ⟨rfl, Value.importable_string s⟩
  | number n =>
    cases h
    have hfinite := Value.importable_number.mpr (JsonNumber.isFinite_toDouble hfits)
    exact Value.importable_constant.mpr ⟨rfl, hfinite⟩
  | object members =>
    rw [payload?] at h
    split at h <;> cases h
    exact Value.importable_conditions _

private theorem importable_of_expression? {members : List (String × Json)} {e : Expression Value}
    (hfits : Json.fitsMembers members = true) (h : expression? members = some e) :
    (Value.expression e).Importable := by
  unfold expression? at h
  split at h
  · rename_i key payload
    split at h
    · exact importable_of_payload? (Bool.and_eq_true_iff.mp hfits).1 h
    · cases h
  · cases h

end Authoring

namespace Value

private theorem toJsonFields_eq_singleton {fields : List (String × Value)} {key : String} {x : Json}
    (h : toJsonFields fields = [(key, x)]) : ∃ v, fields = [(key, v)] ∧ v.toJson = x := by
  rcases fields with _ | ⟨⟨key', v⟩, _ | ⟨field, fields⟩⟩
  · cases h
  · cases h
    exact ⟨v, rfl, rfl⟩
  · cases h

variable [NumberPrinter]

private theorem ofJsonMembers_eq_singleton {members : List (String × Json)} {key : String}
    {v : Value}
    (h : ofJsonMembers members = [(key, v)]) : ∃ x, members = [(key, x)] ∧ ofJson x = v := by
  rcases members with _ | ⟨⟨key', x⟩, _ | ⟨member, members⟩⟩
  · cases h
  · cases h
    exact ⟨x, rfl, rfl⟩
  · cases h

mutual

/-- What is read from a document can be written as one. -/
theorem importable_ofJson : ∀ x : Json, x.fits = true → (ofJson x).Importable
  | .null, _ => importable_null
  | .bool b, _ => importable_bool b
  | .number n, h => importable_number.mpr (JsonNumber.isFinite_toDouble h)
  | .string s, _ => importable_string s
  | .array items, h => importable_array.mpr (importable_ofJsonItems items h)
  | .object members, h => by
    have hmembers := importable_ofJsonMembers members h
    rw [ofJson]
    split
    · rename_i e he
      exact Authoring.importable_of_expression? h he
    · rename_i hnone
      refine importable_object.mpr ⟨hmembers, fun u heq => ?_⟩
      obtain ⟨x, hx, rfl⟩ := ofJsonMembers_eq_singleton heq
      exact Authoring.isPayload_ofJson (Authoring.expression?_eq_none.mp hnone x hx)

theorem importable_ofJsonItems : ∀ items : List Json, Json.fitsItems items = true →
    ∀ v ∈ ofJsonItems items, v.Importable
  | [], _ => by simp [ofJsonItems]
  | item :: items, h => by
    obtain ⟨hitem, hitems⟩ := Bool.and_eq_true_iff.mp h
    rw [ofJsonItems, List.forall_mem_cons]
    exact ⟨importable_ofJson item hitem, importable_ofJsonItems items hitems⟩

private theorem importable_ofJsonMembers : ∀ members : List (String × Json),
    Json.fitsMembers members = true → ∀ field ∈ ofJsonMembers members, field.2.Importable
  | [], _ => by simp [ofJsonMembers]
  | (key, member) :: members, h => by
    obtain ⟨hmember, hmembers⟩ := Bool.and_eq_true_iff.mp h
    rw [ofJsonMembers, List.forall_mem_cons]
    exact ⟨importable_ofJson member hmember, importable_ofJsonMembers members hmembers⟩

end

mutual

/-- A value is read back exactly if it is importable. -/
theorem ofJson_toJson_iff : ∀ v : Value, ofJson v.toJson = v ↔ v.Importable
  | null => iff_of_true rfl importable_null
  | bool b => iff_of_true rfl (importable_bool b)
  | string s => iff_of_true rfl (importable_string s)
  | number x => by
    rw [importable_number]
    cases hfinite : x.isFinite <;> simp [toJson, hfinite, ofJson, JsonNumber.toDouble]
  | array items => by
    rw [importable_array, ← ofJsonItems_toJsonItems_iff items, toJson, ofJson, array.injEq]
  | object fields => by
    have hfields := ofJsonMembers_toJsonFields_iff fields
    rw [importable_object, ← hfields, toJson, ofJson]
    constructor
    · intro h
      split at h
      · cases h
      · rename_i hnone
        have hback := object.inj h
        refine ⟨hback, fun u heq => ?_⟩
        subst heq
        have hu := hfields.mp hback _ List.mem_cons_self
        exact (Authoring.payload?_toJson hu).mp (Authoring.expression?_eq_none.mp hnone _ rfl)
    · intro ⟨hback, hplain⟩
      have hnone : Authoring.expression? (toJsonFields fields) = none := by
        rw [Authoring.expression?_eq_none]
        intro x hx
        obtain ⟨u, rfl, rfl⟩ := toJsonFields_eq_singleton hx
        have hu := hfields.mp hback _ List.mem_cons_self
        exact (Authoring.payload?_toJson hu).mpr (hplain u rfl)
      rw [hnone, hback]
  | expression (.constant v) => by
    rw [importable_constant, ← Authoring.payload?_toJson_eq_constant, toJson, ofJson]
    simp only [Authoring.expression?, ↓reduceIte]
    cases Authoring.payload? v.toJson <;> simp
  | expression (.conditions branches) => by
    refine iff_of_true ?_ (importable_conditions branches)
    have hpayload : Authoring.payload? (.object [(Authoring.conditionsMember, .array
        (branches.map fun branch => .array [.string branch.condition, .string branch.result]))]) =
        some (.conditions branches) := by
      simp only [Authoring.payload?, Fields.get?, Table.get?_cons, ↓reduceIte,
        Authoring.filterMap_branch?]
    simp only [toJson, ofJson, Authoring.expression?, ↓reduceIte, hpayload]

theorem ofJsonItems_toJsonItems_iff : ∀ items : List Value,
    ofJsonItems (toJsonItems items) = items ↔ ∀ item ∈ items, item.Importable
  | [] => by simp [toJsonItems, ofJsonItems]
  | item :: items => by
    rw [toJsonItems, ofJsonItems, List.cons.injEq, List.forall_mem_cons, ofJson_toJson_iff item,
      ofJsonItems_toJsonItems_iff items]

private theorem ofJsonMembers_toJsonFields_iff : ∀ fields : List (String × Value),
    ofJsonMembers (toJsonFields fields) = fields ↔ ∀ field ∈ fields, field.2.Importable
  | [] => by simp [toJsonFields, ofJsonMembers]
  | (key, v) :: fields => by
    rw [toJsonFields, ofJsonMembers, List.cons.injEq, Prod.mk.injEq, List.forall_mem_cons,
      ofJson_toJson_iff v, ofJsonMembers_toJsonFields_iff fields]
    simp

end

end Value

/-- The values of a tree are importable. The root itself may be spelled like an expression. -/
def Tree.Importable (t : Tree) : Prop := ∀ field ∈ t.fields, field.2.Importable

theorem Tree.ofJson_toJson_iff [NumberPrinter] (t : Tree) :
    Tree.ofJson t.toJson = .ok t ↔ t.Importable := by
  obtain ⟨fields⟩ := t
  rw [Tree.Importable, ← Value.ofJsonMembers_toJsonFields_iff, Tree.toJson, Tree.ofJson,
    Except.ok.injEq, Tree.mk.injEq]

/-- What was read from any document, a value, a tree or the lack of a tree, is read again from what
it is written as. A value or a tree is read back from what it is written as exactly if it is
importable. -/
theorem Authoring.readBack_iff_importable [NumberPrinter] :
    (∀ x : Json, x.fits = true → Value.ofJson (Value.ofJson x).toJson = Value.ofJson x) ∧
    (∀ v : Value, Value.ofJson v.toJson = v ↔ v.Importable) ∧
    (∀ x : Json, x.fits = true →
      ((Tree.ofJson x).bind fun t => Tree.ofJson t.toJson) = Tree.ofJson x) ∧
    ∀ t : Tree, Tree.ofJson t.toJson = .ok t ↔ t.Importable := by
  refine ⟨fun x hx => ?_, Value.ofJson_toJson_iff, fun x hx => ?_, Tree.ofJson_toJson_iff⟩
  · exact (Value.ofJson_toJson_iff _).mpr (Value.importable_ofJson x hx)
  · cases x with
    | object members =>
      exact (Tree.ofJson_toJson_iff _).mpr (Value.importable_ofJsonMembers members hx)
    | null => rfl
    | bool b => rfl
    | number n => rfl
    | string s => rfl
    | array items => rfl

/-- A document with an integer, an expression and an object that only looks like one. -/
theorem Authoring.readBack_mixed :
    let x : Json := .object [("expression", .array []), ("height", .number (.integer (-3))),
      ("tint", .object [("expression", .object [("conditions",
        .array [.array [.string "true", .number (.integer 3)], .null])])])]
    x.fits = true ∧ Value.ofJson (Value.ofJson x).toJson = Value.ofJson x ∧
      ((Tree.ofJson x).bind fun t => Tree.ofJson t.toJson) = Tree.ofJson x :=
  ⟨rfl, Authoring.readBack_iff_importable.1 _ rfl, Authoring.readBack_iff_importable.2.2.1 _ rfl⟩

example : Value.ofJson (Value.object [("expression", .string "red")]).toJson =
    .expression (.constant (.string "red")) := rfl

end FeatureStyle
