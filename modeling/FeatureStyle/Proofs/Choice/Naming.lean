import FeatureStyle.Proofs.Choice.Substitution
import FeatureStyle.Proofs.Condition.Splitting

/-!
# One way to name properties

Conditions and results find placeholders each in its own way, the one while it is split into tokens
and the other while its text is searched. On a text that is one placeholder both see the same
property, or both see none. The main statement is `named_alike`.
-/

namespace FeatureStyle

open Text

/-- What a condition and a result come to for a feature if both are the placeholder of a property. -/
inductive ReadAs (f : Feature) (name : String) : Scalar → Value → Prop
  | missing : f.scalar? name = none → ReadAs f name .undefined (Value.ofText "")
  | null : f.scalar? name = some .null → ReadAs f name .null .null
  | bool {b : Bool} : f.scalar? name = some (.bool b) → ReadAs f name (.bool b) (.bool b)
  | number {x : Double} : f.scalar? name = some (.number x) → ReadAs f name (.number x) (.number x)
  | string {s : String} : f.scalar? name = some (.string s) →
    ReadAs f name (.string s) (Value.ofText s)

private theorem readAs_property (f : Feature) (name : String) :
    ReadAs f name ((Condition.property name).value f) (Template.render [.property name] f) := by
  rw [Condition.value_property, Template.render]
  cases hscalar : f.scalar? name with
  | none => exact .missing hscalar
  | some v =>
    have hv := (Feature.scalar?_eq_some_iff.mp hscalar).2
    cases v with
    | null => exact .null hscalar
    | bool b => exact .bool hscalar
    | number x => exact .number hscalar
    | string s => exact .string hscalar
    | object _ | array _ | expression _ => cases hv

private theorem ReadAs.eq_of_number {f : Feature} {name : String} {s : Scalar} {v : Value}
    {x : Double}
    (h : ReadAs f name s v) (hx : f.scalar? name = some (.number x)) :
    s = .number x ∧ v = .number x := by
  cases h <;> simp_all

def placeholderOf (inner : List Char) : String := String.ofList (enclosed inner)

variable {inner : List Char} {name : String}

private theorem alone_enclosed_iff (h : '\x7d' ∉ inner) :
    Alone (enclosed inner) name ↔ Names inner name := by
  constructor
  · rintro ⟨other, htext, -, hname⟩
    obtain rfl : inner = other := by simpa [enclosed] using htext
    exact hname
  · intro hname
    exact ⟨inner, rfl, h, hname⟩

namespace Lexeme

private theorem piece_enclosed (h : '\x7d' ∉ inner) :
    piece (enclosed inner) =
      match propertyName? inner with
      | some name => .ofToken (.property name) (enclosed inner).length
      | none => ⟨.error .badPlaceholder, (enclosed inner).length⟩ := by
  have hclosing : splitClosing? (inner ++ ['\x7d']) = some (inner, []) :=
    splitClosing?_eq_some_iff.mpr ⟨rfl, h⟩
  have hpiece : piece (enclosed inner) = placeholderPiece (inner ++ ['\x7d']) := rfl
  have hlength : (enclosed inner).length = inner.length + 3 := by simp [enclosed, opening]
  cases hname : propertyName? inner with
  | none => simp only [hpiece, hlength, placeholderPiece, hclosing, hname]
  | some name => simp only [hpiece, hlength, placeholderPiece, hclosing, hname]

private theorem split_enclosed (h : '\x7d' ∉ inner) :
    split (enclosed inner) =
      match propertyName? inner with
      | some name => .ok [⟨.property name, ⟨0, byteLength (enclosed inner)⟩⟩]
      | none => .error ⟨.badPlaceholder, ⟨0, byteLength (enclosed inner)⟩⟩ := by
  have htext : enclosed inner = '$' :: '\x7b' :: (inner ++ ['\x7d']) := rfl
  have hlength : (enclosed inner).length = inner.length + 3 := by simp [htext]
  have hseparator : ¬ isSeparator '$' = true := by decide
  rw [split, hlength, htext, splitAt, if_neg hseparator, ← htext, piece_enclosed h]
  cases propertyName? inner with
  | none => simp
  | some name => simp [Piece.ofToken, splitAt]

end Lexeme

namespace Template

private theorem ofText_of_unnamed {source : String} (h : source.toList = enclosed inner)
    (hunclosed : '\x7d' ∉ inner) (hname : ∀ name, ¬ Names inner name) :
    ofText source = [.text source] := by
  have hfirst : First source.toList [] inner [] := ⟨by simpa using h, by simp [opening], hunclosed⟩
  have hlt := hfirst.rest_length
  rw [ofText]
  cases hfuel : source.toList.length with
  | zero => omega
  | succ fuel =>
    have hne : source ≠ "" := by
      rintro rfl
      cases hfuel
    rw [parts_other hfirst hname, parts_unclosed unclosed_nil]
    simp [ofPlain, ← h, hne]

end Template

/-- A placeholder is the token of a property exactly if it is the template of the same property, and
both read this property of a feature. Otherwise it is an error of the condition, from its first byte
to its last, and plain text as a result. -/
theorem named_alike (h : '\x7d' ∉ inner) :
    (∀ name, (∃ span, Lexeme.split (placeholderOf inner).toList = .ok [⟨.property name, span⟩]) ↔
      Template.ofText (placeholderOf inner) = [.property name]) ∧
    (∀ name, Template.ofText (placeholderOf inner) = [.property name] →
      ∃ c, Condition.parse (placeholderOf inner) = .ok c ∧
        ∀ f, ReadAs f name (c.value f) ((Template.ofText (placeholderOf inner)).render f)) ∧
    ((∀ name, Template.ofText (placeholderOf inner) ≠ [.property name]) →
      Condition.parse (placeholderOf inner) =
          .error ⟨.badPlaceholder, ⟨0, (placeholderOf inner).utf8ByteSize⟩⟩ ∧
        Template.ofText (placeholderOf inner) = [.text (placeholderOf inner)]) := by
  have htext : (placeholderOf inner).toList = enclosed inner := String.toList_ofList
  have hsplit := Lexeme.split_enclosed h
  have hsize : byteLength (enclosed inner) = (placeholderOf inner).utf8ByteSize := by
    rw [← htext, byteLength_toList]
  have halone : ∀ name, Template.ofText (placeholderOf inner) = [.property name] ↔
      propertyName? inner = some name := by
    intro name
    rw [Template.ofText_eq_property_iff, propertyName?_eq_some_iff, htext, alone_enclosed_iff h]
  refine ⟨fun name => ?_, fun name hname => ?_, fun hname => ?_⟩
  · rw [halone, htext, hsplit]
    cases propertyName? inner with
    | none => simp
    | some other => simp
  · refine ⟨.property name, ?_, fun f => ?_⟩
    · rw [Condition.parse, htext, hsplit, (halone name).mp hname]
      rfl
    · rw [hname]
      exact readAs_property f name
  · have hnone : propertyName? inner = none :=
      Option.eq_none_iff_forall_ne_some.mpr fun name => mt (halone name).mpr (hname name)
    constructor
    · rw [Condition.parse, htext, hsplit, hnone, hsize]
    · exact Template.ofText_of_unnamed htext h fun name hinner =>
        hname name ((halone name).mpr (propertyName?_eq_some_iff.mpr hinner))

/-- With blanks of two and three bytes, a quote, an opening and a line feed inside, a placeholder is
still one property, and the feature that has it gives it to both. -/
theorem named_alike_padded :
    let inner := "\u2003 feature.property.it's $\x7b\nhere\u00a0".toList
    let f : Feature := (Feature.ofId ⟨"f"⟩).set "it's $\x7b\nhere" (.number .one)
    '\x7d' ∉ inner ∧ ∃ c, Condition.parse (placeholderOf inner) = .ok c ∧
      c.value f = .number .one ∧
      (Template.ofText (placeholderOf inner)).render f = .number .one := by
  intro inner f
  have h : '\x7d' ∉ inner := by decide +kernel
  have hname : Template.ofText (placeholderOf inner) = [.property "it's $\x7b\nhere"] := by
    decide +kernel
  obtain ⟨-, hread, -⟩ := named_alike h
  obtain ⟨c, hparse, hvalue⟩ := hread _ hname
  exact ⟨h, c, hparse, (hvalue f).eq_of_number rfl⟩

end FeatureStyle
