import FeatureStyle.Proofs.Choice.BareResult
import FeatureStyle.Proofs.Choice.Selection
import FeatureStyle.Proofs.Numeral.Overflow

/-!
# Finite results

A result that is a number is finite, unless its text, with the properties put in place, spells a number
beyond the finite ones. Which texts do is a matter of the decimal alone, however it was put together.
The main statement is `Expression.finite_unless_overflows`.
-/

namespace FeatureStyle

private theorem Double.not_isFinite_of_isInfinite {x : Double} (h : x.isInfinite = true) :
    ¬ x.isFinite = true := by
  rw [isInfinite, decide_eq_true_iff] at h
  rw [isFinite, decide_eq_true_iff, h]
  exact Nat.lt_irrefl _

def Feature.Finite (f : Feature) : Prop := ∀ name x, f.get? name = some (.number x) → x.isFinite = true

/-- A result is not a property as it is, and the text that it comes to spells a number beyond the finite
ones. -/
def Template.Overflows (f : Feature) (result : List Char) : Prop :=
  (∀ v, ¬ Kept f result v) ∧
    ∃ names out, Substituted f result names out ∧ Numeral.Overflows (Text.trim out)

def Branch.Decides (branch : Branch) (f : Feature) (branches : List Branch) : Prop :=
  ∃ i : Nat, branches[i]? = some branch ∧ branch.Applies f ∧
    ∀ j < i, ∀ earlier, branches[j]? = some earlier → ¬ earlier.Applies f

variable {f : Feature} {x : Double}

private theorem Value.ofText_eq_number_iff {text : String} :
    ofText text = .number x ↔ Double.ofText? text = some x := by
  rw [ofText, Double.ofText?]
  cases Numeral.read? (Text.trim text.toList) with
  | some y => simp
  | none =>
    simp only [reduceCtorEq, iff_false]
    split
    · simp
    · split <;> simp

private theorem Value.toJson_number (x : Double) :
    (number x).toJson = if x.isFinite then .number (.double x) else .null := by
  rw [toJson]

/-- What a result that is a number comes to. -/
structure Template.Ranged (f : Feature) (result : List Char) (x : Double) : Prop where
  finite : ¬ Overflows f result → x.isFinite = true
  infinite : Overflows f result → x.isInfinite = true

private theorem Template.ranged_of_render {source : String} (hf : f.Finite)
    (h : (ofText source).render f = .number x) : Ranged f source.toList x := by
  by_cases hkept : ∃ v, Kept f source.toList v
  · obtain ⟨v, hv⟩ := hkept
    obtain rfl : v = .number x := (render_of_kept hv).symm.trans h
    have hfinite : x.isFinite = true := by
      obtain ⟨name, -, hget, -⟩ := hv
      exact hf name x hget
    exact ⟨fun _ => hfinite, fun hoverflows => absurd hv (hoverflows.1 _)⟩
  · have hkept := not_exists.mp hkept
    rw [render_of_not_kept hkept] at h
    have hread := Value.ofText_eq_number_iff.mp h
    rw [Double.ofText?, String.toList_ofList] at hread
    obtain ⟨-, hinfinite, hfinite⟩ := Numeral.isInfinite_of_read? hread
    have hoverflows : Overflows f source.toList ↔
        Numeral.Overflows (Text.trim ((ofText source).filled f)) := by
      constructor
      · intro hoverflows
        obtain ⟨-, names, out, hsubstituted, hout⟩ := hoverflows
        rw [(ofText_of_substituted hsubstituted).2]
        exact hout
      · intro hout
        obtain ⟨names, out, hsubstituted⟩ := Substituted.exists_out f source.toList
        rw [(ofText_of_substituted hsubstituted).2] at hout
        exact ⟨hkept, names, out, hsubstituted, hout⟩
    rw [← hoverflows] at hinfinite hfinite
    exact ⟨hfinite.mpr, hinfinite.mpr⟩

namespace Expression

private theorem decides_of_evaluate {branches : List Branch} {v : Value}
    (h : (conditions branches).evaluate f = some v) :
    ∃ branch : Branch, branch.Decides f branches ∧ (Template.ofText branch.result).render f = v := by
  have hdecided := decided_explain branches f
  rw [outcome_explain, h] at hdecided
  generalize ((conditions branches).explain f).selected = selected at hdecided
  generalize hvalue : some v = outcome at hdecided
  cases hdecided with
  | first hbranch happlies hbefore =>
    exact ⟨_, ⟨_, hbranch, happlies, hbefore⟩, (Option.some.inj hvalue).symm⟩
  | none => cases hvalue

/-- A text that is read as a number is finite or, if the decimal that it spells is beyond the finite
numbers, infinite. Of a feature with finite numbers every result that is a number is finite and becomes
a number in a document, unless the text of the first branch that applies comes to such a decimal; then
it is infinite and becomes null. -/
theorem finite_unless_overflows :
    (∀ t x, Double.ofText? t = some x → x.isNaN = false ∧
      (x.isFinite = true ↔ ¬ Numeral.Overflows (Text.trim t.toList)) ∧
      (x.isInfinite = true ↔ Numeral.Overflows (Text.trim t.toList))) ∧
    ∀ (branches : List Branch) (f : Feature), f.Finite →
      ∀ x, (conditions branches).evaluate f = some (.number x) →
        ∃ branch : Branch, branch.Decides f branches ∧
          (¬ Template.Overflows f branch.result.toList →
            x.isFinite = true ∧ (Value.number x).toJson = .number (.double x)) ∧
          (Template.Overflows f branch.result.toList →
            x.isInfinite = true ∧ (Value.number x).toJson = .null) := by
  constructor
  · intro t x h
    obtain ⟨hnumber, hinfinite, hfinite⟩ := Numeral.isInfinite_of_read? h
    exact ⟨hnumber, hfinite, hinfinite⟩
  · intro branches f hf x h
    obtain ⟨branch, hdecides, hrender⟩ := decides_of_evaluate h
    have hranged := Template.ranged_of_render hf hrender
    refine ⟨branch, hdecides, ?_, ?_⟩
    · intro hnot
      have hfinite := hranged.finite hnot
      exact ⟨hfinite, by rw [Value.toJson_number, if_pos hfinite]⟩
    · intro hoverflows
      have hinfinite := hranged.infinite hoverflows
      have hfinite := Double.not_isFinite_of_isInfinite hinfinite
      exact ⟨hinfinite, by rw [Value.toJson_number, if_neg hfinite]⟩

/-- The first result puts a property in front of an exponent, the second one makes an exponent of
another one, and both properties are finite. -/
theorem finite_unless_overflows_exponent :
    let f : Feature := ⟨⟨"f"⟩, [("e", .number (.ofNat 999)), ("m", .number .one)]⟩
    let small : Branch := ⟨"true", "$\x7bfeature.property.m\x7de5"⟩
    let large : Branch := ⟨"true", "$\x7bfeature.property.m\x7de$\x7bfeature.property.e\x7d"⟩
    Double.ofText? "1e5" = some (.ofNat 100000) ∧ ¬ Numeral.Overflows (Text.trim "1e5".toList) ∧
      f.Finite ∧ (conditions [small]).evaluate f = some (.number (.ofNat 100000)) ∧
      ¬ Template.Overflows f small.result.toList ∧
      (conditions [large]).evaluate f = some (.number .infinity) ∧
      Template.Overflows f large.result.toList := by
  intro f small large
  have hf : f.Finite := by
    intro name x h
    rw [Feature.get?, Fields.get?_cons, Fields.get?_cons] at h
    split at h
    · cases h
      decide +kernel
    · split at h
      · cases h
        decide +kernel
      · cases h
  have hread : Double.ofText? "1e5" = some (.ofNat 100000) := by decide +kernel
  have hbeyond : Double.ofText? "1e999" = some .infinity := by decide +kernel
  have hsmall : (conditions [small]).evaluate f = some (.number (.ofNat 100000)) := by
    have htemplate : Template.ofText small.result = [.property "m", .text "e5"] := by decide +kernel
    have htext : String.join ([.property "m", .text "e5"].map (Template.substitute f)) = "1e5" := by
      decide +kernel
    rw [Authoring.evaluate_true, htemplate]
    simp only [Template.render, htext, Value.ofText_eq_number_iff.mpr hread]
  have hlarge : (conditions [large]).evaluate f = some (.number .infinity) := by
    have htemplate : Template.ofText large.result =
        [.property "m", .text "e", .property "e"] := by
      decide +kernel
    have htext : String.join
        ([.property "m", .text "e", .property "e"].map (Template.substitute f)) = "1e999" := by
      decide +kernel
    rw [Authoring.evaluate_true, htemplate]
    simp only [Template.render, htext, Value.ofText_eq_number_iff.mpr hbeyond]
  obtain ⟨htexts, hresults⟩ := finite_unless_overflows
  have honly : ∀ {branch only : Branch}, branch.Decides f [only] → branch = only := by
    intro branch only hdecides
    obtain ⟨i, hi, -⟩ := hdecides
    exact List.mem_singleton.mp (List.mem_of_getElem? hi)
  obtain ⟨branch, hdecides, -, hinfinite⟩ := hresults [small] f hf _ hsmall
  obtain ⟨branch', hdecides', hfinite', -⟩ := hresults [large] f hf _ hlarge
  cases honly hdecides
  cases honly hdecides'
  refine ⟨hread, ?_, hf, hsmall, ?_, hlarge, ?_⟩
  · exact ((htexts _ _ hread).2.1).mp (by decide +kernel)
  · intro hoverflows
    have hx := (hinfinite hoverflows).1
    exact absurd hx (by decide +kernel)
  · by_contra hnot
    exact absurd (hfinite' hnot).1 (by decide)

/-- A numeral beyond the finite numbers is read as infinity, also where it is a result. -/
theorem infinite_numeral :
    Double.ofText? "1e999" = some .infinity ∧ Double.infinity.isFinite = false ∧
      ∃ f : Feature, f.Finite ∧
        (conditions [⟨"true", "1e999"⟩]).evaluate f = some (.number .infinity) ∧
        (Value.number .infinity).toJson = .null := by
  refine ⟨by decide +kernel, by decide +kernel, .ofId ⟨"f"⟩, ?_, ?_, ?_⟩
  · intro name x h
    cases h
  · rw [Authoring.evaluate_true]
    rfl
  · rfl

end Expression
end FeatureStyle
