import FeatureStyle.Choice.Basic
import FeatureStyle.Proofs.Choice.Substitution
import FeatureStyle.Proofs.Condition.Literal
import FeatureStyle.Proofs.Numeral.Printing

/-!
# Bare results

A number or a boolean in the place of a result is kept as it is spelled. Its spelling has no
placeholder in it and is read back as the same number or boolean, with every faithful printer of
numbers. The main statement is `Authoring.evaluate_always`.
-/

namespace FeatureStyle

open Text

variable {f : Feature}

private theorem Text.unclosed_of_not_mem {text : List Char} (h : '$' ∉ text) : Unclosed text := by
  rintro before behind rfl
  exact absurd (by simp [opening]) h

theorem Template.render_of_unclosed {source : String} (h : Unclosed source.toList) :
    (ofText source).render f = Value.ofText source := by
  have hkept : ∀ v, ¬ Kept f source.toList v := by
    rintro v ⟨name, ⟨inner, halone, -, -⟩, -⟩
    exact h [] (inner ++ ['\x7d']) (by rw [halone, enclosed, List.nil_append, List.append_assoc])
      (List.mem_append_right _ List.mem_cons_self)
  rw [render_of_not_kept hkept, (ofText_of_substituted (.unclosed h)).2, String.ofList_toList]

theorem Value.ofText_of_denotes {text : String} {x : Double}
    (h : Numeral.Denotes text.toList x) : Value.ofText text = .number x := by
  obtain ⟨hne, hunblank⟩ := h.unblank
  have htrim : trim ([] ++ text.toList ++ []) = text.toList :=
    trim_append hne (by simp) hunblank (by simp)
  rw [List.nil_append, List.append_nil] at htrim
  rw [ofText, htrim]
  simp only [Numeral.read?_eq_some_iff.mpr h]

namespace Authoring

/-- A result that is a boolean or a number and no text. -/
inductive Bare : Json → Prop
  | bool (b : Bool) : Bare (.bool b)
  | number {n : JsonNumber} : n.fits = true → Bare (.number n)

/-- The document of an expression with one branch, whose condition always holds. -/
def always (result : Json) : Json :=
  .object [(expressionMember,
    .object [(conditionsMember, .array [.array [.string "true", result]])])]

private theorem ofJson_always [NumberPrinter] {result : Json} {text : String}
    (h : resultText? result = some text) :
    Value.ofJson (always result) = .expression (.conditions [⟨"true", text⟩]) := by
  have hbranch : branch? (.array [.string "true", result]) = some ⟨"true", text⟩ := by
    rw [branch?, h, Option.map_some]
  have hconditions : payload? (.object [(conditionsMember,
      .array [.array [.string "true", result]])]) = some (.conditions [⟨"true", text⟩]) := by
    rw [payload?, Fields.get?, Table.get?, if_pos rfl]
    simp only [List.filterMap_cons, hbranch, List.filterMap_nil]
  rw [always, Value.ofJson, expression?, if_pos rfl, hconditions]

theorem evaluate_true (text : String) (f : Feature) :
    (Expression.conditions [⟨"true", text⟩]).evaluate f =
      some ((Template.ofText text).render f) := by
  have hparse : Condition.parse "true" = .ok (.constant (.bool true)) := by decide +kernel
  have hholds : (ParsedBranch.ofBranch ⟨"true", text⟩).holds f = true := by
    rw [ParsedBranch.holds, ParsedBranch.ofBranch, hparse]
    rfl
  rw [Expression.evaluate, Choice.ofBranches, List.map_singleton, Choice.evaluate,
    List.find?_singleton, if_pos hholds]
  rfl

/-- The text of a bare result has no placeholder and is read as what it stands for. -/
theorem Bare.text [printer : NumberPrinter] (hprinter : printer.Faithful) {result : Json}
    (h : Bare result) :
    ∃ text, resultText? result = some text ∧ Unclosed text.toList ∧
      Value.ofText text = Value.ofJson result := by
  cases h with
  | bool b => cases b <;> exact ⟨_, rfl, unclosed_of_not_mem (by decide), rfl⟩
  | @number n hfits =>
    have hdenotes := hprinter.denotes hfits
    have hplain : '$' ∉ (printer.text n).toList := fun hmem =>
      (hdenotes.isDigit_or_mark '$' hmem).elim (by decide) (by decide)
    exact ⟨_, rfl, unclosed_of_not_mem hplain, Value.ofText_of_denotes hdenotes⟩

/-- A bare result comes back as the value that it stands for, a number bit for bit. -/
theorem evaluate_always [printer : NumberPrinter] (hprinter : printer.Faithful) {result : Json}
    (h : Bare result) (f : Feature) :
    ∃ e, Value.ofJson (always result) = .expression e ∧
      e.evaluate f = some (Value.ofJson result) := by
  obtain ⟨text, htext, hunclosed, hvalue⟩ := h.text hprinter
  refine ⟨_, ofJson_always htext, ?_⟩
  rw [evaluate_true, Template.render_of_unclosed hunclosed, hvalue]

/-- With the printer of a session, the largest integer is rounded as it is where it stands for itself,
and the negative number next to zero, whose spelling has a sign and an exponent, comes back. -/
theorem evaluate_always_extremes :
    let largest : Json := .number (.integer 0xFFFFFFFFFFFFFFFF)
    let least : Json := .number (.double ⟨true, 1⟩)
    let f : Feature := .ofId ⟨"f"⟩
    NumberPrinter.document.Faithful ∧
    (Bare largest ∧ ∃ e, Value.ofJson (always largest) = .expression e ∧
      e.evaluate f = some (.number (.ofMagnitude false 0x43F0000000000000))) ∧
    Bare least ∧ ∃ e, Value.ofJson (always least) = .expression e ∧
      e.evaluate f = some (.number ⟨true, 1⟩) := by
  intro largest least f
  have hprinter := NumberPrinter.faithful_document
  have hlargest : Bare largest := .number (by decide)
  have hleast : Bare least := .number (by decide)
  have hrounded : Double.ofInt 0xFFFFFFFFFFFFFFFF = .ofMagnitude false 0x43F0000000000000 := by
    decide +kernel
  refine ⟨hprinter, ⟨hlargest, ?_⟩, hleast, evaluate_always hprinter hleast f⟩
  rw [← hrounded]
  exact evaluate_always hprinter hlargest f

end Authoring
end FeatureStyle
