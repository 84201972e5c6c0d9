import FeatureStyle.Proofs.Choice.Dependence
import FeatureStyle.Proofs.Text.Placeholder

/-!
# Results as substituted texts

Splitting a result into parts and putting the parts together for a feature is substituting the
placeholders in its text, one after the other from the left, and what is put in place is not looked
at again. The main statement is `render_eq_iff_rendered`.
-/

namespace FeatureStyle

open Text

/-- The text that stands for a property: that of its value if it is a scalar, and otherwise none. -/
def Feature.shown (f : Feature) (name : String) : List Char :=
  match f.get? name with
  | some v => if v.isScalar then v.text.toList else []
  | none => []

/-- A text, the properties that its placeholders name from left to right, and the text with these put
in place of them. A placeholder that names no property stays. -/
inductive Substituted (f : Feature) : List Char → List String → List Char → Prop
  | unclosed {text : List Char} : Unclosed text → Substituted f text [] text
  | property {text before inner rest out : List Char} {name : String} {names : List String} :
    First text before inner rest → Names inner name → Substituted f rest names out →
    Substituted f text (name :: names) (before ++ f.shown name ++ out)
  | other {text before inner rest out : List Char} {names : List String} :
    First text before inner rest → (∀ name, ¬ Names inner name) → Substituted f rest names out →
    Substituted f text names (before ++ enclosed inner ++ out)

/-- A text that is a placeholder and nothing else. -/
def Alone (text : List Char) (name : String) : Prop :=
  ∃ inner, text = enclosed inner ∧ '\x7d' ∉ inner ∧ Names inner name

/-- A placeholder that stands alone, for a property that is null, a boolean or a number. -/
def Kept (f : Feature) (text : List Char) (v : Value) : Prop :=
  ∃ name, Alone text name ∧ f.get? name = some v ∧ v.isScalar = true ∧ v.string? = none

/-- The value of a result: a property for which nothing but a placeholder stands there, or else what
the substituted text is read as. -/
inductive Rendered (f : Feature) (text : List Char) : Value → Prop
  | kept {v : Value} : Kept f text v → Rendered f text v
  | substituted {names : List String} {out : List Char} : (∀ v, ¬ Kept f text v) →
    Substituted f text names out → Rendered f text (Value.ofText (String.ofList out))

variable {f : Feature} {text before inner rest pending out : List Char} {name : String}
  {names : List String} {fuel : Nat}

namespace Substituted

theorem exists_out (f : Feature) (text : List Char) :
    ∃ names out, Substituted f text names out := by
  rcases first_or_unclosed text with ⟨before, inner, rest, hfirst⟩ | hunclosed
  · have hlt := hfirst.rest_length
    obtain ⟨names, out, hrest⟩ := exists_out f rest
    by_cases hname : ∃ name, Names inner name
    · obtain ⟨name, hname⟩ := hname
      exact ⟨_, _, .property hfirst hname hrest⟩
    · exact ⟨_, _, .other hfirst (not_exists.mp hname) hrest⟩
  · exact ⟨_, _, .unclosed hunclosed⟩
termination_by text.length

private theorem enclosed_ne_nil (inner : List Char) : enclosed inner ≠ [] := by
  simp [enclosed]

private theorem eq_nil (h : Substituted f text [] []) : text = [] := by
  generalize hout : ([] : List Char) = out at h
  cases h with
  | unclosed _ => rfl
  | other _ _ _ =>
    simp only [List.nil_eq, List.append_eq_nil_iff] at hout
    exact absurd hout.1.2 (enclosed_ne_nil _)

private theorem alone (h : Substituted f text [name] []) : Alone text name := by
  generalize hout : ([] : List Char) = out at h
  cases h with
  | property hfirst hname hrest =>
    simp only [List.nil_eq, List.append_eq_nil_iff] at hout
    obtain ⟨⟨rfl, -⟩, rfl⟩ := hout
    obtain rfl := hrest.eq_nil
    exact ⟨_, by simpa using hfirst.eq, hfirst.unclosed, hname⟩
  | other _ _ _ =>
    simp only [List.nil_eq, List.append_eq_nil_iff] at hout
    exact absurd hout.1.2 (enclosed_ne_nil _)

private theorem behind {s t : List Char} (h : Substituted f t names out) (hs : ¬ opening <:+: s)
    (hend : s.getLast? ≠ some '$') : Substituted f (s ++ t) names (s ++ out) := by
  have hopening : ∀ {t before behind}, s ++ t = before ++ opening ++ behind →
      ∃ more, before = s ++ more ∧ t = more ++ opening ++ behind := by
    intro t before behind heq
    rcases opening_append heq with ⟨more, rfl, -⟩ | ⟨rfl, -⟩ | hmore
    · exact absurd (List.infix_append before opening more) hs
    · simp at hend
    · exact hmore
  have hfirst : ∀ {before inner rest}, First t before inner rest →
      First (s ++ t) (s ++ before) inner rest := by
    intro before inner rest hfirst
    refine ⟨by simp [hfirst.eq], ?_, hfirst.unclosed⟩
    rintro ⟨before', behind, heq⟩
    obtain ⟨more, -, hmore⟩ := hopening heq.symm
    exact hfirst.unopened ⟨more, behind, hmore.symm⟩
  cases h with
  | unclosed hunclosed =>
    refine .unclosed fun before behind heq => ?_
    obtain ⟨more, -, hmore⟩ := hopening heq
    exact hunclosed _ _ hmore
  | property h hname hrest => simpa using Substituted.property (hfirst h) hname hrest
  | other h hname hrest => simpa using Substituted.other (hfirst h) hname hrest

/-- Behind a text whose openings are all closed, substitution goes on as if nothing stood there. -/
theorem append {s t out' : List Char} {names' : List String} (h : Substituted f s names out)
    (hclosed : Closed s) (hend : s.getLast? ≠ some '$') (ht : Substituted f t names' out') :
    Substituted f (s ++ t) (names ++ names') (out ++ out') := by
  induction h with
  | unclosed hunclosed =>
    refine ht.behind ?_ hend
    rintro ⟨before, behind, heq⟩
    exact hunclosed before behind heq.symm (hclosed before behind heq.symm)
  | property hfirst hname _ ih =>
    have happend := ih (hfirst.closed_rest hclosed) (hfirst.getLast?_rest hend)
    simpa using Substituted.property (hfirst.append t) hname happend
  | other hfirst hname _ ih =>
    have happend := ih (hfirst.closed_rest hclosed) (hfirst.getLast?_rest hend)
    simpa using Substituted.other (hfirst.append t) hname happend

end Substituted

theorem Feature.scalar?_eq_some_iff {v : Value} :
    f.scalar? name = some v ↔ f.get? name = some v ∧ v.isScalar = true := by
  rw [scalar?, Option.filter_eq_some_iff]

namespace Template

def filled (f : Feature) (t : Template) : List Char :=
  t.flatMap fun part => (substitute f part).toList

private theorem toList_join_substitute (f : Feature) (t : Template) :
    (String.join (t.map (substitute f))).toList = t.filled f := by
  rw [String.toList_join, List.flatMap_map, filled]

private theorem toList_substitute_property (f : Feature) (name : String) :
    (substitute f (.property name)).toList = f.shown name := by
  rw [substitute, Feature.shown, Feature.scalar?]
  cases f.get? name with
  | none => rfl
  | some v => cases h : v.isScalar <;> simp [Option.filter, h]

private theorem filled_ofPlain (f : Feature) (text : List Char) :
    (ofPlain text).filled f = text := by
  rw [ofPlain]
  split
  · rename_i h
    rw [List.isEmpty_iff.mp h]
    rfl
  · simp [filled, substitute]

private theorem names_ofPlain (text : List Char) : (ofPlain text).names = [] := by
  rw [ofPlain]
  split <;> rfl

theorem parts_unclosed (h : Unclosed text) :
    parts fuel pending text = ofPlain (pending ++ text) := by
  cases fuel with
  | zero => rfl
  | succ fuel =>
    rw [parts]
    cases hopening : splitOpening? text with
    | none => rfl
    | some split =>
      obtain ⟨before, behind⟩ := split
      have hclosing := h before behind (of_splitOpening? hopening).1
      simp only [splitClosing?_eq_none_iff.mpr hclosing]

private theorem parts_first (h : First text before inner rest) :
    parts (fuel + 1) pending text =
      match propertyName? inner with
      | some name => ofPlain (pending ++ before) ++ .property name :: parts fuel [] rest
      | none => parts fuel (pending ++ before ++ enclosed inner) rest := by
  have hopening : splitOpening? text = some (before, inner ++ '\x7d' :: rest) := by
    rw [← splitOpening?_of_unopened h.unopened, h.eq]
    simp [enclosed]
  have hclosing : splitClosing? (inner ++ '\x7d' :: rest) = some (inner, rest) :=
    splitClosing?_eq_some_iff.mpr ⟨rfl, h.unclosed⟩
  simp only [parts, hopening, hclosing]
  cases propertyName? inner <;> simp [enclosed, opening]

theorem parts_property (h : First text before inner rest) (hname : Names inner name) :
    parts (fuel + 1) pending text =
      ofPlain (pending ++ before) ++ .property name :: parts fuel [] rest := by
  rw [parts_first h, propertyName?_eq_some_iff.mpr hname]

theorem parts_other (h : First text before inner rest) (hname : ∀ name, ¬ Names inner name) :
    parts (fuel + 1) pending text = parts fuel (pending ++ before ++ enclosed inner) rest := by
  have hnone : propertyName? inner = none :=
    Option.eq_none_iff_forall_ne_some.mpr fun name heq =>
      hname name (propertyName?_eq_some_iff.mp heq)
  rw [parts_first h, hnone]

private theorem names_property (before : List Char) (name : String) (t : Template) :
    (ofPlain before ++ .property name :: t).names = name :: t.names := by
  have hplain := names_ofPlain before
  rw [Template.names] at hplain ⊢
  rw [List.filterMap_append, hplain]
  rfl

private theorem filled_property (f : Feature) (before : List Char) (name : String) (t : Template) :
    (ofPlain before ++ .property name :: t).filled f = before ++ f.shown name ++ t.filled f := by
  have hplain := filled_ofPlain f before
  rw [filled] at hplain
  rw [filled, List.flatMap_append, hplain, List.flatMap_cons, toList_substitute_property,
    List.append_assoc, filled]

/-- The parts of a text are those of the substitution, behind any plain text. -/
theorem parts_of_substituted (h : Substituted f text names out) :
    ∀ (fuel : Nat) (pending : List Char), text.length ≤ fuel →
      (parts fuel pending text).names = names ∧
        (parts fuel pending text).filled f = pending ++ out := by
  induction h with
  | unclosed hunclosed =>
    intro fuel pending _
    rw [parts_unclosed hunclosed, names_ofPlain, filled_ofPlain]
    exact ⟨rfl, rfl⟩
  | property hfirst hname _ ih =>
    intro fuel pending hfuel
    have hlt := hfirst.rest_length
    cases fuel with
    | zero => omega
    | succ fuel =>
      obtain ⟨hnames, hfilled⟩ := ih fuel [] (by omega)
      rw [parts_property hfirst hname, names_property, filled_property, hnames, hfilled]
      exact ⟨rfl, by simp⟩
  | other hfirst hname _ ih =>
    intro fuel pending hfuel
    have hlt := hfirst.rest_length
    cases fuel with
    | zero => omega
    | succ fuel =>
      obtain ⟨hnames, hfilled⟩ := ih fuel _ (by omega)
      rw [parts_other hfirst hname, hnames, hfilled]
      exact ⟨rfl, by simp⟩

theorem ofText_of_substituted {source : String} (h : Substituted f source.toList names out) :
    (ofText source).names = names ∧ (ofText source).filled f = out :=
  parts_of_substituted h _ [] (Nat.le_refl _)

theorem ofText_eq_property_iff {source : String} :
    ofText source = [.property name] ↔ Alone source.toList name := by
  constructor
  · intro h
    -- A feature without properties leaves nothing of the placeholder.
    obtain ⟨names, out, hsubstituted⟩ := Substituted.exists_out (.ofId ⟨""⟩) source.toList
    obtain ⟨hnames, hfilled⟩ := ofText_of_substituted hsubstituted
    rw [h] at hnames hfilled
    obtain rfl : [name] = names := hnames
    obtain rfl : [] = out := hfilled
    exact hsubstituted.alone
  · rintro ⟨inner, htext, hunclosed, hname⟩
    have hfirst : First source.toList [] inner [] :=
      ⟨by simpa using htext, by simp [opening], hunclosed⟩
    have hlt := hfirst.rest_length
    rw [ofText]
    cases hfuel : source.toList.length with
    | zero => omega
    | succ fuel =>
      rw [parts_property hfirst hname, parts_unclosed unclosed_nil]
      rfl

theorem render_of_kept {source : String} {v : Value} (h : Kept f source.toList v) :
    (ofText source).render f = v := by
  obtain ⟨name, halone, hget, hscalar, hstring⟩ := h
  rw [ofText_eq_property_iff.mpr halone, render, Feature.scalar?_eq_some_iff.mpr ⟨hget, hscalar⟩]
  cases v with
  | string s => cases hstring
  | _ => rfl

theorem render_of_not_kept {source : String} (h : ∀ v, ¬ Kept f source.toList v) :
    (ofText source).render f = Value.ofText (String.ofList ((ofText source).filled f)) := by
  rw [← toList_join_substitute, String.ofList_toList]
  unfold render
  split
  · rename_i name hsingle
    have halone := ofText_eq_property_iff.mp hsingle
    cases hscalar : f.scalar? name with
    | none => simp [hsingle, substitute, hscalar, String.join]
    | some v =>
      obtain ⟨hget, hv⟩ := Feature.scalar?_eq_some_iff.mp hscalar
      cases v with
      | string s => simp [hsingle, substitute, hscalar, String.join, Value.text]
      | _ => exact absurd ⟨name, halone, hget, hv, rfl⟩ (h _)
  · rfl

/-- A result is rendered as the substitution of its placeholders says. If the openings of a text are
closed in it, and no other text can make an opening of its end, then the properties of the two texts
put together are those of the one and then those of the other. -/
theorem render_eq_iff_rendered :
    (∀ (source : String) (f : Feature) (v : Value),
      (ofText source).render f = v ↔ Rendered f source.toList v) ∧
    ∀ s t : String, Closed s.toList → s.toList.getLast? ≠ some '$' →
      (ofText (s ++ t)).names = (ofText s).names ++ (ofText t).names := by
  constructor
  · intro source f v
    constructor
    · rintro rfl
      by_cases hkept : ∃ v, Kept f source.toList v
      · obtain ⟨v, hkept⟩ := hkept
        rw [render_of_kept hkept]
        exact .kept hkept
      · have hkept := not_exists.mp hkept
        obtain ⟨names, out, hsubstituted⟩ := Substituted.exists_out f source.toList
        rw [render_of_not_kept hkept, (ofText_of_substituted hsubstituted).2]
        exact .substituted hkept hsubstituted
    · rintro (hkept | ⟨hkept, hsubstituted⟩)
      · exact render_of_kept hkept
      · rw [render_of_not_kept hkept, (ofText_of_substituted hsubstituted).2]
  · intro s t hclosed hend
    obtain ⟨names, out, hs⟩ := Substituted.exists_out (.ofId ⟨""⟩) s.toList
    obtain ⟨names', out', ht⟩ := Substituted.exists_out (.ofId ⟨""⟩) t.toList
    have happend := hs.append hclosed hend ht
    rw [← String.toList_append] at happend
    rw [(ofText_of_substituted hs).1, (ofText_of_substituted ht).1,
      (ofText_of_substituted happend).1]

/-- The first text has a placeholder of each kind, the second one with blanks in it. -/
theorem render_eq_iff_rendered_joined :
    let s := "$\x7bfeature.property.a\x7d$ of $\x7bheight\x7d"
    let t := "m $\x7b feature.property.b \x7d"
    Closed s.toList ∧ s.toList.getLast? ≠ some '$' ∧ (ofText (s ++ t)).names = ["a", "b"] := by
  intro s t
  have hlast : s.toList.getLast? = some '\x7d' := by decide +kernel
  have hclosed : Closed s.toList := closed_of_getLast? hlast
  have hend : s.toList.getLast? ≠ some '$' := by
    rw [hlast]
    decide
  refine ⟨hclosed, hend, ?_⟩
  rw [render_eq_iff_rendered.2 s t hclosed hend]
  decide +kernel

end Template
end FeatureStyle
