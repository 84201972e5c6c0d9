import FeatureStyle.Choice.Basic

/-!
# What an expression depends on

An expression depends on the scalar properties that it names and on nothing else of a feature. The
text of a property is put in place as it stands, as a constant of a condition and as a piece of a
result: what it spells is never read as a placeholder or as a part of a condition. The main
statement is `determined_by_names`.
-/

namespace FeatureStyle

namespace Feature

/-- Under each of some names two features have the same scalar property, or both have none. -/
def AgreeOn (names : List String) (f g : Feature) : Prop :=
  ∀ name ∈ names, f.scalar? name = g.scalar? name

private theorem AgreeOn.mono {names names' : List String} {f g : Feature} (h : AgreeOn names f g)
    (hsubset : names' ⊆ names) : AgreeOn names' f g :=
  fun name hname => h name (hsubset hname)

end Feature

namespace Condition

variable {f g : Feature}

/-- The properties that a condition names. -/
def names : Condition → List String
  | constant _ => []
  | property name => [name]
  | not part | minus part => part.names
  | binary _ lhs rhs => lhs.names ++ rhs.names

def fix (name : String) (a : Scalar) : Condition → Condition
  | constant b => constant b
  | property other => if other = name then constant a else property other
  | not part => not (part.fix name a)
  | minus part => minus (part.fix name a)
  | binary op lhs rhs => binary op (lhs.fix name a) (rhs.fix name a)

theorem value_binary {op : Operator} {lhs rhs lhs' rhs' : Condition}
    (hl : lhs.value f = lhs'.value g) (hr : rhs.value f = rhs'.value g) :
    (binary op lhs rhs).value f = (binary op lhs' rhs').value g := by
  cases op <;> simp only [value, hl, hr]

private theorem value_of_agree {c : Condition} (h : Feature.AgreeOn c.names f g) :
    c.value f = c.value g := by
  induction c with
  | constant a => rfl
  | property name => rw [value_property, value_property, h name List.mem_cons_self]
  | not part ih => rw [value, value, ih h]
  | minus part ih => rw [value, value, ih h]
  | binary op lhs rhs ihl ihr =>
    apply value_binary
    · exact ihl (h.mono (List.subset_append_left _ _))
    · exact ihr (h.mono (List.subset_append_right _ _))

theorem value_set (f : Feature) (name text : String) (c : Condition) :
    c.value (f.set name (.string text)) = (c.fix name (.string text)).value f := by
  induction c with
  | constant a => rfl
  | property other =>
    rw [fix]
    by_cases h : other = name
    · rw [if_pos h, h, value_property, f.scalar?_set_self name rfl]
      rfl
    · rw [if_neg h, value_property, value_property, f.scalar?_set_of_ne _ (Ne.symm h)]
  | not part ih => rw [fix, value, value, ih]
  | minus part ih => rw [fix, value, value, ih]
  | binary op lhs rhs ihl ihr => exact value_binary ihl ihr

end Condition

namespace Template

variable {f g : Feature}

def names (t : Template) : List String :=
  t.filterMap fun part =>
    match part with
    | .property name => some name
    | .text _ => none

private theorem mem_names {t : Template} {name : String} : name ∈ t.names ↔ .property name ∈ t := by
  rw [names, List.mem_filterMap]
  constructor
  · rintro ⟨part, hpart, hname⟩
    cases part with
    | text s => cases hname
    | property other =>
      cases hname
      exact hpart
  · intro h
    exact ⟨_, h, rfl⟩

private theorem render_of_agree {t : Template} (h : Feature.AgreeOn t.names f g) :
    t.render f = t.render g := by
  have hparts : t.map (substitute f) = t.map (substitute g) := by
    apply List.map_congr_left
    intro part hpart
    cases part with
    | text s => rfl
    | property name => rw [substitute, substitute, h name (mem_names.mpr hpart)]
  unfold render
  split
  · rename_i name
    rw [h name List.mem_cons_self]
  · rw [hparts]

/-- The pieces of a result with the text of a property put in all its places, and the other
properties of a feature in theirs. -/
def pieces (name text : String) (f : Feature) (t : Template) : List String :=
  t.map fun part => if part = .property name then text else substitute f part

/-- The value of a template with a text for a property. -/
def renderWith (name text : String) (f : Feature) (t : Template) : Value :=
  if name ∈ t.names then Value.ofText (String.join (t.pieces name text f)) else t.render f

private theorem map_substitute_set (f : Feature) (name text : String) (t : Template) :
    t.map (substitute (f.set name (.string text))) = t.pieces name text f := by
  apply List.map_congr_left
  intro part _
  cases part with
  | text s => rfl
  | property other =>
    by_cases h : other = name
    · rw [if_pos (congrArg _ h), h, substitute, f.scalar?_set_self name rfl]
      rfl
    · rw [if_neg (by simpa using h), substitute, substitute, f.scalar?_set_of_ne _ (Ne.symm h)]

private theorem render_set (f : Feature) (name text : String) (t : Template) :
    t.render (f.set name (.string text)) = t.renderWith name text f := by
  rw [renderWith]
  split
  · rename_i hname
    rw [← map_substitute_set]
    unfold render
    split
    · -- The placeholder is all there is, so it is the one for the text.
      rename_i other
      have hother : name = other := by simpa [mem_names] using hname
      have hscalar : (f.set name (.string text)).scalar? other = some (.string text) :=
        hother ▸ f.scalar?_set_self name rfl
      simp only [List.map_cons, List.map_nil, substitute, hscalar]
      simp [String.join, Value.text]
    · rfl
  · rename_i hname
    apply render_of_agree
    intro other hother
    have hne : name ≠ other := fun heq => hname (heq ▸ hother)
    exact f.scalar?_set_of_ne _ hne

end Template

namespace ParsedBranch

variable {f g : Feature}

def names (branch : ParsedBranch) : List String :=
  (match branch.condition with
    | .ok condition => condition.names
    | .error _ => []) ++ branch.result.names

/-- Whether a branch holds with a text for a property. -/
def holdsWith (name text : String) (f : Feature) (branch : ParsedBranch) : Bool :=
  match branch.condition with
  | .ok condition => (condition.fix name (.string text)).holds f
  | .error _ => false

private theorem holds_of_agree {branch : ParsedBranch} (h : Feature.AgreeOn branch.names f g) :
    branch.holds f = branch.holds g := by
  rw [names] at h
  rw [holds, holds]
  cases hcondition : branch.condition with
  | error e => rfl
  | ok condition =>
    rw [hcondition] at h
    have hvalue := Condition.value_of_agree (h.mono (List.subset_append_left _ _))
    exact congrArg Scalar.toBool hvalue

private theorem holds_set (f : Feature) (name text : String) (branch : ParsedBranch) :
    branch.holds (f.set name (.string text)) = branch.holdsWith name text f := by
  rw [holds, holdsWith]
  cases branch.condition with
  | ok condition => exact congrArg Scalar.toBool (condition.value_set f name text)
  | error e => rfl

end ParsedBranch

namespace Choice

variable {f g : Feature}

def names (choice : Choice) : List String := choice.flatMap ParsedBranch.names

/-- The result of the first branch that holds, with a text for a property. -/
def evaluateWith (name text : String) (f : Feature) (choice : Choice) : Option Value :=
  (choice.find? fun branch => branch.holdsWith name text f).map fun branch =>
    branch.result.renderWith name text f

private theorem agreeOn_of_mem {choice : Choice} (h : Feature.AgreeOn choice.names f g)
    {branch : ParsedBranch} (hbranch : branch ∈ choice) : Feature.AgreeOn branch.names f g :=
  h.mono fun _ hname => List.mem_flatMap.mpr ⟨branch, hbranch, hname⟩

private theorem selected?_of_agree {choice : Choice} (h : Feature.AgreeOn choice.names f g) :
    choice.selected? f = choice.selected? g := by
  have hholds : choice.map (fun branch => branch.holds f) =
      choice.map fun branch => branch.holds g := by
    apply List.map_congr_left
    intro branch hbranch
    exact ParsedBranch.holds_of_agree (agreeOn_of_mem h hbranch)
  have hselected : ∀ f : Feature, choice.selected? f =
      (choice.map fun branch => branch.holds f).findIdx? id := by
    intro f
    rw [List.findIdx?_map]
    rfl
  rw [hselected, hselected, hholds]

private theorem evaluate_of_agree {choice : Choice} (h : Feature.AgreeOn choice.names f g) :
    choice.evaluate f = choice.evaluate g := by
  rw [evaluate_eq_bind_selected?, evaluate_eq_bind_selected?, selected?_of_agree h]
  congr
  funext index
  cases hbranch : choice[index]? with
  | none => rfl
  | some branch =>
    have hagree := agreeOn_of_mem h (List.mem_of_getElem? hbranch)
    exact congrArg some (Template.render_of_agree (hagree.mono (List.subset_append_right _ _)))

private theorem evaluate_set (f : Feature) (name text : String) (choice : Choice) :
    choice.evaluate (f.set name (.string text)) = choice.evaluateWith name text f := by
  rw [evaluate, evaluateWith]
  simp only [ParsedBranch.holds_set, Template.render_set]

end Choice

namespace Expression

/-- The properties that an expression names, in conditions that can be read and in results. -/
def names : Expression Value → List String
  | constant _ => []
  | conditions branches => (Choice.ofBranches branches).names

/-- The value of an expression with a text for a property, which is put in place after all branches
have been read. -/
def evaluateWith (name text : String) (f : Feature) : Expression Value → Option Value
  | constant value => some value
  | conditions branches => (Choice.ofBranches branches).evaluateWith name text f

private theorem explain_of_agree {e : Expression Value} {f g : Feature}
    (h : Feature.AgreeOn e.names f g) : e.explain f = e.explain g := by
  cases e with
  | constant value => rfl
  | conditions branches =>
    have houtcome : ((conditions branches).explain f).outcome =
        ((conditions branches).explain g).outcome := by
      rw [outcome_explain, outcome_explain]
      exact Choice.evaluate_of_agree h
    have hselected : ((conditions branches).explain f).selected =
        ((conditions branches).explain g).selected := Choice.selected?_of_agree h
    show Evaluation.mk _ _ _ = Evaluation.mk _ _ _
    rw [Evaluation.mk.injEq]
    exact ⟨houtcome, hselected, rfl⟩

/-- Features that agree on the scalar properties that an expression names have the same value, by
the same branch and with the same broken branches. A text that is the value of a property is put in
place as it is. -/
theorem determined_by_names {e : Expression Value} {f g : Feature}
    (h : Feature.AgreeOn e.names f g) :
    e.evaluate f = e.evaluate g ∧ e.explain f = e.explain g ∧
      ∀ name text, e.evaluate (f.set name (.string text)) = e.evaluateWith name text f := by
  have hexplain := explain_of_agree h
  refine ⟨?_, hexplain, ?_⟩
  · rw [← outcome_explain, hexplain, outcome_explain]
  · intro name text
    cases e with
    | constant value => rfl
    | conditions branches => exact Choice.evaluate_set f name text _

/-- The text of `x` spells a placeholder for `y`, which only one of the features has. -/
theorem determined_by_names_placeholder :
    let e : Expression Value := .conditions [⟨"$\x7bfeature.property.y\x7d >", "broken"⟩,
      ⟨"$\x7bfeature.property.x\x7d != 'a'", "<$\x7bfeature.property.x\x7d>"⟩]
    let f : Feature := ⟨⟨"f"⟩, [("x", .string "$\x7bfeature.property.y\x7d"), ("y", .number .one)]⟩
    let g : Feature := ⟨⟨"g"⟩, [("x", .string "$\x7bfeature.property.y\x7d")]⟩
    Feature.AgreeOn e.names f g ∧ (e.explain f).selected = some 1 ∧
      e.evaluate f = e.evaluate g ∧ e.explain f = e.explain g := by
  intro e f g
  have hnames : e.names = ["x", "x"] := by decide +kernel
  have h : Feature.AgreeOn e.names f g := by
    rw [hnames]
    intro name hname
    have hx : name = "x" := by simpa using hname
    subst hx
    rfl
  have hagree := determined_by_names h
  exact ⟨h, by decide +kernel, hagree.1, hagree.2.1⟩

/-- A text that spells a placeholder goes into the result as it is. -/
example :
    (Template.ofText "<$\x7bfeature.property.x\x7d>").render
        ⟨⟨"f"⟩, [("x", .string "$\x7bfeature.property.y\x7d"), ("y", .number .one)]⟩ =
      .string "<$\x7bfeature.property.y\x7d>" := by
  rfl

end Expression
end FeatureStyle
