import Mathlib.Data.List.Chain
import FeatureStyle.Proofs.Choice.Substitution
import FeatureStyle.Proofs.Condition.Spelling

/-!
# Templates written down

The parts of a text, written one after the other, are the text again, but for the blanks that its
placeholders have around the names of properties. Texts fall into parts of a canonical form, and what is
written for parts of this form falls into the same parts. The main statement is
`Template.ofText_canonical`.
-/

namespace FeatureStyle

open Text

/-- Two texts that only differ in the blanks at the ends of the inner texts of those placeholders that
name a property. -/
inductive Respaced : List Char → List Char → Prop
  | unclosed {text : List Char} : Unclosed text → Respaced text text
  | property {text before inner inner' rest rest' : List Char} {name : String} :
    First text before inner rest → Names inner name → '\x7d' ∉ inner' → trim inner' = trim inner →
      Respaced rest rest' → Respaced text (before ++ enclosed inner' ++ rest')
  | other {text before inner rest rest' : List Char} :
    First text before inner rest → (∀ name, ¬ Names inner name) → Respaced rest rest' →
      Respaced text (before ++ enclosed inner ++ rest')

inductive Nameless : List Char → Prop
  | unclosed {text : List Char} : Unclosed text → Nameless text
  | other {text before inner rest : List Char} :
    First text before inner rest → (∀ name, ¬ Names inner name) → Nameless rest → Nameless text

/-- A text of placeholders that name no property, and of what stands in front of each. -/
inductive Passed : List Char → Prop
  | nil : Passed []
  | other {text before inner : List Char} :
    Passed text → ¬ opening <:+: before → '\x7d' ∉ inner → (∀ name, ¬ Names inner name) →
      Passed (text ++ before ++ enclosed inner)

def TemplatePart.spelling : TemplatePart → List Char
  | .text s => s.toList
  | .property name => Lexeme.placeholder name

variable {text before inner rest pending : List Char} {name : String}

section Trimming

private theorem unblank_of_getLast?_trim {c : Char} (h : (trim text).getLast? = some c) :
    isBlank c = false := by
  rw [trim, trimEnd, List.getLast?_reverse] at h
  have hhead := List.head?_dropWhile_not isBlank (text.dropWhile isBlank).reverse
  rw [h] at hhead
  exact hhead

private theorem mem_of_mem_trim {c : Char} (h : c ∈ trim text) : c ∈ text := by
  rw [trim, trimEnd, List.mem_reverse] at h
  have hreverse := (List.dropWhile_sublist isBlank).subset h
  rw [List.mem_reverse] at hreverse
  exact (List.dropWhile_sublist isBlank).subset hreverse

theorem Text.Names.isName (h : Names inner name) (hunclosed : '\x7d' ∉ inner) :
    Lexeme.IsName name where
  nonempty := h.2
  unclosed := by
    intro hmem
    apply hunclosed
    apply mem_of_mem_trim
    rw [h.1]
    exact List.mem_append_right _ hmem
  unblank := by
    intro c hlast
    have htrim : (trim inner).getLast? = some c := by
      rw [h.1, List.getLast?_append, hlast, Option.some_or]
    exact unblank_of_getLast?_trim htrim

private theorem Lexeme.IsName.names (h : Lexeme.IsName name) :
    Names (propertyPrefix ++ name.toList) name :=
  ⟨Lexeme.trim_name h, h.nonempty⟩

private theorem Lexeme.IsName.unclosed_prefix (h : Lexeme.IsName name) :
    '\x7d' ∉ propertyPrefix ++ name.toList := by
  rw [List.mem_append, not_or]
  exact ⟨by decide, h.unclosed⟩

private theorem Lexeme.placeholder_eq (name : String) :
    Lexeme.placeholder name = enclosed (propertyPrefix ++ name.toList) := rfl

end Trimming

section Passing

private theorem Text.First.of_unopened (h : ¬ opening <:+: before) (hunclosed : '\x7d' ∉ inner)
    (rest : List Char) : First (before ++ enclosed inner ++ rest) before inner rest :=
  ⟨rfl, h, hunclosed⟩

private theorem Passed.nameless (h : Passed pending) (htext : Nameless text) :
    Nameless (pending ++ text) := by
  induction h generalizing text with
  | nil => exact htext
  | other _ hbefore hinner hname ih =>
    have hrest := ih (.other (First.of_unopened hbefore hinner text) hname htext)
    simpa using hrest

private theorem Passed.respaced {text' : List Char} (h : Passed pending)
    (htext : Respaced text text') :
    Respaced (pending ++ text) (pending ++ text') := by
  induction h generalizing text text' with
  | nil => exact htext
  | other _ hbefore hinner hname ih =>
    have hrest := ih (.other (First.of_unopened hbefore hinner text) hname htext)
    simpa using hrest

private theorem Passed.closed (h : Passed pending) (hbefore : ¬ opening <:+: before) :
    Closed (pending ++ before) := by
  intro front behind heq
  -- What was passed over ends with a closing brace: that closes what it opens, and no opening begins
  -- with it.
  rcases opening_append heq with ⟨more, hpending, hbehind⟩ | ⟨hpending, -⟩ | ⟨more, -, hmore⟩
  · cases h with
    | nil => simp [opening] at hpending
    | @other passed before' inner _ _ _ _ =>
      have hclosed : Closed (passed ++ before' ++ enclosed inner) :=
        closed_of_getLast? (by simp [enclosed])
      rw [hbehind]
      exact List.mem_append_left _ (hclosed front more hpending)
  · cases h with
    | nil => simp at hpending
    | other _ _ _ _ =>
      have hlast := congrArg List.getLast? hpending
      simp [enclosed] at hlast
  · exact absurd ⟨more, behind, hmore.symm⟩ hbefore

private theorem unclosed_of_unopened (h : ¬ opening <:+: text) : Unclosed text :=
  fun before behind heq => absurd ⟨before, behind, heq.symm⟩ h

private theorem unopened_of_closed (h : Unclosed text) (hclosed : Closed text) :
    ¬ opening <:+: text := by
  rintro ⟨before, behind, heq⟩
  exact h before behind heq.symm (hclosed before behind heq.symm)

end Passing

namespace Template

def spelling (t : Template) : List Char := t.flatMap TemplatePart.spelling

def written (t : Template) : String := String.ofList t.spelling

/-- What may stand behind a part: behind a text no text, and a property only where the openings in the
text are closed in it. -/
def Follows : TemplatePart → TemplatePart → Prop
  | .text _, .text _ => False
  | .text s, .property _ => Closed s.toList
  | .property _, _ => True

/-- No text is empty, and none has a placeholder that names a property; properties have names that can be
written; and no part stands where it cannot be told from the one in front. -/
structure Canonical (t : Template) : Prop where
  nonempty : .text "" ∉ t
  nameless : ∀ s, .text s ∈ t → Nameless s.toList
  named : ∀ name, .property name ∈ t → Lexeme.IsName name
  follows : t.IsChain Follows

/-- The parts of a text behind plain text. -/
inductive Parted : List Char → List Char → Template → Prop
  | unclosed {pending text : List Char} : Unclosed text →
    Parted pending text (ofPlain (pending ++ text))
  | property {pending text before inner rest : List Char} {name : String} {t : Template} :
    First text before inner rest → Names inner name → Parted [] rest t →
      Parted pending text (ofPlain (pending ++ before) ++ .property name :: t)
  | other {pending text before inner rest : List Char} {t : Template} :
    First text before inner rest → (∀ name, ¬ Names inner name) →
      Parted (pending ++ before ++ enclosed inner) rest t → Parted pending text t

variable {t : Template}

private theorem parted_parts (fuel : Nat) (pending text : List Char) (h : text.length ≤ fuel) :
    Parted pending text (parts fuel pending text) := by
  induction fuel generalizing pending text with
  | zero =>
    obtain rfl := List.eq_nil_of_length_eq_zero (Nat.eq_zero_of_le_zero h)
    exact .unclosed unclosed_nil
  | succ fuel ih =>
    rcases first_or_unclosed text with ⟨before, inner, rest, hfirst⟩ | hunclosed
    · have hlt := hfirst.rest_length
      have hrest : rest.length ≤ fuel := Nat.le_of_lt_succ (Nat.lt_of_lt_of_le hlt h)
      by_cases hname : ∃ name, Names inner name
      · obtain ⟨name, hname⟩ := hname
        rw [parts_property hfirst hname]
        exact .property hfirst hname (ih [] rest hrest)
      · rw [parts_other hfirst (not_exists.mp hname)]
        exact .other hfirst (not_exists.mp hname) (ih _ rest hrest)
    · rw [parts_unclosed hunclosed]
      exact .unclosed hunclosed

private theorem Parted.eq_parts (h : Parted pending text t) :
    ∀ fuel, text.length ≤ fuel → parts fuel pending text = t := by
  induction h with
  | unclosed hunclosed =>
    intro fuel _
    exact parts_unclosed hunclosed
  | property hfirst hname _ ih =>
    intro fuel hfuel
    have hlt := hfirst.rest_length
    cases fuel with
    | zero => omega
    | succ fuel => rw [parts_property hfirst hname, ih fuel (by omega)]
  | other hfirst hname _ ih =>
    intro fuel hfuel
    have hlt := hfirst.rest_length
    cases fuel with
    | zero => omega
    | succ fuel => rw [parts_other hfirst hname, ih fuel (by omega)]

section Spelling

private theorem spelling_ofPlain (text : List Char) : (ofPlain text).spelling = text := by
  rw [ofPlain]
  split
  · rename_i h
    rw [List.isEmpty_iff.mp h]
    rfl
  · simp [spelling, TemplatePart.spelling]

private theorem spelling_property (before : List Char) (name : String) (t : Template) :
    (ofPlain before ++ .property name :: t).spelling =
      before ++ enclosed (propertyPrefix ++ name.toList) ++ t.spelling := by
  have hplain := spelling_ofPlain before
  rw [spelling] at hplain
  rw [spelling, List.flatMap_append, hplain, List.flatMap_cons, TemplatePart.spelling,
    Lexeme.placeholder_eq, List.append_assoc, spelling]

theorem Parted.respaced (h : Parted pending text t) (hpending : Passed pending) :
    Respaced (pending ++ text) t.spelling := by
  induction h with
  | unclosed hunclosed =>
    rw [spelling_ofPlain]
    exact hpending.respaced (.unclosed hunclosed)
  | property hfirst hname _ ih =>
    have hwritable := hname.isName hfirst.unclosed
    rw [spelling_property, List.append_assoc, List.append_assoc]
    refine hpending.respaced ?_
    rw [← List.append_assoc]
    exact .property hfirst hname hwritable.unclosed_prefix
      (hwritable.names.1.trans hname.1.symm) (ih .nil)
  | other hfirst hname _ ih =>
    have hrest := ih (.other hpending hfirst.unopened hfirst.unclosed hname)
    rw [hfirst.eq]
    simpa using hrest

end Spelling

section Form

private theorem ofPlain_toList {s : String} (h : s ≠ "") : ofPlain s.toList = [.text s] := by
  simp [ofPlain, h]

private theorem ofPlain_eq (text : List Char) :
    text = [] ∧ ofPlain text = [] ∨
      ∃ s : String, s ≠ "" ∧ s.toList = text ∧ ofPlain text = [.text s] := by
  by_cases h : text = []
  · exact .inl ⟨h, by rw [h]; rfl⟩
  · have hne : String.ofList text ≠ "" := by simpa using h
    have hplain := ofPlain_toList hne
    rw [String.toList_ofList] at hplain
    exact .inr ⟨_, hne, String.toList_ofList, hplain⟩

private theorem canonical_nil : Canonical [] where
  nonempty := by simp
  nameless := by simp
  named := by simp
  follows := .nil

private theorem Canonical.tail {part : TemplatePart} (h : Canonical (part :: t)) : t.Canonical where
  nonempty := fun hmem => h.nonempty (List.mem_cons_of_mem _ hmem)
  nameless := fun s hmem => h.nameless s (List.mem_cons_of_mem _ hmem)
  named := fun name hmem => h.named name (List.mem_cons_of_mem _ hmem)
  follows := h.follows.tail

private theorem Canonical.property (h : t.Canonical) (hname : Lexeme.IsName name) :
    Canonical (.property name :: t) where
  nonempty := by simpa using h.nonempty
  nameless := by simpa using h.nameless
  named := by simpa [hname] using h.named
  follows := by
    cases t with
    | nil => exact .singleton _
    | cons part t => exact .cons_cons trivial h.follows

private theorem Canonical.plain {s : String} (h : t.Canonical) (hne : s ≠ "")
    (hs : Nameless s.toList)
    (hfollows : (TemplatePart.text s :: t).IsChain Follows) : Canonical (.text s :: t) where
  nonempty := by
    rw [List.mem_cons, not_or]
    exact ⟨fun heq => hne (TemplatePart.text.inj heq).symm, h.nonempty⟩
  nameless := by simpa [hs] using h.nameless
  named := by simpa using h.named
  follows := hfollows

private theorem canonical_ofPlain (h : Nameless text) : (ofPlain text).Canonical := by
  rcases ofPlain_eq text with ⟨-, hplain⟩ | ⟨s, hne, rfl, hplain⟩
  · exact hplain ▸ canonical_nil
  · exact hplain ▸ canonical_nil.plain hne h (.singleton _)

private theorem Canonical.plain_property (h : t.Canonical) (hname : Lexeme.IsName name)
    (htext : Nameless text) (hclosed : Closed text) :
    Canonical (ofPlain text ++ .property name :: t) := by
  have hproperty := h.property hname
  rcases ofPlain_eq text with ⟨-, hplain⟩ | ⟨s, hne, rfl, hplain⟩
  · exact hplain ▸ hproperty
  · exact hplain ▸ hproperty.plain hne htext (.cons_cons hclosed hproperty.follows)

/-- The parts of a text are of the canonical form. -/
theorem Parted.canonical (h : Parted pending text t) (hpending : Passed pending) : t.Canonical := by
  induction h with
  | unclosed hunclosed => exact canonical_ofPlain (hpending.nameless (.unclosed hunclosed))
  | property hfirst hname _ ih =>
    refine (ih .nil).plain_property (hname.isName hfirst.unclosed) ?_ ?_
    · exact hpending.nameless (.unclosed (unclosed_of_unopened hfirst.unopened))
    · exact hpending.closed hfirst.unopened
  | other hfirst hname _ ih =>
    exact ih (.other hpending hfirst.unopened hfirst.unclosed hname)

end Form

section Reading

private theorem parted_of_nameless (h : Nameless text) (pending : List Char) :
    Parted pending text (ofPlain (pending ++ text)) := by
  induction h generalizing pending with
  | unclosed hunclosed => exact .unclosed hunclosed
  | @other text before inner rest hfirst hname _ ih =>
    have hrest := ih (pending ++ before ++ enclosed inner)
    refine .other hfirst hname ?_
    rw [hfirst.eq]
    simpa using hrest

private theorem Parted.of_nameless_property (h : Parted [] rest t) (hname : Lexeme.IsName name)
    (htext : Nameless text) (hclosed : Closed text) (pending : List Char) :
    Parted pending (text ++ enclosed (propertyPrefix ++ name.toList) ++ rest)
      (ofPlain (pending ++ text) ++ .property name :: t) := by
  induction htext generalizing pending with
  | unclosed hunclosed =>
    have hfirst := First.of_unopened (unopened_of_closed hunclosed hclosed) hname.unclosed_prefix rest
    exact .property hfirst hname.names h
  | @other text before inner rest' hfirst hother _ ih =>
    have hrest := ih (hfirst.closed_rest hclosed) (pending ++ before ++ enclosed inner)
    have hfirst' := hfirst.append (enclosed (propertyPrefix ++ name.toList) ++ rest)
    rw [← List.append_assoc, ← List.append_assoc] at hfirst'
    refine .other hfirst' hother ?_
    rw [hfirst.eq]
    simpa using hrest

/-- What is written for parts of the canonical form falls into these parts. -/
theorem Canonical.parted : ∀ {t : Template}, t.Canonical → Parted [] t.spelling t
  | [], _ => .unclosed unclosed_nil
  | .property name :: t, h =>
    have hname := h.named name List.mem_cons_self
    have hfirst := Text.First.of_unopened (List.infix_nil.not.mpr (List.cons_ne_nil _ _))
      hname.unclosed_prefix (spelling t)
    .property hfirst hname.names h.tail.parted
  | [.text s], h => by
    have hne : s ≠ "" := fun hs => h.nonempty (hs ▸ List.mem_cons_self)
    have hplain := parted_of_nameless (h.nameless s List.mem_cons_self) []
    rw [List.nil_append, ofPlain_toList hne] at hplain
    simpa [spelling, TemplatePart.spelling] using hplain
  | .text s :: .property name :: t, h => by
    have hne : s ≠ "" := fun hs => h.nonempty (hs ▸ List.mem_cons_self)
    have hname := h.named name (List.mem_cons_of_mem _ List.mem_cons_self)
    have hclosed : Closed s.toList := h.follows.rel
    have hplain := h.tail.tail.parted.of_nameless_property hname
      (h.nameless s List.mem_cons_self) hclosed []
    rw [List.nil_append, ofPlain_toList hne] at hplain
    simpa [spelling, TemplatePart.spelling, Lexeme.placeholder_eq] using hplain
  | .text _ :: .text _ :: _, h => absurd h.follows.rel id

end Reading

theorem ofText_written (h : t.Canonical) : ofText t.written = t := by
  rw [ofText, written, String.toList_ofList]
  exact h.parted.eq_parts _ (Nat.le_refl _)

/-- The parts of a text are of the canonical form, the text written for them is the same text but for
blanks in its placeholders of properties, and it has the same parts. -/
theorem ofText_canonical (source : String) :
    (ofText source).Canonical ∧ Respaced source.toList (ofText source).written.toList ∧
      ofText (ofText source).written = ofText source := by
  have hparted : Parted [] source.toList (ofText source) := parted_parts _ _ _ (Nat.le_refl _)
  have hcanonical := hparted.canonical .nil
  refine ⟨hcanonical, ?_, ofText_written hcanonical⟩
  rw [written, String.toList_ofList]
  exact hparted.respaced .nil

/-- The blanks go, and a placeholder that names no property stays. -/
example : (ofText "a $\x7b feature.property.b \x7d $\x7bc\x7d").written =
    "a $\x7bfeature.property.b\x7d $\x7bc\x7d" := by
  decide +kernel

end Template
end FeatureStyle
