import Mathlib.Logic.Basic
import FeatureStyle.Text.Placeholder

/-!
# Where placeholders stand

The first placeholder of a text begins with the first opening that has a closing brace behind it, and
ends with the first such brace. If the first opening has none, no opening has one. The main statement
is `first_or_unclosed`.
-/

namespace FeatureStyle.Text

def opening : List Char := ['$', '\x7b']

def enclosed (inner : List Char) : List Char := opening ++ inner ++ ['\x7d']

/-- Without the blanks around it, an inner text is the prefix of properties and a name behind it. -/
def Names (inner : List Char) (name : String) : Prop :=
  trim inner = propertyPrefix ++ name.toList ∧ name ≠ ""

/-- The first placeholder of a text, what stands in front of it and what stands behind it. -/
structure First (text before inner rest : List Char) : Prop where
  eq : text = before ++ enclosed inner ++ rest
  unopened : ¬ opening <:+: before
  unclosed : '\x7d' ∉ inner

def Unclosed (text : List Char) : Prop :=
  ∀ before behind, text = before ++ opening ++ behind → '\x7d' ∉ behind

/-- Every opening of a text has a closing brace somewhere behind it. -/
def Closed (text : List Char) : Prop :=
  ∀ before behind, text = before ++ opening ++ behind → '\x7d' ∈ behind

variable {text before behind inner rest : List Char} {name : String}

theorem propertyName?_eq_some_iff : propertyName? inner = some name ↔ Names inner name := by
  rw [propertyName?, Names]
  split
  · rename_i c tail h
    rw [dropExact?_eq_some_iff.mp h, List.append_cancel_left_eq, Option.some.injEq]
    constructor
    · rintro rfl
      exact ⟨by rw [String.toList_ofList], by simp⟩
    · rintro ⟨h, -⟩
      rw [h, String.ofList_toList]
  · rename_i hnone
    refine iff_of_false (by simp) ?_
    rintro ⟨h, hne⟩
    obtain ⟨c, tail, hname⟩ := List.exists_cons_of_ne_nil (mt String.toList_eq_nil_iff.mp hne)
    rw [hname] at h
    exact hnone c tail (dropExact?_eq_some_iff.mpr h)

theorem splitClosing?_eq_none_iff : splitClosing? text = none ↔ '\x7d' ∉ text := by
  induction text with
  | nil => simp [splitClosing?]
  | cons c text ih =>
    by_cases h : c = '\x7d'
    · simp [splitClosing?, h]
    · rw [splitClosing?, if_neg h, Option.map_eq_none_iff, ih, List.mem_cons, not_or]
      exact ⟨fun hmem => ⟨Ne.symm h, hmem⟩, And.right⟩

/-- An opening in two texts put together is in the first, in both, or in the second. -/
theorem opening_append {a b : List Char} (h : a ++ b = before ++ opening ++ behind) :
    (∃ more, a = before ++ opening ++ more ∧ behind = more ++ b) ∨
      (a = before ++ ['$'] ∧ b = '\x7b' :: behind) ∨
      ∃ more, before = a ++ more ∧ b = more ++ opening ++ behind := by
  rw [List.append_assoc, List.append_eq_append_iff] at h
  rcases h with ⟨more, hbefore, hb⟩ | ⟨more, ha, hbehind⟩
  · exact .inr (.inr ⟨more, hbefore, by rw [hb, List.append_assoc]⟩)
  · -- How much of the opening stands in the first text?
    match more with
    | [] => exact .inr (.inr ⟨[], by simpa using ha.symm, by simpa using hbehind.symm⟩)
    | [c] =>
      obtain ⟨rfl, rfl⟩ : '$' = c ∧ '\x7b' :: behind = b := by simpa [opening] using hbehind
      exact .inr (.inl ⟨ha, rfl⟩)
    | c :: d :: more =>
      obtain ⟨rfl, rfl, rfl⟩ : '$' = c ∧ '\x7b' = d ∧ behind = more ++ b := by
        simpa [opening] using hbehind
      exact .inl ⟨more, by rw [ha, opening, List.append_assoc]; rfl, rfl⟩

theorem splitOpening?_of_unopened (h : ¬ opening <:+: before) (behind : List Char) :
    splitOpening? (before ++ opening ++ behind) = some (before, behind) := by
  induction before with
  | nil => rfl
  | cons c before ih =>
    have hbefore : ¬ opening <:+: before := fun hinfix => h (List.infix_cons hinfix)
    have hhead : ∀ tail, c :: (before ++ opening ++ behind) ≠ '$' :: '\x7b' :: tail := by
      rintro tail heq
      cases before with
      | nil => simp [opening] at heq
      | cons d before =>
        obtain ⟨rfl, rfl, -⟩ : c = '$' ∧ d = '\x7b' ∧ _ := by simpa using heq
        exact h ⟨[], before, rfl⟩
    rw [List.cons_append, List.cons_append, splitOpening?.eq_3 _ _ (by simpa using hhead),
      ih hbefore, Option.map_some]

theorem of_splitOpening? (h : splitOpening? text = some (before, behind)) :
    text = before ++ opening ++ behind ∧ ¬ opening <:+: before := by
  fun_induction splitOpening? text generalizing before behind with
  | case1 => cases h
  | case2 rest =>
    cases h
    exact ⟨rfl, by simp [opening]⟩
  | case3 c text hhead ih =>
    obtain ⟨⟨before, behind⟩, hsplit, heq⟩ := Option.map_eq_some_iff.mp h
    cases heq
    obtain ⟨rfl, hbefore⟩ := ih hsplit
    refine ⟨rfl, fun hinfix => ?_⟩
    rcases List.infix_cons_iff.mp hinfix with ⟨tail, hprefix⟩ | hinfix
    · cases hprefix
      exact hhead _ rfl rfl
    · exact hbefore hinfix

private theorem unopened_of_splitOpening? (h : splitOpening? text = none) :
    ¬ opening <:+: text := by
  fun_induction splitOpening? text with
  | case1 => simp [opening]
  | case2 rest => cases h
  | case3 c text hhead ih =>
    rw [List.infix_cons_iff]
    rintro (⟨tail, hprefix⟩ | hinfix)
    · cases hprefix
      exact hhead _ rfl rfl
    · exact ih (Option.map_eq_none_iff.mp h) hinfix

/-- A text has a first placeholder, or none of its openings is closed. -/
theorem first_or_unclosed (text : List Char) :
    (∃ before inner rest, First text before inner rest) ∨ Unclosed text := by
  cases hopening : splitOpening? text with
  | none =>
    right
    rintro before behind rfl
    exact absurd ⟨before, behind, rfl⟩ (unopened_of_splitOpening? hopening)
  | some split =>
    obtain ⟨before, behind⟩ := split
    obtain ⟨rfl, hunopened⟩ := of_splitOpening? hopening
    cases hclosing : splitClosing? behind with
    | some split =>
      obtain ⟨inner, rest⟩ := split
      obtain ⟨rfl, hunclosed⟩ := splitClosing?_eq_some_iff.mp hclosing
      exact .inl ⟨before, inner, rest, by simp [enclosed], hunopened, hunclosed⟩
    | none =>
      right
      intro before' behind' heq
      have hclosing := splitClosing?_eq_none_iff.mp hclosing
      rw [List.append_assoc] at heq
      rcases opening_append heq with ⟨more, h, -⟩ | ⟨-, h⟩ | ⟨more, -, h⟩
      · exact absurd ⟨before', more, h.symm⟩ hunopened
      · simp [opening] at h
      · have hmem : ∀ c ∈ behind', c ∈ opening ++ behind := by
          intro c hc
          rw [h]
          simp [hc]
        intro hbehind
        have := hmem _ hbehind
        simp [opening, hclosing] at this

theorem unclosed_nil : Unclosed [] := by
  simp [Unclosed, opening]

theorem First.rest_length (h : First text before inner rest) : rest.length < text.length := by
  rw [h.eq]
  simp only [enclosed, List.length_append, List.length_singleton]
  omega

theorem First.append (h : First text before inner rest) (behind : List Char) :
    First (text ++ behind) before inner (rest ++ behind) where
  eq := by rw [h.eq, List.append_assoc]
  unopened := h.unopened
  unclosed := h.unclosed

theorem First.closed_rest (h : First text before inner rest) (hclosed : Closed text) : Closed rest := by
  intro before' behind heq
  apply hclosed (before ++ enclosed inner ++ before')
  rw [h.eq, heq]
  simp

theorem First.getLast?_rest {c : Char} (h : First text before inner rest)
    (hend : text.getLast? ≠ some c) : rest.getLast? ≠ some c := by
  intro hlast
  rw [h.eq, List.getLast?_append, hlast] at hend
  exact hend rfl

theorem closed_of_getLast? (h : text.getLast? = some '\x7d') : Closed text := by
  rintro before behind rfl
  rw [List.getLast?_append] at h
  cases hlast : behind.getLast? with
  | none =>
    rw [hlast] at h
    simp [opening] at h
  | some c =>
    rw [hlast, Option.some_or] at h
    exact List.mem_of_getLast? (hlast.trans h)

end FeatureStyle.Text
