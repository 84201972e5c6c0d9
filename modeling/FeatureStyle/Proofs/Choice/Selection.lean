import FeatureStyle.Proofs.Pipeline.Expressionless

/-!
# The branch that decides

The first branch whose condition can be read and holds decides what an expression comes to. The main
statement is `first_match`: all ways to evaluate an expression give the result of that branch, a
pipeline's with the choices it has kept among them, and branches that do not apply or come after one
that does can be left out. The report names that branch, and lists the branches that cannot be read.
-/

namespace FeatureStyle

namespace Branch

variable {f : Feature}

/-- The condition of a branch can be read, and holds for a feature. -/
def Applies (branch : Branch) (f : Feature) : Prop :=
  ∃ condition, Condition.parse branch.condition = .ok condition ∧ condition.holds f = true

private theorem holds_ofBranch {branch : Branch} :
    (ParsedBranch.ofBranch branch).holds f = true ↔ branch.Applies f := by
  rw [ParsedBranch.holds, ParsedBranch.ofBranch, Applies]
  cases Condition.parse branch.condition with
  | ok condition => simp
  | error e => simp

def without (gone : Nat → Bool) : List Branch → List Branch
  | [] => []
  | branch :: rest =>
    if gone 0 then without (fun i => gone (i + 1)) rest
    else branch :: without (fun i => gone (i + 1)) rest

/-- The branches at some positions make no difference for a feature: each of them does not apply, or
comes after one that does. -/
def Idle (f : Feature) (branches : List Branch) (gone : Nat → Bool) : Prop :=
  ∀ i branch, branches[i]? = some branch → gone i = true →
    ¬ branch.Applies f ∨ ∃ j < i, ∃ earlier, branches[j]? = some earlier ∧ earlier.Applies f

private theorem Idle.head {branch : Branch} {rest : List Branch} {gone : Nat → Bool}
    (h : Idle f (branch :: rest) gone) (happlies : branch.Applies f) : gone 0 = false := by
  cases hgone : gone 0 with
  | false => rfl
  | true =>
    rcases h 0 branch rfl hgone with hnot | ⟨j, hj, -⟩
    · exact absurd happlies hnot
    · exact absurd hj (Nat.not_lt_zero j)

private theorem Idle.tail {branch : Branch} {rest : List Branch} {gone : Nat → Bool}
    (h : Idle f (branch :: rest) gone) (hnot : ¬ branch.Applies f) :
    Idle f rest fun i => gone (i + 1) := by
  intro i later hlater hgone
  refine (h (i + 1) later hlater hgone).imp_right ?_
  rintro ⟨j, hj, earlier, hearlier, happlies⟩
  cases j with
  | zero =>
    cases hearlier
    exact absurd happlies hnot
  | succ j => exact ⟨j, Nat.lt_of_succ_lt_succ hj, earlier, hearlier, happlies⟩

theorem find?_without {branches : List Branch} {gone : Nat → Bool} (h : Idle f branches gone) :
    ((without gone branches).find? fun branch => (ParsedBranch.ofBranch branch).holds f) =
      branches.find? fun branch => (ParsedBranch.ofBranch branch).holds f := by
  induction branches generalizing gone with
  | nil => rfl
  | cons branch rest ih =>
    rw [without]
    cases hholds : (ParsedBranch.ofBranch branch).holds f with
    | true =>
      rw [h.head (holds_ofBranch.mp hholds)]
      simp [hholds]
    | false =>
      have hnot : ¬ branch.Applies f := by
        rw [← holds_ofBranch, hholds]
        exact Bool.false_ne_true
      rw [List.find?_cons_of_neg (by rw [hholds]; exact Bool.false_ne_true), ← ih (h.tail hnot)]
      split
      · rfl
      · rw [List.find?_cons_of_neg (by rw [hholds]; exact Bool.false_ne_true)]

end Branch

namespace Expression

variable {f : Feature} {branches : List Branch}

/-- The position and the result of the first branch that applies; none if there is none. -/
inductive Decided (f : Feature) (branches : List Branch) : Option Nat → Option Value → Prop
  | first {i : Nat} {branch : Branch} (hbranch : branches[i]? = some branch)
      (happlies : branch.Applies f)
      (hbefore : ∀ j < i, ∀ earlier, branches[j]? = some earlier → ¬ earlier.Applies f) :
      Decided f branches (some i) (some ((Template.ofText branch.result).render f))
  | none (hnone : ∀ branch ∈ branches, ¬ branch.Applies f) : Decided f branches none none

/-- The branches that cannot be read, each with its error, in the order of their positions. -/
structure Broken (branches : List Branch) (defects : List Defect) : Prop where
  increasing : defects.Pairwise fun d d' => d.branch < d'.branch
  mem_iff : ∀ d, d ∈ defects ↔
    ∃ branch, branches[d.branch]? = some branch ∧
      Condition.parse branch.condition = .error d.error

private theorem selected?_ofBranches (branches : List Branch) (f : Feature) :
    (Choice.ofBranches branches).selected? f =
      branches.findIdx? fun branch => (ParsedBranch.ofBranch branch).holds f := by
  rw [Choice.selected?, Choice.ofBranches, List.findIdx?_map]
  rfl

private theorem evaluate_conditions (branches : List Branch) (f : Feature) :
    (conditions branches).evaluate f =
      (branches.find? fun branch => (ParsedBranch.ofBranch branch).holds f).map fun branch =>
        (Template.ofText branch.result).render f := by
  rw [evaluate, Choice.evaluate, Choice.ofBranches, List.find?_map, Option.map_map]
  rfl

theorem decided_explain (branches : List Branch) (f : Feature) :
    Decided f branches ((conditions branches).explain f).selected
      ((conditions branches).explain f).outcome := by
  have houtcome : ((conditions branches).explain f).outcome =
      (((conditions branches).explain f).selected).bind fun i =>
        branches[i]?.map fun branch => (Template.ofText branch.result).render f := by
    simp only [explain, Choice.ofBranches, List.getElem?_map, Option.map_map]
    rfl
  rw [houtcome]
  cases hselected : ((conditions branches).explain f).selected with
  | none =>
    apply Decided.none
    intro branch hbranch happlies
    have hnone := (selected?_ofBranches branches f).symm.trans hselected
    have hholds := List.findIdx?_eq_none_iff.mp hnone branch hbranch
    rw [Branch.holds_ofBranch.mpr happlies] at hholds
    cases hholds
  | some i =>
    have hsome := (selected?_ofBranches branches f).symm.trans hselected
    obtain ⟨hi, hholds, hbefore⟩ := List.findIdx?_eq_some_iff_getElem.mp hsome
    have hbranch : branches[i]? = some branches[i] := List.getElem?_eq_getElem hi
    rw [Option.bind_some, hbranch]
    refine .first hbranch (Branch.holds_ofBranch.mp hholds) ?_
    intro j hj earlier hearlier happlies
    obtain ⟨hjlt, rfl⟩ := List.getElem?_eq_some_iff.mp hearlier
    exact hbefore j hj (Branch.holds_ofBranch.mpr happlies)

private theorem error?_ofBranch {branch : Branch} {e : SyntaxError} :
    (ParsedBranch.ofBranch branch).error? = some e ↔
      Condition.parse branch.condition = .error e := by
  rw [ParsedBranch.error?, ParsedBranch.ofBranch]
  cases Condition.parse branch.condition with
  | ok condition => simp
  | error e' => simp

private theorem broken_defects (branches : List Branch) :
    Broken branches (Choice.ofBranches branches).defects where
  increasing := by
    rw [Choice.defects, List.pairwise_filterMap]
    have hpositions : ((Choice.ofBranches branches).zipIdx.map Prod.snd).Pairwise (· < ·) := by
      rw [List.zipIdx_map_snd]
      exact List.pairwise_lt_range'
    apply List.Pairwise.imp _ (List.pairwise_map.mp hpositions)
    intro entry later hlt d hd d' hd'
    obtain ⟨e, -, rfl⟩ := Option.map_eq_some_iff.mp hd
    obtain ⟨e', -, rfl⟩ := Option.map_eq_some_iff.mp hd'
    exact hlt
  mem_iff d := by
    rw [Choice.defects, List.mem_filterMap]
    constructor
    · rintro ⟨⟨parsed, i⟩, hentry, hd⟩
      obtain ⟨e, herror, rfl⟩ := Option.map_eq_some_iff.mp hd
      have hparsed := List.mem_zipIdx_iff_getElem?.mp hentry
      rw [Choice.ofBranches, List.getElem?_map] at hparsed
      obtain ⟨branch, hbranch, rfl⟩ := Option.map_eq_some_iff.mp hparsed
      exact ⟨branch, hbranch, error?_ofBranch.mp herror⟩
    · rintro ⟨branch, hbranch, herror⟩
      refine ⟨(ParsedBranch.ofBranch branch, d.branch), ?_, ?_⟩
      · rw [List.mem_zipIdx_iff_getElem?, Choice.ofBranches, List.getElem?_map, hbranch]
        rfl
      · show (ParsedBranch.ofBranch branch).error?.map (fun e => Defect.mk d.branch e) = some d
        rw [error?_ofBranch.mpr herror]
        rfl

end Expression

/-- What has been read at some moment of a pass. A pass begins with the choices that a pipeline has
kept, and each value that is resolved may add to them. -/
inductive Progress.Midway (κ σ : Type) [KeySupply κ] : Progress → Prop
  | start {p : Pipeline σ} (h : Pipeline.Arises κ p) : Midway κ σ ⟨p.choices, [], []⟩
  | resolve {q : Progress} (h : Midway κ σ q) (f : Feature) (field : String) (value : Value) :
      Midway κ σ (value.resolve f field q).2

/-- By induction on the pass: choices that are kept are those of their branches. -/
theorem Progress.Midway.valid {κ σ : Type} [KeySupply κ] {q : Progress} (h : q.Midway κ σ) :
    q.choices.Valid := by
  induction h with
  | start h => exact h.clean.choices
  | resolve _ f field value ih => exact (value.resolve_yields f field _ ih).valid

namespace Expression

/-- The branch that decides is the same and has the same result in a report, in the choice of the
branches, without branches that are idle, and in the middle of any pass of any pipeline, where the
branches that cannot be read are warned of. -/
theorem first_match (branches : List Branch) (f : Feature) :
    let report := (conditions branches).explain f
    Decided f branches report.selected report.outcome ∧
      Broken branches report.defects ∧
      (conditions branches).evaluate f = report.outcome ∧
      (Choice.ofBranches branches).evaluate f = report.outcome ∧
      (∀ gone, Branch.Idle f branches gone →
        (conditions (Branch.without gone branches)).evaluate f = report.outcome) ∧
      ∀ (κ σ : Type) [KeySupply κ] (q : Progress), q.Midway κ σ → ∀ field,
        ((Value.expression (conditions branches)).resolve f field q).1 = report.outcome ∧
          ((Value.expression (conditions branches)).resolve f field q).2.warnings =
            q.warnings ++ report.defects.map (Warning.brokenBranch field) := by
  intro report
  have hevaluate : (conditions branches).evaluate f = report.outcome :=
    (outcome_explain (conditions branches) f).symm
  refine ⟨decided_explain branches f, broken_defects branches, hevaluate, hevaluate, ?_, ?_⟩
  · intro gone hidle
    rw [← hevaluate, evaluate_conditions, evaluate_conditions, Branch.find?_without hidle]
  · intro κ σ _ q hq field
    have hyields := (Value.expression (conditions branches)).resolve_yields f field q hq.valid
    exact ⟨hyields.value.trans hevaluate, hyields.warnings⟩

/-- Branches of which the first is broken and the last comes too late, evaluated by a pipeline that
has met others of the same result before. -/
theorem first_match_overtaken :
    let branches : List Branch := [⟨"", "no"⟩, ⟨"true", "yes"⟩, ⟨"true", "late"⟩]
    let gone : Nat → Bool := fun i => i != 1
    let f : Feature := .ofId ⟨"f"⟩
    let pass := (Pipeline.reading none none).perform Pipeline.soleKey
      (.resolve Pipeline.mixed none f)
    Branch.Idle f branches gone ∧ (Branch.without gone branches).length = 1 ∧
      (conditions (Branch.without gone branches)).evaluate f =
        ((conditions branches).explain f).outcome ∧
      ((conditions branches).explain f).selected = some 1 ∧ pass.pipeline.choices.length = 3 ∧
      ((Value.expression (conditions branches)).resolve f "x"
        ⟨pass.pipeline.choices, [], []⟩).1 = ((conditions branches).explain f).outcome := by
  intro branches gone f pass
  have hidle : Branch.Idle f branches gone := by
    intro i branch hbranch hgone
    match i with
    | 0 =>
      cases hbranch
      refine .inl ?_
      rintro ⟨condition, hparse, -⟩
      cases hparse
    | 1 => cases hgone
    | i + 2 =>
      refine .inr ⟨1, by omega, ⟨"true", "yes"⟩, rfl, ?_⟩
      exact ⟨.constant (.bool true), rfl, rfl⟩
  have hmidway : Progress.Midway KeySupply.Same Value ⟨pass.pipeline.choices, [], []⟩ :=
    .start (.perform (.empty _ _ _) Pipeline.soleKey _)
  obtain ⟨-, -, -, -, hwithout, hpass⟩ := first_match branches f
  exact ⟨hidle, rfl, hwithout gone hidle, by decide +kernel, by decide +kernel,
    (hpass _ _ _ hmidway "x").1⟩

end Expression
end FeatureStyle
