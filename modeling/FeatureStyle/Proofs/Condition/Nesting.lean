import FeatureStyle.Proofs.Condition.Acceptance

/-!
# The height of parsed conditions

The parser counts, for every operand, the operators that come before it in a chain, but the chain
grows on the left, so that the operand ends up below those that come after it. A parsed condition
can therefore be higher than `nestingLimit`, and is never higher than `heightBound`.
-/

namespace FeatureStyle

namespace Phrase

private theorem height_apply (sign : Sign) (part : Phrase) :
    (sign.apply part.condition).height = part.condition.height + (keeps sign part).toNat := by
  cases sign with
  | not => rfl
  | plus => rfl
  | minus =>
    rw [Sign.apply, keeps]
    split
    next x hx =>
      rw [hx]
      rfl
    next hne =>
      rw [Condition.withMinus]
      · rfl
      · exact hne

private theorem add_le_iff {operands : List Operand} (hne : operands ≠ []) {height : Nat}
    {f : Operand → Nat} (h : ∀ n, height ≤ n ↔ ∀ o ∈ operands, f o ≤ n) (k n : Nat) :
    height + k ≤ n ↔ ∀ o ∈ operands, f o + k ≤ n := by
  by_cases hk : k ≤ n
  · calc height + k ≤ n ↔ height ≤ n - k := by omega
      _ ↔ ∀ o ∈ operands, f o ≤ n - k := h (n - k)
      _ ↔ ∀ o ∈ operands, f o + k ≤ n := by
        refine forall₂_congr fun o _ => ?_
        omega
  · obtain ⟨o, ho⟩ := List.exists_mem_of_ne_nil _ hne
    constructor
    · intro hle
      omega
    · intro hall
      have := hall o ho
      omega

theorem height_le_iff (p : Phrase) (n : Nat) :
    p.condition.height ≤ n ↔ ∀ o ∈ p.operands, o.above ≤ n := by
  induction p generalizing n with
  | constant value | property name =>
    simp [condition, operands, Condition.height, Operand.above]
  | group inner ih =>
    simp only [condition, operands, List.forall_mem_map]
    exact ih n
  | signed sign part ih =>
    simp only [condition, operands, List.forall_mem_map, height_apply]
    rw [add_le_iff part.operands_ne_nil ih]
    refine forall₂_congr fun o _ => ?_
    simp only [Operand.above]
    omega
  | link op lhs rhs ihl ihr =>
    have hl := add_le_iff lhs.operands_ne_nil ihl 1 n
    have hr := add_le_iff rhs.operands_ne_nil ihr 1 n
    simp only [condition, operands, List.forall_mem_append, List.forall_mem_map, Condition.height]
    calc max lhs.condition.height rhs.condition.height + 1 ≤ n ↔
        lhs.condition.height + 1 ≤ n ∧ rhs.condition.height + 1 ≤ n := by omega
      _ ↔ (∀ o ∈ lhs.operands, o.above + 1 ≤ n) ∧ ∀ o ∈ rhs.operands, o.above + 1 ≤ n :=
        and_congr hl hr
      _ ↔ _ := Iff.rfl

/-- The greatest height of a signed operand that the given levels of nesting leave room for. -/
def signedHeight : Nat → Nat
  | 0 => 0
  | 1 => 1
  | n + 2 => signedHeight (n + 1) + 4 * (n + 1)

theorem signedHeight_succ (n : Nat) : signedHeight (n + 1) = 2 * n * (n + 1) + 1 := by
  induction n with
  | zero => rfl
  | succ n ih =>
    rw [signedHeight, ih]
    grind

private theorem signedHeight_mono {m n : Nat} (h : m ≤ n) : signedHeight m ≤ signedHeight n := by
  induction h with
  | refl => exact Nat.le_refl _
  | @step n h ih =>
    refine Nat.le_trans ih ?_
    cases n with
    | zero => decide
    | succ n =>
      rw [signedHeight]
      exact Nat.le_add_right _ _

/-- The greatest height of a phrase of a rank that the given levels of nesting leave room for. -/
def rankHeight (rank : Option Precedence) (n : Nat) : Nat :=
  signedHeight n + (4 - Precedence.place rank) * n

private theorem rankHeight_mono (rank : Option Precedence) {m n : Nat} (h : m ≤ n) :
    rankHeight rank m ≤ rankHeight rank n :=
  Nat.add_le_add (signedHeight_mono h) (Nat.mul_le_mul_left _ h)

private theorem add_rankHeight_tighter? (level : Precedence) (n : Nat) :
    n + rankHeight level.tighter? n = rankHeight (some level) n := by
  cases level <;> simp only [rankHeight, Precedence.place, Precedence.tighter?,
    Precedence.strength] <;> omega

private theorem rankHeight_group_le (n : Nat) : rankHeight (some .or) n ≤ signedHeight (n + 1) := by
  cases n with
  | zero => decide
  | succ n =>
    rw [rankHeight, signedHeight]
    exact Nat.le_refl _

private theorem signedHeight_add_one_le (n : Nat) : signedHeight n + 1 ≤ signedHeight (n + 1) := by
  cases n with
  | zero => decide
  | succ n =>
    rw [signedHeight]
    omega

/-- The operators of a chain leave its operands the levels of nesting that it began with. -/
theorem height_le_rankHeight {rank : Option Precedence} {p : Phrase} (h : p.Derives rank)
    {depth : Nat} (hfits : p.FitsAt depth) :
    p.condition.height ≤ rankHeight rank (Condition.nestingLimit - depth) ∧
      ∀ level, rank = some level → p.condition.height ≤
        p.links level + rankHeight level.tighter? (Condition.nestingLimit - depth) := by
  have hchain : ∀ {level : Precedence} {q : Phrase} {d : Nat}, q.FitsAt d →
      q.condition.height ≤ q.links level + rankHeight level.tighter? (Condition.nestingLimit - d) →
        q.condition.height ≤ rankHeight (some level) (Condition.nestingLimit - d) := by
    intro level q d hq hle
    have hlinks := Condition.depth_add_links_le level hq
    have hsum := add_rankHeight_tighter? level (Condition.nestingLimit - d)
    omega
  induction h generalizing depth with
  | constant value | property name =>
    refine ⟨Nat.zero_le _, ?_⟩
    intro level hlevel
    cases hlevel
  | @group inner h ih =>
    have hinner := fitsAt_group.mp hfits
    have hdepth := hinner.depth_le
    have hsucc : Condition.nestingLimit - depth = Condition.nestingLimit - (depth + 1) + 1 := by
      omega
    have hgroup := rankHeight_group_le (Condition.nestingLimit - (depth + 1))
    rw [← hsucc] at hgroup
    refine ⟨?_, fun level hlevel => by cases hlevel⟩
    calc inner.condition.height ≤ _ := (ih hinner).1
      _ ≤ signedHeight (Condition.nestingLimit - depth) := hgroup
      _ ≤ rankHeight none (Condition.nestingLimit - depth) := Nat.le_add_right _ _
  | @signed sign part h ih =>
    have hpart := fitsAt_signed.mp hfits
    have hdepth := hpart.depth_le
    have hsucc : Condition.nestingLimit - depth = Condition.nestingLimit - (depth + 1) + 1 := by
      omega
    have hsigned := signedHeight_add_one_le (Condition.nestingLimit - (depth + 1))
    rw [← hsucc] at hsigned
    have hkeeps : (keeps sign part).toNat ≤ 1 := Bool.toNat_le _
    have hheight := (ih hpart).1
    refine ⟨?_, fun level hlevel => by cases hlevel⟩
    simp only [rankHeight, Precedence.place, Nat.sub_self, Nat.zero_mul, Nat.add_zero,
      condition, height_apply] at hheight ⊢
    omega
  | @operand level p h ih =>
    have hle : p.condition.height ≤
        p.links level + rankHeight level.tighter? (Condition.nestingLimit - depth) :=
      Nat.le_trans (ih hfits).1 (Nat.le_add_left _ _)
    refine ⟨hchain hfits hle, ?_⟩
    rintro _ ⟨⟩
    exact hle
  | @link level op lhs rhs hlevel hl hr ihl ihr =>
    obtain ⟨hfitsl, hfitsr⟩ := fitsAt_link.mp hfits
    have hleft := (ihl hfitsl).2 level rfl
    have hright : rhs.condition.height ≤
        rankHeight level.tighter? (Condition.nestingLimit - depth) :=
      Nat.le_trans (ihr hfitsr).1 (rankHeight_mono _ (by omega))
    have hle : (link op lhs rhs).condition.height ≤
        (link op lhs rhs).links level +
          rankHeight level.tighter? (Condition.nestingLimit - depth) := by
      rw [links, if_pos hlevel]
      simp only [condition, Condition.height]
      omega
    refine ⟨hchain hfits hle, ?_⟩
    rintro _ ⟨⟩
    exact hle

end Phrase

namespace Condition

def heightBound : Nat := 2 * nestingLimit * (nestingLimit + 1) + 1

/-- A parsed condition is at most `nestingLimit` high exactly if no operand of the text has more
signs in front and operators beside and behind it than that, while the parser has counted the signs
in front, the groups around and the operators before it. -/
theorem height_of_parse {source : String} {condition : Condition}
    (hparse : parse source = .ok condition) :
    ∃ p : Phrase, p.Spelled source ∧ p.condition = condition ∧
      (∀ o ∈ p.operands, o.signs + o.groups + o.before ≤ nestingLimit) ∧
      (condition.height ≤ nestingLimit ↔ ∀ o ∈ p.operands, o.kept + o.joined ≤ nestingLimit) ∧
      condition.height ≤ heightBound := by
  obtain ⟨p, hp, hfits, rfl⟩ := parse_eq_ok_iff.mp hparse
  refine ⟨p, hp, rfl, ?_, p.height_le_iff nestingLimit, ?_⟩
  · intro o ho
    have hle := hfits o ho
    rwa [Nat.zero_add] at hle
  · calc p.condition.height ≤ Phrase.rankHeight (some .or) (nestingLimit - 0) :=
          (Phrase.height_le_rankHeight hp.1 hfits).1
      _ = heightBound := by
        rw [Phrase.rankHeight, show nestingLimit - 0 = 127 + 1 from rfl, Phrase.signedHeight_succ]
        rfl

theorem height_of_parse_not_or :
    parse "!true || true" =
        .ok (binary .or (not (constant (.bool true))) (constant (.bool true))) ∧
      ∃ p : Phrase, p.Spelled "!true || true" ∧
        p.condition = binary .or (not (constant (.bool true))) (constant (.bool true)) ∧
        (∀ o ∈ p.operands, o.signs + o.groups + o.before ≤ nestingLimit) ∧
        (2 ≤ nestingLimit ↔ ∀ o ∈ p.operands, o.kept + o.joined ≤ nestingLimit) ∧
        2 ≤ heightBound := by
  have hparse : parse "!true || true" =
      .ok (binary .or (not (constant (.bool true))) (constant (.bool true))) :=
    eq_ok_of_toOption (by decide +kernel)
  exact ⟨hparse, height_of_parse hparse⟩

/-- A chain behind as many `!` as may be nested is counted from the depth in front of them, and its
operator stands above them. -/
theorem exists_height_gt_nestingLimit : ∃ condition,
    parse (String.ofList (List.replicate nestingLimit '!' ++ "true || true".toList)) =
      .ok condition ∧ nestingLimit < condition.height := by
  have hheight : (parse (String.ofList
      (List.replicate nestingLimit '!' ++ "true || true".toList))).toOption.map height =
        some (nestingLimit + 1) := by decide +kernel
  obtain ⟨condition, hparse, hgt⟩ := Option.map_eq_some_iff.mp hheight
  refine ⟨condition, eq_ok_of_toOption hparse, ?_⟩
  rw [hgt]
  exact Nat.lt_succ_self _

end Condition
end FeatureStyle
