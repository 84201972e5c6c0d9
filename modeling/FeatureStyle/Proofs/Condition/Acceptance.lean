import FeatureStyle.Proofs.Condition.Reading

/-!
# Accepted texts

A phrase whose operands are not nested too deeply is read wherever it is spelled, with the fuel that
the depth of the place leaves. With what the parser finds being such phrases, this says which texts
it accepts.
-/

namespace FeatureStyle.Condition

open Precedence Cursor

/-- The operator that comes next, if one does, is looser than a bound. -/
def Stops (bound : Nat) (rest : List Lexeme) : Prop :=
  ∀ (lexeme : Lexeme) (others : List Lexeme) (op : Operator), rest = lexeme :: others →
    lexeme.token = .binary op → op.precedence.strength < bound

/-- A chain from its first operand on, before it comes back to the depth it began at. -/
def opened (fuel : Nat) (level : Precedence) (c : Cursor) : Parsed :=
  match operand fuel level c with
  | .error e => .error e
  | .ok (lhs, next) => links fuel level lhs next

/-- A phrase of a rank is read wherever it is spelled. A chain is read up to the operators that may
follow it. -/
def Completes : Option Precedence → Phrase → Prop
  | none, p =>
    ∀ (c : Cursor) (rest : List Lexeme) (fuel : Nat), c.Spells p rest → p.FitsAt c.depth →
      11 * (nestingLimit - c.depth) + 2 ≤ fuel → signed fuel c = .ok (p.condition, c.skipTo rest)
  | some level, p =>
    ∀ (c : Cursor) (rest : List Lexeme) (fuel : Nat), c.Spells p rest → p.FitsAt c.depth →
      Stops (level.strength + 1) rest →
        11 * (nestingLimit - c.depth) + 9 ≤ fuel + 2 * level.strength →
          opened fuel level c =
            links (fuel - p.links level) level p.condition (c.along level p rest)

theorem strength_le (level : Precedence) : level.strength ≤ 3 := by
  cases level <;> decide

theorem depth_add_links_le {p : Phrase} {depth : Nat} (level : Precedence) (h : p.FitsAt depth) :
    depth + p.links level ≤ nestingLimit := by
  cases p with
  | constant value | property name | group inner | signed sign part => exact h.depth_le
  | link op lhs rhs =>
    rw [Phrase.links]
    split
    next hlevel =>
      rw [Phrase.fitsAt_link, hlevel] at h
      exact h.2.depth_le
    next => exact h.depth_le

theorem operator?_eq_none {c : Cursor} {level : Precedence} (h : Stops level.strength c.rest) :
    c.operator? level = none := by
  cases hop : c.operator? level with
  | none => rfl
  | some op =>
    obtain ⟨htoken, hlevel⟩ := operator?_eq_some.mp hop
    obtain ⟨lexeme, hl, ht⟩ := Option.map_eq_some_iff.mp htoken
    obtain ⟨others, hrest⟩ := List.head?_eq_some_iff.mp hl
    have hlt := h lexeme others op hrest ht
    rw [hlevel] at hlt
    exact absurd hlt (Nat.lt_irrefl _)

private theorem chain_of_opened {fuel : Nat} {level : Precedence} {c done : Cursor}
    {condition : Condition}
    (h : opened fuel level c = .ok (condition, done)) :
    chain (fuel + 1) level c = .ok (condition, { done with depth := c.depth }) := by
  rw [opened] at h
  cases hop : operand fuel level c with
  | error e =>
    rw [hop] at h
    cases h
  | ok r =>
    rw [hop] at h
    exact chain_eq_ok.mpr ⟨r.1, r.2, done, hop, h, rfl⟩

private theorem chain_of_completes {level : Precedence} {p : Phrase} (h : Completes (some level) p)
    {c : Cursor} {rest : List Lexeme} {fuel : Nat} (hspells : c.Spells p rest)
    (hfits : p.FitsAt c.depth) (hstops : Stops level.strength rest)
    (hfuel : 11 * (nestingLimit - c.depth) + 10 ≤ fuel + 2 * level.strength) :
    chain fuel level c = .ok (p.condition, c.skipTo rest) := by
  have hlinks := depth_add_links_le level hfits
  have hlevel := strength_le level
  obtain ⟨f, rfl⟩ : ∃ f, fuel = f + 1 := ⟨fuel - 1, by omega⟩
  obtain ⟨g, hg⟩ : ∃ g, f - p.links level = g + 1 := ⟨f - p.links level - 1, by omega⟩
  have hstops' : Stops (level.strength + 1) rest := fun lexeme others op hrest ht =>
    Nat.lt_succ_of_lt (hstops lexeme others op hrest ht)
  have hopened := h c rest f hspells hfits hstops' (by omega)
  have hdone : links (g + 1) level p.condition (c.along level p rest) =
      .ok (p.condition, c.along level p rest) :=
    links_eq_ok.mpr (.inl ⟨operator?_eq_none hstops, rfl, rfl⟩)
  rw [hg, hdone] at hopened
  rw [chain_of_opened hopened]
  rfl

private theorem operand_of_completes {level : Precedence} {p : Phrase}
    (h : Completes level.tighter? p)
    {c : Cursor} {rest : List Lexeme} {fuel : Nat} (hspells : c.Spells p rest)
    (hfits : p.FitsAt c.depth) (hstops : Stops (level.strength + 1) rest)
    (hfuel : 11 * (nestingLimit - c.depth) + 9 ≤ fuel + 2 * level.strength) :
    operand fuel level c = .ok (p.condition, c.skipTo rest) := by
  have hlevel := strength_le level
  have hplace := place_tighter? level
  obtain ⟨f, rfl⟩ : ∃ f, fuel = f + 1 := ⟨fuel - 1, by omega⟩
  rw [operand]
  cases htighter : level.tighter? with
  | none =>
    rw [htighter] at h hplace
    rw [place] at hplace
    exact h c rest f hspells hfits (by omega)
  | some tighter =>
    rw [htighter] at h hplace
    rw [place] at hplace
    exact chain_of_completes h hspells hfits (by rwa [hplace]) (by omega)

theorem completes_signed (sign : Sign) {part : Phrase} (h : Completes none part) :
    Completes none (.signed sign part) := by
  intro c rest fuel hspells hfits hfuel
  obtain ⟨hsign, hbehind⟩ := spells_signed.mp hspells
  have hpart := Phrase.fitsAt_signed.mp hfits
  have hdepth : c.depth + 1 ≤ nestingLimit := hpart.depth_le
  obtain ⟨f, rfl⟩ : ∃ f, fuel = f + 1 := ⟨fuel - 1, by omega⟩
  refine (signed_eq_ok hsign).mpr ⟨hdepth, part.condition, c.behind.skipTo rest, ?_, rfl, rfl⟩
  refine h c.behind rest f hbehind hpart ?_
  rw [behind_depth]
  omega

theorem signed_eq_leaf_of_token {fuel : Nat} {c : Cursor} {token : Token}
    (h : c.token? = some token) (hne : ∀ sign : Sign, token ≠ sign.token) :
    signed (fuel + 1) c = leaf fuel c := by
  apply signed_eq_leaf
  intro sign hs
  rw [h] at hs
  exact hne sign (Option.some.inj hs)

private theorem completes_group {inner : Phrase} (h : Completes (some .or) inner) :
    Completes none (.group inner) := by
  intro c rest fuel hspells hfits hfuel
  obtain ⟨hopen, close, hclose, hbehind⟩ := spells_group.mp hspells
  have hinner := Phrase.fitsAt_group.mp hfits
  have hdepth : c.depth + 1 ≤ nestingLimit := hinner.depth_le
  obtain ⟨f, rfl⟩ : ∃ f, fuel = f + 1 + 1 := ⟨fuel - 2, by omega⟩
  rw [signed_eq_leaf_of_token hopen fun sign => by cases sign <;> simp [Sign.token]]
  refine (leaf_group hopen).mpr
    ⟨hdepth, c.behind.skipTo (close :: rest), close, rest, ?_, rfl, hclose, rfl⟩
  refine chain_of_completes h hbehind hinner ?_ ?_
  · intro lexeme others op hrest ht
    obtain ⟨rfl, rfl⟩ := List.cons.inj hrest
    rw [hclose] at ht
    cases ht
  · rw [behind_depth]
    omega

private theorem completes_operand {level : Precedence} {p : Phrase}
    (hderives : p.Derives level.tighter?)
    (h : Completes level.tighter? p) : Completes (some level) p := by
  intro c rest fuel hspells hfits hstops hfuel
  have hzero : p.links level = 0 := by
    apply hderives.links_eq_zero
    rw [place_tighter?]
    exact Nat.lt_succ_self _
  rw [opened, operand_of_completes h hspells hfits hstops hfuel]
  simp only [hzero, Nat.sub_zero]
  rw [along, hzero]
  rfl

private theorem completes_link {level : Precedence} {op : Operator} {lhs rhs : Phrase}
    (hlevel : op.precedence = level) (hl : Completes (some level) lhs)
    (hr : Completes level.tighter? rhs) : Completes (some level) (.link op lhs rhs) := by
  intro c rest fuel hspells hfits hstops hfuel
  obtain ⟨lexeme, between, htoken, hleft, hright⟩ := spells_link.mp hspells
  obtain ⟨hfitsl, hfitsr⟩ := Phrase.fitsAt_link.mp hfits
  rw [hlevel] at hfitsr
  have hdepth : c.depth + lhs.links level + 1 ≤ nestingLimit := hfitsr.depth_le
  have hstrength := strength_le level
  have hstopsl : Stops (level.strength + 1) (lexeme :: between) := by
    intro l others o hrest ho
    obtain ⟨rfl, rfl⟩ := List.cons.inj hrest
    rw [htoken] at ho
    cases ho
    rw [hlevel]
    exact Nat.lt_succ_self _
  rw [hl c _ fuel hleft hfitsl hstopsl hfuel]
  obtain ⟨f, hf⟩ : ∃ f, fuel - lhs.links level = f + 1 :=
    ⟨fuel - lhs.links level - 1, by omega⟩
  let here := c.along level lhs (lexeme :: between)
  have hop : here.operator? level = some op :=
    operator?_eq_some.mpr ⟨congrArg some htoken, hlevel⟩
  have hrhs : operand f level here.behind = .ok (rhs.condition, here.behind.skipTo rest) := by
    refine operand_of_completes hr hright hfitsr hstops ?_
    simp only [here, along, behind_depth]
    omega
  have hf' : fuel - (Phrase.link op lhs rhs).links level = f := by
    rw [Phrase.links, if_pos hlevel]
    omega
  have hplace : here.behind.skipTo rest = c.along level (.link op lhs rhs) rest := by
    simp only [here, skipTo, behind, along, Phrase.links, if_pos hlevel]
    rfl
  have henter : here.enter = .ok here.behind := enter_eq_ok.mpr ⟨hdepth, rfl⟩
  rw [hf, hf', ← hplace]
  show links (f + 1) level lhs.condition here = _
  rw [links, hop]
  simp only [henter, hrhs]
  rfl

/-- A phrase is read wherever it is spelled at a depth that leaves room for it. -/
theorem completes {rank : Option Precedence} {p : Phrase} (h : p.Derives rank) :
    Completes rank p := by
  induction h with
  | constant value =>
    intro c rest fuel hspells hfits hfuel
    obtain ⟨lexeme, ht, hc⟩ := spells_constant.mp hspells
    have htoken : c.token? = some (.constant value) := by
      rw [token?, hc, List.head?_cons, Option.map_some, ht]
    obtain ⟨f, rfl⟩ : ∃ f, fuel = f + 1 + 1 := ⟨fuel - 2, by omega⟩
    rw [signed_eq_leaf_of_token htoken fun sign => by cases sign <;> simp [Sign.token],
      leaf_constant hc ht]
    rfl
  | property name =>
    intro c rest fuel hspells hfits hfuel
    obtain ⟨lexeme, ht, hc⟩ := spells_property.mp hspells
    have htoken : c.token? = some (.property name) := by
      rw [token?, hc, List.head?_cons, Option.map_some, ht]
    obtain ⟨f, rfl⟩ : ∃ f, fuel = f + 1 + 1 := ⟨fuel - 2, by omega⟩
    rw [signed_eq_leaf_of_token htoken fun sign => by cases sign <;> simp [Sign.token],
      leaf_property hc ht]
    rfl
  | group h ih => exact completes_group ih
  | signed sign h ih => exact completes_signed sign ih
  | operand h ih => exact completes_operand h ih
  | link hlevel hl hr ihl ihr => exact completes_link hlevel ihl ihr

theorem ofLexemes_eq_ok {lexemes : List Lexeme} {stop : Nat} {condition : Condition} :
    ofLexemes lexemes stop = .ok condition ↔
      ∃ p : Phrase, p.Derives (some .or) ∧ lexemes.map Lexeme.token = p.tokens ∧ p.FitsAt 0 ∧
        p.condition = condition := by
  let start : Cursor := ⟨lexemes, 0, stop⟩
  constructor
  · intro h
    obtain ⟨last, hchain, hlast⟩ : ∃ last, chain recursionBound .or start = .ok (condition, last) ∧
        last.rest = [] := by
      unfold ofLexemes at h
      cases hlexemes : lexemes with
      | nil =>
        rw [hlexemes] at h
        cases h
      | cons lexeme others =>
        rw [hlexemes] at h
        have hstart : start = ⟨lexeme :: others, 0, stop⟩ := by rw [← hlexemes]
        rw [← hstart] at h
        simp only at h
        cases hchain : chain recursionBound .or start with
        | error e =>
          rw [hchain] at h
          cases h
        | ok r =>
          obtain ⟨found, last⟩ := r
          rw [hchain] at h
          simp only at h
          split at h
          next hlast =>
            cases h
            exact ⟨last, rfl, hlast⟩
          next => cases h
    obtain ⟨p, hp, hcondition, -⟩ :=
      (parsers_sound recursionBound).1 .or start condition last (Nat.zero_le _) hchain
    obtain ⟨spelling, htokens, hwhole⟩ := hp.spells
    have hwhole : lexemes = spelling := by
      rw [hlast, List.append_nil] at hwhole
      exact hwhole
    rw [← hwhole] at htokens
    exact ⟨p, hp.derives, htokens, hp.fits, hcondition⟩
  · rintro ⟨p, hderives, htokens, hfits, rfl⟩
    have hspells : start.Spells p [] := ⟨lexemes, htokens, (List.append_nil _).symm⟩
    have hstops : Stops Precedence.or.strength [] := fun _ _ _ hrest => by cases hrest
    have hchain : chain recursionBound .or start = .ok (p.condition, start.skipTo []) :=
      chain_of_completes (completes hderives) hspells hfits hstops (by
        show 11 * (nestingLimit - 0) + 10 ≤ _
        decide)
    cases hlexemes : lexemes with
    | nil =>
      rw [hlexemes] at htokens
      exact absurd htokens.symm p.tokens_ne_nil
    | cons lexeme others =>
      rw [ofLexemes, ← hlexemes, hchain]
      · rfl
      · exact fun h => by cases h

/-- A text is accepted exactly if it spells a phrase that is not nested too deeply, and the condition
found is the one the phrase stands for. -/
theorem parse_eq_ok_iff {source : String} {condition : Condition} :
    parse source = .ok condition ↔
      ∃ p : Phrase, p.Spelled source ∧ p.FitsAt 0 ∧ p.condition = condition := by
  rw [parse]
  cases hsplit : Lexeme.split source.toList with
  | error e =>
    simp only [reduceCtorEq, false_iff]
    rintro ⟨p, ⟨-, lexemes, hl, -⟩, -⟩
    rw [hsplit] at hl
    cases hl
  | ok lexemes =>
    simp only [ofLexemes_eq_ok, Phrase.Spelled, hsplit, Except.ok.injEq, exists_eq_left', and_assoc]

theorem eq_ok_of_toOption {ε α : Type} {r : Except ε α} {a : α} (h : r.toOption = some a) :
    r = .ok a := by
  cases r with
  | error e => cases h
  | ok b =>
    cases h
    rfl

end FeatureStyle.Condition
