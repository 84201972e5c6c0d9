import FeatureStyle.Proofs.Condition.Acceptance

/-!
# Parsing stops early only past the deepest level

Wherever a phrase is spelled, the parser reads it or goes past the deepest level of nesting: with
whatever fuel, there is no third outcome. The fuel itself is never what stops a parse, since more of
it changes nothing.
-/

namespace FeatureStyle.Condition

open Precedence Cursor

def TooDeep (result : Parsed) : Prop := ∃ span, result = .error ⟨.nestingTooDeep, span⟩

theorem enter_cases (c : Cursor) :
    c.enter = .ok c.behind ∨ ∃ span, c.enter = .error ⟨.nestingTooDeep, span⟩ := by
  rw [enter]
  split
  · exact .inr ⟨_, rfl⟩
  · exact .inl rfl

/-- A phrase of a rank is read wherever it is spelled, unless that takes the parser too deep. -/
def Meets : Option Precedence → Phrase → Prop
  | none, p =>
    ∀ (c : Cursor) (rest : List Lexeme) (fuel : Nat), c.Spells p rest →
      signed fuel c = .ok (p.condition, c.skipTo rest) ∨ TooDeep (signed fuel c)
  | some level, p =>
    ∀ (c : Cursor) (rest : List Lexeme) (fuel : Nat), c.Spells p rest →
      Stops (level.strength + 1) rest →
        (∃ left, opened fuel level c = links left level p.condition (c.along level p rest)) ∨
          TooDeep (opened fuel level c)

theorem chain_eq_opened (fuel : Nat) (level : Precedence) (c : Cursor) :
    chain (fuel + 1) level c =
      (opened fuel level c).map fun r => (r.1, { r.2 with depth := c.depth }) := by
  rw [chain, opened]
  cases operand fuel level c with
  | error e => rfl
  | ok r =>
    simp only
    cases links fuel level r.1 r.2 <;> rfl

private theorem TooDeep.map {r : Parsed} (h : TooDeep r)
    (f : Condition × Cursor → Condition × Cursor) :
    TooDeep (r.map f) := by
  obtain ⟨span, rfl⟩ := h
  exact ⟨span, rfl⟩

private theorem chain_of_meets {level : Precedence} {p : Phrase} (h : Meets (some level) p)
    {c : Cursor} {rest : List Lexeme} (fuel : Nat) (hspells : c.Spells p rest)
    (hstops : Stops level.strength rest) :
    chain fuel level c = .ok (p.condition, c.skipTo rest) ∨ TooDeep (chain fuel level c) := by
  cases fuel with
  | zero => exact .inr ⟨_, rfl⟩
  | succ fuel =>
    have hstops' : Stops (level.strength + 1) rest := fun lexeme others op hrest ht =>
      Nat.lt_succ_of_lt (hstops lexeme others op hrest ht)
    rw [chain_eq_opened]
    rcases h c rest fuel hspells hstops' with ⟨left, hopened⟩ | hdeep
    · rw [hopened]
      cases left with
      | zero => exact .inr (TooDeep.map ⟨_, rfl⟩ _)
      | succ left =>
        have hdone : links (left + 1) level p.condition (c.along level p rest) =
            .ok (p.condition, c.along level p rest) :=
          links_eq_ok.mpr (.inl ⟨operator?_eq_none hstops, rfl, rfl⟩)
        rw [hdone]
        exact .inl rfl
    · exact .inr (hdeep.map _)

private theorem operand_of_meets {level : Precedence} {p : Phrase} (h : Meets level.tighter? p)
    {c : Cursor} {rest : List Lexeme} (fuel : Nat) (hspells : c.Spells p rest)
    (hstops : Stops (level.strength + 1) rest) :
    operand fuel level c = .ok (p.condition, c.skipTo rest) ∨ TooDeep (operand fuel level c) := by
  cases fuel with
  | zero => exact .inr ⟨_, rfl⟩
  | succ fuel =>
    have hplace := place_tighter? level
    rw [operand]
    cases htighter : level.tighter? with
    | none =>
      rw [htighter] at h
      exact h c rest fuel hspells
    | some tighter =>
      rw [htighter] at h hplace
      rw [place] at hplace
      exact chain_of_meets h fuel hspells (by rwa [hplace])

private theorem meets_signed (sign : Sign) {part : Phrase} (h : Meets none part) :
    Meets none (.signed sign part) := by
  intro c rest fuel hspells
  obtain ⟨hsign, hbehind⟩ := spells_signed.mp hspells
  cases fuel with
  | zero => exact .inr ⟨_, rfl⟩
  | succ fuel =>
    rw [signed_of_sign hsign]
    rcases enter_cases c with henter | ⟨span, henter⟩
    · rw [henter, Except.bind]
      rcases h c.behind rest fuel hbehind with hpart | hdeep
      · rw [hpart]
        exact .inl rfl
      · exact .inr (hdeep.map _)
    · rw [henter]
      exact .inr ⟨span, rfl⟩

private theorem meets_of_leaf {p : Phrase} (token : Token) (hne : ∀ sign : Sign, token ≠ sign.token)
    (htoken : ∀ (c : Cursor) (rest : List Lexeme), c.Spells p rest → c.token? = some token)
    (hleaf : ∀ (c : Cursor) (rest : List Lexeme) (fuel : Nat), c.Spells p rest →
      leaf (fuel + 1) c = .ok (p.condition, c.skipTo rest) ∨ TooDeep (leaf (fuel + 1) c)) :
    Meets none p := by
  intro c rest fuel hspells
  match fuel with
  | 0 => exact .inr ⟨_, rfl⟩
  | 1 =>
    rw [signed_eq_leaf_of_token (htoken c rest hspells) hne]
    exact .inr ⟨_, rfl⟩
  | fuel + 2 =>
    rw [signed_eq_leaf_of_token (htoken c rest hspells) hne]
    exact hleaf c rest fuel hspells

private theorem leaf_tooDeep {fuel : Nat} {c : Cursor} (hopen : c.token? = some .openParen)
    (h : c.enter ≠ .ok c.behind ∨ TooDeep (chain fuel .or c.behind)) :
    TooDeep (leaf (fuel + 1) c) := by
  obtain ⟨lexeme, hl, ht⟩ := Option.map_eq_some_iff.mp hopen
  obtain ⟨rest, hc⟩ := List.head?_eq_some_iff.mp hl
  rw [leaf]
  simp only [hc, ht]
  rcases enter_cases c with henter | ⟨span, henter⟩
  · obtain ⟨span, hchain⟩ := h.resolve_left (not_not_intro henter)
    simp only [henter, hchain]
    exact ⟨span, rfl⟩
  · simp only [henter]
    exact ⟨span, rfl⟩

private theorem meets_group {inner : Phrase} (h : Meets (some .or) inner) :
    Meets none (.group inner) := by
  apply meets_of_leaf .openParen
  · intro sign
    cases sign <;> simp [Sign.token]
  · intro c rest hspells
    exact (spells_group.mp hspells).1
  · intro c rest fuel hspells
    obtain ⟨hopen, close, hclose, hbehind⟩ := spells_group.mp hspells
    have hstops : Stops Precedence.or.strength (close :: rest) := by
      intro lexeme others op hrest ht
      obtain ⟨rfl, rfl⟩ := List.cons.inj hrest
      rw [hclose] at ht
      cases ht
    rcases enter_cases c with henter | ⟨span, henter⟩
    · rcases chain_of_meets h fuel hbehind hstops with hchain | hdeep
      · have hdepth := (enter_eq_ok.mp henter).1
        exact .inl ((leaf_group hopen).mpr ⟨hdepth, c.behind.skipTo (close :: rest), close, rest,
          hchain, rfl, hclose, rfl⟩)
      · exact .inr (leaf_tooDeep hopen (.inr hdeep))
    · exact .inr (leaf_tooDeep hopen (.inl (by simp [henter])))

private theorem meets_constant (value : Scalar) : Meets none (.constant value) := by
  apply meets_of_leaf (.constant value)
  · intro sign
    cases sign <;> simp [Sign.token]
  · intro c rest hspells
    obtain ⟨lexeme, ht, hc⟩ := spells_constant.mp hspells
    rw [token?, hc, List.head?_cons, Option.map_some, ht]
  · intro c rest fuel hspells
    obtain ⟨lexeme, ht, hc⟩ := spells_constant.mp hspells
    exact .inl (leaf_constant hc ht)

private theorem meets_property (name : String) : Meets none (.property name) := by
  apply meets_of_leaf (.property name)
  · intro sign
    cases sign <;> simp [Sign.token]
  · intro c rest hspells
    obtain ⟨lexeme, ht, hc⟩ := spells_property.mp hspells
    rw [token?, hc, List.head?_cons, Option.map_some, ht]
  · intro c rest fuel hspells
    obtain ⟨lexeme, ht, hc⟩ := spells_property.mp hspells
    exact .inl (leaf_property hc ht)

private theorem meets_operand {level : Precedence} {p : Phrase}
    (hderives : p.Derives level.tighter?)
    (h : Meets level.tighter? p) : Meets (some level) p := by
  intro c rest fuel hspells hstops
  have hzero : p.links level = 0 := by
    apply hderives.links_eq_zero
    rw [place_tighter?]
    exact Nat.lt_succ_self _
  rw [opened]
  rcases operand_of_meets h fuel hspells hstops with hop | ⟨span, hdeep⟩
  · refine .inl ⟨fuel, ?_⟩
    rw [hop, along, hzero]
    rfl
  · rw [hdeep]
    exact .inr ⟨span, rfl⟩

private theorem meets_link {level : Precedence} {op : Operator} {lhs rhs : Phrase}
    (hlevel : op.precedence = level) (hl : Meets (some level) lhs)
    (hr : Meets level.tighter? rhs) : Meets (some level) (.link op lhs rhs) := by
  intro c rest fuel hspells hstops
  obtain ⟨lexeme, between, htoken, hleft, hright⟩ := spells_link.mp hspells
  have hstopsl : Stops (level.strength + 1) (lexeme :: between) := by
    intro l others o hrest ho
    obtain ⟨rfl, rfl⟩ := List.cons.inj hrest
    rw [htoken] at ho
    cases ho
    rw [hlevel]
    exact Nat.lt_succ_self _
  rcases hl c _ fuel hleft hstopsl with ⟨left, hopened⟩ | hdeep
  · rw [hopened]
    cases left with
    | zero => exact .inr ⟨_, rfl⟩
    | succ left =>
      let here := c.along level lhs (lexeme :: between)
      have hop : here.operator? level = some op :=
        operator?_eq_some.mpr ⟨congrArg some htoken, hlevel⟩
      have hplace : here.behind.skipTo rest = c.along level (.link op lhs rhs) rest := by
        simp only [here, skipTo, behind, along, Phrase.links, if_pos hlevel]
        rfl
      show (∃ left', links (left + 1) level lhs.condition here = _) ∨ TooDeep (links _ _ _ here)
      rw [links, hop]
      simp only
      rcases enter_cases here with henter | ⟨span, henter⟩
      · rw [henter]
        simp only
        rcases operand_of_meets (c := here.behind) hr left hright hstops with hrhs | ⟨span, hdeep⟩
        · rw [hrhs, hplace]
          exact .inl ⟨left, rfl⟩
        · rw [hdeep]
          exact .inr ⟨span, rfl⟩
      · rw [henter]
        exact .inr ⟨span, rfl⟩
  · exact .inr hdeep

private theorem meets {rank : Option Precedence} {p : Phrase} (h : p.Derives rank) :
    Meets rank p := by
  induction h with
  | constant value => exact meets_constant value
  | property name => exact meets_property name
  | group _ ih => exact meets_group ih
  | signed sign _ ih => exact meets_signed sign ih
  | operand h ih => exact meets_operand h ih
  | link hlevel _ _ ihl ihr => exact meets_link hlevel ihl ihr

/-- More fuel than the depth of a place leaves room for changes nothing. -/
structure Inert (fuel : Nat) : Prop where
  chain : ∀ (level : Precedence) (c : Cursor), c.depth ≤ nestingLimit →
    11 * (nestingLimit - c.depth) + 10 ≤ fuel + 2 * level.strength →
      chain (fuel + 1) level c = chain fuel level c
  links : ∀ (level : Precedence) (lhs : Condition) (c : Cursor), c.depth ≤ nestingLimit →
    11 * (nestingLimit - c.depth) + 1 ≤ fuel → links (fuel + 1) level lhs c = links fuel level lhs c
  operand : ∀ (level : Precedence) (c : Cursor), c.depth ≤ nestingLimit →
    11 * (nestingLimit - c.depth) + 9 ≤ fuel + 2 * level.strength →
      operand (fuel + 1) level c = operand fuel level c
  signed : ∀ c : Cursor, c.depth ≤ nestingLimit → 11 * (nestingLimit - c.depth) + 2 ≤ fuel →
    signed (fuel + 1) c = signed fuel c
  leaf : ∀ c : Cursor, c.depth ≤ nestingLimit → 11 * (nestingLimit - c.depth) + 1 ≤ fuel →
    leaf (fuel + 1) c = leaf fuel c

private theorem depth_of_operand {fuel : Nat} {level : Precedence} {c next : Cursor}
    {condition : Condition}
    (hd : c.depth ≤ nestingLimit) (h : operand fuel level c = .ok (condition, next)) :
    next.depth = c.depth := by
  obtain ⟨p, -, -, hnext⟩ := (parsers_sound fuel).2.2.1 level c condition next hd h
  rw [hnext]
  rfl

private theorem Inert.chain_succ {fuel : Nat} (h : Inert fuel) {level : Precedence} {c : Cursor}
    (hd : c.depth ≤ nestingLimit)
    (hfuel : 11 * (nestingLimit - c.depth) + 10 ≤ fuel + 1 + 2 * level.strength) :
    Condition.chain (fuel + 2) level c = Condition.chain (fuel + 1) level c := by
  have hlevel := strength_le level
  rw [Condition.chain, Condition.chain, h.operand level c hd (by omega)]
  cases hop : Condition.operand fuel level c with
  | error e => rfl
  | ok r =>
    obtain ⟨lhs, next⟩ := r
    have hnext := depth_of_operand hd hop
    simp only
    rw [h.links level lhs next (by omega) (by omega)]

private theorem Inert.links_succ {fuel : Nat} (h : Inert fuel) {level : Precedence}
    {lhs : Condition}
    {c : Cursor} (hfuel : 11 * (nestingLimit - c.depth) + 1 ≤ fuel + 1) :
    Condition.links (fuel + 2) level lhs c = Condition.links (fuel + 1) level lhs c := by
  rw [Condition.links, Condition.links]
  cases hop : c.operator? level with
  | none => rfl
  | some op =>
    simp only
    rcases enter_cases c with henter | ⟨span, henter⟩
    · have hdepth := (enter_eq_ok.mp henter).1
      rw [henter]
      simp only
      rw [h.operand level c.behind hdepth (by rw [behind_depth]; omega)]
      cases hrhs : Condition.operand fuel level c.behind with
      | error e => rfl
      | ok r =>
        obtain ⟨rhs, next⟩ := r
        have hnext := depth_of_operand (c := c.behind) hdepth hrhs
        rw [behind_depth] at hnext
        exact h.links level _ next (by omega) (by omega)
    · rw [henter]

private theorem Inert.operand_succ {fuel : Nat} (h : Inert fuel) {level : Precedence} {c : Cursor}
    (hd : c.depth ≤ nestingLimit)
    (hfuel : 11 * (nestingLimit - c.depth) + 9 ≤ fuel + 1 + 2 * level.strength) :
    Condition.operand (fuel + 2) level c = Condition.operand (fuel + 1) level c := by
  have hlevel := strength_le level
  have hplace := place_tighter? level
  rw [Condition.operand, Condition.operand]
  cases htighter : level.tighter? with
  | none =>
    rw [htighter, place] at hplace
    exact h.signed c hd (by omega)
  | some tighter =>
    rw [htighter, place] at hplace
    exact h.chain tighter c hd (by omega)

private theorem Inert.signed_succ {fuel : Nat} (h : Inert fuel) {c : Cursor}
    (hd : c.depth ≤ nestingLimit)
    (hfuel : 11 * (nestingLimit - c.depth) + 2 ≤ fuel + 1) :
    Condition.signed (fuel + 2) c = Condition.signed (fuel + 1) c := by
  by_cases hsign : ∃ sign : Sign, c.token? = some sign.token
  · obtain ⟨sign, hsign⟩ := hsign
    rw [signed_of_sign hsign, signed_of_sign hsign]
    rcases enter_cases c with henter | ⟨span, henter⟩
    · have hdepth := (enter_eq_ok.mp henter).1
      rw [henter, Except.bind, Except.bind,
        h.signed c.behind hdepth (by rw [behind_depth]; omega)]
    · rw [henter]
      rfl
  · have hsign' : ∀ sign : Sign, c.token? ≠ some sign.token := fun sign hs => hsign ⟨sign, hs⟩
    rw [signed_eq_leaf hsign', signed_eq_leaf hsign']
    exact h.leaf c hd (by omega)

private theorem Inert.leaf_succ {fuel : Nat} (h : Inert fuel) {c : Cursor}
    (hfuel : 11 * (nestingLimit - c.depth) + 1 ≤ fuel + 1) :
    Condition.leaf (fuel + 2) c = Condition.leaf (fuel + 1) c := by
  rw [Condition.leaf, Condition.leaf]
  cases hc : c.rest with
  | nil => rfl
  | cons lexeme rest =>
    simp only
    cases lexeme.token with
    | openParen =>
      simp only
      rcases enter_cases c with henter | ⟨span, henter⟩
      · have hdepth := (enter_eq_ok.mp henter).1
        rw [henter]
        simp only
        rw [h.chain .or c.behind hdepth (by rw [behind_depth]; omega)]
      · rw [henter]
    | constant _ | property _ | binary _ | not | minus | plus | closeParen => rfl

private theorem inert (fuel : Nat) : Inert fuel := by
  induction fuel with
  | zero =>
    constructor
    · intro level c _ hfuel
      have hlevel := strength_le level
      omega
    · intro _ _ c _ hfuel
      omega
    · intro level c _ hfuel
      have hlevel := strength_le level
      omega
    · intro c _ hfuel
      omega
    · intro c _ hfuel
      omega
  | succ fuel ih =>
    constructor
    · intro level c hd hfuel
      exact ih.chain_succ hd hfuel
    · intro level lhs c _ hfuel
      exact ih.links_succ hfuel
    · intro level c hd hfuel
      exact ih.operand_succ hd hfuel
    · intro c hd hfuel
      exact ih.signed_succ hd hfuel
    · intro c _ hfuel
      exact ih.leaf_succ hfuel

/-- The recursion depth is never what stops a parse: a greater one gives the same answer. -/
theorem chain_eq_of_recursionBound_le {fuel : Nat} (h : recursionBound ≤ fuel)
    (lexemes : List Lexeme) (stop : Nat) :
    chain fuel .or ⟨lexemes, 0, stop⟩ = chain recursionBound .or ⟨lexemes, 0, stop⟩ := by
  induction h with
  | refl => rfl
  | @step fuel hle ih =>
    rw [← ih]
    apply (inert fuel).chain
    · exact Nat.zero_le _
    · have hbound : 11 * (nestingLimit - 0) + 10 ≤ recursionBound := by decide
      exact Nat.le_trans hbound (Nat.le_trans hle (Nat.le_add_right _ _))

theorem ofLexemes_of_spelled {p : Phrase} (hderives : p.Derives (some .or)) {lexemes : List Lexeme}
    (htokens : lexemes.map Lexeme.token = p.tokens) (stop : Nat) :
    ofLexemes lexemes stop = .ok p.condition ∨
      ∃ span, ofLexemes lexemes stop = .error ⟨.nestingTooDeep, span⟩ := by
  cases lexemes with
  | nil => exact absurd htokens.symm p.tokens_ne_nil
  | cons lexeme others =>
    have hspells : (Cursor.mk (lexeme :: others) 0 stop).Spells p [] :=
      ⟨lexeme :: others, htokens, (List.append_nil _).symm⟩
    have hstops : Stops Precedence.or.strength [] := fun _ _ _ hrest => by cases hrest
    rw [ofLexemes]
    · rcases chain_of_meets (meets hderives) recursionBound hspells hstops with h | ⟨span, h⟩
      · rw [h]
        exact .inl rfl
      · rw [h]
        exact .inr ⟨span, rfl⟩
    · exact fun h => by cases h

end FeatureStyle.Condition
