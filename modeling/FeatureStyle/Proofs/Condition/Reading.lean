import FeatureStyle.Proofs.Condition.Phrase

/-!
# Parsing is reading phrases

The parser finds a condition in exactly the texts that spell a phrase whose operands are nested at
most `nestingLimit` levels deep, and finds the condition that the phrase stands for.
-/

namespace FeatureStyle.Condition

open Precedence

namespace Cursor

def skipTo (c : Cursor) (rest : List Lexeme) : Cursor := { c with rest }

def behind (c : Cursor) : Cursor := { c with rest := c.rest.tail, depth := c.depth + 1 }

@[simp] theorem skipTo_rest (c : Cursor) (rest : List Lexeme) : (c.skipTo rest).rest = rest := rfl

@[simp] theorem behind_depth (c : Cursor) : c.behind.depth = c.depth + 1 := rfl

@[simp] theorem behind_rest (c : Cursor) : c.behind.rest = c.rest.tail := rfl

theorem enter_eq_ok {c inner : Cursor} :
    c.enter = .ok inner ↔ c.depth + 1 ≤ nestingLimit ∧ inner = c.behind := by
  rw [enter]
  split
  next h =>
    constructor
    · intro he
      cases he
    · rintro ⟨hle, -⟩
      omega
  next h =>
    rw [Except.ok.injEq]
    constructor
    · intro he
      exact ⟨Nat.le_of_not_lt h, he.symm⟩
    · rintro ⟨-, he⟩
      exact he.symm

/-- The lexemes at a place begin with the spelling of a phrase. -/
def Spells (c : Cursor) (p : Phrase) (rest : List Lexeme) : Prop :=
  ∃ lexemes, lexemes.map Lexeme.token = p.tokens ∧ c.rest = lexemes ++ rest

/-- The lexemes at a place begin with the spelling of a phrase that can be read there. -/
structure Reads (c : Cursor) (rank : Option Precedence) (p : Phrase) (rest : List Lexeme) :
    Prop where
  derives : p.Derives rank
  fits : p.FitsAt c.depth
  spells : c.Spells p rest

theorem spells_constant {c : Cursor} {value : Scalar} {rest : List Lexeme} :
    c.Spells (.constant value) rest ↔
      ∃ lexeme, lexeme.token = .constant value ∧ c.rest = lexeme :: rest := by
  simp only [Spells, Phrase.tokens, List.map_eq_singleton_iff]
  constructor
  · rintro ⟨_, ⟨lexeme, rfl, ht⟩, hc⟩
    exact ⟨lexeme, ht, hc⟩
  · rintro ⟨lexeme, ht, hc⟩
    exact ⟨[lexeme], ⟨lexeme, rfl, ht⟩, hc⟩

theorem spells_property {c : Cursor} {name : String} {rest : List Lexeme} :
    c.Spells (.property name) rest ↔
      ∃ lexeme, lexeme.token = .property name ∧ c.rest = lexeme :: rest := by
  simp only [Spells, Phrase.tokens, List.map_eq_singleton_iff]
  constructor
  · rintro ⟨_, ⟨lexeme, rfl, ht⟩, hc⟩
    exact ⟨lexeme, ht, hc⟩
  · rintro ⟨lexeme, ht, hc⟩
    exact ⟨[lexeme], ⟨lexeme, rfl, ht⟩, hc⟩

theorem spells_signed {c : Cursor} {sign : Sign} {part : Phrase} {rest : List Lexeme} :
    c.Spells (.signed sign part) rest ↔ c.token? = some sign.token ∧ c.behind.Spells part rest := by
  simp only [Spells, Phrase.tokens, token?, behind_rest]
  constructor
  · rintro ⟨lexemes, ht, hc⟩
    obtain ⟨lexeme, tail, rfl, hsign, htail⟩ := List.map_eq_cons_iff.mp ht
    rw [hc]
    exact ⟨congrArg some hsign, tail, htail, rfl⟩
  · rintro ⟨hsign, tail, htail, hc⟩
    obtain ⟨lexeme, hl, hsign⟩ := Option.map_eq_some_iff.mp hsign
    obtain ⟨others, hl⟩ := List.head?_eq_some_iff.mp hl
    rw [hl, List.tail_cons] at hc
    refine ⟨lexeme :: tail, by rw [List.map_cons, hsign, htail], ?_⟩
    rw [hl, hc, List.cons_append]

theorem spells_group {c : Cursor} {inner : Phrase} {rest : List Lexeme} :
    c.Spells (.group inner) rest ↔
      c.token? = some .openParen ∧
        ∃ close, close.token = .closeParen ∧ c.behind.Spells inner (close :: rest) := by
  simp only [Spells, Phrase.tokens, token?, behind_rest]
  constructor
  · rintro ⟨lexemes, ht, hc⟩
    obtain ⟨lexeme, tail, rfl, hopen, htail⟩ := List.map_eq_cons_iff.mp ht
    obtain ⟨body, last, rfl, hbody, hlast⟩ := List.map_eq_append_iff.mp htail
    obtain ⟨close, rfl, hclose⟩ := List.map_eq_singleton_iff.mp hlast
    rw [hc]
    refine ⟨congrArg some hopen, close, hclose, body, hbody, ?_⟩
    simp only [List.cons_append, List.append_assoc, List.tail_cons, List.nil_append]
  · rintro ⟨hopen, close, hclose, body, hbody, hc⟩
    obtain ⟨lexeme, hl, hopen⟩ := Option.map_eq_some_iff.mp hopen
    obtain ⟨others, hl⟩ := List.head?_eq_some_iff.mp hl
    rw [hl, List.tail_cons] at hc
    refine ⟨lexeme :: (body ++ [close]), ?_, ?_⟩
    · simp only [List.map_cons, List.map_append, List.map_nil, hopen, hbody, hclose,
        List.cons_append]
    · rw [hl, hc, List.cons_append, List.append_assoc, List.singleton_append]

theorem spells_link {c : Cursor} {op : Operator} {lhs rhs : Phrase} {rest : List Lexeme} :
    c.Spells (.link op lhs rhs) rest ↔
      ∃ lexeme between, lexeme.token = .binary op ∧ c.Spells lhs (lexeme :: between) ∧
        (c.skipTo between).Spells rhs rest := by
  simp only [Spells, Phrase.tokens, skipTo_rest]
  constructor
  · rintro ⟨lexemes, ht, hc⟩
    obtain ⟨left, tail, rfl, hleft, htail⟩ := List.map_eq_append_iff.mp ht
    obtain ⟨lexeme, right, rfl, hop, hright⟩ := List.map_eq_cons_iff.mp htail
    refine ⟨lexeme, right ++ rest, hop, ⟨left, hleft, ?_⟩, right, hright, rfl⟩
    rw [hc, List.append_assoc, List.cons_append]
  · rintro ⟨lexeme, between, hop, ⟨left, hleft, hc⟩, right, hright, hb⟩
    refine ⟨left ++ lexeme :: right, ?_, ?_⟩
    · rw [List.map_append, List.map_cons, hleft, hop, hright]
    · rw [hc, hb, List.append_assoc, List.cons_append]

/-- The place in a chain of a level behind the phrase read since its beginning. -/
def along (c : Cursor) (level : Precedence) (p : Phrase) (rest : List Lexeme) : Cursor :=
  { c with rest, depth := c.depth + p.links level }

theorem operator?_eq_some {c : Cursor} {level : Precedence} {op : Operator} :
    c.operator? level = some op ↔ c.token? = some (.binary op) ∧ op.precedence = level := by
  rw [operator?]
  split
  next o ho =>
    rw [ho]
    by_cases hlevel : o.precedence = level
    · rw [if_pos hlevel]
      simp only [Option.some.injEq, Token.binary.injEq]
      constructor
      · rintro rfl
        exact ⟨rfl, hlevel⟩
      · exact And.left
    · rw [if_neg hlevel]
      simp only [Option.some.injEq, Token.binary.injEq]
      constructor
      · intro h
        cases h
      · rintro ⟨rfl, h⟩
        exact absurd h hlevel
  next h =>
    constructor
    · intro hn
      cases hn
    · rintro ⟨ht, -⟩
      exact absurd ht (h op)

end Cursor

open Cursor

section Steps

variable {fuel : Nat} {level : Precedence} {c last : Cursor} {condition : Condition}

theorem chain_eq_ok :
    chain (fuel + 1) level c = .ok (condition, last) ↔
      ∃ lhs next done, operand fuel level c = .ok (lhs, next) ∧
        links fuel level lhs next = .ok (condition, done) ∧
        last = { done with depth := c.depth } := by
  rw [chain]
  constructor
  · intro h
    cases hop : operand fuel level c with
    | error e => rw [hop] at h; cases h
    | ok r =>
      rw [hop] at h
      simp only at h
      cases hlinks : links fuel level r.1 r.2 with
      | error e => rw [hlinks] at h; cases h
      | ok s =>
        rw [hlinks] at h
        cases h
        exact ⟨r.1, r.2, s.2, rfl, hlinks, rfl⟩
  · rintro ⟨lhs, next, done, hop, hlinks, rfl⟩
    simp only [hop, hlinks]

theorem links_eq_ok {lhs : Condition} :
    links (fuel + 1) level lhs c = .ok (condition, last) ↔
      (c.operator? level = none ∧ condition = lhs ∧ last = c) ∨
        ∃ op rhs next, c.operator? level = some op ∧ c.depth + 1 ≤ nestingLimit ∧
          operand fuel level c.behind = .ok (rhs, next) ∧
          links fuel level (binary op lhs rhs) next = .ok (condition, last) := by
  rw [links]
  cases hop : c.operator? level with
  | none => simp [eq_comm]
  | some op =>
    simp only [reduceCtorEq, false_and, Option.some.injEq, false_or]
    by_cases hd : c.depth + 1 ≤ nestingLimit
    · simp only [enter_eq_ok.mpr ⟨hd, rfl⟩]
      cases hr : operand fuel level c.behind with
      | error e => simp
      | ok r =>
        obtain ⟨rhs, next⟩ := r
        simp only [hd, Except.ok.injEq, Prod.mk.injEq, true_and]
        constructor
        · intro h
          exact ⟨op, rhs, next, rfl, ⟨rfl, rfl⟩, h⟩
        · rintro ⟨_, _, _, rfl, ⟨rfl, rfl⟩, h⟩
          exact h
    · cases he : c.enter with
      | error e => simp [hd]
      | ok inner => exact absurd (enter_eq_ok.mp he).1 hd

theorem signed_of_sign {sign : Sign} (hsign : c.token? = some sign.token) :
    signed (fuel + 1) c = c.enter.bind fun inner =>
      (signed fuel inner).map fun r => (sign.apply r.1, { r.2 with depth := c.depth }) := by
  rw [signed]
  cases sign <;> simp only [hsign, Sign.token]
  all_goals
    cases c.enter with
    | error e => rfl
    | ok inner =>
      simp only [Except.bind]
      cases signed fuel inner <;> rfl

theorem signed_eq_ok {sign : Sign} (hsign : c.token? = some sign.token) :
    signed (fuel + 1) c = .ok (condition, last) ↔
      c.depth + 1 ≤ nestingLimit ∧ ∃ part next, signed fuel c.behind = .ok (part, next) ∧
        condition = sign.apply part ∧ last = { next with depth := c.depth } := by
  rw [signed_of_sign hsign]
  by_cases hd : c.depth + 1 ≤ nestingLimit
  · rw [enter_eq_ok.mpr ⟨hd, rfl⟩, Except.bind]
    cases signed fuel c.behind with
    | error e => simp [Except.map]
    | ok r =>
      obtain ⟨part, next⟩ := r
      simp only [Except.map, hd, Except.ok.injEq, Prod.mk.injEq, true_and]
      constructor
      · rintro ⟨rfl, rfl⟩
        exact ⟨part, next, ⟨rfl, rfl⟩, rfl, rfl⟩
      · rintro ⟨_, _, ⟨rfl, rfl⟩, rfl, rfl⟩
        exact ⟨rfl, rfl⟩
  · cases he : c.enter with
    | error e => simp [Except.bind, hd]
    | ok inner => exact absurd (enter_eq_ok.mp he).1 hd

theorem signed_eq_leaf (hsign : ∀ sign : Sign, c.token? ≠ some sign.token) :
    signed (fuel + 1) c = leaf fuel c := by
  rw [signed]
  split
  next h => exact absurd h (hsign .not)
  next h => exact absurd h (hsign .minus)
  next h => exact absurd h (hsign .plus)
  next => rfl

theorem leaf_constant {lexeme : Lexeme} {rest : List Lexeme} {value : Scalar}
    (hc : c.rest = lexeme :: rest) (ht : lexeme.token = .constant value) :
    leaf (fuel + 1) c = .ok (constant value, c.skipTo rest) := by
  rw [leaf]
  simp only [hc, ht]
  rfl

theorem leaf_property {lexeme : Lexeme} {rest : List Lexeme} {name : String}
    (hc : c.rest = lexeme :: rest) (ht : lexeme.token = .property name) :
    leaf (fuel + 1) c = .ok (property name, c.skipTo rest) := by
  rw [leaf]
  simp only [hc, ht]
  rfl

theorem leaf_group (ht : c.token? = some .openParen) :
    leaf (fuel + 1) c = .ok (condition, last) ↔
      c.depth + 1 ≤ nestingLimit ∧
        ∃ done close others, chain fuel .or c.behind = .ok (condition, done) ∧
          done.rest = close :: others ∧ close.token = .closeParen ∧
          last = { done with rest := others, depth := done.depth - 1 } := by
  obtain ⟨lexeme, hl, ht⟩ := Option.map_eq_some_iff.mp ht
  obtain ⟨rest, hc⟩ := List.head?_eq_some_iff.mp hl
  rw [leaf]
  simp only [hc, ht]
  by_cases hd : c.depth + 1 ≤ nestingLimit
  · simp only [enter_eq_ok.mpr ⟨hd, rfl⟩]
    cases hchain : chain fuel .or c.behind with
    | error e => simp
    | ok r =>
      obtain ⟨inner, done⟩ := r
      simp only [hd, Except.ok.injEq, Prod.mk.injEq, true_and]
      constructor
      · intro h
        split at h
        next close others hdone =>
          cases h
          exact ⟨done, _, others, ⟨rfl, rfl⟩, hdone, rfl, rfl⟩
        next => cases h
      · rintro ⟨_, ⟨token, span⟩, others, ⟨rfl, rfl⟩, hdone, hclose, rfl⟩
        cases hclose
        simp only [hdone]
  · cases he : c.enter with
    | error e => simp [hd]
    | ok inner => exact absurd (enter_eq_ok.mp he).1 hd

private theorem token?_of_leaf (h : leaf (fuel + 1) c = .ok (condition, last)) :
    ∃ lexeme rest, c.rest = lexeme :: rest ∧
      ((∃ value, lexeme.token = .constant value) ∨ (∃ name, lexeme.token = .property name) ∨
        lexeme.token = .openParen) := by
  rw [leaf] at h
  split at h
  next => cases h
  next lexeme rest hc =>
    refine ⟨lexeme, rest, hc, ?_⟩
    split at h
    next value ht => exact .inl ⟨value, ht⟩
    next name ht => exact .inr (.inl ⟨name, ht⟩)
    next ht => exact .inr (.inr ht)
    next => cases h

end Steps

/-- The phrases of a rank that a parser finds are phrases of the text. -/
def Sound (rank : Option Precedence) (parser : Cursor → Parsed) : Prop :=
  ∀ (c : Cursor) (condition : Condition) (last : Cursor), c.depth ≤ nestingLimit →
    parser c = .ok (condition, last) →
      ∃ p, c.Reads rank p last.rest ∧ p.condition = condition ∧ last = c.skipTo last.rest

/-- A chain goes on from what it has read with phrases of the text. -/
def LinksSound (fuel : Nat) : Prop :=
  ∀ (level : Precedence) (c : Cursor) (q : Phrase) (rest : List Lexeme) (condition : Condition)
    (last : Cursor), c.Reads (some level) q rest →
      links fuel level q.condition (c.along level q rest) = .ok (condition, last) →
        ∃ p, c.Reads (some level) p last.rest ∧ p.condition = condition ∧
          last = c.along level p last.rest

theorem chain_sound {fuel : Nat} {level : Precedence}
    (hoperand : Sound level.tighter? (operand fuel level)) (hlinks : LinksSound fuel) :
    Sound (some level) (chain (fuel + 1) level) := by
  intro c condition last hd h
  obtain ⟨lhs, next, done, hop, hmore, rfl⟩ := chain_eq_ok.mp h
  obtain ⟨q, hq, rfl, hnext⟩ := hoperand c lhs next hd hop
  have hzero : q.links level = 0 := by
    apply hq.derives.links_eq_zero
    rw [place_tighter?]
    exact Nat.lt_succ_self _
  have hq' : c.Reads (some level) q next.rest := ⟨.operand hq.derives, hq.fits, hq.spells⟩
  have hplace : next = c.along level q next.rest := by
    rw [hnext, along, hzero]
    rfl
  rw [hplace] at hmore
  obtain ⟨p, hp, rfl, hdone⟩ := hlinks level c q next.rest condition done hq' hmore
  refine ⟨p, hp, rfl, ?_⟩
  rw [hdone]
  rfl

private theorem links_sound {fuel : Nat}
    (hoperand : ∀ level : Precedence, Sound level.tighter? (operand fuel level))
    (hlinks : LinksSound fuel) : LinksSound (fuel + 1) := by
  intro level c q rest condition last hq h
  rcases links_eq_ok.mp h with ⟨-, rfl, rfl⟩ | ⟨op, rhs, next, hop, hdepth, hrhs, hmore⟩
  · exact ⟨q, hq, rfl, rfl⟩
  obtain ⟨htoken, hlevel⟩ := operator?_eq_some.mp hop
  obtain ⟨lexeme, hl, ht⟩ := Option.map_eq_some_iff.mp htoken
  obtain ⟨others, hrest⟩ := List.head?_eq_some_iff.mp hl
  obtain ⟨r, hr, rfl, hnext⟩ := hoperand level _ rhs next hdepth hrhs
  have hspells : (c.skipTo others).Spells r next.rest := by
    have hbehind := hr.spells
    rw [Cursor.Spells, behind_rest, hrest, List.tail_cons] at hbehind
    exact hbehind
  have hq' : c.Reads (some level) (.link op q r) next.rest := by
    refine ⟨.link hlevel hq.derives hr.derives, ?_, ?_⟩
    · rw [Phrase.fitsAt_link, hlevel]
      exact ⟨hq.fits, hr.fits⟩
    · refine spells_link.mpr ⟨lexeme, others, ht, ?_, hspells⟩
      rw [← hrest]
      exact hq.spells
  have hplace : next = c.along level (.link op q r) next.rest := by
    rw [hnext]
    simp only [skipTo, behind, along, Phrase.links, if_pos hlevel]
    rfl
  rw [hplace] at hmore
  exact hlinks level c (.link op q r) next.rest condition last hq' hmore

private theorem operand_sound {fuel : Nat}
    (hchain : ∀ level, Sound (some level) (chain fuel level)) (hsigned : Sound none (signed fuel))
    (level : Precedence) : Sound level.tighter? (operand (fuel + 1) level) := by
  intro c condition last hd h
  rw [operand] at h
  cases hlevel : level.tighter? with
  | none =>
    rw [hlevel] at h
    exact hsigned c condition last hd h
  | some tighter =>
    rw [hlevel] at h
    exact hchain tighter c condition last hd h

private theorem signed_sound {fuel : Nat} (hsigned : Sound none (signed fuel))
    (hleaf : Sound none (leaf fuel)) : Sound none (signed (fuel + 1)) := by
  intro c condition last hd h
  by_cases hsign : ∃ sign : Sign, c.token? = some sign.token
  · obtain ⟨sign, hsign⟩ := hsign
    obtain ⟨hdepth, part, next, hpart, rfl, rfl⟩ := (signed_eq_ok hsign).mp h
    obtain ⟨p, hp, rfl, hnext⟩ := hsigned c.behind part next hdepth hpart
    refine ⟨.signed sign p, ⟨.signed sign hp.derives, ?_, ?_⟩, rfl, ?_⟩
    · exact Phrase.fitsAt_signed.mpr hp.fits
    · exact spells_signed.mpr ⟨hsign, hp.spells⟩
    · rw [hnext]
      rfl
  · rw [signed_eq_leaf fun sign hs => hsign ⟨sign, hs⟩] at h
    exact hleaf c condition last hd h

private theorem leaf_sound {fuel : Nat} (hchain : ∀ level, Sound (some level) (chain fuel level)) :
    Sound none (leaf (fuel + 1)) := by
  intro c condition last hd h
  obtain ⟨lexeme, rest, hc, ⟨value, ht⟩ | ⟨name, ht⟩ | ht⟩ := token?_of_leaf h
  · rw [leaf_constant hc ht] at h
    cases h
    exact ⟨.constant value, ⟨.constant value, Phrase.fitsAt_constant.mpr hd,
      spells_constant.mpr ⟨lexeme, ht, hc⟩⟩, rfl, rfl⟩
  · rw [leaf_property hc ht] at h
    cases h
    exact ⟨.property name, ⟨.property name, Phrase.fitsAt_property.mpr hd,
      spells_property.mpr ⟨lexeme, ht, hc⟩⟩, rfl, rfl⟩
  · have hopen : c.token? = some .openParen := by rw [token?, hc, List.head?_cons, Option.map_some, ht]
    obtain ⟨hdepth, done, close, others, hinner, hdone, hclose, rfl⟩ := (leaf_group hopen).mp h
    obtain ⟨p, hp, rfl, hplace⟩ := hchain .or c.behind condition done hdepth hinner
    have hspells := hp.spells
    rw [hdone] at hspells
    refine ⟨.group p, ⟨.group hp.derives, ?_, ?_⟩, rfl, ?_⟩
    · exact Phrase.fitsAt_group.mpr hp.fits
    · exact spells_group.mpr ⟨hopen, close, hclose, hspells⟩
    · rw [hplace]
      rfl

theorem parsers_sound (fuel : Nat) :
    (∀ level, Sound (some level) (chain fuel level)) ∧ LinksSound fuel ∧
      (∀ level : Precedence, Sound level.tighter? (operand fuel level)) ∧
      Sound none (signed fuel) ∧ Sound none (leaf fuel) := by
  induction fuel with
  | zero =>
    refine ⟨?_, ?_, ?_, ?_, ?_⟩
    · intro level c condition last hd h
      rw [chain] at h
      cases h
    · intro level c q rest condition last hq h
      rw [links] at h
      cases h
    · intro level c condition last hd h
      rw [operand] at h
      cases h
    · intro c condition last hd h
      rw [signed] at h
      cases h
    · intro c condition last hd h
      rw [leaf] at h
      cases h
  | succ fuel ih =>
    obtain ⟨hchain, hlinks, hoperand, hsigned, hleaf⟩ := ih
    exact ⟨fun level => chain_sound (hoperand level) hlinks, links_sound hoperand hlinks,
      operand_sound hchain hsigned, signed_sound hsigned hleaf, leaf_sound hchain⟩

end FeatureStyle.Condition
