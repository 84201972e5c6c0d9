import Mathlib.Data.List.Nodup
import FeatureStyle.Proofs.Condition.Spans

/-!
# Unclosed parentheses

A parenthesis is called unclosed where the inside of a group breaks off: behind the longest beginning
that can be read, no closing parenthesis comes next. It may still come later, behind an operand that is
one too many. The main statement is `matched_iff_of_unclosed`.
-/

namespace FeatureStyle

namespace Token

inductive Balanced : List Token → Prop
  | nil : Balanced []
  | plain {token : Token} {tokens : List Token} : token ≠ .openParen → token ≠ .closeParen →
    Balanced tokens → Balanced (token :: tokens)
  | group {inner tokens : List Token} : Balanced inner → Balanced tokens →
    Balanced (.openParen :: inner ++ .closeParen :: tokens)

/-- Among tokens there is a closing parenthesis whose opening one is not among them. -/
def Closed (tokens : List Token) : Prop :=
  ∃ inner behind, Balanced inner ∧ tokens = inner ++ .closeParen :: behind

/-- Whether more parentheses are closed than were opened, of which some were opened before. -/
def closes : Nat → List Token → Bool
  | _, [] => false
  | depth, .openParen :: tokens => closes (depth + 1) tokens
  | 0, .closeParen :: _ => true
  | depth + 1, .closeParen :: tokens => closes depth tokens
  | depth, _ :: tokens => closes depth tokens

private theorem closes_plain {token : Token} (hopen : token ≠ .openParen)
    (hclose : token ≠ .closeParen)
    (depth : Nat) (tokens : List Token) : closes depth (token :: tokens) = closes depth tokens := by
  cases token with
  | openParen => exact absurd rfl hopen
  | closeParen => exact absurd rfl hclose
  | _ => cases depth <;> rfl

private theorem closes_openParen (depth : Nat) (tokens : List Token) :
    closes depth (.openParen :: tokens) = closes (depth + 1) tokens := by
  cases depth <;> rfl

private theorem Balanced.closes_append {inner : List Token} (h : Balanced inner) (depth : Nat)
    (tokens : List Token) : closes depth (inner ++ tokens) = closes depth tokens := by
  induction h generalizing depth tokens with
  | nil => rfl
  | plain hopen hclose _ ih => rw [List.cons_append, closes_plain hopen hclose, ih]
  | group _ _ ihinner ih =>
    rw [List.append_assoc, List.cons_append, List.cons_append, closes_openParen, ihinner, closes, ih]

private theorem split_of_closes {depth : Nat} {tokens : List Token}
    (h : closes depth tokens = true) :
    ∃ inner behind, Balanced inner ∧ tokens = inner ++ .closeParen :: behind ∧
      ∀ d, depth = d + 1 → closes d behind = true := by
  induction hn : tokens.length using Nat.strong_induction_on generalizing depth tokens with
  | _ n ih =>
  cases tokens with
  | nil => cases depth <;> cases h
  | cons token tokens =>
    have hlength : tokens.length < n := by simp [← hn]
    by_cases hclose : token = .closeParen
    · subst hclose
      refine ⟨[], tokens, .nil, rfl, fun d hd => ?_⟩
      rw [hd] at h
      exact h
    by_cases hopen : token = .openParen
    · -- The group ends where one level is closed, and the same is left to be shown behind it.
      subst hopen
      rw [closes_openParen] at h
      obtain ⟨inner, between, hinner, rfl, hbetween⟩ := ih _ hlength h rfl
      have hshorter : between.length < n := by
        simp only [List.length_append, List.length_cons] at hlength
        omega
      obtain ⟨others, behind, hothers, rfl, hbehind⟩ := ih _ hshorter (hbetween depth rfl) rfl
      exact ⟨_, behind, .group hinner hothers, by simp, hbehind⟩
    · rw [closes_plain hopen hclose] at h
      obtain ⟨inner, behind, hinner, rfl, hbehind⟩ := ih _ hlength h rfl
      exact ⟨token :: inner, behind, .plain hopen hclose hinner, rfl, hbehind⟩

private theorem closed_iff {tokens : List Token} : Closed tokens ↔ closes 0 tokens = true := by
  constructor
  · intro h
    obtain ⟨inner, behind, hinner, rfl⟩ := h
    rw [hinner.closes_append]
    rfl
  · intro h
    obtain ⟨inner, behind, hinner, htokens, -⟩ := split_of_closes h
    exact ⟨inner, behind, hinner, htokens⟩

instance (tokens : List Token) : Decidable (Closed tokens) := decidable_of_iff _ closed_iff.symm

end Token

open Token

theorem Phrase.closes_tokens (p : Phrase) (depth : Nat) (tokens : List Token) :
    closes depth (p.tokens ++ tokens) = closes depth tokens := by
  induction p generalizing depth tokens with
  | constant value => exact closes_plain (by simp) (by simp) depth tokens
  | property name => exact closes_plain (by simp) (by simp) depth tokens
  | group inner ih =>
    rw [Phrase.tokens, List.append_assoc, List.cons_append, closes_openParen, ih]
    rfl
  | signed sign part ih =>
    rw [Phrase.tokens, List.cons_append, closes_plain, ih]
    all_goals cases sign <;> simp [Sign.token]
  | link op lhs rhs ihl ihr =>
    rw [Phrase.tokens, List.append_assoc, ihl, List.cons_append, closes_plain (by simp) (by simp), ihr]

private theorem Phrase.closed_append (p : Phrase) (tokens : List Token) :
    Closed (p.tokens ++ tokens) ↔ Closed tokens := by
  rw [closed_iff, closed_iff, p.closes_tokens]

namespace Lexeme

/-- At a span stands an opening parenthesis, and a closing one behind it that matches it. -/
def Matched (lexemes : List Lexeme) (span : Span) : Prop :=
  ∃ before behind, lexemes = before ++ ⟨.openParen, span⟩ :: behind ∧
    Closed (behind.map Lexeme.token)

/-- At a span stands an opening parenthesis, behind it a phrase, and behind that something that neither
closes the parenthesis nor goes on with the phrase, or nothing. -/
structure BreaksOff (lexemes : List Lexeme) (span : Span) (rest : List Lexeme) : Prop where
  opened : ∃ before body, lexemes = before ++ ⟨.openParen, span⟩ :: (body ++ rest) ∧
    ∃ p : Phrase, p.Derives (some .or) ∧ body.map Lexeme.token = p.tokens
  unclosed : ∀ lexeme others, rest = lexeme :: others → lexeme.token ≠ .closeParen
  ended : ∀ lexeme others op, rest = lexeme :: others → lexeme.token ≠ .binary op

private theorem BreaksOff.prepend {lexemes rest : List Lexeme} {span : Span}
    (h : BreaksOff lexemes span rest)
    (more : List Lexeme) : BreaksOff (more ++ lexemes) span rest where
  opened := by
    obtain ⟨before, body, rfl, hbody⟩ := h.opened
    exact ⟨more ++ before, body, by rw [List.append_assoc], hbody⟩
  unclosed := h.unclosed
  ended := h.ended

theorem Covers.nodup {lexemes : List Lexeme} {source : List Char} (h : Covers lexemes source) :
    lexemes.Nodup := by
  refine h.increasing.imp_of_mem fun {a b} ha _ hab heq => ?_
  have hstop := h.nonempty a ha
  subst heq
  omega

/-- An opening parenthesis is matched exactly if what is behind the phrase behind it closes it. -/
theorem BreaksOff.matched_iff {lexemes rest : List Lexeme} {span : Span} (hnodup : lexemes.Nodup)
    (h : BreaksOff lexemes span rest) : Matched lexemes span ↔ Closed (rest.map Lexeme.token) := by
  obtain ⟨before, body, rfl, p, -, hbody⟩ := h.opened
  have hclosed : Closed ((body ++ rest).map Lexeme.token) ↔ Closed (rest.map Lexeme.token) := by
    rw [List.map_append, hbody, p.closed_append]
  rw [← hclosed]
  constructor
  · intro hmatched
    obtain ⟨before', behind, heq, hbehind⟩ := hmatched
    -- No other lexeme stands at this span, so both cut the lexemes at the same place.
    have hfree := (List.nodup_cons.mp (List.nodup_middle.mp hnodup)).1
    rw [List.mem_append, not_or] at hfree
    obtain ⟨-, -, rfl⟩ := (List.append_cons_inj_of_notMem hfree.1 hfree.2).mp heq
    exact hbehind
  · intro hbehind
    exact ⟨before, body ++ rest, rfl, hbehind⟩

end Lexeme

namespace Condition

open Precedence Cursor

variable {α β : Type} {P : Span → Prop} {fuel : Nat} {c : Cursor}

/-- If an outcome is an unclosed parenthesis, the span of it is as required. -/
def Blames (P : Span → Prop) (x : Except SyntaxError α) : Prop :=
  ∀ span, x = .error ⟨.unclosedParenthesis, span⟩ → P span

namespace Blames

variable {x : Except SyntaxError α}

private theorem ok (a : α) : Blames P (.ok a : Except SyntaxError α) := by
  intro span h
  cases h

private theorem bind {f : α → Except SyntaxError β} (h : Blames P x)
    (hf : ∀ a, x = .ok a → Blames P (f a)) : Blames P (x.bind f) := by
  cases x with
  | ok a => exact hf a rfl
  | error e =>
    intro span hspan
    cases hspan
    exact h span rfl

private theorem map {f : α → β} (h : Blames P x) : Blames P (x.map f) := by
  cases x with
  | ok a => exact ok (f a)
  | error e =>
    intro span hspan
    cases hspan
    exact h span rfl

private theorem error {cause : SyntaxErrorCause} {span : Span} (h : cause ≠ .unclosedParenthesis) :
    Blames P (.error ⟨cause, span⟩ : Except SyntaxError α) := by
  intro span hspan
  cases hspan
  exact absurd rfl h

private theorem mono {Q : Span → Prop} (h : Blames P x) (hpq : ∀ span, P span → Q span) :
    Blames Q x :=
  fun span hspan => hpq span (h span hspan)

private theorem enter (c : Cursor) : Blames P c.enter := by
  rcases enter_cases c with h | ⟨span, h⟩
  · exact h ▸ ok _
  · exact h ▸ error (by simp)

end Blames

private theorem piece_ne_unclosed (text : List Char) :
    (Lexeme.piece text).token ≠ .error .unclosedParenthesis := by
  have hstring : ∀ quote text, (Lexeme.stringPiece quote text).token ≠ .error .unclosedParenthesis := by
    intro quote text
    unfold Lexeme.stringPiece
    split
    split
    · split <;> simp [Lexeme.Piece.ofToken, Lexeme.Piece.unknown]
    · simp [Lexeme.Piece.unknown]
  fun_cases Lexeme.piece text
  · exact hstring _ _
  · exact hstring _ _
  · unfold Lexeme.placeholderPiece
    split
    · simp
    · split <;> simp [Lexeme.Piece.ofToken]
  case case23 =>
    unfold Lexeme.numberPiece
    split <;> simp [Lexeme.Piece.ofToken, Lexeme.Piece.unknown]
  all_goals simp [Lexeme.Piece.ofToken]

private theorem blames_splitAt (start : Nat) (text : List Char) :
    Blames P (Lexeme.splitAt fuel start text) := by
  induction fuel generalizing start text with
  | zero => exact .ok _
  | succ fuel ih =>
    cases text with
    | nil => exact .ok _
    | cons c text =>
      cases hc : Lexeme.isSeparator c with
      | true => exact Lexeme.splitAt_separator hc ▸ ih _ _
      | false =>
        cases hpiece : Lexeme.piece (c :: text) with
        | mk found n =>
          cases found with
          | ok token => exact Lexeme.splitAt_token hc hpiece ▸ (ih _ _).map
          | error cause =>
            rw [Lexeme.splitAt_error hc hpiece]
            apply Blames.error
            intro hcause
            apply piece_ne_unclosed (c :: text)
            rw [hpiece, hcause]

section Stopping

private theorem stops_of_operator?_eq_none {level : Precedence} (hop : c.operator? level = none)
    (h : Stops (level.strength + 1) c.rest) : Stops level.strength c.rest := by
  intro lexeme others op hrest ht
  apply Nat.lt_of_le_of_ne (Nat.le_of_lt_succ (h lexeme others op hrest ht))
  intro heq
  have hlevel : op.precedence = level := by
    cases hp : op.precedence <;> cases level <;> first | rfl | simp [hp, strength] at heq
  have hsome : c.operator? level = some op := by
    rw [operator?_eq_some, token?, hrest]
    exact ⟨congrArg some ht, hlevel⟩
  cases hop.symm.trans hsome

/-- What is read is read up to an operator that does not belong to it. -/
structure Halting (fuel : Nat) : Prop where
  chain : ∀ {level : Precedence} {c last : Cursor} {condition : Condition},
    chain fuel level c = .ok (condition, last) → Stops level.strength last.rest
  links : ∀ {level : Precedence} {lhs condition : Condition} {c last : Cursor},
    Stops (level.strength + 1) c.rest → links fuel level lhs c = .ok (condition, last) →
      Stops level.strength last.rest
  operand : ∀ {level : Precedence} {c last : Cursor} {condition : Condition},
    operand fuel level c = .ok (condition, last) → Stops (level.strength + 1) last.rest

private theorem Halting.succ (h : Halting fuel) : Halting (fuel + 1) where
  chain := by
    intro level c last condition hchain
    obtain ⟨lhs, next, done, hop, hlinks, rfl⟩ := chain_eq_ok.mp hchain
    have hstops := h.links (h.operand hop) hlinks
    exact hstops
  links := by
    intro level lhs condition c last hstops hlinks
    rcases links_eq_ok.mp hlinks with ⟨hop, -, rfl⟩ | ⟨op, rhs, next, -, -, hrhs, hmore⟩
    · exact stops_of_operator?_eq_none hop hstops
    · exact h.links (h.operand hrhs) hmore
  operand := by
    intro level c last condition hop
    have hplace := place_tighter? level
    rw [Condition.operand] at hop
    cases htighter : level.tighter? with
    | none =>
      rw [htighter, place] at hplace
      intro lexeme others op hrest ht
      exact Nat.lt_of_le_of_lt (strength_le _) (hplace ▸ Nat.lt_succ_self 3)
    | some tighter =>
      rw [htighter] at hop hplace
      exact hplace ▸ h.chain hop

private theorem halting (fuel : Nat) : Halting fuel := by
  induction fuel with
  | zero =>
    constructor
    · intro level c last condition h
      cases h
    · intro level lhs condition c last _ h
      cases h
    · intro level c last condition h
      cases h
  | succ fuel ih => exact ih.succ

end Stopping

section Blaming

/-- The inside of a group breaks off somewhere behind a place. -/
def Cursor.Unclosed (c : Cursor) (span : Span) : Prop := ∃ rest, Lexeme.BreaksOff c.rest span rest

private theorem Cursor.Unclosed.of_append {d : Cursor} (more : List Lexeme)
    (hrest : c.rest = more ++ d.rest)
    {span : Span} (h : d.Unclosed span) : c.Unclosed span := by
  obtain ⟨rest, hbreaks⟩ := h
  exact ⟨rest, hrest ▸ hbreaks.prepend more⟩

private theorem Cursor.Unclosed.of_behind {span : Span} (h : c.behind.Unclosed span) :
    c.Unclosed span := by
  cases hc : c.rest with
  | nil => exact h.of_append [] (by simp [hc])
  | cons lexeme rest => exact h.of_append [lexeme] (by simp [hc])

private theorem closing_blames {opening : Lexeme} {others : List Lexeme} {condition : Condition}
    {last : Cursor} (hc : c.rest = opening :: others) (hopen : opening.token = .openParen)
    {p : Phrase} (hp : c.behind.Reads (some .or) p last.rest) (hstops : Stops 0 last.rest) :
    Blames c.Unclosed (closing opening (condition, last)) := by
  obtain ⟨body, hbody, hrest⟩ := hp.spells
  rw [behind_rest, hc, List.tail_cons] at hrest
  intro span hspan
  rw [closing] at hspan
  split at hspan
  · cases hspan
  · rename_i hclose
    cases hspan
    refine ⟨last.rest, ?_⟩
    constructor
    case opened =>
      refine ⟨[], body, ?_, p, hp.derives, hbody⟩
      rw [hc, hrest, ← hopen]
      rfl
    case unclosed =>
      intro lexeme others hlast ht
      apply hclose lexeme.span others
      rw [← ht]
      exact hlast
    case ended =>
      intro lexeme others op hlast ht
      exact Nat.not_lt_zero _ (hstops lexeme others op hlast ht)

/-- From every place the parser calls a parenthesis unclosed only if its group breaks off. -/
structure Truthful (fuel : Nat) : Prop where
  chain : ∀ (level : Precedence) {c : Cursor}, c.depth ≤ nestingLimit →
    Blames c.Unclosed (chain fuel level c)
  links : ∀ (level : Precedence) (lhs : Condition) {c : Cursor}, c.depth ≤ nestingLimit →
    Blames c.Unclosed (links fuel level lhs c)
  operand : ∀ (level : Precedence) {c : Cursor}, c.depth ≤ nestingLimit →
    Blames c.Unclosed (operand fuel level c)
  signed : ∀ {c : Cursor}, c.depth ≤ nestingLimit → Blames c.Unclosed (signed fuel c)
  leaf : ∀ {c : Cursor}, c.depth ≤ nestingLimit → Blames c.Unclosed (leaf fuel c)

/-- What is blamed behind an operand is blamed in front of it. -/
theorem blames_behind {level : Precedence} {lhs : Condition} {next : Cursor}
    (hd : c.depth ≤ nestingLimit) (h : operand fuel level c = .ok (lhs, next))
    {x : Parsed} (hx : next.depth = c.depth → Blames next.Unclosed x) : Blames c.Unclosed x := by
  obtain ⟨p, hp, -, hnext⟩ := (parsers_sound fuel).2.2.1 level c lhs next hd h
  obtain ⟨more, -, hrest⟩ := hp.spells
  have hdepth : next.depth = c.depth := by rw [hnext]; rfl
  exact (hx hdepth).mono fun span => .of_append more hrest

private theorem blames_within {x : Cursor → Except SyntaxError α}
    (hx : c.behind.depth ≤ nestingLimit → Blames c.behind.Unclosed (x c.behind)) :
    Blames c.Unclosed (c.enter.bind x) := by
  refine (Blames.enter c).bind fun inner henter => ?_
  obtain ⟨hdepth, rfl⟩ := enter_eq_ok.mp henter
  exact (hx hdepth).mono fun span => .of_behind

section Steps

variable (h : Truthful fuel)
include h

private theorem Truthful.chain_succ (level : Precedence) (hd : c.depth ≤ nestingLimit) :
    Blames c.Unclosed (Condition.chain (fuel + 1) level c) := by
  rw [Condition.chain_succ]
  refine (h.operand level hd).bind fun r hr => Blames.map ?_
  exact blames_behind hd hr fun hdepth => h.links level r.1 (hdepth ▸ hd)

private theorem Truthful.links_succ (level : Precedence) (lhs : Condition) :
    Blames c.Unclosed (Condition.links (fuel + 1) level lhs c) := by
  cases hop : c.operator? level with
  | none =>
    rw [Condition.links, hop]
    exact .ok _
  | some op =>
    rw [links_of_operator hop]
    refine blames_within fun hd => (h.operand level hd).bind fun r hr => ?_
    exact blames_behind hd hr fun hdepth => h.links level _ (hdepth ▸ hd)

private theorem Truthful.operand_succ (level : Precedence) (hd : c.depth ≤ nestingLimit) :
    Blames c.Unclosed (Condition.operand (fuel + 1) level c) := by
  rw [Condition.operand]
  cases level.tighter? with
  | none => exact h.signed hd
  | some tighter => exact h.chain tighter hd

private theorem Truthful.signed_succ (hd : c.depth ≤ nestingLimit) :
    Blames c.Unclosed (Condition.signed (fuel + 1) c) := by
  by_cases hsign : ∃ sign : Sign, c.token? = some sign.token
  · obtain ⟨sign, hsign⟩ := hsign
    rw [signed_of_sign hsign]
    exact blames_within fun hd => (h.signed hd).map
  · rw [signed_eq_leaf fun sign hs => hsign ⟨sign, hs⟩]
    exact h.leaf hd

private theorem Truthful.leaf_succ : Blames c.Unclosed (Condition.leaf (fuel + 1) c) := by
  cases hc : c.rest with
  | nil =>
    rw [Condition.leaf, hc]
    exact .error (by simp)
  | cons lexeme rest =>
    cases ht : lexeme.token with
    | openParen =>
      rw [leaf_of_open hc ht]
      refine (Blames.enter c).bind fun inner henter => ?_
      obtain ⟨hd, rfl⟩ := enter_eq_ok.mp henter
      refine Blames.bind ((h.chain .or hd).mono fun span => .of_behind) fun r hr => ?_
      obtain ⟨p, hp, -, -⟩ := (parsers_sound fuel).1 .or c.behind r.1 r.2 hd hr
      exact closing_blames hc ht hp ((halting fuel).chain hr)
    | constant value =>
      rw [leaf_constant hc ht]
      exact .ok _
    | property name =>
      rw [leaf_property hc ht]
      exact .ok _
    | _ =>
      rw [Condition.leaf]
      simp only [hc, ht]
      exact .error (by simp)

end Steps

private theorem truthful (fuel : Nat) : Truthful fuel := by
  induction fuel with
  | zero => constructor <;> intros <;> exact .error (by simp)
  | succ fuel ih =>
    exact ⟨fun level _ hd => ih.chain_succ level hd, fun level lhs _ _ => ih.links_succ level lhs,
      fun level _ hd => ih.operand_succ level hd, fun hd => ih.signed_succ hd, fun _ => ih.leaf_succ⟩

end Blaming

private theorem breaksOff_of_ofLexemes {lexemes : List Lexeme} {stop : Nat} {span : Span}
    (h : ofLexemes lexemes stop = .error ⟨.unclosedParenthesis, span⟩) :
    ∃ rest, Lexeme.BreaksOff lexemes span rest := by
  cases lexemes with
  | nil => cases h
  | cons lexeme others =>
    rw [ofLexemes_cons] at h
    have hblames : Blames (Cursor.Unclosed ⟨lexeme :: others, 0, stop⟩)
        ((chain recursionBound .or ⟨lexeme :: others, 0, stop⟩).bind ended) := by
      refine ((truthful recursionBound).chain .or (Nat.zero_le _)).bind fun r _ => ?_
      rw [ended]
      split
      · exact .ok _
      · exact .error (by simp)
    exact hblames span h

/-- A parenthesis that is called unclosed is an opening one with a phrase behind it, and what comes next
is neither a closing parenthesis nor an operator. It is matched all the same exactly if the rest of the
text holds a closing parenthesis without an opening one of its own; never if nothing is left. -/
theorem matched_iff_of_unclosed {source : String} {span : Span}
    (h : parse source = .error ⟨.unclosedParenthesis, span⟩) :
    ∃ lexemes rest, Lexeme.split source.toList = .ok lexemes ∧ Lexeme.BreaksOff lexemes span rest ∧
      (Lexeme.Matched lexemes span ↔ Closed (rest.map Lexeme.token)) := by
  cases hsplit : Lexeme.split source.toList with
  | error bad =>
    rw [parse, hsplit] at h
    cases h
    have hnever : Blames (fun _ => False) (Lexeme.split source.toList) :=
      blames_splitAt 0 source.toList
    exact (hnever span hsplit).elim
  | ok lexemes =>
    rw [parse_of_split hsplit] at h
    obtain ⟨rest, hbreaks⟩ := breaksOff_of_ofLexemes h
    have hcovers := (Lexeme.cut_of_splitAt (Nat.le_refl _) hsplit).covers
    exact ⟨lexemes, rest, rfl, hbreaks, hbreaks.matched_iff hcovers.nodup⟩

/-- Nothing is left behind the comparison, so the parenthesis has no match. -/
theorem matched_iff_of_unclosed_end :
    ∃ lexemes rest, parse "(1 > 2" = .error ⟨.unclosedParenthesis, 0, 1⟩ ∧
      Lexeme.split "(1 > 2".toList = .ok lexemes ∧ Lexeme.BreaksOff lexemes ⟨0, 1⟩ rest ∧
      ¬ Lexeme.Matched lexemes ⟨0, 1⟩ ∧ ¬ Closed (rest.map Lexeme.token) := by
  have hsplit : Lexeme.split "(1 > 2".toList = .ok [⟨.openParen, 0, 1⟩,
      ⟨.constant (.number .one), 1, 2⟩, ⟨.binary .gt, 3, 4⟩,
      ⟨.constant (.number (.ofNat 2)), 5, 6⟩] := by
    decide +kernel
  have herror : parse "(1 > 2" = .error ⟨.unclosedParenthesis, 0, 1⟩ := by decide +kernel
  obtain ⟨lexemes, rest, hlexemes, hbreaks, hmatched⟩ := matched_iff_of_unclosed herror
  have hnone : Token.closeParen ∉ lexemes.map Lexeme.token := by
    rw [hsplit] at hlexemes
    cases hlexemes
    simp
  have hopen : ¬ Lexeme.Matched lexemes ⟨0, 1⟩ := by
    intro h
    obtain ⟨before, behind, rfl, inner, outer, -, hbehind⟩ := h
    apply hnone
    simp [hbehind]
  exact ⟨lexemes, rest, herror, hlexemes, hbreaks, hopen, fun h => hopen (hmatched.mpr h)⟩

/-- The parenthesis around two operands is called unclosed, and it is matched. -/
theorem unclosed_but_matched :
    ∃ lexemes, parse "(1 2)" = .error ⟨.unclosedParenthesis, 0, 1⟩ ∧
      Lexeme.split "(1 2)".toList = .ok lexemes ∧ Lexeme.Matched lexemes ⟨0, 1⟩ := by
  have hsplit : Lexeme.split "(1 2)".toList = .ok [⟨.openParen, 0, 1⟩,
      ⟨.constant (.number .one), 1, 2⟩, ⟨.constant (.number (.ofNat 2)), 3, 4⟩,
      ⟨.closeParen, 4, 5⟩] := by
    decide +kernel
  have herror : parse "(1 2)" = .error ⟨.unclosedParenthesis, 0, 1⟩ := by decide +kernel
  exact ⟨_, herror, hsplit, [], _, rfl, by decide⟩

end Condition
end FeatureStyle
