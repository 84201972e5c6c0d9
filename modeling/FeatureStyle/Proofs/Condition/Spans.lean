import Mathlib.Data.List.Forall2
import FeatureStyle.Proofs.Condition.Depth
import FeatureStyle.Proofs.Condition.Splitting

/-!
# Tokens, errors and where they stand

The parser moves spans about without looking at them: two lists of lexemes with the same tokens are
parsed alike, and what went wrong in the one is at the same lexeme as in the other. So the separators in
a text do not matter, and an error lies inside the text. The main statements are `ofLexemes_agrees` and
`faithful`.
-/

namespace FeatureStyle

variable {α β γ δ : Type} {R : Span → Span → Prop}

/-- Two outcomes are both results that are related, or both errors of one cause at related spans. -/
inductive Agrees (R : Span → Span → Prop) (S : α → β → Prop) :
    Except SyntaxError α → Except SyntaxError β → Prop
  | ok {a : α} {b : β} : S a b → Agrees R S (.ok a) (.ok b)
  | error {cause : SyntaxErrorCause} {s t : Span} : R s t →
    Agrees R S (.error ⟨cause, s⟩) (.error ⟨cause, t⟩)

namespace Agrees

variable {S : α → β → Prop} {x : Except SyntaxError α} {y : Except SyntaxError β}

private theorem bind {T : γ → δ → Prop} {f : α → Except SyntaxError γ}
    {g : β → Except SyntaxError δ}
    (h : Agrees R S x y) (hfg : ∀ a b, S a b → Agrees R T (f a) (g b)) :
    Agrees R T (x.bind f) (y.bind g) := by
  cases h with
  | ok hab => exact hfg _ _ hab
  | error hst => exact .error hst

private theorem map {T : γ → δ → Prop} {f : α → γ} {g : β → δ} (h : Agrees R S x y)
    (hfg : ∀ a b, S a b → T (f a) (g b)) : Agrees R T (x.map f) (y.map g) := by
  cases h with
  | ok hab => exact .ok (hfg _ _ hab)
  | error hst => exact .error hst

private theorem span_of_error (h : Agrees R S x y) {e : SyntaxError} (hx : x = .error e) :
    ∃ f, y = .error f ∧ R e.span f.span := by
  cases h with
  | ok => cases hx
  | error hst =>
    cases hx
    exact ⟨_, rfl, hst⟩

private theorem mapError_eq {x y : Except SyntaxError α} (h : Agrees R Eq x y) :
    x.mapError SyntaxError.cause = y.mapError SyntaxError.cause := by
  cases h with
  | ok hab => rw [hab]
  | error => rfl

end Agrees

/-- Two lexemes of one token at related spans. -/
structure Lexeme.Alike (R : Span → Span → Prop) (a b : Lexeme) : Prop where
  token : a.token = b.token
  span : R a.span b.span

namespace Condition

namespace Cursor

/-- Two places at one depth with lexemes alike still to be read. -/
structure Alike (R : Span → Span → Prop) (c d : Cursor) : Prop where
  rest : List.Forall₂ (Lexeme.Alike R) c.rest d.rest
  depth : c.depth = d.depth
  stop : R ⟨c.stop, c.stop⟩ ⟨d.stop, d.stop⟩

variable {c d : Cursor}

private theorem Alike.heads (h : Alike R c d) :
    (c.rest = [] ∧ d.rest = []) ∨ ∃ a as b bs, c.rest = a :: as ∧ d.rest = b :: bs ∧
      Lexeme.Alike R a b ∧ List.Forall₂ (Lexeme.Alike R) as bs := by
  have hrest := h.rest
  cases hc : c.rest with
  | nil =>
    rw [hc, List.forall₂_nil_left_iff] at hrest
    exact .inl ⟨rfl, hrest⟩
  | cons a as =>
    rw [hc, List.forall₂_cons_left_iff] at hrest
    obtain ⟨b, bs, hhead, htail, hd⟩ := hrest
    exact .inr ⟨a, as, b, bs, rfl, hd, hhead, htail⟩

private theorem Alike.token?_eq (h : Alike R c d) : c.token? = d.token? := by
  rcases h.heads with ⟨hc, hd⟩ | ⟨a, as, b, bs, hc, hd, hhead, -⟩
  · rw [token?, token?, hc, hd]
  · rw [token?, token?, hc, hd]
    exact congrArg some hhead.token

private theorem Alike.here (h : Alike R c d) : R c.here d.here := by
  rcases h.heads with ⟨hc, hd⟩ | ⟨a, as, b, bs, hc, hd, hhead, -⟩
  · rw [Cursor.here, Cursor.here, hc, hd]
    exact h.stop
  · rw [Cursor.here, Cursor.here, hc, hd]
    exact hhead.span

private theorem Alike.tail (h : Alike R c d) :
    List.Forall₂ (Lexeme.Alike R) c.rest.tail d.rest.tail := by
  rcases h.heads with ⟨hc, hd⟩ | ⟨a, as, b, bs, hc, hd, -, htail⟩
  · rw [hc, hd]
    exact .nil
  · rw [hc, hd]
    exact htail

private theorem Alike.enter (h : Alike R c d) : Agrees R (Alike R) c.enter d.enter := by
  rw [Cursor.enter, Cursor.enter, h.depth]
  split
  · exact .error h.here
  · exact .ok ⟨h.tail, rfl, h.stop⟩

end Cursor

open Precedence Cursor

section Steps

variable {fuel : Nat} {level : Precedence} {c : Cursor}

theorem chain_succ :
    chain (fuel + 1) level c =
      (operand fuel level c).bind fun r =>
        (links fuel level r.1 r.2).map fun s => (s.1, { s.2 with depth := c.depth }) := by
  rw [chain_eq_opened, opened]
  cases operand fuel level c <;> rfl

theorem links_of_operator {op : Operator} {lhs : Condition} (h : c.operator? level = some op) :
    links (fuel + 1) level lhs c = c.enter.bind fun inner =>
      (operand fuel level inner).bind fun r => links fuel level (binary op lhs r.1) r.2 := by
  rw [links, h]
  cases c.enter with
  | error e => rfl
  | ok inner =>
    simp only [Except.bind]
    cases operand fuel level inner <;> rfl

def closing (opening : Lexeme) (r : Condition × Cursor) : Parsed :=
  match r.2.rest with
  | ⟨.closeParen, _⟩ :: rest => .ok (r.1, { r.2 with rest, depth := r.2.depth - 1 })
  | _ => .error ⟨.unclosedParenthesis, opening.span⟩

theorem leaf_of_open {lexeme : Lexeme} {rest : List Lexeme} (hc : c.rest = lexeme :: rest)
    (ht : lexeme.token = .openParen) :
    leaf (fuel + 1) c = c.enter.bind fun inner => (chain fuel .or inner).bind (closing lexeme) := by
  rw [leaf]
  simp only [hc, ht]
  cases c.enter with
  | error e => rfl
  | ok inner =>
    simp only [Except.bind]
    cases chain fuel .or inner <;> rfl

end Steps

variable {c d : Cursor}

/-- Two parses of one condition that end at places alike, or fail alike. -/
abbrev ParsedAlike (R : Span → Span → Prop) : Parsed → Parsed → Prop :=
  Agrees R fun r s => r.1 = s.1 ∧ Cursor.Alike R r.2 s.2

private theorem closing_alike {opening other : Lexeme} (hopening : R opening.span other.span)
    {r s : Condition × Cursor} (h : r.1 = s.1 ∧ Cursor.Alike R r.2 s.2) :
    ParsedAlike R (closing opening r) (closing other s) := by
  rw [closing, closing]
  rcases h.2.heads with ⟨hr, hs⟩ | ⟨a, as, b, bs, hr, hs, ⟨htoken, -⟩, htail⟩
  · rw [hr, hs]
    exact .error hopening
  · obtain ⟨token, span⟩ := a
    obtain ⟨token', span'⟩ := b
    obtain rfl : token = token' := htoken
    rw [hr, hs]
    cases token with
    | closeParen => exact .ok ⟨h.1, htail, congrArg (· - 1) h.2.depth, h.2.stop⟩
    | _ => exact .error hopening

/-- From places alike the parser goes on alike, with whatever fuel. -/
structure Uniform (R : Span → Span → Prop) (fuel : Nat) : Prop where
  chain : ∀ {c d : Cursor} (level : Precedence), Cursor.Alike R c d →
    ParsedAlike R (chain fuel level c) (chain fuel level d)
  links : ∀ {c d : Cursor} (level : Precedence) (lhs : Condition), Cursor.Alike R c d →
    ParsedAlike R (links fuel level lhs c) (links fuel level lhs d)
  operand : ∀ {c d : Cursor} (level : Precedence), Cursor.Alike R c d →
    ParsedAlike R (operand fuel level c) (operand fuel level d)
  signed : ∀ {c d : Cursor}, Cursor.Alike R c d → ParsedAlike R (signed fuel c) (signed fuel d)
  leaf : ∀ {c d : Cursor}, Cursor.Alike R c d → ParsedAlike R (leaf fuel c) (leaf fuel d)

section Uniformity

variable {fuel : Nat}

private theorem Uniform.chain_succ (h : Uniform R fuel) (level : Precedence)
    (hcd : Cursor.Alike R c d) :
    ParsedAlike R (Condition.chain (fuel + 1) level c) (Condition.chain (fuel + 1) level d) := by
  rw [Condition.chain_succ, Condition.chain_succ]
  refine (h.operand level hcd).bind fun r s hfirst => ?_
  rw [hfirst.1]
  refine (h.links level s.1 hfirst.2).map fun r s hrs => ?_
  exact ⟨hrs.1, hrs.2.rest, hcd.depth, hrs.2.stop⟩

private theorem Uniform.links_succ (h : Uniform R fuel) (level : Precedence) (lhs : Condition)
    (hcd : Cursor.Alike R c d) :
    ParsedAlike R (Condition.links (fuel + 1) level lhs c)
      (Condition.links (fuel + 1) level lhs d) := by
  have hop : c.operator? level = d.operator? level := by rw [operator?, operator?, hcd.token?_eq]
  cases hd : d.operator? level with
  | none =>
    rw [Condition.links, Condition.links, hop, hd]
    exact .ok ⟨rfl, hcd⟩
  | some op =>
    rw [links_of_operator hd, links_of_operator (hop.trans hd)]
    refine hcd.enter.bind fun c d hcd => (h.operand level hcd).bind fun r s hrs => ?_
    rw [hrs.1]
    exact h.links level _ hrs.2

private theorem Uniform.operand_succ (h : Uniform R fuel) (level : Precedence)
    (hcd : Cursor.Alike R c d) :
    ParsedAlike R (Condition.operand (fuel + 1) level c)
      (Condition.operand (fuel + 1) level d) := by
  rw [Condition.operand, Condition.operand]
  cases level.tighter? with
  | none => exact h.signed hcd
  | some tighter => exact h.chain tighter hcd

private theorem Uniform.signed_succ (h : Uniform R fuel) (hcd : Cursor.Alike R c d) :
    ParsedAlike R (Condition.signed (fuel + 1) c) (Condition.signed (fuel + 1) d) := by
  have htoken := hcd.token?_eq
  by_cases hsign : ∃ sign : Sign, c.token? = some sign.token
  · obtain ⟨sign, hsign⟩ := hsign
    rw [signed_of_sign hsign, signed_of_sign (htoken ▸ hsign)]
    refine hcd.enter.bind fun inner inner' hinner => (h.signed hinner).map fun r s hrs => ?_
    exact ⟨congrArg sign.apply hrs.1, hrs.2.rest, hcd.depth, hrs.2.stop⟩
  · rw [signed_eq_leaf fun sign hs => hsign ⟨sign, hs⟩,
      signed_eq_leaf fun sign hs => hsign ⟨sign, htoken.trans hs⟩]
    exact h.leaf hcd

private theorem Uniform.leaf_succ (h : Uniform R fuel) (hcd : Cursor.Alike R c d) :
    ParsedAlike R (Condition.leaf (fuel + 1) c) (Condition.leaf (fuel + 1) d) := by
  rcases hcd.heads with ⟨hc, hd⟩ | ⟨a, as, b, bs, hc, hd, hhead, htail⟩
  · rw [Condition.leaf, Condition.leaf, hc, hd]
    exact .error hcd.here
  have htoken := hhead.token.symm
  cases ha : a.token with
  | openParen =>
    rw [leaf_of_open hc ha, leaf_of_open hd (htoken.trans ha)]
    refine hcd.enter.bind fun inner inner' hinner => (h.chain .or hinner).bind fun r s hrs => ?_
    exact closing_alike hhead.span hrs
  | constant value =>
    rw [leaf_constant hc ha, leaf_constant hd (htoken.trans ha)]
    exact .ok ⟨rfl, htail, hcd.depth, hcd.stop⟩
  | property name =>
    rw [leaf_property hc ha, leaf_property hd (htoken.trans ha)]
    exact .ok ⟨rfl, htail, hcd.depth, hcd.stop⟩
  | _ =>
    rw [Condition.leaf, Condition.leaf]
    simp only [hc, hd, htoken, ha]
    exact .error hhead.span

private theorem uniform (R : Span → Span → Prop) (fuel : Nat) : Uniform R fuel := by
  induction fuel with
  | zero =>
    constructor <;> intros <;> refine .error (Cursor.Alike.here ?_) <;> assumption
  | succ fuel ih => exact ⟨ih.chain_succ, ih.links_succ, ih.operand_succ, ih.signed_succ, ih.leaf_succ⟩

end Uniformity

def ended (r : Condition × Cursor) : Except SyntaxError Condition :=
  match r.2.rest with
  | [] => .ok r.1
  | lexeme :: _ => .error ⟨.misplacedToken, lexeme.span⟩

theorem ofLexemes_cons (lexeme : Lexeme) (others : List Lexeme) (stop : Nat) :
    ofLexemes (lexeme :: others) stop =
      (chain recursionBound .or ⟨lexeme :: others, 0, stop⟩).bind ended := by
  unfold ofLexemes
  cases chain recursionBound .or ⟨lexeme :: others, 0, stop⟩ <;> rfl

private theorem ended_alike {r s : Condition × Cursor} (h : r.1 = s.1 ∧ Cursor.Alike R r.2 s.2) :
    Agrees R Eq (ended r) (ended s) := by
  rw [ended, ended]
  rcases h.2.heads with ⟨hr, hs⟩ | ⟨a, as, b, bs, hr, hs, hhead, -⟩
  · rw [hr, hs]
    exact .ok h.1
  · rw [hr, hs]
    exact .error hhead.span

/-- Lexemes alike spell the same condition, or are wrong for the same reason and at the same place. -/
theorem ofLexemes_agrees {lexemes others : List Lexeme} {stop stop' : Nat}
    (h : List.Forall₂ (Lexeme.Alike R) lexemes others) (hall : R ⟨0, stop⟩ ⟨0, stop'⟩)
    (hend : R ⟨stop, stop⟩ ⟨stop', stop'⟩) :
    Agrees R Eq (ofLexemes lexemes stop) (ofLexemes others stop') := by
  cases h with
  | nil => exact .error hall
  | cons hhead htail =>
    rw [ofLexemes_cons, ofLexemes_cons]
    have hcursor : Cursor.Alike R ⟨_ :: _, 0, stop⟩ ⟨_ :: _, 0, stop'⟩ :=
      ⟨.cons hhead htail, rfl, hend⟩
    exact ((uniform R recursionBound).chain .or hcursor).bind fun r s hrs => ended_alike hrs

theorem mapError_ofLexemes {lexemes others : List Lexeme}
    (h : lexemes.map Lexeme.token = others.map Lexeme.token) (stop stop' : Nat) :
    (ofLexemes lexemes stop).mapError SyntaxError.cause =
      (ofLexemes others stop').mapError SyntaxError.cause := by
  have halike : List.Forall₂ (Lexeme.Alike fun _ _ => True) lexemes others := by
    rw [← List.forall₂_eq_eq_eq, List.forall₂_map_left_iff, List.forall₂_map_right_iff] at h
    exact h.imp fun a b hab => ⟨hab, trivial⟩
  exact (ofLexemes_agrees halike trivial trivial).mapError_eq

theorem span_of_ofLexemes {P : Span → Prop} {lexemes : List Lexeme} {stop : Nat} {e : SyntaxError}
    (hlexemes : ∀ lexeme ∈ lexemes, P lexeme.span) (hall : P ⟨0, stop⟩) (hend : P ⟨stop, stop⟩)
    (h : ofLexemes lexemes stop = .error e) : P e.span := by
  have halike : List.Forall₂ (Lexeme.Alike fun s _ => P s) lexemes lexemes :=
    List.forall₂_same.mpr fun lexeme hlexeme => ⟨rfl, hlexemes lexeme hlexeme⟩
  have hagrees : Agrees (fun s _ => P s) Eq (ofLexemes lexemes stop) (ofLexemes lexemes stop) :=
    ofLexemes_agrees halike hall hend
  obtain ⟨-, -, hspan⟩ := hagrees.span_of_error h
  exact hspan

theorem parse_of_split {source : String} {lexemes : List Lexeme}
    (h : Lexeme.split source.toList = .ok lexemes) :
    parse source = ofLexemes lexemes (byteLength source.toList) := by
  rw [parse, h]

/-- Whatever is wrong with a text is found at whole characters of it. -/
theorem within_of_parse {source : String} {e : SyntaxError} (h : parse source = .error e) :
    e.span.Within source.toList := by
  cases hsplit : Lexeme.split source.toList with
  | error bad =>
    rw [parse, hsplit] at h
    cases h
    obtain ⟨before, spelling, behind, htext, hstart, hstop⟩ := Lexeme.error_of_splitAt hsplit
    rw [htext]
    exact Span.within_of_parts (by simpa using hstart) hstop
  | ok lexemes =>
    rw [parse_of_split hsplit] at h
    have hcut := Lexeme.cut_of_splitAt (Nat.le_refl _) hsplit
    have hall : Span.Within ⟨0, byteLength source.toList⟩ ([] ++ source.toList ++ []) :=
      Span.within_of_parts rfl (Nat.zero_add _).symm
    have hend : Span.Within ⟨byteLength source.toList, byteLength source.toList⟩
        (source.toList ++ [] ++ []) :=
      Span.within_of_parts rfl rfl
    simp only [List.nil_append, List.append_nil] at hall hend
    exact span_of_ofLexemes (P := fun span => span.Within source.toList) hcut.covers.within hall hend h

/-- Tokens and errors stand where their spans say. The tokens of a text take whole characters and leave
out separators only; put together with separators they make a text that is parsed alike; and an error is
found inside the text. -/
theorem faithful (source : String) :
    (∀ lexemes, Lexeme.split source.toList = .ok lexemes →
      Lexeme.Covers lexemes source.toList ∧
        ∀ joined : String, Lexeme.Joined source.toList lexemes joined.toList →
          (∃ others, Lexeme.split joined.toList = .ok others ∧
            others.map Lexeme.token = lexemes.map Lexeme.token) ∧
          (parse joined).mapError SyntaxError.cause = (parse source).mapError SyntaxError.cause) ∧
      ∀ e, parse source = .error e → e.span.Within source.toList := by
  refine ⟨fun lexemes hsplit => ?_, fun e => within_of_parse⟩
  have hcut := Lexeme.cut_of_splitAt (Nat.le_refl _) hsplit
  refine ⟨hcut.covers, fun joined hjoined => ?_⟩
  obtain ⟨others, hothers, htokens⟩ :=
    Lexeme.splits_joined hjoined (fun _ => hcut.spells) joined.toList.length 0 (Nat.le_refl _)
  refine ⟨⟨others, hothers, htokens⟩, ?_⟩
  rw [parse_of_split hothers, parse_of_split hsplit]
  exact mapError_ofLexemes htokens _ _

/-- The letter takes two bytes, and the second text breaks off behind its operator. -/
theorem faithful_accented :
    (∃ lexemes, Lexeme.split "1>'é'".toList = .ok lexemes ∧
      lexemes.map Lexeme.span = [⟨0, 1⟩, ⟨1, 2⟩, ⟨2, 6⟩] ∧
      Lexeme.Covers lexemes "1>'é'".toList ∧
      (parse "1 >\t'é'\n").mapError SyntaxError.cause =
        (parse "1>'é'").mapError SyntaxError.cause) ∧
      ∃ e, parse "1 >" = .error e ∧ e.span = ⟨3, 3⟩ ∧ e.span.Within "1 >".toList := by
  have hsplit : Lexeme.split "1>'é'".toList =
      .ok [⟨.constant (.number .one), 0, 1⟩, ⟨.binary .gt, 1, 2⟩,
        ⟨.constant (.string "é"), 2, 6⟩] := by
    decide +kernel
  have herror : parse "1 >" = .error ⟨.missingOperand, 3, 3⟩ := by decide +kernel
  have hended : ∀ {c : Char} {text : List Char}, Lexeme.isSeparator c = true →
      Lexeme.Ended (c :: text) := by
    intro c text hc d tail heq
    cases heq
    exact hc
  have hjoined : Lexeme.Joined "1>'é'".toList
      [⟨.constant (.number .one), 0, 1⟩, ⟨.binary .gt, 1, 2⟩, ⟨.constant (.string "é"), 2, 6⟩]
      "1 >\t'é'\n".toList :=
    .lexeme (hended rfl) <| .separator rfl <| .lexeme (hended rfl) <| .separator rfl <|
      .lexeme (hended rfl) <| .separator rfl .nil
  obtain ⟨hcovers, hparse⟩ := (faithful "1>'é'").1 _ hsplit
  exact ⟨⟨_, hsplit, rfl, hcovers, (hparse _ hjoined).2⟩,
    _, herror, rfl, (faithful "1 >").2 _ herror⟩

end Condition
end FeatureStyle
