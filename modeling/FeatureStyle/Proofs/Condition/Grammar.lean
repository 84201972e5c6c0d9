import FeatureStyle.Proofs.Condition.Depth

/-!
# The grammar of conditions

From the loosest to the tightest:

* `or         := and ("||" and)*`
* `and        := equality ("&&" equality)*`
* `equality   := relational (("==" | "!=") relational)*`
* `relational := unary (("<" | "<=" | ">" | ">=") unary)*`
* `unary      := ("!" | "-" | "+") unary | atom`
* `atom       := constant | property | "(" or ")"`

Apart from texts that are nested too deeply, the parser accepts what the grammar derives.
-/

namespace FeatureStyle

inductive Nonterminal
  | or
  | and
  | equality
  | relational
  | unary
  | atom
deriving DecidableEq

/-- For a nonterminal of chains, its operands and the operators that join them. -/
def Nonterminal.chain? : Nonterminal → Option (Nonterminal × List Operator)
  | or => some (and, [.or])
  | and => some (equality, [.and])
  | equality => some (relational, [.eq, .ne])
  | relational => some (unary, [.lt, .le, .gt, .ge])
  | unary | atom => none

/-- `Grammar n tokens condition` says that a nonterminal derives the tokens, and that they stand for
the condition. Chains associate to the left, a plus leaves no mark, and a minus is taken into a
number that is all of its operand. -/
inductive Grammar : Nonterminal → List Token → Condition → Prop
  | operand {n operand : Nonterminal} {ops : List Operator} {tokens : List Token}
      {condition : Condition} (chain : n.chain? = some (operand, ops))
      (derives : Grammar operand tokens condition) : Grammar n tokens condition
  | link {n operand : Nonterminal} {ops : List Operator} {op : Operator} {left right : List Token}
      {lhs rhs : Condition} (chain : n.chain? = some (operand, ops)) (joins : op ∈ ops)
      (derives_left : Grammar n left lhs) (derives_right : Grammar operand right rhs) :
      Grammar n (left ++ .binary op :: right) (.binary op lhs rhs)
  | not {tokens : List Token} {part : Condition} (derives : Grammar .unary tokens part) :
      Grammar .unary (.not :: tokens) (.not part)
  | minus {tokens : List Token} {part : Condition} (derives : Grammar .unary tokens part)
      (plain : ∀ x, part ≠ .constant (.number x)) : Grammar .unary (.minus :: tokens) (.minus part)
  | negative {tokens : List Token} {x : Double}
      (derives : Grammar .unary tokens (.constant (.number x))) :
      Grammar .unary (.minus :: tokens) (.constant (.number (-x)))
  | plus {tokens : List Token} {part : Condition} (derives : Grammar .unary tokens part) :
      Grammar .unary (.plus :: tokens) part
  | atom {tokens : List Token} {condition : Condition} (derives : Grammar .atom tokens condition) :
      Grammar .unary tokens condition
  | constant (value : Scalar) : Grammar .atom [.constant value] (.constant value)
  | property (name : String) : Grammar .atom [.property name] (.property name)
  | group {tokens : List Token} {condition : Condition} (derives : Grammar .or tokens condition) :
      Grammar .atom (.openParen :: tokens ++ [.closeParen]) condition

namespace Nonterminal

def rank : Nonterminal → Option Precedence
  | or => some .or
  | and => some .and
  | equality => some .equality
  | relational => some .relational
  | unary | atom => none

def ofRank : Option Precedence → Nonterminal
  | some .or => or
  | some .and => and
  | some .equality => equality
  | some .relational => relational
  | none => unary

private theorem chain?_ofRank (level : Precedence) :
    ∃ ops, (ofRank (some level)).chain? = some (ofRank level.tighter?, ops) ∧
      ∀ op : Operator, op.precedence = level → op ∈ ops := by
  cases level <;> refine ⟨_, rfl, fun op hop => ?_⟩ <;> cases op <;> revert hop <;> decide

private theorem rank_of_chain? {n operand : Nonterminal} {ops : List Operator}
    (h : n.chain? = some (operand, ops)) :
    ∃ level : Precedence, n.rank = some level ∧ operand.rank = level.tighter? ∧
      ∀ op ∈ ops, op.precedence = level := by
  cases n <;> cases h
  · exact ⟨.or, rfl, rfl, by decide⟩
  · exact ⟨.and, rfl, rfl, by decide⟩
  · exact ⟨.equality, rfl, rfl, by decide⟩
  · exact ⟨.relational, rfl, rfl, by decide⟩

end Nonterminal

namespace Grammar

theorem exists_phrase {n : Nonterminal} {tokens : List Token} {condition : Condition}
    (h : Grammar n tokens condition) :
    ∃ p : Phrase, p.Derives n.rank ∧ p.tokens = tokens ∧ p.condition = condition := by
  induction h with
  | operand hchain _ ih =>
    obtain ⟨p, hp, rfl, rfl⟩ := ih
    obtain ⟨level, hn, hoperand, -⟩ := Nonterminal.rank_of_chain? hchain
    rw [hoperand] at hp
    exact ⟨p, hn ▸ .operand hp, rfl, rfl⟩
  | @link n operand ops op left right lhs rhs hchain hop _ _ ihl ihr =>
    obtain ⟨p, hp, rfl, rfl⟩ := ihl
    obtain ⟨q, hq, rfl, rfl⟩ := ihr
    obtain ⟨level, hn, hoperand, hops⟩ := Nonterminal.rank_of_chain? hchain
    rw [hoperand] at hq
    rw [hn] at hp ⊢
    exact ⟨.link op p q, .link (hops op hop) hp hq, rfl, rfl⟩
  | not _ ih =>
    obtain ⟨p, hp, rfl, rfl⟩ := ih
    exact ⟨.signed .not p, .signed .not hp, rfl, rfl⟩
  | minus _ hplain ih =>
    obtain ⟨p, hp, rfl, rfl⟩ := ih
    refine ⟨.signed .minus p, .signed .minus hp, rfl, ?_⟩
    rw [Phrase.condition, Sign.apply, Condition.withMinus]
    exact hplain
  | negative _ ih =>
    obtain ⟨p, hp, rfl, hcondition⟩ := ih
    refine ⟨.signed .minus p, .signed .minus hp, rfl, ?_⟩
    rw [Phrase.condition, hcondition]
    rfl
  | plus _ ih =>
    obtain ⟨p, hp, rfl, rfl⟩ := ih
    exact ⟨.signed .plus p, .signed .plus hp, rfl, rfl⟩
  | atom _ ih => exact ih
  | constant value => exact ⟨.constant value, .constant value, rfl, rfl⟩
  | property name => exact ⟨.property name, .property name, rfl, rfl⟩
  | group _ ih =>
    obtain ⟨p, hp, rfl, rfl⟩ := ih
    exact ⟨.group p, .group hp, rfl, rfl⟩

private theorem withMinus {tokens : List Token} {part : Condition}
    (h : Grammar .unary tokens part) :
    Grammar .unary (.minus :: tokens) (Condition.withMinus part) := by
  unfold Condition.withMinus
  split
  · exact .negative h
  · rename_i hplain
    exact .minus h hplain

theorem of_derives {rank : Option Precedence} {p : Phrase} (h : p.Derives rank) :
    Grammar (.ofRank rank) p.tokens p.condition := by
  induction h with
  | constant value => exact .atom (.constant value)
  | property name => exact .atom (.property name)
  | group _ ih => exact .atom (.group ih)
  | signed sign _ ih =>
    cases sign with
    | not => exact .not ih
    | minus => exact .withMinus ih
    | plus => exact .plus ih
  | @operand level p _ ih =>
    obtain ⟨ops, hchain, -⟩ := Nonterminal.chain?_ofRank level
    exact .operand hchain ih
  | @link level op lhs rhs hop _ _ ihl ihr =>
    obtain ⟨ops, hchain, hops⟩ := Nonterminal.chain?_ofRank level
    exact .link hchain (hops op hop) ihl ihr

/-- The grammar derives exactly the spellings of phrases. -/
theorem iff_phrase {tokens : List Token} {condition : Condition} :
    Grammar .or tokens condition ↔
      ∃ p : Phrase, p.Derives (some .or) ∧ p.tokens = tokens ∧ p.condition = condition := by
  constructor
  · exact exists_phrase
  · intro ⟨p, hp, htokens, hcondition⟩
    rw [← htokens, ← hcondition]
    exact of_derives hp

end Grammar

namespace Condition

/-- A text that is not nested too deeply is accepted exactly if the grammar derives all of its
tokens, and the condition found is the one derived. -/
theorem parse_eq_ok_iff_grammar {source : String} {lexemes : List Lexeme} {condition : Condition}
    (hsplit : Lexeme.split source.toList = .ok lexemes)
    (hdeep : ∀ span, parse source ≠ .error ⟨.nestingTooDeep, span⟩) :
    parse source = .ok condition ↔ Grammar .or (lexemes.map Lexeme.token) condition := by
  rw [Grammar.iff_phrase]
  constructor
  · intro h
    obtain ⟨p, ⟨hderives, spelling, hspelling, htokens⟩, -, hcondition⟩ := parse_eq_ok_iff.mp h
    obtain rfl := Except.ok.inj (hsplit.symm.trans hspelling)
    exact ⟨p, hderives, htokens.symm, hcondition⟩
  · intro ⟨p, hderives, htokens, hcondition⟩
    have hparse : parse source = ofLexemes lexemes (byteLength source.toList) := by
      rw [parse, hsplit]
    rw [hparse] at hdeep ⊢
    rcases ofLexemes_of_spelled hderives htokens.symm (byteLength source.toList) with h | ⟨span, h⟩
    · rw [h, hcondition]
    · exact absurd h (hdeep span)

/-- The minus is taken into the number behind the plus, through the parentheses. -/
theorem parse_eq_ok_iff_grammar_negative :
    ∃ lexemes, Lexeme.split "-(+2) < 3 || !true".toList = .ok lexemes ∧
      (∀ span, parse "-(+2) < 3 || !true" ≠ .error ⟨.nestingTooDeep, span⟩) ∧
      Grammar .or (lexemes.map Lexeme.token)
        (binary .or
          (binary .lt (constant (.number (-Double.ofNat 2))) (constant (.number (Double.ofNat 3))))
          (not (constant (.bool true)))) := by
  have hparse : parse "-(+2) < 3 || !true" = .ok
      (binary .or
        (binary .lt (constant (.number (-Double.ofNat 2))) (constant (.number (Double.ofNat 3))))
        (not (constant (.bool true)))) :=
    eq_ok_of_toOption (by decide +kernel)
  obtain ⟨lexemes, hsplit⟩ :
      ∃ lexemes, Lexeme.split "-(+2) < 3 || !true".toList = .ok lexemes := by
    cases h : Lexeme.split "-(+2) < 3 || !true".toList with
    | ok lexemes => exact ⟨lexemes, rfl⟩
    | error e =>
      rw [parse, h] at hparse
      cases hparse
  have hdeep : ∀ span, parse "-(+2) < 3 || !true" ≠ .error ⟨.nestingTooDeep, span⟩ := by
    intro span h
    rw [hparse] at h
    cases h
  exact ⟨lexemes, hsplit, hdeep, (parse_eq_ok_iff_grammar hsplit hdeep).mp hparse⟩

end Condition
end FeatureStyle
