import FeatureStyle.Proofs.Condition.Calls

/-!
# The bookkeeping of the parser

Whatever call returns, it leaves the counter of levels as it was and has moved on by a lexeme at least,
and not past the end. In between the counter is never negative and never more than one above the limit,
so that few calls are open at a time, and every parse comes to an end. The main statement is
`Machine.bookkeeping_balanced`.
-/

namespace FeatureStyle.Condition

open Precedence Cursor

/-- How many calls there are between a call and the last one that went a level deeper, at most. -/
def Parser.rank : Parser → Nat
  | .chain level => level.strength
  | .signed => 4
  | .leaf => 5

private theorem Parser.rank_operand (level : Precedence) :
    (Parser.operand level).rank = (Parser.chain level).rank + 1 := by
  cases level <;> rfl

private theorem Parser.rank_le (parser : Parser) : parser.rank ≤ 5 := by
  cases parser with
  | chain level => exact (strength_le level).trans (by decide)
  | signed => decide
  | leaf => decide

/-- Frames that a call can stand above, with the counter where the call begins. -/
inductive Stacked : List Frame → Parser → Int → Prop
  | root : Stacked [] (.chain .or) 0
  | chain {frames : List Frame} {level : Precedence} {saved counter : Int}
      {pending : Option (Condition × Operator)} :
    Stacked frames (.chain level) saved → saved ≤ counter →
      Stacked (.chain level saved pending :: frames) (.operand level) counter
  | sign {frames : List Frame} {saved : Int} {sign : Sign} :
    Stacked frames .signed saved →
      Stacked (.signed saved (some sign) :: frames) .signed (saved + 1)
  | unsigned {frames : List Frame} {saved : Int} :
    Stacked frames .signed saved → Stacked (.signed saved none :: frames) .leaf saved
  | group {frames : List Frame} {counter : Int} {opening : Lexeme} :
    Stacked frames .leaf counter →
      Stacked (.leaf opening :: frames) (.chain .or) (counter + 1)

namespace Stacked

variable {frames : List Frame} {parser : Parser} {counter : Int}

private theorem nonneg (h : Stacked frames parser counter) : 0 ≤ counter := by
  induction h <;> omega

/-- On a level of nesting there are six calls at most: one chain of each level of operators, a signed
operand and a leaf. -/
theorem length_le (h : Stacked frames parser counter) :
    frames.length ≤ 6 * counter + parser.rank := by
  induction h with
  | root => decide
  | @chain _ level _ _ _ _ hle ih =>
    rw [List.length_cons, Parser.rank_operand]
    omega
  | sign _ ih =>
    rw [List.length_cons]
    omega
  | unsigned _ ih =>
    simp only [Parser.rank, List.length_cons] at ih ⊢
    omega
  | group _ ih =>
    simp only [Parser.rank, strength, List.length_cons] at ih ⊢
    omega

/-- How many signed operands may wait: only one that waits for a leaf has not gone a level deeper. -/
theorem count_frames_le (h : Stacked frames parser counter) :
    (frames.map Frame.parser).count .signed ≤ counter + if parser = .leaf then 1 else 0 := by
  induction h with
  | root => decide
  | @chain frames level saved counter pending _ hle ih =>
    have hoperand : Parser.operand level ≠ .leaf := by cases level <;> decide
    have hframe : Frame.parser (.chain level saved pending) ≠ .signed := by simp [Frame.parser]
    rw [if_neg hoperand, List.map_cons, List.count_cons_of_ne hframe]
    rw [if_neg (by simp)] at ih
    omega
  | sign _ ih =>
    rw [if_neg (by simp)] at ih ⊢
    rw [List.map_cons, Frame.parser, List.count_cons_self]
    omega
  | unsigned _ ih =>
    rw [if_neg (by simp)] at ih
    rw [if_pos rfl, List.map_cons, Frame.parser, List.count_cons_self]
    omega
  | @group frames counter opening _ ih =>
    have hframe : Frame.parser (.leaf opening) ≠ .signed := by simp [Frame.parser]
    rw [if_pos rfl] at ih
    rw [if_neg (by simp), List.map_cons, List.count_cons_of_ne hframe]
    omega

private theorem count_le (h : Stacked frames parser counter) :
    (parser :: frames.map Frame.parser).count .signed ≤ counter + 1 := by
  have hframes := h.count_frames_le
  have hnonneg := h.nonneg
  cases parser with
  | chain level =>
    rw [if_neg (by simp)] at hframes
    rw [List.count_cons_of_ne (by simp)]
    omega
  | signed =>
    rw [if_neg (by simp)] at hframes
    rw [List.count_cons_self]
    omega
  | leaf =>
    rw [if_pos rfl] at hframes
    rw [List.count_cons_of_ne (by simp)]
    omega

end Stacked

/-- What is kept within bounds: the counter, and how many calls are open. -/
structure State.Bounded (s : State) : Prop where
  nonneg : 0 ≤ s.counter
  counter_le : s.counter ≤ nestingLimit + 1
  count_le : s.calls.count .signed ≤ nestingLimit + 1
  length_le : s.calls.length ≤ 6 * (nestingLimit + 1)

/-- What every state of a parse satisfies. Where a call begins, and where one is over, the counter is one
that the frames allow. -/
def State.Sound (s : State) : Prop :=
  match s.control with
  | .call parser => Stacked s.frames parser s.counter ∧ s.counter ≤ nestingLimit
  | .back _ => ∃ parser, Stacked s.frames parser s.counter ∧ s.counter ≤ nestingLimit
  | .fail _ => s.Bounded

section Sound

variable {frames : List Frame} {parser : Parser} {counter : Int} {m : Machine} {s t : State}

private theorem Stacked.bounded (h : Stacked frames parser counter)
    (hcounter : counter ≤ nestingLimit)
    (hcalls : s.calls <:+ parser :: frames.map Frame.parser) (hnonneg : 0 ≤ s.counter)
    (hle : s.counter ≤ nestingLimit + 1) : s.Bounded := by
  refine ⟨hnonneg, hle, ?_, ?_⟩
  · have hcount := h.count_le
    have hsub := hcalls.sublist.count_le .signed
    omega
  · have hlength := h.length_le
    have hrank := parser.rank_le
    have hsub := hcalls.length_le
    rw [List.length_cons, List.length_map] at hsub
    omega

private theorem State.Sound.bounded (h : s.Sound) : s.Bounded := by
  obtain ⟨frames, control, position, counter⟩ := s
  cases control with
  | call parser => exact h.1.bounded h.2 List.suffix_rfl h.1.nonneg (h.2.trans (by decide))
  | back found =>
    obtain ⟨parser, hstacked, hcounter⟩ := h
    exact hstacked.bounded hcounter (List.suffix_cons _ _) hstacked.nonneg
      (hcounter.trans (by decide))
  | fail e => exact h

private theorem sound_descend {frame : Frame} {control : Control} {position : Nat}
    {counter saved : Int}
    (hframe : Stacked frames frame.parser saved) (hsaved : saved ≤ nestingLimit)
    (hcall : Stacked (frame :: frames) parser (counter + 1)) (hcounter : counter ≤ nestingLimit) :
    (m.descend ⟨frames, control, position, counter⟩ frame parser).Sound := by
  rw [Machine.descend]
  by_cases hlimit : (nestingLimit : Int) < counter + 1
  · rw [if_pos hlimit]
    exact hframe.bounded hsaved List.suffix_rfl hcall.nonneg (Int.add_le_add_right hcounter 1)
  · rw [if_neg hlimit]
    exact ⟨hcall, Int.not_lt.mp hlimit⟩

private theorem Stacked.sound_leaf {position : Nat} (h : Stacked frames .leaf counter)
    (hcounter : counter ≤ nestingLimit)
    (hstep : m.step ⟨frames, .call .leaf, position, counter⟩ = some t) : t.Sound := by
  have hback : Stacked frames .leaf counter ∧ counter ≤ nestingLimit := ⟨h, hcounter⟩
  have hfail : ∀ e position, State.Bounded ⟨frames, .fail e, position, counter⟩ := fun e q =>
    h.bounded hcounter (List.suffix_cons _ _) h.nonneg (hcounter.trans (by decide))
  simp only [Machine.step] at hstep
  split at hstep
  · cases hstep
    exact hfail _ _
  · split at hstep
    · cases hstep
      exact ⟨_, hback⟩
    · cases hstep
      exact ⟨_, hback⟩
    · cases hstep
      exact sound_descend h hcounter (.group h) hcounter
    · cases hstep
      exact hfail _ _

private theorem Stacked.sound_call {position : Nat} (h : Stacked frames parser counter)
    (hcounter : counter ≤ nestingLimit)
    (hstep : m.step ⟨frames, .call parser, position, counter⟩ = some t) : t.Sound := by
  cases parser with
  | chain level =>
    cases hstep
    exact ⟨.chain h (Int.le_refl _), hcounter⟩
  | signed =>
    simp only [Machine.step] at hstep
    split at hstep
    · cases hstep
      exact sound_descend h hcounter (.sign h) hcounter
    · cases hstep
      exact ⟨.unsigned h, hcounter⟩
  | leaf => exact h.sound_leaf hcounter hstep

private theorem Stacked.sound_back {found : Condition} {position : Nat}
    (h : Stacked frames parser counter)
    (hcounter : counter ≤ nestingLimit)
    (hstep : m.step ⟨frames, .back found, position, counter⟩ = some t) : t.Sound := by
  cases h with
  | root => cases hstep
  | chain h hle =>
    simp only [Machine.step] at hstep
    split at hstep
    · cases hstep
      exact sound_descend h (hle.trans hcounter) (.chain h (by omega)) hcounter
    · cases hstep
      exact ⟨_, h, hle.trans hcounter⟩
  | @sign frames saved sign h =>
    have hless : saved ≤ nestingLimit := by omega
    cases hstep
    exact ⟨_, h, hless⟩
  | unsigned h =>
    cases hstep
    exact ⟨_, h, hcounter⟩
  | @group frames counter opening h =>
    -- A group saves nothing: it goes back up by one from wherever its inside left the counter.
    have hless : counter ≤ nestingLimit := by omega
    have hdown : counter + 1 - 1 = counter := by omega
    simp only [Machine.step, Option.some_inj, hdown, closed] at hstep
    split at hstep
    · cases hstep
      exact ⟨_, h, hless⟩
    · cases hstep
      exact h.bounded hless (List.suffix_cons _ _) h.nonneg (hless.trans (by decide))

private theorem State.Sound.step (h : s.Sound) (hstep : m.step s = some t) : t.Sound := by
  obtain ⟨frames, control, position, counter⟩ := s
  cases control with
  | call parser => exact h.1.sound_call h.2 hstep
  | back found =>
    obtain ⟨parser, hstacked, hcounter⟩ := h
    exact hstacked.sound_back hcounter hstep
  | fail e => cases hstep

private theorem Machine.sound_start (m : Machine) : m.start.Sound := by
  rw [start]
  cases m.lexemes.isEmpty with
  | true =>
    exact Stacked.root.bounded (by decide) List.nil_suffix (Int.le_refl 0) (Int.natCast_nonneg _)
  | false => exact ⟨.root, Int.natCast_nonneg _⟩

private theorem Machine.sound_of_reaches (h : m.Reaches m.start s) : s.Sound := by
  induction h with
  | refl => exact m.sound_start
  | tail _ hstep ih => exact ih.step hstep

end Sound

namespace Machine

variable {m : Machine} {frames : List Frame} {s t u : State} {parser : Parser}

/-- A call above some frames is over in a state, or nothing comes after it. -/
def Settled (m : Machine) (frames : List Frame) (s : State) : Prop :=
  ∀ t, Pending frames s → ¬ m.Next s t

private theorem settled_back {found : Condition} (hframes : s.frames = frames)
    (hcontrol : s.control = .back found) : m.Settled frames s :=
  fun _ hpending _ => hpending.2 found hcontrol hframes

private theorem settled_fail {e : SyntaxError} (hcontrol : s.control = .fail e) :
    m.Settled frames s := by
  intro t _ hnext
  rw [Next, step, hcontrol] at hnext
  cases hnext

private theorem During.eq_of_settled (h : m.During frames s t) (hsettled : m.Settled frames s) :
    t = s := by
  rcases h.cases_head with heq | ⟨u, ⟨hpending, hnext⟩, -⟩
  · exact heq.symm
  · exact absurd hnext (hsettled u hpending)

theorem During.unique (ht : m.During frames s t) (hu : m.During frames s u)
    (hsettled : m.Settled frames t) (hsettled' : m.Settled frames u) : t = u := by
  have hunique : Relator.RightUnique fun s t => Pending frames s ∧ m.Next s t :=
    fun _ _ _ h h' => Option.some_inj.mp (h.2.symm.trans h'.2)
  rcases ht.total_of_right_unique hunique hu with htu | hut
  · exact (During.eq_of_settled htu hsettled).symm
  · exact During.eq_of_settled hut hsettled'

section Ends

variable {found found' : Condition} {e e' : SyntaxError}

theorem Returns.unique (ht : m.Returns s found t) (hu : m.Returns s found' u) :
    found' = found ∧ u = t := by
  have hback := hu.2.2
  have heq := hu.1.unique ht.1 (settled_back hu.2.1 hback) (settled_back ht.2.1 ht.2.2)
  rw [heq, ht.2.2] at hback
  exact ⟨(Control.back.inj hback).symm, heq⟩

theorem Fails.unique (ht : m.Fails s e t) (hu : m.Fails s e' u) : e' = e := by
  have hfail := hu.2
  rw [hu.1.unique ht.1 (settled_fail hfail) (settled_fail ht.2), ht.2] at hfail
  exact (Control.fail.inj hfail).symm

private theorem Returns.not_fails (ht : m.Returns s found t) : ¬ m.Fails s e u := by
  rintro ⟨hduring, hfail⟩
  rw [hduring.unique ht.1 (settled_fail hfail) (settled_back ht.2.1 ht.2.2), ht.2.2] at hfail
  cases hfail

end Ends

/-- What is kept by a call that is made in a state: it is over some time, as the parser says; and when it
returns, the counter is as it was, and the position is further on and not past the end. -/
structure Kept (m : Machine) (parser : Parser) (s : State) : Prop where
  ends : (∃ found t, m.Returns s found t) ∨ ∃ e t, m.Fails s e t
  counter : ∀ found t, m.Returns s found t → t.counter = s.counter
  progress : ∀ found t, m.Returns s found t →
    s.position < t.position ∧ t.position ≤ m.lexemes.length
  found : ∀ found t, m.Returns s found t →
    parser.run recursionBound (m.cursor s) = .ok (found, m.cursor t)
  failed : ∀ e t, m.Fails s e t → parser.run recursionBound (m.cursor s) = .error e

private theorem kept_of_returns {found : Condition} (h : m.Returns s found t)
    (hcounter : t.counter = s.counter)
    (hprogress : s.position < t.position ∧ t.position ≤ m.lexemes.length)
    (hfound : parser.run recursionBound (m.cursor s) = .ok (found, m.cursor t)) :
    m.Kept parser s where
  ends := .inl ⟨found, t, h⟩
  counter := fun found' u hu => (h.unique hu).2 ▸ hcounter
  progress := fun found' u hu => (h.unique hu).2 ▸ hprogress
  found := by
    intro found' u hu
    obtain ⟨rfl, rfl⟩ := h.unique hu
    exact hfound
  failed := fun e u hu => absurd hu h.not_fails

private theorem kept_of_fails {e : SyntaxError} (h : m.Fails s e t)
    (hfailed : parser.run recursionBound (m.cursor s) = .error e) : m.Kept parser s where
  ends := .inr ⟨e, t, h⟩
  counter := fun _ _ hu => absurd h hu.not_fails
  progress := fun _ _ hu => absurd h hu.not_fails
  found := fun _ _ hu => absurd h hu.not_fails
  failed := fun _ _ hu => h.unique hu ▸ hfailed

private theorem kept_of_call (hreaches : m.Reaches m.start s)
    (hcontrol : s.control = .call parser) :
    m.Kept parser s := by
  have hsound := sound_of_reaches hreaches
  obtain ⟨frames, control, position, counter⟩ := s
  obtain rfl : control = .call parser := hcontrol
  obtain ⟨hstacked, hcounter⟩ := hsound
  obtain ⟨depth, hdepth⟩ := Int.eq_ofNat_of_zero_le hstacked.nonneg
  obtain rfl : counter = depth := hdepth
  have hcomes := m.comes_of_call parser frames position (Int.ofNat_le.mp hcounter)
  generalize hrun : parser.run recursionBound (m.place position depth) = r at hcomes
  cases hcomes with
  | back hleast hlength hduring =>
    exact kept_of_returns ⟨hduring, rfl, rfl⟩ rfl ⟨hleast, hlength⟩ hrun
  | fail hduring hcontrol => exact kept_of_fails ⟨hduring, hcontrol⟩ hrun

/-- A parse comes to an end, with what the lexemes spell. -/
theorem exists_outcome (m : Machine) :
    ∃ t, m.Reaches m.start t ∧ m.step t = none ∧
      m.outcome? t = some (ofLexemes m.lexemes m.stop) := by
  obtain ⟨lexemes, stop⟩ := m
  cases lexemes with
  | nil => exact ⟨_, .refl, rfl, rfl⟩
  | cons lexeme others =>
    have hcomes := comes_of_call ⟨lexeme :: others, stop⟩ (.chain .or) [] 0 (Nat.zero_le nestingLimit)
    have hrun : (Parser.chain .or).run recursionBound (place ⟨lexeme :: others, stop⟩ 0 0) =
        chain recursionBound .or ⟨lexeme :: others, 0, stop⟩ := rfl
    rw [hrun] at hcomes
    rw [ofLexemes_cons]
    generalize chain recursionBound .or ⟨lexeme :: others, 0, stop⟩ = r at hcomes
    cases hcomes with
    | back _ _ hduring => exact ⟨_, hduring.reaches, rfl, rfl⟩
    | @fail t e hduring hcontrol =>
      refine ⟨t, hduring.reaches, ?_, ?_⟩
      · rw [step, hcontrol]
      · rw [outcome?, hcontrol]
        rfl

private theorem Reaches.of_end (hs : m.Reaches m.start s) (ht : m.Reaches m.start t)
    (hend : m.step t = none) :
    m.Reaches s t := by
  have hunique : Relator.RightUnique m.Next :=
    fun _ _ _ h h' => Option.some_inj.mp (h.symm.trans h')
  rcases hs.total_of_right_unique hunique ht with hst | hts
  · exact hst
  · rcases hts.cases_head with rfl | ⟨u, hnext, -⟩
    · exact .refl
    · cases hend.symm.trans hnext

/-- The bookkeeping is balanced. Every call keeps the counter and gets on; in every state the counter is
between zero and one above the limit, and few calls are open; and every parse comes to an end. -/
theorem bookkeeping_balanced (m : Machine) :
    (∀ s parser, m.Reaches m.start s → s.control = .call parser → m.Kept parser s) ∧
      (∀ s, m.Reaches m.start s → s.Bounded) ∧
      ∃ t, (∀ s, m.Reaches m.start s → m.Reaches s t) ∧ m.step t = none ∧
        m.outcome? t = some (ofLexemes m.lexemes m.stop) := by
  obtain ⟨t, ht, hend, houtcome⟩ := m.exists_outcome
  refine ⟨fun _ _ => kept_of_call, fun _ hs => (sound_of_reaches hs).bounded,
    t, fun s hs => Reaches.of_end hs ht hend, hend, houtcome⟩

/-- A sign and a group in it take the counter up by two, and it comes back. -/
theorem bookkeeping_negated_group :
    ∃ m : Machine, m.lexemes.map Lexeme.token =
        [.minus, .openParen, .constant (.number .one), .closeParen] ∧
      ∃ t, m.Returns m.start (.constant (.number (-.one))) t ∧ t.counter = 0 ∧ t.position = 4 := by
  let m : Machine := ⟨[⟨.minus, 0, 1⟩, ⟨.openParen, 1, 2⟩, ⟨.constant (.number .one), 2, 3⟩,
    ⟨.closeParen, 3, 4⟩], 4⟩
  have hkept : m.Kept (.chain .or) m.start := (bookkeeping_balanced m).1 _ _ .refl rfl
  have hrun : (Parser.chain .or).run recursionBound (m.cursor m.start) =
      .ok (.constant (.number (-.one)), ⟨[], 0, 4⟩) := rfl
  rcases hkept.ends with ⟨found, t, hreturns⟩ | ⟨e, t, hfails⟩
  · have hfound := hkept.found found t hreturns
    rw [hrun] at hfound
    injection hfound with hfound
    injection hfound with hcondition hcursor
    have hrest : m.lexemes.length ≤ t.position :=
      List.drop_eq_nil_iff.mp (congrArg Cursor.rest hcursor).symm
    have hlength : t.position ≤ m.lexemes.length := (hkept.progress found t hreturns).2
    exact ⟨m, rfl, t, hcondition ▸ hreturns, hkept.counter found t hreturns,
      Nat.le_antisymm hlength hrest⟩
  · have hfailed := hkept.failed e t hfails
    rw [hrun] at hfailed
    cases hfailed

end Machine
end FeatureStyle.Condition
