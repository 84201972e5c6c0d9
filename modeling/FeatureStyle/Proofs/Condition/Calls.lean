import Mathlib.Logic.Relation
import FeatureStyle.Proofs.Condition.Spans

/-!
# The calls of the parser

The parser as a machine with a stack. The calls that are open share a position among the lexemes and a
counter of levels; a call that waits for another one keeps on the stack what it needs to go on, which for
chains and signed operands is the counter at their beginning. The counter is raised before it is
compared with the limit, and may be any integer. From every call the machine comes to what the parser
gives there; the main statement is `Machine.comes_of_call`.
-/

namespace FeatureStyle.Condition

open Precedence Cursor

/-- The parsers that call one another: one for the chains of each level, one for signed operands, and one
for leaves. -/
inductive Parser
  | chain (level : Precedence)
  | signed
  | leaf
deriving DecidableEq

namespace Parser

def run (fuel : Nat) : Parser → Cursor → Parsed
  | chain level => Condition.chain fuel level
  | signed => Condition.signed fuel
  | leaf => Condition.leaf fuel

def operand (level : Precedence) : Parser :=
  match level.tighter? with
  | some tighter => chain tighter
  | none => signed

/-- A recursion depth that is enough for a parser at a depth of nesting. -/
def cost (depth : Nat) : Parser → Nat
  | chain level => 11 * (nestingLimit - depth) + 10 - 2 * level.strength
  | signed => 11 * (nestingLimit - depth) + 2
  | leaf => 11 * (nestingLimit - depth) + 1

private theorem cost_operand (level : Precedence) (depth : Nat) :
    (operand level).cost depth + 2 = (chain level).cost depth := by
  cases level <;> simp only [operand, tighter?, cost, strength] <;> omega

private theorem lt_cost_chain (level : Precedence) (depth : Nat) :
    11 * (nestingLimit - depth) + 4 ≤ (chain level).cost depth := by
  have hlevel := strength_le level
  rw [cost]
  omega

private theorem cost_le (parser : Parser) (depth : Nat) :
    parser.cost depth ≤ 11 * (nestingLimit - depth) + 10 := by
  cases parser <;> simp only [cost] <;> omega

private theorem cost_pos (parser : Parser) (depth : Nat) : 0 < parser.cost depth := by
  cases parser with
  | chain level => exact Nat.lt_of_lt_of_le (Nat.succ_pos _) (lt_cost_chain level depth)
  | signed => exact Nat.succ_pos _
  | leaf => exact Nat.succ_pos _

private theorem run_operand (fuel : Nat) (level : Precedence) (c : Cursor) :
    (operand level).run fuel c = Condition.operand (fuel + 1) level c := by
  rw [operand, Condition.operand]
  cases level.tighter? <;> rfl

end Parser

/-- A call that waits for one that it has made. -/
inductive Frame
  /-- A chain, the counter at its beginning, and what stands in front of the operand it waits for, unless
  that is the first. -/
  | chain (level : Precedence) (saved : Int) (pending : Option (Condition × Operator))
  /-- A signed operand, the counter at its beginning, and the sign if there is one. -/
  | signed (saved : Int) (sign : Option Sign)
  /-- A group and its opening parenthesis. -/
  | leaf (opening : Lexeme)
deriving DecidableEq

def Frame.parser : Frame → Parser
  | chain level _ _ => .chain level
  | signed _ _ => .signed
  | leaf _ => .leaf

inductive Control
  /-- A call begins. -/
  | call (parser : Parser)
  /-- The innermost call is over and has found a condition. -/
  | back (found : Condition)
  | fail (error : SyntaxError)
deriving DecidableEq

structure State where
  /-- The calls that wait, innermost first. -/
  frames : List Frame
  control : Control
  position : Nat
  counter : Int
deriving DecidableEq

def State.calls (s : State) : List Parser :=
  match s.control with
  | .call parser => parser :: s.frames.map Frame.parser
  | _ => s.frames.map Frame.parser

def joined : Option (Condition × Operator) → Condition → Condition
  | none, operand => operand
  | some (lhs, op), operand => binary op lhs operand

def withSign : Option Sign → Condition → Condition
  | none, operand => operand
  | some sign, operand => sign.apply operand

/-- What becomes of a group when its inside is followed by a token, or by none. -/
def closed (opening : Lexeme) (found : Condition) : Option Token → Control
  | some .closeParen => .back found
  | _ => .fail ⟨.unclosedParenthesis, opening.span⟩

/-- The sign at a place. -/
def Cursor.sign? (c : Cursor) : Option Sign :=
  match c.token? with
  | some .not => some .not
  | some .minus => some .minus
  | some .plus => some .plus
  | _ => none

private theorem Cursor.sign?_eq_some {c : Cursor} {sign : Sign} :
    c.sign? = some sign ↔ c.token? = some sign.token := by
  rw [sign?]
  split <;> cases sign <;> simp_all [Sign.token]

/-- The parser as a machine over the lexemes of a text, given where the text ends. -/
structure Machine where
  lexemes : List Lexeme
  stop : Nat

namespace Machine

def place (m : Machine) (position depth : Nat) : Cursor := ⟨m.lexemes.drop position, depth, m.stop⟩

def cursor (m : Machine) (s : State) : Cursor := m.place s.position s.counter.toNat

def advance (m : Machine) (s : State) : Nat :=
  if s.position < m.lexemes.length then s.position + 1 else s.position

/-- Takes an operator or a parenthesis, goes one level deeper, and calls a parser unless that is too
deep. -/
def descend (m : Machine) (s : State) (frame : Frame) (parser : Parser) : State where
  frames := frame :: s.frames
  control :=
    if nestingLimit < s.counter + 1 then .fail ⟨.nestingTooDeep, (m.cursor s).here⟩
    else .call parser
  position := s.position + 1
  counter := s.counter + 1

/-- What the machine does next; nothing if it has failed or the outermost call is over. -/
def step (m : Machine) (s : State) : Option State :=
  match s.control, s.frames with
  | .call (.chain level), frames =>
    some { s with frames := .chain level s.counter none :: frames, control := .call (.operand level) }
  | .call .signed, frames =>
    match (m.cursor s).sign? with
    | some sign => some (m.descend s (.signed s.counter (some sign)) .signed)
    | none => some { s with frames := .signed s.counter none :: frames, control := .call .leaf }
  | .call .leaf, _ =>
    match (m.cursor s).rest with
    | [] => some { s with control := .fail ⟨.missingOperand, (m.cursor s).here⟩ }
    | lexeme :: _ =>
      match lexeme.token with
      | .constant value =>
        some { s with control := .back (constant value), position := m.advance s }
      | .property name =>
        some { s with control := .back (property name), position := m.advance s }
      | .openParen => some (m.descend s (.leaf lexeme) (.chain .or))
      | _ =>
        some { s with control := .fail ⟨.misplacedToken, lexeme.span⟩, position := m.advance s }
  | .back found, .chain level saved pending :: frames =>
    match (m.cursor s).operator? level with
    | some op =>
      some (m.descend { s with frames } (.chain level saved (some (joined pending found, op)))
        (.operand level))
    | none => some { s with frames, control := .back (joined pending found), counter := saved }
  | .back found, .signed saved sign :: frames =>
    some { s with frames, control := .back (withSign sign found), counter := saved }
  | .back found, .leaf opening :: frames =>
    some { s with
      frames
      control := closed opening found (m.cursor s).token?
      position := m.advance s
      counter := s.counter - 1 }
  | .back _, [] => none
  | .fail _, _ => none

/-- The state in which a parse begins. -/
def start (m : Machine) : State where
  frames := []
  control := if m.lexemes.isEmpty then .fail ⟨.empty, ⟨0, m.stop⟩⟩ else .call (.chain .or)
  position := 0
  counter := 0

/-- What a parse comes to, if it has come to an end. -/
def outcome? (m : Machine) (s : State) : Option (Except SyntaxError Condition) :=
  match s.control, s.frames with
  | .fail e, _ => some (.error e)
  | .back found, [] => some (ended (found, m.cursor s))
  | _, _ => none

def Next (m : Machine) (s t : State) : Prop := m.step s = some t

def Reaches (m : Machine) : State → State → Prop := Relation.ReflTransGen m.Next

/-- The call that was made above some frames is not over. -/
def Pending (frames : List Frame) (s : State) : Prop :=
  frames <:+ s.frames ∧ ∀ found, s.control = .back found → s.frames ≠ frames

/-- From a state the machine reaches another one, and until then a call above some frames is not over. -/
def During (m : Machine) (frames : List Frame) : State → State → Prop :=
  Relation.ReflTransGen fun s t => Pending frames s ∧ m.Next s t

/-- The call that is made in a state is over in another one, and has found a condition. -/
def Returns (m : Machine) (s : State) (found : Condition) (t : State) : Prop :=
  m.During s.frames s t ∧ t.frames = s.frames ∧ t.control = .back found

def Fails (m : Machine) (s : State) (e : SyntaxError) (t : State) : Prop :=
  m.During s.frames s t ∧ t.control = .fail e

variable {m : Machine} {frames : List Frame} {s t : State}

section Runs

private theorem pending_call {parser : Parser} (hcontrol : s.control = .call parser)
    (hframes : s.frames = frames) : Pending frames s := by
  refine ⟨hframes ▸ List.suffix_rfl, fun found hback => ?_⟩
  rw [hcontrol] at hback
  cases hback

private theorem pending_back {frame : Frame} (hframes : s.frames = frame :: frames) :
    Pending frames s := by
  refine ⟨hframes ▸ List.suffix_cons frame frames, fun found _ heq => ?_⟩
  exact List.cons_ne_self _ _ (hframes.symm.trans heq)

private theorem Pending.tail {frame : Frame} (h : Pending (frame :: frames) s) :
    Pending frames s := by
  refine ⟨(List.suffix_cons frame frames).trans h.1, fun found _ heq => ?_⟩
  have hle := h.1.length_le
  rw [heq, List.length_cons] at hle
  exact Nat.not_succ_le_self _ hle

private theorem During.tail {frame : Frame} (h : m.During (frame :: frames) s t) :
    m.During frames s t :=
  Relation.ReflTransGen.mono (fun _ _ hstep => ⟨hstep.1.tail, hstep.2⟩) _ _ h

theorem During.reaches (h : m.During frames s t) : m.Reaches s t :=
  Relation.ReflTransGen.mono (fun _ _ hstep => hstep.2) _ _ h

end Runs

/-- While a call above some frames is not over, the machine comes to what a parser gives: it is back
above the frames with the condition, at the position and the depth that the parser gives, or it has
failed for the same reason. -/
inductive Comes (m : Machine) (frames : List Frame) (s : State) (least depth : Nat) : Parsed → Prop
  | back {found : Condition} {position : Nat} : least ≤ position → position ≤ m.lexemes.length →
    m.During frames s ⟨frames, .back found, position, depth⟩ →
      Comes m frames s least depth (.ok (found, m.place position depth))
  | fail {t : State} {e : SyntaxError} : m.During frames s t → t.control = .fail e →
    Comes m frames s least depth (.error e)

variable {least depth least' depth' position : Nat} {r : Parsed}

section Comes

private theorem Comes.mono (h : m.Comes frames s least depth r) (hle : least' ≤ least) :
    m.Comes frames s least' depth r := by
  cases h with
  | back hleast hlength hduring => exact .back (Nat.le_trans hle hleast) hlength hduring
  | fail hduring hcontrol => exact .fail hduring hcontrol

private theorem Comes.after (h : m.Comes frames t least depth r) (hduring : m.During frames s t) :
    m.Comes frames s least depth r := by
  cases h with
  | back hleast hlength hmore => exact .back hleast hlength (hduring.trans hmore)
  | fail hmore hcontrol => exact .fail (hduring.trans hmore) hcontrol

private theorem Comes.step (h : m.Comes frames t least depth r) (hpending : Pending frames s)
    (hstep : m.step s = some t) : m.Comes frames s least depth r :=
  h.after (.single ⟨hpending, hstep⟩)

private theorem comes_back {found : Condition} (hpending : Pending frames s)
    (hleast : least ≤ position)
    (hlength : position ≤ m.lexemes.length)
    (hstep : m.step s = some ⟨frames, .back found, position, depth⟩) :
    m.Comes frames s least depth (.ok (found, m.place position depth)) :=
  .back hleast hlength (.single ⟨hpending, hstep⟩)

private theorem comes_fail {e : SyntaxError} (hpending : Pending frames s)
    (hstep : m.step s = some t)
    (hcontrol : t.control = .fail e) : m.Comes frames s least depth (.error e) :=
  .fail (.single ⟨hpending, hstep⟩) hcontrol

/-- A call above a frame comes back to the frame, and from there the machine goes on. -/
theorem Comes.bind {frame : Frame} {f : Condition × Cursor → Parsed}
    (h : m.Comes (frame :: frames) s least depth r)
    (hnext : ∀ found position, least ≤ position → position ≤ m.lexemes.length →
      m.Comes frames ⟨frame :: frames, .back found, position, depth⟩ least' depth'
        (f (found, m.place position depth))) :
    m.Comes frames s least' depth' (r.bind f) := by
  cases h with
  | back hleast hlength hduring => exact (hnext _ _ hleast hlength).after hduring.tail
  | fail hduring hcontrol => exact .fail hduring.tail hcontrol

private theorem Comes.map {frame : Frame} {g : Condition → Condition}
    (h : m.Comes (frame :: frames) s least depth r)
    (hstep : ∀ found position, m.step ⟨frame :: frames, .back found, position, depth⟩ =
      some ⟨frames, .back (g found), position, depth'⟩) :
    m.Comes frames s least depth' (r.map fun r => (g r.1, { r.2 with depth := depth' })) := by
  cases h with
  | back hleast hlength hduring =>
    exact (comes_back (pending_back rfl) hleast hlength (hstep _ _)).after hduring.tail
  | fail hduring hcontrol => exact .fail hduring.tail hcontrol

private theorem map_bind {α β γ ε : Type} (x : Except ε α) (f : α → Except ε β) (g : β → γ) :
    (x.bind f).map g = x.bind fun a => (f a).map g := by
  cases x <;> rfl

private theorem behind_place (m : Machine) (position depth : Nat) :
    (m.place position depth).behind = m.place (position + 1) (depth + 1) := by
  simp [Cursor.behind, place, List.tail_drop]

private theorem skipTo_place {lexeme : Lexeme} {rest : List Lexeme}
    (h : (m.place position depth).rest = lexeme :: rest) :
    position < m.lexemes.length ∧
      (m.place position depth).skipTo rest = m.place (position + 1) depth := by
  have hlt : position < m.lexemes.length := by
    by_contra hle
    rw [place, List.drop_eq_nil_of_le (Nat.le_of_not_lt hle)] at h
    cases h
  have htail : rest = m.lexemes.drop (position + 1) := by
    rw [← List.tail_drop]
    exact (congrArg List.tail h).symm
  exact ⟨hlt, by rw [htail]; rfl⟩

private theorem step_group (opening : Lexeme) (found : Condition) (frames : List Frame)
    (token : Option Token) (h : (m.place position (depth + 1)).token? = token) :
    m.step ⟨.leaf opening :: frames, .back found, position, (depth + 1 : Nat)⟩ =
      some ⟨frames, closed opening found token,
        if position < m.lexemes.length then position + 1 else position, depth⟩ := by
  have hcounter : ((depth + 1 : Nat) : Int) - 1 = depth := by omega
  simp only [step, cursor, Int.toNat_natCast, h, hcounter, advance]

private theorem comes_closing (opening : Lexeme) (found : Condition) (frames : List Frame)
    (position depth : Nat) :
    m.Comes frames ⟨.leaf opening :: frames, .back found, position, (depth + 1 : Nat)⟩ position depth
      (closing opening (found, m.place position (depth + 1))) := by
  have hpending : Pending frames
      ⟨.leaf opening :: frames, .back found, position, (depth + 1 : Nat)⟩ := pending_back rfl
  rw [closing]
  rcases hrest : (m.place position (depth + 1)).rest with _ | ⟨⟨token, span⟩, rest⟩
  · have htoken : (m.place position (depth + 1)).token? = none := by rw [token?, hrest]; rfl
    exact comes_fail hpending (step_group opening found frames none htoken) rfl
  · obtain ⟨hlt, hskip⟩ := skipTo_place hrest
    have htoken : (m.place position (depth + 1)).token? = some token := by rw [token?, hrest]; rfl
    have hstep := step_group opening found frames (some token) htoken
    rw [if_pos hlt] at hstep
    cases token with
    | closeParen =>
      have hplace : ⟨rest, depth, m.stop⟩ = m.place (position + 1) depth :=
        congrArg (fun c : Cursor => { c with depth }) hskip
      change m.Comes frames _ position depth (.ok (found, ⟨rest, depth, m.stop⟩))
      rw [hplace]
      exact comes_back hpending (Nat.le_succ position) hlt hstep
    | _ => exact comes_fail hpending hstep rfl

private theorem comes_descend {frame : Frame} {parser : Parser} {control : Control}
    {f : Cursor → Parsed} (hpending : Pending frames s)
    (hstep : m.step s = some (m.descend ⟨frames, control, position, depth⟩ frame parser))
    (hcall : depth + 1 ≤ nestingLimit →
      m.Comes frames ⟨frame :: frames, .call parser, position + 1, (depth + 1 : Nat)⟩ least depth'
        (f (m.place (position + 1) (depth + 1)))) :
    m.Comes frames s least depth' ((m.place position depth).enter.bind f) := by
  rw [descend] at hstep
  by_cases hdepth : depth + 1 ≤ nestingLimit
  · have henter : (m.place position depth).enter = .ok (m.place position depth).behind :=
      enter_eq_ok.mpr ⟨hdepth, rfl⟩
    have hlimit : ¬ (nestingLimit : Int) < (depth : Int) + 1 := by omega
    rw [if_neg hlimit] at hstep
    rw [henter, behind_place]
    exact (hcall hdepth).step hpending hstep
  · have hlimit : (nestingLimit : Int) < (depth : Int) + 1 := by omega
    rw [if_pos hlimit] at hstep
    have henter : (m.place position depth).enter =
        .error ⟨.nestingTooDeep, (m.place position depth).here⟩ :=
      if_pos (Nat.lt_of_not_le hdepth)
    rw [henter]
    exact comes_fail hpending hstep rfl

end Comes

section Steps

/-- With this recursion depth the machine follows the parser wherever a call is made. -/
structure Follows (m : Machine) (fuel : Nat) : Prop where
  call : ∀ (parser : Parser) (frames : List Frame) (position depth : Nat), depth ≤ nestingLimit →
    parser.cost depth ≤ fuel →
      m.Comes frames ⟨frames, .call parser, position, depth⟩ (position + 1) depth
        (parser.run fuel (m.place position depth))
  operand : ∀ (level : Precedence) (frames : List Frame) (position depth : Nat),
    depth ≤ nestingLimit → (Parser.operand level).cost depth + 1 ≤ fuel →
      m.Comes frames ⟨frames, .call (.operand level), position, depth⟩ (position + 1) depth
        (Condition.operand fuel level (m.place position depth))
  links : ∀ (level : Precedence) (pending : Option (Condition × Operator)) (found : Condition)
    (frames : List Frame) (position saved depth : Nat),
    11 * (nestingLimit - depth) + 1 ≤ fuel → position ≤ m.lexemes.length →
      m.Comes frames ⟨.chain level saved pending :: frames, .back found, position, depth⟩ position
        saved ((Condition.links fuel level (joined pending found) (m.place position depth)).map
          fun r => (r.1, { r.2 with depth := saved }))

variable {fuel : Nat} (h : m.Follows fuel)
include h

private theorem Follows.chain_succ (level : Precedence) (frames : List Frame) (position depth : Nat)
    (hd : depth ≤ nestingLimit) (hfuel : (Parser.chain level).cost depth ≤ fuel + 1) :
    m.Comes frames ⟨frames, .call (.chain level), position, depth⟩ (position + 1) depth
      (Condition.chain (fuel + 1) level (m.place position depth)) := by
  have hcost := Parser.cost_operand level depth
  have hlinks := Parser.lt_cost_chain level depth
  rw [Condition.chain_succ]
  refine Comes.step ?_ (pending_call rfl rfl) rfl
  refine Comes.bind (h.operand level _ position depth hd (by omega)) fun found q hq hlength => ?_
  exact (h.links level none found frames q depth depth (by omega) hlength).mono hq

private theorem Follows.links_succ (level : Precedence) (pending : Option (Condition × Operator))
    (found : Condition) (frames : List Frame) (position saved depth : Nat)
    (hfuel : 11 * (nestingLimit - depth) + 1 ≤ fuel + 1) (hposition : position ≤ m.lexemes.length) :
    m.Comes frames ⟨.chain level saved pending :: frames, .back found, position, depth⟩ position
      saved ((Condition.links (fuel + 1) level (joined pending found) (m.place position depth)).map
        fun r => (r.1, { r.2 with depth := saved })) := by
  have hpending : Pending frames
      ⟨.chain level saved pending :: frames, .back found, position, depth⟩ := pending_back rfl
  cases hop : (m.place position depth).operator? level with
  | none =>
    rw [Condition.links, hop]
    refine comes_back hpending (Nat.le_refl _) hposition ?_
    simp only [step, cursor, Int.toNat_natCast, hop]
  | some op =>
    rw [links_of_operator hop, map_bind]
    have hstep : m.step ⟨.chain level saved pending :: frames, .back found, position, depth⟩ =
        some (m.descend ⟨frames, .back found, position, depth⟩
          (.chain level saved (some (joined pending found, op))) (.operand level)) := by
      simp only [step, cursor, Int.toNat_natCast, hop]
    refine comes_descend hpending hstep fun hdepth => ?_
    have hcost := Parser.cost_operand level (depth + 1)
    have hlinks := Parser.cost_le (.chain level) (depth + 1)
    rw [map_bind]
    refine Comes.bind (h.operand level _ (position + 1) (depth + 1) hdepth (by omega))
      fun found' q hq hlength => ?_
    exact (h.links level (some (joined pending found, op)) found' frames q saved (depth + 1)
      (by omega) hlength).mono (by omega)

private theorem Follows.operand_succ (level : Precedence) (frames : List Frame)
    (position depth : Nat)
    (hd : depth ≤ nestingLimit) (hfuel : (Parser.operand level).cost depth + 1 ≤ fuel + 1) :
    m.Comes frames ⟨frames, .call (.operand level), position, depth⟩ (position + 1) depth
      (Condition.operand (fuel + 1) level (m.place position depth)) := by
  rw [← Parser.run_operand]
  exact h.call _ frames position depth hd (Nat.le_of_succ_le_succ hfuel)

private theorem Follows.signed_succ (frames : List Frame) (position depth : Nat)
    (hd : depth ≤ nestingLimit)
    (hfuel : Parser.signed.cost depth ≤ fuel + 1) :
    m.Comes frames ⟨frames, .call .signed, position, depth⟩ (position + 1) depth
      (Condition.signed (fuel + 1) (m.place position depth)) := by
  have hpending : Pending frames ⟨frames, .call .signed, position, depth⟩ := pending_call rfl rfl
  rw [Parser.cost] at hfuel
  cases hsign : (m.place position depth).sign? with
  | some sign =>
    have hstep : m.step ⟨frames, .call .signed, position, depth⟩ =
        some (m.descend ⟨frames, .call .signed, position, depth⟩ (.signed depth (some sign))
          .signed) := by
      simp only [step, cursor, Int.toNat_natCast, hsign]
    rw [signed_of_sign (Cursor.sign?_eq_some.mp hsign)]
    refine comes_descend hpending hstep fun hdepth => ?_
    have hcost : Parser.signed.cost (depth + 1) ≤ fuel := by
      rw [Parser.cost]
      omega
    have hoperand := h.call .signed (.signed depth (some sign) :: frames) (position + 1) (depth + 1)
      hdepth hcost
    exact (hoperand.map fun _ _ => rfl).mono (by omega)
  | none =>
    have hstep : m.step ⟨frames, .call .signed, position, depth⟩ =
        some ⟨.signed depth none :: frames, .call .leaf, position, depth⟩ := by
      simp only [step, cursor, Int.toNat_natCast, hsign]
    have hcost : Parser.leaf.cost depth ≤ fuel := by
      rw [Parser.cost]
      omega
    have hleaf := h.call .leaf (.signed depth none :: frames) position depth hd hcost
    have hbind : (Condition.leaf fuel (m.place position depth)).bind .ok =
        Condition.leaf fuel (m.place position depth) := by
      cases Condition.leaf fuel (m.place position depth) <;> rfl
    rw [signed_eq_leaf fun sign ht => by simp [Cursor.sign?_eq_some.mpr ht] at hsign, ← hbind]
    refine Comes.step ?_ hpending hstep
    exact hleaf.bind fun found q hq hlength => comes_back (pending_back rfl) hq hlength rfl

private theorem Follows.leaf_succ (frames : List Frame) (position depth : Nat)
    (hfuel : Parser.leaf.cost depth ≤ fuel + 1) :
    m.Comes frames ⟨frames, .call .leaf, position, depth⟩ (position + 1) depth
      (Condition.leaf (fuel + 1) (m.place position depth)) := by
  have hpending : Pending frames ⟨frames, .call .leaf, position, depth⟩ := pending_call rfl rfl
  cases hrest : (m.place position depth).rest with
  | nil =>
    have hstep : m.step ⟨frames, .call .leaf, position, depth⟩ =
        some ⟨frames, .fail ⟨.missingOperand, (m.place position depth).here⟩, position, depth⟩ := by
      simp only [step, cursor, Int.toNat_natCast, hrest]
    rw [Condition.leaf, hrest]
    exact comes_fail hpending hstep rfl
  | cons lexeme rest =>
    obtain ⟨hlt, hskip⟩ := skipTo_place hrest
    cases htoken : lexeme.token with
    | constant value =>
      rw [leaf_constant hrest htoken, hskip]
      refine comes_back hpending (Nat.le_refl _) hlt ?_
      simp only [step, cursor, Int.toNat_natCast, hrest, htoken, advance, if_pos hlt]
    | property name =>
      rw [leaf_property hrest htoken, hskip]
      refine comes_back hpending (Nat.le_refl _) hlt ?_
      simp only [step, cursor, Int.toNat_natCast, hrest, htoken, advance, if_pos hlt]
    | openParen =>
      have hstep : m.step ⟨frames, .call .leaf, position, depth⟩ =
          some (m.descend ⟨frames, .call .leaf, position, depth⟩ (.leaf lexeme) (.chain .or)) := by
        simp only [step, cursor, Int.toNat_natCast, hrest, htoken]
      rw [leaf_of_open hrest htoken]
      refine comes_descend hpending hstep fun hdepth => ?_
      have hcost : (Parser.chain .or).cost (depth + 1) ≤ fuel := by
        rw [Parser.cost] at hfuel
        have hle := Parser.cost_le (.chain .or) (depth + 1)
        omega
      refine (h.call (.chain .or) (.leaf lexeme :: frames) (position + 1) (depth + 1) hdepth
        hcost).bind fun found q hq _ => ?_
      exact (comes_closing lexeme found frames q depth).mono (by omega)
    | _ =>
      have hstep : m.step ⟨frames, .call .leaf, position, depth⟩ =
          some ⟨frames, .fail ⟨.misplacedToken, lexeme.span⟩, position + 1, depth⟩ := by
        simp only [step, cursor, Int.toNat_natCast, hrest, htoken, advance, if_pos hlt]
      rw [Condition.leaf]
      simp only [hrest, htoken]
      exact comes_fail hpending hstep rfl

end Steps

private theorem follows (m : Machine) (fuel : Nat) : m.Follows fuel := by
  induction fuel with
  | zero =>
    -- No call and no link costs nothing.
    refine ⟨fun parser frames position depth hd hfuel => ?_, fun level _ _ _ _ hfuel => ?_,
      fun _ _ _ _ _ _ _ hfuel => ?_⟩
    · have hcost := parser.cost_pos depth
      omega
    · omega
    · omega
  | succ fuel ih =>
    refine ⟨fun parser frames position depth hd hfuel => ?_, ih.operand_succ, ih.links_succ⟩
    cases parser with
    | chain level => exact ih.chain_succ level frames position depth hd hfuel
    | signed => exact ih.signed_succ frames position depth hd hfuel
    | leaf => exact ih.leaf_succ frames position depth hfuel

/-- From every call the machine comes to what the parser gives there. -/
theorem comes_of_call (m : Machine) (parser : Parser) (frames : List Frame) (position : Nat)
    {depth : Nat} (hd : depth ≤ nestingLimit) :
    m.Comes frames ⟨frames, .call parser, position, depth⟩ (position + 1) depth
      (parser.run recursionBound (m.place position depth)) := by
  refine (m.follows recursionBound).call parser frames position depth hd ?_
  refine (parser.cost_le depth).trans ?_
  rw [recursionBound]
  omega

end Machine
end FeatureStyle.Condition
