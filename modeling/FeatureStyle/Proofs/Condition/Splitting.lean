import FeatureStyle.Proofs.Condition.Rules

/-!
# Lexemes and the text they are split from

A text is cut into spellings of tokens and separators between them, and the spans of the lexemes say
where. Nothing but separators is left out, and putting any separators between the spellings gives a text
with the same tokens. The main statements are `Cut.covers` and `splits_joined`.
-/

namespace FeatureStyle

@[simp] theorem byteLength_append (a b : List Char) :
    byteLength (a ++ b) = byteLength a + byteLength b := by
  induction a with
  | nil => simp [byteLength]
  | cons c a ih => simp [byteLength, ih, Nat.add_assoc]

theorem byteLength_toList (s : String) : byteLength s.toList = s.utf8ByteSize := by
  have hchars : ∀ text : List Char, byteLength text = (String.ofList text).utf8ByteSize := by
    intro text
    induction text with
    | nil => rfl
    | cons c text ih => simp [byteLength, String.ofList_cons, ih]
  simpa using hchars s.toList

theorem byteLength_pos {text : List Char} (h : text ≠ []) : 0 < byteLength text := by
  cases text with
  | nil => exact absurd rfl h
  | cons c text => exact Nat.add_pos_left c.utf8Size_pos _

def dropBytes : Nat → List Char → List Char
  | _, [] => []
  | n, c :: text => if n = 0 then c :: text else dropBytes (n - c.utf8Size) text

def takeBytes : Nat → List Char → List Char
  | _, [] => []
  | n, c :: text => if n = 0 then [] else c :: takeBytes (n - c.utf8Size) text

private theorem dropBytes_append (before text : List Char) :
    dropBytes (byteLength before) (before ++ text) = text := by
  induction before with
  | nil => cases text <;> simp [dropBytes, byteLength]
  | cons c before ih =>
    have hsize : c.utf8Size ≠ 0 := Nat.ne_of_gt c.utf8Size_pos
    simp [dropBytes, byteLength, hsize, ih]

private theorem takeBytes_append (text behind : List Char) :
    takeBytes (byteLength text) (text ++ behind) = text := by
  induction text with
  | nil => cases behind <;> simp [takeBytes, byteLength]
  | cons c text ih =>
    have hsize : c.utf8Size ≠ 0 := Nat.ne_of_gt c.utf8Size_pos
    simp [takeBytes, byteLength, hsize, ih]

/-- A byte position is one between two characters of a text, or at one of its ends. -/
def IsBoundary (text : List Char) (position : Nat) : Prop :=
  ∃ before behind, text = before ++ behind ∧ position = byteLength before

namespace Span

/-- The characters of a text at a span. -/
def text (span : Span) (source : List Char) : List Char :=
  takeBytes (span.stop - span.start) (dropBytes span.start source)

/-- A span of whole characters of a text, perhaps of none. -/
structure Within (span : Span) (source : List Char) : Prop where
  start_le_stop : span.start ≤ span.stop
  stop_le : span.stop ≤ byteLength source
  start_boundary : IsBoundary source span.start
  stop_boundary : IsBoundary source span.stop

variable {before spelling behind : List Char}

private theorem text_of_parts {span : Span} (hstart : span.start = byteLength before)
    (hstop : span.stop = span.start + byteLength spelling) :
    span.text (before ++ spelling ++ behind) = spelling := by
  rw [text, hstop, Nat.add_sub_cancel_left, hstart, List.append_assoc, dropBytes_append,
    takeBytes_append]

theorem within_of_parts {span : Span} (hstart : span.start = byteLength before)
    (hstop : span.stop = span.start + byteLength spelling) :
    span.Within (before ++ spelling ++ behind) where
  start_le_stop := by omega
  stop_le := by simp only [byteLength_append]; omega
  start_boundary := ⟨before, spelling ++ behind, by simp, hstart⟩
  stop_boundary := ⟨before ++ spelling, behind, rfl, by simp only [byteLength_append]; omega⟩

end Span

namespace Lexeme

variable {text rest spelling : List Char} {token : Token} {lexemes : List Lexeme}
  {fuel start : Nat}

section Steps

variable {c : Char}

theorem splitAt_separator (hc : isSeparator c = true) :
    splitAt (fuel + 1) start (c :: text) = splitAt fuel (start + c.utf8Size) text := by
  rw [splitAt, if_pos hc]

theorem splitAt_token {n : Nat} (hc : isSeparator c = false)
    (hpiece : piece (c :: text) = .ofToken token n) :
    splitAt (fuel + 1) start (c :: text) =
      (splitAt fuel (start + byteLength ((c :: text).take n)) ((c :: text).drop n)).map
        (⟨token, start, start + byteLength ((c :: text).take n)⟩ :: ·) := by
  rw [splitAt, if_neg (by simp [hc]), hpiece]
  simp only [Piece.ofToken]
  cases splitAt fuel (start + byteLength ((c :: text).take n)) ((c :: text).drop n) <;> rfl

theorem splitAt_error {n : Nat} {cause : SyntaxErrorCause} (hc : isSeparator c = false)
    (hpiece : piece (c :: text) = ⟨.error cause, n⟩) :
    splitAt (fuel + 1) start (c :: text) =
      .error ⟨cause, start, start + byteLength ((c :: text).take n)⟩ := by
  rw [splitAt, if_neg (by simp [hc]), hpiece]

end Steps

/-- A text that stands at a byte position is cut into lexemes, with separators between them. -/
inductive Cut : Nat → List Char → List Lexeme → Prop
  | nil {start : Nat} : Cut start [] []
  | separator {start : Nat} {c : Char} {text : List Char} {lexemes : List Lexeme} :
    isSeparator c = true → Cut (start + c.utf8Size) text lexemes → Cut start (c :: text) lexemes
  | token {start : Nat} {token : Token} {spelling rest : List Char} {lexemes : List Lexeme} :
    Spells spelling token → Cut (start + byteLength spelling) rest lexemes →
      Cut start (spelling ++ rest) (⟨token, start, start + byteLength spelling⟩ :: lexemes)

/-- The lexemes of a text are cut from it. -/
theorem cut_of_splitAt (hfuel : text.length ≤ fuel) (h : splitAt fuel start text = .ok lexemes) :
    Cut start text lexemes := by
  induction fuel generalizing start text lexemes with
  | zero =>
    obtain rfl := List.length_eq_zero_iff.mp (Nat.le_zero.mp hfuel)
    cases h
    exact .nil
  | succ fuel ih =>
    cases text with
    | nil =>
      cases h
      exact .nil
    | cons c text =>
      cases hc : isSeparator c with
      | true =>
        rw [splitAt_separator hc] at h
        exact .separator hc (ih (Nat.le_of_succ_le_succ hfuel) h)
      | false =>
        cases hpiece : piece (c :: text) with
        | mk found n =>
          cases found with
          | error cause =>
            rw [splitAt_error hc hpiece] at h
            cases h
          | ok token =>
            obtain ⟨spelling, rest, htext, rfl, hspells⟩ := takes_piece (c :: text) token n hpiece
            rw [splitAt_token hc hpiece, htext, List.take_left, List.drop_left] at h
            obtain ⟨_, _, rfl, _⟩ := hspells.head
            have hlength := congrArg List.length htext
            simp only [List.length_cons, List.length_append] at hlength hfuel
            cases hrest : splitAt fuel (start + byteLength _) rest with
            | error e =>
              rw [hrest] at h
              cases h
            | ok others =>
              rw [hrest] at h
              cases h
              rw [htext]
              exact .token hspells (ih (by omega) hrest)

theorem error_of_splitAt {e : SyntaxError} (h : splitAt fuel start text = .error e) :
    ∃ before bad behind, text = before ++ bad ++ behind ∧ e.span.start = start + byteLength before ∧
      e.span.stop = e.span.start + byteLength bad := by
  induction fuel generalizing start text with
  | zero => cases h
  | succ fuel ih =>
    cases text with
    | nil => cases h
    | cons c text =>
      cases hc : isSeparator c with
      | true =>
        rw [splitAt_separator hc] at h
        obtain ⟨before, bad, behind, rfl, hstart, hstop⟩ := ih h
        refine ⟨c :: before, bad, behind, rfl, ?_, hstop⟩
        rw [hstart, byteLength]
        omega
      | false =>
        cases hpiece : piece (c :: text) with
        | mk found n =>
          cases found with
          | error cause =>
            rw [splitAt_error hc hpiece] at h
            cases h
            exact ⟨[], (c :: text).take n, (c :: text).drop n, by simp, rfl, rfl⟩
          | ok token =>
            rw [splitAt_token hc hpiece] at h
            cases hrest : splitAt fuel (start + byteLength ((c :: text).take n))
                ((c :: text).drop n) with
            | ok others =>
              rw [hrest] at h
              cases h
            | error e' =>
              rw [hrest] at h
              cases h
              obtain ⟨before, bad, behind, htext, hstart, hstop⟩ := ih hrest
              refine ⟨(c :: text).take n ++ before, bad, behind, ?_, ?_, hstop⟩
              · rw [List.append_assoc, List.append_assoc, ← List.append_assoc before, ← htext,
                  List.take_append_drop]
              · rw [hstart, byteLength_append, Nat.add_assoc]

theorem Cut.of_nil (h : Cut start text []) : ∀ c ∈ text, isSeparator c = true := by
  generalize hlexemes : ([] : List Lexeme) = lexemes at h
  induction h with
  | nil => simp
  | separator hc _ ih => exact List.forall_mem_cons.mpr ⟨hc, ih hlexemes⟩
  | token => cases hlexemes

theorem Cut.of_cons {lexeme : Lexeme} (h : Cut start text (lexeme :: lexemes)) :
    ∃ blanks spelling rest, text = blanks ++ spelling ++ rest ∧
      (∀ c ∈ blanks, isSeparator c = true) ∧ Spells spelling lexeme.token ∧
      lexeme.span.start = start + byteLength blanks ∧ Cut lexeme.span.stop rest lexemes := by
  generalize hlexemes : lexeme :: lexemes = all at h
  induction h with
  | nil => cases hlexemes
  | @separator start c text all hc _ ih =>
    obtain ⟨blanks, spelling, rest, rfl, hblanks, hspells, hstart, hrest⟩ := ih hlexemes
    refine ⟨c :: blanks, spelling, rest, rfl, List.forall_mem_cons.mpr ⟨hc, hblanks⟩, hspells, ?_,
      hrest⟩
    rw [hstart, byteLength, Nat.add_assoc]
  | @token start token spelling rest all hspells hrest =>
    cases hlexemes
    exact ⟨[], spelling, rest, rfl, by simp, hspells, rfl, hrest⟩

section Coverage

theorem Cut.parts (h : Cut start text lexemes) : ∀ lexeme ∈ lexemes,
    ∃ before spelling behind, text = before ++ spelling ++ behind ∧ Spells spelling lexeme.token ∧
      lexeme.span.start = start + byteLength before ∧
        lexeme.span.stop = lexeme.span.start + byteLength spelling := by
  induction h with
  | nil => simp
  | @separator start c text lexemes hc _ ih =>
    intro lexeme hlexeme
    obtain ⟨before, spelling, behind, rfl, hspells, hstart, hstop⟩ := ih lexeme hlexeme
    refine ⟨c :: before, spelling, behind, rfl, hspells, ?_, hstop⟩
    rw [hstart, byteLength]
    omega
  | @token start token spelling rest lexemes hspells _ ih =>
    rw [List.forall_mem_cons]
    constructor
    · exact ⟨[], spelling, rest, rfl, hspells, rfl, rfl⟩
    · intro lexeme hlexeme
      obtain ⟨before, other, behind, rfl, hother, hstart, hstop⟩ := ih lexeme hlexeme
      refine ⟨spelling ++ before, other, behind, by simp, hother, ?_, hstop⟩
      rw [hstart, byteLength_append, Nat.add_assoc]

private theorem Cut.increasing (h : Cut start text lexemes) :
    lexemes.Pairwise fun a b => a.span.stop ≤ b.span.start := by
  induction h with
  | nil => exact .nil
  | separator _ _ ih => exact ih
  | @token start token spelling rest lexemes _ hrest ih =>
    refine List.pairwise_cons.mpr ⟨fun lexeme hlexeme => ?_, ih⟩
    obtain ⟨before, -, -, -, -, hstart, -⟩ := hrest.parts lexeme hlexeme
    rw [hstart]
    exact Nat.le_add_right _ _

private theorem Cut.outside (h : Cut start text lexemes) {before behind : List Char} {c : Char}
    (htext : text = before ++ c :: behind)
    (hfree : ∀ lexeme ∈ lexemes, ¬ (lexeme.span.start ≤ start + byteLength before ∧
      start + byteLength before < lexeme.span.stop)) : isSeparator c = true := by
  induction h generalizing before with
  | nil => simp at htext
  | @separator start d text lexemes hd _ ih =>
    cases before with
    | nil =>
      cases htext
      exact hd
    | cons e before =>
      cases htext
      refine ih rfl fun lexeme hlexeme => ?_
      have hfree := hfree lexeme hlexeme
      rw [byteLength] at hfree
      omega
  | @token start token spelling rest lexemes hspells _ ih =>
    rw [List.forall_mem_cons] at hfree
    rcases List.append_eq_append_iff.mp htext with ⟨more, rfl, hrest⟩ | ⟨more, rfl, hmore⟩
    · refine ih hrest fun lexeme hlexeme => ?_
      have hfree := hfree.2 lexeme hlexeme
      rw [byteLength_append] at hfree
      omega
    · cases more with
      | nil =>
        have hrest : rest = [] ++ c :: behind := by simpa using hmore.symm
        refine ih hrest fun lexeme hlexeme => ?_
        simpa [byteLength] using hfree.2 lexeme hlexeme
      | cons d more =>
        have hpos : 0 < byteLength (d :: more) := byteLength_pos (by simp)
        have hfree := hfree.1
        simp only [byteLength_append] at hfree
        omega

/-- The spans of lexemes take whole characters of a text, one behind the other, and all of it but
separators. -/
structure Covers (lexemes : List Lexeme) (source : List Char) : Prop where
  within : ∀ lexeme ∈ lexemes, lexeme.span.Within source
  nonempty : ∀ lexeme ∈ lexemes, lexeme.span.start < lexeme.span.stop
  increasing : lexemes.Pairwise fun a b => a.span.stop ≤ b.span.start
  outside : ∀ before c behind, source = before ++ c :: behind →
    (∀ lexeme ∈ lexemes, ¬ (lexeme.span.start ≤ byteLength before ∧
      byteLength before < lexeme.span.stop)) → isSeparator c = true

theorem Cut.covers (h : Cut 0 text lexemes) : Covers lexemes text where
  within lexeme hlexeme := by
    obtain ⟨before, spelling, behind, rfl, -, hstart, hstop⟩ := h.parts lexeme hlexeme
    exact Span.within_of_parts (by simpa using hstart) hstop
  nonempty lexeme hlexeme := by
    obtain ⟨before, spelling, behind, -, hspells, -, hstop⟩ := h.parts lexeme hlexeme
    obtain ⟨c, tail, rfl, -⟩ := hspells.head
    have hpos : 0 < byteLength (c :: tail) := byteLength_pos (by simp)
    omega
  increasing := h.increasing
  outside before c behind htext hfree := h.outside htext (by simpa using hfree)

end Coverage

section Joining

theorem Cut.spells (h : Cut 0 text lexemes) {lexeme : Lexeme} (hlexeme : lexeme ∈ lexemes) :
    Spells (lexeme.span.text text) lexeme.token := by
  obtain ⟨before, spelling, behind, rfl, hspells, hstart, hstop⟩ := h.parts lexeme hlexeme
  rwa [Span.text_of_parts (by simpa using hstart) hstop]

/-- A text that puts together the texts of lexemes, with one separator or more between any two. There
may be separators at both ends. -/
inductive Joined (source : List Char) : List Lexeme → List Char → Prop
  | nil : Joined source [] []
  | separator {c : Char} {text : List Char} {lexemes : List Lexeme} : isSeparator c = true →
    Joined source lexemes text → Joined source lexemes (c :: text)
  | lexeme {lexeme : Lexeme} {text : List Char} {lexemes : List Lexeme} : Ended text →
    Joined source lexemes text → Joined source (lexeme :: lexemes) (lexeme.span.text source ++ text)

private theorem Splits.separator {tokens : List Token} {c : Char} (h : Splits rest tokens)
    (hc : isSeparator c = true) : Splits (c :: rest) tokens := by
  intro fuel start hfuel
  cases fuel with
  | zero => cases hfuel
  | succ fuel =>
    rw [splitAt_separator hc]
    exact h fuel _ (Nat.le_of_succ_le_succ hfuel)

/-- However the texts of lexemes are put together with separators, the tokens are the same. -/
theorem splits_joined {source joined : List Char} (h : Joined source lexemes joined)
    (hspells : ∀ lexeme ∈ lexemes, Spells (lexeme.span.text source) lexeme.token) :
    Splits joined (lexemes.map Lexeme.token) := by
  induction h with
  | nil => exact splits_nil
  | separator hc _ ih => exact (ih hspells).separator hc
  | lexeme hended _ ih =>
    rw [List.forall_mem_cons] at hspells
    obtain ⟨c, tail, hhead, hc⟩ := hspells.1.head
    refine (ih hspells.2).piece ?_ ?_ (hspells.1.piece_append hended)
    · simp [hhead]
    · intro c' tail' heq
      rw [hhead] at heq
      cases heq
      exact hc

end Joining

end Lexeme
end FeatureStyle
