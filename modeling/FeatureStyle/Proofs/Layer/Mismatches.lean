import FeatureStyle.Pipeline.Basic
import FeatureStyle.Proofs.Layer.Ordered
import FeatureStyle.Session.Printer

/-!
# What overlays report

An overlay reports the places that both sides reach through containers that join, and at which they
have values of different kinds. It goes through the base in depth-first order and reports each place
once. The main statement is `Tree.mismatches_exact`.
-/

namespace FeatureStyle

/-- The order in which a value is gone through: fields by name, items by index. -/
def PathStep.Before : PathStep → PathStep → Prop
  | field a, field b => a < b
  | index m, index n => m < n
  | _, _ => False

private theorem PathStep.Before.ne {a b : PathStep} (h : a.Before b) : a ≠ b := by
  rintro rfl
  cases a with
  | field name => exact String.lt_irrefl name h
  | index n => exact Nat.lt_irrefl n h

/-- A path precedes another if, where the two part, it takes the earlier step. -/
def Path.Precedes (p q : Path) : Prop :=
  ∃ start a b, PathStep.Before a b ∧ start ++ [a] <+: p ∧ start ++ [b] <+: q

private theorem Path.Precedes.ne {p q : Path} (h : p.Precedes q) : p ≠ q := by
  rintro rfl
  obtain ⟨start, a, b, hbefore, ha, hb⟩ := h
  have hparts := List.prefix_of_prefix_length_le ha hb (by simp)
  have hsame := hparts.eq_of_length (by simp)
  exact hbefore.ne (by simpa using hsame)

/-- Base and override have values of different kinds at the place of a mismatch, and they are joined
on the way there. -/
structure Mismatch.Between (m : Mismatch) (base upper : Value) : Prop where
  joined : Value.JoinedAlong base upper m.path
  values : ∃ b u, base.at? m.path = some b ∧ upper.at? m.path = some u ∧ m.base = b.kind ∧
    m.upper = u.kind
  differ : m.base ≠ m.upper

namespace Value

variable {v w base upper b u : Value} {step : PathStep} {path : Path}

/-- The single steps out of a value and where they lead, in order. -/
def steps : Value → List (PathStep × Value)
  | object fields => fields.map fun entry => (.field entry.1, entry.2)
  | array items => items.zipIdx.map fun entry => (.index entry.2, entry.1)
  | _ => []

private theorem Ordered.mem_steps_iff (h : v.Ordered) :
    (step, w) ∈ v.steps ↔ v.step? step = some w := by
  cases v with
  | object fields =>
    cases step with
    | field name => simp [steps, step?, Fields.get?_eq_some_iff (h [] fields rfl)]
    | index n => simp [steps, step?]
  | array items =>
    cases step with
    | field name => simp [steps, step?]
    | index n =>
      simp only [steps, step?, List.mem_map, Prod.mk.injEq, PathStep.index.injEq]
      constructor
      · rintro ⟨⟨item, m⟩, hitem, rfl, rfl⟩
        exact List.mem_zipIdx_iff_getElem?.mp hitem
      · intro hw
        exact ⟨(w, n), List.mem_zipIdx_iff_getElem?.mpr hw, rfl, rfl⟩
  | _ => simp [steps, step?]

private theorem Ordered.pairwise_steps (h : v.Ordered) :
    v.steps.Pairwise fun a b => a.1.Before b.1 := by
  cases v with
  | object fields =>
    rw [steps, List.pairwise_map]
    exact h [] fields rfl
  | array items =>
    have hindices : (items.zipIdx.map Prod.snd).Pairwise (· < ·) := by
      rw [List.zipIdx_map_snd]
      exact List.pairwise_lt_range'
    rw [List.pairwise_map] at hindices
    rw [steps, List.pairwise_map]
    exact hindices
  | _ => exact List.Pairwise.nil

private theorem kind_eq_of_joins (h : b.joins u = true) : b.kind = u.kind := by
  rcases joins_eq_true h with ⟨fields, fields', rfl, rfl⟩ | ⟨items, items', rfl, rfl⟩
  · rfl
  · rfl

private theorem mismatches_of_not_joins (h : b.joins u = false) (path : Path) :
    mismatches path b u = if b.kind = u.kind then [] else [⟨path, b.kind, u.kind⟩] := by
  cases b with
  | object fields =>
    cases u with
    | object fields' => cases h
    | _ => rfl
  | array items =>
    cases u with
    | array items' => cases h
    | _ => rfl
  | _ => rfl

/-- The mismatches at and below the end of one more step, if the override reaches it. -/
def mismatchesBehind (path : Path) (upper : Value) (entry : PathStep × Value) : List Mismatch :=
  match upper.step? entry.1 with
  | some u => mismatches (path ++ [entry.1]) entry.2 u
  | none => []

private theorem mismatchesFields_eq (path : Path) (fields upper : List (String × Value)) :
    mismatchesFields path fields upper =
      (object fields).steps.flatMap (mismatchesBehind path (object upper)) := by
  induction fields with
  | nil => rfl
  | cons entry fields ih =>
    rw [mismatchesFields, ih]
    rfl

private theorem mismatchesItems_eq (path : Path) (items upper : List Value) (start : Nat) :
    mismatchesItems path start items (upper.drop start) =
      ((items.zipIdx start).map fun entry => (PathStep.index entry.2, entry.1)).flatMap
        (mismatchesBehind path (array upper)) := by
  induction items generalizing start with
  | nil => rfl
  | cons item items ih =>
    rw [List.zipIdx_cons, List.map_cons, List.flatMap_cons, ← ih, mismatchesBehind, step?]
    by_cases hlength : start < upper.length
    · rw [List.drop_eq_getElem_cons hlength, List.getElem?_eq_getElem hlength, mismatchesItems]
    · have hend : upper.drop start = [] := List.drop_eq_nil_of_le (by omega)
      have hend' : upper.drop (start + 1) = [] := List.drop_eq_nil_of_le (by omega)
      rw [hend, hend', List.getElem?_eq_none (by omega)]
      cases items <;> rfl

private theorem mismatches_of_joins (h : b.joins u = true) (path : Path) :
    mismatches path b u = b.steps.flatMap (mismatchesBehind path u) := by
  rcases joins_eq_true h with ⟨fields, fields', rfl, rfl⟩ | ⟨items, items', rfl, rfl⟩
  · rw [mismatches, mismatchesFields_eq]
  · rw [mismatches]
    exact mismatchesItems_eq path items items' 0

private theorem Ordered.mem_mismatches_of_joins (h : b.Ordered) (hjoins : b.joins u = true)
    {m : Mismatch} : m ∈ mismatches path b u ↔ ∃ step w w', b.step? step = some w ∧
      u.step? step = some w' ∧ m ∈ mismatches (path ++ [step]) w w' := by
  rw [mismatches_of_joins hjoins, List.mem_flatMap]
  constructor
  · rintro ⟨⟨step, w⟩, hstep, hm⟩
    rw [mismatchesBehind] at hm
    split at hm
    · rename_i w' hw'
      exact ⟨step, w, w', h.mem_steps_iff.mp hstep, hw', hm⟩
    · cases hm
  · rintro ⟨step, w, w', hw, hw', hm⟩
    refine ⟨(step, w), h.mem_steps_iff.mpr hw, ?_⟩
    rw [mismatchesBehind, hw']
    exact hm

private theorem between_nil {lower above : Kind} : (⟨[], lower, above⟩ : Mismatch).Between b u ↔
    lower = b.kind ∧ above = u.kind ∧ lower ≠ above := by
  constructor
  · rintro ⟨-, ⟨_, _, ⟨⟩, ⟨⟩, hlower, habove⟩, hdiffer⟩
    exact ⟨hlower, habove, hdiffer⟩
  · rintro ⟨hlower, habove, hdiffer⟩
    refine ⟨?_, ⟨b, u, rfl, rfl, hlower, habove⟩, hdiffer⟩
    intro start hstart hne
    exact absurd (List.prefix_nil.mp hstart) hne

private theorem between_cons (hjoins : b.joins u = true) {rest : Path} {lower above : Kind} :
    (⟨step :: rest, lower, above⟩ : Mismatch).Between b u ↔ ∃ w w', b.step? step = some w ∧
      u.step? step = some w' ∧ (⟨rest, lower, above⟩ : Mismatch).Between w w' := by
  constructor
  · rintro ⟨hjoined, ⟨x, y, hx, hy, hkinds⟩, hdiffer⟩
    dsimp only at hjoined hx hy
    rw [at?_cons] at hx hy
    obtain ⟨w, hw, hx⟩ := Option.bind_eq_some_iff.mp hx
    obtain ⟨w', hw', hy⟩ := Option.bind_eq_some_iff.mp hy
    exact ⟨w, w', hw, hw', (joinedAlong_cons hjoins hw hw').mp hjoined, ⟨x, y, hx, hy, hkinds⟩,
      hdiffer⟩
  · rintro ⟨w, w', hw, hw', hjoined, ⟨x, y, hx, hy, hkinds⟩, hdiffer⟩
    refine ⟨(joinedAlong_cons hjoins hw hw').mpr hjoined, ⟨x, y, ?_, ?_, hkinds⟩, hdiffer⟩
    · rw [at?_cons, hw]
      exact hx
    · rw [at?_cons, hw']
      exact hy

/-- What is reported from a path on are the mismatches between the two values, at paths that go on
from there. -/
theorem Ordered.mem_mismatches_iff (h : b.Ordered) {m : Mismatch} :
    m ∈ mismatches path b u ↔
      ∃ rest, m.path = path ++ rest ∧ (⟨rest, m.base, m.upper⟩ : Mismatch).Between b u := by
  induction b using stepInduction generalizing u path with
  | value b ih =>
    cases hjoins : b.joins u with
    | false =>
      rw [mismatches_of_not_joins hjoins]
      constructor
      · intro hm
        split at hm
        · cases hm
        · rename_i hkinds
          obtain rfl := List.mem_singleton.mp hm
          exact ⟨[], (List.append_nil path).symm, between_nil.mpr ⟨rfl, rfl, hkinds⟩⟩
      · rintro ⟨rest, hpath, hbetween⟩
        cases rest with
        | nil =>
          obtain ⟨hlower, habove, hdiffer⟩ := between_nil.mp hbetween
          rw [hlower, habove] at hdiffer
          rw [if_neg hdiffer, List.mem_singleton, ← hlower, ← habove, ← List.append_nil path, ← hpath]
        | cons step rest => exact absurd hbetween.joined (not_joinedAlong hjoins)
    | true =>
      rw [h.mem_mismatches_of_joins hjoins]
      constructor
      · rintro ⟨step, w, w', hw, hw', hm⟩
        obtain ⟨rest, hpath, hbetween⟩ := (ih step w hw (h.of_step? hw)).mp hm
        rw [List.append_assoc] at hpath
        exact ⟨step :: rest, hpath, (between_cons hjoins).mpr ⟨w, w', hw, hw', hbetween⟩⟩
      · rintro ⟨rest, hpath, hbetween⟩
        cases rest with
        | nil =>
          obtain ⟨hlower, habove, hdiffer⟩ := between_nil.mp hbetween
          rw [hlower, habove] at hdiffer
          exact absurd (kind_eq_of_joins hjoins) hdiffer
        | cons step rest =>
          obtain ⟨w, w', hw, hw', hrest⟩ := (between_cons hjoins).mp hbetween
          refine ⟨step, w, w', hw, hw', (ih step w hw (h.of_step? hw)).mpr ⟨rest, ?_, hrest⟩⟩
          rw [hpath, List.append_assoc]
          rfl

private theorem Ordered.path_of_mem_mismatchesBehind {entry : PathStep × Value}
    (h : entry.2.Ordered)
    {m : Mismatch} (hm : m ∈ mismatchesBehind path u entry) : path ++ [entry.1] <+: m.path := by
  rw [mismatchesBehind] at hm
  split at hm
  · obtain ⟨rest, hpath, -⟩ := h.mem_mismatches_iff.mp hm
    exact ⟨rest, hpath.symm⟩
  · cases hm

private theorem Ordered.pairwise_mismatches (h : b.Ordered) (u : Value) (path : Path) :
    (mismatches path b u).Pairwise fun m m' => m.path.Precedes m'.path := by
  induction b using stepInduction generalizing u path with
  | value b ih =>
    cases hjoins : b.joins u with
    | false =>
      rw [mismatches_of_not_joins hjoins]
      split
      · exact List.Pairwise.nil
      · exact List.pairwise_singleton _ _
    | true =>
      rw [mismatches_of_joins hjoins, List.pairwise_flatMap]
      constructor
      · rintro ⟨step, w⟩ hentry
        have hw := h.mem_steps_iff.mp hentry
        rw [mismatchesBehind]
        split
        · exact ih step w hw (h.of_step? hw) _ _
        · exact List.Pairwise.nil
      · -- Behind different steps the paths part right there.
        apply h.pairwise_steps.imp_of_mem
        intro entry entry' hentry hentry' hbefore m hm m' hm'
        have hw := h.of_step? (h.mem_steps_iff.mp hentry)
        have hw' := h.of_step? (h.mem_steps_iff.mp hentry')
        exact ⟨path, entry.1, entry'.1, hbefore, hw.path_of_mem_mismatchesBehind hm,
          hw'.path_of_mem_mismatchesBehind hm'⟩

private theorem Ordered.nodup_mismatches (h : b.Ordered) (u : Value) (path : Path) :
    ((mismatches path b u).map Mismatch.path).Nodup := by
  rw [List.Nodup, List.pairwise_map]
  exact (h.pairwise_mismatches u path).imp Path.Precedes.ne

end Value

/-- A mismatch is not below a place at which one side has no value, or at which the two do not
join. -/
theorem Mismatch.Between.path_eq {m : Mismatch} {base upper : Value} (h : m.Between base upper)
    {place : Path} (hplace : ∀ b u, base.at? place = some b → upper.at? place = some u →
      b.joins u = false) (hstart : place <+: m.path) : m.path = place := by
  by_cases heq : place = m.path
  · exact heq.symm
  · obtain ⟨b, u, hb, hu, hjoins⟩ := h.joined place hstart heq
    rw [hplace b u hb hu] at hjoins
    cases hjoins

private theorem Path.text_append (path : Path) (step : PathStep) :
    Path.text (path ++ [step]) = path.text ++ step.text := List.foldl_append

private theorem Event.line_mismatch [NumberPrinter] (m : Mismatch) : (Event.mismatch m).line =
    "TRACE merge shape mismatch at " ++ m.path.text ++ ": " ++ m.base.name ++ " replaced by " ++
      m.upper.name := by
  have hlabel : "TRACE" ++ " " ++ "merge shape mismatch at " = "TRACE merge shape mismatch at " := by
    decide +kernel
  have hline : (Event.mismatch m).line = "TRACE" ++ " " ++ ("merge shape mismatch at " ++
      m.path.text ++ ": " ++ m.base.name ++ " replaced by " ++ m.upper.name) := rfl
  rw [hline, ← hlabel]
  simp only [String.append_assoc]

namespace Tree

/-- What a list of mismatches has to be to tell how an override is laid over a base. -/
structure Reports (base upper : Tree) (reports : List Mismatch) : Prop where
  /-- The list has the places that both reach through containers that join, and at which their kinds
  differ. -/
  complete : ∀ m, m ∈ reports ↔ m.Between base.toValue upper.toValue
  /-- It goes through the base in depth-first order. -/
  depthFirst : reports.Pairwise fun m m' => m.path.Precedes m'.path
  once : (reports.map Mismatch.path).Nodup
  /-- Nothing is below a place at which one side has no value, or the override replaces the base. -/
  outside : ∀ place : Path,
    (∀ b u, base.toValue.at? place = some b → upper.toValue.at? place = some u →
      b.joins u = false) →
    ∀ m ∈ reports, place <+: m.path → m.path = place

/-- An overlay reports exactly its mismatches, and each is told as a line with its path and with the
names of the two kinds. -/
theorem mismatches_exact [NumberPrinter] (base : OrderedTree) (upper : Tree) :
    Reports base upper (base.mismatches upper) ∧
    (Pipeline.layeringEvents base (some upper)).map Event.line =
      (base.mismatches upper).map (fun m => "TRACE merge shape mismatch at " ++ m.path.text ++
        ": " ++ m.base.name ++ " replaced by " ++ m.upper.name) ∧
    Path.text [] = "$" ∧
    (∀ (path : Path) (name : String),
      Path.text (path ++ [.field name]) = path.text ++ "." ++ name) ∧
    ∀ (path : Path) (n : Nat),
      Path.text (path ++ [.index n]) = path.text ++ "[" ++ toString n ++ "]" := by
  have hmem : ∀ m, m ∈ base.mismatches upper ↔ m.Between base.toValue upper.toValue := by
    intro m
    have hiff : m ∈ Value.mismatches [] base.toValue upper.toValue ↔ _ :=
      base.ordered.mem_mismatches_iff
    refine hiff.trans ⟨?_, fun h => ⟨m.path, rfl, h⟩⟩
    rintro ⟨rest, rfl, hbetween⟩
    exact hbetween
  refine ⟨⟨hmem, base.ordered.pairwise_mismatches upper.toValue [],
    base.ordered.nodup_mismatches upper.toValue [], ?_⟩, ?_, rfl, ?_, ?_⟩
  · intro place hplace m hm
    exact ((hmem m).mp hm).path_eq hplace
  · rw [Pipeline.layeringEvents, List.map_map]
    exact List.map_congr_left fun m _ => Event.line_mismatch m
  · intro path name
    rw [Path.text_append, PathStep.text, String.append_assoc]
  · intro path n
    rw [Path.text_append, PathStep.text]
    simp only [String.append_assoc]
    rfl

/-- The detour replaces a label by an expression, and an item and a field of an item by values of
other kinds. -/
theorem mismatches_exact_road :
    Reports OrderedTree.road OrderedTree.detour [⟨[.field "label"], .object, .expression⟩,
      ⟨[.field "line", .field "dash", .index 0], .number, .null⟩,
      ⟨[.field "line", .field "dash", .index 1, .field "gap"], .number, .bool⟩] ∧
    (Pipeline.layeringEvents OrderedTree.road (some OrderedTree.detour)).map Event.line =
      ["TRACE merge shape mismatch at $.label: object replaced by expression",
        "TRACE merge shape mismatch at $.line.dash[0]: number replaced by null",
        "TRACE merge shape mismatch at $.line.dash[1].gap: number replaced by bool"] := by
  obtain ⟨hreports, hlines, -⟩ := mismatches_exact .road OrderedTree.detour
  refine ⟨hreports, hlines.trans ?_⟩
  decide +kernel

end Tree
end FeatureStyle
