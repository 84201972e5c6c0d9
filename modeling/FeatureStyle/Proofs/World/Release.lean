import Mathlib.Data.List.Nodup
import Mathlib.Data.List.Perm.Subperm
import FeatureStyle.Proofs.World.Idempotence
import FeatureStyle.Proofs.World.Keys

/-!
# What a release counts

A release counts the bindings that a pipeline holds. Others may have removed some of them before, and
the key of one that they removed may have been issued to the pipeline for a second field. So the
count is the number of bindings that the registry loses exactly if every key held is bound and none
is held twice. The main statement is `World.release_counts`.
-/

namespace FeatureStyle

/-- An operation gives the number of bindings that the registry loses. -/
def Turn.Counts {κ σ : Type} (turn : Turn κ σ Nat) (r : Registry κ σ) : Prop :=
  ∃ n, turn.result = .ok n ∧ turn.registry.size + n = r.size

namespace Registry

variable {κ σ : Type} {r : Registry κ σ} {keys : List Key} {key : Key}

private theorem bindings_remove (r : Registry κ σ) (key : Key) :
    (r.remove key).2.bindings = r.bindings.erase key := by
  rw [remove]
  split
  · rename_i hnone
    exact (Table.erase_of_get?_eq_none hnone).symm
  · rfl

private theorem bindings_unbindEach (h : (r.unbindEach keys).1 = .ok ()) :
    (r.unbindEach keys).2.bindings = r.bindings.filter fun entry => entry.1 ∉ keys := by
  induction keys generalizing r with
  | nil => simp [unbindEach]
  | cons key keys ih =>
    rw [unbindEach] at h ⊢
    split at h
    · rename_i hunbind
      rw [ih h, eq_remove_of_unbind hunbind, bindings_remove, Table.erase, List.filter_filter]
      apply List.filter_congr
      intro entry _
      simp [Bool.and_comm]
    · cases h

/-- The keys among some that are bound, each once. -/
def boundAmong (r : Registry κ σ) (keys : List Key) : List Key :=
  (r.bindings.map Prod.fst).filter fun key => key ∈ keys

private theorem mem_bindings_iff : key ∈ r.bindings.map Prod.fst ↔ r.contains key = true := by
  rw [← not_iff_not, ← Table.get?_eq_none_iff, Bool.not_eq_true, contains_eq_false_iff]
  rfl

private theorem mem_boundAmong_iff :
    key ∈ r.boundAmong keys ↔ key ∈ keys ∧ r.contains key = true := by
  rw [boundAmong, List.mem_filter, mem_bindings_iff, decide_eq_true_iff, and_comm]

private theorem nodup_boundAmong (h : Table.Functional r.bindings) (keys : List Key) :
    (r.boundAmong keys).Nodup := List.Nodup.filter _ h

private theorem size_unbindEach (h : (r.unbindEach keys).1 = .ok ()) :
    (r.unbindEach keys).2.size + (r.boundAmong keys).length = r.size := by
  have hsplit := List.length_eq_length_filter_add (l := r.bindings) fun entry => entry.1 ∈ keys
  have hbound : (r.boundAmong keys).length =
      (r.bindings.filter fun entry => entry.1 ∈ keys).length := by
    rw [boundAmong, List.filter_map, List.length_map]
    rfl
  rw [size, bindings_unbindEach h, hbound, size, hsplit, Nat.add_comm]
  simp

private theorem length_boundAmong_le (h : Table.Functional r.bindings) (keys : List Key) :
    (r.boundAmong keys).length ≤ keys.length :=
  (List.subperm_of_subset (nodup_boundAmong h keys)
    fun _ hkey => (mem_boundAmong_iff.mp hkey).1).length_le

theorem length_boundAmong_iff (h : Table.Functional r.bindings) :
    (r.boundAmong keys).length = keys.length ↔
      keys.Nodup ∧ ∀ key ∈ keys, r.contains key = true := by
  have hnodup := nodup_boundAmong h keys
  constructor
  · intro hlength
    have hsub : List.Subperm (r.boundAmong keys) keys :=
      List.subperm_of_subset hnodup fun _ hkey => (mem_boundAmong_iff.mp hkey).1
    have hperm := hsub.perm_of_length_le (Nat.le_of_eq hlength.symm)
    exact ⟨hperm.nodup_iff.mp hnodup,
      fun key hkey => (mem_boundAmong_iff.mp (hperm.mem_iff.mpr hkey)).2⟩
  · rintro ⟨hkeys, hbound⟩
    apply List.Perm.length_eq
    rw [List.perm_ext_iff_of_nodup hnodup hkeys]
    intro key
    rw [mem_boundAmong_iff]
    exact and_iff_left_of_imp (hbound key)

end Registry

/-- An operation removes whatever is bound to some keys, and gives the number of these keys. -/
structure Turn.Releases {κ σ : Type} (turn : Turn κ σ Nat) (r : Registry κ σ) (keys : List Key) :
    Prop where
  result : turn.result = .ok keys.length
  registry : ∀ key, turn.registry.get? key = if key ∈ keys then none else r.get? key
  /-- The registry loses at most as many bindings as are counted. -/
  size : turn.registry.size ≤ r.size ∧ r.size ≤ turn.registry.size + keys.length
  /-- It loses as many exactly if every key is bound and none is listed twice. -/
  counts : turn.Counts r ↔ keys.Nodup ∧ ∀ key ∈ keys, r.contains key = true

namespace Pipeline

variable {κ σ : Type} {p : Pipeline σ} {r : Registry κ σ} {keys : List Key}

private theorem releases_of_unbindEach {turn : Turn κ σ Nat} (hr : Table.Functional r.bindings)
    (hremoved : (r.unbindEach keys).1 = .ok ())
    (hresult : turn.result = (r.unbindEach keys).1.map fun _ => keys.length)
    (hregistry : turn.registry = (r.unbindEach keys).2) : turn.Releases r keys := by
  have hsize := Registry.size_unbindEach hremoved
  have hle := Registry.length_boundAmong_le hr keys
  have hcount : turn.result = .ok keys.length := by
    rw [hresult, hremoved]
    rfl
  refine ⟨hcount, ?_, ?_, ?_⟩
  · intro key
    rw [hregistry]
    split
    · rename_i hkey
      exact Registry.get?_unbindEach_of_mem hremoved hkey
    · rename_i hkey
      exact Registry.get?_unbindEach_of_notMem hkey
  · rw [hregistry]
    omega
  · rw [← Registry.length_boundAmong_iff hr, Turn.Counts, hcount, hregistry]
    constructor
    · rintro ⟨n, hn, hlost⟩
      cases hn
      omega
    · intro hlength
      exact ⟨keys.length, rfl, by omega⟩

/-- The keys of the bindings held for a feature, in the order of their fields. -/
def heldKeys (p : Pipeline σ) (feature : FeatureId) : List Key :=
  (p.heldFields feature).map fun entry => entry.2.key

private theorem release_result (p : Pipeline σ) (r : Registry κ σ) (feature : FeatureId) :
    (p.release r feature).result =
      (r.unbindEach (p.heldKeys feature)).1.map fun _ => (p.heldKeys feature).length := by
  simp only [release, heldKeys, heldFields]
  cases p.held.get? feature with
  | none => rfl
  | some bindings => rw [Option.getD_some, List.length_map]

private theorem releaseAll_result (p : Pipeline σ) (r : Registry κ σ) :
    (p.releaseAll r).result = (r.unbindEach p.allKeys).1.map fun _ => p.allKeys.length := by
  have hlength : (p.held.flatMap fun entry => entry.2).length = p.allKeys.length := by
    rw [allKeys, List.length_map]
  rw [← hlength]
  simp only [releaseAll, allKeys]
  split <;> simp only [*] <;> rfl

private theorem release_releases (hr : Table.Functional r.bindings) (hp : p.Ordered)
    (hfits : p.FitsAll r)
    (feature : FeatureId) : (p.release r feature).Releases r (p.heldKeys feature) := by
  apply releases_of_unbindEach hr _ (release_result p r feature) (release_spec p r feature).1
  apply Registry.unbindEach_of_admits
  intro key hkey
  obtain ⟨field, binding, hholds, rfl⟩ := (mem_keys_iff hp).mp hkey
  exact hfits binding.key ⟨feature, field, binding, hholds, rfl⟩

private theorem releaseAll_releases (hr : Table.Functional r.bindings) (hp : p.Ordered)
    (hfits : p.FitsAll r) : (p.releaseAll r).Releases r p.allKeys := by
  apply releases_of_unbindEach hr _ (releaseAll_result p r) (releaseAll_spec p r).1
  apply Registry.unbindEach_of_admits
  intro key hkey
  exact hfits key ((mem_allKeys_iff hp).mp hkey)

/-- No two fields of a feature have bindings of the same key if they are good for their fields. -/
theorem Guards.nodup_heldKeys (h : p.Guards r) (hp : p.Ordered) (feature : FeatureId) :
    (p.heldKeys feature).Nodup := by
  have hsorted := hp.sorted feature
  apply List.Nodup.map_on _ (Fields.nodup_of_sorted hsorted)
  rintro ⟨field, binding⟩ hmem ⟨field', binding'⟩ hmem' hkey
  have hholds : p.Holds feature field binding := (Fields.get?_eq_some_iff hsorted).mpr hmem
  have hholds' : p.Holds feature field' binding' := (Fields.get?_eq_some_iff hsorted).mpr hmem'
  obtain ⟨-, rfl⟩ := h.inj hholds hholds' hkey
  rw [Holds, hholds] at hholds'
  cases hholds'
  rfl

private theorem Guards.nodup_allKeys (h : p.Guards r) (hp : p.Ordered) : p.allKeys.Nodup := by
  have hfields : ∀ entry ∈ p.held, p.heldFields entry.1 = entry.2 := fun entry hentry =>
    heldFields_of_get? (Table.get?_of_mem hp.functional hentry)
  rw [allKeys, List.map_flatMap, List.nodup_flatMap]
  constructor
  · intro entry hentry
    have hnodup := h.nodup_heldKeys hp entry.1
    rwa [heldKeys, hfields entry hentry] at hnodup
  · have hfeatures : p.held.Pairwise fun a b => a.1 ≠ b.1 := List.pairwise_map.mp hp.functional
    apply hfeatures.imp_of_mem
    intro a b ha hb hne key hkey hkey'
    dsimp only at hkey hkey'
    rw [← hfields a ha] at hkey
    rw [← hfields b hb] at hkey'
    obtain ⟨field, binding, hholds, hsame⟩ := (mem_keys_iff hp).mp hkey
    obtain ⟨field', binding', hholds', hsame'⟩ := (mem_keys_iff hp).mp hkey'
    exact hne (h.inj hholds hholds' (hsame.trans hsame'.symm)).1

end Pipeline

namespace World

variable {ι κ σ : Type} [KeySupply κ] [DecidableEq ι] {may : World ι κ σ → Act σ → Prop}
  {w : World ι κ σ}

/-- Releases remove what is bound to the keys held and count these keys. The count is the number of
bindings that the registry loses exactly if every key is bound and none is held twice; in particular
always if others never touched the bindings of pipelines. -/
theorem release_counts (h : Reachable may w) (i : ι) :
    (∀ feature, ((w.pipelines i).release w.registry feature).Releases w.registry
      ((w.pipelines i).heldKeys feature)) ∧
    ((w.pipelines i).releaseAll w.registry).Releases w.registry (w.pipelines i).allKeys ∧
    (Reachable (fun w (a : Act σ) => a.Own w) w →
      (∀ feature, ((w.pipelines i).release w.registry feature).Counts w.registry) ∧
        ((w.pipelines i).releaseAll w.registry).Counts w.registry) := by
  have hregular := h.regular
  have hordered := hregular.ordered i
  have hfits := hregular.fitsAll i
  have hrelease := Pipeline.release_releases h.functional hordered hfits
  have hreleaseAll := Pipeline.releaseAll_releases h.functional hordered hfits
  refine ⟨hrelease, hreleaseAll, ?_⟩
  intro hown
  have hsettled := hown.settled
  have hguards := (hsettled.tracks i).guards
  have hbound : ∀ key, (w.pipelines i).Remembers key → w.registry.contains key = true :=
    fun key hkey => Registry.contains_iff.mpr (hsettled.get?_of_remembers hkey)
  constructor
  · intro feature
    rw [(hrelease feature).counts]
    refine ⟨hguards.nodup_heldKeys hordered feature, ?_⟩
    intro key hkey
    obtain ⟨field, binding, hholds, hsame⟩ := (Pipeline.mem_keys_iff hordered).mp hkey
    exact hbound key ⟨feature, field, binding, hholds, hsame⟩
  · rw [hreleaseAll.counts]
    refine ⟨hguards.nodup_allKeys hordered, ?_⟩
    intro key hkey
    exact hbound key ((Pipeline.mem_allKeys_iff hordered).mp hkey)

/-- A pipeline that resolved a field counts and removes the one binding of it. -/
theorem lone_release_counts :
    ∃ bags, ((lone 8).turn () (.resolve (.probe "x") none (.ofId ⟨"f"⟩))).result = .ok bags ∧
      let w := (lone 8).call () (.resolve (.probe "x") none (.ofId ⟨"f"⟩)) bags
      Reachable (fun w (a : Act String) => a.Own w) w ∧
        ((w.pipelines ()).release w.registry ⟨"f"⟩).result = .ok 1 ∧
        ((w.pipelines ()).release w.registry ⟨"f"⟩).Counts w.registry := by
  refine ⟨_, rfl, ?_⟩
  intro w
  have hreachable : Reachable (fun w (a : Act String) => a.Own w) w :=
    .call (reachable_lone _ 8) rfl
  obtain ⟨hrelease, -, hcounts⟩ := release_counts hreachable ()
  exact ⟨hreachable, (hrelease ⟨"f"⟩).result, (hcounts hreachable).1 ⟨"f"⟩⟩

def deserted : World Unit KeySupply.Same String :=
  let request := Call.resolve (.probe "x") none (.ofId ⟨"f"⟩)
  let bags := ((lone 8).turn () request).result.toOption.getD []
  ((lone 8).call () request bags).act (.unbind ⟨"AAAAAAAAAAAAAAAAAAAAA"⟩)

/-- The pipeline still counts it as released. -/
theorem deserted_miscounted : Reachable (fun _ _ => True) deserted ∧
    ((deserted.pipelines ()).release deserted.registry ⟨"f"⟩).result = .ok 1 ∧
    ¬ ((deserted.pipelines ()).release deserted.registry ⟨"f"⟩).Counts deserted.registry := by
  have hresult : ((deserted.pipelines ()).release deserted.registry ⟨"f"⟩).result = .ok 1 := rfl
  refine ⟨?_, hresult, ?_⟩
  · simp only [deserted]
    apply Reachable.act _ trivial
    exact .call (reachable_lone _ 8) rfl
  · rintro ⟨n, hn, hlost⟩
    rw [hresult] at hn
    cases hn
    have hempty : deserted.registry.size = 0 := rfl
    omega

end World
end FeatureStyle
