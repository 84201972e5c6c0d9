import FeatureStyle.Bag.Basic
import FeatureStyle.Layer.Tree

/-!
# The store of bags

The store holds at most one bag a feature, in a slot given by the feature's identifier and the hash of
the tree that the bag was resolved from. A bag is found only for exactly the tree and the feature it
was stored with. When the store is full the bag at the head of the queue is evicted. A bag that is
dropped leaves its slot in the queue until the slot is met or the queue becomes too long.
-/

namespace FeatureStyle

structure Slot where
  feature : FeatureId
  hash : UInt64
deriving DecidableEq

/-- A bag with the tree and the feature it was resolved from. -/
structure StoredBag (σ : Type) where
  tree : Tree
  feature : Feature
  bag : Bag σ

structure BagStore (σ : Type) where
  capacity : Nat
  bags : Table Slot (StoredBag σ)
  /-- The hash in the slot of a feature. -/
  hashes : Table FeatureId UInt64
  /-- The slots in the order of storing, oldest first. -/
  queue : List Slot

namespace BagStore

variable {σ : Type}

def empty (capacity : Nat) : BagStore σ := ⟨capacity, [], [], []⟩

def size (s : BagStore σ) : Nat := s.bags.length

/-- The bag stored for a tree with the given hash and a feature. -/
def get? (s : BagStore σ) (hash : UInt64) (tree : Tree) (feature : Feature) : Option (Bag σ) :=
  match s.bags.get? ⟨feature.id, hash⟩ with
  | some stored => if stored.tree == tree && stored.feature == feature then some stored.bag else none
  | none => none

/-- Drops the bag of a feature and tells whether there was one. -/
def forget (s : BagStore σ) (feature : FeatureId) : Bool × BagStore σ :=
  match s.hashes.get? feature with
  | none => (false, s)
  | some hash =>
    let slot : Slot := ⟨feature, hash⟩
    (s.bags.contains slot, { s with bags := s.bags.erase slot, hashes := s.hashes.erase feature })

/-- Evicts the oldest bags of a queue until there is room for one more. Gives the features evicted. -/
def makeRoom (s : BagStore σ) : List Slot → List FeatureId × BagStore σ
  | [] => ([], { s with queue := [] })
  | oldest :: queue =>
    if s.bags.length < s.capacity then ([], { s with queue := oldest :: queue })
    else if s.bags.contains oldest then
      let dropped := { s with
        bags := s.bags.erase oldest
        hashes := s.hashes.erase oldest.feature }
      let (evicted, room) := dropped.makeRoom queue
      (oldest.feature :: evicted, room)
    else s.makeRoom queue

/-- Drops the slots without a bag from the queue, once it is more than twice as long as bags can be
many. -/
def shortenQueue (s : BagStore σ) : BagStore σ :=
  if 2 * s.capacity < s.queue.length then
    { s with queue := s.queue.filter fun slot => s.bags.contains slot }
  else s

/-- Stores a bag instead of the one stored for its feature. Gives the features evicted for it. -/
def insert (s : BagStore σ) (hash : UInt64) (tree : Tree) (feature : Feature) (bag : Bag σ) :
    List FeatureId × BagStore σ :=
  if s.capacity = 0 then ([], s)
  else
    let (_, dropped) := s.forget feature.id
    let (evicted, room) := dropped.makeRoom dropped.queue
    let slot : Slot := ⟨feature.id, hash⟩
    let filled := { room with
      bags := room.bags.put slot ⟨tree, feature, bag⟩
      hashes := room.hashes.put feature.id hash
      queue := room.queue ++ [slot] }
    (evicted, filled.shortenQueue)

def clear (s : BagStore σ) : BagStore σ := empty s.capacity

end BagStore
end FeatureStyle
