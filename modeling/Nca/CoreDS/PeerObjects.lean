import Nca.CoreDS.IpBlock

/-!
Peer sets as objects. A peer set holds peers, of which the IP blocks are objects that can change and
that several sets can hold. Every operation is a step on the objects; one that is not in place only
makes new ones.
-/

namespace Nca.CoreDS
open Lib Python

/-- A peer as a set holds it: an IP block by its reference, any other peer as it is compared. -/
inductive PeerRef (K : Type) where
  | other (peer : K)
  | ipBlock (ref : Nat)
  deriving DecidableEq, Repr

/-- All IP blocks and all peer sets of a program, by reference. -/
structure Objects (K : Type) where
  blocks : List IpBlock := []
  sets : List (List (PeerRef K)) := []

namespace Objects

variable {K : Type} [DecidableEq K]

def newBlock (heap : Objects K) (block : IpBlock) : Nat × Objects K :=
  (heap.blocks.length, { heap with blocks := heap.blocks ++ [block] })

def newSet (heap : Objects K) (peers : List (PeerRef K)) : Nat × Objects K :=
  (heap.sets.length, { heap with sets := heap.sets ++ [peers] })

/-- `res |= elem` for IP blocks. -/
def iorBlock (heap : Objects K) (res elem : Nat) : Except Failure (Objects K) := do
  let union ← (← item heap.blocks res).or (← item heap.blocks elem)
  pure { heap with blocks := heap.blocks.set res union }

def andBlock (heap : Objects K) (self other : Nat) : Except Failure (Nat × Objects K) := do
  pure (heap.newBlock ((← item heap.blocks self).and (← item heap.blocks other)))

def subBlock (heap : Objects K) (self other : Nat) : Except Failure (Nat × Objects K) := do
  pure (heap.newBlock ((← item heap.blocks self).sub (← item heap.blocks other)))

/-- `==` of peers, by value for IP blocks. -/
def eqPeer (heap : Objects K) : PeerRef K → PeerRef K → Bool
  | .other peer, .other peer' => decide (peer = peer')
  | .ipBlock ref, .ipBlock ref' => decide (heap.blocks[ref]? = heap.blocks[ref']?)
  | _, _ => false

/-- `set.add`. -/
def setAdd (heap : Objects K) (peers : List (PeerRef K)) (peer : PeerRef K) : List (PeerRef K) :=
  if peers.any (heap.eqPeer peer) then peers else peers ++ [peer]

/-- `set.update`. -/
def setUpdate (heap : Objects K) (peers more : List (PeerRef K)) : List (PeerRef K) :=
  more.foldl heap.setAdd peers

/-- `PeerSet(peer_set)`. -/
def newPeerSet (heap : Objects K) (peers : List (PeerRef K)) : Nat × Objects K :=
  heap.newSet (heap.setUpdate [] peers)

/-- `peers.add(block)` for a new block. -/
def addNewBlock (heap : Objects K) (peers : List (PeerRef K)) (block : IpBlock) :
    List (PeerRef K) × Objects K :=
  let (ref, heap) := heap.newBlock block
  (heap.setAdd peers (.ipBlock ref), heap)

/-- `IpBlock.split`. -/
def split (heap : Objects K) (block : IpBlock) : Nat × Objects K :=
  let (peers, heap) := block.interval_set.foldl
    (fun (peers, heap) ip_range => addNewBlock heap peers ⟨[ip_range]⟩) ([], heap)
  heap.newSet peers

end Objects

namespace PeerSetRef
open Objects

variable {K : Type} [DecidableEq K] (heap : Objects K)

def getSetWithoutIpBlock (self : Nat) : Except Failure (List K) := do
  let elems ← item heap.sets self
  pure (elems.filterMap fun
    | .other peer => some peer
    | .ipBlock _ => none)

/-- The loop of `get_ip_block_canonical_form`. -/
def addBlocks (res : Nat) (elems : List (PeerRef K)) : Except Failure (Objects K) :=
  elems.foldlM (fun heap elem => match elem with
    | .ipBlock ref => heap.iorBlock res ref
    | .other _ => pure heap) heap

def getIpBlockCanonicalForm (self : Nat) : Except Failure (Nat × Objects K) := do
  let (res, heap) := heap.newBlock {}
  let heap ← addBlocks heap res (← item heap.sets self)
  pure (res, heap)

/-- `IpBlock.get_peer_set`. -/
def getPeerSet (block : Nat) : Except Failure (Nat × Objects K) := do
  if (← item heap.blocks block).bool then pure (heap.newPeerSet [.ipBlock block])
  else pure (heap.newPeerSet [])

def copy (self : Nat) : Except Failure (Nat × Objects K) := do
  pure (heap.newPeerSet (← item heap.sets self))

def or (self other : Nat) : Except Failure (Nat × Objects K) := do
  let (both, heap) := heap.newSet (heap.setUpdate (← item heap.sets self) (← item heap.sets other))
  copy heap both

/-- `PeerSet.__ior__`: the set itself is extended, and the result is a copy of it. -/
def ior (self other : Nat) : Except Failure (Nat × Objects K) := do
  let peers := heap.setUpdate (← item heap.sets self) (← item heap.sets other)
  copy { heap with sets := heap.sets.set self peers } self

/-- `PeerSet.__iand__` and `PeerSet.__isub__`, by the operations on IP blocks and on sets of other
peers that they use. -/
def iop (blockOp : Objects K → Nat → Nat → Except Failure (Nat × Objects K))
    (setOp : List K → List K → List K) (self other : Nat) : Except Failure (Nat × Objects K) := do
  let (self_ip_block, heap) ← getIpBlockCanonicalForm heap self
  let (other_ip_block, heap) ← getIpBlockCanonicalForm heap other
  let (res_ip_block, heap) ← blockOp heap self_ip_block other_ip_block
  let (res_peer_set_ip_block, heap) ← getPeerSet heap res_ip_block
  let self_without_ip_block ← getSetWithoutIpBlock heap self
  let other_without_ip_block ← getSetWithoutIpBlock heap other
  let res_without_ip_block := setOp self_without_ip_block other_without_ip_block
  let (res, heap) := heap.newPeerSet (res_without_ip_block.map .other)
  or heap res res_peer_set_ip_block

def iand (self other : Nat) : Except Failure (Nat × Objects K) :=
  iop heap andBlock (fun self other => self.filter (· ∈ other)) self other

def isub (self other : Nat) : Except Failure (Nat × Objects K) :=
  iop heap subBlock (fun self other => self.filter (· ∉ other)) self other

def and (self other : Nat) : Except Failure (Nat × Objects K) := do
  let (res, heap) ← copy heap self
  iand heap res other

def sub (self other : Nat) : Except Failure (Nat × Objects K) := do
  let (res, heap) ← copy heap self
  isub heap res other

def eq (self other : Nat) : Except Failure (Bool × Objects K) := do
  let self_without_ip_block ← getSetWithoutIpBlock heap self
  let other_without_ip_block ← getSetWithoutIpBlock heap other
  if ¬ (self_without_ip_block ⊆ other_without_ip_block ∧ other_without_ip_block ⊆ self_without_ip_block) then
    pure (false, heap)
  else
    let (self_ip_block, heap) ← getIpBlockCanonicalForm heap self
    let (other_ip_block, heap) ← getIpBlockCanonicalForm heap other
    let block ← item heap.blocks self_ip_block
    pure (decide (block = (← item heap.blocks other_ip_block)), heap)

end PeerSetRef
end Nca.CoreDS
