import CellHive.Errors
import CellHive.Go.Strings

/-!
# Node-log records

`internal/nodelog/nodelog.go`: what a process session leaves in the bucket for the recovery
of its acknowledged writes. The coordinates of a record (its session, protocol and
followers) are written once; status, progress and coverage change by CAS.
-/

namespace CellHive.NodeLog

open Go

inductive Status where
  | opened
  | recovering
  | sealed
  deriving DecidableEq, Repr

/-- The protocol versions `v1`, `v2` and `v3`, a record without one, and any other text. -/
inductive ProtoVersion where
  | unset
  | legacy
  | session
  | identity
  | other (version : Str)
  deriving DecidableEq, Repr

structure PeerIdentity where
  node : Str
  inst : Str
  deriving DecidableEq, Repr

/-- A Go map from follower addresses. -/
abbrev ByAddress (α : Type) := AList fun _ : Str => α

structure Record where
  node : Str
  session : Str
  epoch : UInt64
  followerRefs : ByAddress PeerIdentity
  progress : ByAddress Nat
  followers : List Str
  status : Status
  protoVersion : ProtoVersion
  coveredSeq : ByAddress Nat

namespace Record

def progressOf (r : Record) (follower : Str) : Nat := (r.progress.lookup follower).getD 0

/-- The two records agree on everything that is written once. -/
structure SameCoords (r r' : Record) : Prop where
  node : r'.node = r.node
  session : r'.session = r.session
  followerRefs : r'.followerRefs = r.followerRefs
  followers : r'.followers = r.followers
  protoVersion : r'.protoVersion = r.protoVersion

theorem SameCoords.refl (r : Record) : SameCoords r r := ⟨rfl, rfl, rfl, rfl, rfl⟩

theorem SameCoords.trans {r₁ r₂ r₃ : Record} (h : SameCoords r₁ r₂) (h' : SameCoords r₂ r₃) :
    SameCoords r₁ r₃ :=
  { node := h'.node.trans h.node
    session := h'.session.trans h.session
    followerRefs := h'.followerRefs.trans h.followerRefs
    followers := h'.followers.trans h.followers
    protoVersion := h'.protoVersion.trans h.protoVersion }

end Record

/-- The followers of a session are read through their session logs. -/
def ProtoVersion.sessionLogs : ProtoVersion → Bool
  | .session | .identity => true
  | _ => false

/-! ## Opening -/

def canonicalFollowers (followers : List Str) : List Str := followers.insertionSort (· ≤ ·)

def sameFollowers (a b : List Str) : Bool := canonicalFollowers a == canonicalFollowers b

/-- `maps.Equal` on follower references. -/
def sameRefs (a b : ByAddress PeerIdentity) : Bool :=
  a.keys.length == b.keys.length && a.keys.all fun addr => a.lookup addr == b.lookup addr

/-- The followers `OpenIdentified` opens a session with, unless a reference is incomplete or
an identity occurs twice. -/
def identifiedFollowers (refs : ByAddress PeerIdentity) : Option (List Str) :=
  if refs.entries = [] then none
  else if refs.entries.any fun x => decide (x.1 = [] ∨ x.2.node = [] ∨ x.2.inst = []) then none
  else if (refs.entries.map (·.2)).Nodup then some refs.keys
  else none

/-- The record `open` creates. References mean the protocol of identities. -/
def opened (node session : Str) (epoch : UInt64) (followers : List Str)
    (refs : Option (ByAddress PeerIdentity)) : Record where
  node := node
  session := session
  epoch := epoch
  followerRefs := refs.getD ∅
  progress := ∅
  followers := canonicalFollowers followers
  status := .opened
  protoVersion := if refs.isSome then .identity else .session
  coveredSeq := ∅

/-- What `open` finds when there is a record already: whether it is the one to open. -/
def Record.reopens (existing new : Record) : Bool :=
  existing.node == new.node && existing.session == new.session &&
    decide (existing.protoVersion = new.protoVersion) &&
    sameFollowers existing.followers new.followers &&
    sameRefs existing.followerRefs new.followerRefs && decide (existing.status = .opened)

theorem mem_canonicalFollowers {f : Str} {followers : List Str} :
    f ∈ canonicalFollowers followers ↔ f ∈ followers := List.mem_insertionSort _

theorem mem_of_sameFollowers {a b : List Str} {f : Str} (h : sameFollowers a b = true)
    (hf : f ∈ b) : f ∈ a := by
  have heq : canonicalFollowers a = canonicalFollowers b := beq_iff_eq.1 h
  rw [← mem_canonicalFollowers, heq, mem_canonicalFollowers]
  exact hf

theorem lookup_of_sameRefs {a b : ByAddress PeerIdentity} {addr : Str} {id : PeerIdentity}
    (h : sameRefs a b = true) (hb : b.lookup addr = some id) : a.lookup addr = some id := by
  simp only [sameRefs, Bool.and_eq_true, beq_iff_eq, List.all_eq_true] at h
  obtain ⟨hlen, hall⟩ := h
  have hsub : a.keys ⊆ b.keys := by
    intro k hk
    obtain ⟨v, hv⟩ := Option.isSome_iff_exists.1 (AList.lookup_isSome.2 hk)
    have hbk := hall k hk
    rw [hv] at hbk
    exact AList.lookup_isSome.1 (by rw [← hbk]; rfl)
  -- as many keys as the other map, all of them there
  have hperm : a.keys.Perm b.keys :=
    (List.subperm_of_subset a.nodupKeys hsub).perm_of_length_le hlen.ge
  have hmem : addr ∈ a.keys := by
    rw [hperm.mem_iff]
    exact AList.lookup_isSome.1 (by rw [hb]; rfl)
  rw [hall addr hmem, hb]

theorem Record.reopens_eq_true {existing new : Record} (h : existing.reopens new = true) :
    existing.node = new.node ∧ existing.session = new.session ∧
      sameFollowers existing.followers new.followers = true ∧
      sameRefs existing.followerRefs new.followerRefs = true ∧ existing.status = .opened := by
  simp only [Record.reopens, Bool.and_eq_true, beq_iff_eq, decide_eq_true_eq] at h
  obtain ⟨⟨⟨⟨⟨hnode, hsession⟩, -⟩, hfollowers⟩, hrefs⟩, hstatus⟩ := h
  exact ⟨hnode, hsession, hfollowers, hrefs, hstatus⟩

end CellHive.NodeLog
