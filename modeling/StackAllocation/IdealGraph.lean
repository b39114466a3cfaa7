import StackAllocation.Search
import Mathlib.Data.Nat.Notation

/-!
# The ideal graph

The nodes of the sea of nodes, their inputs and their out edges, and two walks over the out
edges that escape analysis makes: `allocation_lifetime_overlap` looks for a way from a loop's
`Phi` back to it, and `oop_may_be_compressed` for an `EncodeP` of an allocation's result.
-/

namespace StackAllocation

/-- The kinds of nodes that the walks tell apart. -/
inductive Opcode : Type where
  | region
  /-- a `Loop` -/
  | loop
  | phi
  | castPP
  | checkCastPP
  | cMoveP
  | encodeP
  | loadP
  /-- anything else -/
  | other
  deriving DecidableEq, Repr

/-- The ideal graph of a compilation. -/
structure IdealGraph : Type where
  /-- the nodes are numbered below this -/
  size : ℕ
  opcode : ℕ → Opcode
  /-- the inputs of a node, that of control first -/
  ins : ℕ → List (Option ℕ)
  /-- the out edges of a node, in the order in which they are stored -/
  outs : ℕ → List ℕ
  /-- A user is in the list once for each of its inputs that is the node. -/
  count_outs : ∀ n m, (outs n).count m = (ins m).count (some n)
  outs_lt : ∀ n, ∀ m ∈ outs n, m < size

namespace IdealGraph

/-- Each user below `n`, as often as it uses a node. -/
theorem count_users (c : ℕ → ℕ) (n m : ℕ) :
    ((List.range n).flatMap (fun k => List.replicate (c k) k)).count m =
      if m < n then c m else 0 := by
  induction n with
  | zero => simp
  | succ n ih =>
    rw [List.range_succ, List.flatMap_append, List.count_append, ih, List.flatMap_singleton,
      List.count_replicate]
    by_cases hmn : m = n
    · simp [hmn]
    · have hlt : m < n + 1 ↔ m < n := by omega
      simp [hlt, Ne.symm hmn]

/-- A graph of finitely many nodes, from their inputs. -/
def ofInputs (l : List (Opcode × List (Option ℕ))) : IdealGraph where
  size := l.length
  opcode := fun n => (l.getD n (.other, [])).1
  ins := fun n => (l.getD n (.other, [])).2
  outs := fun n => (List.range l.length).flatMap fun m =>
    List.replicate ((l.getD m (.other, [])).2.count (some n)) m
  count_outs := by
    intro n m
    rw [count_users (fun m => (l.getD m (.other, [])).2.count (some n))]
    split
    · rfl
    · next hm => simp [List.getElem?_eq_none (Nat.le_of_not_lt hm)]
  outs_lt := by
    intro n m hm
    obtain ⟨k, hk, hm⟩ := List.mem_flatMap.1 hm
    obtain rfl := List.eq_of_mem_replicate hm
    exact List.mem_range.1 hk

open Search

variable (G : IdealGraph)

/-- `in(i)`. -/
def input (n i : ℕ) : Option ℕ := ((G.ins n)[i]?).join

/-- `in(0)->is_Loop()`. -/
def isLoopPhi (phi : ℕ) : Bool :=
  match G.input phi 0 with
  | some child0 => decide (G.opcode child0 = .loop)
  | none => false

/-- `allocation_lifetime_overlap`. -/
def allocationLifetimeOverlap (fuel phi : ℕ) : Option Bool :=
  if !G.isLoopPhi phi then some false
  else
    -- The out edges from 1 on; the last one pushed is the first to be popped.
    search G.outs (fun node => decide (G.opcode node = .phi) && decide (phi = node)) fuel
      ((G.outs phi).drop 1).reverse []

/-- `oop_may_be_compressed`. -/
def oopMayBeCompressed (fuel allocResult : ℕ) : Option Bool :=
  sweep G.outs (fun use => decide (G.opcode use = .phi))
    (fun use => decide (G.opcode use = .encodeP)) fuel [allocResult] [allocResult]

/-- The out edges of all nodes. -/
def edgeCount : ℕ := ((List.range G.size).map (fun n => (G.outs n).length)).sum

/-- Enough steps for the walks. -/
def walkFuel (n : ℕ) : ℕ := G.size + (G.outs n).length + G.edgeCount + 2

/-- There is an edge from a node to its user. -/
def Edge (n m : ℕ) : Prop := m ∈ G.outs n

variable {G}

/-- The users of a node are nodes of the graph. -/
theorem mem_range_of_mem_outs {n m : ℕ} (h : m ∈ G.outs n) : m ∈ List.range G.size :=
  List.mem_range.2 (G.outs_lt n m h)

/-- Before anything is visited all nodes are left. -/
theorem work_nil_eq (nodes : List ℕ) (cost : ℕ → ℕ) :
    work nodes cost [] = (nodes.map cost).sum := by
  simp [work]

/-- What the walk for a `Phi` of a loop finds. -/
theorem allocationLifetimeOverlap_eq {fuel phi : ℕ} (hloop : G.isLoopPhi phi = true)
    (hphi : G.opcode phi = .phi) (hfuel : G.walkFuel phi ≤ fuel) :
    ∃ b, G.allocationLifetimeOverlap fuel phi = some b ∧
      (b = true ↔ ∃ u ∈ (G.outs phi).drop 1, Relation.ReflTransGen G.Edge u phi) := by
  have hroots : ∀ n ∈ ((G.outs phi).drop 1).reverse, n ∈ List.range G.size := fun n hn =>
    mem_range_of_mem_outs (List.mem_of_mem_drop (List.mem_reverse.1 hn))
  have henough : ((G.outs phi).drop 1).reverse.length +
      work (List.range G.size) (fun n => (G.outs n).length) [] < fuel := by
    rw [List.length_reverse, List.length_drop, work_nil_eq]
    unfold walkFuel edgeCount at hfuel
    omega
  obtain ⟨b, hb, hiff⟩ := search_eq
    (fun node => decide (G.opcode node = .phi) && decide (phi = node))
    (fun n _ m hm => mem_range_of_mem_outs hm) hroots henough
  refine ⟨b, by rw [allocationLifetimeOverlap, hloop]; exact hb, hiff.trans ?_⟩
  constructor
  · rintro ⟨n, ⟨u, hu, hpath⟩, hn⟩
    obtain rfl : phi = n := of_decide_eq_true (Bool.and_eq_true_iff.1 hn).2
    exact ⟨u, List.mem_reverse.1 hu, hpath⟩
  · rintro ⟨u, hu, hpath⟩
    exact ⟨phi, ⟨u, List.mem_reverse.2 hu, hpath⟩, by simp [hphi]⟩

/-- The nodes along which a walk goes. -/
def Through (G : IdealGraph) (kinds : Opcode → Prop) (n m : ℕ) : Prop :=
  Relation.ReflTransGen (fun a b => b ∈ G.outs a ∧ kinds (G.opcode b)) n m

/-- An `EncodeP` that is reached through nodes of some kinds. -/
def ReachesEncodeP (G : IdealGraph) (kinds : Opcode → Prop) (n : ℕ) : Prop :=
  ∃ m, G.Through kinds n m ∧ ∃ e ∈ G.outs m, G.opcode e = .encodeP

/-- What the walk for an allocation's result finds. -/
theorem oopMayBeCompressed_eq (allocResult : ℕ) {fuel : ℕ} (hfuel : G.size + 2 ≤ fuel) :
    ∃ b, G.oopMayBeCompressed fuel allocResult = some b ∧
      (b = true ↔ G.ReachesEncodeP (· = .phi) allocResult) := by
  have hnodes : ∀ n ∈ allocResult :: List.range G.size, ∀ m ∈ G.outs n,
      m ∈ allocResult :: List.range G.size := fun n _ m hm =>
    List.mem_cons_of_mem _ (mem_range_of_mem_outs hm)
  have henough : [allocResult].length +
      work (allocResult :: List.range G.size) (fun _ => 1) [allocResult] < fuel := by
    have hmem : allocResult ∈ allocResult :: List.range G.size := List.mem_cons_self
    have hle := work_add_cost_le (fun _ => 1) hmem (List.not_mem_nil (a := allocResult))
    rw [work_nil_eq] at hle
    simp at hle ⊢
    omega
  obtain ⟨b, hb, hiff⟩ := sweep_eq (fun use => decide (G.opcode use = .phi))
    (fun use => decide (G.opcode use = .encodeP)) hnodes
    (fun n hn => List.mem_cons.2 (.inl (List.mem_singleton.1 hn))) henough
  have hnext : (fun a b => b ∈ followed G.outs (fun use => decide (G.opcode use = .phi)) a) =
      fun a b => b ∈ G.outs a ∧ G.opcode b = .phi := by
    funext a b
    simp [followed]
  refine ⟨b, hb, hiff.trans ?_⟩
  simp only [Reach, FoundUse, hnext]
  constructor
  · rintro ⟨m, ⟨r, hr, hpath⟩, e, he, -, hfound⟩
    obtain rfl := List.mem_singleton.1 hr
    exact ⟨m, hpath, e, he, of_decide_eq_true hfound⟩
  · rintro ⟨m, hpath, e, he, hfound⟩
    exact ⟨m, ⟨allocResult, List.mem_singleton_self _, hpath⟩, e, he, by simp [hfound]⟩

end IdealGraph

end StackAllocation
