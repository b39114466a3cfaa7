import StackAllocation.LifetimeOverlap
import StackAllocation.Eligibility
import StackAllocation.Executions
import Mathlib.Data.Set.Basic

/-!
# The instances of an allocation in a loop

An allocation that is placed in the frame has one slot, so when it is executed again nothing may use
the instance that it made before. `all_uses_eligible_for_stack_allocation` looks for a `Phi` of a
loop that can be reached from itself, among the nodes that refer to the object and the memory of the
loads.

A node of the schedule is run with the `Phi`s that have it as their region. What a value refers to
was referred to by a value that it was made of; this holds of memory as it does of references. An
instance that is used after the next was made went through a `Phi` of a loop
(`LoopAllocation.Carried`), and what is live at the allocation leads back to it. So the `Phi` was
found, if it was looked at and one of its out edges but the first leads back
(`LoopAllocation.neverUsesOld`).
-/

namespace StackAllocation

open Dominance

namespace IdealGraph

variable (G : IdealGraph)

/-- `allocation_lifetime_overlap` for a node that refers to the object: for a `Phi`, or for the
memory of a `LoadP` if that is a `Phi`. -/
def lifetimeOverlap (node : ℕ) : Bool :=
  match G.opcode node with
  | .phi => G.allocationLifetimeOverlap (G.walkFuel node) node = some true
  | .loadP =>
    match G.input node 1 with
    | some in1 =>
      G.opcode in1 = .phi ∧ G.allocationLifetimeOverlap (G.walkFuel in1) in1 = some true
    | none => false
  | _ => false

/-- The point where a node is run. -/
def home (m : ℕ) : ℕ := if G.opcode m = .phi then (G.input m 0).getD m else m

/-- An input has the node among its out edges. -/
theorem edge_of_input {m i n : ℕ} (h : G.input m i = some n) : G.Edge n m := by
  rw [input, Option.join_eq_some_iff] at h
  rw [Edge, ← List.count_pos_iff, G.count_outs, List.count_pos_iff]
  exact List.mem_of_getElem? h

end IdealGraph

/-- What the values refer to, and how many instances have been made. The last one has the number
`count - 1`. -/
structure LoopState : Type where
  refers : ℕ → Set ℕ
  count : ℕ

/-- Nothing has been made. -/
def LoopState.Init (s : LoopState) : Prop := s.count = 0 ∧ ∀ m, s.refers m = ∅

/-- An allocation in a scheduled graph. -/
structure LoopAllocation : Type where
  graph : IdealGraph
  /-- the order in which the nodes are run -/
  edge : ℕ → ℕ → Prop
  start : ℕ
  /-- the input of a region by which the flow comes from a node -/
  entry : ℕ → ℕ → ℕ
  alloc : ℕ
  /-- a node hands on what another refers to -/
  passes : ℕ → ℕ → Prop
  /-- a node uses the object that another refers to -/
  uses : ℕ → ℕ → Prop
  /-- the connection graph, the allocation in it, and the nodes of its local variables -/
  nodes : Nodes
  ptn : ℕ
  ideal : ℕ → ℕ
  eligibility : EligibilityInfo
  lifetimeOverlap_eq : ∀ use, eligibility.lifetimeOverlap use = graph.lifetimeOverlap (ideal use)
  passes_edge : ∀ m n, passes m n → graph.Edge n m
  passes_loop : ∀ m n, passes m n → graph.opcode m ≠ .loop
  phi_region : ∀ m, graph.opcode m = .phi →
    ∃ region, graph.input m 0 = some region ∧ region ≠ alloc
  alloc_opcode : graph.opcode alloc = .other
  alloc_ne_start : alloc ≠ start

namespace LoopAllocation

variable (L : LoopAllocation)

/-- At a point, when the flow comes from another, a node is made of a value. -/
def Reads (b c m n : ℕ) : Prop :=
  L.graph.home m = c ∧
    if L.graph.opcode m = .phi then L.graph.input m (L.entry b c) = some n else L.passes m n

/-- One step of an execution. The allocation makes a new instance; what else a value refers to comes
from what it is made of. -/
structure Step (b c : ℕ) (s s' : LoopState) : Prop where
  count : s'.count = if c = L.alloc then s.count + 1 else s.count
  refers : ∀ m, ∀ k ∈ s'.refers m, L.graph.home m ≠ c ∧ k ∈ s.refers m ∨
    (∃ n, L.Reads b c m n ∧ k ∈ s.refers n) ∨ c = L.alloc ∧ m = L.alloc ∧ k = s.count

/-- The executions. -/
abbrev Execution : List ℕ → LoopState → Prop := Exec L.edge L.start LoopState.Init L.Step

/-- The schedule of a graph in SSA form, in which the loops around the allocation have heads. -/
structure Scheduled : Prop where
  /-- what is read was run before on every way -/
  dominates : ∀ b c n, L.edge b c → (L.uses c n ∨ ∃ m, L.Reads b c m n) →
    Dominates L.edge L.start (L.graph.home n) b
  /-- a way back to the allocation goes through the head of a loop that dominates all of it -/
  headed : ∀ l, Run L.edge L.start (L.alloc :: l) → L.alloc ∈ l →
    ∃ h, L.graph.opcode h = .loop ∧ time L.alloc l < time h l ∧
      ∀ x, time L.alloc l ≤ time x l → Dominates L.edge L.start h x

/-- No execution uses an instance when the next one has been made. -/
def NeverUsesOld : Prop :=
  ∀ b l s c n k, L.Execution (b :: l) s → L.edge b c → L.uses c n → k ∈ s.refers n →
    ¬ k + 1 < s.count

/-- A node may be made of another. -/
def Passes (n m : ℕ) : Prop := ∃ b c, L.Reads b c m n

/-- A node may refer to the object. -/
def MayRefer (m : ℕ) : Prop := Relation.ReflTransGen L.Passes L.alloc m

/-- A value that the allocation reads, or that was there before it and is read after it. -/
def Live (n : ℕ) : Prop :=
  L.Passes n L.alloc ∨ ∃ b l c, Run L.edge L.start (b :: l) ∧ L.edge b c ∧
    (L.uses c n ∨ ∃ m, L.Reads b c m n) ∧
      time (L.graph.home n) (b :: l) < time L.alloc (b :: l)

/-- A `Phi` of a loop that may refer to the object. -/
def Carries (phi : ℕ) : Prop :=
  L.graph.opcode phi = .phi ∧ L.graph.isLoopPhi phi = true ∧ L.MayRefer phi

/-- A value that the object may come to by a `Phi` of a loop. -/
def Carried (m : ℕ) : Prop :=
  ∃ phi, L.Carries phi ∧ Relation.ReflTransGen L.Passes phi m

/-- A `Phi` of a loop by which the object may come to a value that is live at the allocation. -/
def CarriesLive (phi : ℕ) : Prop :=
  L.Carries phi ∧ ∃ n, Relation.ReflTransGen L.Passes phi n ∧ L.Live n

/-- `all_uses_eligible_for_stack_allocation` looks at a `Phi`. -/
def Checks (phi : ℕ) : Prop :=
  ∃ use, .edge use ∈ (L.nodes L.ptn).uses ∧ (L.nodes use).type = .localVar ∧
    (L.ideal use = phi ∨
      L.graph.opcode (L.ideal use) = .loadP ∧ L.graph.input (L.ideal use) 1 = some phi)

variable {L}

/-- What a node is made of has an edge to it. -/
theorem Passes.edge {n m : ℕ} (h : L.Passes n m) : L.graph.Edge n m := by
  obtain ⟨b, c, -, hreads⟩ := h
  split at hreads
  · exact L.graph.edge_of_input hreads
  · exact L.passes_edge m n hreads

/-- So where an address may come to by values it comes to by edges. -/
theorem reach_of_passes {n m : ℕ} (h : Relation.ReflTransGen L.Passes n m) :
    Relation.ReflTransGen L.graph.Edge n m :=
  Relation.ReflTransGen.mono (fun _ _ => Passes.edge) _ _ h

/-- The allocation is run where it is. -/
theorem home_alloc : L.graph.home L.alloc = L.alloc := by
  rw [IdealGraph.home, L.alloc_opcode]
  rfl

/-- Nothing but the allocation is run where it is. -/
theorem eq_alloc_of_home {m : ℕ} (h : L.graph.home m = L.alloc) : m = L.alloc := by
  rw [IdealGraph.home] at h
  split at h
  · next hphi =>
    obtain ⟨region, hregion, hne⟩ := L.phi_region m hphi
    rw [hregion] at h
    exact absurd h hne
  · exact h

/-- What is made of other values at the head of a loop is a `Phi`. -/
theorem carries_of_reads {b h m n : ℕ} (hreads : L.Reads b h m n) (hloop : L.graph.opcode h = .loop)
    (hrefer : L.MayRefer m) : L.Carries m := by
  obtain ⟨hhome, hreads⟩ := hreads
  rw [IdealGraph.home] at hhome
  split at hreads
  · next hphi =>
    rw [if_pos hphi] at hhome
    obtain ⟨region, hregion, -⟩ := L.phi_region m hphi
    rw [hregion] at hhome
    obtain rfl : region = h := hhome
    refine ⟨hphi, ?_, hrefer⟩
    simp only [IdealGraph.isLoopPhi, hregion, hloop, decide_true]
  · next hphi =>
    rw [if_neg hphi] at hhome
    subst hhome
    exact absurd hloop (L.passes_loop m n hreads)

/-! ## What is found

A `Phi` that is looked at and from which an out edge leads back to itself is refused. An accepted
allocation has no such `Phi`, but for what leads back through the out edge that the walk leaves
out. -/

/-- If all uses are eligible, a `Phi` that is looked at does not lead to the allocation. -/
theorem not_reach_of_eligible (heligible : allUsesEligible L.eligibility L.nodes L.ptn = true)
    {phi : ℕ} (hcarries : L.Carries phi) (hchecks : L.Checks phi)
    (hback : L.graph.OnCycle phi → ∃ u ∈ (L.graph.outs phi).drop 1,
      Relation.ReflTransGen L.graph.Edge u phi) :
    ¬ Relation.ReflTransGen L.graph.Edge phi L.alloc := by
  intro hreach
  obtain ⟨hphi, hloop, hrefer⟩ := hcarries
  have hne : phi ≠ L.alloc := by
    rintro rfl
    rw [L.alloc_opcode] at hphi
    exact absurd hphi (by decide)
  have hcycle : L.graph.OnCycle phi := by
    obtain heq | ⟨u, hu, hrest⟩ := hreach.cases_head
    · exact absurd heq hne
    · exact .head' hu (hrest.trans (reach_of_passes hrefer))
  obtain ⟨b, hwalk, hiff⟩ :=
    IdealGraph.allocationLifetimeOverlap_eq hloop hphi (Nat.le_refl (L.graph.walkFuel phi))
  rw [hiff.2 (hback hcycle)] at hwalk
  obtain ⟨use, huse, hlocal, hideal⟩ := hchecks
  have hoverlap : L.graph.lifetimeOverlap (L.ideal use) = true := by
    obtain heq | ⟨hload, hin⟩ := hideal
    · simp only [IdealGraph.lifetimeOverlap, heq, hphi, hwalk, decide_true]
    · simp only [IdealGraph.lifetimeOverlap, hload, hin, hphi, hwalk, and_self, decide_true]
  have haccepted := List.all_eq_true.1 heligible _ huse
  simp only [useEligible, hlocal, L.lifetimeOverlap_eq, hoverlap, Bool.not_true,
    Bool.false_eq_true] at haccepted

/-! ## What the values refer to

An execution makes instances one after another. A value refers to the last one, or to an older one,
or to none; the invariant says that what refers to an older one was not made anew since, or came by
the `Phi` of a loop that is around the allocation. -/

variable {b c h m n k : ℕ} {l : List ℕ} {s s' : LoopState}

/-- A value that was not made anew since the head of a loop was run, which dominates it. -/
def Dead (L : LoopAllocation) (l : List ℕ) (m : ℕ) : Prop :=
  ∃ h, Dominates L.edge L.start h (L.graph.home m) ∧ time (L.graph.home m) l < time h l

/-- A dead value is not read. -/
theorem not_dead_of_dominates (hrun : Run L.edge L.start (b :: l))
    (hdom : Dominates L.edge L.start (L.graph.home m) b) : ¬ L.Dead (b :: l) m := by
  rintro ⟨h, hh, hlt⟩
  exact Nat.not_le_of_lt hlt (time_le hrun hh hdom)

/-- A value that is dead stays so until it is made anew. -/
theorem Dead.step (hdead : L.Dead l m) (hne : L.graph.home m ≠ c) : L.Dead (c :: l) m := by
  obtain ⟨h, hh, hlt⟩ := hdead
  refine ⟨h, hh, ?_⟩
  rw [time_cons_of_ne l (Ne.symm hne)]
  by_cases hc : c = h
  · subst hc
    rw [time_cons_self]
    exact Nat.lt_succ_of_le (time_le_length _ l)
  · rwa [time_cons_of_ne l hc]

/-- What is made of a value that came by the `Phi` of a loop came by it too. -/
theorem Carried.step (hcarried : L.Carried n) (hpass : L.Passes n m) : L.Carried m := by
  obtain ⟨phi, hphi, hpath⟩ := hcarried
  exact ⟨phi, hphi, hpath.tail hpass⟩

/-- The head of a loop around everything that was run since the allocation. -/
def HeadSince (L : LoopAllocation) (l : List ℕ) (h : ℕ) : Prop :=
  L.graph.opcode h = .loop ∧ time L.alloc l < time h l ∧
    ∀ x, time L.alloc l ≤ time x l → Dominates L.edge L.start h x

/-- What refers to the last instance, and to those before. -/
structure Invariant (L : LoopAllocation) (l : List ℕ) (s : LoopState) : Prop where
  mayRefer : ∀ m, ∀ k ∈ s.refers m, L.MayRefer m
  lt_count : ∀ m, ∀ k ∈ s.refers m, k < s.count
  allocated : 0 < s.count → L.alloc ∈ l
  /-- made since the allocation was run -/
  since : ∀ m, ∀ k ∈ s.refers m, k + 1 = s.count → time L.alloc l ≤ time (L.graph.home m) l
  /-- in a loop with this head, made before the head was run or from a `Phi` -/
  last : ∀ m, ∀ k ∈ s.refers m, k + 1 = s.count → ∀ h, L.HeadSince l h →
    L.Carried m ∨ time (L.graph.home m) l < time h l
  old : ∀ m, ∀ k ∈ s.refers m, k + 1 < s.count →
    L.Dead l m ∨ L.Carried m ∧ time (L.graph.home m) l < time L.alloc l

/-- A node that refers to an old instance and is read is live at the allocation. -/
theorem Invariant.live (hinv : L.Invariant (b :: l) s) (hsched : L.Scheduled)
    (hrun : Run L.edge L.start (b :: l)) (hbc : L.edge b c)
    (hread : L.uses c n ∨ ∃ m, L.Reads b c m n) (hk : k ∈ s.refers n) (hold : k + 1 < s.count) :
    L.Carried n ∧ L.Live n := by
  have hdom := hsched.dominates b c n hbc hread
  obtain hdead | ⟨hcarried, hlt⟩ := hinv.old n k hk hold
  · exact absurd hdead (not_dead_of_dominates hrun hdom)
  · exact ⟨hcarried, .inr ⟨b, l, c, hrun, hbc, hread, hlt⟩⟩

/-- What refers to the last instance when the allocation is run again, came by a `Phi` if it is
read. -/
theorem Invariant.carried_of_read (hinv : L.Invariant (b :: l) s)
    (hrun : Run L.edge L.start (b :: l)) (hdom : Dominates L.edge L.start (L.graph.home n) b)
    (hk : k ∈ s.refers n) (hlast : k + 1 = s.count) (hhead : L.HeadSince (b :: l) h) :
    L.Carried n := by
  obtain hcarried | hlt := hinv.last n k hk hlast h hhead
  · exact hcarried
  · exact absurd ⟨h, hhead.2.2 _ (hinv.since n k hk hlast), hlt⟩ (not_dead_of_dominates hrun hdom)

/-- The head of a loop around all that was run since the allocation was so one step before, unless
it was just run. -/
theorem HeadSince.of_cons (hhead : L.HeadSince (c :: l) h) (halloc : c ≠ L.alloc) (hc : c ≠ h) :
    L.HeadSince l h := by
  obtain ⟨hloop, hlt, hdom⟩ := hhead
  rw [time_cons_of_ne l halloc, time_cons_of_ne l hc] at hlt
  refine ⟨hloop, hlt, fun x hx => hdom x ?_⟩
  rw [time_cons_of_ne l halloc]
  by_cases hcx : c = x
  · subst hcx
    rw [time_cons_self]
    exact Nat.le_succ_of_le (time_le_length _ l)
  · rwa [time_cons_of_ne l hcx]

section

variable (hsched : L.Scheduled)
  (hnone : ∀ phi, L.CarriesLive phi → ¬ Relation.ReflTransGen L.graph.Edge phi L.alloc)
  (hlive : ∀ n, L.Carried n → L.Live n → Relation.ReflTransGen L.graph.Edge n L.alloc)

include hnone in
/-- What came by a `Phi` of a loop and is live does not lead to the allocation. -/
theorem not_reach_of_carried (hcarried : L.Carried n) (hliven : L.Live n) :
    ¬ Relation.ReflTransGen L.graph.Edge n L.alloc := by
  obtain ⟨phi, hphi, hpath⟩ := hcarried
  exact fun hreach => hnone phi ⟨hphi, n, hpath, hliven⟩ ((reach_of_passes hpath).trans hreach)

include hsched hnone hlive in
/-- What is read does not refer to an old instance. -/
theorem Invariant.not_old (hinv : L.Invariant (b :: l) s) (hrun : Run L.edge L.start (b :: l))
    (hbc : L.edge b c) (hread : L.uses c n ∨ ∃ m, L.Reads b c m n) (hk : k ∈ s.refers n) :
    ¬ k + 1 < s.count := by
  intro hold
  obtain ⟨hcarried, hliven⟩ := hinv.live hsched hrun hbc hread hk hold
  exact not_reach_of_carried hnone hcarried hliven (hlive n hcarried hliven)

include hsched hnone hlive in
/-- A node that is not the allocation. -/
theorem Step.invariant_of_ne (hinv : L.Invariant (b :: l) s) (hrun : Run L.edge L.start (b :: l))
    (hbc : L.edge b c) (hstep : L.Step b c s s') (hc : c ≠ L.alloc) :
    L.Invariant (c :: b :: l) s' := by
  have hcount : s'.count = s.count := hstep.count.trans (if_neg hc)
  -- a value is kept, or made of one that does not refer to an old instance
  have hrefers : ∀ m, ∀ k ∈ s'.refers m, L.graph.home m ≠ c ∧ k ∈ s.refers m ∨
      ∃ n, L.Reads b c m n ∧ k ∈ s.refers n ∧ ¬ k + 1 < s.count := by
    intro m k hk
    obtain hkept | ⟨n, hreads, hkn⟩ | ⟨heq, -⟩ := hstep.refers m k hk
    · exact .inl hkept
    · exact .inr ⟨n, hreads, hkn, hinv.not_old hsched hnone hlive hrun hbc (.inr ⟨m, hreads⟩) hkn⟩
    · exact absurd heq hc
  have hmay : ∀ m, ∀ k ∈ s'.refers m, L.MayRefer m := by
    intro m k hk
    obtain ⟨-, hkept⟩ | ⟨n, hreads, hkn, -⟩ := hrefers m k hk
    · exact hinv.mayRefer m k hkept
    · exact (hinv.mayRefer n k hkn).tail ⟨b, c, hreads⟩
  refine ⟨hmay, fun m k hk => ?_, fun hpos => ?_, fun m k hk hlast => ?_,
    fun m k hk hlast h hhead => ?_, fun m k hk hold => ?_⟩
  · rw [hcount]
    obtain ⟨-, hkept⟩ | ⟨n, -, hkn, -⟩ := hrefers m k hk
    · exact hinv.lt_count m k hkept
    · exact hinv.lt_count n k hkn
  · rw [hcount] at hpos
    exact List.mem_cons_of_mem c (hinv.allocated hpos)
  · rw [hcount] at hlast
    rw [time_cons_of_ne _ hc]
    obtain ⟨hne, hkept⟩ | ⟨n, hreads, -⟩ := hrefers m k hk
    · rw [time_cons_of_ne _ (Ne.symm hne)]
      exact hinv.since m k hkept hlast
    · rw [hreads.1, time_cons_self]
      exact Nat.le_succ_of_le (time_le_length _ _)
  · rw [hcount] at hlast
    obtain ⟨hne, hkept⟩ | ⟨n, hreads, hkn, -⟩ := hrefers m k hk
    · rw [time_cons_of_ne _ (Ne.symm hne)]
      by_cases hch : c = h
      · subst hch
        rw [time_cons_self]
        exact .inr (Nat.lt_succ_of_le (time_le_length _ _))
      · rw [time_cons_of_ne _ hch]
        exact hinv.last m k hkept hlast h (hhead.of_cons hc hch)
    · by_cases hch : c = h
      · subst hch
        exact .inl ⟨m, carries_of_reads hreads hhead.1 (hmay m k hk), .refl⟩
      · have hdom := hsched.dominates b c n hbc (.inr ⟨m, hreads⟩)
        have hcarried := hinv.carried_of_read hrun hdom hkn hlast (hhead.of_cons hc hch)
        exact .inl (hcarried.step ⟨b, c, hreads⟩)
  · rw [hcount] at hold
    obtain ⟨hne, hkept⟩ | ⟨n, -, -, hnot⟩ := hrefers m k hk
    · rw [time_cons_of_ne _ (Ne.symm hne), time_cons_of_ne _ hc]
      exact (hinv.old m k hkept hold).imp (fun hdead => hdead.step hne) id
    · exact absurd hold hnot

include hsched hnone hlive in
/-- The allocation makes another instance, and the last one becomes old. -/
theorem Step.invariant_alloc (hinv : L.Invariant (b :: l) s) (hrun : Run L.edge L.start (b :: l))
    (hbc : L.edge b L.alloc) (hstep : L.Step b L.alloc s s') :
    L.Invariant (L.alloc :: b :: l) s' := by
  have hcount : s'.count = s.count + 1 := hstep.count.trans (if_pos rfl)
  -- the head of the loop around the allocation, when it has been run before
  have hhead : 0 < s.count → ∃ h, L.HeadSince (b :: l) h := fun hpos =>
    hsched.headed (b :: l) (hrun.step hbc) (hinv.allocated hpos)
  -- the allocation is not made of a value that refers to an instance
  have hrefers : ∀ m, ∀ k ∈ s'.refers m, L.graph.home m ≠ L.alloc ∧ k ∈ s.refers m ∨
      m = L.alloc ∧ k = s.count := by
    intro m k hk
    obtain hkept | ⟨n, hreads, hkn⟩ | ⟨-, hnew⟩ := hstep.refers m k hk
    · exact .inl hkept
    · obtain rfl := eq_alloc_of_home hreads.1
      have hpass : L.Passes n L.alloc := ⟨b, L.alloc, hreads⟩
      have hnot := hinv.not_old hsched hnone hlive hrun hbc (.inr ⟨_, hreads⟩) hkn
      have hlt := hinv.lt_count n k hkn
      obtain ⟨h, hh⟩ := hhead (Nat.zero_lt_of_lt hlt)
      have hcarried := hinv.carried_of_read hrun
        (hsched.dominates b _ n hbc (.inr ⟨_, hreads⟩)) hkn (by omega) hh
      exact absurd (.single hpass.edge) (not_reach_of_carried hnone hcarried (.inl hpass))
    · exact .inr hnew
  have hself : ∀ h, ¬ L.HeadSince (L.alloc :: b :: l) h := by
    rintro h ⟨-, hlt, -⟩
    rw [time_cons_self] at hlt
    exact Nat.not_le_of_lt hlt (time_le_length h _)
  refine ⟨fun m k hk => ?_, fun m k hk => ?_, fun _ => List.mem_cons_self, fun m k hk hlast => ?_,
    fun m k hk hlast h hh => absurd hh (hself h), fun m k hk hold => ?_⟩
  · obtain ⟨-, hkept⟩ | ⟨rfl, -⟩ := hrefers m k hk
    · exact hinv.mayRefer m k hkept
    · exact .refl
  · rw [hcount]
    obtain ⟨-, hkept⟩ | ⟨-, rfl⟩ := hrefers m k hk
    · exact Nat.lt_succ_of_lt (hinv.lt_count m k hkept)
    · exact Nat.lt_succ_self _
  · rw [hcount] at hlast
    obtain ⟨-, hkept⟩ | ⟨rfl, -⟩ := hrefers m k hk
    · have hlt := hinv.lt_count m k hkept
      omega
    · rw [home_alloc]
  · rw [hcount] at hold
    obtain ⟨hne, hkept⟩ | ⟨-, rfl⟩ := hrefers m k hk
    · have hbefore : time (L.graph.home m) (L.alloc :: b :: l) <
          time L.alloc (L.alloc :: b :: l) := by
        rw [time_cons_self, time_cons_of_ne _ (Ne.symm hne)]
        exact Nat.lt_succ_of_le (time_le_length _ _)
      by_cases hlast : k + 1 = s.count
      · obtain ⟨h, hh⟩ := hhead (by omega)
        obtain hcarried | hlt := hinv.last m k hkept hlast h hh
        · exact .inr ⟨hcarried, hbefore⟩
        · have hdead : L.Dead (b :: l) m := ⟨h, hh.2.2 _ (hinv.since m k hkept hlast), hlt⟩
          exact .inl (hdead.step hne)
      · exact (hinv.old m k hkept (by omega)).imp (fun hdead => hdead.step hne)
          fun hcarried => ⟨hcarried.1, hbefore⟩
    · exact absurd hold (Nat.lt_irrefl _)

include hsched hnone hlive in
/-- The invariant holds in every execution, by induction on its steps. -/
theorem invariant_of_execution (h : L.Execution l s) : L.Invariant l s := by
  induction h with
  | @start s hinit =>
    obtain ⟨hcount, hempty⟩ := hinit
    have hnothing : ∀ m k, k ∉ s.refers m := fun m k hk => by
      rw [hempty] at hk
      exact hk
    refine ⟨fun m k hk => absurd hk (hnothing m k), fun m k hk => absurd hk (hnothing m k),
      fun hpos => ?_, fun m k hk => absurd hk (hnothing m k),
      fun m k hk => absurd hk (hnothing m k), fun m k hk => absurd hk (hnothing m k)⟩
    rw [hcount] at hpos
    exact absurd hpos (Nat.lt_irrefl 0)
  | @step b c l s s' hexec hbc hstep ih =>
    by_cases hc : c = L.alloc
    · subst hc
      exact hstep.invariant_alloc hsched hnone hlive ih hexec.run hbc
    · exact hstep.invariant_of_ne hsched hnone hlive ih hexec.run hbc hc

end

/-- The values refer to all that they may refer to. -/
def next (L : LoopAllocation) (b c : ℕ) (s : LoopState) : LoopState where
  refers m := {k | L.graph.home m ≠ c ∧ k ∈ s.refers m ∨ (∃ n, L.Reads b c m n ∧ k ∈ s.refers n) ∨
    c = L.alloc ∧ m = L.alloc ∧ k = s.count}
  count := if c = L.alloc then s.count + 1 else s.count

/-- The step in which a value keeps all that it may refer to. -/
theorem step_next (b c : ℕ) (s : LoopState) : L.Step b c s (L.next b c s) := ⟨rfl, fun _ _ hk => hk⟩

end LoopAllocation

/-- A loop (1) in which an object is allocated (3, 4). A `Phi` (2) is the object of the iteration
before. It is live at the allocation, or it is not. -/
def previousGraph (live : Bool) : IdealGraph :=
  .ofInputs [(.other, []), (.loop, [some 1, some 0, some 3]), (.phi, [some 1, some 0, some 4]),
    (.other, if live then [some 1, some 2] else [some 1]), (.checkCastPP, [none, some 3]),
    (.other, [none, some 2])]

/-- The `Phi` is used (5) in the loop if it is live, and after the loop otherwise. -/
def previousEdges (live : Bool) : List (ℕ × ℕ) :=
  if live then [(0, 1), (1, 3), (3, 4), (4, 5), (5, 1)]
  else [(0, 1), (1, 3), (3, 4), (4, 1), (1, 5)]

/-- There is one `Phi`. -/
theorem eq_two_of_phi {live : Bool} {m : ℕ} (h : (previousGraph live).opcode m = .phi) :
    m = 2 := by
  by_contra hne
  match m, hne with
  | 0, _ | 1, _ | 3, _ | 4, _ | 5, _ | _ + 6, _ => exact nomatch h

def previousObject (live : Bool) : LoopAllocation where
  graph := previousGraph live
  edge b c := (b, c) ∈ previousEdges live
  start := 0
  entry b _ := if b = 0 then 1 else 2
  alloc := 3
  passes m n := m = 4 ∧ n = 3
  uses c n := c = 5 ∧ n = 2
  nodes n :=
    if n = 2 then { blankNode .javaObject .allocate .noEscape with uses := [.edge 3, .edge 4] }
    else blankNode .localVar .other .noEscape
  ptn := 2
  ideal use := if use = 3 then 2 else 4
  eligibility :=
    { useCompressedOops := false
      eliminateAllocationArraySizeLimit := 64
      resultCast := fun _ => some true
      sizeOfObject := fun _ => some 24
      arrayLength := fun _ => none
      isObjArrayKlass := fun _ => false
      oopMayBeCompressed := fun _ => false
      lifetimeOverlap := fun use =>
        (previousGraph live).lifetimeOverlap (if use = 3 then 2 else 4) }
  lifetimeOverlap_eq _ := rfl
  passes_edge := by
    rintro m n ⟨rfl, rfl⟩
    show 4 ∈ (previousGraph live).outs 3
    revert live
    decide
  passes_loop := by
    rintro m n ⟨rfl, rfl⟩
    exact nofun
  phi_region m hm := by
    obtain rfl := eq_two_of_phi hm
    exact ⟨1, rfl, by decide⟩
  alloc_opcode := rfl
  alloc_ne_start := by decide

namespace previousObject

open LoopAllocation

variable {live : Bool} {b c n : ℕ} {l : List ℕ}

/-- What is read where. -/
theorem read_cases (hbc : (b, c) ∈ previousEdges live)
    (hread : (previousObject live).uses c n ∨ ∃ m, (previousObject live).Reads b c m n) :
    c = 5 ∧ n = 2 ∨ c = 1 ∧ (b = 0 ∧ n = 0 ∨ b ≠ 0 ∧ n = 4) ∨ c = 4 ∧ n = 3 := by
  obtain huse | ⟨m, hhome, hreads⟩ := hread
  · exact .inl huse
  · split at hreads
    · next hphi =>
      obtain rfl := eq_two_of_phi hphi
      obtain rfl : 1 = c := hhome
      change (previousGraph live).input 2 (if b = 0 then 1 else 2) = some n at hreads
      refine .inr (.inl ⟨rfl, ?_⟩)
      split at hreads
      · next hb => exact .inl ⟨hb, (Option.some.inj hreads).symm⟩
      · next hb => exact .inr ⟨hb, (Option.some.inj hreads).symm⟩
    · obtain ⟨rfl, rfl⟩ := hreads
      exact .inr (.inr ⟨hhome.symm, rfl⟩)

/-- Every run but the empty one has been at the head. -/
theorem mem_of_run (h : Run (previousObject live).edge 0 l) : l = [0] ∨ 1 ∈ l := by
  induction h with
  | start => exact .inl rfl
  | @step b c l _ hbc ih =>
    obtain heq | hmem := ih
    · obtain ⟨rfl, -⟩ := List.cons.inj heq
      have hc : ∀ c, (0, c) ∈ previousEdges live → c = 1 := by
        intro c
        cases live <;> simp [previousEdges]
      obtain rfl := hc c hbc
      exact .inr List.mem_cons_self
    · exact .inr (List.mem_cons_of_mem c hmem)

/-- The head of the loop dominates all but the start. -/
theorem dominates_head (hn : n ≠ 0) : Dominates (previousObject live).edge 0 1 n := by
  intro l hrun
  obtain heq | hmem := mem_of_run hrun
  · exact absurd (List.cons.inj heq).1 hn
  · exact hmem

/-- The schedule is one of a graph in SSA form, with the object live or not. -/
theorem scheduled (live : Bool) : (previousObject live).Scheduled where
  dominates b c n hbc hread := by
    have hself : Dominates (previousObject live).edge 0 b b := fun l _ => List.mem_cons_self
    obtain ⟨rfl, rfl⟩ | ⟨rfl, ⟨rfl, rfl⟩ | ⟨hb, rfl⟩⟩ | ⟨rfl, rfl⟩ := read_cases hbc hread
    · refine dominates_head ?_
      rintro rfl
      revert hbc
      cases live <;> simp [previousObject, previousEdges]
    · exact hself
    · -- the end of the loop
      intro l hrun
      cases live with
      | false =>
        obtain rfl : b = 4 := by
          simpa [previousObject, previousEdges, hb] using hbc
        exact List.mem_cons_self
      | true =>
        obtain rfl : b = 5 := by
          simpa [previousObject, previousEdges, hb] using hbc
        cases hrun with
        | step hrun hedge =>
          obtain rfl : _ = 4 := by simpa [previousObject, previousEdges] using hedge
          exact List.mem_cons_of_mem 5 List.mem_cons_self
    · obtain rfl : b = 3 := by
        revert hbc
        cases live <;> simp [previousObject, previousEdges]
      exact hself
  headed l hrun hmem := by
    have hstart : ∀ b, ¬ (previousObject live).edge b 0 := by
      intro b
      cases live <;> simp [previousObject, previousEdges]
    cases hrun with
    | @step b _ l hrun hedge =>
      obtain rfl : b = 1 := by
        revert hedge
        cases live <;> simp [previousObject, previousEdges]
      have hne : (1 : ℕ) ≠ (previousObject live).alloc := by
        show (1 : ℕ) ≠ 3
        decide
      refine ⟨1, rfl, ?_, fun x hx => dominates_head ?_⟩
      · rw [time_cons_self, time_cons_of_ne _ hne]
        exact Nat.lt_succ_of_le (time_le_length _ _)
      · rintro rfl
        have hzero : time 0 (1 :: l) = 1 := hrun.time_start hstart
        have hpos := time_pos hmem
        have heq := eq_of_time_eq hmem (by omega : time (previousObject live).alloc (1 :: l) =
          time 0 (1 :: l))
        exact (previousObject live).alloc_ne_start heq

/-- Both graphs are accepted. -/
theorem eligible (live : Bool) :
    allUsesEligible (previousObject live).eligibility (previousObject live).nodes
      (previousObject live).ptn = true := by
  revert live
  decide +kernel

end previousObject

end StackAllocation
