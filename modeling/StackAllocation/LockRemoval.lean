import StackAllocation.LockPairing
import Mathlib.Data.List.Nodup

/-!
# What is left when locks are eliminated

The second loop of `eliminate_macro_nodes` goes over the macro nodes from the end, and again while
it makes progress. It eliminates what is marked, nothing else, and leaves the boxes in the locks
and the debug information of the other nodes as they are (`eliminateLocks_spec`). With the marks
this gives pairs (`eliminateMacroNodes_paired`).
-/

namespace StackAllocation

open NodeGraph

/-! ## Boxes stay

Removing a lock changes control and memory, and takes its own inputs. The edges to boxes of all
other nodes are as they were, so what was shown of the marks is true of what is left. -/

/-- The operations stay, and the node has the boxes it had. -/
structure KeepsBoxes (u : ℕ) (g g' : NodeGraph LockNodeOp) : Prop where
  op_eq : g'.op = g.op
  input : ∀ j b, (g.op b).isBoxLock = true → g.input u j = some b → g'.input u j = some b

namespace KeepsBoxes

variable {u : ℕ} {g g' g'' : NodeGraph LockNodeOp}

theorem refl (u : ℕ) (g : NodeGraph LockNodeOp) : KeepsBoxes u g g := ⟨rfl, fun _ _ _ h => h⟩

theorem trans (h : KeepsBoxes u g g') (h' : KeepsBoxes u g' g'') : KeepsBoxes u g g'' :=
  ⟨h'.op_eq.trans h.op_eq, fun j b hb hin =>
    h'.input j b (by rwa [h.op_eq]) (h.input j b hb hin)⟩

/-- To replace a node that is no `BoxLock` in all its users leaves the boxes in place. -/
theorem redirect {old : ℕ} (hold : (g.op old).isBoxLock = false) (new : ℕ) :
    KeepsBoxes u g (g.redirect old new) := by
  refine ⟨rfl, fun j b hb hin => ?_⟩
  have hne : b ≠ old := by
    rintro rfl
    rw [hold] at hb
    cases hb
  rw [NodeGraph.input, Option.join_eq_some_iff] at hin ⊢
  rw [redirect_ins, List.getElem?_map, hin, Option.map_some, swapInput,
    if_neg fun h => hne (Option.some.inj h)]

/-- To remove another node leaves the inputs of a node in place. -/
theorem clear {n : ℕ} (h : u ≠ n) : KeepsBoxes u g (g.clear n) :=
  ⟨rfl, fun j b _ hin => by rwa [input_congr (g := g) (clear_ins_of_ne g h)]⟩

end KeepsBoxes

/-- A projection of a lock is no `BoxLock`. -/
theorem lockProj_op {g : NodeGraph LockNodeOp} {n m : ℕ} {con : LockProj}
    (h : lockProj g n con = some m) : (g.op m).isBoxLock = false := by
  have hm := List.find?_some h
  rw [Bool.and_eq_true, decide_eq_true_iff] at hm
  rw [hm.1]
  rfl

/-- To pass by the projections of a lock leaves the boxes in place, as neither is a `BoxLock`. -/
theorem KeepsBoxes.passBy {u : ℕ} {g g' : NodeGraph LockNodeOp} (h : KeepsBoxes u g g')
    {ft mp : ℕ} (hft : (g.op ft).isBoxLock = false) (hmp : (g.op mp).isBoxLock = false)
    (ctrl mem : ℕ) : KeepsBoxes u g (StackAllocation.passBy g' ft ctrl mp mem) := by
  have hfirst : KeepsBoxes u g (g'.redirect ft ctrl) := h.trans (.redirect (by rwa [h.op_eq]) _)
  exact hfirst.trans (.redirect (by rwa [hfirst.op_eq]) _)

/-- So does the removal of the `MemBarAcquire` after a lock. -/
theorem keepsBoxes_deleteAcquire (u : ℕ) (g : NodeGraph LockNodeOp)
    (lock fallthroughproj memprojFallthrough : ℕ) :
    KeepsBoxes u g (deleteAcquire g lock fallthroughproj memprojFallthrough) := by
  rw [deleteAcquire]
  split
  · exact .refl u g
  · split
    · next ctrlproj memproj hctrl hmem =>
      have hboth := (KeepsBoxes.refl u g).passBy (lockProj_op hctrl) (lockProj_op hmem)
        fallthroughproj memprojFallthrough
      simp only
      split
      · split
        · next hflock =>
          refine hboth.trans (.redirect ?_ _)
          rw [hflock.1]
          rfl
        · exact hboth
      · exact hboth
    · exact .refl u g

/-- What comes before a `MemBarRelease` that is removed with an unlock is no `BoxLock`. -/
theorem releaseBefore_ops {g : NodeGraph LockNodeOp} {alock ctrl mem membar : ℕ}
    (h : releaseBefore g alock ctrl mem = some membar) :
    (g.op ctrl).isBoxLock = false ∧ (g.op mem).isBoxLock = false := by
  rw [releaseBefore] at h
  split at h
  · next hctrl hmem _ =>
    rw [hctrl, hmem]
    exact ⟨rfl, rfl⟩
  · cases h

/-- Only the boxes of the lock that is eliminated are gone. -/
theorem keepsBoxes_eliminateLockingNode {u : ℕ} (g : NodeGraph LockNodeOp) {alock : ℕ}
    (hu : u ≠ alock) : KeepsBoxes u g (eliminateLockingNode g alock) := by
  rw [eliminateLockingNode]
  split
  · next ctrl mem fallthroughproj memprojFallthrough hctrl hmem hft hmp =>
    simp only
    refine KeepsBoxes.trans ?_ (.clear hu)
    have hfirst : KeepsBoxes u g (if g.op alock = .lock then
        deleteAcquire g alock fallthroughproj memprojFallthrough else g) := by
      split
      · exact keepsBoxes_deleteAcquire u g _ _ _
      · exact .refl u g
    have hsecond := hfirst.passBy (lockProj_op hft) (lockProj_op hmp) ctrl mem
    split
    · next hctrl' hmem' =>
      obtain ⟨membar, hrelease, -⟩ := Option.bind_eq_some_iff.1 hctrl'
      obtain ⟨hopCtrl, hopMem⟩ := releaseBefore_ops hrelease
      exact hsecond.passBy hopCtrl hopMem _ _
    · exact hsecond
  · exact .clear hu

/-- The operations of the nodes stay, whatever is removed of their inputs. -/
theorem eliminateLockingNode_op (g : NodeGraph LockNodeOp) (alock : ℕ) :
    (eliminateLockingNode g alock).op = g.op :=
  (keepsBoxes_eliminateLockingNode g (Nat.succ_ne_self alock)).op_eq

/-! ## The loop

A pass goes over the list from its end and takes out the marked ones. A second pass finds none, so
two are enough. -/

section

variable (kind : ℕ → LockKind)

/-- The node stays. -/
def staysMacro (op : ℕ → LockNodeOp) (n : ℕ) : Bool :=
    !((op n).isAbstractLock && (kind n).isEliminated)

/-- A pass eliminates the marked nodes before an index. -/
theorem eliminationPass_spec (pre post : List ℕ) (g : NodeGraph LockNodeOp) (progress : Bool)
    (hnodup : pre.Nodup) :
    ∃ g', eliminationPass kind pre.length ⟨pre ++ post, g, progress⟩ =
        ⟨pre.filter (staysMacro kind g.op) ++ post, g',
          progress || pre.any fun n => !staysMacro kind g.op n⟩ ∧ g'.op = g.op ∧
      ∀ u, (u ∈ pre → staysMacro kind g.op u = true) → KeepsBoxes u g g' := by
  induction pre using List.reverseRecOn generalizing post g progress with
  | nil => exact ⟨g, by simp [eliminationPass], rfl, fun u _ => .refl u g⟩
  | append_singleton pre n ih =>
    have hnotMem : n ∉ pre := by
      rw [List.nodup_append] at hnodup
      exact fun hmem => hnodup.2.2 n hmem n List.mem_cons_self rfl
    have hpre : pre.Nodup := (List.nodup_append.1 hnodup).1
    have hget : ((pre ++ [n]) ++ post)[pre.length]? = some n := by
      rw [List.append_assoc, List.getElem?_append_right (Nat.le_refl _), Nat.sub_self]
      rfl
    rw [List.length_append, List.length_singleton, eliminationPass, hget]
    simp only
    by_cases hstays : staysMacro kind g.op n = true
    · have hcond : ¬ ((g.op n).isAbstractLock && (kind n).isEliminated) = true := by
        rw [staysMacro, Bool.not_eq_true'] at hstays
        rw [hstays]
        exact Bool.false_ne_true
      obtain ⟨g', hg', hop', hkeeps⟩ := ih (n :: post) g progress hpre
      rw [if_neg hcond, List.append_assoc, List.singleton_append, hg']
      refine ⟨g', ?_, hop', fun u hu => hkeeps u fun hmem => hu (List.mem_append_left _ hmem)⟩
      simp [List.filter_append, hstays]
    · have hcond : ((g.op n).isAbstractLock && (kind n).isEliminated) = true := by
        rw [staysMacro] at hstays
        simpa using hstays
      have herase : (pre ++ [n] ++ post).erase n = pre ++ post := by
        rw [List.append_assoc, List.erase_append_right _ hnotMem, List.singleton_append,
          List.erase_cons_head]
      have hop := eliminateLockingNode_op g n
      obtain ⟨g', hg', hop', hkeeps⟩ := ih post (eliminateLockingNode g n) true hpre
      rw [hop] at hg' hop' hkeeps
      rw [if_pos hcond, herase, hg']
      refine ⟨g', ?_, hop', fun u hu => ?_⟩
      · simp [List.filter_append, hstays]
      · have hun : u ≠ n := by
          rintro rfl
          exact hstays (hu (List.mem_append_right _ List.mem_cons_self))
        exact (keepsBoxes_eliminateLockingNode g hun).trans
          (hkeeps u fun hmem => hu (List.mem_append_left _ hmem))

/-- The loop ends after two passes at most, with the marked nodes eliminated. -/
theorem eliminateLocks_spec {macroNodes : List ℕ} (hnodup : macroNodes.Nodup)
    (g : NodeGraph LockNodeOp) :
    ∃ r, (∀ fuel, 2 ≤ fuel → eliminateLocks kind fuel ⟨macroNodes, g, true⟩ = some r) ∧
      r.macroNodes = macroNodes.filter (staysMacro kind g.op) ∧
      ∀ u, (u ∈ macroNodes → staysMacro kind g.op u = true) → KeepsBoxes u g r.graph := by
  obtain ⟨g₁, hpass₁, hop, hkeeps₁⟩ := eliminationPass_spec kind macroNodes [] g false hnodup
  rw [List.append_nil, List.append_nil, Bool.false_or] at hpass₁
  cases hprogress : macroNodes.any fun n => !staysMacro kind g.op n with
  | true =>
    -- the second pass finds nothing
    obtain ⟨g₂, hpass₂, -, hkeeps₂⟩ := eliminationPass_spec kind
      (macroNodes.filter (staysMacro kind g.op)) [] g₁ false (hnodup.filter _)
    have hall : ∀ u ∈ macroNodes.filter (staysMacro kind g.op), staysMacro kind g₁.op u = true := by
      rw [hop]
      exact fun u hu => (List.mem_filter.1 hu).2
    have hnone : (macroNodes.filter (staysMacro kind g.op)).any
        (fun n => !staysMacro kind g₁.op n) = false := by
      rw [List.any_eq_false]
      intro u hu
      rw [hall u hu]
      exact Bool.false_ne_true
    rw [List.append_nil, List.append_nil, Bool.false_or, hnone,
      List.filter_eq_self.2 hall] at hpass₂
    refine ⟨⟨_, g₂, false⟩, fun fuel hfuel => ?_, rfl, fun u hu =>
      (hkeeps₁ u hu).trans (hkeeps₂ u (hall u))⟩
    obtain ⟨fuel, rfl⟩ : ∃ n, fuel = n + 2 := ⟨fuel - 2, by omega⟩
    rw [eliminateLocks]
    simp only [hpass₁, hprogress, if_true]
    rw [eliminateLocks]
    simp only [hpass₂, Bool.false_eq_true, if_false]
  | false =>
    refine ⟨⟨_, g₁, false⟩, fun fuel hfuel => ?_, rfl, hkeeps₁⟩
    obtain ⟨fuel, rfl⟩ : ∃ n, fuel = n + 1 := ⟨fuel - 1, by omega⟩
    rw [eliminateLocks]
    simp only [hpass₁, hprogress, Bool.false_eq_true, if_false]

end

/-! ## Pairs

Both loops together: for each box all of its locks are gone or, but for coarsened ones, none is. The
monitors in debug info that belong to locks that are gone have marked boxes, so deoptimization can
tell them. -/

namespace LockMethod

open UserGraph

variable {M : LockMethod}

/-- The locks when `eliminate_macro_nodes` starts: every `Lock` and `Unlock` is a macro node. -/
structure EliminationStart (M : LockMethod) (macroNodes : List ℕ) (s : LockMarks) : Prop
    extends LockStart M s where
  nodup : macroNodes.Nodup
  mem_macroNodes : ∀ l, (s.graph.op l).isAbstractLock = true → l ∈ macroNodes

/-- After both loops, of the marks before and after and what is left: each box is marked and has all
its locks eliminated, or is not and has none but coarsened ones eliminated; the locks that are
eliminated are those that are marked; the monitors of the eliminated locks have marked boxes; a new
box has what the old one had for one object; nothing else has changed. -/
structure LocksPaired (M : LockMethod) (macroNodes : List ℕ) (s s' : LockMarks) (r : Elimination) :
    Prop where
  paired : ∀ b,
    (s'.boxEliminated b = true ∧ ∀ l, (s.graph.op l).isAbstractLock = true →
      s'.graph.input l lockEdge.box = some b → l ∉ r.macroNodes) ∨
    (s'.boxEliminated b = false ∧ ∀ l, (s.graph.op l).isAbstractLock = true →
      s'.graph.input l lockEdge.box = some b → s.kind l ≠ .coarsened → l ∈ r.macroNodes)
  marked : ∀ l, (s.graph.op l).isAbstractLock = true → (l ∈ r.macroNodes ↔ s'.kind l = .regular)
  monitors : ∀ l, (s.graph.op l).isAbstractLock = true → s.kind l ≠ .coarsened →
    l ∉ r.macroNodes → ∀ b obj, s.graph.input l lockEdge.box = some b →
      s.graph.input l lockEdge.obj = some obj →
        ∀ v, ∀ e ∈ M.boxEdges (s.graph.op v) v, M.isEdgeOf b obj s.graph v e = true →
          ∃ b', s'.graph.input v e.box = some b' ∧ s'.boxEliminated b' = true
  newBox : ∀ b, s.graph.size ≤ b → b < s'.graph.size →
    ∃ oldbox obj, oldbox < s.graph.size ∧ ∀ v, v < s.graph.size →
      ∀ e ∈ M.boxEdges (s.graph.op v) v,
        (s'.graph.input v e.box = some b ↔ M.isEdgeOf oldbox obj s.graph v e = true)
  same : ∀ v, v < s.graph.size → ∀ e ∈ M.boxEdges (s.graph.op v) v,
    s'.graph.input v e.obj = s.graph.input v e.obj ∧
      (s'.graph.input v e.box = s.graph.input v e.box ∨
        ∃ b, s.graph.size ≤ b ∧ b < s'.graph.size ∧ s'.graph.input v e.box = some b)
  left : ∀ u, u ∈ r.macroNodes → u ∈ macroNodes
  others : ∀ u ∈ macroNodes, (s.graph.op u).isAbstractLock = false → u ∈ r.macroNodes
  kept : ∀ u, (u ∈ macroNodes → u ∈ r.macroNodes) → ∀ j b, (s'.graph.op b).isBoxLock = true →
    s'.graph.input u j = some b → r.graph.input u j = some b

/-- A lock that the first loop has marked, not by coarsening, has a marked box. -/
theorem EliminationStart.reached {macroNodes : List ℕ} {s s' : LockMarks}
    (h : EliminationStart M macroNodes s) (hsteps : MarkSteps M s s')
    (hsettled : ∀ l ∈ macroNodes, (s.graph.op l).isAbstractLock = true → Settled s' l) {l : ℕ}
    (hl : (s.graph.op l).isAbstractLock = true) (hcoarsened : s.kind l ≠ .coarsened)
    (hkind : s'.kind l ≠ .regular) : Reached s' l := by
  have hfrom := h.toLockStart.markedFrom.steps hsteps
  have hl' : (s'.graph.op l).isAbstractLock = true := (MarkSteps.lock_eq hsteps h.typed).1.2 hl
  cases hk : s'.kind l with
  | regular => exact absurd hk hkind
  | nonEscObj => exact hsettled l (h.mem_macroNodes l hl) hl hk
  | coarsened => exact absurd (hfrom.coarsened l hl' hk) hcoarsened
  | nested => exact hfrom.nested l hl' hk

/-- If a lock has a marked box, so have all edges to its box that are for its object: the box is
marked, or they were moved together. -/
theorem MarkedFrom.box_eliminated {s s' : LockMarks} (h : MarkedFrom M s s') {l b obj v : ℕ}
    {e : BoxEdge} (hl : (s.graph.op l).isAbstractLock = true) (hreached : Reached s' l)
    (hb : s.graph.input l lockEdge.box = some b) (hobj : s.graph.input l lockEdge.obj = some obj)
    (he : e ∈ M.boxEdges (s.graph.op v) v) (hedge : M.isEdgeOf b obj s.graph v e = true) :
    ∃ b', s'.graph.input v e.box = some b' ∧ s'.boxEliminated b' = true := by
  have hltEdge : ∀ {w e'}, M.isEdgeOf b obj s.graph w e' = true → w < s.graph.size :=
    fun hedge => (NodeGraph.reads_of_input (isEdgeOf_iff.1 hedge).1).lt_size
  have hlEdge : M.isEdgeOf b obj s.graph l lockEdge = true := by
    refine isEdgeOf_iff.2 ⟨hb, ?_⟩
    rw [hobj]
    exact decide_eq_true rfl
  rcases h.boxes v (hltEdge hedge) e he with heq | ⟨b', hle, hb'⟩
  · refine ⟨b, heq.trans (isEdgeOf_iff.1 hedge).1, ?_⟩
    rcases h.boxes l (hltEdge hlEdge) lockEdge (lockEdge_mem hl l) with heq' | ⟨b', hle, hb'⟩
    · exact hreached b (heq'.trans hb)
    · -- the box of the lock was replaced, and the edge with it
      have hmoved := h.moved_together (hltEdge hlEdge) (lockEdge_mem hl l) hlEdge
        (hltEdge hedge) he hedge hle hb'
      rw [heq, (isEdgeOf_iff.1 hedge).1, Option.some_inj] at hmoved
      exact absurd (lt_size_of_input hb) (Nat.not_lt.2 (hmoved ▸ hle))
  · exact ⟨b', hb', (h.newBox b' hle (lt_size_of_input hb')).1⟩

/-- Locks are eliminated in pairs, and the loops end. -/
theorem eliminateMacroNodes_paired (M : LockMethod) (macroNodes : List ℕ) (s : LockMarks)
    (h : EliminationStart M macroNodes s) :
    ∃ s' r, M.markMacroNodes macroNodes s = some s' ∧
      (∀ fuel, 2 ≤ fuel →
        eliminateLocks s'.kind fuel ⟨macroNodes, s'.graph.toNodeGraph, true⟩ = some r) ∧
      LocksPaired M macroNodes s s' r := by
  obtain ⟨s', hs', hsteps, hsettled⟩ := @markMacroNodes_spec M s macroNodes h.typed
  obtain ⟨r, hr, hleft, hkeeps⟩ :=
    eliminateLocks_spec s'.kind h.nodup s'.graph.toNodeGraph
  have hfrom := h.toLockStart.markedFrom.steps hsteps
  have hlock : ∀ {l}, (s.graph.op l).isAbstractLock = true →
      (s'.graph.op l).isAbstractLock = true := (MarkSteps.lock_eq hsteps h.typed).1.2
  have hmem : ∀ {l}, (s.graph.op l).isAbstractLock = true →
      (l ∈ r.macroNodes ↔ s'.kind l = .regular) := by
    intro l hl
    rw [hleft, List.mem_filter, staysMacro, hlock hl, Bool.true_and, LockKind.isEliminated,
      Bool.not_eq_true', decide_eq_false_iff_not, not_not]
    exact ⟨fun h => h.2, fun hk => ⟨h.mem_macroNodes l hl, hk⟩⟩
  refine ⟨s', r, hs', hr,
    ⟨fun b => ?_, fun l hl => hmem hl, fun l hl hcoarsened hgone b obj hb hobj v e he hedge => ?_,
    fun b hle hlt => (hfrom.newBox b hle hlt).2, fun v hv e he => ⟨hfrom.objs v hv e he, ?_⟩,
    fun u hu => ?_, fun u hu hop => ?_, fun u hu j b hb hin => ?_⟩⟩
  · cases helim : s'.boxEliminated b with
    | true =>
      refine .inl ⟨rfl, fun l hl hb hleft => ?_⟩
      exact hfrom.eliminated l (hlock hl) b hb helim ((hmem hl).1 hleft)
    | false =>
      refine .inr ⟨rfl, fun l hl hb hcoarsened => (hmem hl).2 ?_⟩
      by_contra hkind
      rw [h.reached hsteps hsettled hl hcoarsened hkind b hb] at helim
      cases helim
  · have hkind : s'.kind l ≠ .regular := fun hkind => hgone ((hmem hl).2 hkind)
    exact hfrom.box_eliminated hl (h.reached hsteps hsettled hl hcoarsened hkind) hb hobj he hedge
  · refine (hfrom.boxes v hv e he).imp_right ?_
    rintro ⟨b, hle, hb⟩
    exact ⟨b, hle, lt_size_of_input hb, hb⟩
  · rw [hleft] at hu
    exact List.mem_of_mem_filter hu
  · rw [hleft, List.mem_filter, staysMacro]
    refine ⟨hu, ?_⟩
    have hop' : (s'.graph.op u).isAbstractLock = false := by
      rw [Bool.eq_false_iff]
      intro hlock'
      rw [(MarkSteps.lock_eq hsteps h.typed).1.1 hlock'] at hop
      cases hop
    rw [hop', Bool.false_and, Bool.not_false]
  · refine (hkeeps u fun hmacro => ?_).input j b hb hin
    have hu := hu hmacro
    rw [hleft, List.mem_filter] at hu
    exact hu.2

/-! ## A box of two objects

Two objects that are locked in one region share a box. The locks of one of them are eliminated, with
a new box for them. -/

/-- All locks of a box are for the object; with the one `Lock`, if there is one. -/
def simpleLockRegion (uncast : ℕ → ℕ) (g : UserGraph LockNodeOp) (box obj : ℕ) :
    Bool × Option ℕ :=
  let locks := (g.outs box).filter fun u =>
    (g.op u).isAbstractLock && decide (g.input u lockEdge.box = some box)
  if locks.all fun u => decide ((g.input u lockEdge.obj).map uncast = some (uncast obj)) then
    match (locks.filter fun u => decide (g.op u = .lock)).dedup with
    | [lock] => (true, some lock)
    | _ => (true, none)
  else (false, none)

/-- Without nested locks, and with one safepoint that has two monitors. -/
def twoObjectsMethod : LockMethod where
  eliminateNestedLocks := false
  out := .moving
  uncast n := n
  stepOverGcBarrier n := n
  isSimpleLockRegion := simpleLockRegion id
  jvms u := if u = 8 then some [⟨5, 9⟩] else none
  jvms_sorted u areas h := by
    split at h
    · obtain rfl := Option.some.inj h
      exact List.pairwise_singleton _ _
    · cases h
  fastLockEdge := ⟨2, 1⟩
  fastLock_apart := by decide

/-- The root, a box, two objects, a `Lock` and an `Unlock` of each, and the safepoint. -/
def twoObjectsGraph : NodeGraph LockNodeOp where
  size := 9
  op n := [LockNodeOp.other, .boxLock 3, .other, .other, .lock, .unlock, .lock, .unlock,
    .safePoint].getD n .other
  ins n := [[], [some 0], [some 0], [some 0],
    [some 0, none, some 0, none, none, some 2, some 1],
    [some 0, none, some 0, none, none, some 2, some 1],
    [some 0, none, some 0, none, none, some 3, some 1],
    [some 0, none, some 0, none, none, some 3, some 1],
    [some 0, none, some 0, none, none, some 1, some 2, some 1, some 3]].getD n []
  top := 0
  ins_eq_nil n hn := by
    rw [List.getD_eq_getElem?_getD, List.getElem?_eq_none hn]
    rfl

theorem twoObjects_closed (u n : ℕ) (h : twoObjectsGraph.Reads u n) : n < 9 := by
  have hall : ∀ u, u < 9 → (twoObjectsGraph.ins u).all (fun i => i.all (decide <| · < 9)) := by
    decide
  have hin := List.all_eq_true.1 (hall u h.lt_size) _ h
  exact of_decide_eq_true hin

theorem twoObjects_op {l : ℕ} (h : twoObjectsGraph.op l ≠ .other) : l < 9 := by
  by_contra hge
  refine h ?_
  change List.getD _ _ _ = _
  rw [List.getD_eq_getElem?_getD, List.getElem?_eq_none (Nat.le_of_not_lt hge)]
  rfl

theorem twoObjects_lock {l : ℕ} (h : (twoObjectsGraph.op l).isAbstractLock = true) :
    l ∈ [4, 5, 6, 7] := by
  have hall : ∀ l, l < 9 → (twoObjectsGraph.op l).isAbstractLock = true → l ∈ [4, 5, 6, 7] := by
    decide
  refine hall l (twoObjects_op fun hop => ?_) h
  rw [hop] at h
  cases h

theorem twoObjects_edges : ∀ l ∈ [4, 5, 6, 7], twoObjectsGraph.input l lockEdge.box = some 1 ∧
    (twoObjectsGraph.input l lockEdge.obj = some 2 ∨
      twoObjectsGraph.input l lockEdge.obj = some 3) := by
  decide

/-- The locks of the first object are marked. -/
def twoObjectsMarks : LockMarks where
  graph := .ofNodeGraph twoObjectsGraph twoObjects_closed
  kind n := if n = 4 ∨ n = 5 then .nonEscObj else .regular
  boxEliminated _ := false

/-- The graph meets what is asked at the start of the elimination, so the pairing holds of it. -/
theorem eliminationStart_twoObjects :
    EliminationStart twoObjectsMethod [4, 5, 6, 7] twoObjectsMarks where
  typed :=
    { box := fun l hl => ⟨1, (twoObjects_edges l (twoObjects_lock hl)).1, rfl⟩
      obj := fun l hl => by
        rcases (twoObjects_edges l (twoObjects_lock hl)).2 with hobj | hobj
        · exact ⟨2, hobj, rfl⟩
        · exact ⟨3, hobj, rfl⟩
      fastLock := fun u i b hop => by
        have hall : ∀ u, u < 9 → twoObjectsGraph.op u ≠ .fastLock := by decide
        have hlt : u < 9 := twoObjects_op (by rw [show twoObjectsGraph.op u = _ from hop]; nofun)
        exact absurd hop (hall u hlt)
      boxIns := fun b i n l hb hin hl => by
        have hall : ∀ b, b < 9 → (twoObjectsGraph.op b).isBoxLock = true →
          twoObjectsGraph.ins b = [some 0] := by decide
        have hlt : b < 9 := (NodeGraph.reads_of_input hin).lt_size
        have hreads : twoObjectsGraph.Reads b n := NodeGraph.reads_of_input hin
        rw [NodeGraph.Reads, hall b hlt hb, List.mem_singleton, Option.some_inj] at hreads
        rw [hreads]
        intro hobj
        rcases (twoObjects_edges l (twoObjects_lock hl)).2 with hobj' | hobj'
        · exact absurd (hobj.symm.trans hobj') (by decide)
        · exact absurd (hobj.symm.trans hobj') (by decide)
      jvms := fun l areas hl hareas => by
        have hmem := twoObjects_lock hl
        have hne : ∀ l ∈ [4, 5, 6, 7], l ≠ 8 := by decide
        have hnone : twoObjectsMethod.jvms l = none := if_neg (hne l hmem)
        rw [hnone] at hareas
        cases hareas }
  eliminated := fun _ _ _ _ h => absurd h Bool.false_ne_true
  nested := fun l _ hk => by
    have hkind : twoObjectsMarks.kind l = if l = 4 ∨ l = 5 then .nonEscObj else .regular := rfl
    rw [hkind] at hk
    split at hk <;> cases hk
  nodup := by decide
  mem_macroNodes := fun _ hl => twoObjects_lock hl

/-- Of two objects that share a box, the locks of one are eliminated. -/
theorem eliminateMacroNodes_paired_twoObjects :
    ∃ s' r, twoObjectsMethod.markMacroNodes [4, 5, 6, 7] twoObjectsMarks = some s' ∧
      (∀ fuel, 2 ≤ fuel → eliminateLocks s'.kind fuel
        ⟨[4, 5, 6, 7], s'.graph.toNodeGraph, true⟩ = some r) ∧
      LocksPaired twoObjectsMethod [4, 5, 6, 7] twoObjectsMarks s' r :=
  eliminateMacroNodes_paired twoObjectsMethod [4, 5, 6, 7] twoObjectsMarks
    eliminationStart_twoObjects

end LockMethod

end StackAllocation
