import StackAllocation.LivenessPass

/-!
# The forward pass

What the forward pass of `BuildOopMaps` takes as the node that set a register is the node that
set it last on some way from the entry (`OopFlow.Follows`). The flow of a block is that of the
end of the block until the last of its successors carries it away, and the block is written on it
(`Flowing.flow`), so a flow is never taken for that of another block.
-/

namespace StackAllocation

open Dataflow

variable {VMReg : Type}

namespace FlowGraph

variable (G : FlowGraph VMReg)

/-- The node set the register last on some way into the block. -/
def ReachesBlock (b : G.Block) (r : G.Reg) (o : Option ℕ) : Prop :=
  Reaches G.kills G.nodes G.succs G.entryBlock G.rootBlock b r o

/-- The node set the register last on some way to the node `n`. -/
def ReachingDef (n : ℕ) (r : G.Reg) (d : ℕ) : Prop :=
  ∃ b pre post o, G.nodes b = pre ++ n :: post ∧ G.ReachesBlock b r o ∧
    lastDef G.kills r pre o = some d

end FlowGraph

variable {G : FlowGraph VMReg} {safehash : G.Safehash} {b : G.Block}

namespace OopFlow

/-- A node sets its registers. -/
theorem assign_defs (f : OopFlow G) (n : ℕ) (r : G.Reg) :
    (f.assign n).defs (some r) = if r ∈ G.kills n then some n else f.defs (some r) := by
  rw [assign, FlowGraph.kills]
  simp only [Finset.mem_union, Option.mem_toFinset, Option.mem_def]
  by_cases hsecond : (G.node n).second = some r
  · rw [hsecond, Function.update_self, if_pos (.inr rfl)]
  · rw [Function.update_of_ne (Ne.symm hsecond)]
    by_cases hfirst : (G.node n).first = some r
    · rw [hfirst, Function.update_self, if_pos (.inl rfl)]
    · rw [Function.update_of_ne (Ne.symm hfirst), if_neg (not_or.2 ⟨hfirst, hsecond⟩)]

/-- After the nodes `pre` of the block the flow has, for each register, the node that set it
last on some way there. -/
def Follows (f : OopFlow G) (b : G.Block) (pre : List ℕ) : Prop :=
  ∀ r, ∃ o, G.ReachesBlock b r o ∧ f.defs (some r) = lastDef G.kills r pre o

/-- The flow after one more node. -/
theorem Follows.assign {f : OopFlow G} {pre : List ℕ} (h : f.Follows b pre) (n : ℕ) :
    (f.assign n).Follows b (pre ++ [n]) := by
  intro r
  obtain ⟨o, ho, heq⟩ := h r
  refine ⟨o, ho, ?_⟩
  rw [assign_defs, lastDef_append, ← heq]
  rfl

/-- The map of a safepoint was built from a flow that follows the nodes before it. -/
def Built (safehash : G.Safehash) (b : G.Block) (n : ℕ) (m : List (OopMapValue VMReg)) : Prop :=
  ∃ (f : OopFlow G) (pre post : List ℕ) (live : Finset G.Reg), G.nodes b = pre ++ n :: post ∧
    needsMap G n = true ∧ f.Follows b pre ∧ safehash n = some live ∧ f.buildOopMap n live = some m

/-- At a node that needs no map none is made; else it is the one of what is live there. -/
theorem mapAt_eq_some {f : OopFlow G} {n : ℕ} {here : List (ℕ × List (OopMapValue VMReg))}
    (h : f.mapAt safehash n = some here) :
    (needsMap G n = false ∧ here = []) ∨ needsMap G n = true ∧
      ∃ live m, safehash n = some live ∧ f.buildOopMap n live = some m ∧ here = [(n, m)] := by
  rw [mapAt] at h
  split at h
  · next hn =>
    split at h
    · cases h
    · next live hlive =>
      obtain ⟨m, hm, rfl⟩ := Option.map_eq_some_iff.1 h
      exact .inr ⟨hn, live, m, hlive, hm, rfl⟩
  · next hn =>
    obtain rfl := Option.some.inj h
    exact .inl ⟨Bool.not_eq_true _ ▸ hn, rfl⟩

/-- One node, and those after it. -/
theorem computeReach_cons {n : ℕ} {ns : List ℕ} {f f' : OopFlow G}
    {maps : List (ℕ × List (OopMapValue VMReg))}
    (h : computeReach safehash (n :: ns) f = some (f', maps)) :
    ∃ here rest, f.mapAt safehash n = some here ∧
      computeReach safehash ns (f.assign n) = some (f', rest) ∧ maps = here ++ rest := by
  rw [computeReach] at h
  split at h
  · cases h
  · next here hhere =>
    split at h
    · cases h
    · next f'' rest hrest =>
      obtain ⟨rfl, rfl⟩ := Prod.mk.inj (Option.some.inj h)
      exact ⟨here, rest, hhere, hrest, rfl⟩

/-- What `compute_reach` does with the nodes that are left of a block. -/
theorem computeReach_spec {ns pre : List ℕ} {f f' : OopFlow G}
    {maps : List (ℕ × List (OopMapValue VMReg))} (hb : G.nodes b = pre ++ ns)
    (hf : f.Follows b pre) (h : computeReach safehash ns f = some (f', maps)) :
    f'.Follows b (G.nodes b) ∧ f'.block = f.block ∧
      (∀ n m, (n, m) ∈ maps → Built safehash b n m) ∧
      ∀ n ∈ ns, needsMap G n = true → ∃ m, (n, m) ∈ maps := by
  induction ns generalizing pre f maps with
  | nil =>
    obtain ⟨rfl, rfl⟩ := Prod.mk.inj (Option.some.inj h)
    rw [List.append_nil] at hb
    exact ⟨hb ▸ hf, rfl, fun _ _ hm => absurd hm List.not_mem_nil,
      fun _ hn => absurd hn List.not_mem_nil⟩
  | cons n ns ih =>
    obtain ⟨here, rest, hhere, hrest, rfl⟩ := computeReach_cons h
    have hb' : G.nodes b = (pre ++ [n]) ++ ns := by rw [hb, List.append_assoc]; rfl
    obtain ⟨hend, hblock, hbuilt, hmaps⟩ := ih hb' (hf.assign n) hrest
    refine ⟨hend, hblock, fun k m hm => ?_, fun k hk hneeds => ?_⟩
    · obtain hm | hm := List.mem_append.1 hm
      · obtain ⟨-, rfl⟩ | ⟨hneeds, live, m', hlive, hm', rfl⟩ := mapAt_eq_some hhere
        · exact absurd hm List.not_mem_nil
        · obtain ⟨rfl, rfl⟩ := Prod.mk.inj (List.mem_singleton.1 hm)
          exact ⟨f, pre, ns, live, hb, hneeds, hf, hlive, hm'⟩
      · exact hbuilt k m hm
    · obtain rfl | hk := List.mem_cons.1 hk
      · obtain ⟨hno, -⟩ | ⟨-, live, m, -, -, rfl⟩ := mapAt_eq_some hhere
        · rw [hno] at hneeds
          cases hneeds
        · exact ⟨m, List.mem_append_left _ (List.mem_singleton.2 rfl)⟩
      · obtain ⟨m, hm⟩ := hmaps k hk hneeds
        exact ⟨m, List.mem_append_right _ hm⟩

/-- Nothing fails in a block, if nothing does at its safepoints. -/
theorem computeReach_isSome {ns pre : List ℕ} {f : OopFlow G} (hb : G.nodes b = pre ++ ns)
    (hf : f.Follows b pre)
    (hmap : ∀ (g : OopFlow G) (pre : List ℕ) n post, G.nodes b = pre ++ n :: post →
      g.Follows b pre → (g.mapAt safehash n).isSome) :
    (computeReach safehash ns f).isSome := by
  induction ns generalizing pre f with
  | nil => rfl
  | cons n ns ih =>
    have hb' : G.nodes b = (pre ++ [n]) ++ ns := by rw [hb, List.append_assoc]; rfl
    obtain ⟨here, hhere⟩ := Option.isSome_iff_exists.1 (hmap f pre n ns hb hf)
    obtain ⟨⟨f', rest⟩, hrest⟩ := Option.isSome_iff_exists.1 (ih hb' (hf.assign n))
    rw [computeReach, hhere]
    dsimp only
    rw [hrest]
    rfl

/-- The flow of the end of a block is that of the start of its successors. -/
theorem Follows.enter {f g : OopFlow G} {p : G.Block} (h : f.Follows p (G.nodes p))
    (hb : b ∈ G.succs p) (hroot : b ≠ G.rootBlock)
    (hdefs : ∀ r, g.defs (some r) = f.defs (some r)) :
    g.Follows b [] := by
  intro r
  obtain ⟨o, ho, heq⟩ := h r
  exact ⟨_, .step ho hb hroot, (hdefs r).trans heq⟩

/-- A clone of a flow has its definitions. -/
theorem clone_defs (f flow : OopFlow G) (r : G.Reg) :
    (f.clone flow).defs (some r) = flow.defs (some r) := rfl

end OopFlow

namespace FlowState

/-- The state of the loop over the worklist. -/
structure Flowing (safehash : G.Safehash) (s : FlowState G) (worklist : List G.Block) : Prop where
  root : s.flows G.rootBlock = none
  built : ∀ n m, (n, m) ∈ s.maps → ∃ b, OopFlow.Built safehash b n m
  maps : ∀ b, (s.flows b).isSome → ∀ n ∈ G.nodes b, OopFlow.needsMap G n = true →
    ∃ m, (n, m) ∈ s.maps
  covered : ∀ b, (s.flows b).isSome → ∀ c ∈ G.succs b, c ≠ G.rootBlock →
    (s.flows c).isSome ∨ c ∈ worklist
  pending : ∀ c ∈ worklist, c ≠ G.rootBlock → c = G.entryBlock ∨
    ∃ p, (s.flows p).isSome ∧ c ∈ G.succs p
  /-- A block that is not carried away yet has its own flow. -/
  flow : ∀ p i c, s.flows p = some i → c ∈ G.succs p → s.flows c = none →
    ∃ f, s.arena[i]? = some f ∧ f.block = some p ∧ f.Follows p (G.nodes p)

/-- A flow that can be made that of the block. -/
structure Ready (safehash : G.Safehash) (s : FlowState G) (b : G.Block) (worklist : List G.Block)
    (i : ℕ) (f : OopFlow G) : Prop where
  flowing : Flowing safehash s (b :: worklist)
  ne_root : b ≠ G.rootBlock
  undone : s.flows b = none
  follows : f.Follows b []
  lt : i < s.arena.length
  /-- No other block needs it. -/
  free : ∀ p j c, s.flows p = some j → c ∈ G.succs p → c ≠ b → s.flows c = none → j ≠ i

variable {s s' : FlowState G} {worklist : List G.Block} {i : ℕ} {f : OopFlow G}
  {c : G.Block}

/-- One turn of the loop over the blocks: the flow through one block, and what it leaves for the
successors. -/
theorem compute_eq_some (h : s.compute safehash b i f = some s') :
    ∃ g maps, OopFlow.computeReach safehash (G.nodes b) { f with block := some b } =
      some (g, maps) ∧ s'.arena = s.arena.set i g ∧ s'.maps = s.maps ++ maps ∧
      s'.flows b = some i ∧ ∀ c, c ≠ b → s'.flows c = s.flows c := by
  rw [compute] at h
  split at h
  · cases h
  · next g maps heq =>
    obtain rfl := Option.some.inj h
    exact ⟨g, maps, heq, rfl, rfl, Function.update_self .., fun c hc => Function.update_of_ne hc ..⟩

/-- The block is done, its successors are put on the list. -/
theorem Ready.flowing_compute (h : Ready safehash s b worklist i f)
    (hs : s.compute safehash b i f = some s') :
    Flowing safehash s' ((G.succs b).reverse ++ worklist) := by
  obtain ⟨g, maps, hreach, harena, hmapsEq, hself, hother⟩ := compute_eq_some hs
  have hfollows : ({ f with block := some b } : OopFlow G).Follows b [] := h.follows
  obtain ⟨hend, hblock, hbuilt, hmaps⟩ := OopFlow.computeReach_spec
    (List.nil_append (G.nodes b)).symm hfollows hreach
  have hdone : (s'.flows b).isSome := hself ▸ rfl
  have hkeep : ∀ c, (s.flows c).isSome → (s'.flows c).isSome := by
    intro c hc
    obtain rfl | hne := eq_or_ne c b
    · exact hdone
    · rwa [hother c hne]
  refine ⟨?_, fun n m hm => ?_, fun c hc n hn hneeds => ?_, fun c hc d hd hroot => ?_,
    fun c hc hroot => ?_, fun p j c hp hc hundone => ?_⟩
  · exact (hother _ h.ne_root.symm).trans h.flowing.root
  · rw [hmapsEq] at hm
    exact (List.mem_append.1 hm).elim (h.flowing.built n m) fun hm => ⟨b, hbuilt n m hm⟩
  · rw [hmapsEq]
    obtain rfl | hne := eq_or_ne c b
    · obtain ⟨m, hm⟩ := hmaps n hn hneeds
      exact ⟨m, List.mem_append_right _ hm⟩
    · obtain ⟨m, hm⟩ := h.flowing.maps c (hother c hne ▸ hc) n hn hneeds
      exact ⟨m, List.mem_append_left _ hm⟩
  · obtain rfl | hne := eq_or_ne c b
    · exact .inr (List.mem_append_left _ (List.mem_reverse.2 hd))
    · obtain rfl | hdb := eq_or_ne d b
      · exact .inl hdone
      · obtain hd | hd := h.flowing.covered c (hother c hne ▸ hc) d hd hroot
        · exact .inl (hkeep d hd)
        · exact .inr (List.mem_append_right _ ((List.mem_cons.1 hd).resolve_left hdb))
  · obtain hc | hc := List.mem_append.1 hc
    · exact .inr ⟨b, hdone, List.mem_reverse.1 hc⟩
    · obtain hentry | ⟨p, hp, hcp⟩ := h.flowing.pending c (List.mem_cons_of_mem b hc) hroot
      · exact .inl hentry
      · exact .inr ⟨p, hkeep p hp, hcp⟩
  · have hcb : c ≠ b := by
      rintro rfl
      rw [hself] at hundone
      cases hundone
    rw [hother c hcb] at hundone
    rw [harena]
    obtain rfl | hne := eq_or_ne p b
    · obtain rfl := Option.some.inj (hself.symm.trans hp)
      exact ⟨g, List.getElem?_set_self h.lt, hblock, hend⟩
    · rw [hother p hne] at hp
      obtain ⟨k, hk, hkp⟩ := h.flowing.flow p j c hp hc hundone
      exact ⟨k, (List.getElem?_set_ne (h.free p j c hp hc hcb hundone).symm).trans hk, hkp⟩

/-- What the scan of the predecessors finds. -/
theorem findPred_eq_some {ps : List G.Block} {found : Option (G.Block × ℕ × Bool)}
    {p : G.Block} {ideal : Bool} (h : s.findPred b ps found = some (p, i, ideal)) :
    found = some (p, i, ideal) ∨
      p ∈ ps ∧ s.flows p = some i ∧ (ideal = true → s.onlyUndone p b = true) := by
  induction ps generalizing found with
  | nil => exact .inl h
  | cons q ps ih =>
    rw [findPred] at h
    split at h
    · exact (ih h).imp_right fun ⟨hp, hrest⟩ => ⟨List.mem_cons_of_mem q hp, hrest⟩
    · next j hj =>
      split at h
      · next honly =>
        obtain ⟨rfl, hpair⟩ := Prod.mk.inj (Option.some.inj h)
        obtain ⟨rfl, -⟩ := Prod.mk.inj hpair
        exact .inr ⟨List.mem_cons_self, hj, fun _ => honly⟩
      · obtain heq | ⟨hp, hrest⟩ := ih h
        · obtain ⟨rfl, hpair⟩ := Prod.mk.inj (Option.some.inj heq)
          obtain ⟨rfl, rfl⟩ := Prod.mk.inj hpair
          exact .inr ⟨List.mem_cons_self, hj, fun h => absurd h Bool.false_ne_true⟩
        · exact .inr ⟨List.mem_cons_of_mem q hp, hrest⟩

/-- It finds a predecessor that is done. -/
theorem findPred_isSome {ps : List G.Block} {found : Option (G.Block × ℕ × Bool)}
    (h : found.isSome ∨ ∃ p ∈ ps, (s.flows p).isSome) : (s.findPred b ps found).isSome := by
  induction ps generalizing found with
  | nil => exact h.resolve_right fun ⟨p, hp, _⟩ => absurd hp List.not_mem_nil
  | cons q ps ih =>
    rw [findPred]
    split
    · next hq =>
      refine ih (h.imp_right fun ⟨p, hp, hsome⟩ => ⟨p, ?_, hsome⟩)
      obtain rfl | hp := List.mem_cons.1 hp
      · rw [hq] at hsome
        cases hsome
      · exact hp
    · split
      · rfl
      · exact ih (.inl rfl)

/-- A block on the list gets a flow that is ready for it. -/
theorem Flowing.carry_eq (h : Flowing safehash s (b :: worklist))
    (hstart : (s.flows G.entryBlock).isSome) (hroot : b ≠ G.rootBlock)
    (hundone : s.flows b = none) :
    ∃ t i f, s.carry safehash b = t.compute safehash b i f ∧ Ready safehash t b worklist i f ∧
      t.flows = s.flows := by
  have hpred : ∃ p, (s.flows p).isSome ∧ b ∈ G.succs p := by
    refine (h.pending b List.mem_cons_self hroot).resolve_left fun hentry => ?_
    rw [hentry] at hundone
    rw [hundone] at hstart
    cases hstart
  have hscan : (s.findPred b (G.preds b) none).isSome := by
    obtain ⟨p, hp, hb⟩ := hpred
    exact findPred_isSome (.inr ⟨p, (G.mem_preds p b).2 hb, hp⟩)
  obtain ⟨⟨p, i, ideal⟩, hfind⟩ := Option.isSome_iff_exists.1 hscan
  obtain ⟨hmem, hp, hideal⟩ := (findPred_eq_some hfind).resolve_left nofun
  have hb : b ∈ G.succs p := (G.mem_preds p b).1 hmem
  obtain ⟨flow, harena, hblock, hfollows⟩ := h.flow p i b hp hb hundone
  rw [carry, hfind]
  dsimp only
  rw [harena]
  dsimp only
  have hlt : i < s.arena.length := (List.getElem?_eq_some_iff.1 harena).1
  split
  · next hcarry =>
    refine ⟨s, i, flow, rfl, ⟨h, hroot, hundone, hfollows.enter hb hroot fun _ => rfl, hlt, ?_⟩,
      rfl⟩
    rintro q j c hq hc hcb hcun rfl
    -- the flow is that of `q`, so `p` has another successor that is not done
    obtain ⟨flow', harena', hblock', -⟩ := h.flow q j c hq hc hcun
    obtain rfl := Option.some.inj (harena.symm.trans harena')
    obtain rfl := Option.some.inj (hblock.symm.trans hblock')
    have honly := List.all_eq_true.1 (hideal hcarry) c hc
    rw [hcun, beq_eq_false_iff_ne.2 hcb] at honly
    cases honly
  · refine ⟨_, _, _, rfl, ⟨⟨h.root, h.built, h.maps, h.covered, h.pending, ?_⟩, hroot, hundone,
      hfollows.enter hb hroot (OopFlow.clone_defs _ _), ?_, ?_⟩, rfl⟩
    · intro q j c hq hc hcun
      obtain ⟨flow', harena', hrest⟩ := h.flow q j c hq hc hcun
      refine ⟨flow', ?_, hrest⟩
      rw [List.getElem?_append_left (List.getElem?_eq_some_iff.1 harena').1]
      exact harena'
    · simp
    · intro q j c hq hc _ hcun
      obtain ⟨flow', harena', -⟩ := h.flow q j c hq hc hcun
      exact (List.getElem?_eq_some_iff.1 harena').1.ne

/-- A block of the root, or one that is done, leaves the list. -/
theorem Flowing.skip (h : Flowing safehash s (b :: worklist))
    (hb : b = G.rootBlock ∨ (s.flows b).isSome) : Flowing safehash s worklist := by
  refine ⟨h.root, h.built, h.maps, fun c hc d hd hroot => ?_, fun c hc => ?_, h.flow⟩
  · obtain hdone | hmem := h.covered c hc d hd hroot
    · exact .inl hdone
    · obtain rfl | hmem := List.mem_cons.1 hmem
      · exact .inl (hb.resolve_left hroot)
      · exact .inr hmem
  · exact h.pending c (List.mem_cons_of_mem b hc)

/-- A block that has a flow keeps it. -/
theorem compute_keeps (h : s.compute safehash b i f = some s') (hstart : (s.flows c).isSome) :
    (s'.flows c).isSome := by
  obtain ⟨g, maps, -, -, -, hself, hother⟩ := compute_eq_some h
  obtain rfl | hne := eq_or_ne c b
  · rw [hself]
    rfl
  · rwa [hother c hne]

/-- What holds when the loop has ended. -/
theorem Flowing.loop {fuel : ℕ} (h : Flowing safehash s worklist)
    (hstart : (s.flows G.entryBlock).isSome) (hs : loop safehash fuel worklist s = some s') :
    Flowing safehash s' [] ∧ (s'.flows G.entryBlock).isSome := by
  induction fuel generalizing worklist s with
  | zero => cases hs
  | succ fuel ih =>
    cases worklist with
    | nil =>
      obtain rfl := Option.some.inj hs
      exact ⟨h, hstart⟩
    | cons b worklist =>
      rw [FlowState.loop] at hs
      split at hs
      · next hroot => exact ih (h.skip (.inl hroot)) hstart hs
      · next hroot =>
        split at hs
        · next hdone => exact ih (h.skip (.inr hdone)) hstart hs
        · next hdone =>
          obtain ⟨t, i, f, hcarry, hready, hflows⟩ :=
            h.carry_eq hstart hroot (Option.not_isSome_iff_eq_none.1 hdone)
          rw [hcarry] at hs
          split at hs
          · cases hs
          · next t' ht' =>
            exact ih (hready.flowing_compute ht') (compute_keeps ht' (hflows ▸ hstart)) hs

/-- The successors of the blocks that are not done yet. -/
def left (s : FlowState G) : ℕ :=
  ∑ b, if (s.flows b).isSome then 0 else (G.succs b).length

/-- A block that is done for the first time leaves fewer edges to be followed, which bounds the
turns. -/
theorem left_compute (h : s.compute safehash b i f = some s') (hundone : s.flows b = none) :
    s'.left + (G.succs b).length = s.left := by
  obtain ⟨g, maps, -, -, -, hself, hother⟩ := compute_eq_some h
  rw [left, left, ← Finset.add_sum_erase _ _ (Finset.mem_univ b),
    ← Finset.add_sum_erase _ _ (Finset.mem_univ b), hself, hundone]
  have hrest : ∑ c ∈ Finset.univ.erase b, (if (s'.flows c).isSome then 0 else (G.succs c).length) =
      ∑ c ∈ Finset.univ.erase b, (if (s.flows c).isSome then 0 else (G.succs c).length) :=
    Finset.sum_congr rfl fun c hc => by rw [hother c (Finset.ne_of_mem_erase hc)]
  rw [hrest]
  simp only [Option.isSome_some, Option.isSome_none, if_true, if_false, Bool.false_eq_true]
  omega

/-- The loop ends, if no safepoint fails. -/
theorem Flowing.loop_isSome {fuel : ℕ} (h : Flowing safehash s worklist)
    (hstart : (s.flows G.entryBlock).isSome) (hfuel : s.left + worklist.length < fuel)
    (hmap : ∀ b, b ≠ G.rootBlock → ∀ (g : OopFlow G) (pre : List ℕ) n post,
      G.nodes b = pre ++ n :: post → g.Follows b pre → (g.mapAt safehash n).isSome) :
    (FlowState.loop safehash fuel worklist s).isSome := by
  induction fuel generalizing worklist s with
  | zero => exact absurd hfuel (Nat.not_lt_zero _)
  | succ fuel ih =>
    cases worklist with
    | nil => rfl
    | cons b worklist =>
      rw [List.length_cons] at hfuel
      rw [FlowState.loop]
      split
      · next hroot => exact ih (h.skip (.inl hroot)) hstart (by omega)
      · next hroot =>
        split
        · next hdone => exact ih (h.skip (.inr hdone)) hstart (by omega)
        · next hdone =>
          have hundone := Option.not_isSome_iff_eq_none.1 hdone
          obtain ⟨t, i, f, hcarry, hready, hflows⟩ := h.carry_eq hstart hroot hundone
          have hfollows : ({ f with block := some b } : OopFlow G).Follows b [] := hready.follows
          obtain ⟨⟨g, maps⟩, hreach⟩ := Option.isSome_iff_exists.1
            (OopFlow.computeReach_isSome (List.nil_append (G.nodes b)).symm hfollows
              (hmap b hroot))
          obtain ⟨t', ht'⟩ : ∃ t', t.compute safehash b i f = some t' := by
            rw [compute, hreach]
            exact ⟨_, rfl⟩
          rw [hcarry, ht']
          refine ih (hready.flowing_compute ht') (compute_keeps ht' (hflows ▸ hstart)) ?_
          have hleft := left_compute ht' hready.undone
          have heq : t.left = s.left := by rw [left, left, hflows]
          rw [List.length_append, List.length_reverse]
          omega

/-- The loop can start at the entry. -/
theorem ready_start : Ready safehash ⟨[OopFlow.make G], fun _ => none, []⟩ G.entryBlock [] 0
    (OopFlow.make G) where
  flowing := {
    root := rfl
    built := fun _ _ hm => absurd hm List.not_mem_nil
    maps := fun _ hb => absurd hb Bool.false_ne_true
    covered := fun _ hb => absurd hb Bool.false_ne_true
    pending := fun _ hc _ => .inl (List.mem_singleton.1 hc)
    flow := fun _ _ _ hp => nomatch hp }
  ne_root := Fin.zero_ne_one.symm
  undone := rfl
  follows := fun r => ⟨none, .entry r, rfl⟩
  lt := Nat.zero_lt_one
  free := fun _ _ _ hp => nomatch hp

end FlowState

namespace FlowGraph

/-- The maps that are set were built from flows that follow the code, and each safepoint that
needs one has a map. -/
theorem buildOopMaps_eq_some (hG : G.Scheduled) (hsafe : G.doLiveness = some safehash)
    {maps : List (ℕ × List (OopMapValue VMReg))} (h : G.buildOopMaps = some maps) :
    (∀ n m, (n, m) ∈ maps → ∃ b, OopFlow.Built safehash b n m) ∧
      ∀ b, b ≠ G.rootBlock → ∀ n ∈ G.nodes b, OopFlow.needsMap G n = true →
        ∃ m, (n, m) ∈ maps := by
  rw [buildOopMaps, hsafe] at h
  dsimp only at h
  split at h
  · cases h
  · next s hs =>
    obtain ⟨s', hs', rfl⟩ := Option.map_eq_some_iff.1 h
    have hflowing := FlowState.ready_start.flowing_compute hs
    rw [List.append_nil] at hflowing
    obtain ⟨-, -, -, -, -, hself, -⟩ := FlowState.compute_eq_some hs
    obtain ⟨hend, hentry⟩ := hflowing.loop (hself ▸ rfl) hs'
    have hdone : ∀ b, Relation.ReflTransGen G.Flow G.entryBlock b → (s'.flows b).isSome := by
      intro b hpath
      induction hpath with
      | refl => exact hentry
      | tail _ hstep ih =>
        exact (hend.covered _ ih _ hstep.1 hstep.2).resolve_right List.not_mem_nil
    exact ⟨hend.built, fun b hb => hend.maps b (hdone b (hG.reachable b hb))⟩

/-- No map is given up, if none is at its safepoint. -/
theorem buildOopMaps_isSome (hsafe : G.doLiveness = some safehash)
    (hmap : ∀ b, b ≠ G.rootBlock → ∀ (g : OopFlow G) (pre : List ℕ) n post,
      G.nodes b = pre ++ n :: post → g.Follows b pre → (g.mapAt safehash n).isSome) :
    G.buildOopMaps.isSome := by
  have hready : FlowState.Ready safehash ⟨[OopFlow.make G], fun _ => none, []⟩ G.entryBlock [] 0
      (OopFlow.make G) := FlowState.ready_start
  obtain ⟨⟨g, maps⟩, hreach⟩ := Option.isSome_iff_exists.1
    (OopFlow.computeReach_isSome (f := { OopFlow.make G with block := some G.entryBlock })
      (List.nil_append (G.nodes G.entryBlock)).symm hready.follows (hmap _ hready.ne_root))
  obtain ⟨s, hs⟩ : ∃ s, FlowState.compute ⟨[OopFlow.make G], fun _ => none, []⟩ safehash
      G.entryBlock 0 (OopFlow.make G) = some s := by
    rw [FlowState.compute, hreach]
    exact ⟨_, rfl⟩
  have hflowing := hready.flowing_compute hs
  rw [List.append_nil] at hflowing
  obtain ⟨-, -, -, -, -, hself, -⟩ := FlowState.compute_eq_some hs
  rw [buildOopMaps, hsafe]
  dsimp only
  rw [hs, Option.isSome_map]
  refine hflowing.loop_isSome (hself ▸ rfl) ?_ hmap
  have hleft := FlowState.left_compute hs rfl
  have hstart : FlowState.left (G := G) ⟨[OopFlow.make G], fun _ => none, []⟩ =
      ∑ b, (G.succs b).length := rfl
  rw [loopFuel, List.length_reverse]
  omega

end FlowGraph
end StackAllocation
