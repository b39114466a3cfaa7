import StackAllocation.OopFlow

/-!
# The liveness pass

What `do_liveness` finds at the safepoints. While it drains the worklist each block is on the
list, untouched, or settled: what is live into it is what its nodes make of what is live into
its successors (`Draining`). When the list is empty the pass may have left out blocks from which
no way leads out of the method; if one of them has a safepoint the pass is made again with every
block. So what it finds at a safepoint is what is live there (`mem_safehash_iff`).
-/

namespace StackAllocation

open Dataflow

variable {VMReg : Type}

namespace FlowGraph

variable {G : FlowGraph VMReg}

variable (G) in
/-- The register is live into the block. -/
def LiveInto (b : G.Block) (r : G.Reg) : Prop := LiveIn G.kills G.gens G.nodes G.succs b r

variable (G) in
/-- The register is live at a node, whose own inputs count. -/
def LiveAt (n : ℕ) (r : G.Reg) : Prop :=
  ∃ b pre post, G.nodes b = pre ++ n :: post ∧
    LiveAbove G.kills G.gens G.nodes G.succs b (n :: post) r

/-- What the nodes of a block make of what is live below it. -/
def top (live : G.Block → Finset G.Reg) (b : G.Block) : Finset G.Reg :=
  liveAbove G.kills G.gens (G.nodes b) (G.liveOut live b)

/-- What is live at the end of a block is live at the start of one of its successors. -/
theorem mem_liveOut {live : G.Block → Finset G.Reg} {b : G.Block} {r : G.Reg} :
    r ∈ G.liveOut live b ↔ ∃ c ∈ G.succs b, r ∈ live c := by
  have hfold : ∀ (l : List G.Block) (t : Finset G.Reg),
      r ∈ l.foldl (fun t s => t ∪ live s) t ↔ r ∈ t ∨ ∃ c ∈ l, r ∈ live c := by
    intro l
    induction l with
    | nil => simp
    | cons c l ih =>
      intro t
      rw [List.foldl_cons, ih, Finset.mem_union, List.exists_mem_cons_iff, or_assoc]
  rw [liveOut, hfold]
  simp

/-- It depends on the successors only. -/
theorem liveOut_congr {live live' : G.Block → Finset G.Reg} {b : G.Block}
    (h : ∀ c ∈ G.succs b, live c = live' c) : G.liveOut live b = G.liveOut live' b := by
  refine Finset.ext fun r => ?_
  rw [mem_liveOut, mem_liveOut]
  constructor
  · rintro ⟨c, hc, hr⟩
    exact ⟨c, hc, h c hc ▸ hr⟩
  · rintro ⟨c, hc, hr⟩
    exact ⟨c, hc, (h c hc).symm ▸ hr⟩

/-- More live at the ends means more live at the starts. -/
theorem top_mono {live live' : G.Block → Finset G.Reg} (h : ∀ b, live b ⊆ live' b)
    (b : G.Block) : top live b ⊆ top live' b := by
  refine liveAbove_mono fun r hr => ?_
  obtain ⟨c, hc, hr⟩ := mem_liveOut.1 hr
  exact mem_liveOut.2 ⟨c, hc, h c hr⟩

/-- The pass over the nodes of a block, from the last to the first, computes what is live above
them. -/
theorem walkUp_fst (ns : List ℕ) (s : Finset G.Reg × G.Safehash) :
    (G.walkUp ns s).1 = liveAbove G.kills G.gens ns s.1 := by
  induction ns with
  | nil => rfl
  | cons n ns ih =>
    rw [walkUp, liveAbove_cons, ← ih]

/-- A safepoint gets what is live above it, with its own inputs. -/
theorem walkUp_snd_self {n : ℕ} (hn : (G.node n).jvms.isSome) (ns : List ℕ)
    (s : Finset G.Reg × G.Safehash) :
    (G.walkUp (n :: ns) s).2 n = some (liveAbove G.kills G.gens (n :: ns) s.1) := by
  rw [liveAbove_cons, ← walkUp_fst]
  show (if (G.node n).jvms.isSome then _ else _ : G.Safehash) n = _
  rw [if_pos hn]
  exact Function.update_self ..

/-- What was recorded at other nodes stays. -/
theorem walkUp_snd_of_ne {n m : ℕ} (h : n ≠ m) (ns : List ℕ) (s : Finset G.Reg × G.Safehash) :
    (G.walkUp (m :: ns) s).2 n = (G.walkUp ns s).2 n := by
  show (if (G.node m).jvms.isSome then _ else _ : G.Safehash) n = _
  split
  · exact Function.update_of_ne h ..
  · rfl

/-- The walk leaves what is known of other nodes. -/
theorem walkUp_snd_of_notMem {ns : List ℕ} {n : ℕ} (h : n ∉ ns)
    (s : Finset G.Reg × G.Safehash) : (G.walkUp ns s).2 n = s.2 n := by
  induction ns with
  | nil => rfl
  | cons m ns ih =>
    have hm : n ≠ m := List.ne_of_not_mem_cons h
    rw [walkUp_snd_of_ne hm]
    exact ih (List.not_mem_of_not_mem_cons h)

/-- What the walk finds at a safepoint. -/
theorem walkUp_snd {ns pre post : List ℕ} {n : ℕ} (hns : ns = pre ++ n :: post)
    (hnodup : ns.Nodup) (hn : (G.node n).jvms.isSome) (s : Finset G.Reg × G.Safehash) :
    (G.walkUp ns s).2 n = some (liveAbove G.kills G.gens (n :: post) s.1) := by
  subst hns
  induction pre with
  | nil => exact walkUp_snd_self hn post s
  | cons m pre ih =>
    obtain ⟨hm, hnodup⟩ := List.nodup_cons.1 hnodup
    have hne : n ≠ m := fun h => hm (h ▸ List.mem_append_right pre List.mem_cons_self)
    exact (walkUp_snd_of_ne hne _ s).trans (ih hnodup)

/-! ## Nodes are in one block

The recorded sets are kept by node. A node stands in one block, so the walk over a block changes
those of its own safepoints only. -/

/-- A node stands once in its block. -/
theorem nodup_nodes (b : G.Block) : (G.nodes b).Nodup :=
  (List.nodup_flatMap.1 G.nodup).1 b (List.mem_finRange b)

/-- And in one block only. -/
theorem block_unique {b c : G.Block} {n : ℕ} (hb : n ∈ G.nodes b) (hc : n ∈ G.nodes c) :
    b = c := by
  by_contra hne
  have hsymm : Std.Symm (Function.onFun List.Disjoint G.nodes) := ⟨fun _ _ h => h.symm⟩
  have hdisj : List.Disjoint (G.nodes b) (G.nodes c) :=
    (List.nodup_flatMap.1 G.nodup).2.forall (List.mem_finRange b) (List.mem_finRange c) hne
  exact hdisj hb hc

/-- A node stands in one place of a block. -/
theorem split_unique {l pre post pre' post' : List ℕ} {n : ℕ} (hnodup : l.Nodup)
    (h : l = pre ++ n :: post) (h' : l = pre' ++ n :: post') : pre = pre' ∧ post = post' := by
  subst h
  have hn := List.nodup_cons.1 (List.nodup_middle.1 hnodup)
  rw [List.mem_append, not_or] at hn
  have heq := (List.append_cons_inj_of_notMem hn.1.1 hn.1.2).1 h'
  exact ⟨heq.1, heq.2.2⟩

/-! ## Draining the worklist

The invariant is about all blocks: each is on the list, or was never touched, or agrees with its
successors and has its safepoints recorded. A block that grows puts its predecessors on the list. As
sets only grow within the registers there are, the loop ends. -/

/-- The block agrees with its successors, and so do its safepoints. -/
structure Settled (live : G.Block → Finset G.Reg) (safehash : G.Safehash) (b : G.Block) :
    Prop where
  top_eq : top live b = live b
  recorded : ∀ pre n post, G.nodes b = pre ++ n :: post → (G.node n).jvms.isSome →
    safehash n = some (liveAbove G.kills G.gens (n :: post) (G.liveOut live b))

/-- The block was never on the list. -/
structure Untouched (live : G.Block → Finset G.Reg) (safehash : G.Safehash) (b : G.Block) :
    Prop where
  live_eq : live b = ∅
  safehash_eq : ∀ n ∈ G.nodes b, safehash n = none
  succs_eq : ∀ c ∈ G.succs b, live c = ∅
  notMem_preds : b ∉ G.preds G.rootBlock

/-- The state of the inner loop. The blocks of `U` may still be untouched; only those of `V` are
ever on the list. -/
structure Draining (U V : G.Block → Prop) (live : G.Block → Finset G.Reg) (safehash : G.Safehash)
    (worklist : List G.Block) : Prop where
  sound : ∀ b, ∀ r ∈ live b, G.LiveInto b r
  rising : ∀ b, live b ⊆ top live b
  covered : ∀ b, b ∈ worklist ∨ U b ∧ Untouched live safehash b ∨ Settled live safehash b
  listed : ∀ b ∈ worklist, V b
  noted : ∀ b, ∀ n ∈ G.nodes b, safehash n ≠ none → V b

variable {live : G.Block → Finset G.Reg} {safehash : G.Safehash} {b c : G.Block}

/-- Nothing is taken from an empty worklist. -/
theorem rpop_eq_none {worklist : List G.Block} (h : G.rpop worklist = none) : worklist = [] := by
  cases worklist with
  | nil => rfl
  | cons b rest => cases h

/-- What is taken from the list, and what is left on it. -/
theorem mem_of_rpop {worklist rest : List G.Block} (h : G.rpop worklist = some (b, rest)) :
    worklist.length = rest.length + 1 ∧ ∀ c, c ∈ worklist ↔ c = b ∨ c ∈ rest := by
  cases worklist with
  | nil => cases h
  | cons a l =>
    obtain ⟨rfl, rfl⟩ := Prod.mk.inj (Option.some.inj h)
    obtain rfl | ⟨l, d, rfl⟩ := l.eq_nil_or_concat
    · exact ⟨rfl, fun c => List.mem_cons⟩
    · simp [or_comm]

/-- If what is live at the ends of the blocks is so by a path, then what the pass computes for the
starts is. -/
theorem top_sound (hsound : ∀ b, ∀ r ∈ live b, G.LiveInto b r) {r : G.Reg}
    (h : r ∈ top live b) : G.LiveInto b r := by
  refine liveIn_iff.2 ((mem_liveAbove.1 h).imp_right fun ⟨htrans, hr⟩ => ⟨htrans, ?_⟩)
  obtain ⟨c, hc, hr⟩ := mem_liveOut.1 hr
  exact ⟨c, hc, hsound c r hr⟩

/-- The walk up a block settles it. -/
theorem settled_walkUp (htop : top live b = live b) :
    Settled live (G.walkUp (G.nodes b) (G.liveOut live b, safehash)).2 b where
  top_eq := htop
  recorded := fun _ _ _ heq hn => walkUp_snd heq (nodup_nodes b) hn _

/-- The walk up a block tells nothing of the others. -/
theorem walkUp_of_mem_ne (hne : c ≠ b) (t : Finset G.Reg) (safehash : G.Safehash) :
    ∀ n ∈ G.nodes c, (G.walkUp (G.nodes b) (t, safehash)).2 n = safehash n :=
  fun _ hn => walkUp_snd_of_notMem (fun hb => hne (block_unique hn hb)) _

/-- A settled block stays so, while neither it nor its successors change. -/
theorem Settled.congr {live' : G.Block → Finset G.Reg} {safehash' : G.Safehash}
    (h : Settled live safehash c) (hlive : live' c = live c)
    (hsuccs : ∀ d ∈ G.succs c, live' d = live d)
    (hhash : ∀ n ∈ G.nodes c, safehash' n = safehash n) : Settled live' safehash' c := by
  have hout : G.liveOut live' c = G.liveOut live c := liveOut_congr hsuccs
  refine ⟨?_, fun pre n post heq hn => ?_⟩
  · rw [hlive, ← h.top_eq, top, top, hout]
  · have hmem : n ∈ G.nodes c := heq ▸ List.mem_append_right pre List.mem_cons_self
    rw [hhash n hmem, hout]
    exact h.recorded pre n post heq hn

/-- And so does an untouched one. -/
theorem Untouched.congr {live' : G.Block → Finset G.Reg} {safehash' : G.Safehash}
    (h : Untouched live safehash c) (hlive : live' c = live c)
    (hsuccs : ∀ d ∈ G.succs c, live' d = live d)
    (hhash : ∀ n ∈ G.nodes c, safehash' n = safehash n) : Untouched live' safehash' c where
  live_eq := hlive.trans h.live_eq
  safehash_eq := fun n hn => (hhash n hn).trans (h.safehash_eq n hn)
  succs_eq := fun d hd => (hsuccs d hd).trans (h.succs_eq d hd)
  notMem_preds := h.notMem_preds

section Step

variable {U V : G.Block → Prop} {worklist rest : List G.Block}

/-- The blocks on the worklist are ones that the pass may come to. -/
theorem Draining.listed_rest (h : Draining U V live safehash worklist)
    (hpop : G.rpop worklist = some (b, rest)) : V b ∧ ∀ c ∈ rest, V c :=
  ⟨h.listed b (((mem_of_rpop hpop).2 b).2 (.inl rfl)),
    fun c hc => h.listed c (((mem_of_rpop hpop).2 c).2 (.inr hc))⟩

/-- Live sets are recorded only in blocks that were visited. -/
theorem Draining.noted_walkUp (h : Draining U V live safehash worklist)
    (hpop : G.rpop worklist = some (b, rest)) (t : Finset G.Reg) (c : G.Block) (n : ℕ)
    (hn : n ∈ G.nodes c) (hnote : (G.walkUp (G.nodes b) (t, safehash)).2 n ≠ none) : V c := by
  obtain rfl | hne := eq_or_ne c b
  · exact (h.listed_rest hpop).1
  · rw [walkUp_of_mem_ne hne _ _ n hn] at hnote
    exact h.noted c n hn hnote

/-- A block that is as it was leaves the list. -/
theorem Draining.keep (h : Draining U V live safehash worklist)
    (hpop : G.rpop worklist = some (b, rest)) (htop : top live b = live b) :
    Draining U V live (G.walkUp (G.nodes b) (G.liveOut live b, safehash)).2 rest := by
  refine ⟨h.sound, h.rising, fun c => ?_, (h.listed_rest hpop).2, h.noted_walkUp hpop _⟩
  obtain rfl | hne := eq_or_ne c b
  · exact .inr (.inr (settled_walkUp htop))
  · have hhash := walkUp_of_mem_ne hne (G.liveOut live b) safehash
    obtain hc | ⟨hU, hc⟩ | hc := h.covered c
    · exact .inl ((((mem_of_rpop hpop).2 c).1 hc).resolve_left hne)
    · exact .inr (.inl ⟨hU, hc.congr rfl (fun _ _ => rfl) hhash⟩)
    · exact .inr (.inr (hc.congr rfl (fun _ _ => rfl) hhash))

/-- A block that grew leaves the list, and its predecessors are put on it. -/
theorem Draining.raise (hV : ∀ c, V c → ∀ b ∈ G.preds c, V b)
    (h : Draining U V live safehash worklist)
    (hpop : G.rpop worklist = some (b, rest)) :
    Draining U V (Function.update live b (top live b))
      (G.walkUp (G.nodes b) (G.liveOut live b, safehash)).2 (rest ++ G.preds b) := by
  have hle : ∀ c, live c ⊆ Function.update live b (top live b) c := by
    intro c
    obtain rfl | hne := eq_or_ne c b
    · rw [Function.update_self]
      exact h.rising c
    · rw [Function.update_of_ne hne]
  obtain ⟨hb, hrest⟩ := h.listed_rest hpop
  refine ⟨fun c r hr => ?_, fun c => ?_, fun c => ?_, fun c hc => ?_, h.noted_walkUp hpop _⟩
  · obtain rfl | hne := eq_or_ne c b
    · rw [Function.update_self] at hr
      exact top_sound h.sound hr
    · rw [Function.update_of_ne hne] at hr
      exact h.sound c r hr
  · obtain rfl | hne := eq_or_ne c b
    · rw [Function.update_self]
      exact top_mono hle c
    · rw [Function.update_of_ne hne]
      exact (h.rising c).trans (top_mono hle c)
  · by_cases hpred : c ∈ G.preds b
    · exact .inl (List.mem_append_right rest hpred)
    have hsuccs : ∀ d ∈ G.succs c, Function.update live b (top live b) d = live d := by
      intro d hd
      refine Function.update_of_ne (fun hdb => hpred ?_) ..
      exact (G.mem_preds c b).2 (hdb ▸ hd)
    obtain rfl | hne := eq_or_ne c b
    · have hout : G.liveOut (Function.update live c (top live c)) c = G.liveOut live c :=
        liveOut_congr hsuccs
      refine .inr (.inr ?_)
      rw [← hout]
      refine settled_walkUp ?_
      rw [Function.update_self, top, hout, top]
    · have hhash := walkUp_of_mem_ne hne (G.liveOut live b) safehash
      have hlive : Function.update live b (top live b) c = live c := Function.update_of_ne hne ..
      obtain hc | ⟨hU, hc⟩ | hc := h.covered c
      · exact .inl (List.mem_append_left _ ((((mem_of_rpop hpop).2 c).1 hc).resolve_left hne))
      · exact .inr (.inl ⟨hU, hc.congr hlive hsuccs hhash⟩)
      · exact .inr (.inr (hc.congr hlive hsuccs hhash))
  · exact (List.mem_append.1 hc).elim (hrest c) (hV b hb c)

/-- The inner loop empties the list. -/
theorem drain_eq (hV : ∀ c, V c → ∀ b ∈ G.preds c, V b)
    (h : Draining U V live safehash worklist) {fuel : ℕ}
    (hfuel : room live * (1 + ∑ b, (G.preds b).length) + worklist.length < fuel) :
    ∃ s, G.drain fuel (live, safehash) worklist = some s ∧ Draining U V s.1 s.2 [] := by
  induction fuel generalizing live safehash worklist with
  | zero => exact absurd hfuel (Nat.not_lt_zero _)
  | succ fuel ih =>
    rw [drain]
    cases hpop : G.rpop worklist with
    | none =>
      obtain rfl := rpop_eq_none hpop
      exact ⟨(live, safehash), rfl, h⟩
    | some p =>
      obtain ⟨b, rest⟩ := p
      have hlen : worklist.length = rest.length + 1 := (mem_of_rpop hpop).1
      have hfst : (G.walkUp (G.nodes b) (G.liveOut live b, safehash)).1 = top live b :=
        walkUp_fst ..
      dsimp only
      rw [hfst]
      split
      · next htop => exact ih (h.keep hpop htop) (by omega)
      · next htop =>
        refine ih (h.raise hV hpop) ?_
        have hroom := room_update_lt ((h.rising b).ssubset_of_ne (Ne.symm htop))
        have hmul := Nat.mul_le_mul_right (1 + ∑ b, (G.preds b).length) hroom
        have hpreds : (G.preds b).length ≤ ∑ b, (G.preds b).length :=
          Finset.single_le_sum (f := fun b => (G.preds b).length) (fun _ _ => Nat.zero_le _)
            (Finset.mem_univ b)
        rw [Nat.succ_mul] at hmul
        rw [List.length_append]
        omega

end Step

/-- The sets can grow by at most as many registers as there are blocks times registers. -/
theorem room_le (live : G.Block → Finset G.Reg) : room live ≤ (G.last + 2) * G.maxReg := by
  have hcard : ∀ b ∈ Finset.univ, ((live b)ᶜ).card ≤ G.maxReg := fun b _ =>
    (Finset.card_le_univ _).trans (Fintype.card_fin _).le
  have hsum := Finset.sum_le_card_nsmul Finset.univ _ _ hcard
  rw [Finset.card_univ, Fintype.card_fin] at hsum
  exact hsum

/-- The bound on the inner loop is enough. -/
theorem lt_drainFuel (live : G.Block → Finset G.Reg) (worklist : List G.Block) :
    room live * (1 + ∑ b, (G.preds b).length) + worklist.length < G.drainFuel worklist := by
  have h := Nat.mul_le_mul_right (1 + ∑ b, (G.preds b).length) (room_le live)
  rw [drainFuel]
  omega

/-! ## What the pass finds

The first time the list has the blocks that leave the method, the second time all. In a scheduled
method control gets from each block to the end or to a safepoint, so if no safepoint is missed,
every block was reached or leads to nothing but safepoints that were. -/

variable (G) in
/-- A way of control that does not leave the method. -/
def Flow (b c : G.Block) : Prop := c ∈ G.succs b ∧ c ≠ G.rootBlock

/-- Control can leave the method from the block. -/
def Leaves (b : G.Block) : Prop :=
  ∃ c ∈ G.preds G.rootBlock, Relation.ReflTransGen G.Flow b c

variable (G) in
/-- What the blocks of a control flow graph are like. -/
structure BlockGraph : Prop where
  /-- `Root` uses no register and is no safepoint -/
  root_nodes : ∀ n ∈ G.nodes G.rootBlock, G.gens n = ∅ ∧ (G.node n).jvms = none
  /-- nor is the head of a block -/
  head : ∀ b n ns, G.nodes b = n :: ns → (G.node n).jvms = none
  /-- from each block control can leave the method or get to a safepoint -/
  progress : ∀ b, b ≠ G.rootBlock → ∃ c, Relation.ReflTransGen G.Flow b c ∧
    (c ∈ G.preds G.rootBlock ∨ ∃ n ∈ G.nodes c, (G.node n).jvms.isSome)

variable (G) in
/-- Only the root leads to the block, as to that of the entry. -/
def AtEntry (b : G.Block) : Prop := ∀ a, b ∈ G.succs a → a = G.rootBlock

variable (G) in
/-- The register is live into all blocks that control can leave the method from, but at the
entry. -/
def LiveToExit (r : G.Reg) : Prop :=
  ∀ b, b ≠ G.rootBlock → Leaves b → G.LiveInto b r ∨ G.AtEntry b

variable (G) in
/-- The register is used in the blocks that leave the method, before it is set there. -/
def UsedAtExit (r : G.Reg) : Prop :=
  ∀ b ∈ G.preds G.rootBlock, b ≠ G.rootBlock →
    Exposed G.kills G.gens (G.nodes b) r ∨ G.AtEntry b

/-- The predecessors of a block that leads to the end of the method lead there as well. -/
theorem leaves_pred (c : G.Block) (hc : c = G.rootBlock ∨ Leaves c) (b : G.Block)
    (hb : b ∈ G.preds c) : b = G.rootBlock ∨ Leaves b := by
  by_cases hroot : c = G.rootBlock
  · exact .inr ⟨b, hroot ▸ hb, .refl⟩
  · obtain ⟨e, he, hpath⟩ := hc.resolve_left hroot
    exact .inr ⟨e, he, .head ⟨(G.mem_preds b c).1 hb, hroot⟩ hpath⟩

/-- At first no block was touched, and those that leave the method are on the list. -/
theorem Draining.start : Draining (fun _ => True) (fun b => b = G.rootBlock ∨ Leaves b)
    (fun _ => ∅) (fun _ => none) (G.preds G.rootBlock) where
  sound := fun _ _ hr => absurd hr (Finset.notMem_empty _)
  rising := fun _ => Finset.empty_subset _
  covered := fun b => by
    by_cases hb : b ∈ G.preds G.rootBlock
    · exact .inl hb
    · exact .inr (.inl ⟨trivial, rfl, fun _ _ => rfl, fun _ _ => rfl, hb⟩)
  listed := fun b hb => .inr ⟨b, hb, .refl⟩
  noted := fun _ _ _ h => absurd rfl h

/-- The blocks that are put on the worklist at the start. -/
theorem mem_otherBlocks : b ∈ G.otherBlocks ↔ b ≠ G.rootBlock := by
  rw [otherBlocks, List.finRange_succ, List.tail_cons, List.mem_map]
  constructor
  · rintro ⟨j, -, rfl⟩
    exact Fin.succ_ne_zero j
  · intro hb
    obtain ⟨j, rfl⟩ := Fin.exists_succ_eq.2 hb
    exact ⟨j, List.mem_finRange j, rfl⟩

/-- The blocks are all put on the list. -/
theorem Draining.restart {U V : G.Block → Prop} (h : Draining U V live safehash []) :
    Draining (· = G.rootBlock) (fun _ => True) live safehash G.otherBlocks where
  sound := h.sound
  rising := h.rising
  covered := fun b => by
    by_cases hb : b = G.rootBlock
    · obtain hmem | ⟨-, hb'⟩ | hb' := h.covered b
      · exact absurd hmem List.not_mem_nil
      · exact .inr (.inl ⟨hb, hb'⟩)
      · exact .inr (.inr hb')
    · exact .inl (mem_otherBlocks.2 hb)
  listed := fun _ _ => trivial
  noted := fun _ _ _ _ => trivial

/-- What the pass leaves when it ends. -/
structure Ended (live : G.Block → Finset G.Reg) (safehash : G.Safehash) : Prop where
  sound : ∀ b, ∀ r ∈ live b, G.LiveInto b r
  settled : ∀ b, b ≠ G.rootBlock → Settled live safehash b
  root_eq : live G.rootBlock = top live G.rootBlock

variable {r : G.Reg}

/-- Along a way out of the method the blocks are settled, and the register is live into them. -/
theorem settled_of_path {V : G.Block → Prop} (h : Draining (fun _ => True) V live safehash [])
    (hexit : G.LiveToExit r) (huse : G.UsedAtExit r) {e : G.Block} (he : e ∈ G.preds G.rootBlock)
    (hpath : Relation.ReflTransGen G.Flow b e) (hb : b ≠ G.rootBlock) :
    Settled live safehash b ∧ (r ∈ live b ∨ G.AtEntry b) := by
  have hsettled : ∀ c, ¬ Untouched live safehash c → Settled live safehash c := fun c hc =>
    ((h.covered c).resolve_left List.not_mem_nil).resolve_left fun hU => hc hU.2
  induction hpath using Relation.ReflTransGen.head_induction_on with
  | refl =>
    have hset := hsettled e fun hU => hU.notMem_preds he
    refine ⟨hset, (huse e he hb).imp_left fun hexp => ?_⟩
    rw [← hset.top_eq]
    exact mem_liveAbove.2 (.inl hexp)
  | head hstep hpath ih =>
    rename_i b c
    obtain ⟨-, hc⟩ := ih hstep.2
    have hc : r ∈ live c := hc.resolve_right fun honly => hb (honly b hstep.1)
    have hset := hsettled b fun hU =>
      absurd hc (hU.succs_eq c hstep.1 ▸ Finset.notMem_empty r)
    refine ⟨hset, (hexit b hb ⟨e, he, .head hstep hpath⟩).imp_left fun hlive => ?_⟩
    rw [← hset.top_eq]
    obtain hexp | ⟨htrans, -⟩ := liveIn_iff.1 hlive
    · exact mem_liveAbove.2 (.inl hexp)
    · exact mem_liveAbove.2 (.inr ⟨htrans, mem_liveOut.2 ⟨c, hstep.1, hc⟩⟩)

/-- What is live at a safepoint of a settled block is recorded. -/
theorem Settled.liveAt (h : Settled live safehash b) (hiff : ∀ b r, r ∈ live b ↔ G.LiveInto b r)
    {n : ℕ} (hn : n ∈ G.nodes b) (hjvms : (G.node n).jvms.isSome) :
    ∃ s, safehash n = some s ∧ ∀ r, r ∈ s ↔ G.LiveAt n r := by
  obtain ⟨pre, post, hsplit⟩ := List.append_of_mem hn
  refine ⟨_, h.recorded pre n post hsplit hjvms, fun r => ?_⟩
  have hout : r ∈ G.liveOut live b ↔ ∃ c ∈ G.succs b, G.LiveInto c r :=
    mem_liveOut.trans (exists_congr fun c => and_congr_right fun _ => hiff c r)
  rw [mem_liveAbove, hout]
  constructor
  · exact fun h => ⟨b, pre, post, hsplit, h⟩
  · rintro ⟨c, pre', post', hsplit', h⟩
    obtain rfl : b = c := block_unique hn (hsplit' ▸ List.mem_append_right pre' List.mem_cons_self)
    obtain rfl : post' = post := (split_unique (nodup_nodes b) hsplit' hsplit).2
    exact h

section Ends

variable (hG : G.BlockGraph)
include hG

/-- The root block has no uses, so nothing is live in it until something is live below it. -/
theorem top_root (h : G.liveOut live G.rootBlock = ∅) : top live G.rootBlock = ∅ := by
  refine Finset.eq_empty_of_forall_notMem fun r hr => ?_
  rw [top, h] at hr
  obtain ⟨pre, n, post, heq, hn, -⟩ | ⟨-, hr⟩ := mem_liveAbove.1 hr
  · rw [(hG.root_nodes n (heq ▸ List.mem_append_right pre List.mem_cons_self)).1] at hn
    exact Finset.notMem_empty r hn
  · exact Finset.notMem_empty r hr

theorem Untouched.top_root (h : Untouched live safehash G.rootBlock) :
    live G.rootBlock = top live G.rootBlock := by
  refine h.live_eq.trans (FlowGraph.top_root hG ?_).symm
  refine Finset.eq_empty_of_forall_notMem fun r hr => ?_
  obtain ⟨c, hc, hr⟩ := mem_liveOut.1 hr
  rw [h.succs_eq c hc] at hr
  exact Finset.notMem_empty r hr

/-- A safepoint is missed only in a block that control cannot leave the method from. -/
theorem leaves_of_not_missed {U : G.Block → Prop}
    (h : Draining U (fun b => b = G.rootBlock ∨ Leaves b) live safehash [])
    (hmissed : G.missed safehash = false) (hb : b ≠ G.rootBlock) : Leaves b := by
  obtain ⟨c, hpath, hc⟩ := hG.progress b hb
  suffices hleaves : Leaves c by
    obtain ⟨e, he, hpath'⟩ := hleaves
    exact ⟨e, he, hpath.trans hpath'⟩
  obtain hc | ⟨n, hn, hjvms⟩ := hc
  · exact ⟨c, hc, .refl⟩
  have hroot : c ≠ G.rootBlock := by
    intro hroot
    rw [(hG.root_nodes n (hroot ▸ hn)).2] at hjvms
    exact absurd hjvms Bool.false_ne_true
  refine (h.noted c n hn fun hnone => ?_).resolve_left hroot
  have htail : n ∈ (G.nodes c).tail := by
    cases heq : G.nodes c with
    | nil => exact absurd (heq ▸ hn) List.not_mem_nil
    | cons m ns =>
      rw [heq] at hn
      obtain rfl | hn := List.mem_cons.1 hn
      · rw [hG.head c n ns heq] at hjvms
        exact absurd hjvms Bool.false_ne_true
      · exact hn
  have hall := List.any_eq_false.1 hmissed c (mem_otherBlocks.2 hroot)
  refine hall (List.any_eq_true.2 ⟨n, htail, ?_⟩)
  rw [hjvms, hnone]
  rfl

/-- At the end the root block was left alone or is settled, and agrees with its successors. -/
theorem Draining.root_eq {U V : G.Block → Prop} (h : Draining U V live safehash []) :
    live G.rootBlock = top live G.rootBlock := by
  obtain hmem | ⟨-, huntouched⟩ | hset := h.covered G.rootBlock
  · exact absurd hmem List.not_mem_nil
  · exact huntouched.top_root hG
  · exact hset.top_eq.symm

/-- The first round is the last if no safepoint is missed. -/
theorem Draining.ended
    (h : Draining (fun _ => True) (fun b => b = G.rootBlock ∨ Leaves b) live safehash [])
    (hexit : G.LiveToExit r) (huse : G.UsedAtExit r) (hmissed : G.missed safehash = false) :
    Ended live safehash where
  sound := h.sound
  settled b hb := by
    obtain ⟨e, he, hpath⟩ := leaves_of_not_missed hG h hmissed hb
    exact (settled_of_path h hexit huse he hpath hb).1
  root_eq := h.root_eq hG

/-- The second round is the last, since every block was on the list. -/
theorem Draining.ended_restart (h : Draining (· = G.rootBlock) (fun _ => True) live safehash []) :
    Ended live safehash where
  sound := h.sound
  settled b hb :=
    ((h.covered b).resolve_left List.not_mem_nil).resolve_left fun huntouched => hb huntouched.1
  root_eq := h.root_eq hG

end Ends

variable (G) in
/-- What the blocks of a scheduled method are like. -/
structure Scheduled : Prop where
  entry_preds : ∀ b, G.entryBlock ∈ G.succs b → b = G.rootBlock
  root_succs : ∀ c ∈ G.succs G.rootBlock, c = G.entryBlock
  /-- `Root` uses no register and is no safepoint -/
  root_nodes : ∀ n ∈ G.nodes G.rootBlock, G.gens n = ∅ ∧ (G.node n).jvms = none
  /-- nor is the head of a block -/
  head : ∀ b n ns, G.nodes b = n :: ns → (G.node n).jvms = none
  reachable : ∀ b, b ≠ G.rootBlock → Relation.ReflTransGen G.Flow G.entryBlock b
  /-- the frame pointer is set at the entry, and used by all that leaves the method -/
  framePtr : ∃ fp, ∀ b, b ≠ G.rootBlock → b ≠ G.entryBlock → Transparent G.kills (G.nodes b) fp ∧
    (b ∈ G.preds G.rootBlock → Exposed G.kills G.gens (G.nodes b) fp)
  /-- from each block control can leave the method or get to a safepoint -/
  progress : ∀ b, b ≠ G.rootBlock → ∃ c, Relation.ReflTransGen G.Flow b c ∧
    (c ∈ G.preds G.rootBlock ∨ ∃ n ∈ G.nodes c, (G.node n).jvms.isSome)

namespace Scheduled

variable (hG : G.Scheduled)
include hG

/-- The blocks of a scheduled method are those of a control flow graph. -/
theorem blockGraph : G.BlockGraph := ⟨hG.root_nodes, hG.head, hG.progress⟩

/-- The frame pointer is a register that is live to the exit and used there. -/
theorem exists_liveToExit : ∃ r, G.LiveToExit r ∧ G.UsedAtExit r := by
  obtain ⟨fp, hfp⟩ := hG.framePtr
  have hentry : G.AtEntry G.entryBlock := hG.entry_preds
  refine ⟨fp, ?_, ?_⟩
  · rintro b hb ⟨e, he, hpath⟩
    induction hpath using Relation.ReflTransGen.head_induction_on with
    | refl =>
      by_cases hne : e = G.entryBlock
      · exact .inr (hne ▸ hentry)
      · exact .inl (.exposed ((hfp e hb hne).2 he))
    | @head b c hstep _ ih =>
      by_cases hne : b = G.entryBlock
      · exact .inr (hne ▸ hentry)
      · obtain hlive | honly := ih hstep.2
        · exact .inl (.through (hfp b hb hne).1 hstep.1 hlive)
        · exact absurd (honly b hstep.1) hb
  · intro b he hb
    by_cases hne : b = G.entryBlock
    · exact .inr (hne ▸ hentry)
    · exact .inl ((hfp b hb hne).2 he)

end Scheduled

section Result

variable (hG : G.Scheduled)
include hG

/-- The pass ends, and then all blocks are settled. -/
theorem doLiveness_eq : ∃ live safehash, G.doLiveness = some safehash ∧ Ended live safehash := by
  obtain ⟨⟨live, safehash⟩, heq, h⟩ := drain_eq leaves_pred (Draining.start (G := G))
    (lt_drainFuel _ _)
  obtain ⟨fp, hexit, huse⟩ := hG.exists_liveToExit
  rw [doLiveness, heq]
  dsimp only
  split
  · obtain ⟨⟨live', safehash'⟩, heq', h'⟩ := drain_eq (fun _ _ _ _ => trivial) h.restart
      (lt_drainFuel _ _)
    rw [heq']
    exact ⟨live', safehash', rfl, h'.ended_restart hG.blockGraph⟩
  · next hmissed =>
    exact ⟨live, safehash, rfl,
      h.ended hG.blockGraph hexit huse (Bool.not_eq_true _ ▸ hmissed)⟩

/-- What the pass finds at a safepoint is what is live there. -/
theorem mem_safehash_iff (hentry : ∀ r, ¬ G.LiveInto G.entryBlock r) :
    ∃ safehash, G.doLiveness = some safehash ∧
      ∀ b, ∀ n ∈ G.nodes b, b ≠ G.rootBlock → (G.node n).jvms.isSome →
        ∃ live, safehash n = some live ∧ ∀ r, r ∈ live ↔ G.LiveAt n r := by
  obtain ⟨live, safehash, heq, h⟩ := doLiveness_eq hG
  have hnotRoot : ∀ b r, G.LiveInto b r → b ≠ G.rootBlock := by
    rintro b r hlive rfl
    cases hlive with
    | exposed h =>
      obtain ⟨pre, n, post, heq, hn, -⟩ := h
      have hmem : n ∈ G.nodes G.rootBlock := heq ▸ List.mem_append_right pre List.mem_cons_self
      rw [(hG.root_nodes n hmem).1] at hn
      exact absurd hn (Finset.notMem_empty r)
    | through h hc hlive =>
      obtain rfl := hG.root_succs _ hc
      exact hentry r hlive
  have hcomplete : ∀ b r, G.LiveInto b r → r ∈ live b := by
    intro b r hlive
    have hb := hnotRoot b r hlive
    induction hlive with
    | exposed hexp =>
      rw [← (h.settled _ hb).top_eq]
      exact mem_liveAbove.2 (.inl hexp)
    | through htrans hc hlive ih =>
      rw [← (h.settled _ hb).top_eq]
      exact mem_liveAbove.2 (.inr ⟨htrans, mem_liveOut.2 ⟨_, hc, ih (hnotRoot _ _ hlive)⟩⟩)
  have hiff : ∀ b r, r ∈ live b ↔ G.LiveInto b r := fun b r => ⟨h.sound b r, hcomplete b r⟩
  exact ⟨safehash, heq, fun b n hn hb hjvms => (h.settled b hb).liveAt hiff hn hjvms⟩

end Result

end FlowGraph
end StackAllocation
