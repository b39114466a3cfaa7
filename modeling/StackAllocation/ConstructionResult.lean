import StackAllocation.ConstructionCalls

/-!
# The constructed graph

What the first step of `compute_escape` hands to the second one: a graph that is well formed, whose
nodes are on the worklists, arraycopies apart, in which every ideal node has been recorded
(`constructGraph_spec`). It is one that completion starts from (`constructGraph_constructed`).
-/

namespace StackAllocation

/-! ## The worklists

`compute_escape` fills three lists while it goes through the ideal nodes: all nodes of the
connection graph, the Java objects, and the candidates for not escaping. The list of fields of oops
comes from the same pass. The arraycopies of stubs are made later and are on none of them. -/

/-- The worklists have the nodes of the graph, as far as `P` goes. -/
structure Collects (P : ℕ → Prop) (c : Construction) (w : Collected) : Prop where
  ptnodes_node : ∀ {p}, p ∈ w.ptnodes → c.node p = some p
  ptnodes : ∀ {p}, c.node p = some p → P p → p ∈ w.ptnodes
  javaObjects_type : ∀ {p}, p ∈ w.javaObjects → (c.graph p).type = .javaObject
  javaObjects : ∀ {p}, (c.graph p).type = .javaObject → P p → p ∈ w.javaObjects
  oopFields_field : ∀ {p}, p ∈ w.oopFields → OopField c.graph p
  oopFields : ∀ {p}, OopField c.graph p → P p → p ∈ w.oopFields
  nonEscaped_candidate : ∀ {p}, p ∈ w.nonEscaped → EscapeCandidate c.graph p
  nonEscaped : ∀ {p}, EscapeCandidate c.graph p → (c.graph p).escapeState ≠ .globalEscape → P p →
    p ∈ w.nonEscaped

/-- What the loop over the ideal nodes keeps. -/
structure FirstPhase (G : IdealNodes) (P : ℕ → Prop) (s : Construction × Collected) : Prop where
  built : Built G s.1
  collects : Collects P s.1 s.2
  noted : ∀ {n}, n ∈ s.1.delayed → Noted G s.1 n
  nodup : s.1.delayed.Nodup
  /-- arraycopies are added later -/
  stub : ∀ {n}, (G.kind n).isStub = true → s.1.node n = none
  recorded : ∀ {n}, s.1.node n ≠ none →
    G.Reserved n ∨ Recorded G s.1 n ∨ n ∈ s.1.delayed

section

variable {G : IdealNodes} {c c' : Construction} {n : ℕ}

/-- The worklists have the nodes that are asked for, if they have more. -/
theorem Collects.mono {P Q : ℕ → Prop} {w : Collected} (h : Collects P c w) (hc : Built G c)
    (hPQ : ∀ p, c.node p = some p → Q p → P p) : Collects Q c w where
  ptnodes_node := h.ptnodes_node
  ptnodes hp hq := h.ptnodes hp (hPQ _ hp hq)
  javaObjects_type := h.javaObjects_type
  javaObjects hp hq := by
    refine h.javaObjects hp (hPQ _ (hc.node_of_type ?_) hq)
    rw [hp]
    decide
  oopFields_field := h.oopFields_field
  oopFields hp hq := by
    refine h.oopFields hp (hPQ _ (hc.node_of_type ?_) hq)
    rw [hp.1]
    decide
  nonEscaped_candidate := h.nonEscaped_candidate
  nonEscaped hp hes hq := by
    refine h.nonEscaped hp hes (hPQ _ (hc.node_of_type ?_) hq)
    rw [hp.1]
    decide

/-! ## The start

Two objects are there from the beginning: the phantom object, which stands for everything unknown,
and null. A narrow null shares the node of null. -/

/-- The two predefined objects. -/
def startNodes : Nodes := fun n =>
  if n = phantomObj then javaObjectNode .other .globalEscape true
  else if n = nullObj then javaObjectNode .nullConP .noEscape true
  else outside

/-- At the start there are two nodes. -/
theorem startNodes_of_le {n : ℕ} (hn : 2 ≤ n) : startNodes n = outside := by
  have hphantom : n ≠ phantomObj := by
    rintro rfl
    exact absurd hn (by decide)
  have hnull : n ≠ nullObj := by
    rintro rfl
    exact absurd hn (by decide)
  rw [startNodes, if_neg hphantom, if_neg hnull]

/-- The graph with these is well formed. -/
theorem startNodes_wellFormed : WellFormed startNodes :=
  wellFormed_of_lt (k := 2) (fun _ => startNodes_of_le) (by decide) (by decide) (by decide)
    (by decide)

/-- The unknown object and null are all that ideal nodes refer to then; a narrow null refers to null
as well. -/
theorem start_node {i p : ℕ} (h : (Construction.start G).node i = some p) :
    i = p ∧ (p = phantomObj ∨ p = nullObj) ∨ p = nullObj ∧ G.narrowNull = some i := by
  simp only [Construction.start] at h
  split at h
  · next hi => exact .inl ⟨hi.trans (Option.some.inj h), .inl (Option.some.inj h).symm⟩
  split at h
  · next hi =>
    obtain rfl := Option.some.inj h
    exact hi.imp (fun hi => ⟨hi, .inr rfl⟩) fun hi => ⟨rfl, hi⟩
  · cases h

/-- The nodes of the start. -/
theorem startNodes_cases (n : ℕ) : startNodes n = javaObjectNode .other .globalEscape true ∨
    startNodes n = javaObjectNode .nullConP .noEscape true ∨ startNodes n = outside := by
  unfold startNodes
  split
  · exact .inl rfl
  split
  · exact .inr (.inl rfl)
  · exact .inr (.inr rfl)

/-- The invariant of the construction holds at the start. -/
theorem start_built (G : IdealNodes) : Built G (Construction.start G) := by
  have hphantom : (Construction.start G).node phantomObj = some phantomObj := by
    simp [Construction.start]
  have hnull : (Construction.start G).node nullObj = some nullObj := by
    simp [Construction.start, phantomObj_ne_nullObj.symm]
  have hself : ∀ {n}, (Construction.start G).node n = some n → n = phantomObj ∨ n = nullObj :=
    fun hn => (start_node hn).elim And.right fun h => .inr h.1
  have hedges : ∀ n, (startNodes n).edges = [] ∧ (startNodes n).bases = [] := by
    intro n
    obtain h | h | h := startNodes_cases n <;> rw [h] <;> exact ⟨rfl, rfl⟩
  refine ⟨startNodes_wellFormed, hphantom, hnull, fun {i p} hp => ?_, fun {i p} hp => ?_,
    fun {n} hn hnp hnn => ?_, fun {n} hn => ?_, fun {n e} _ he => ?_, fun {n} hn => ?_, fun n => ?_⟩
  · obtain ⟨-, rfl | rfl⟩ | ⟨rfl, -⟩ := start_node hp
    · exact hphantom
    · exact hnull
    · exact hnull
  · obtain ⟨hip, -⟩ | hnarrow := start_node hp
    · exact .inl hip.symm
    · exact .inr (.inl hnarrow)
  · exact (hself hn).elim (fun h => absurd h hnp) fun h => absurd h hnn
  · refine ⟨?_, fun k => ?_⟩
    · have hnp : n ≠ phantomObj := fun h => hn (h ▸ hphantom)
      have hnn : n ≠ nullObj := fun h => hn (h ▸ hnull)
      exact (if_neg hnp).trans (if_neg hnn)
    · change n ∉ (startNodes k).edges ∧ n ∉ (startNodes k).bases
      rw [(hedges k).1, (hedges k).2]
      exact ⟨List.not_mem_nil, List.not_mem_nil⟩
  · change e ∈ (startNodes n).edges at he
    rw [(hedges n).1] at he
    exact absurd he List.not_mem_nil
  · change (startNodes n).type = .arraycopy at hn
    obtain h | h | h := startNodes_cases n <;> rw [h] at hn <;> cases hn
  · change EscapeState.noEscape.toNat ≤ (startNodes n).escapeState.toNat
    obtain h | h | h := startNodes_cases n <;> rw [h] <;> decide

/-- So does that of the first iteration, with the unknown object on its worklists. -/
theorem start_firstPhase (hT : G.Typed) : FirstPhase G (fun p => p ≠ nullObj)
    (Construction.start G, ⟨[phantomObj], [phantomObj], [], []⟩) := by
  have hbuilt := start_built G
  have hreserved : ∀ {n}, (Construction.start G).node n ≠ none → G.Reserved n := by
    intro n hn
    obtain ⟨p, hp⟩ := Option.ne_none_iff_exists'.1 hn
    obtain ⟨rfl, h | h⟩ | ⟨-, h⟩ := start_node hp
    · exact .inl h
    · exact .inr (.inl h)
    · exact .inr (.inr h)
  have hnodes : ∀ {p}, (startNodes p).type ≠ .localVar → p ≠ nullObj → p = phantomObj := by
    intro p hp hnull
    have hreg := hbuilt.node_of_type hp
    exact ((start_node hreg).elim (fun h => h.2) fun h => .inr h.1).resolve_right hnull
  refine ⟨hbuilt, ⟨fun {p} hp => ?_, fun {p} hp hnull => ?_, fun {p} hp => ?_,
    fun {p} hp hnull => ?_,
    fun hp => absurd hp List.not_mem_nil, fun {p} hp _ => ?_, fun hp => absurd hp List.not_mem_nil,
    fun {p} hp _ _ => ?_⟩, fun hn => absurd hn List.not_mem_nil, List.nodup_nil, fun {n} hn => ?_,
    fun hn => .inl (hreserved hn)⟩
  · rw [List.mem_singleton.1 hp]
    exact hbuilt.phantom
  · exact List.mem_singleton.2 (((start_node hp).elim (fun h => h.2) fun h =>
      .inr h.1).resolve_right hnull)
  · rw [List.mem_singleton.1 hp]
    exact hbuilt.wellFormed.phantom_type
  · refine List.mem_singleton.2 (hnodes ?_ hnull)
    change (startNodes p).type = .javaObject at hp
    rw [hp]
    decide
  · obtain ⟨hty, -⟩ : (startNodes p).type = .field ∧ _ := hp
    obtain h | h | h := startNodes_cases p <;> rw [h] at hty <;> cases hty
  · obtain ⟨-, hideal⟩ : _ ∧ ((startNodes p).ideal = .allocate ∨ _) := hp
    change (startNodes p).ideal = .allocate ∨ (startNodes p).ideal = .callStaticJava at hideal
    obtain h | h | h := startNodes_cases p <;> rw [h] at hideal <;> obtain hi | hi := hideal <;>
      cases hi
  · by_contra hnode
    have hother := hT.reserved (hreserved hnode)
    rw [hother] at hn
    cases hn

/-! ## The loop over the ideal nodes

The invariant says for each ideal node below the index that it is noted and that its node is on the
lists it belongs to, and for the others that they are not made. -/

/-- The first iteration is through with the ideal node. -/
def FirstThrough (G : IdealNodes) (n : ℕ) (c : Construction) : Prop :=
  G.Reserved n ∨ Noted G c n ∧ (Recorded G c n ∨ n ∈ c.delayed)

/-- The nodes that were gone through stay so. -/
theorem FirstThrough.grows (h : FirstThrough G n c) (hgrows : Grows c c')
    (hdelayed : c.delayed ⊆ c'.delayed) : FirstThrough G n c' := by
  obtain hres | ⟨hnoted, hdone⟩ := h
  · exact .inl hres
  · exact .inr ⟨hgrows.noted hnoted, hdone.imp hgrows.recorded fun hn => hdelayed hn⟩

/-- An operation that escape analysis does not know makes no node. -/
theorem IdealOp.made_of_unknown {op : IdealOp} (h : op.isUnknown = true) : op.made = none := by
  unfold IdealOp.isUnknown at h
  split at h
  · rfl
  · rfl
  · cases h

/-- An ideal node that has a node has the right one. -/
theorem Built.noted_of_some (h : Built G c) (hn : c.node n ≠ none) (hres : ¬ G.Reserved n) :
    Noted G c n := by
  obtain ⟨p, hp⟩ := Option.ne_none_iff_exists'.1 hn
  obtain rfl | ⟨-, hnarrow⟩ | ⟨rfl, hunknown⟩ := h.mapped hp
  · obtain ⟨m, hm, -⟩ := h.made hp (fun heq => hres (.inl heq)) fun heq => hres (.inr (.inl heq))
    refine ⟨fun _ _ _ => hp, fun hunknown => ?_⟩
    rw [IdealOp.made_of_unknown hunknown] at hm
    cases hm
  · exact absurd (.inr (.inr hnarrow)) hres
  · refine ⟨fun m hm _ => ?_, fun _ => hp⟩
    rw [IdealOp.made_of_unknown hunknown] at hm
    cases hm

/-- The worklists lack at most the node that is made. -/
theorem Collects.nodesKept {P : ℕ → Prop} {w : Collected} (h : Collects P c w) (hc : Built G c)
    (hn : c.node n = none) (hgrows : Grows c c') (hkept : NodesKept n false c c') :
    Collects (fun p => P p ∧ p ≠ n) c' w := by
  have hne : ∀ {p}, (c.graph p).type ≠ .localVar → p ≠ n := by
    rintro p hp rfl
    have hnode := hc.node_of_type hp
    rw [hn] at hnode
    cases hnode
  have hsame := fun {p : ℕ} (hp : p ≠ n) => hkept.same (m := p) (.inl hp)
  exact {
    ptnodes_node := fun hp => hgrows.node (h.ptnodes_node hp)
    ptnodes := fun hp hP => h.ptnodes ((hkept.node (.inl hP.2)).symm.trans hp) hP.1
    javaObjects_type := fun {p} hp => by
      have hty := h.javaObjects_type hp
      have hpn := hne (p := p) (by rw [hty]; decide)
      exact (hsame hpn).1.trans hty
    javaObjects := fun hp hP => h.javaObjects ((hsame hP.2).1.symm.trans hp) hP.1
    oopFields_field := fun {p} hp => by
      obtain ⟨hty, hoop⟩ := h.oopFields_field hp
      have hpn := hne (p := p) (by rw [hty]; decide)
      exact ⟨(hsame hpn).1.trans hty, (hsame hpn).2.2.trans hoop⟩
    oopFields := fun {p} hp hP => by
      obtain ⟨hty, hoop⟩ := hp
      exact h.oopFields ⟨(hsame hP.2).1.symm.trans hty, (hsame hP.2).2.2.symm.trans hoop⟩ hP.1
    nonEscaped_candidate := fun {p} hp => by
      obtain ⟨hty, hideal⟩ := h.nonEscaped_candidate hp
      have hpn := hne (p := p) (by rw [hty]; decide)
      refine ⟨(hsame hpn).1.trans hty, ?_⟩
      rw [(hsame hpn).2.1]
      exact hideal
    nonEscaped := fun {p} hp hes hP => by
      obtain ⟨hty, hideal⟩ := hp
      rw [(hsame hP.2).2.1] at hideal
      rw [hkept.escapeState rfl (.inl hP.2)] at hes
      exact h.nonEscaped ⟨(hsame hP.2).1.symm.trans hty, hideal⟩ hes hP.1 }

/-- A stub has no node after the first iteration. -/
theorem Construction.addIdealNode_stub (hn : c.node n = none) (hk : (G.kind n).isStub = true) :
    (c.addIdealNode n G).node n = none := by
  cases hop : G.kind n with
  | stub =>
    rw [Construction.addIdealNode, hn, hop]
    simpa using hn
  | _ =>
    rw [hop] at hk
    cases hk

/-- An ideal node, before the worklists. -/
theorem FirstPhase.addIdealNode {P : ℕ → Prop} {w : Collected} (h : FirstPhase G P (c, w))
    (hT : G.Typed) (n : ℕ) :
    FirstPhase G (fun p => P p ∧ (c.node n = none → p ≠ n)) (c.addIdealNode n G, w) ∧
      FirstThrough G n (c.addIdealNode n G) ∧
      Grows c (c.addIdealNode n G) ∧ c.delayed ⊆ (c.addIdealNode n G).delayed := by
  by_cases hn : c.node n = none
  swap
  · have hsame : c.addIdealNode n G = c := by
      obtain ⟨p, hp⟩ := Option.ne_none_iff_exists'.1 hn
      rw [Construction.addIdealNode, hp]
    rw [hsame]
    refine ⟨⟨h.built, h.collects.mono h.built fun _ _ hp => hp.1, h.noted, h.nodup, h.stub,
      h.recorded⟩, ?_, Grows.refl c, List.Subset.refl _⟩
    by_cases hres : G.Reserved n
    · exact .inl hres
    · exact .inr ⟨h.built.noted_of_some hn hres, (h.recorded hn).resolve_left hres⟩
  obtain ⟨hrun, hnoted, hdone⟩ := h.built.addIdealNode hT hn
  obtain ⟨hbuilt, hgrows⟩ := h.built.changes hrun
  have hkept := h.built.changes_kept hrun
  have hstub := Construction.addIdealNode_stub (G := G) hn
  generalize c.addIdealNode n G = c' at *
  have hcollects : Collects (fun p => P p ∧ (c.node n = none → p ≠ n)) c' w :=
    (h.collects.nodesKept h.built hn hgrows hkept).mono hbuilt fun _ _ hp => ⟨hp.1, hp.2 hn⟩
  refine ⟨⟨hbuilt, hcollects, fun {m} hm => ?_, hkept.nodup h.nodup, fun {m} hm => ?_,
    fun {m} hm => ?_⟩, .inr ⟨hnoted, hdone⟩, hgrows, hkept.delays⟩
  · obtain hm | ⟨-, rfl⟩ := hkept.delayed hm
    · exact hgrows.noted (h.noted hm)
    · exact hnoted
  · by_cases hmn : m = n
    · subst hmn
      exact hstub hm
    · rw [hkept.node (.inl hmn)]
      exact h.stub hm
  · by_cases hmn : m = n
    · subst hmn
      exact .inr hdone
    · rw [hkept.node (.inl hmn)] at hm
      exact (h.recorded hm).imp id fun hm => hm.imp hgrows.recorded fun hm => hkept.delays hm

/-- The invariant for fewer of the nodes. -/
theorem FirstPhase.mono {P Q : ℕ → Prop} {w : Collected} (h : FirstPhase G P (c, w))
    (hPQ : ∀ p, c.node p = some p → Q p → P p) : FirstPhase G Q (c, w) :=
  ⟨h.built, h.collects.mono h.built hPQ, h.noted, h.nodup, h.stub, h.recorded⟩

/-- What the loop records of a node. -/
def record (G : IdealNodes) (c : Construction) (n ptn : ℕ) (w : Collected) : Collected where
  ptnodes := w.ptnodes ++ [ptn]
  javaObjects := if (c.graph ptn).type = .javaObject then w.javaObjects ++ [ptn] else w.javaObjects
  nonEscaped :=
    if (c.graph ptn).type = .javaObject ∧ (G.kind n).isCandidate = true ∧
      (c.graph ptn).escapeState.toNat < EscapeState.globalEscape.toNat then w.nonEscaped ++ [ptn]
    else w.nonEscaped
  oopFields :=
    if (c.graph ptn).type = .field ∧ (c.graph ptn).isOop = true then w.oopFields ++ [ptn]
    else w.oopFields

/-- One ideal node: its node is made, and put on the worklists that it belongs to. -/
theorem collectNode_eq (s : Construction × Collected) : collectNode G s n =
    match (s.1.addIdealNode n G).node n with
    | none => (s.1.addIdealNode n G, s.2)
    | some ptn =>
      if ptn = phantomObj then (s.1.addIdealNode n G, s.2)
      else (s.1.addIdealNode n G, record G (s.1.addIdealNode n G) n ptn s.2) := by
  unfold collectNode
  simp only
  cases (s.1.addIdealNode n G).node n with
  | none => rfl
  | some ptn =>
    simp only
    split
    · rfl
    unfold record
    by_cases hjava : ((s.1.addIdealNode n G).graph ptn).type = .javaObject
    · simp only [hjava, if_true, true_and, reduceCtorEq, false_and, if_false]
      split <;> rfl
    · simp only [hjava, if_false, false_and]
      split <;> rfl

/-- A candidate is what is made for it. -/
theorem IdealOp.made_isCandidate {op : IdealOp} (h : op.isCandidate = true) :
    ∃ m, op.made = some m ∧ m.type = .javaObject ∧
      (m.ideal = .allocate ∨ m.ideal = .callStaticJava) := by
  unfold IdealOp.isCandidate at h
  split at h
  · exact ⟨_, rfl, rfl, .inl rfl⟩
  · exact ⟨_, rfl, rfl, .inr rfl⟩
  · cases h

/-- An allocation or call that made a node is a candidate for the list of objects that may not
escape. -/
theorem IdealOp.isCandidate_of_made {op : IdealOp} {m : PointsToNode} (h : op.made = some m)
    (hideal : m.ideal = .allocate ∨ m.ideal = .callStaticJava) : op.isCandidate = true := by
  unfold IdealOp.made at h
  split at h <;> cases h <;> simp_all [javaObjectNode, blankNode, IdealOp.isCandidate]

/-- The node of an ideal node is a candidate if the ideal node is. -/
theorem Built.escapeCandidate_iff (h : Built G c) (hT : G.Typed) {ptn : ℕ}
    (hptn : c.node n = some ptn) (hphantom : ptn ≠ phantomObj) :
    EscapeCandidate c.graph ptn ↔ (G.kind n).isCandidate = true := by
  obtain rfl | ⟨rfl, hnarrow⟩ | ⟨rfl, -⟩ := h.mapped hptn
  · by_cases hnull : ptn = nullObj
    · subst hnull
      rw [hT.reserved (.inr (.inl rfl))]
      refine iff_of_false (fun hc => ?_) (by decide)
      rw [EscapeCandidate, h.wellFormed.null_ideal] at hc
      obtain ⟨-, hc | hc⟩ := hc <;> cases hc
    · obtain ⟨m, hm, hmade⟩ := h.made hptn hphantom hnull
      rw [EscapeCandidate, hmade.type, hmade.ideal]
      constructor
      · exact fun hc => IdealOp.isCandidate_of_made hm hc.2
      · intro hk
        obtain ⟨m', hm', hc⟩ := IdealOp.made_isCandidate hk
        obtain rfl := Option.some.inj (hm.symm.trans hm')
        exact hc
  · rw [hT.reserved (.inr (.inr hnarrow))]
    refine iff_of_false (fun hc => ?_) (by decide)
    rw [EscapeCandidate, h.wellFormed.null_ideal] at hc
    obtain ⟨-, hc | hc⟩ := hc <;> cases hc
  · exact absurd rfl hphantom

/-- What is on a worklist to which one node may have been appended. -/
theorem mem_ite_append {p ptn : ℕ} {b : Prop} [Decidable b] {l : List ℕ} :
    p ∈ (if b then l ++ [ptn] else l) ↔ p ∈ l ∨ b ∧ p = ptn := by
  split <;> simp_all

/-- The node of an ideal node is recorded. -/
theorem Collects.record {P : ℕ → Prop} {w : Collected} (h : Collects P c w) (hc : Built G c)
    (hT : G.Typed) {ptn : ℕ} (hptn : c.node n = some ptn) (hphantom : ptn ≠ phantomObj) :
    Collects (fun p => P p ∨ p = ptn) c (record G c n ptn w) := by
  have hcandidate := hc.escapeCandidate_iff hT hptn hphantom
  refine ⟨fun {p} hp => ?_, fun {p} hp hP => ?_, fun {p} hp => ?_, fun {p} hp hP => ?_,
    fun {p} hp => ?_, fun {p} hp hP => ?_, fun {p} hp => ?_, fun {p} hp hes hP => ?_⟩
  · obtain hp | hp := List.mem_append.1 hp
    · exact h.ptnodes_node hp
    · rw [List.mem_singleton.1 hp]
      exact hc.registered hptn
  · exact List.mem_append.2 (hP.imp (h.ptnodes hp) List.mem_singleton.2)
  · obtain hp | ⟨hty, rfl⟩ := mem_ite_append.1 hp
    · exact h.javaObjects_type hp
    · exact hty
  · refine mem_ite_append.2 (hP.imp (h.javaObjects hp) ?_)
    rintro rfl
    exact ⟨hp, rfl⟩
  · obtain hp | ⟨hfield, rfl⟩ := mem_ite_append.1 hp
    · exact h.oopFields_field hp
    · exact hfield
  · refine mem_ite_append.2 (hP.imp (h.oopFields hp) ?_)
    rintro rfl
    exact ⟨hp, rfl⟩
  · obtain hp | ⟨⟨-, hk, -⟩, rfl⟩ := mem_ite_append.1 hp
    · exact h.nonEscaped_candidate hp
    · exact hcandidate.2 hk
  · refine mem_ite_append.2 (hP.imp (h.nonEscaped hp hes) fun heq => ?_)
    subst heq
    refine ⟨⟨hp.1, hcandidate.1 hp, ?_⟩, rfl⟩
    revert hes
    cases (c.graph p).escapeState <;> simp [EscapeState.toNat]

/-- An ideal node. -/
theorem FirstPhase.collectNode {s : Construction × Collected}
    (h : FirstPhase G (fun p => p ≠ nullObj) s) (hT : G.Typed) (n : ℕ) :
    FirstPhase G (fun p => p ≠ nullObj) (collectNode G s n) ∧
      FirstThrough G n (collectNode G s n).1 ∧ Grows s.1 (collectNode G s n).1 ∧
      s.1.delayed ⊆ (collectNode G s n).1.delayed := by
  obtain ⟨c, w⟩ := s
  obtain ⟨hphase, hthrough, hgrows, hdelayed⟩ := h.addIdealNode hT n
  rw [collectNode_eq]
  -- a new node is the one that is recorded
  have hnew : ∀ {p}, (c.addIdealNode n G).node p = some p → c.node n = none → p = n →
      (c.addIdealNode n G).node n = some p := by
    rintro p hp - rfl
    exact hp
  simp only
  split
  · next hnone =>
    refine ⟨hphase.mono fun p hp hnull => ⟨hnull, fun hn hpn => ?_⟩, hthrough, hgrows, hdelayed⟩
    have := hnew hp hn hpn
    rw [hnone] at this
    cases this
  next ptn hptn =>
  split
  · next hphantom =>
    refine ⟨hphase.mono fun p hp hnull => ⟨hnull, fun hn hpn => ?_⟩, hthrough, hgrows, hdelayed⟩
    have hpp := Option.some.inj ((hnew hp hn hpn).symm.trans hptn)
    rw [← hpn, hpp, hphantom, h.built.phantom] at hn
    cases hn
  · next hphantom =>
    have hcollects := (hphase.collects.record hphase.built hT hptn hphantom).mono
      (Q := fun p => p ≠ nullObj) hphase.built fun p hp hnull => by
        by_cases hpp : p = ptn
        · exact .inr hpp
        · refine .inl ⟨hnull, fun hn hpn => hpp ?_⟩
          exact Option.some.inj ((hnew hp hn hpn).symm.trans hptn)
    exact ⟨⟨hphase.built, hcollects, hphase.noted, hphase.nodup, hphase.stub, hphase.recorded⟩,
      hthrough, hgrows, hdelayed⟩

/-- What is on the worklists stays there, and the null object is put there. -/
theorem collectNode_null {s : Construction × Collected} (h : FirstPhase G (fun p => p ≠ nullObj) s)
    (hT : G.Typed) (n : ℕ)
    (hnull : n = nullObj ∨ nullObj ∈ s.2.ptnodes ∧ nullObj ∈ s.2.javaObjects) :
    nullObj ∈ (collectNode G s n).2.ptnodes ∧ nullObj ∈ (collectNode G s n).2.javaObjects := by
  obtain ⟨c, w⟩ := s
  obtain ⟨hphase, -⟩ := h.addIdealNode hT n
  have hnode := hphase.built.null
  have hjava := hphase.built.wellFormed.null_type
  rw [collectNode_eq]
  simp only at hnull hnode hjava ⊢
  obtain rfl | hnull := hnull
  · rw [hnode]
    simp only [phantomObj_ne_nullObj.symm, if_false, record, hjava, if_true]
    exact ⟨List.mem_append_right _ (List.mem_singleton_self _),
      List.mem_append_right _ (List.mem_singleton_self _)⟩
  · split
    · exact hnull
    split
    · exact hnull
    · exact ⟨List.mem_append_left _ hnull.1, mem_ite_append.2 (.inl hnull.2)⟩

/-- The loop over the ideal nodes. -/
theorem collectNodes_spec (hT : G.Typed) (ideal : List ℕ) :
    FirstPhase G (fun p => p ≠ nullObj) (collectNodes G ideal) ∧
      (∀ n ∈ ideal, FirstThrough G n (collectNodes G ideal).1) ∧
      (nullObj ∈ ideal → nullObj ∈ (collectNodes G ideal).2.ptnodes ∧
        nullObj ∈ (collectNodes G ideal).2.javaObjects) := by
  have hstart := start_firstPhase hT
  have hstep : ∀ s, ∀ n ∈ ideal, FirstPhase G (fun p => p ≠ nullObj) s →
      FirstPhase G (fun p => p ≠ nullObj) (collectNode G s n) :=
    fun s n _ h => (h.collectNode hT n).1
  refine ⟨Loops.invariant _ hstart hstep, fun n hn => ?_, fun hn => ?_⟩
  · refine Loops.reached (P := fun s : Construction × Collected => FirstThrough G n s.1) hn hstart
      hstep (fun s m _ h hthrough => ?_) fun s h => (h.collectNode hT n).2.1
    obtain ⟨-, -, hgrows, hdelayed⟩ := h.collectNode hT m
    exact hthrough.grows hgrows hdelayed
  · exact Loops.reached (P := fun s : Construction × Collected =>
      nullObj ∈ s.2.ptnodes ∧ nullObj ∈ s.2.javaObjects) hn hstart hstep
      (fun s m _ h hnull => collectNode_null h hT m (.inr hnull))
      fun s h => collectNode_null h hT nullObj (.inl rfl)

/-! ## The final iteration

After the loop the delayed nodes are given their edges. Only arraycopies are made here, and the
lists do not change. -/

/-- Only arraycopies are new. -/
structure OnlyCopies (c c' : Construction) : Prop where
  node : ∀ {m}, c.node m ≠ none → c'.node m = c.node m
  same : ∀ {m}, c.node m ≠ none → (c'.graph m).type = (c.graph m).type ∧
    (c'.graph m).ideal = (c.graph m).ideal ∧ (c'.graph m).isOop = (c.graph m).isOop
  copy : ∀ {m}, c.node m = none → c'.node m ≠ none → (c'.graph m).type = .arraycopy

theorem OnlyCopies.refl (c : Construction) : OnlyCopies c c :=
  ⟨fun _ => rfl, fun _ => ⟨rfl, rfl, rfl⟩, fun hm hm' => absurd hm hm'⟩

/-- Parts of the final iteration, each of which makes arraycopies only. -/
theorem OnlyCopies.trans {c'' : Construction} (h : OnlyCopies c c') (h' : OnlyCopies c' c'') :
    OnlyCopies c c'' := by
  have hnext : ∀ {m}, c.node m ≠ none → c'.node m ≠ none := fun hm => by rwa [h.node hm]
  refine ⟨fun hm => (h'.node (hnext hm)).trans (h.node hm), fun hm => ?_, fun {m} hm hm'' => ?_⟩
  · obtain ⟨htype, hideal, hoop⟩ := h.same hm
    obtain ⟨htype', hideal', hoop'⟩ := h'.same (hnext hm)
    exact ⟨htype'.trans htype, hideal'.trans hideal, hoop'.trans hoop⟩
  · by_cases hm' : c'.node m = none
    · exact h'.copy hm' hm''
    · rw [(h'.same hm').1]
      exact h.copy hm hm'

/-- A run of the final iteration makes no other nodes. -/
theorem NodesKept.onlyCopies (h : NodesKept n true c c') : OnlyCopies c c' := by
  have hor : ∀ {m}, c.node m ≠ none → m ≠ n ∨ c.node n ≠ none := by
    intro m hm
    by_cases hmn : m = n
    · subst hmn
      exact .inr hm
    · exact .inl hmn
  refine ⟨fun hm => h.node (hor hm), fun hm => h.same (hor hm), fun {m} hm hm' => ?_⟩
  by_cases hmn : m = n
  · subst hmn
    exact h.copy rfl hm hm'
  · rw [h.node (.inl hmn)] at hm'
    exact absurd hm hm'

/-- The loop over the delayed nodes. -/
theorem Built.finalEdges_foldlM (hT : G.Typed) {l : List ℕ} (hnodup : l.Nodup) (h : Built G c)
    (hnoted : ∀ n ∈ l, Noted G c n)
    (hstub : ∀ n ∈ l, (G.kind n).isStub = true → c.node n = none)
    (heq : l.foldlM (Construction.finalEdges G) c = some c') :
    Built G c' ∧ Grows c c' ∧ OnlyCopies c c' ∧ ∀ n ∈ l, Recorded G c' n := by
  induction l generalizing c with
  | nil =>
    obtain rfl := Option.some.inj heq
    exact ⟨h, Grows.refl c, OnlyCopies.refl c, fun n hn => absurd hn List.not_mem_nil⟩
  | cons n l ih =>
    rw [List.foldlM_cons] at heq
    obtain ⟨c₁, hc₁, heq⟩ := Option.bind_eq_some_iff.1 heq
    rw [List.nodup_cons] at hnodup
    obtain ⟨hrun, hrecorded⟩ := h.finalEdges hT (hnoted n List.mem_cons_self)
      (hstub n List.mem_cons_self) hc₁
    obtain ⟨hbuilt, hgrows⟩ := h.changes hrun
    have hkept := h.changes_kept hrun
    have hne : ∀ m ∈ l, m ≠ n := by
      rintro m hm rfl
      exact hnodup.1 hm
    obtain ⟨hend, hgrows', honly, hall⟩ := ih hnodup.2 hbuilt
      (fun m hm => hgrows.noted (hnoted m (List.mem_cons_of_mem _ hm)))
      (fun m hm hk => by
        rw [hkept.node (.inl (hne m hm))]
        exact hstub m (List.mem_cons_of_mem _ hm) hk) heq
    refine ⟨hend, hgrows.trans hgrows', hkept.onlyCopies.trans honly, fun m hm => ?_⟩
    obtain rfl | hm := List.mem_cons.1 hm
    · exact hgrows'.recorded hrecorded
    · exact hall m hm

/-- The worklists have all nodes but arraycopies. -/
theorem Collects.onlyCopies {w : Collected} (h : Collects (fun _ => True) c w) (hc : Built G c)
    (hc' : Built G c') (hgrows : Grows c c') (honly : OnlyCopies c c') :
    Collects (fun p => (c'.graph p).type ≠ .arraycopy) c' w := by
  have hold : ∀ {p}, c'.node p = some p → (c'.graph p).type ≠ .arraycopy → c.node p ≠ none := by
    intro p hp hcopy hnone
    refine hcopy (honly.copy hnone ?_)
    rw [hp]
    exact Option.some_ne_none p
  have hreg : ∀ {p}, (c.graph p).type ≠ .localVar → c.node p ≠ none := by
    intro p hp
    rw [hc.node_of_type hp]
    exact Option.some_ne_none p
  have hreg' : ∀ {p}, (c'.graph p).type ≠ .localVar → (c'.graph p).type ≠ .arraycopy →
      c.node p ≠ none := fun hp hcopy => hold (hc'.node_of_type hp) hcopy
  refine ⟨fun hp => hgrows.node (h.ptnodes_node hp), fun {p} hp hcopy => ?_, fun {p} hp => ?_,
    fun {p} hp hcopy => ?_, fun {p} hp => ?_, fun {p} hp hcopy => ?_, fun {p} hp => ?_,
    fun {p} hp hes hcopy => ?_⟩
  · refine h.ptnodes ?_ trivial
    rw [← honly.node (hold hp hcopy)]
    exact hp
  · have hty := h.javaObjects_type hp
    rw [(honly.same (hreg (by rw [hty]; decide))).1]
    exact hty
  · have hm := hreg' (by rw [hp]; decide) hcopy
    rw [(honly.same hm).1] at hp
    exact h.javaObjects hp trivial
  · obtain ⟨hty, hoop⟩ := h.oopFields_field hp
    have hm := hreg (by rw [hty]; decide)
    exact ⟨(honly.same hm).1.trans hty, (honly.same hm).2.2.trans hoop⟩
  · obtain ⟨hty, hoop⟩ := hp
    have hm := hreg' (by rw [hty]; decide) hcopy
    exact h.oopFields ⟨(honly.same hm).1.symm.trans hty, (honly.same hm).2.2.symm.trans hoop⟩
      trivial
  · obtain ⟨hty, hideal⟩ := h.nonEscaped_candidate hp
    have hm := hreg (by rw [hty]; decide)
    refine ⟨(honly.same hm).1.trans hty, ?_⟩
    rw [(honly.same hm).2.1]
    exact hideal
  · obtain ⟨hty, hideal⟩ := hp
    have hm := hreg' (by rw [hty]; decide) hcopy
    rw [(honly.same hm).2.1] at hideal
    refine h.nonEscaped ⟨(honly.same hm).1.symm.trans hty, hideal⟩ (fun hglobal => hes ?_) trivial
    have hle := hgrows.escapeState p
    rw [hglobal] at hle
    exact EscapeState.toNat_inj (Nat.le_antisymm (EscapeState.toNat_le _) hle)

/-- The loop over the ideal nodes makes no arraycopies. -/
theorem FirstPhase.not_arraycopy {P : ℕ → Prop} {s : Construction × Collected} {p : ℕ}
    (h : FirstPhase G P s) (hp : s.1.node p = some p) : (s.1.graph p).type ≠ .arraycopy := by
  intro hcopy
  have hphantom : p ≠ phantomObj := by
    rintro rfl
    exact absurd (h.built.wellFormed.phantom_type.symm.trans hcopy) (by decide)
  have hnull : p ≠ nullObj := by
    rintro rfl
    exact absurd (h.built.wellFormed.null_type.symm.trans hcopy) (by decide)
  obtain ⟨m, hm, hmade⟩ := h.built.made hp hphantom hnull
  cases hstub : (G.kind p).isStub with
  | false => exact IdealOp.made_of_not_stub hm hstub (hmade.type.symm.trans hcopy)
  | true =>
    rw [h.stub hstub] at hp
    cases hp

/-- What construction has built when it ends. -/
theorem constructGraph_spec (hT : G.Typed) {ideal : List ℕ} (hnull : nullObj ∈ ideal)
    {w : Collected} (h : constructGraph G ideal = some (c, w)) :
    Built G c ∧ Collects (fun p => (c.graph p).type ≠ .arraycopy) c w ∧
      (∀ p ∈ w.ptnodes, (c.graph p).type ≠ .arraycopy) ∧
      ∀ n ∈ ideal, G.Reserved n ∨ Noted G c n ∧ Recorded G c n := by
  obtain ⟨hphase, hthrough, hnulls⟩ := collectNodes_spec hT ideal
  unfold constructGraph at h
  simp only at h
  obtain ⟨c', hfold, heq⟩ := Option.map_eq_some_iff.1 h
  obtain ⟨rfl, rfl⟩ := Prod.mk.inj heq
  generalize collectNodes G ideal = s at *
  have hcollects : Collects (fun _ => True) s.1 s.2 := by
    obtain ⟨hp, hj⟩ := hnulls hnull
    have hw := hphase.collects
    refine ⟨hw.ptnodes_node, fun {p} hreg _ => ?_, hw.javaObjects_type, fun {p} hty _ => ?_,
      hw.oopFields_field, fun {p} hfield _ => ?_, hw.nonEscaped_candidate,
      fun {p} hcand hes _ => ?_⟩
    · by_cases hpn : p = nullObj
      · rwa [hpn]
      · exact hw.ptnodes hreg hpn
    · by_cases hpn : p = nullObj
      · rwa [hpn]
      · exact hw.javaObjects hty hpn
    · refine hw.oopFields hfield ?_
      rintro rfl
      exact absurd (hphase.built.wellFormed.null_type.symm.trans hfield.1) (by decide)
    · refine hw.nonEscaped hcand hes ?_
      rintro rfl
      rw [EscapeCandidate, hphase.built.wellFormed.null_ideal] at hcand
      obtain ⟨-, hc | hc⟩ := hcand <;> cases hc
  obtain ⟨hbuilt, hgrows, honly, hall⟩ := hphase.built.finalEdges_foldlM hT
    (List.nodup_reverse.2 hphase.nodup) (fun n hn => hphase.noted (List.mem_reverse.1 hn))
    (fun n _ hk => hphase.stub hk) hfold
  refine ⟨hbuilt, hcollects.onlyCopies hphase.built hbuilt hgrows honly, fun p hp => ?_,
    fun n hn => ?_⟩
  · have hnode := hphase.collects.ptnodes_node hp
    rw [(honly.same (hnode ▸ Option.some_ne_none p)).1]
    exact hphase.not_arraycopy hnode
  refine (hthrough n hn).imp id ?_
  rintro ⟨hnoted, hdone⟩
  exact ⟨hgrows.noted hnoted, hdone.elim hgrows.recorded fun hn => hall n (List.mem_reverse.2 hn)⟩

/-! ## What completion starts from

The invariants are put together: the graph is well formed, the lists have all nodes but the
arraycopies, every object that may not escape is a candidate, the phantom object has escaped, and
arraycopies have told their first sources about their states. -/

/-- Objects that are made escape, or are allocations. -/
theorem IdealOp.made_object {op : IdealOp} {m : PointsToNode} (h : op.made = some m)
    (hm : m.type = .javaObject) : EscapeState.argEscape.toNat ≤ m.escapeState.toNat ∨
      (m.ideal = .allocate ∨ m.ideal = .callStaticJava) := by
  unfold IdealOp.made at h
  split at h <;> cases h <;> simp_all [javaObjectNode, blankNode, EscapeState.toNat]

/-- Each object of the graph is an allocation, the unknown object, null or one from elsewhere. -/
theorem Built.objectsKnown (h : Built G c) : ObjectsKnown c.graph := by
  intro n hty hnull
  by_cases hphantom : n = phantomObj
  · subst hphantom
    refine .inl ?_
    rw [EscapesAt, h.wellFormed.phantom_escapes.1]
    decide
  have hreg := h.node_of_type (n := n) (by rw [hty]; decide)
  obtain ⟨m, hm, hmade⟩ := h.made hreg hphantom hnull
  obtain hes | hideal := IdealOp.made_object hm (hmade.type.symm.trans hty)
  · exact .inl (Nat.le_trans hes hmade.escapeState)
  · refine or_iff_not_imp_left.2 fun hnot => ⟨⟨hty, by rw [hmade.ideal]; exact hideal⟩, ?_⟩
    have hle := h.states n
    unfold EscapesAt at hnot
    revert hnot hle
    cases (c.graph n).escapeState <;> decide

/-- The worklists list the nodes. -/
theorem Collects.enlisted {w : Collected}
    (h : Collects (fun p => (c.graph p).type ≠ .arraycopy) c w) (hc : Built G c) :
    Enlisted ⟨w.ptnodes, w.javaObjects, w.oopFields⟩ c.graph where
  targets n e he hcopy := by
    refine h.ptnodes ?_ hcopy
    by_contra hnone
    exact ((hc.fresh hnone).2 n).1 he
  escaping n hcopy hescape := by
    refine h.ptnodes ?_ hcopy
    by_contra hnone
    rw [Escaping, (hc.fresh hnone).1] at hescape
    exact absurd hescape (by decide)
  nodes n hlocal hcopy := h.ptnodes (hc.node_of_type hlocal) hcopy
  javaObjects n := by
    refine ⟨h.javaObjects_type, fun hty => h.javaObjects hty ?_⟩
    rw [hty]
    decide
  oopFields n := by
    refine ⟨h.oopFields_field, fun hfield => h.oopFields hfield ?_⟩
    rw [hfield.1]
    decide

/-- The arraycopies of the constructed graph have what the completion starts from. -/
theorem Built.copiesSettled (h : Built G c) : CopiesSettled c.graph c.graph := by
  intro ac hac _ s hs _
  obtain ⟨hsame, hsources⟩ := h.copies hac
  refine ⟨fun _ => hsources s hs, ?_, fun _ _ hfalse => hfalse.elim⟩
  rw [hsame]
  exact Nat.le_trans (hsources s hs) (h.wellFormed.state_le s)

/-- Completion starts from what has been built and collected. -/
theorem Collects.constructed {w : Collected}
    (h : Collects (fun p => (c.graph p).type ≠ .arraycopy) c w) (hc : Built G c) :
    Constructed ⟨w.ptnodes, w.javaObjects, w.oopFields⟩ c.graph w.nonEscaped where
  wellFormed := hc.wellFormed
  enlisted := h.enlisted hc
  lists := by
    refine ⟨fun n hn => h.nonEscaped_candidate hn, fun n hcand hes => h.nonEscaped hcand hes ?_⟩
    rw [hcand.1]
    decide
  copies := hc.copiesSettled

/-- Construction ends in a graph that completion starts from: it is well formed, the worklist of
nodes has exactly the nodes that are no arraycopies, the other worklists have the objects, the oop
fields and the allocations that may not escape, and objects other than allocations escape. -/
theorem constructGraph_constructed (hT : G.Typed) {ideal : List ℕ} (hnull : nullObj ∈ ideal)
    {w : Collected} (h : constructGraph G ideal = some (c, w)) :
    Constructed ⟨w.ptnodes, w.javaObjects, w.oopFields⟩ c.graph w.nonEscaped ∧
      (∀ n, n ∈ w.ptnodes ↔ c.node n = some n ∧ (c.graph n).type ≠ .arraycopy) ∧
      (∀ n, c.node n ≠ some n → c.graph n = outside) ∧ ObjectsKnown c.graph := by
  obtain ⟨hbuilt, hcollects, hcopies, -⟩ := constructGraph_spec hT hnull h
  refine ⟨hcollects.constructed hbuilt, fun n => ?_, fun n hn => (hbuilt.fresh hn).1,
    hbuilt.objectsKnown⟩
  exact ⟨fun hn => ⟨hcollects.ptnodes_node hn, hcopies n hn⟩, fun hn => hcollects.ptnodes hn.1 hn.2⟩

end

/-- The ideal nodes of an example: object 2 has object 5 in a field and is returned, and object 11
is a clone of it. -/
def returnedOps : List IdealOp :=
  [.other, .other,
   .allocate false true, .proj 2, .cast 3,
   .allocate false true, .proj 5, .cast 6,
   .addP 4 (some 16) true false, .store .oop 8 7, .ret 4,
   .allocate false true, .proj 11, .cast 12,
   .addP 13 (some 16) true false,
   .stub ⟨true, true, 4, [⟨4, true, true⟩, ⟨13, false, true⟩]⟩]

def returnedIdeal : IdealNodes := ⟨fun n => returnedOps.getD n .other, none⟩

/-- The operations of the example. -/
theorem mem_returnedOps {n : ℕ} {op : IdealOp} (h : returnedIdeal.kind n = op)
    (hop : op ≠ .other) : op ∈ returnedOps := by
  subst h
  simp only [returnedIdeal, List.getD_eq_getElem?_getD] at hop ⊢
  cases hn : returnedOps[n]? with
  | none =>
    rw [hn] at hop
    exact absurd rfl hop
  | some op => exact List.mem_of_getElem? hn

/-- The only call to a stub. -/
theorem returnedIdeal_stub {n : ℕ} {call : Stub} (h : returnedIdeal.kind n = .stub call) :
    call = ⟨true, true, 4, [⟨4, true, true⟩, ⟨13, false, true⟩]⟩ := by
  have hmem := mem_returnedOps h IdealOp.noConfusion
  simpa [returnedOps] using hmem

/-- The arguments of its stub. -/
theorem returnedIdeal_argument {arg : StubArgument}
    (h : arg ∈ [(⟨4, true, true⟩ : StubArgument), ⟨13, false, true⟩]) :
    arg = ⟨4, true, true⟩ ∨ arg = ⟨13, false, true⟩ := by
  simpa using h

/-- The ideal graph of the example is typed. -/
theorem returnedIdeal_typed : returnedIdeal.Typed where
  reserved := by
    rintro n (rfl | rfl | hn)
    · rfl
    · rfl
    · cases hn
  operands {n i} hi := by
    by_cases hother : returnedIdeal.kind n = .other
    · rw [hother] at hi
      exact absurd hi List.not_mem_nil
    have hall : ∀ op ∈ returnedOps, ∀ i ∈ op.operands, (returnedIdeal.kind i).isStub = false := by
      decide
    exact hall _ (mem_returnedOps rfl hother) i hi
  base h := by
    have hmem := mem_returnedOps h IdealOp.noConfusion
    simp only [returnedOps, List.mem_cons, reduceCtorEq, IdealOp.addP.injEq, false_or, or_false,
      List.not_mem_nil] at hmem
    obtain ⟨rfl, -⟩ | ⟨rfl, -⟩ := hmem <;> rfl
  address h := by
    obtain h | h := h
    · have hmem := mem_returnedOps h IdealOp.noConfusion
      simp only [returnedOps, List.mem_cons, reduceCtorEq, IdealOp.store.injEq, false_or, or_false,
        List.not_mem_nil] at hmem
      obtain ⟨-, rfl, -⟩ := hmem
      rfl
    · have hmem := mem_returnedOps h IdealOp.noConfusion
      simp [returnedOps] at hmem
  argument h harg := by
    obtain rfl := returnedIdeal_stub h
    obtain rfl | rfl := returnedIdeal_argument harg <;> rfl
  src h harg hfirst := by
    obtain rfl := returnedIdeal_stub h
    obtain rfl | rfl := returnedIdeal_argument harg
    · rfl
    · cases hfirst
  first h := by
    rw [returnedIdeal_stub h]
    simp
  destination h harg harg' _ _ hfirst hfirst' := by
    obtain rfl := returnedIdeal_stub h
    obtain rfl | rfl := returnedIdeal_argument harg
    · cases hfirst
    obtain rfl | rfl := returnedIdeal_argument harg'
    · cases hfirst'
    · rfl
  hasOops h harg _ := by
    obtain rfl := returnedIdeal_stub h
    refine ⟨?_, fun hnarrow => by cases hnarrow⟩
    obtain rfl | rfl := returnedIdeal_argument harg <;> decide
  returned h _ _ := by
    have hmem := mem_returnedOps h IdealOp.noConfusion
    simp [returnedOps] at hmem

/-- The graph of the example is built, its three objects may not escape, and the arraycopy is on no
worklist. -/
theorem constructGraph_constructed_returnedIdeal :
    ∃ c w, constructGraph returnedIdeal (List.range 16) = some (c, w) ∧
      w.nonEscaped = [2, 5, 11] ∧
      Constructed ⟨w.ptnodes, w.javaObjects, w.oopFields⟩ c.graph w.nonEscaped ∧
      (c.graph 15).type = .arraycopy ∧
      ∀ n, n ∈ w.ptnodes ↔ c.node n = some n ∧ (c.graph n).type ≠ .arraycopy := by
  have hsome : (constructGraph returnedIdeal (List.range 16)).map (fun s =>
      (s.2.nonEscaped, (s.1.graph 15).type)) = some ([2, 5, 11], .arraycopy) := by decide +kernel
  obtain ⟨⟨c, w⟩, h, hlist⟩ := Option.map_eq_some_iff.1 hsome
  obtain ⟨hne, hcopy⟩ := Prod.mk.inj hlist
  obtain ⟨hconstructed, hnodes, -⟩ := constructGraph_constructed returnedIdeal_typed (by decide) h
  exact ⟨c, w, h, hne, hconstructed, hcopy, hnodes⟩

end StackAllocation
