import StackAllocation.ConstructionPhases

/-!
# Calls in the final iteration

What `process_call_arguments` records: how far arguments escape, which of them a call returns, and
the arraycopy between the source and the destination of a stub. With it, what `add_final_edges`
records of any ideal node.
-/

namespace StackAllocation

section

variable {G : IdealNodes} {c c' : Construction} {n : ℕ}

/-! ## Arraycopies

An arraycopy that copies references gets a node of its own, with an edge to the source and an edge
from the destination, and both are flagged. The node is made once, by the destination argument, when
the source has been processed. -/

/-- `add_arraycopy`. -/
theorem Built.addArraycopy (h : Built G c) (hn : c.node n = none)
    (hstub : (G.kind n).isStub = true) {es : EscapeState} {p q : ℕ} (hp : c.node p = some p)
    (hpobj : HoldsObjects c.graph p) (hpnull : p ≠ nullObj)
    (hle : es.toNat ≤ (c.graph p).escapeState.toNat)
    (hes : EscapeState.noEscape.toNat ≤ es.toNat) (hq : c.node q = some q)
    (hqobj : HoldsObjects c.graph q) (hqnull : q ≠ nullObj) :
    Changes G n true c (c.addArraycopy n es p q) ∧ CopyLinks (c.addArraycopy n es p q) n p q := by
  have hne : ∀ {k}, c.node k = some k → k ≠ n := by
    rintro k hk rfl
    rw [hn] at hk
    cases hk
  have hadd : Change G n true c (c.addNode n (blankNode .arraycopy .other es)) :=
    .copy rfl hn hstub hes
  obtain ⟨hbuilt, hgrows⟩ := h.change hadd
  have hself := Construction.addNode_self (m := blankNode .arraycopy .other es) hn
  have hgraph : ∀ {k}, k ≠ n →
      (c.addNode n (blankNode .arraycopy .other es)).graph k = c.graph k := by
    intro k hk
    rw [Construction.addNode_of_none hn]
    exact Function.update_of_ne hk _ _
  have hnode : (c.addNode n (blankNode .arraycopy .other es)).graph n =
      blankNode .arraycopy .other es := by
    rw [Construction.addNode_of_none hn]
    exact Function.update_self _ _ _
  unfold Construction.addArraycopy
  rw [hn]
  simp only
  generalize c.addNode n (blankNode .arraycopy .other es) = c₁ at *
  have hty : (c₁.graph n).type = .arraycopy := by
    rw [hnode]
    rfl
  have hholds : ∀ {k}, c.node k = some k → HoldsObjects c.graph k → HoldsObjects c₁.graph k := by
    intro k hk hobj
    rw [HoldsObjects, hgraph (hne hk)]
    exact hobj
  have hsource : Change G n true c₁
      { c₁ with graph := setArraycopySrc (c₁.edge n p).graph p } := by
    refine .source rfl hty (hgrows.node hp) (hholds hp hpobj) hpnull ?_
    rw [hnode, hgraph (hne hp)]
    exact hle
  have hpedge : p ∈ ((setArraycopySrc (c₁.edge n p).graph p) n).edges := by
    rw [(setArraycopySrc_flagsSet _ hpnull).same n PointsToNode.edges fun _ => rfl]
    refine hbuilt.mem_edge fun hpair => ?_
    exact absurd (hty.symm.trans hpair.1) (by decide)
  obtain ⟨hbuilt₂, hgrows₂⟩ := hbuilt.change hsource
  have hrun : Changes G n true c _ := .tail (.single hadd) hsource
  have hkept := hbuilt.change_kept hsource
  have hreg : c₁.node n ≠ none := by
    rw [hself]
    exact Option.some_ne_none n
  have htype : ∀ k, ((setArraycopySrc (c₁.edge n p).graph p) k).type = (c₁.graph k).type :=
    fun k => (hkept.same (.inr hreg)).1
  have hself₂ := hgrows₂.node hself
  have hq₂ := hgrows₂.node (hgrows.node hq)
  have hqobj₂ : HoldsObjects (setArraycopySrc (c₁.edge n p).graph p) q := by
    rw [HoldsObjects, htype]
    exact hholds hq hqobj
  have hdest : Change G n true _ _ := .destination rfl ((htype n).trans hty) hq₂ hqobj₂ hqnull
  refine ⟨hrun.tail hdest, ⟨(hbuilt₂.change hdest).2.node hself₂,
    (hbuilt₂.change hdest).2.edges n hpedge⟩, ?_⟩
  simp only
  rw [(setArraycopyDst_flagsSet _ hqnull).same q PointsToNode.edges fun _ => rfl]
  refine hbuilt₂.mem_edge fun hpair => ?_
  exact absurd (((htype n).trans hty).symm.trans hpair.2) (by decide)

/-! ## Stubs

The loop goes over the arguments in order. Each escapes as an argument unless the copy is validated.
The loop remembers whether the first argument has oops: an argument behind it that has oops as well
is the destination, and is linked. -/

/-- The state of the loop over the arguments of a stub. -/
structure StubLoop (G : IdealNodes) (n : ℕ) (call : Stub) (s : Construction × Bool) : Prop where
  built : Built G s.1
  /-- the source has been processed, and has oops -/
  source : s.2 = true → (∃ arg ∈ call.args, arg.isFirst = true ∧ arg.hasOops = true) ∧
    (call.validated = false → EscapedTo s.1 .argEscape call.src)
  /-- the arraycopy that has been added is that of a destination -/
  copied : s.1.node n ≠ none → ∃ arg ∈ call.args, (arg.hasOops = true ∧ arg.isFirst = false) ∧
    ∃ p q, s.1.node call.src = some p ∧ s.1.node arg.node = some q ∧ CopyLinks s.1 n p q

/-- An argument with oops is not null. -/
theorem Built.hasOops_ne_null (h : Built G c) (hT : G.Typed) {call : Stub}
    (hop : G.kind n = .stub call) {arg : StubArgument} (harg : arg ∈ call.args)
    (hoops : arg.hasOops = true) {p : ℕ} (hp : c.node arg.node = some p) : p ≠ nullObj := by
  obtain ⟨hnull, hnarrow⟩ := hT.hasOops hop harg hoops
  obtain rfl | ⟨-, heq⟩ | ⟨rfl, -⟩ := h.mapped hp
  · exact hnull
  · exact absurd heq hnarrow
  · exact phantomObj_ne_nullObj

/-- An argument is an object, or a local variable. -/
theorem Built.argument_holdsObjects (h : Built G c) (hT : G.Typed) {call : Stub}
    (hop : G.kind n = .stub call) {arg : StubArgument} (harg : arg ∈ call.args) {p : ℕ}
    (hp : c.node arg.node = some p) : HoldsObjects c.graph p := by
  refine h.holdsObjects hp (hT.operands (n := n) ?_) (hT.argument hop harg)
  rw [hop]
  exact List.mem_cons_of_mem _ (List.mem_map_of_mem harg)

/-- The state after an escape state of an argument. -/
def stubEscape (call : Stub) : EscapeState :=
  if call.validated then .noEscape else .argEscape

theorem noEscape_le_stubEscape (call : Stub) :
    EscapeState.noEscape.toNat ≤ (stubEscape call).toNat := by
  unfold stubEscape
  split <;> decide

/-- The loop goes on when nothing is lost and no arraycopy is added. -/
theorem StubLoop.next {call : Stub} {s : Construction × Bool} {b : Bool}
    (h : StubLoop G n call s) (hrun : Changes G n true s.1 c) (hkeep : c.node n = s.1.node n)
    (hsource : b = true → s.2 = true ∨ (∃ arg ∈ call.args, arg.isFirst = true ∧
      arg.hasOops = true) ∧ (call.validated = false → EscapedTo c .argEscape call.src)) :
    StubLoop G n call (c, b) := by
  obtain ⟨hbuilt, hgrows⟩ := h.built.changes hrun
  refine ⟨hbuilt, fun hb => ?_, fun hn => ?_⟩
  · obtain hs | hb := hsource hb
    · obtain ⟨hfirst, hesc⟩ := h.source hs
      exact ⟨hfirst, fun hvalid => hgrows.escapedTo (hesc hvalid)⟩
    · exact hb
  · rw [hkeep] at hn
    obtain ⟨arg, harg, hdest, p, q, hp, hq, hlinks⟩ := h.copied hn
    exact ⟨arg, harg, hdest, p, q, hgrows.node hp, hgrows.node hq, hgrows.copyLinks hlinks⟩

/-- What the loop does with an argument. -/
structure StubStep (G : IdealNodes) (n : ℕ) (call : Stub) (arg : StubArgument)
    (s s' : Construction × Bool) : Prop where
  run : Changes G n true s.1 s'.1
  loop : StubLoop G n call s'
  hasOops : call.isArraycopy = true → s'.2 = if arg.isFirst then arg.hasOops else s.2
  escaped : call.validated = false → EscapedTo s'.1 .argEscape arg.node
  linked : call.isArraycopy = true → arg.hasOops = true → arg.isFirst = false → s.2 = true →
    DestinationLinked s'.1 n call arg

/-- The first argument with oops is a source. -/
theorem first_source (hT : G.Typed) {call : Stub} (hop : G.kind n = .stub call)
    {arg : StubArgument} (harg : arg ∈ call.args) {b : Bool}
    (hesc : call.validated = false → EscapedTo c .argEscape arg.node)
    (hb : (if arg.isFirst then arg.hasOops else b) = true) :
    b = true ∨ (∃ arg ∈ call.args, arg.isFirst = true ∧ arg.hasOops = true) ∧
      (call.validated = false → EscapedTo c .argEscape call.src) := by
  cases hfirst : arg.isFirst with
  | false =>
    rw [hfirst] at hb
    exact .inl hb
  | true =>
    rw [hfirst] at hb
    rw [← hT.src hop harg hfirst]
    exact .inr ⟨⟨arg, harg, hfirst, hb⟩, hesc⟩

/-- The source escapes as far as the arraycopy. -/
theorem Built.stubEscape_le (h : Built G c) {call : Stub}
    (hescaped : call.validated = false → EscapedTo c .argEscape call.src) {src : ℕ}
    (hsrc : c.node call.src = some src) (hnull : src ≠ nullObj) :
    (stubEscape call).toNat ≤ (c.graph src).escapeState.toNat := by
  cases hvalid : call.validated with
  | true =>
    rw [stubEscape, hvalid, if_pos rfl]
    exact h.states src
  | false =>
    rw [stubEscape, hvalid, if_neg Bool.false_ne_true]
    obtain ⟨p, hp, hes⟩ := hescaped hvalid
    obtain rfl := Option.some.inj (hsrc.symm.trans hp)
    exact hes.resolve_left hnull

/-- An arraycopy to a destination is there, or is added. -/
theorem StubLoop.destination (hT : G.Typed) {call : Stub} (hop : G.kind n = .stub call) {b : Bool}
    (h : StubLoop G n call (c, b)) {arg : StubArgument} (harg : arg ∈ call.args) (hb : b = true)
    (hoops : arg.hasOops = true) (hfirst : arg.isFirst = false) {src p : ℕ}
    (hsrc : c.node call.src = some src) (hp : c.node arg.node = some p) :
    Changes G n true c (c.addArraycopy n (stubEscape call) src p) ∧
      StubLoop G n call (c.addArraycopy n (stubEscape call) src p, b) ∧
      DestinationLinked (c.addArraycopy n (stubEscape call) src p) n call arg := by
  by_cases hn : c.node n = none
  · have hbuilt : Built G c := h.built
    obtain ⟨⟨first, hmem, hisFirst, hfirstOops⟩, hescaped⟩ := h.source hb
    have hsrc' : c.node first.node = some src := by
      rw [hT.src hop hmem hisFirst]
      exact hsrc
    have hnull := hbuilt.hasOops_ne_null hT hop hmem hfirstOops hsrc'
    obtain ⟨hrun, hlinks⟩ := hbuilt.addArraycopy hn (by rw [hop]; rfl) (hbuilt.registered hsrc)
      (hbuilt.argument_holdsObjects hT hop hmem hsrc') hnull
      (hbuilt.stubEscape_le hescaped hsrc hnull) (noEscape_le_stubEscape call)
      (hbuilt.registered hp) (hbuilt.argument_holdsObjects hT hop harg hp)
      (hbuilt.hasOops_ne_null hT hop harg hoops hp)
    obtain ⟨hbuilt', hgrows⟩ := hbuilt.changes hrun
    have hsrc₂ := hgrows.node hsrc
    have hp₂ := hgrows.node hp
    exact ⟨hrun, ⟨hbuilt', fun _ => ⟨⟨first, hmem, hisFirst, hfirstOops⟩,
      fun hvalid => hgrows.escapedTo (hescaped hvalid)⟩,
      fun _ => ⟨arg, harg, ⟨hoops, hfirst⟩, src, p, hsrc₂, hp₂, hlinks⟩⟩,
      src, p, hsrc₂, hp₂, .inr hlinks⟩
  · have hsame : c.addArraycopy n (stubEscape call) src p = c := by
      unfold Construction.addArraycopy
      split
      · rfl
      · next hnone => exact absurd hnone hn
    rw [hsame]
    -- it is that of another argument, whose node is the same
    obtain ⟨arg', harg', ⟨hoops', hfirst'⟩, s, d, hs, hd, hlinks⟩ := h.copied hn
    rw [hT.destination hop harg' harg hoops' hoops hfirst' hfirst] at hd
    exact ⟨.refl, h, s, d, hs, hd, .inr hlinks⟩

/-- An argument of a stub escapes, if the stub is not one that has validated its arguments. -/
theorem Built.stubEscapes (h : Built G c) (call : Stub) {arg : StubArgument} {ptn : ℕ}
    (hstub : (G.kind arg.node).isStub = false) (hptn : c.node arg.node = some ptn) :
    Changes G n true c { c with graph := setEscapeState c.graph ptn (stubEscape call) } ∧
      (call.validated = false → EscapedTo
        { c with graph := setEscapeState c.graph ptn (stubEscape call) } .argEscape arg.node) := by
  have hescape : c.escape (stubEscape call) arg.node =
      some { c with graph := setEscapeState c.graph ptn (stubEscape call) } := by
    rw [Construction.escape, hptn]
    rfl
  obtain ⟨hrun, hescaped⟩ := h.escape (n := n) hstub hescape
  refine ⟨hrun, fun hvalid => ?_⟩
  rw [stubEscape, hvalid, if_neg Bool.false_ne_true] at hescaped ⊢
  exact hescaped

/-- An argument of a stub. -/
theorem StubLoop.stubArgument (hT : G.Typed) {call : Stub} (hop : G.kind n = .stub call)
    {s s' : Construction × Bool} (h : StubLoop G n call s) {arg : StubArgument}
    (harg : arg ∈ call.args) (heq : Construction.stubArgument n call s arg = some s') :
    StubStep G n call arg s s' := by
  have hstub : (G.kind arg.node).isStub = false := by
    refine hT.operands (n := n) ?_
    rw [hop]
    exact List.mem_cons_of_mem _ (List.mem_map_of_mem harg)
  unfold Construction.stubArgument at heq
  split at heq
  · cases heq
  next ptn hptn =>
  simp only at heq
  split at heq
  swap
  · -- the argument of another stub has escaped already
    next hbranch =>
    obtain rfl := Option.some.inj heq
    rw [not_or, Nat.not_lt] at hbranch
    exact ⟨.refl, h, fun hcopy => absurd hcopy hbranch.1,
      fun _ => ⟨ptn, hptn, .inr hbranch.2⟩, fun hcopy => absurd hcopy hbranch.1⟩
  generalize hb : (if arg.isFirst = true then arg.hasOops else s.2) = srcHasOops at heq
  split at heq
  · next hskip =>
    obtain rfl := Option.some.inj heq
    have hesc : call.validated = false → EscapedTo s.1 .argEscape arg.node :=
      fun _ => ⟨ptn, hptn, .inr hskip.1⟩
    refine ⟨.refl, h.next .refl rfl fun hb' => ?_, fun _ => hb.symm, hesc,
      fun hcopy hoops hfirst hs => ?_⟩
    · exact first_source hT hop harg hesc (hb.trans hb')
    · rw [hfirst, if_neg Bool.false_ne_true, hs] at hb
      simp [← hb, hcopy, hoops, hfirst] at hskip
  -- the argument escapes
  obtain ⟨hrun, hesc⟩ := h.built.stubEscapes (n := n) call hstub hptn
  have hes : (if call.validated = true then EscapeState.noEscape else .argEscape) =
      stubEscape call := rfl
  rw [hes] at heq
  have hnode : s.1.node = ({ s.1 with graph := setEscapeState s.1.graph ptn (stubEscape call) } :
    Construction).node := rfl
  rw [hnode] at hptn heq
  generalize hc₁ : ({ s.1 with graph := setEscapeState s.1.graph ptn (stubEscape call) } :
    Construction) = c₁ at hrun hesc hptn heq hnode
  have hloop : StubLoop G n call (c₁, srcHasOops) :=
    h.next hrun (congrFun hnode.symm n) fun hb' => first_source hT hop harg hesc (hb.trans hb')
  split at heq
  swap
  · next hdest =>
    obtain rfl := Option.some.inj heq
    refine ⟨hrun, hloop, fun _ => hb.symm, hesc, fun hcopy hoops hfirst hs => ?_⟩
    rw [hfirst, if_neg Bool.false_ne_true, hs] at hb
    simp [← hb, hcopy, hoops, hfirst] at hdest
  next hdest =>
  simp only [Bool.and_eq_true, Bool.not_eq_true'] at hdest
  obtain ⟨⟨⟨hs, hcopy⟩, hoops⟩, hfirst⟩ := hdest
  split at heq
  · cases heq
  next src hsrc =>
  split at heq
  · next hsame =>
    obtain rfl := Option.some.inj heq
    exact ⟨hrun, hloop, fun _ => hb.symm, hesc, fun _ _ _ _ =>
      ⟨src, ptn, hsrc, hptn, .inl hsame⟩⟩
  obtain rfl := Option.some.inj heq
  obtain ⟨hrun', hloop', hlinked⟩ := hloop.destination hT hop harg hs hoops hfirst hsrc hptn
  obtain ⟨-, hgrows⟩ := hloop.built.changes hrun'
  exact ⟨hrun.trans hrun', hloop', fun _ => hb.symm, fun hvalid => hgrows.escapedTo (hesc hvalid),
    fun _ _ _ _ => hlinked⟩

/-- What is recorded of an argument once the loop has processed it. -/
def StubArgumentDone (call : Stub) (n : ℕ) (hasOops : Bool) (c : Construction)
    (arg : StubArgument) : Prop :=
  (call.validated = false → EscapedTo c .argEscape arg.node) ∧
    (call.isArraycopy = true → arg.hasOops = true → arg.isFirst = false → hasOops = true →
      DestinationLinked c n call arg)

/-- The arguments after the first one. -/
theorem StubLoop.rest (hT : G.Typed) {call : Stub} (hop : G.kind n = .stub call)
    {s s' : Construction × Bool} (h : StubLoop G n call s) {l : List StubArgument}
    (hl : ∀ arg ∈ l, arg ∈ call.args ∧ arg.isFirst = false)
    (heq : l.foldlM (Construction.stubArgument n call) s = some s') :
    Changes G n true s.1 s'.1 ∧ StubLoop G n call s' ∧
      ∀ arg ∈ l, StubArgumentDone call n s.2 s'.1 arg := by
  have hone : ∀ {s₁ s₂ : Construction × Bool}, ∀ arg ∈ l,
      StubLoop G n call s₁ ∧ (call.isArraycopy = true → s₁.2 = s.2) →
      Construction.stubArgument n call s₁ arg = some s₂ → Changes G n true s₁.1 s₂.1 ∧
        (StubLoop G n call s₂ ∧ (call.isArraycopy = true → s₂.2 = s.2)) ∧
          StubArgumentDone call n s.2 s₂.1 arg := by
    rintro s₁ s₂ arg harg ⟨hloop, hsame⟩ hstep
    obtain ⟨hmem, hfirst⟩ := hl arg harg
    have hdone := hloop.stubArgument hT hop hmem hstep
    refine ⟨hdone.run, ⟨hdone.loop, fun hcopy => ?_⟩, hdone.escaped,
      fun hcopy hoops hfirst hs => ?_⟩
    · rw [hdone.hasOops hcopy, hfirst, if_neg Bool.false_ne_true, hsame hcopy]
    · exact hdone.linked hcopy hoops hfirst ((hsame hcopy).trans hs)
  have hkeep : ∀ {s₁ s₂ : Construction × Bool} {arg : StubArgument},
      StubLoop G n call s₁ ∧ (call.isArraycopy = true → s₁.2 = s.2) →
      Changes G n true s₁.1 s₂.1 → StubArgumentDone call n s.2 s₁.1 arg →
        StubArgumentDone call n s.2 s₂.1 arg := by
    intro s₁ s₂ arg hI hrun hP
    have hgrows := (hI.1.built.changes hrun).2
    refine ⟨fun hvalid => hgrows.escapedTo (hP.1 hvalid), fun hcopy hoops hfirst hs => ?_⟩
    exact hgrows.destinationLinked (hP.2 hcopy hoops hfirst hs)
  obtain ⟨hrun, ⟨hloop, -⟩, hall⟩ := Loops.foldlM_run
    (R := fun s₁ s₂ : Construction × Bool => Changes G n true s₁.1 s₂.1) (fun _ => .refl)
    (fun hrun hrun' => hrun.trans hrun') hone hkeep ⟨h, fun _ => rfl⟩ heq
  exact ⟨hrun, hloop, hall⟩

/-- The arguments of a stub. -/
theorem Built.stubArguments (hT : G.Typed) (h : Built G c) {call : Stub}
    (hop : G.kind n = .stub call) (hn : c.node n = none)
    (heq : (call.args.foldlM (Construction.stubArgument n call) (c, false)).map Prod.fst =
      some c') :
    Changes G n true c c' ∧ ∀ arg ∈ call.args, StubArgumentRecorded c' n call arg := by
  obtain ⟨s', hfold, rfl⟩ := Option.map_eq_some_iff.1 heq
  have hfirst := hT.first hop
  have hstart : StubLoop G n call (c, false) :=
    ⟨h, fun hb => absurd hb Bool.false_ne_true, fun hnot => absurd hn hnot⟩
  have hstep : ∀ s₁ s₂, StubLoop G n call s₁ → ∀ arg ∈ call.args,
      Construction.stubArgument n call s₁ arg = some s₂ → StubStep G n call arg s₁ s₂ :=
    fun s₁ s₂ hloop arg harg => hloop.stubArgument hT hop harg
  have hrest : ∀ s₁, StubLoop G n call s₁ → ∀ l : List StubArgument,
      (∀ arg ∈ l, arg ∈ call.args ∧ arg.isFirst = false) →
      l.foldlM (Construction.stubArgument n call) s₁ = some s' →
      Changes G n true s₁.1 s'.1 ∧ StubLoop G n call s' ∧
        ∀ arg ∈ l, StubArgumentDone call n s₁.2 s'.1 arg :=
    fun s₁ hloop l hl => hloop.rest hT hop hl
  unfold StubArgumentRecorded StubArgument.isDestination
  revert hfold hfirst hstep hrest
  generalize call.args = args
  cases args with
  | nil =>
    rintro hfold - - -
    obtain rfl := Option.some.inj hfold
    exact ⟨.refl, fun arg harg => absurd harg List.not_mem_nil⟩
  | cons first rest =>
    intro hfold hfirst hstep hrest
    rw [List.foldlM_cons] at hfold
    obtain ⟨s₁, hs₁, hfold⟩ := Option.bind_eq_some_iff.1 hfold
    rw [List.pairwise_cons] at hfirst
    have hone := hstep _ s₁ hstart first List.mem_cons_self hs₁
    obtain ⟨hrun, hloop, hall⟩ := hrest s₁ hone.loop rest
      (fun arg harg => ⟨List.mem_cons_of_mem _ harg, hfirst.1 arg harg⟩) hfold
    have hgrows := (hone.loop.built.changes hrun).2
    refine ⟨hone.run.trans hrun, fun arg harg => ?_⟩
    obtain rfl | harg := List.mem_cons.1 harg
    · refine ⟨fun hvalid => hgrows.escapedTo (hone.escaped hvalid), ?_⟩
      rintro ⟨-, -, hnot, src, hsrc, hisFirst, -⟩
      have hsrcNot : src.isFirst = false := by
        obtain rfl | hsrc := List.mem_cons.1 hsrc
        · exact hnot
        · exact hfirst.1 src hsrc
      rw [hsrcNot] at hisFirst
      cases hisFirst
    · refine ⟨(hall arg harg).1, ?_⟩
      rintro ⟨hcopy, hoops, hnot, src, hsrc, hisFirst, hsrcOops⟩
      refine (hall arg harg).2 hcopy hoops hnot ?_
      obtain rfl | hsrc := List.mem_cons.1 hsrc
      · rw [hone.hasOops hcopy, hisFirst, if_pos rfl]
        exact hsrcOops
      · rw [hfirst.1 src hsrc] at hisFirst
        cases hisFirst

/-! ## Java calls

What is recorded depends on what is known of the method: an argument may be returned, it may escape
globally or as an argument, or only its fields may. An argument that is returned is linked with the
result of the call. -/

namespace Built

variable (h : Built G c)
include h

/-- A node that is not made. -/
theorem node_none (hT : G.Typed) (hm : (G.kind n).made = none)
    (hk : (G.kind n).isUnknown = false) (hother : G.kind n ≠ .other) : c.node n = none := by
  by_contra hnode
  obtain ⟨p, hp⟩ := Option.ne_none_iff_exists'.1 hnode
  have hreserved : ¬ G.Reserved n := fun hres => hother (hT.reserved hres)
  obtain rfl | ⟨-, hnarrow⟩ | ⟨-, hunknown⟩ := h.mapped hp
  · obtain ⟨m, hmade, -⟩ := h.made hp (fun heq => hreserved (.inl heq))
      fun heq => hreserved (.inr (.inl heq))
    rw [hm] at hmade
    cases hmade
  · exact hreserved (.inr (.inr hnarrow))
  · rw [hk] at hunknown
    cases hunknown

/-- An argument that the call returns. -/
theorem returnedArgument (hT : G.Typed) (hnoted : Noted G c n) {result : Option CallResult}
    {args : List JavaArgument} {returnLocal : Bool}
    (hop : G.kind n = .call result (.analyzed args returnLocal)) {arg : JavaArgument}
    (harg : arg ∈ args) (heq : c.returnedArgument n arg = some c') :
    Changes G n true c c' ∧ ((arg.isPtr && arg.returned) = true → result = some .arguments →
      EdgeTo c' n arg.node) := by
  unfold Construction.returnedArgument at heq
  split at heq
  swap
  · next hnot =>
    obtain rfl := Option.some.inj heq
    exact ⟨.refl, fun hret => absurd hret hnot⟩
  next hret =>
  have hop' : arg.node ∈ (G.kind n).operands := by
    rw [hop]
    exact List.mem_map_of_mem harg
  have hi : arg.node ∈ (G.kind n).inputs := by
    rw [hop]
    exact List.mem_append_left _ (List.mem_map_of_mem (List.mem_filter.2 ⟨harg, hret⟩))
  obtain rfl | rfl := hT.returned hop harg hret
  · have hnone : c.node n = none := h.node_none hT (by rw [hop]; rfl) (by rw [hop]; rfl)
      (by rw [hop]; exact fun heq => by cases heq)
    rw [hnone] at heq
    obtain rfl := Option.some.inj heq
    exact ⟨.refl, fun _ hresult => by cases hresult⟩
  · have hself : c.node n = some n := hnoted.node _ (by rw [hop]; rfl) (by rw [hop]; rfl)
    rw [hself] at heq
    have hlocal := h.type_of_made hself (by rw [hop]; rfl) hT
    obtain ⟨hrun, hedge⟩ := h.edgeTo hself (.inl ⟨hlocal, hi⟩) (hT.operands hop') heq
    exact ⟨hrun, fun _ _ => hedge⟩

/-- How far an argument escapes. -/
theorem escapingArgument {arg : JavaArgument} (hstub : (G.kind arg.node).isStub = false)
    (heq : c.escapingArgument arg = some c') :
    Changes G n true c c' ∧ (arg.isOop = true → EscapedTo c' .argEscape arg.node ∧
      (arg.stack = false → EscapedTo c' .globalEscape arg.node) ∧
      (arg.isLocal = false → FieldsEscapedTo c' .globalEscape arg.node)) := by
  unfold Construction.escapingArgument at heq
  split at heq
  swap
  · next hnot =>
    obtain rfl := Option.some.inj heq
    exact ⟨.refl, fun hoop => absurd hoop hnot⟩
  split at heq
  · cases heq
  next ptn hptn =>
  have hfields : ∀ {c₁ : Construction}, Built G c₁ → EscapedTo c₁ .globalEscape arg.node →
      FieldsEscapedTo c₁ .globalEscape arg.node := by
    rintro c₁ hc₁ ⟨p, hp, hes⟩
    exact ⟨p, hp, hes.imp id fun hes => Nat.le_trans hes (hc₁.wellFormed.state_le p)⟩
  have hargs : ∀ {c₁ : Construction}, EscapedTo c₁ .globalEscape arg.node →
      EscapedTo c₁ .argEscape arg.node := by
    rintro c₁ ⟨p, hp, hes⟩
    exact ⟨p, hp, hes.imp id fun hes => Nat.le_trans (by decide) hes⟩
  split at heq
  swap
  · -- it escapes globally already
    next hglobal =>
    obtain rfl := Option.some.inj heq
    have hesc : EscapedTo c .globalEscape arg.node := ⟨ptn, hptn, .inr (Nat.le_of_not_lt hglobal)⟩
    exact ⟨.refl, fun _ => ⟨hargs hesc, fun _ => hesc, fun _ => hfields h hesc⟩⟩
  split at heq
  swap
  · obtain ⟨hrun, hesc⟩ := h.escape (n := n) hstub heq
    exact ⟨hrun, fun _ => ⟨hargs hesc, fun _ => hesc, fun _ => hfields (h.changes hrun).1 hesc⟩⟩
  next hstack =>
  split at heq
  · cases heq
  next c₁ hescape =>
  obtain ⟨hrun, hesc⟩ := h.escape (n := n) hstub hescape
  split at heq
  · next hlocal =>
    obtain rfl := Option.some.inj heq
    exact ⟨hrun, fun _ => ⟨hesc, fun hnot => absurd (hstack.symm.trans hnot) Bool.noConfusion,
      fun hnot => absurd (hlocal.symm.trans hnot) Bool.noConfusion⟩⟩
  · have hbuilt := (h.changes hrun).1
    obtain ⟨hrun', hfieldsEsc⟩ := hbuilt.escapeFields (n := n) hstub heq
    exact ⟨hrun.trans hrun', fun _ => ⟨(hbuilt.changes hrun').2.escapedTo hesc,
      fun hnot => absurd (hstack.symm.trans hnot) Bool.noConfusion, fun _ => hfieldsEsc⟩⟩

/-- A result that may be unknown. -/
theorem unknownResult (hT : G.Typed) (hnoted : Noted G c n) {result : Option CallResult}
    {args : List JavaArgument} {returnLocal : Bool}
    (hop : G.kind n = .call result (.analyzed args returnLocal)) :
    Changes G n true c (c.unknownResult n returnLocal) ∧
      (result = some .arguments → returnLocal = false →
        phantomObj ∈ ((c.unknownResult n returnLocal).graph n).edges) := by
  have hself : result = some .arguments → c.node n = some n ∧ (c.graph n).type = .localVar := by
    rintro rfl
    have hself := hnoted.node (blankNode .localVar .other .argEscape) (by rw [hop]; rfl)
      (by rw [hop]; rfl)
    exact ⟨hself, h.type_of_made hself (by rw [hop]; rfl) hT⟩
  unfold Construction.unknownResult
  split
  · next hnone =>
    refine ⟨.refl, fun hresult => ?_⟩
    rw [(hself hresult).1] at hnone
    cases hnone
  next ptn hptn =>
  split
  · next hlocal =>
    obtain ⟨hty, rfl⟩ := hlocal
    obtain hjava | ⟨rfl, -⟩ := h.node_cases hptn
    · exact absurd (hjava.symm.trans hty) (by decide)
    have hi : phantomObj ∈ (G.kind ptn).inputs := by
      rw [hop]
      exact List.mem_append_right _ (List.mem_singleton_self _)
    have hcopy : (c.graph phantomObj).type ≠ .arraycopy := by
      rw [h.wellFormed.phantom_type]
      decide
    refine ⟨.single (.edge hptn h.phantom hcopy (.inl ⟨hty, hi⟩)), fun _ _ => h.mem_edge ?_⟩
    exact fun hpair => absurd (hty.symm.trans hpair.1) (by decide)
  · next hnot =>
    refine ⟨.refl, fun hresult hlocal => ?_⟩
    obtain ⟨hn, hty⟩ := hself hresult
    obtain rfl := Option.some.inj (hn.symm.trans hptn)
    exact absurd ⟨hty, hlocal⟩ hnot

/-- The arguments of a Java call. -/
theorem javaArguments (hT : G.Typed) (hnoted : Noted G c n) {result : Option CallResult}
    {args : CallArguments} (hop : G.kind n = .call result args)
    (heq : c.javaArguments n args = some c') : Changes G n true c c' ∧ Recorded G c' n := by
  cases args with
  | boxing =>
    obtain rfl := Option.some.inj heq
    refine ⟨.refl, ?_⟩
    simp only [Recorded, hop]
  | analyzed args returnLocal =>
    obtain ⟨c₁, hfold, rfl⟩ := Option.map_eq_some_iff.1 heq
    have hstub : ∀ arg ∈ args, (G.kind arg.node).isStub = false := fun arg harg => by
      refine hT.operands (n := n) ?_
      rw [hop]
      exact List.mem_map_of_mem harg
    obtain ⟨hrun, hall⟩ := h.foldlM_changes (n := n) (P := fun c arg =>
      JavaArgumentRecorded c n result arg) (fun {c₁ c₂} arg harg hc₁ hgrows hstep => by
        obtain ⟨c₃, hret, hesc⟩ := Option.bind_eq_some_iff.1 hstep
        obtain ⟨hrun, hedge⟩ := hc₁.returnedArgument hT (hgrows.noted hnoted) hop harg hret
        have hc₃ := (hc₁.changes hrun).1
        obtain ⟨hrun', hescaped⟩ := hc₃.escapingArgument (n := n) (hstub arg harg) hesc
        have hgrows' := (hc₃.changes hrun').2
        exact ⟨hrun.trans hrun', fun hret hresult => hgrows'.edgeTo (hedge hret hresult),
          fun hoop => (hescaped hoop).1, fun hoop => (hescaped hoop).2.1,
          fun hoop => (hescaped hoop).2.2⟩)
      (fun hgrows hP => hgrows.javaArgumentRecorded hP) hfold
    obtain ⟨hbuilt, hgrows⟩ := h.changes hrun
    obtain ⟨hrun', hunknown⟩ := hbuilt.unknownResult hT (hgrows.noted hnoted) hop
    have hgrows' := (hbuilt.changes hrun').2
    refine ⟨hrun.trans hrun', ?_⟩
    simp only [Recorded, hop]
    exact ⟨fun arg harg => hgrows'.javaArgumentRecorded (hall arg harg), hunknown⟩
  | others args =>
    have hstub : ∀ arg ∈ args, (G.kind arg).isStub = false := fun arg harg => by
      refine hT.operands (n := n) ?_
      rw [hop]
      exact harg
    obtain ⟨hrun, hall⟩ := h.foldlM_changes (n := n)
      (P := fun c arg => EscapedTo c .globalEscape arg)
      (fun arg harg hc₁ _ hstep => hc₁.escape (hstub arg harg) hstep)
      (fun hgrows hP => hgrows.escapedTo hP) heq
    refine ⟨hrun, ?_⟩
    simp only [Recorded, hop]
    exact hall

/-! ## Any node

The cases of `add_final_edges` side by side. Each asks for its own edges, and all of them are among
the changes that the construction invariant allows. -/

/-- An edge from a local variable to its input. -/
theorem finalEdge {op : IdealOp} (hop : G.kind n = op) (hT : G.Typed) (hnoted : Noted G c n)
    {es : EscapeState} (hm : op.made = some (blankNode .localVar .other es))
    (hstub : op.isStub = false) {input : ℕ} (hi : input ∈ op.inputs) (ho : input ∈ op.operands)
    (heq : c.edgeTo n input = some c') : Changes G n true c c' ∧ EdgeTo c' n input := by
  subst hop
  have hself := hnoted.node _ hm hstub
  exact h.edgeTo hself (.inl ⟨h.type_of_made hself hm hT, hi⟩) (hT.operands ho) heq

/-- An address gets its base. -/
theorem finalBase {b : ℕ} {offset : Option ℤ} {isOop isUnsafe : Bool}
    (hop : G.kind n = .addP b offset isOop isUnsafe) (hT : G.Typed) (hnoted : Noted G c n)
    (heq : Construction.finalEdges G c n = some c') :
    Changes G n true c c' ∧ ∃ p, c'.node b = some p ∧ p ∈ (c'.graph n).bases := by
  have hself := hnoted.node _ (by rw [hop]; rfl) (by rw [hop]; rfl)
  simp only [Construction.finalEdges, hop, hself] at heq
  split at heq
  swap
  · cases heq
  next field ptn hfield hptn =>
  obtain rfl := Option.some.inj hfield
  obtain rfl := Option.some.inj heq
  have hty := h.type_of_made hself (by rw [hop]; rfl) hT
  have hobj := h.holdsObjects hptn (hT.operands (n := n) (by rw [hop]; simp [IdealOp.operands]))
    (hT.base hop)
  have hchange : Change G n true _ _ := .base hty (h.registered hptn) hobj
  exact ⟨.single hchange, ptn, (h.change hchange).2.node hptn, h.mem_base hty hobj⟩

/-- A merge gets an edge to each input that is not the phantom object or itself. -/
theorem finalMerge {inputs : List MergeInput} (hop : G.kind n = .merge inputs) (hT : G.Typed)
    (hnoted : Noted G c n)
    (heq : inputs.foldlM (fun c input => c.mergeEdge n input) c = some c') :
    Changes G n true c c' ∧ ∀ input ∈ inputs,
      input.uncast = phantomObj ∨ input.uncast = n ∨ EdgeTo c' n input.node := by
  refine h.foldlM_changes (n := n) (P := fun c input =>
    input.uncast = phantomObj ∨ input.uncast = n ∨ EdgeTo c n input.node)
    (fun {c₁ c₂} input hinput hc₁ hgrows hstep => ?_) (fun hgrows hP => ?_) heq
  · unfold Construction.mergeEdge at hstep
    split at hstep
    · next hskip =>
      obtain rfl := Option.some.inj hstep
      exact ⟨.refl, hskip.imp id .inl⟩
    · obtain ⟨hrun, hedge⟩ := hc₁.finalEdge hop hT (hgrows.noted hnoted) rfl rfl
        (List.mem_map_of_mem hinput) (List.mem_map_of_mem hinput) hstep
      exact ⟨hrun, .inr (.inr hedge)⟩
  · obtain hskip | hskip | hedge := hP
    · exact .inl hskip
    · exact .inr (.inl hskip)
    · exact .inr (.inr (hgrows.edgeTo hedge))

/-- `add_final_edges`. -/
theorem finalEdges (hT : G.Typed) (hnoted : Noted G c n)
    (hcopy : (G.kind n).isStub = true → c.node n = none)
    (heq : Construction.finalEdges G c n = some c') :
    Changes G n true c c' ∧ Recorded G c' n := by
  have hfinal := heq
  cases hop : G.kind n with simp only [Construction.finalEdges, hop] at heq
  | addP b offset isOop isUnsafe =>
    simp only [Recorded, hop]
    exact h.finalBase hop hT hnoted hfinal
  | cast input | load input | proj input | ret input =>
    simp only [Recorded, hop]
    exact h.finalEdge hop hT hnoted rfl rfl (List.mem_singleton_self input)
      (List.mem_singleton_self input) heq
  | merge inputs =>
    simp only [Recorded, hop]
    exact h.finalMerge hop hT hnoted heq
  | store access address value =>
    have hstub : (G.kind value).isStub = false :=
      hT.operands (n := n) (by rw [hop]; simp [IdealOp.operands])
    obtain ⟨hrun, hrecorded⟩ := h.finalUnsafeAccess (n := n) hT (fun haccess => by
      subst haccess
      exact hT.address (.inl hop)) hstub heq
    refine ⟨hrun, ?_⟩
    simp only [Recorded, hop]
    exact hrecorded
  | loadStore access address value =>
    have hstub : (G.kind value).isStub = false :=
      hT.operands (n := n) (by rw [hop]; simp [IdealOp.operands])
    obtain ⟨c₁, hedge, haccess⟩ := Option.bind_eq_some_iff.1 heq
    obtain ⟨hrun, hedge⟩ := h.finalEdge hop hT hnoted rfl rfl (by simp [IdealOp.inputs])
      (by simp [IdealOp.operands]) hedge
    obtain ⟨hrun', hrecorded⟩ := (h.changes hrun).1.finalUnsafeAccess (n := n) hT (fun haccess => by
      subst haccess
      exact hT.address (.inr hop)) hstub haccess
    refine ⟨hrun.trans hrun', ?_⟩
    simp only [Recorded, hop]
    exact ⟨((h.changes hrun).1.changes hrun').2.edgeTo hedge, hrecorded⟩
  | stringIntrinsic args =>
    obtain ⟨hrun, hall⟩ := h.foldlM_changes (n := n) (P := fun c arg => EdgeTo c n arg)
      (fun arg harg hc₁ hgrows hstep =>
        hc₁.finalEdge hop hT (hgrows.noted hnoted) rfl rfl harg harg hstep)
      (fun hgrows hP => hgrows.edgeTo hP) heq
    refine ⟨hrun, ?_⟩
    simp only [Recorded, hop]
    exact hall
  | stub call =>
    obtain ⟨hrun, hall⟩ := h.stubArguments hT hop (hcopy (by rw [hop]; rfl)) heq
    refine ⟨hrun, ?_⟩
    simp only [Recorded, hop]
    exact hall
  | call result args => exact h.javaArguments hT hnoted hop heq
  | unknown | con | threadLocal | allocate | other => cases heq

end Built

end

end StackAllocation
