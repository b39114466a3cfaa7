import StackAllocation.IdealKitTrips

/-!
# The kit builds SSA

A sequence of calls whose loops change every variable that has a value at their head, and no memory
and no I/O state, builds a graph that runs as the program does: at the end every variable, every
slice of memory and the I/O state has the value of the program, and every `Phi` has all its inputs
(`IdealKit.calls_result`). A store in the body of a loop is lost after it
(`IdealKit.not_buildsSsa_storeInLoop`).
-/

namespace StackAllocation

variable {Val : Type}

namespace IdealKit

section

variable (K : KitCompiler Val)

/-- `endsWithHead` of the head on the stack -/
def endsCarried (kit : IdealKit Val) : Bool :=
  match kit.pendingCvstates with
  | _ :: head :: _ => kit.endsWithHead head
  | _ => true

/-- Before each `end_loop` of a sequence the state is that of the head, but for new values of the
variables there. -/
def loopsCarried : KitCalls Val → List ℕ → IdealKit Val → Bool
  | .seq first rest, nodes, kit =>
    loopsCarried first nodes kit && (calls K first nodes kit).all (loopsCarried rest nodes)
  | .node n rest, nodes, kit =>
    (expr K nodes n kit).all fun r => loopsCarried rest (r.1 :: nodes) r.2
  | .ifThen unsigned left relop right then_, nodes, kit =>
    (kit.openIf K nodes unsigned left relop right).all (loopsCarried then_ nodes)
  | .ifElse unsigned left relop right then_ orelse, nodes, kit =>
    (kit.openIf K nodes unsigned left relop right).all fun kit =>
      loopsCarried then_ nodes kit &&
        ((calls K then_ nodes kit).bind else_).all (loopsCarried orelse nodes)
  | .loop iv init relop limit body, nodes, kit =>
    (kit.openLoop K nodes iv init relop limit).all fun kit =>
      loopsCarried body nodes kit && (calls K body nodes kit).all endsCarried
  | _, _, _ => true

end

section

variable {K : KitCompiler Val} {nodes : List ℕ} {kit kit₃ kit₄ kit' : IdealKit Val}

/-- The start of a loop: the values that the loop variable starts with and is compared with, the
region with its `Phi`s, and the `If`. -/
theorem openLoop_opened {iv : ℕ} {init limit : KitExpr Val} {relop : BoolTest}
    (hkit : kit.WellFormed) (hnodes : ∀ i ∈ nodes, i < kit.size)
    (h : kit.openLoop K nodes iv init relop limit = some kit₃) :
    iv < kit.varCt ∧ ∃ kit₀ kit₁ kit₂ ctrl c ninit nlimit value bol iff, Adds IsOp kit kit₀ ∧
      ninit < kit₀.size ∧ nlimit < kit₀.size ∧ kit₀.cvstate.ctrl = some ctrl ∧
      Entering kit₀ kit₁ ctrl c iv ninit ∧ Headed kit₁ kit₂ c ∧ kit₂.cvstate.vars iv = some value ∧
      Opened { kit₂ with pendingCvstates := kit₂.cvstate :: kit₂.pendingCvstates } kit₃ kit₁.size
        bol iff ∧
      (∀ {G ρ}, Agrees G kit₃ →
        K.holds (eval G ρ bol) = K.test false (eval G ρ value) relop (eval G ρ nlimit)) ∧
      ∀ {G ρ env x y}, Agrees G kit₀ →
        kit.cvstate.Represents kit.varCt kit.numAliasTypes (eval G ρ) env →
        init.denote (nodes.map (eval G ρ)) env = some x →
        limit.denote (nodes.map (eval G ρ)) env = some y →
        eval G ρ ninit = x ∧ eval G ρ nlimit = y := by
  unfold openLoop at h
  split at h
  swap
  · cases h
  next hiv =>
  simp only [Option.bind_eq_some_iff] at h
  obtain ⟨⟨ninit, kiti⟩, hinit, ⟨nlimit, kitl⟩, hlimit, hloop⟩ := h
  obtain ⟨haddi, hlti, hvali⟩ := expr_adds hkit hnodes hinit
  have hkiti := haddi.wellFormed (fun _ _ => IsOp.older) hkit
  obtain ⟨haddl, hltl, hvall⟩ :=
    expr_adds hkiti (fun i hi => (hnodes i hi).trans_le haddi.size_le) hlimit
  have hkitl := haddl.wellFormed (fun _ _ => IsOp.older) hkiti
  have hltil : ninit < kitl.size := hlti.trans_le haddl.size_le
  obtain ⟨kit₁, kit₂, ctrl, c, value, bol, iff, hctrl, hentering, hheaded, hvalue, hopened,
    htest⟩ := loop_opened hkitl hltil hltl hloop
  refine ⟨hiv, kitl, kit₁, kit₂, ctrl, c, ninit, nlimit, value, bol, iff, haddi.trans haddl, hltil,
    hltl, hctrl, hentering, hheaded, hvalue, hopened, htest, fun {G ρ env x y} hG hrep hx hy => ?_⟩
  have hrepi := haddi.represents hrep
  exact ⟨hvali (haddl.agrees hG) hrep hx, hvall hG hrepi hy⟩

/-- A loop: its start, a body that ends with the state of the head, and the back edge. -/
theorem result_loop {iv : ℕ} {init limit : KitExpr Val} {relop : BoolTest} {body : KitCalls Val}
    (hkit : kit.WellFormed) (hnodes : ∀ i ∈ nodes, i < kit.size)
    (hopen : kit.openLoop K nodes iv init relop limit = some kit₃)
    (hbody : kit₃.WellFormed → kit.size ≤ kit₃.size → Result K body nodes kit₃ kit₄)
    (hends : kit₄.endsCarried = true) (hend : kit₄.endLoop = some kit') :
    Result K (.loop iv init relop limit body) nodes kit kit' := by
  obtain ⟨hiv, kit₀, kit₁, kit₂, ctrl, c, ninit, nlimit, value, bol, iff, hadds, hinit, hlimit,
    hctrl, hentering, hheaded, hvalue, hopened, htest, hvalues⟩ := openLoop_opened hkit hnodes hopen
  have hkit₀ := hadds.wellFormed (fun _ _ => IsOp.older) hkit
  have hkit₂ := hheaded.wellFormed (hentering.wellFormed hkit₀ hctrl hinit)
  have hkit₃ := hopened.wellFormed ⟨hkit₂.older, hkit₂.cvstate⟩
  have h₂ : kit₂.size ≤ iff := hopened.size_le
  have h₃ := hopened.size
  have hle₃ : kit.size ≤ kit₃.size := by
    have h₀ := hadds.size_le
    have h₁ := hentering.size_le
    have h₂ := hheaded.size_lt
    omega
  have hres := hbody hkit₃ hle₃
  obtain ⟨c₁, hc₁, -⟩ := hres.wellFormed.cvstate.ctrl
  -- the state of the head and that behind the loop wait on the stack
  have hpending : kit₄.pendingCvstates =
      { kit₂.cvstate with ctrl := some (iff + 2) } :: kit₂.cvstate :: kit.pendingCvstates := by
    rw [hres.grows.pendingCvstates, hopened.pendingCvstates, hheaded.pendingCvstates,
      hentering.pendingCvstates, hadds.pendingCvstates]
  unfold endsCarried at hends
  rw [hpending] at hends
  have hold {n : ℕ} (hn : n < kit₂.size) : kit₄.node n = kit₂.node n := by
    rw [hres.grows.node n (by omega), hopened.node n hn]
  obtain ⟨l₀, hio, -⟩ := hkit₂.cvstate.io
  obtain ⟨m₀, hmem, -⟩ := hkit₂.cvstate.memory
  obtain ⟨m₁, hmem₁, -⟩ := hres.wellFormed.cvstate.memory
  have hphi : ∀ i p, kit₂.cvstate.vars i = some p →
      ∃ m, kit₄.node p = .phi kit₁.size [some m, none] := fun i p hp => by
    obtain ⟨-, m, -, -, hlt, hnode⟩ := hheaded.phi hp
    exact ⟨m, (hold hlt).trans hnode⟩
  obtain ⟨hclosed, hcvstate, hpending'⟩ := endLoop_closed hpending hheaded.ctrl
    ((hold hheaded.size_lt).trans hheaded.node_region) hc₁ hio hmem hmem₁ hphi hheaded.vars_inj
    hends hend
  have hparts : LoopParts K kit kit₀ kit₁ kit₂ kit₃ kit₄ kit' ctrl c c₁ iv ninit nlimit value bol
      iff relop :=
    ⟨hkit, hadds, hinit, hlimit, hiv, hadds.cvstate ▸ hctrl, hentering, hheaded, hvalue, hopened,
      htest, hres.grows, hres.wellFormed, hc₁, hends, hclosed, hcvstate, hpending'⟩
  refine ⟨hparts.result_wellFormed, hparts.grows, ?_, ?_⟩
  · intro a b ha hb
    obtain rfl := Option.some.inj (hparts.ctrl_eq.symm.trans ha)
    rw [hcvstate] at hb
    obtain rfl := Option.some.inj hb
    exact hparts.threads (hres.threads (by rw [hopened.cvstate]) hc₁)
  rintro G ρ env env' a a' hG ha ha' hrep ⟨x, y, hx, hy, htrips⟩
  obtain rfl := Option.some.inj (hparts.ctrl_eq.symm.trans ha)
  rw [hcvstate] at ha'
  obtain rfl := Option.some.inj ha'
  obtain ⟨h₀, h₁, h₂, h₃, h₄, h₅, h₆⟩ := hparts.sizes
  have hG₀ : Agrees G kit₀ := fun n hn => by
    rw [hG.agrees n (by omega), hparts.node_before (by omega), hentering.node n hn]
  obtain ⟨rfl, rfl⟩ := hvalues hG₀ hrep hx hy
  exact hparts.simulates hG hnodes hres hrep htrips

/-- Every sequence of calls whose loops change what has a `Phi`, and nothing else, does what it
should. -/
theorem calls_result (c : KitCalls Val) (hkit : kit.WellFormed) (hnodes : ∀ i ∈ nodes, i < kit.size)
    (hcalls : calls K c nodes kit = some kit') (hcarried : loopsCarried K c nodes kit = true) :
    Result K c nodes kit kit' := by
  induction c generalizing nodes kit kit' with
  | skip =>
    obtain rfl := Option.some.inj hcalls
    exact result_skip hkit
  | seq first rest ih₁ ih₂ =>
    obtain ⟨kit₁, hfirst, hrest⟩ := Option.bind_eq_some_iff.mp hcalls
    simp only [loopsCarried, hfirst, Option.all_some, Bool.and_eq_true] at hcarried
    have h₁ := ih₁ hkit hnodes hfirst hcarried.1
    exact result_seq hkit hnodes h₁ (ih₂ h₁.wellFormed
      (fun i hi => (hnodes i hi).trans_le h₁.grows.size_le) hrest hcarried.2)
  | node e rest ih =>
    obtain ⟨⟨n, kit₁⟩, hexpr, hrest⟩ := Option.bind_eq_some_iff.mp hcalls
    simp only [loopsCarried, hexpr, Option.all_some] at hcarried
    obtain ⟨hadds, hlt, -⟩ := expr_adds hkit hnodes hexpr
    have hnodes₁ : ∀ i ∈ n :: nodes, i < kit₁.size := by
      rintro i (_ | ⟨_, hi⟩)
      · exact hlt
      · exact (hnodes i hi).trans_le hadds.size_le
    exact result_node hkit hnodes hexpr
      (ih (hadds.wellFormed (fun _ _ => IsOp.older) hkit) hnodes₁ hrest hcarried)
  | set v rhs => exact result_set hkit hnodes hcalls
  | dead v => exact result_dead hkit hcalls
  | store f aliasIdx adr val => exact result_store hkit hnodes hcalls
  | setIo e => exact result_setIo hkit hnodes hcalls
  | ifThen unsigned left relop right then_ ih =>
    simp only [calls, Option.bind_eq_some_iff] at hcalls
    obtain ⟨kit₁, hopen, kit₂, hthen, hend⟩ := hcalls
    simp only [loopsCarried, hopen, Option.all_some] at hcarried
    obtain ⟨ctrl, bol, iff, hopened, -⟩ := openIf_opened hkit hnodes hopen
    have hbody := ih (hopened.wellFormed hkit)
      (fun i hi => (hnodes i hi).trans_le hopened.addsNodes.size_le) hthen hcarried
    exact result_ifThen hkit hnodes hopen hbody hend
  | ifElse unsigned left relop right then_ orelse ih₁ ih₂ =>
    simp only [calls, Option.bind_eq_some_iff] at hcalls
    obtain ⟨kit₁, hopen, kit₂, hthen, kit₃, helse, kit₄, horelse, hend⟩ := hcalls
    simp only [loopsCarried, hopen, hthen, helse, Option.all_some, Option.bind_some,
      Bool.and_eq_true] at hcarried
    obtain ⟨ctrl, bol, iff, hopened, -⟩ := openIf_opened hkit hnodes hopen
    have hle := hopened.addsNodes.size_le
    have hbody := ih₁ (hopened.wellFormed hkit) (fun i hi => (hnodes i hi).trans_le hle) hthen
      hcarried.1
    refine result_ifElse hkit hnodes hopen hbody helse (fun hkit₃ => ?_) hend
    have hsize : kit₃.size = kit₂.size := by
      unfold else_ at helse
      split at helse
      · obtain rfl := Option.some.inj helse
        rfl
      · cases helse
    refine ih₂ hkit₃ (fun i hi => ?_) horelse hcarried.2
    rw [hsize]
    exact ((hnodes i hi).trans_le hle).trans_le hbody.grows.size_le
  | loop iv init relop limit body ih =>
    simp only [calls, Option.bind_eq_some_iff] at hcalls
    obtain ⟨kit₃, hopen, kit₄, hbody, hend⟩ := hcalls
    simp only [loopsCarried, hopen, hbody, Option.all_some, Bool.and_eq_true] at hcarried
    exact result_loop hkit hnodes hopen
      (fun hkit₃ hle => ih hkit₃ (fun i hi => (hnodes i hi).trans_le hle) hbody hcarried.1)
      hcarried.2 hend

theorem declarationsDone_wellFormed (start : KitStart) :
    (declarationsDone start : IdealKit Val).WellFormed where
  older := fun _ _ => trivial
  cvstate := ⟨⟨_, rfl, start.ctrl_lt⟩, ⟨_, rfl, start.io_lt⟩, ⟨_, rfl, start.memory_lt⟩, nofun⟩

/-- What is built is in the graph. -/
theorem embeds_graph {start : KitStart} (hkit : kit.WellFormed) :
    Embeds kit.graph (declarationsDone start) kit where
  same := fun n _ hn => if_pos hn
  agrees := fun n hn => by rw [graph, if_pos hn]
  phi := by
    intro n r ins hphi hr _
    unfold graph at hphi
    split at hphi
    · next hn =>
      have hold := hkit.older n hn
      rw [hphi] at hold
      have hold : r < n := hold
      exact ⟨by omega, hn⟩
    · cases hphi

/-- A sequence of calls builds what it computes if before each `end_loop` the variables with a value
are those at the head, each with a node that is not its `Phi` there, and memory and I/O are those of
the head. -/
theorem calls_buildsSsa {start : KitStart} {c : KitCalls Val}
    (hcalls : calls K c start.nodes (declarationsDone start) = some kit)
    (hcarried : loopsCarried K c start.nodes (declarationsDone start) = true) :
    BuildsSsa K start c kit := by
  have hres := calls_result c (declarationsDone_wellFormed start) start.nodes_lt hcalls hcarried
  have hadds := hres.grows.toAddsNodes
  obtain ⟨ctrl, hctrl, -⟩ := hres.wellFormed.cvstate.ctrl
  refine ⟨fun n hn hn' => ?_, fun {ρ env env'} hrep hexec => ?_⟩
  · refine completePhi_of_node (if_pos hn') (fun {r ins} hphi => ?_) (hadds.complete n hn hn')
    have hold := hres.wellFormed.older n hn'
    rw [hphi] at hold
    have hold : r < n := hold
    exact if_pos (by omega)
  · obtain ⟨ρ', hrun, hrep', -⟩ :=
      hres.simulates (embeds_graph hres.wellFormed) rfl hctrl hrep hexec
    have hthreads : Threads kit.graph start.size kit.size start.ctrl ctrl :=
      (hres.threads rfl hctrl).congr fun n _ hn => if_pos hn
    have hout : ∀ n, n < start.size ∨ kit.size ≤ n → kit.graph n = .outer := by
      intro n hn
      unfold graph
      split
      · next hlt =>
        rcases hn with hn | hn
        · exact hadds.node n hn
        · omega
      · rfl
    exact ⟨ctrl, ρ', hctrl, hrun, hrep', fun ρ'' hrun' =>
      KitRun.eq_of_threads hthreads hout hrun hrun'⟩

end

/-! ## Two loops

The code breaks the conditions in two ways. A store in the body gives the slice no `Phi`, so the
state after the loop has the memory from before it; a variable that the body leaves keeps a `Phi`
with one input. -/

/-- Integers, with the difference as their comparison. -/
def intCompiler : KitCompiler ℤ where
  cmp := fun _ l r => l - r
  bool := fun relop c => if relop.holds (compare c 0) then 1 else 0
  holds := fun v => decide (v ≠ 0)
  gvn := fun _ _ _ _ _ _ => none
  gvn_eval := nofun

/-- Two variables, one slice of memory (node 2), and three nodes at hand (3, 4 and 5). -/
def loopStart : KitStart where
  size := 6
  ctrl := 0
  io := 1
  memory := fun _ => 2
  nodes := [3, 4, 5]
  varCt := 2
  numAliasTypes := 1
  useLoopPredicate := false
  ctrl_lt := by decide
  io_lt := by decide
  memory_lt := by decide
  nodes_lt := by decide

/-- `v = v + 1`, when the second node at hand is one -/
def increment (v : ℕ) : KitCalls ℤ :=
  .set v (.op (fun a b _ => a + b) (.value v) (.node 1) (.node 1))

/-- Counts to one in a loop, and then stores. -/
def countThenStore : KitCalls ℤ :=
  .seq (.loop 0 (.node 0) .lt (.node 1) (increment 0))
    (.ifThen true (.value 0) .eq (.node 1) (.store (fun _ _ v => v) 0 (.node 0) (.node 2)))

theorem calls_buildsSsa_countThenStore :
    BuildsSsa intCompiler loopStart countThenStore
      ((calls intCompiler countThenStore loopStart.nodes (declarationsDone loopStart)).get rfl) :=
  calls_buildsSsa (Option.some_get _).symm (by decide +kernel)

/-- Stores in the loop. -/
def storeInLoop : KitCalls ℤ :=
  .loop 0 (.node 0) .lt (.node 1)
    (.seq (.store (fun _ _ v => v) 0 (.node 0) (.node 2)) (increment 0))

/-- Has a variable with a value that the loop leaves. -/
def unchangedInLoop : KitCalls ℤ :=
  .seq (.set 1 (.node 2)) (.loop 0 (.node 0) .lt (.node 1) (increment 0))

/-- A step does not change the values of nodes that are no `Phi`. -/
theorem step_of_not_phi {K : KitCompiler Val} {node : ℕ → KitNode Val} {s t : ℕ × (ℕ → Val)} {n : ℕ}
    (h : KitStep node K s t) (hn : ∀ r ins, node n ≠ .phi r ins) : t.2 n = s.2 n := by
  cases h with
  | @region _ r _ k ρ =>
    change enter node r k ρ n = ρ n
    unfold enter
    split
    · next reg ins heq => exact absurd heq (hn reg ins)
    · rfl
  | _ => rfl

theorem run_of_not_phi {K : KitCompiler Val} {node : ℕ → KitNode Val} {s t : ℕ × (ℕ → Val)} {n : ℕ}
    (h : KitRun node K s t) (hn : ∀ r ins, node n ≠ .phi r ins) : t.2 n = s.2 n := by
  induction h with
  | refl => rfl
  | tail _ hstep ih => exact (step_of_not_phi hstep hn).trans ih

/-- Values for the program: the nodes at hand are 0, 1 and 7. -/
def loopValues (n : ℕ) : ℤ := if n = 4 then 1 else if n = 5 then 7 else 0

/-- The nodes from before are in the graph. -/
theorem eval_outer {kit : IdealKit ℤ} {n : ℕ} {ρ : ℕ → ℤ} (h : kit.graph n = .outer) :
    eval kit.graph ρ n = ρ n := eval_of_op?_eq_none (by rw [h]; rfl)

/-- The program stores. -/
theorem exec_storeInLoop {io : ℤ} :
    storeInLoop.Exec intCompiler [0, 1, 7] ⟨fun _ => none, fun _ => 0, io⟩
      ⟨Function.update (Function.update (fun _ => none) 0 (some 0)) 0 (some 1),
        Function.update (fun _ => 0) 0 7, io⟩ := by
  refine ⟨0, 1, rfl, rfl, .next rfl (by decide) ⟨_, ⟨0, 7, rfl, rfl, rfl⟩, 1, rfl, rfl⟩ ?_⟩
  exact .leave rfl (by decide)

/-- The store of one trip is lost, and the variable keeps a `Phi` with one input. -/
theorem not_buildsSsa_storeInLoop :
    (∃ kit, calls intCompiler storeInLoop loopStart.nodes (declarationsDone loopStart) = some kit ∧
      ¬BuildsSsa intCompiler loopStart storeInLoop kit) ∧
    ∃ kit,
      calls intCompiler unchangedInLoop loopStart.nodes (declarationsDone loopStart) = some kit ∧
      ¬BuildsSsa intCompiler loopStart unchangedInLoop kit := by
  constructor
  · obtain ⟨kit, hkit⟩ : ∃ kit,
        calls intCompiler storeInLoop loopStart.nodes (declarationsDone loopStart) = some kit :=
      ⟨_, rfl⟩
    refine ⟨kit, hkit, fun h => ?_⟩
    have houter : ((List.range 6).map kit.graph) = List.replicate 6 .outer := by
      have : (calls intCompiler storeInLoop loopStart.nodes (declarationsDone loopStart)).map
          (fun kit => (List.range 6).map kit.graph) = some (List.replicate 6 .outer) := rfl
      rw [hkit] at this
      exact Option.some.inj this
    have hnode {n : ℕ} (hn : n < 6) : kit.graph n = .outer := by
      have hget : ((List.range 6).map kit.graph)[n]? = some (kit.graph n) := by simp [hn]
      rw [houter, List.getElem?_replicate_of_lt hn] at hget
      exact (Option.some.inj hget).symm
    have hmem : kit.cvstate.memory.map (fun m => m 0) = some 2 := by
      have : (calls intCompiler storeInLoop loopStart.nodes (declarationsDone loopStart)).bind
          (fun kit => kit.cvstate.memory.map fun m => m 0) = some 2 := rfl
      rwa [hkit] at this
    have hvalues : loopStart.nodes.map (eval kit.graph loopValues) = [0, 1, 7] := by
      simp only [loopStart, List.map_cons, List.map_nil, eval_outer (hnode (show 3 < 6 by decide)),
        eval_outer (hnode (show 4 < 6 by decide)), eval_outer (hnode (show 5 < 6 by decide))]
      rfl
    have hrep : (declarationsDone loopStart : IdealKit ℤ).cvstate.Represents loopStart.varCt
        loopStart.numAliasTypes (eval kit.graph loopValues) ⟨fun _ => none, fun _ => 0, 0⟩ :=
      ⟨nofun, ⟨_, rfl, fun _ _ => eval_outer (hnode (show 2 < 6 by decide))⟩,
        ⟨_, rfl, eval_outer (hnode (show 1 < 6 by decide))⟩⟩
    obtain ⟨ctrl, ρ', -, hrun, hrep', -⟩ := h.2 hrep (hvalues ▸ exec_storeInLoop)
    obtain ⟨m, hm, hval⟩ := hrep'.memory
    rw [hm, Option.map_some, Option.some.injEq] at hmem
    have hkept : ρ' 2 = loopValues 2 := run_of_not_phi hrun fun r ins => by
      rw [hnode (show 2 < 6 by decide)]
      nofun
    have hlost := hval 0 (by decide)
    rw [hmem, eval_outer (hnode (show 2 < 6 by decide)), hkept] at hlost
    exact absurd hlost (by decide)
  · obtain ⟨kit, hkit⟩ : ∃ kit,
        calls intCompiler unchangedInLoop loopStart.nodes (declarationsDone loopStart) = some kit :=
      ⟨_, rfl⟩
    refine ⟨kit, hkit, fun h => ?_⟩
    have hsize : kit.size = 15 := by
      have : (calls intCompiler unchangedInLoop loopStart.nodes (declarationsDone loopStart)).map
          (fun kit => kit.size) = some 15 := rfl
      rw [hkit] at this
      exact Option.some.inj this
    have hphi : kit.graph 8 = .phi 6 [some 5, none] := by
      have : (calls intCompiler unchangedInLoop loopStart.nodes (declarationsDone loopStart)).map
          (fun kit => kit.graph 8) = some (.phi 6 [some 5, none]) := rfl
      rw [hkit] at this
      exact Option.some.inj this
    obtain ⟨preds, -, -, hins, -⟩ := h.1 8 (by decide) (by omega) hphi
    obtain ⟨m, hm⟩ := hins 1 (by decide)
    cases hm

end IdealKit

end StackAllocation
