import StackAllocation.IdealKit
import Mathlib.Logic.Relation

/-!
# What the kit's calls mean, and its graphs

A sequence of calls is read as a program over the variables, the memory of each alias class and the
I/O state (`KitCalls.Exec`). A graph runs from control node to control node (`KitStep`); on the way
into a region all its `Phi`s take the values of the inputs of that edge.
-/

namespace StackAllocation

variable {Val : Type}

/-! ## Programs

A program changes variables, memory and I/O, and nothing else. A loop has a meaning only if it ends,
so `Exec` is a relation; an expression has none if a variable without a value occurs in it. -/

/-- The values that a cvstate stands for. A variable need not have one. -/
structure KitEnv (Val : Type) : Type where
  vars : ℕ → Option Val
  memory : ℕ → Val
  io : Val

/-- The value of an expression. -/
def KitExpr.denote (nodes : List Val) (env : KitEnv Val) : KitExpr Val → Option Val
  | .node i => nodes[i]?
  | .value v => env.vars v
  | .memory aliasIdx => some (env.memory aliasIdx)
  | .io => some env.io
  | .op f a b c =>
    (denote nodes env a).bind fun x => (denote nodes env b).bind fun y =>
      (denote nodes env c).map fun z => f x y z

section

variable (K : KitCompiler Val)

/-- Whether `left relop right`. -/
def KitCompiler.test (unsigned : Bool) (left : Val) (relop : BoolTest) (right : Val) : Bool :=
  K.holds (K.bool relop (K.cmp unsigned left right))

/-- `while (iv relop limit) body` -/
inductive Trips (iv : ℕ) (relop : BoolTest) (limit : Val) (body : KitEnv Val → KitEnv Val → Prop) :
    KitEnv Val → KitEnv Val → Prop where
  | leave {env x} : env.vars iv = some x → K.test false x relop limit = false →
      Trips iv relop limit body env env
  | next {env x env₁ env₂} : env.vars iv = some x → K.test false x relop limit = true →
      body env env₁ → Trips iv relop limit body env₁ env₂ → Trips iv relop limit body env env₂

/-- What a sequence of calls does, as a program. -/
def KitCalls.Exec : KitCalls Val → List Val → KitEnv Val → KitEnv Val → Prop
  | .skip, _, env, env' => env' = env
  | .seq first rest, nodes, env, env' =>
    ∃ env₁, Exec first nodes env env₁ ∧ Exec rest nodes env₁ env'
  | .node n rest, nodes, env, env' =>
    ∃ x, n.denote nodes env = some x ∧ Exec rest (x :: nodes) env env'
  | .set v rhs, nodes, env, env' =>
    ∃ x, rhs.denote nodes env = some x ∧
      env' = { env with vars := Function.update env.vars v (some x) }
  | .dead v, _, env, env' => env' = { env with vars := Function.update env.vars v none }
  | .store f aliasIdx adr val, nodes, env, env' =>
    ∃ a x, adr.denote nodes env = some a ∧ val.denote nodes env = some x ∧
      env' = { env with
        memory := Function.update env.memory aliasIdx (f (env.memory aliasIdx) a x) }
  | .setIo c, nodes, env, env' => ∃ x, c.denote nodes env = some x ∧ env' = { env with io := x }
  | .ifThen unsigned left relop right then_, nodes, env, env' =>
    ∃ x y, left.denote nodes env = some x ∧ right.denote nodes env = some y ∧
      bif K.test unsigned x relop y then Exec then_ nodes env env' else env' = env
  | .ifElse unsigned left relop right then_ orelse, nodes, env, env' =>
    ∃ x y, left.denote nodes env = some x ∧ right.denote nodes env = some y ∧
      bif K.test unsigned x relop y then Exec then_ nodes env env' else Exec orelse nodes env env'
  | .loop iv init relop limit body, nodes, env, env' =>
    ∃ x y, init.denote nodes env = some x ∧ limit.denote nodes env = some y ∧
      Trips K iv relop y (Exec body nodes)
        { env with vars := Function.update env.vars iv (some x) } env'

end

/-! ## Graphs

The graph is executed by moving control. What operations compute follows from what the `Phi`s and
the nodes from outside hold; the `Phi`s of a region change together when it is entered, to the
inputs of that edge as they were before. -/

section

variable (node : ℕ → KitNode Val)

/-- The values after a region was entered from an input. -/
def enter (r k : ℕ) (ρ : ℕ → Val) (n : ℕ) : Val :=
  match node n with
  | .phi reg ins =>
    if reg = r then
      match ins[k]? with
      | some (some m) => eval node ρ m
      | _ => ρ n
    else ρ n
  | _ => ρ n

/-- A step of control in the graph, with the values of the nodes that are no operations. -/
inductive KitStep (K : KitCompiler Val) : ℕ × (ℕ → Val) → ℕ × (ℕ → Val) → Prop where
  | ifTrue {c iff bol n ρ} : node iff = .iff c bol → node n = .ifTrue iff →
      K.holds (eval node ρ bol) = true → KitStep K (c, ρ) (n, ρ)
  | ifFalse {c iff bol n ρ} : node iff = .iff c bol → node n = .ifFalse iff →
      K.holds (eval node ρ bol) = false → KitStep K (c, ρ) (n, ρ)
  | predicate {c n ρ} : node n = .predicate c → KitStep K (c, ρ) (n, ρ)
  | region {c r ins k ρ} : node r = .region ins → ins[k]? = some (some c) →
      KitStep K (c, ρ) (r, enter node r k ρ)

/-- A run of the graph. -/
def KitRun (K : KitCompiler Val) : ℕ × (ℕ → Val) → ℕ × (ℕ → Val) → Prop :=
  Relation.ReflTransGen (KitStep node K)

end

/-- A cvstate has the values of `env`. -/
structure CvState.Represents (cv : CvState) (varCt numAliasTypes : ℕ) (value : ℕ → Val)
    (env : KitEnv Val) : Prop where
  vars : ∀ {v x}, v < varCt → env.vars v = some x → ∃ n, cv.vars v = some n ∧ value n = x
  memory : ∃ m, cv.memory = some m ∧ ∀ i < numAliasTypes, value (m i) = env.memory i
  io : ∃ n, cv.io = some n ∧ value n = env.io

/-- A `Phi` has one input for each predecessor of its region, and the region all of them. -/
def CompletePhi (node : ℕ → KitNode Val) (n : ℕ) : Prop :=
  ∀ {r ins}, node n = .phi r ins → ∃ preds, node r = .region preds ∧ ins.length = preds.length ∧
    (∀ k < ins.length, ∃ m, ins[k]? = some (some m)) ∧
    ∀ k < preds.length, ∃ c, preds[k]? = some (some c)

/-- A merge of two has both inputs. -/
theorem exists_getElem?_pair (a b : ℕ) :
    ∀ k < [some a, some b].length, ∃ m, [some a, some b][k]? = some (some m)
  | 0, _ => ⟨a, rfl⟩
  | 1, _ => ⟨b, rfl⟩

/-- The graph of a sequence of calls computes what the sequence does as a program: each new `Phi` is
complete, and from values for the program to start with, the graph has one run to the control at the
end, where the cvstate has the values that the program ends with. -/
def BuildsSsa (K : KitCompiler Val) (start : KitStart) (c : KitCalls Val) (kit : IdealKit Val) :
    Prop :=
  (∀ n, start.size ≤ n → n < kit.size → CompletePhi kit.graph n) ∧
    ∀ {ρ env env'}, (IdealKit.declarationsDone start : IdealKit Val).cvstate.Represents start.varCt
        start.numAliasTypes (eval kit.graph ρ) env →
      c.Exec K (start.nodes.map (eval kit.graph ρ)) env env' →
      ∃ ctrl ρ', kit.cvstate.ctrl = some ctrl ∧
        KitRun kit.graph K (start.ctrl, ρ) (ctrl, ρ') ∧
        kit.cvstate.Represents start.varCt start.numAliasTypes (eval kit.graph ρ') env' ∧
        ∀ ρ'', KitRun kit.graph K (start.ctrl, ρ) (ctrl, ρ'') → ρ'' = ρ'

/-! ## The value of a node

Which operations there are decides the value of a node, as long as the depth suffices. So the value
is the same in every graph that contains them, with whatever comes later. -/

/-- The operation at a node. -/
def KitNode.op? : KitNode Val → Option ((Val → Val → Val → Val) × ℕ × ℕ × ℕ)
  | .op f a b c => some (f, a, b, c)
  | _ => none

@[simp]
theorem KitNode.op?_eq_some {n : KitNode Val} {f a b c} :
    n.op? = some (f, a, b, c) ↔ n = .op f a b c := by
  cases n <;> simp [op?]

section

variable {node node' : ℕ → KitNode Val} {ρ ρ' : ℕ → Val} {size n : ℕ}

/-- A node that is no operation has the value that is given. -/
theorem eval_of_op?_eq_none (h : (node n).op? = none) : eval node ρ n = ρ n := by
  unfold eval evalUpTo
  split
  · next heq => simp [heq, KitNode.op?] at h
  · rfl

/-- Beyond the number of the node the depth does not matter. -/
theorem evalUpTo_eq_eval (hord : Ordered node size) (hn : n < size) {depth : ℕ} (hd : n < depth) :
    evalUpTo node ρ depth n = eval node ρ n := by
  induction n using Nat.strong_induction_on generalizing depth with
  | _ n ih =>
    obtain ⟨depth, rfl⟩ := Nat.exists_eq_add_of_lt hd
    unfold eval evalUpTo
    split
    · next f a b c heq =>
      obtain ⟨ha, hb, hc⟩ := hord n hn f a b c heq
      rw [ih a ha (by omega) (by omega), ih b hb (by omega) (by omega),
        ih c hc (by omega) (by omega), ih a ha (by omega) ha, ih b hb (by omega) hb,
        ih c hc (by omega) hc]
    · rfl

/-- An operation has the value that it computes of its inputs. -/
theorem eval_op (hord : Ordered node size) (hn : n < size) {f a b c} (h : node n = .op f a b c) :
    eval node ρ n = f (eval node ρ a) (eval node ρ b) (eval node ρ c) := by
  obtain ⟨ha, hb, hc⟩ := hord n hn f a b c h
  have hd : eval node ρ n =
      f (evalUpTo node ρ n a) (evalUpTo node ρ n b) (evalUpTo node ρ n c) := by
    simp only [eval, evalUpTo, h]
  rw [hd, evalUpTo_eq_eval hord (by omega) ha, evalUpTo_eq_eval hord (by omega) hb,
    evalUpTo_eq_eval hord (by omega) hc]

theorem Ordered.mono {size' : ℕ} (h : Ordered node size') (hle : size ≤ size') :
    Ordered node size := fun n hn => h n (hn.trans_le hle)

/-- The same operations have the same order. -/
theorem Ordered.congr (hord : Ordered node size)
    (hops : ∀ n < size, (node' n).op? = (node n).op?) : Ordered node' size := by
  intro n hn f a b c h
  have : (node n).op? = some (f, a, b, c) := by rw [← hops n hn, h]; rfl
  exact hord n hn f a b c (KitNode.op?_eq_some.mp this)

/-- The values up to a node depend on the operations and the given values up to there. -/
theorem eval_congr (hord : Ordered node size) (hops : ∀ n < size, (node' n).op? = (node n).op?)
    (hρ : ∀ n < size, (node n).op? = none → ρ' n = ρ n) (hn : n < size) :
    eval node' ρ' n = eval node ρ n := by
  induction n using Nat.strong_induction_on with
  | _ n ih =>
    cases h : (node n).op? with
    | none =>
      rw [eval_of_op?_eq_none h, eval_of_op?_eq_none ((hops n hn).trans h), hρ n hn h]
    | some op =>
      obtain ⟨f, a, b, c⟩ := op
      have hop := KitNode.op?_eq_some.mp h
      have hop' := KitNode.op?_eq_some.mp ((hops n hn).trans h)
      obtain ⟨ha, hb, hc⟩ := hord n hn f a b c hop
      rw [eval_op hord hn hop, eval_op (hord.congr hops) hn hop', ih a ha (by omega),
        ih b hb (by omega), ih c hc (by omega)]

end

end StackAllocation
