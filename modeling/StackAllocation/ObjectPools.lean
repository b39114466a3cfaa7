import StackAllocation.SafepointScopes
import Mathlib.Data.List.Dedup
import Mathlib.Data.Finset.Card
import Mathlib.Data.Finset.Dedup

/-!
# The object pool of a safepoint

The frames of a safepoint share one object pool. `Described` says which scalar
objects a safepoint mentions: those in the locals, the expression stack, the
monitors or the scalar area of some frame, and those in the fields of a
scalar-replaced one. `PoolOk` says what deoptimization relies on: one entry for each
of them, complete, to which every reference of every frame leads.

`FillLocArray` only ever appends to the pool. `Grown` says what the appended part is
in terms of the whole: the invariant that goes through the recursion, where the
entries of the objects that enclose the present one are not complete yet.
-/

namespace StackAllocation

variable {Jobject : Type}

/-- The ids of the entries of a pool. -/
abbrev poolIds (objs : List (WrittenObject Jobject)) : List JInt := objs.map fun sv => sv.id

/-- The search of `sv_for_node_id` is a search for the first entry with the id. -/
theorem svForNodeId_eq (objs : List (WrittenObject Jobject)) (id : JInt) :
    svForNodeId objs id = (poolIds objs).findIdx? fun id' => id' == id := by
  rw [svForNodeId, poolIds, List.findIdx?_map]
  rfl

/-- It depends on the ids only. -/
theorem svForNodeId_congr {objs objs' : List (WrittenObject Jobject)}
    (h : poolIds objs = poolIds objs') (id : JInt) :
    svForNodeId objs id = svForNodeId objs' id := by
  rw [svForNodeId_eq, svForNodeId_eq, h]

/-- It finds nothing if the id is in no entry. -/
theorem svForNodeId_eq_none {objs : List (WrittenObject Jobject)} {id : JInt} :
    svForNodeId objs id = none ↔ id ∉ poolIds objs := by
  rw [svForNodeId_eq, List.findIdx?_eq_none_iff]
  constructor
  · intro h hmem
    have := h id hmem
    simp at this
  · intro h id' hid'
    rw [beq_eq_false_iff_ne]
    rintro rfl
    exact h hid'

/-- The place of an entry does not change when the pool grows. -/
theorem svForNodeId_append {objs : List (WrittenObject Jobject)} {id : JInt}
    (h : id ∈ poolIds objs) (new : List (WrittenObject Jobject)) :
    svForNodeId (objs ++ new) id = svForNodeId objs id := by
  obtain ⟨j, hj⟩ := Option.ne_none_iff_exists'.1 fun hnone => svForNodeId_eq_none.1 hnone h
  rw [hj]
  unfold svForNodeId at hj ⊢
  rw [List.findIdx?_append, hj]
  rfl

/-- An entry that is appended is found behind all that were there, and stays so when more are
appended. -/
theorem svForNodeId_concat {objs : List (WrittenObject Jobject)} {sv : WrittenObject Jobject}
    (h : sv.id ∉ poolIds objs) (new : List (WrittenObject Jobject)) :
    svForNodeId (objs ++ sv :: new) sv.id = some objs.length := by
  have hnone := svForNodeId_eq_none.2 h
  unfold svForNodeId at hnone ⊢
  rw [List.findIdx?_append, hnone, List.findIdx?_cons]
  simp

/-- The entry at the place of an id has this id. -/
theorem id_of_svForNodeId {objs : List (WrittenObject Jobject)} {id : JInt} {j : ℕ}
    (h : svForNodeId objs id = some j) : ∃ sv, objs[j]? = some sv ∧ sv.id = id := by
  unfold svForNodeId at h
  rw [List.findIdx?_eq_some_iff_getElem] at h
  obtain ⟨hlt, hid, -⟩ := h
  exact ⟨objs[j], List.getElem?_eq_getElem hlt, beq_iff_eq.1 hid⟩

namespace MachSafePoint

variable (sfpt : MachSafePoint Jobject)

/-! ## What a safepoint describes

The objects that the frames of a safepoint mention, one through another. An object in the frame is
mentioned once and is not followed; a scalar-replaced one mentions those in its fields. -/

/-- The nodes from which the description of a frame starts. -/
def frameNodes (jvms : JvmState) : List (DebugNode Jobject) :=
  sfpt.localNodes jvms ++ sfpt.stackNodes jvms ++ (sfpt.monitorNodes jvms).map Prod.snd

/-- The scalar objects some nodes mention, directly or in the fields of scalar-replaced
ones. The contents of a stack object are in the frame. -/
inductive Described (nodes : List (DebugNode Jobject)) : JInt → Prop
  | node {idx : JInt} : .scalarObject idx ∈ nodes → Described nodes idx
  | field {idx idx' : JInt} : Described nodes idx →
      (sfpt.scalarObject idx).stackAllocated = false →
      .scalarObject idx' ∈ sfpt.fieldNodes idx → Described nodes idx'

/-- What the loop over the scalar area asserts, in terms of the safepoint: a scalar object
there that is not stack allocated is described by this frame or an older one. It is the
value of a field. -/
def ScalarAreaOk : Prop :=
  ∀ older jvms younger, sfpt.chain = older ++ jvms :: younger →
    ∀ idx, .scalarObject idx ∈ sfpt.scalarNodes jvms →
      (sfpt.scalarObject idx).stackAllocated = true ∨
        sfpt.Described ((older ++ [jvms]).flatMap sfpt.frameNodes) idx

/-- The scope values of a node, where a scalar object is its entry of the pool. -/
def nodeValues (objs : List (WrittenObject Jobject)) :
    DebugNode Jobject → List (WrittenValue Jobject)
  | .scalarObject idx => ((svForNodeId objs idx).map .object).toList
  | .allocated base reg isOop _ => registerEntries sfpt.platform base reg isOop
  | .constant con => constantEntries con

/-- An entry is complete: a stack object has its place and number of fields, any other
object the values of all its fields, with an entry for each object among them. -/
structure EntryOk (objs : List (WrittenObject Jobject)) (sv : WrittenObject Jobject) : Prop where
  stack : (sfpt.scalarObject sv.id).stackAllocated = true →
    sv = newStackObjectValue sv.id (sfpt.scalarObject sv.id)
  object : (sfpt.scalarObject sv.id).stackAllocated = false →
    sv = newObjectValue sv.id (sfpt.scalarObject sv.id)
        ((sfpt.fieldNodes sv.id).flatMap (sfpt.nodeValues objs)) ∧
      ∀ idx, .scalarObject idx ∈ sfpt.fieldNodes sv.id → idx ∈ poolIds objs

/-- The values of the nodes refer to the entries of the pool. -/
def RefersTo (objs : List (WrittenObject Jobject)) (nodes : List (DebugNode Jobject))
    (values : List (WrittenValue Jobject)) : Prop :=
  ∀ (i : ℕ) (idx : JInt), nodes[i]? = some (DebugNode.scalarObject idx) →
    ∃ j, svForNodeId objs idx = some j ∧ values[i]? = some (ScopeValue.object j)

/-- The references of a frame lead to the pool, which extends the one the frame was
described with. -/
structure ScopeOk (objs : List (WrittenObject Jobject)) (jvms : JvmState)
    (scope : DescribedScope Jobject) : Prop where
  pool : scope.objects <+: objs
  locals : RefersTo objs (sfpt.localNodes jvms) scope.locals
  expressions : RefersTo objs (sfpt.stackNodes jvms) scope.expressions
  monitors : RefersTo objs ((sfpt.monitorNodes jvms).map Prod.snd)
    (scope.monitors.map fun m => m.owner)

/-- The pool of the youngest frame is unique and complete, and all frames refer to it. -/
structure PoolOk (scopes : List (DescribedScope Jobject)) (objs : List (WrittenObject Jobject)) :
    Prop where
  youngest : (scopes.map fun scope => scope.objects).getLast? = some objs
  nodup : (poolIds objs).Nodup
  described : ∀ idx, idx ∈ poolIds objs ↔
    sfpt.Described (sfpt.chain.flatMap fun jvms =>
      sfpt.frameNodes jvms ++ sfpt.scalarNodes jvms) idx
  entries : ∀ sv ∈ objs, sfpt.EntryOk objs sv
  scopes : List.Forall₂ (sfpt.ScopeOk objs) sfpt.chain scopes

/-! ## Growing the pool

The pool grows at its end, so a place in it stays the place of the same object. What was described
with a smaller pool reads the same with the larger. -/

variable {sfpt}

/-- How a node is described depends on the ids of the pool. -/
theorem nodeValues_congr {objs objs' : List (WrittenObject Jobject)}
    (h : poolIds objs = poolIds objs') : sfpt.nodeValues objs = sfpt.nodeValues objs' := by
  funext node
  cases node with
  | scalarObject idx => rw [nodeValues, nodeValues, svForNodeId_congr h]
  | allocated => rfl
  | constant => rfl

/-- An object that is in the pool is described as before when others are appended. -/
theorem nodeValues_append {objs : List (WrittenObject Jobject)} {node : DebugNode Jobject}
    (h : ∀ idx, node = .scalarObject idx → idx ∈ poolIds objs)
    (new : List (WrittenObject Jobject)) :
    sfpt.nodeValues (objs ++ new) node = sfpt.nodeValues objs node := by
  cases node with
  | scalarObject idx => rw [nodeValues, nodeValues, svForNodeId_append (h idx rfl)]
  | allocated => rfl
  | constant => rfl

/-- The same for a list of nodes. -/
theorem flatMap_nodeValues_append {objs : List (WrittenObject Jobject)}
    {nodes : List (DebugNode Jobject)}
    (h : ∀ idx, .scalarObject idx ∈ nodes → idx ∈ poolIds objs)
    (new : List (WrittenObject Jobject)) :
    nodes.flatMap (sfpt.nodeValues (objs ++ new)) = nodes.flatMap (sfpt.nodeValues objs) := by
  refine List.flatMap_congr fun node hnode => nodeValues_append (fun idx heq => ?_) new
  subst heq
  exact h idx hnode

/-- Whether an entry is described rightly depends on the ids. -/
theorem EntryOk.congr {objs objs' : List (WrittenObject Jobject)} {sv : WrittenObject Jobject}
    (h : poolIds objs = poolIds objs') (hok : sfpt.EntryOk objs sv) : sfpt.EntryOk objs' sv := by
  refine ⟨hok.stack, fun hstack => ?_⟩
  rw [← nodeValues_congr h, ← h]
  exact hok.object hstack

/-- An entry stays right when others are appended. -/
theorem EntryOk.append {objs : List (WrittenObject Jobject)} {sv : WrittenObject Jobject}
    (hok : sfpt.EntryOk objs sv) (new : List (WrittenObject Jobject)) :
    sfpt.EntryOk (objs ++ new) sv := by
  refine ⟨hok.stack, fun hstack => ?_⟩
  obtain ⟨heq, hfields⟩ := hok.object hstack
  rw [flatMap_nodeValues_append hfields]
  refine ⟨heq, fun idx hidx => ?_⟩
  rw [poolIds, List.map_append]
  exact List.mem_append_left _ (hfields idx hidx)

/-- What is described from some nodes is described from more. -/
theorem Described.mono {nodes nodes' : List (DebugNode Jobject)} (h : nodes ⊆ nodes') {idx : JInt}
    (hd : sfpt.Described nodes idx) : sfpt.Described nodes' idx := by
  induction hd with
  | node hmem => exact .node (h hmem)
  | field _ hstack hfield ih => exact ih.field hstack hfield

/-- What the fields of a scalar-replaced object describe, the object describes. -/
theorem described_of_fields {nodes : List (DebugNode Jobject)} {idx : JInt}
    (h : sfpt.Described nodes idx) (hstack : (sfpt.scalarObject idx).stackAllocated = false)
    {idx' : JInt} (hd : sfpt.Described (sfpt.fieldNodes idx) idx') :
    sfpt.Described nodes idx' := by
  induction hd with
  | node hmem => exact h.field hstack hmem
  | field _ hstack' hfield ih => exact ih.field hstack' hfield

/-- A pool whose entries are complete has an entry for whatever its nodes describe. -/
theorem mem_poolIds_of_described {objs : List (WrittenObject Jobject)}
    {nodes : List (DebugNode Jobject)} (hok : ∀ sv ∈ objs, sfpt.EntryOk objs sv)
    (hnodes : ∀ idx, .scalarObject idx ∈ nodes → idx ∈ poolIds objs) {idx : JInt}
    (hd : sfpt.Described nodes idx) : idx ∈ poolIds objs := by
  induction hd with
  | node hmem => exact hnodes _ hmem
  | field _ hstack hfield ih =>
    obtain ⟨sv, hsv, rfl⟩ := List.mem_map.1 ih
    exact ((hok sv hsv).object hstack).2 _ hfield

variable (sfpt)

/-- The pool `objs ++ new` after some nodes were described with the pool `objs`. -/
structure Grown (nodes : List (DebugNode Jobject)) (objs new : List (WrittenObject Jobject)) :
    Prop where
  nodup : (poolIds (objs ++ new)).Nodup
  entryOk : ∀ sv ∈ new, sfpt.EntryOk (objs ++ new) sv
  described : ∀ sv ∈ new, sfpt.Described nodes sv.id
  registered : ∀ idx, .scalarObject idx ∈ nodes → idx ∈ poolIds (objs ++ new)

variable {sfpt}

/-- Nothing is appended if all objects are in the pool. -/
theorem Grown.nil {nodes : List (DebugNode Jobject)} {objs : List (WrittenObject Jobject)}
    (hnodup : (poolIds objs).Nodup)
    (h : ∀ idx, .scalarObject idx ∈ nodes → idx ∈ poolIds objs) : sfpt.Grown nodes objs [] where
  nodup := by rwa [List.append_nil]
  entryOk := fun sv hsv => absurd hsv List.not_mem_nil
  described := fun sv hsv => absurd hsv List.not_mem_nil
  registered := by rwa [List.append_nil]

/-- What is appended for some nodes, and then for others. -/
theorem Grown.trans {nodes nodes' : List (DebugNode Jobject)}
    {objs new new' : List (WrittenObject Jobject)} (h : sfpt.Grown nodes objs new)
    (h' : sfpt.Grown nodes' (objs ++ new) new') :
    sfpt.Grown (nodes ++ nodes') objs (new ++ new') where
  nodup := by
    rw [← List.append_assoc]
    exact h'.nodup
  entryOk := fun sv hsv => by
    rw [← List.append_assoc]
    rcases List.mem_append.1 hsv with hsv | hsv
    · exact (h.entryOk sv hsv).append new'
    · exact h'.entryOk sv hsv
  described := fun sv hsv => by
    rcases List.mem_append.1 hsv with hsv | hsv
    · exact (h.described sv hsv).mono (List.subset_append_left _ _)
    · exact (h'.described sv hsv).mono (List.subset_append_right _ _)
  registered := fun idx hidx => by
    rw [← List.append_assoc]
    rcases List.mem_append.1 hidx with hidx | hidx
    · rw [poolIds, List.map_append]
      exact List.mem_append_left _ (h.registered idx hidx)
    · exact h'.registered idx hidx

/-- A stack object enters the pool. -/
theorem grown_stackObject {objs : List (WrittenObject Jobject)} {idx : JInt}
    (hnodup : (poolIds objs).Nodup) (hnew : idx ∉ poolIds objs)
    (hstack : (sfpt.scalarObject idx).stackAllocated = true) :
    sfpt.Grown [.scalarObject idx] objs [newStackObjectValue idx (sfpt.scalarObject idx)] where
  nodup := by
    rw [poolIds, List.map_append]
    exact List.Nodup.append hnodup (List.nodup_singleton _)
      (by simpa [newStackObjectValue] using hnew)
  entryOk := fun sv hsv => by
    obtain rfl := List.mem_singleton.1 hsv
    refine ⟨fun _ => rfl, fun hno => ?_⟩
    rw [newStackObjectValue, hstack] at hno
    cases hno
  described := fun sv hsv => by
    obtain rfl := List.mem_singleton.1 hsv
    exact .node List.mem_cons_self
  registered := fun idx' hidx' => by
    obtain rfl : idx' = idx := by simpa using hidx'
    simp [newStackObjectValue]

/-- The entry of a scalar-replaced object is complete once its fields are described. -/
theorem Grown.object {objs new : List (WrittenObject Jobject)} {idx : JInt}
    {fieldValues : List (WrittenValue Jobject)} (hnew : idx ∉ poolIds objs)
    (hstack : (sfpt.scalarObject idx).stackAllocated = false)
    (h : sfpt.Grown (sfpt.fieldNodes idx)
      (objs ++ [newObjectValue idx (sfpt.scalarObject idx) []]) new)
    (hvalues : fieldValues = (sfpt.fieldNodes idx).flatMap (sfpt.nodeValues
      (objs ++ [newObjectValue idx (sfpt.scalarObject idx) []] ++ new))) :
    sfpt.Grown [.scalarObject idx] objs
      (newObjectValue idx (sfpt.scalarObject idx) fieldValues :: new) := by
  have hids : poolIds (objs ++ [newObjectValue idx (sfpt.scalarObject idx) []] ++ new) =
      poolIds (objs ++ newObjectValue idx (sfpt.scalarObject idx) fieldValues :: new) := by
    simp [newObjectValue]
  refine ⟨hids ▸ h.nodup, ?_, ?_, ?_⟩
  · intro sv hsv
    rcases List.mem_cons.1 hsv with rfl | hsv
    · refine ⟨fun hyes => ?_, fun _ => ⟨?_, ?_⟩⟩
      · rw [newObjectValue, hstack] at hyes
        cases hyes
      · rw [← nodeValues_congr hids, newObjectValue, hvalues]
        rfl
      · rw [← hids]
        exact h.registered
    · exact (h.entryOk sv hsv).congr hids
  · intro sv hsv
    have hroot : sfpt.Described [.scalarObject idx] idx := .node List.mem_cons_self
    rcases List.mem_cons.1 hsv with rfl | hsv
    · exact hroot
    · exact described_of_fields hroot hstack (h.described sv hsv)
  · intro idx' hidx'
    obtain rfl : idx' = idx := by simpa using hidx'
    simp [newObjectValue]

/-! ## What a call of `FillLocArray` does

A call enters the objects it meets for the first time before it goes on to their fields. So each
call within has fewer objects left, and the depth of the recursion is bounded by the inputs of the
safepoint. -/

variable (sfpt)

/-- A node `FillLocArray` is called for. -/
def IsInput (node : DebugNode Jobject) : Prop := node ∈ sfpt.inputs ∨ node = .top

/-- The scalar objects among the inputs that have no entry yet. -/
def unregistered (objs : List (WrittenObject Jobject)) : Finset JInt :=
  ((sfpt.inputs.filterMap fun node =>
    match node with
    | .scalarObject idx => some idx
    | _ => none).toFinset).filter fun idx => idx ∉ poolIds objs

/-- With `fuel` more objects to enter than there are left, a node is described. -/
def Fills (fill : DebugNode Jobject → List (WrittenObject Jobject) →
    Option (List (WrittenValue Jobject) × List (WrittenObject Jobject))) (fuel : ℕ) : Prop :=
  ∀ node objs, sfpt.IsInput node → (poolIds objs).Nodup → (sfpt.unregistered objs).card < fuel →
    ∃ new, fill node objs = some (sfpt.nodeValues (objs ++ new) node, objs ++ new) ∧
      sfpt.Grown [node] objs new

variable {sfpt}

/-- What is at an index of the safepoint is one of its inputs. -/
theorem isInput_input (i : ℕ) : sfpt.IsInput (sfpt.input i) := by
  by_cases hi : i < sfpt.inputs.length
  · left
    rw [input, List.getD_eq_getElem?_getD, List.getElem?_eq_getElem hi]
    exact List.getElem_mem hi
  · right
    rw [input, List.getD_eq_getElem?_getD, List.getElem?_eq_none (by omega)]
    rfl

/-- So are the nodes of a frame. -/
theorem isInput_of_mem_map {n : ℕ} {f : ℕ → ℕ} {node : DebugNode Jobject}
    (h : node ∈ (List.range n).map fun i => sfpt.input (f i)) : sfpt.IsInput node := by
  obtain ⟨i, -, rfl⟩ := List.mem_map.1 h
  exact isInput_input _

/-- And the owners of its monitors. -/
theorem isInput_of_mem_monitorNodes {jvms : JvmState} {mon : MonitorBox × DebugNode Jobject}
    (h : mon ∈ sfpt.monitorNodes jvms) : sfpt.IsInput mon.2 := by
  obtain ⟨i, -, rfl⟩ := List.mem_map.1 h
  exact isInput_input _

/-- A larger pool has fewer objects left to be registered. -/
theorem unregistered_append_subset (objs new : List (WrittenObject Jobject)) :
    sfpt.unregistered (objs ++ new) ⊆ sfpt.unregistered objs := by
  intro idx hidx
  rw [unregistered, Finset.mem_filter] at hidx ⊢
  refine ⟨hidx.1, fun hmem => hidx.2 ?_⟩
  rw [poolIds, List.map_append]
  exact List.mem_append_left _ hmem

/-- So the recursion goes no deeper. -/
theorem card_unregistered_append_le (objs new : List (WrittenObject Jobject)) :
    (sfpt.unregistered (objs ++ new)).card ≤ (sfpt.unregistered objs).card :=
  Finset.card_le_card (unregistered_append_subset objs new)

/-- An object that enters the pool is no longer to be entered. -/
theorem card_unregistered_lt {objs : List (WrittenObject Jobject)} {sv : WrittenObject Jobject}
    (hinput : sfpt.IsInput (.scalarObject sv.id)) (hnew : sv.id ∉ poolIds objs) :
    (sfpt.unregistered (objs ++ [sv])).card < (sfpt.unregistered objs).card := by
  have hmem : DebugNode.scalarObject sv.id ∈ sfpt.inputs := hinput.resolve_right (by nofun)
  apply Finset.card_lt_card
  rw [Finset.ssubset_iff_of_subset (unregistered_append_subset objs _)]
  refine ⟨sv.id, ?_, ?_⟩
  · rw [unregistered, Finset.mem_filter, List.mem_toFinset, List.mem_filterMap]
    exact ⟨⟨_, hmem, rfl⟩, hnew⟩
  · rw [unregistered, Finset.mem_filter]
    rintro ⟨-, hno⟩
    exact hno (by simp)

/-- There are at most as many as the safepoint has inputs, which is the fuel that is enough. -/
theorem card_unregistered_nil_le : (sfpt.unregistered []).card ≤ sfpt.inputs.length := by
  refine (Finset.card_filter_le _ _).trans ((List.toFinset_card_le _).trans ?_)
  exact List.length_filterMap_le _ _

/-- The fields of an object are described one after the other. -/
theorem fillFields_spec {fill} {fuel : ℕ} (hfill : sfpt.Fills fill fuel)
    (nodes : List (DebugNode Jobject)) (objs : List (WrittenObject Jobject))
    (hinput : ∀ node ∈ nodes, sfpt.IsInput node) (hnodup : (poolIds objs).Nodup)
    (hfuel : (sfpt.unregistered objs).card < fuel) :
    ∃ new, fillFields fill nodes objs =
        some (nodes.flatMap (sfpt.nodeValues (objs ++ new)), objs ++ new) ∧
      sfpt.Grown nodes objs new := by
  induction nodes generalizing objs with
  | nil => exact ⟨[], by simp [fillFields], .nil hnodup fun idx h => absurd h List.not_mem_nil⟩
  | cons node nodes ih =>
    obtain ⟨new, heq, hgrown⟩ :=
      hfill node objs (hinput node List.mem_cons_self) hnodup hfuel
    obtain ⟨new', heq', hgrown'⟩ := ih (objs ++ new)
      (fun node' h => hinput node' (List.mem_cons_of_mem _ h)) hgrown.nodup
      ((card_unregistered_append_le objs new).trans_lt hfuel)
    refine ⟨new ++ new', ?_, hgrown.trans hgrown'⟩
    have hnode : sfpt.nodeValues (objs ++ new ++ new') node =
        sfpt.nodeValues (objs ++ new) node :=
      nodeValues_append (fun idx hidx => hgrown.registered idx (hidx ▸ List.mem_cons_self)) new'
    simp only [fillFields, heq, Option.bind_eq_bind, Option.bind_some, heq']
    rw [List.flatMap_cons, ← List.append_assoc objs, hnode]
    rfl

/-- A scalar object gets its place in the pool. -/
theorem svForObject_spec {fill} {fuel : ℕ} (hfill : sfpt.Fills fill fuel) (idx : JInt)
    (objs : List (WrittenObject Jobject)) (hinput : sfpt.IsInput (.scalarObject idx))
    (hnodup : (poolIds objs).Nodup) (hfuel : (sfpt.unregistered objs).card < fuel + 1) :
    ∃ j new, sfpt.svForObject fill idx objs = some (j, objs ++ new) ∧
      svForNodeId (objs ++ new) idx = some j ∧ sfpt.Grown [.scalarObject idx] objs new := by
  rw [svForObject]
  cases hid : svForNodeId objs idx with
  | some j =>
    have hmem : idx ∈ poolIds objs := by
      by_contra hno
      rw [svForNodeId_eq_none.2 hno] at hid
      cases hid
    refine ⟨j, [], by simp, by rwa [List.append_nil], .nil hnodup fun idx' hidx' => ?_⟩
    obtain rfl : idx' = idx := by simpa using hidx'
    exact hmem
  | none =>
    have hnew := svForNodeId_eq_none.1 hid
    by_cases hstack : (sfpt.scalarObject idx).stackAllocated = true
    · refine ⟨objs.length, _, by simp [hstack], ?_, grown_stackObject hnodup hnew hstack⟩
      exact @svForNodeId_concat _ objs (newStackObjectValue idx _) hnew []
    · rw [Bool.not_eq_true] at hstack
      have hnodup' : (poolIds (objs ++ [newObjectValue idx (sfpt.scalarObject idx) []])).Nodup := by
        rw [poolIds, List.map_append]
        exact hnodup.append (List.nodup_singleton _) (by simpa [newObjectValue] using hnew)
      obtain ⟨new, heq, hgrown⟩ := fillFields_spec hfill (sfpt.fieldNodes idx)
        (objs ++ [newObjectValue idx (sfpt.scalarObject idx) []])
        (fun node h => isInput_of_mem_map h) hnodup'
        (by
          have := @card_unregistered_lt _ sfpt objs
            (newObjectValue idx (sfpt.scalarObject idx) []) hinput hnew
          omega)
      refine ⟨objs.length, _, ?_, @svForNodeId_concat _ objs (newObjectValue idx _ _) hnew new,
        hgrown.object hnew hstack rfl⟩
      simp [hstack, heq]

/-- `FillLocArray` describes every input, with fuel for the objects not entered yet. -/
theorem entriesFor_fills (fuel : ℕ) : sfpt.Fills (sfpt.entriesFor fuel) fuel := by
  induction fuel with
  | zero => exact fun _ _ _ _ hfuel => absurd hfuel (Nat.not_lt_zero _)
  | succ fuel ih =>
    intro node objs hinput hnodup hfuel
    cases node with
    | scalarObject idx =>
      obtain ⟨j, new, heq, hj, hgrown⟩ := svForObject_spec ih idx objs hinput hnodup hfuel
      refine ⟨new, ?_, hgrown⟩
      rw [entriesFor, heq, nodeValues, hj]
      rfl
    | allocated base reg isOop con =>
      refine ⟨[], by simp [entriesFor, nodeValues], .nil hnodup fun idx h => ?_⟩
      simp at h
    | constant con =>
      refine ⟨[], by simp [entriesFor, nodeValues], .nil hnodup fun idx h => ?_⟩
      simp at h

/-! ## The frames

A frame has locals, expressions and monitors, and the objects in the scalar area. The frames are
gone through with one pool, which is complete after each of them. -/

/-- References stay valid when the pool grows. -/
theorem RefersTo.append {objs : List (WrittenObject Jobject)} {nodes : List (DebugNode Jobject)}
    {values : List (WrittenValue Jobject)} (h : RefersTo objs nodes values)
    (new : List (WrittenObject Jobject)) : RefersTo (objs ++ new) nodes values := by
  intro i idx hnode
  obtain ⟨j, hj, hvalue⟩ := h i idx hnode
  have hmem : idx ∈ poolIds objs := by
    by_contra hno
    rw [svForNodeId_eq_none.2 hno] at hj
    cases hj
  exact ⟨j, by rw [svForNodeId_append hmem, hj], hvalue⟩

/-- A node has one value or two. -/
theorem length_nodeValues {objs : List (WrittenObject Jobject)} {node : DebugNode Jobject}
    (h : ∀ idx, node = .scalarObject idx → idx ∈ poolIds objs) :
    (sfpt.nodeValues objs node).length = 1 ∨ (sfpt.nodeValues objs node).length = 2 := by
  cases node with
  | scalarObject idx =>
    obtain ⟨j, hj⟩ := Option.ne_none_iff_exists'.1 fun hno => svForNodeId_eq_none.1 hno (h idx rfl)
    left
    rw [nodeValues, hj]
    rfl
  | allocated base reg isOop con =>
    rw [nodeValues]
    cases base with
    | double => exact .inr rfl
    | long => exact .inr rfl
    | rawPtr => exact .inl rfl
    | float => exact .inl (by rw [registerEntries]; split <;> rfl)
    | int => exact .inl (by rw [registerEntries]; split <;> rfl)
    | narrowOop => exact .inl rfl
    | pointer => exact .inl rfl
  | constant con => cases con <;> simp [nodeValues, constantEntries]

/-- A call of `FillLocArray` for a local or stack slot. The array has at most one value more
than the index, the second one of the value before. -/
theorem fillLocArray_spec {fuel idx : ℕ} {node : DebugNode Jobject}
    {array : List (WrittenValue Jobject)} {objs : List (WrittenObject Jobject)}
    (hinput : sfpt.IsInput node) (hnodup : (poolIds objs).Nodup)
    (hfuel : (sfpt.unregistered objs).card < fuel)
    (hlength : array.length = idx ∨ array.length = idx + 1) :
    ∃ array' new, sfpt.fillLocArray fuel idx node array objs = some (array', objs ++ new) ∧
      sfpt.Grown [node] objs new ∧ (array'.length = idx + 1 ∨ array'.length = idx + 1 + 1) ∧
      array.take idx <+: array'.take (idx + 1) ∧
      ∀ id, node = .scalarObject id → ∃ j, svForNodeId (objs ++ new) id = some j ∧
        array'[idx]? = some (ScopeValue.object j) := by
  rw [fillLocArray]
  split
  case isTrue hskip =>
    rw [Bool.and_eq_true, decide_eq_true_eq] at hskip
    obtain ⟨hne, htop⟩ := hskip
    refine ⟨array, [], by rw [List.append_nil], .nil hnodup fun id hid => ?_,
      .inl (hlength.resolve_left hne), List.take_prefix_take_left (by omega), fun id hid => ?_⟩
    · rw [← List.mem_singleton.1 hid] at htop
      cases htop
    · rw [hid] at htop
      cases htop
  case isFalse =>
    obtain ⟨new, heq, hgrown⟩ := entriesFor_fills fuel node objs hinput hnodup hfuel
    have hbase : (if array.length ≠ idx then array.dropLast else array) = array.take idx := by
      rcases hlength with hlen | hlen
      · rw [if_neg (by simp [hlen]), List.take_of_length_le hlen.le]
      · rw [if_pos (by omega), List.dropLast_eq_take, hlen, Nat.add_sub_cancel]
    have htake : (array.take idx).length = idx := List.length_take_of_le (by omega)
    have hvalues := @length_nodeValues _ sfpt (objs ++ new) node fun id hid =>
      hgrown.registered id (hid ▸ List.mem_cons_self)
    refine ⟨array.take idx ++ sfpt.nodeValues (objs ++ new) node, new, ?_, hgrown, ?_, ?_, ?_⟩
    · rw [heq, hbase]
      rfl
    · rw [List.length_append, htake]
      omega
    · exact List.prefix_take_iff.2 ⟨List.prefix_append _ _, by omega⟩
    · rintro id rfl
      have hmem := hgrown.registered id List.mem_cons_self
      obtain ⟨j, hj⟩ := Option.ne_none_iff_exists'.1 fun hno => svForNodeId_eq_none.1 hno hmem
      refine ⟨j, hj, ?_⟩
      rw [List.getElem?_append_right (by omega), htake, Nat.sub_self, nodeValues, hj]
      rfl

/-- The loop over the locals or the expression stack. No reference is taken out of the array
again. -/
theorem fillArray_spec {fuel : ℕ} (nodes : List (DebugNode Jobject)) (idx : ℕ)
    (array : List (WrittenValue Jobject)) (objs : List (WrittenObject Jobject))
    (hinput : ∀ node ∈ nodes, sfpt.IsInput node) (hnodup : (poolIds objs).Nodup)
    (hfuel : (sfpt.unregistered objs).card < fuel)
    (hlength : array.length = idx ∨ array.length = idx + 1) :
    ∃ array' new, sfpt.fillArray fuel idx nodes array objs = some (array', objs ++ new) ∧
      sfpt.Grown nodes objs new ∧ array.take idx <+: array' ∧
      RefersTo (objs ++ new) nodes (array'.drop idx) := by
  induction nodes generalizing idx array objs with
  | nil =>
    refine ⟨array, [], by rw [List.append_nil, fillArray], .nil hnodup fun id h => ?_,
      List.take_prefix _ _, fun i id h => ?_⟩
    · exact absurd h List.not_mem_nil
    · cases h
  | cons node nodes ih =>
    obtain ⟨array₁, new, heq, hgrown, hlength₁, hprefix, hrefers⟩ := fillLocArray_spec
      (hinput node List.mem_cons_self) hnodup hfuel hlength
    obtain ⟨array', new', heq', hgrown', hprefix', hrefers'⟩ := ih (idx + 1) array₁ (objs ++ new)
      (fun node' h => hinput node' (List.mem_cons_of_mem _ h)) hgrown.nodup
      ((card_unregistered_append_le objs new).trans_lt hfuel) hlength₁
    refine ⟨array', new ++ new', ?_, hgrown.trans hgrown', hprefix.trans hprefix', ?_⟩
    · simp only [fillArray, heq, Option.bind_eq_bind, Option.bind_some, heq', List.append_assoc]
    · rw [← List.append_assoc]
      intro i id hnode
      cases i with
      | zero =>
        obtain rfl : node = .scalarObject id := by simpa using hnode
        obtain ⟨j, hj, hvalue⟩ := hrefers id rfl
        have hmem := hgrown.registered id List.mem_cons_self
        refine ⟨j, by rw [svForNodeId_append hmem, hj], ?_⟩
        have hget : (array₁.take (idx + 1))[idx]? = some (ScopeValue.object j) := by
          rw [List.getElem?_take_of_lt (Nat.lt_succ_self idx), hvalue]
        obtain ⟨rest, rfl⟩ := hprefix'
        rw [List.getElem?_drop, Nat.add_zero idx, List.getElem?_append_left, hget]
        rw [List.length_take]
        omega
      | succ i =>
        obtain ⟨j, hj, hvalue⟩ := hrefers' i id hnode
        refine ⟨j, hj, ?_⟩
        rw [List.getElem?_drop] at hvalue ⊢
        rw [← hvalue]
        congr 1
        omega

/-- The owner of a monitor. An eliminated one is registered if it was not. -/
theorem monitorOwner_spec {fuel : ℕ} {node : DebugNode Jobject}
    {objs : List (WrittenObject Jobject)} (hinput : sfpt.IsInput node)
    (hnodup : (poolIds objs).Nodup) (hfuel : (sfpt.unregistered objs).card < fuel) :
    ∃ owner new, sfpt.monitorOwner fuel node objs = some (owner, objs ++ new) ∧
      sfpt.Grown [node] objs new ∧
      ∀ id, node = .scalarObject id →
        ∃ j, svForNodeId (objs ++ new) id = some j ∧ owner = .object j := by
  cases node with
  | scalarObject idx =>
    obtain ⟨j, new, heq, hj, hgrown⟩ := svForObject_spec (entriesFor_fills fuel) idx objs hinput
      hnodup (Nat.lt_succ_of_lt hfuel)
    refine ⟨.object j, new, by rw [monitorOwner, heq]; rfl, hgrown, fun id hid => ⟨j, ?_, rfl⟩⟩
    obtain rfl : idx = id := by simpa using hid
    exact hj
  | allocated base reg isOop con =>
    cases con <;>
      exact ⟨_, [], by rw [List.append_nil, monitorOwner], .nil hnodup (by simp), by nofun⟩
  | constant con =>
    exact ⟨_, [], by rw [List.append_nil, monitorOwner], .nil hnodup (by simp), by nofun⟩

/-- The loop over the monitors. -/
theorem fillMonitors_spec {fuel : ℕ} (mons : List (MonitorBox × DebugNode Jobject))
    (objs : List (WrittenObject Jobject)) (hinput : ∀ mon ∈ mons, sfpt.IsInput mon.2)
    (hnodup : (poolIds objs).Nodup) (hfuel : (sfpt.unregistered objs).card < fuel) :
    ∃ monarray new, sfpt.fillMonitors fuel mons objs = some (monarray, objs ++ new) ∧
      sfpt.Grown (mons.map Prod.snd) objs new ∧
      RefersTo (objs ++ new) (mons.map Prod.snd) (monarray.map fun m => m.owner) := by
  induction mons generalizing objs with
  | nil =>
    refine ⟨[], [], by rw [List.append_nil, fillMonitors], .nil hnodup fun id h => ?_,
      fun i id h => ?_⟩
    · exact absurd h List.not_mem_nil
    · cases h
  | cons mon mons ih =>
    obtain ⟨owner, new, heq, hgrown, hrefers⟩ :=
      monitorOwner_spec (hinput mon List.mem_cons_self) hnodup hfuel
    obtain ⟨monarray, new', heq', hgrown', hrefers'⟩ := ih (objs ++ new)
      (fun mon' h => hinput mon' (List.mem_cons_of_mem _ h)) hgrown.nodup
      ((card_unregistered_append_le objs new).trans_lt hfuel)
    refine ⟨⟨owner, ⟨true, .normal, mon.1.offset⟩, mon.1.eliminated⟩ :: monarray, new ++ new', ?_,
      hgrown.trans hgrown', ?_⟩
    · simp only [fillMonitors, heq, Option.bind_eq_bind, Option.bind_some, heq', List.append_assoc]
      rfl
    · rw [← List.append_assoc]
      intro i id hnode
      cases i with
      | zero =>
        obtain ⟨j, hj, howner⟩ := hrefers id (by simpa using hnode)
        have hid : mon.2 = .scalarObject id := by simpa using hnode
        have hmem := hgrown.registered id (hid ▸ List.mem_cons_self)
        exact ⟨j, by rw [svForNodeId_append hmem, hj], by simp [howner]⟩
      | succ i => exact hrefers' i id hnode

/-- A stack object of the scalar area is registered once, whatever frame refers to it. -/
theorem addScalar_spec {objs : List (WrittenObject Jobject)} {node : DebugNode Jobject}
    (hnodup : (poolIds objs).Nodup)
    (h : ∀ idx, node = .scalarObject idx →
      (sfpt.scalarObject idx).stackAllocated = true ∨ idx ∈ poolIds objs) :
    ∃ new, sfpt.addScalar objs node = objs ++ new ∧ sfpt.Grown [node] objs new := by
  cases node with
  | scalarObject idx =>
    rw [addScalar]
    cases hid : svForNodeId objs idx with
    | some j =>
      refine ⟨[], (List.append_nil objs).symm, .nil hnodup fun idx' hidx' => ?_⟩
      obtain rfl : idx' = idx := by simpa using hidx'
      by_contra hno
      rw [svForNodeId_eq_none.2 hno] at hid
      cases hid
    | none =>
      have hnew := svForNodeId_eq_none.1 hid
      exact ⟨_, rfl, grown_stackObject hnodup hnew ((h idx rfl).resolve_right hnew)⟩
  | allocated => exact ⟨[], (List.append_nil objs).symm, .nil hnodup (by simp)⟩
  | constant => exact ⟨[], (List.append_nil objs).symm, .nil hnodup (by simp)⟩

/-- The loop over the scalar area adds stack objects only. -/
theorem foldl_addScalar_spec (nodes : List (DebugNode Jobject))
    (objs : List (WrittenObject Jobject)) (hnodup : (poolIds objs).Nodup)
    (h : ∀ idx, .scalarObject idx ∈ nodes →
      (sfpt.scalarObject idx).stackAllocated = true ∨ idx ∈ poolIds objs) :
    ∃ new, nodes.foldl sfpt.addScalar objs = objs ++ new ∧ sfpt.Grown nodes objs new := by
  induction nodes generalizing objs with
  | nil =>
    exact ⟨[], (List.append_nil objs).symm, .nil hnodup fun id h => absurd h List.not_mem_nil⟩
  | cons node nodes ih =>
    obtain ⟨new, heq, hgrown⟩ := addScalar_spec hnodup fun idx hidx =>
      h idx (hidx ▸ List.mem_cons_self)
    obtain ⟨new', heq', hgrown'⟩ := ih (objs ++ new) hgrown.nodup fun idx hidx =>
      (h idx (List.mem_cons_of_mem _ hidx)).imp_right fun hmem => by
        rw [poolIds, List.map_append]
        exact List.mem_append_left _ hmem
    exact ⟨new ++ new', by rw [List.foldl_cons, heq, heq', List.append_assoc],
      hgrown.trans hgrown'⟩

/-- The nodes of a frame. -/
abbrev scopeNodes (sfpt : MachSafePoint Jobject) (jvms : JvmState) : List (DebugNode Jobject) :=
  sfpt.frameNodes jvms ++ sfpt.scalarNodes jvms

/-- The nodes of a frame are among those of its scope. -/
theorem flatMap_frameNodes_subset (older : List JvmState) (jvms : JvmState) :
    (older ++ [jvms]).flatMap sfpt.frameNodes ⊆
      older.flatMap sfpt.scopeNodes ++ sfpt.frameNodes jvms := by
  rw [List.flatMap_append, List.flatMap_singleton]
  refine List.append_subset.2 ⟨fun node hnode => ?_, List.subset_append_right _ _⟩
  obtain ⟨jvms', hjvms', hmem⟩ := List.mem_flatMap.1 hnode
  exact List.mem_append_left _ (List.mem_flatMap.2 ⟨jvms', hjvms', List.mem_append_left _ hmem⟩)

/-- A scope stays right when the frames after it register objects. -/
theorem ScopeOk.append {objs : List (WrittenObject Jobject)} {jvms : JvmState}
    {scope : DescribedScope Jobject} (h : sfpt.ScopeOk scope.objects jvms scope)
    (heq : scope.objects = objs) (new : List (WrittenObject Jobject)) :
    sfpt.ScopeOk (objs ++ new) jvms scope := by
  subst heq
  exact ⟨List.prefix_append _ _, h.locals.append new, h.expressions.append new,
    h.monitors.append new⟩

/-- A turn of the loop over the JVM states, from a complete pool. -/
theorem processJvms_spec {fuel : ℕ} {older : List JvmState} {jvms : JvmState}
    {objs : List (WrittenObject Jobject)} (hfuel : sfpt.inputs.length < fuel)
    (hgrown : sfpt.Grown (older.flatMap sfpt.scopeNodes) [] objs)
    (harea : ∀ idx, .scalarObject idx ∈ sfpt.scalarNodes jvms →
      (sfpt.scalarObject idx).stackAllocated = true ∨
        sfpt.Described ((older ++ [jvms]).flatMap sfpt.frameNodes) idx) :
    ∃ scope new, sfpt.processJvms fuel jvms objs = some scope ∧ scope.objects = objs ++ new ∧
      sfpt.Grown (sfpt.scopeNodes jvms) objs new ∧ sfpt.ScopeOk scope.objects jvms scope := by
  have hfuel' (objs : List (WrittenObject Jobject)) : (sfpt.unregistered objs).card < fuel :=
    (card_unregistered_append_le [] objs).trans_lt (card_unregistered_nil_le.trans_lt hfuel)
  obtain ⟨locals, new₁, heq₁, hgrown₁, -, hlocals⟩ := fillArray_spec (sfpt.localNodes jvms) 0 []
    objs (fun node h => isInput_of_mem_map h) hgrown.nodup (hfuel' _) (.inl rfl)
  obtain ⟨exps, new₂, heq₂, hgrown₂, -, hexps⟩ := fillArray_spec (sfpt.stackNodes jvms) 0 []
    (objs ++ new₁) (fun node h => isInput_of_mem_map h) hgrown₁.nodup (hfuel' _) (.inl rfl)
  obtain ⟨mons, new₃, heq₃, hgrown₃, hmons⟩ := fillMonitors_spec (sfpt.monitorNodes jvms)
    (objs ++ new₁ ++ new₂) (fun mon h => isInput_of_mem_monitorNodes h) hgrown₂.nodup (hfuel' _)
  rw [List.append_assoc] at hgrown₃
  have hframe := (hgrown₁.trans hgrown₂).trans hgrown₃
  rw [← frameNodes] at hframe
  have hall := hgrown.trans (show sfpt.Grown _ ([] ++ objs) _ from hframe)
  obtain ⟨new₄, heq₄, hgrown₄⟩ := foldl_addScalar_spec (sfpt.scalarNodes jvms)
    (objs ++ (new₁ ++ new₂ ++ new₃)) hframe.nodup fun idx hidx =>
      (harea idx hidx).imp_right fun hd => mem_poolIds_of_described hall.entryOk hall.registered
        (hd.mono (flatMap_frameNodes_subset older jvms))
  refine ⟨⟨objs ++ (new₁ ++ new₂ ++ new₃ ++ new₄), locals, exps, mons⟩, _, ?_, rfl,
    hframe.trans hgrown₄, ?_⟩
  · simp only [processJvms, heq₁, heq₂, heq₃, Option.bind_eq_bind, Option.bind_some]
    simp only [List.append_assoc] at heq₄ ⊢
    rw [heq₄]
    rfl
  · have hlocals' := hlocals.append (new₂ ++ new₃ ++ new₄)
    have hexps' := hexps.append (new₃ ++ new₄)
    have hmons' := hmons.append new₄
    simp only [List.append_assoc, List.drop_zero] at hlocals' hexps' hmons'
    refine ⟨List.prefix_refl _, ?_, ?_, ?_⟩
    · simpa only [List.append_assoc] using hlocals'
    · simpa only [List.append_assoc] using hexps'
    · simpa only [List.append_assoc] using hmons'

/-- The loop over the JVM states. -/
theorem processScopes_spec {fuel : ℕ} (hfuel : sfpt.inputs.length < fuel)
    (younger older : List JvmState) (hchain : sfpt.chain = older ++ younger)
    (harea : sfpt.ScalarAreaOk) (objs : List (WrittenObject Jobject))
    (hgrown : sfpt.Grown (older.flatMap sfpt.scopeNodes) [] objs) :
    ∃ scopes new, sfpt.processScopes fuel younger objs = some scopes ∧
      (objs :: scopes.map fun scope => scope.objects).getLast? = some (objs ++ new) ∧
      sfpt.Grown (sfpt.chain.flatMap sfpt.scopeNodes) [] (objs ++ new) ∧
      List.Forall₂ (sfpt.ScopeOk (objs ++ new)) younger scopes := by
  induction younger generalizing older objs with
  | nil =>
    rw [List.append_nil] at hchain
    refine ⟨[], [], by rw [processScopes], by simp, ?_, .nil⟩
    rwa [hchain, List.append_nil]
  | cons jvms younger ih =>
    obtain ⟨scope, new, heq, hobjects, hscope, hok⟩ :=
      processJvms_spec hfuel hgrown (harea older jvms younger hchain)
    have hgrown' : sfpt.Grown ((older ++ [jvms]).flatMap sfpt.scopeNodes) [] (objs ++ new) := by
      rw [List.flatMap_append, List.flatMap_singleton]
      exact hgrown.trans (show sfpt.Grown _ ([] ++ objs) _ from hscope)
    obtain ⟨scopes, new', heq', hlast, hall, hoks⟩ :=
      ih (older ++ [jvms]) (by rw [hchain, List.append_assoc]; rfl) (objs ++ new) hgrown'
    refine ⟨scope :: scopes, new ++ new', ?_, ?_, by rwa [← List.append_assoc], ?_⟩
    · simp only [processScopes, heq, Option.bind_eq_bind, Option.bind_some, hobjects, heq']
      rfl
    · rw [List.map_cons, hobjects, List.getLast?_cons_cons, hlast, List.append_assoc]
    · rw [← List.append_assoc]
      exact .cons (hok.append hobjects new') hoks

/-- `Process_OopMap_Node` records an object pool that is unique and complete. -/
theorem processOopMapNode_poolOk (sfpt : MachSafePoint Jobject) (harea : sfpt.ScalarAreaOk)
    {fuel : ℕ} (hfuel : sfpt.inputs.length < fuel) :
    ∃ scopes objs, sfpt.processOopMapNode fuel = some scopes ∧ sfpt.PoolOk scopes objs := by
  obtain ⟨scopes, objs, heq, hlast, hgrown, hoks⟩ :=
    processScopes_spec hfuel sfpt.chain [] rfl harea
    [] (.nil List.nodup_nil fun idx h => absurd h List.not_mem_nil)
  have hne : scopes ≠ [] := by
    rintro rfl
    have hlen := hoks.length_eq
    rw [chain, List.length_append] at hlen
    simp at hlen
  refine ⟨scopes, objs, heq, ⟨?_, hgrown.nodup, fun idx => ⟨fun hidx => ?_, fun hd => ?_⟩,
    hgrown.entryOk, hoks⟩⟩
  · rw [List.getLast?_cons, List.nil_append] at hlast
    obtain ⟨last, hlast'⟩ := Option.ne_none_iff_exists'.1 fun hnone =>
      hne (List.map_eq_nil_iff.1 (List.getLast?_eq_none_iff.1 hnone))
    rw [hlast'] at hlast ⊢
    exact hlast
  · obtain ⟨sv, hsv, rfl⟩ := List.mem_map.1 hidx
    exact hgrown.described sv hsv
  · exact mem_poolIds_of_described hgrown.entryOk hgrown.registered hd

/-- A frame that holds a scalar-replaced object in a local, and the frame it called. The
object has a field that refers to another scalar-replaced object, whose field refers back;
the scalar area lists a stack object after these fields. -/
def twoFrames : MachSafePoint ℕ where
  platform := ⟨false, false⟩
  inputs := [.scalarObject 10, .constant (.int 7), .scalarObject 11, .scalarObject 10,
    .scalarObject 12]
  scalarObject := fun idx =>
    if idx = 10 then ⟨false, 0, 1, 1, 0⟩
    else if idx = 11 then ⟨false, 1, 1, 1, 0⟩
    else ⟨true, 0, 3, 2, 16⟩
  monitorBox := fun _ => ⟨0, false⟩
  callers := [⟨true, 0, 1, 1, 1, 1⟩]
  youngest := ⟨true, 1, 1, 2, 2, 5⟩

/-- The objects of the example are described in the scalar area. -/
theorem scalarAreaOk_twoFrames : twoFrames.ScalarAreaOk := by
  have hfirst : twoFrames.Described ([⟨true, 0, 1, 1, 1, 1⟩, ⟨true, 1, 1, 2, 2, 5⟩].flatMap
      twoFrames.frameNodes) 10 := .node (by decide)
  have hsecond : twoFrames.Described _ 11 := hfirst.field rfl (by decide)
  intro older jvms younger hchain idx hidx
  rcases older with - | ⟨caller, - | ⟨caller', older⟩⟩
  · obtain ⟨rfl, -⟩ := List.cons.inj hchain
    exact absurd hidx (by simp [scalarNodes, JvmState.sclSize])
  · obtain ⟨rfl, htail⟩ := List.cons.inj hchain
    obtain ⟨rfl, -⟩ := List.cons.inj htail
    have hmem : idx = 11 ∨ idx = 10 ∨ idx = 12 := by
      simpa [scalarNodes, twoFrames, JvmState.sclSize, List.range_succ, input] using hidx
    rcases hmem with rfl | rfl | rfl
    · exact .inr hsecond
    · exact .inr hfirst
    · exact .inl rfl
  · have hlength := congrArg List.length hchain
    simp [chain, twoFrames] at hlength

/-- Both frames of the example share one entry for the object that both refer to. -/
theorem poolOk_twoFrames :
    ∃ scopes objs, twoFrames.processOopMapNode 6 = some scopes ∧ twoFrames.PoolOk scopes objs :=
  processOopMapNode_poolOk twoFrames scalarAreaOk_twoFrames (by decide)

-- The caller's pool has the two objects of its local, the callee's the stack object as well.
example : (twoFrames.processOopMapNode 6).map
    (fun scopes => scopes.map fun scope => poolIds scope.objects) =
      some [[10, 11], [10, 11, 12]] := by decide

end MachSafePoint

end StackAllocation
