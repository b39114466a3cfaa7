import StackAllocation.PointsTo
import Mathlib.Logic.Function.Basic

/-!
# Completing the connection graph

`complete_connection_graph` propagates references: a Java object is added to everything
that refers to something that refers to it, over a worklist of the users it has reached
(`add_java_object_edges`). A field that gets a new value passes it on to its loads and to
the other fields it may be the same as: those with the same base and offset, directly or
through an arraycopy. In between the escape states are propagated along the edges
(`find_non_escaped_objects`), and at the end allocations get the null values that no
store has recorded.

Loops over worklists that grow take fuel; a run out of fuel has no result.
-/

namespace StackAllocation

/-! ## Edges

An edge is kept at both ends: the target among the edges of the source, and the source among the
uses of the target. A base of a field is kept in the same way, with a use that says that it is
one. -/

/-- `append_if_missing` on `_uses`. -/
def PointsToNode.addUse (n : PointsToNode) (u : Use) : Bool × PointsToNode :=
  if u ∈ n.uses then (false, n) else (true, { n with uses := n.uses ++ [u] })

/-- `append_if_missing` on `_edges`. -/
def PointsToNode.addEdge (n : PointsToNode) (e : ℕ) : Bool × PointsToNode :=
  if e ∈ n.edges then (false, n) else (true, { n with edges := n.edges ++ [e] })

/-- `append_if_missing` on `_bases`. -/
def PointsToNode.addBase (n : PointsToNode) (b : ℕ) : Bool × PointsToNode :=
  if b ∈ n.bases then (false, n) else (true, { n with bases := n.bases ++ [b] })

/-- `add_edge`: whether the edge is new. -/
def addEdge (g : Nodes) (src dst : ℕ) : Bool × Nodes :=
  if dst = phantomObj ∧ (g src).hasUnknownPtr = true then (false, g)
  else
    let g := if dst = phantomObj then
        Function.update g src { g src with hasUnknownPtr := true } else g
    match (g src).addEdge dst with
    | (false, _) => (false, g)
    | (true, n) =>
      let g := Function.update g src n
      let (isNew, n) := (g dst).addUse (.edge src)
      (isNew, Function.update g dst n)

/-- `add_base`: whether the base is new. -/
def addBase (g : Nodes) (field base : ℕ) : Bool × Nodes :=
  if base = phantomObj ∧ (g field).hasUnknownBase = true then (false, g)
  else
    let g := if base = phantomObj then
        Function.update g field { g field with hasUnknownBase := true } else g
    match (g field).addBase base with
    | (false, _) => (false, g)
    | (true, n) =>
      let g := Function.update g field n
      if base = nullObj then (true, g)
      else if (g base).type = .javaObject then
        let (isNew, n) := (g base).addEdge field
        (isNew, Function.update g base n)
      else
        let (isNew, n) := (g base).addUse (.base field)
        (isNew, Function.update g base n)

/-- `set_arraycopy_src`. -/
def setArraycopySrc (g : Nodes) (n : ℕ) : Nodes :=
  Function.update g n { g n with arraycopySrc := true }

/-- `set_arraycopy_dst`. -/
def setArraycopyDst (g : Nodes) (n : ℕ) : Nodes :=
  Function.update g n { g n with arraycopyDst := true }

/-! ## The worklist

The walk for one object starts with its uses. Every user on the list gets an edge to the object, and
what depends on the user is put behind, until the index is at the end. -/

/-- `add_to_worklist`. `_in_worklist` has exactly the entries that are on `_worklist`, with a
marked base use apart from the node itself. -/
def addToWorklist (wl : List Use) (u : Use) : List Use :=
  if u ∈ wl then wl else wl ++ [u]

section

variable (g : Nodes)

/-- `add_uses_to_worklist`. -/
def addUsesToWorklist (pt : ℕ) (wl : List Use) : List Use :=
  (g pt).uses.foldl addToWorklist wl

/-- The offsets may be the same; `none` is `OffsetBot`. -/
def sameOffset (offset offs : Option ℤ) : Bool :=
  decide (offs = offset) || offset.isNone || offs.isNone

/-- The field is put on the worklist if it may be the same field of the base. -/
def addField (field : ℕ) (wl : List Use) (f : ℕ) : List Use :=
  if f = field ∨ (g f).isOop = false then wl
  else if sameOffset (g field).offset (g f).offset then addToWorklist wl (.edge f)
  else wl

/-- `add_fields_to_worklist`. -/
def addFieldsToWorklist (field base : ℕ) (wl : List Use) : List Use :=
  if (g base).type = .localVar then
    (g base).uses.foldl
      (fun wl u => match u with
        | .base f => addField g field wl f
        | .edge _ => wl) wl
  else if base ≠ phantomObj ∧ base ≠ nullObj then
    (g base).edges.foldl
      (fun wl f => if (g f).type = .arraycopy then wl else addField g field wl f) wl
  else wl

/-- The destinations of an arraycopy, for `add_field_uses_to_worklist`. -/
def addDestinationFields (field base arycp : ℕ) (wl : List Use) : List Use :=
  (g arycp).uses.foldl
    (fun wl k => match k with
      | .edge abase =>
        if (g abase).arraycopyDst = true ∧ abase ≠ base then addFieldsToWorklist g field abase wl
        else wl
      | .base _ => wl) wl

/-- The loop of `add_field_uses_to_worklist` for one base. -/
def addBaseFields (field : ℕ) (wl : List Use) (base : ℕ) : List Use :=
  let wl := addFieldsToWorklist g field base wl
  if (g base).arraycopySrc then
    (g base).uses.foldl
      (fun wl j => match j with
        | .edge arycp =>
          if (g arycp).type = .arraycopy then addDestinationFields g field base arycp wl else wl
        | .base _ => wl) wl
  else wl

/-- `add_field_uses_to_worklist`. -/
def addFieldUsesToWorklist (field : ℕ) (wl : List Use) : List Use :=
  (g field).bases.foldl (addBaseFields g field) (addUsesToWorklist g field wl)

/-- The uses of a node that has got a new reference, and the fields related to a field. -/
def addUserToWorklist (wl : List Use) (u : Use) : List Use :=
  match u with
  | .edge use =>
    if (g use).type = .arraycopy then wl
    else
      let wl := addUsesToWorklist g use wl
      if (g use).type = .field ∧ (g use).isOop = true then addFieldUsesToWorklist g use wl
      else wl
  | .base _ => wl

end

/-- The state of `add_java_object_edges`. -/
structure Walk : Type where
  graph : Nodes
  worklist : List Use
  newEdges : ℕ

/-- The link from an arraycopy's destination object to the `Arraycopy` node. -/
def linkArraycopy (jobj : ℕ) (w : Walk) (e : ℕ) : Walk :=
  if (w.graph e).type = .arraycopy then
    -- NULL object does not have field edges
    if jobj = nullObj then w
    else
      match addEdge w.graph jobj e with
      | (true, g) => { w with graph := setArraycopyDst g jobj, newEdges := w.newEdges + 1 }
      | (false, g) => { w with graph := g }
  else w

/-- One entry of the worklist. -/
def walkUse (jobj : ℕ) (w : Walk) : Use → Walk
  | .base field =>
    match addBase w.graph field jobj with
    | (true, g) => { w with graph := g, newEdges := w.newEdges + 1 }
    | (false, g) => { w with graph := g }
  | .edge use =>
    if (w.graph use).type = .arraycopy then
      -- NULL object does not have field edges
      if jobj = nullObj then w
      else
        match addEdge w.graph use jobj with
        | (true, g) => { w with graph := setArraycopySrc g jobj, newEdges := w.newEdges + 1 }
        | (false, g) => { w with graph := g }
    else
      match addEdge w.graph use jobj with
      | (false, g) => { w with graph := g }
      | (true, g) =>
        if (g use).type = .localVar then
          let w : Walk := ⟨g, addUsesToWorklist g use w.worklist, w.newEdges + 1⟩
          if (g use).arraycopyDst then (g use).edges.foldl (linkArraycopy jobj) w else w
        else ⟨g, addFieldUsesToWorklist g use w.worklist, w.newEdges + 1⟩

/-- The loop over the worklist, from entry `l` on. -/
def walkWorklist (jobj : ℕ) : ℕ → ℕ → Walk → Option Walk
  | 0, _, _ => none
  | fuel + 1, l, w =>
    match w.worklist[l]? with
    | none => some w
    | some u => walkWorklist jobj fuel (l + 1) (walkUse jobj w u)

/-- `add_java_object_edges` with what is on the worklist: the graph and the number of new edges.
The worklist is empty afterwards. -/
def addJavaObjectEdges (fuel : ℕ) (g : Nodes) (wl : List Use) (jobj : ℕ)
    (populateWorklist : Bool) : Option (Nodes × ℕ) :=
  let wl := if populateWorklist then (g jobj).uses.foldl (addUserToWorklist g) wl else wl
  (walkWorklist jobj fuel 0 ⟨g, wl, 0⟩).map fun w => (w.graph, w.newEdges)

/-! ## Values that no store explains

Fields may have values that come from nowhere in the graph: the phantom object where an object is
from elsewhere, and null in a new object where no store initializes the field. -/

/-- A new reference of a field, whose uses are then on the worklist. -/
def addFieldValue (val : ℕ) (w : Walk) (field : ℕ) : Walk :=
  match addEdge w.graph field val with
  | (true, g) => ⟨g, addFieldUsesToWorklist g field w.worklist, w.newEdges + 1⟩
  | (false, g) => { w with graph := g }

/-- The loop of `find_field_value`: no base is an allocation. -/
def hasAllocateBase (g : Nodes) (field : ℕ) : Bool :=
  (g field).bases.any fun base =>
    decide ((g base).type = .javaObject) && decide ((g base).ideal = .allocate)

/-- `find_field_value`. -/
def findFieldValue (w : Walk) (field : ℕ) : Walk :=
  if hasAllocateBase w.graph field then w else addFieldValue phantomObj w field

/-- What `find_init_values` looks up for a field or an allocation. -/
structure InitInfo : Type where
  /-- the type of the field's `AddP` is a raw pointer -/
  isRawptr : ℕ → Bool
  /-- the allocation has an `Initialize` node that has captured a store at the offset, of the
  type of an oop field -/
  hasCapturedStore : ℕ → ℤ → Bool

/-- The loop of `find_init_values` with `phantom_obj`. -/
def initUnknown (w : Walk) (field : ℕ) : Walk :=
  if (w.graph field).type = .field ∧ (w.graph field).isOop = true then
    addFieldValue phantomObj w field
  else w

/-- `find_init_values` with `phantom_obj`. -/
def findInitValuesPhantom (w : Walk) (pta : ℕ) : Walk :=
  -- Do nothing for Allocate nodes unless they are initialized by arraycopy/clone.
  if (w.graph pta).ideal = .allocate ∧ (w.graph pta).arraycopyDst = false then w
  else (w.graph pta).edges.foldl initUnknown w

/-- The state of the loop of `find_init_values` with `null_obj`. -/
structure InitWalk : Type extends Walk where
  visitedBottomOffset : Bool
  offsets : List ℤ

/-- The loop of `find_init_values` with `null_obj`. -/
def initField (I : InitInfo) (pta : ℕ) (w : InitWalk) (field : ℕ) : InitWalk :=
  if (w.graph field).type ≠ .field ∨ (w.graph field).isOop = false then w
  else
    match (w.graph field).offset with
    | none =>
      if w.visitedBottomOffset then w
      else
        match addEdge w.graph field nullObj with
        | (true, g) =>
          { w with
            graph := g
            worklist := addFieldUsesToWorklist g field w.worklist
            newEdges := w.newEdges + 1
            visitedBottomOffset := true }
        | (false, g) => { w with graph := g }
    | some offset =>
      if I.isRawptr field then w
      else if offset ∈ w.offsets then w
      else if I.hasCapturedStore pta offset then { w with offsets := w.offsets ++ [offset] }
      else
        { w with
          toWalk := addFieldValue nullObj w.toWalk field
          offsets := w.offsets ++ [offset] }

/-- `find_init_values` with `null_obj`. -/
def findInitValuesNull (I : InitInfo) (w : Walk) (pta : ℕ) : Walk :=
  if (w.graph pta).ideal ≠ .allocate then w
  else ((w.graph pta).edges.foldl (initField I pta) ⟨w, false, []⟩).toWalk

/-! ## Escape states

The states go up only, and a node passes them on along its edges. What is passed on depends on the
kinds of the two nodes (`propagateEscape`). -/

/-- `set_escape_state`. -/
def setEscapeState (g : Nodes) (ptn : ℕ) (esc : EscapeState) : Nodes :=
  if ptn = nullObj then g
  else
    Function.update g ptn
      { g ptn with
        escapeState :=
          if (g ptn).escapeState.toNat < esc.toNat then esc else (g ptn).escapeState
        fieldsEscapeState :=
          if (g ptn).fieldsEscapeState.toNat < esc.toNat then esc
          else (g ptn).fieldsEscapeState }

/-- `set_fields_escape_state`. -/
def setFieldsEscapeState (g : Nodes) (ptn : ℕ) (esc : EscapeState) : Nodes :=
  if ptn = nullObj then g
  else
    Function.update g ptn
      { g ptn with
        fieldsEscapeState :=
          if (g ptn).fieldsEscapeState.toNat < esc.toNat then esc
          else (g ptn).fieldsEscapeState }

/-- One edge of a node with escape states `es` and `fieldEs`: the graph, and whether the target
is pushed. -/
def propagateEscape (g : Nodes) (ptn : ℕ) (es fieldEs : EscapeState) (e : ℕ) : Nodes × Bool :=
  if (g e).type = .arraycopy then
    if (g e).fieldsEscapeState.toNat < fieldEs.toNat then
      (setFieldsEscapeState g e fieldEs, true)
    else (g, false)
  else if fieldEs.toNat ≤ es.toNat then
    if (g e).escapeState.toNat < es.toNat then (setEscapeState g e es, true) else (g, false)
  else
    let (g, changed) :=
      if (g e).fieldsEscapeState.toNat < fieldEs.toNat then
        (setFieldsEscapeState g e fieldEs, true)
      else (g, false)
    if (g e).escapeState.toNat < fieldEs.toNat ∧ (g e).type = .field ∧
        (g ptn).type = .javaObject ∧ (g e).isOop = true then
      (setEscapeState g e fieldEs, true)
    else if (g e).escapeState.toNat < es.toNat then (setEscapeState g e es, true)
    else (g, changed)

/-- The state of the loops of `find_non_escaped_objects`; the stack is `escape_worklist`. -/
structure EscapeWalk : Type extends Walk where
  stack : List ℕ

/-- The loop over the edges of `ptn`. -/
def propagateEdge (ptn : ℕ) (es fieldEs : EscapeState) (w : EscapeWalk) (e : ℕ) : EscapeWalk :=
  match propagateEscape w.graph ptn es fieldEs e with
  | (g, true) => { w with graph := g, stack := e :: w.stack }
  | (g, false) => { w with graph := g }

/-- GlobalEscape or ArgEscape state of a field means it has an unknown value. -/
def addUnknownValue (w : EscapeWalk) (ptn : ℕ) : EscapeWalk :=
  if (w.graph ptn).type = .field ∧ (w.graph ptn).isOop = true ∧
      EscapeState.argEscape.toNat ≤ (w.graph ptn).escapeState.toNat then
    { w with toWalk := addFieldValue phantomObj w.toWalk ptn }
  else w

/-- One node of `escape_worklist`. -/
def propagateNode (w : EscapeWalk) (ptn : ℕ) : EscapeWalk :=
  let es := (w.graph ptn).escapeState
  let fieldEs := (w.graph ptn).fieldsEscapeState
  let w := addUnknownValue w ptn
  (w.graph ptn).edges.foldl (propagateEdge ptn es fieldEs) w

/-- The loop over `escape_worklist`. -/
def propagateStack : ℕ → EscapeWalk → Option EscapeWalk
  | 0, _ => none
  | fuel + 1, w =>
    match w.stack with
    | [] => some w
    | ptn :: rest => propagateStack fuel (propagateNode { w with stack := rest } ptn)

/-- The last loop of `find_non_escaped_objects`. -/
def initUnknownObject (w : Walk) (ptn : ℕ) : Walk :=
  if (w.graph ptn).escapeState = .noEscape then findInitValuesPhantom w ptn else w

/-- `find_non_escaped_objects`: the graph and the worklist, and the objects that are left. -/
def findNonEscapedObjects (fuel : ℕ) (g : Nodes) (wl : List Use) (ptnodes nonEscaped : List ℕ) :
    Option (Nodes × List Use × List ℕ) :=
  let start := ptnodes.filter fun ptn =>
    decide (EscapeState.argEscape.toNat ≤ (g ptn).escapeState.toNat) ||
      decide (EscapeState.argEscape.toNat ≤ (g ptn).fieldsEscapeState.toNat)
  (propagateStack fuel ⟨⟨g, wl, 0⟩, start.reverse⟩).map fun w =>
    let w' := nonEscaped.reverse.foldl initUnknownObject w.toWalk
    (w'.graph, w'.worklist,
      nonEscaped.filter fun ptn => decide ((w.graph ptn).escapeState ≠ .globalEscape))

/-! ## The whole

The three parts are repeated until nothing changes, a limit is reached, or nothing is left that does
not escape. The clock is a parameter, as is the order of the worklists. -/

/-- The worklists of `compute_escape`. -/
structure Worklists : Type where
  ptnodes : List ℕ
  javaObjects : List ℕ
  oopFields : List ℕ

/-- When the time limit is found to be exceeded. -/
structure Clock : Type where
  /-- in a pass, after a Java object -/
  inPass : ℕ → ℕ → Bool
  /-- after a pass -/
  afterPass : ℕ → Bool
  /-- after the search for unknown values -/
  afterFields : ℕ → Bool

/-- The state of `complete_connection_graph`. -/
structure Completion : Type where
  graph : Nodes
  worklist : List Use
  nonEscaped : List ℕ
  newEdges : ℕ
  iterations : ℕ

/-- `CG_BUILD_ITER_LIMIT`. -/
def cgBuildIterLimit : ℕ := 20

/-- How a loop ends. -/
inductive Ended (α : Type) : Type where
  | finished (a : α)
  /-- a limit is reached or everything escapes: the method returns false -/
  | gaveUp

section

variable (fuel : ℕ) (clock : Clock) (W : Worklists)

/-- The loop of a pass over the Java objects; the time is polled after each fourth. -/
def passObjects (iteration : ℕ) : List ℕ → ℕ → Nodes → ℕ → Option (Ended (Nodes × ℕ))
  | [], _, g, newEdges => some (.finished (g, newEdges))
  | ptn :: rest, next, g, newEdges =>
    match addJavaObjectEdges fuel g [] ptn true with
    | none => none
    | some (g', n) =>
      if next % 4 = 0 ∧ clock.inPass iteration next = true then some .gaveUp
      else passObjects iteration rest (next + 1) g' (newEdges + n)

/-- A pass: first the references to `phantom_obj` from the nodes on the worklist. -/
def pass (iteration : ℕ) (g : Nodes) (wl : List Use) : Option (Ended (Nodes × ℕ)) :=
  match addJavaObjectEdges fuel g wl phantomObj false with
  | none => none
  | some (g', n) => passObjects fuel clock iteration W.javaObjects 0 g' n

/-- The inner `while` loop. -/
def passes : ℕ → Completion → Option (Ended Completion)
  | 0, _ => none
  | k + 1, c =>
    if c.newEdges > 0 then
      if c.iterations < cgBuildIterLimit then
        match pass fuel clock W c.iterations c.graph c.worklist with
        | none => none
        | some .gaveUp => some .gaveUp
        | some (.finished (g, n)) =>
          if n > 0 then
            -- Update escape states on each iteration if graph was updated.
            match findNonEscapedObjects fuel g [] W.ptnodes c.nonEscaped with
            | none => none
            | some (g', wl, nonEscaped) =>
              if nonEscaped.length = 0 then some .gaveUp
              else if clock.afterPass c.iterations then some .gaveUp
              else passes k ⟨g', wl, nonEscaped, n, c.iterations + 1⟩
          else if clock.afterPass c.iterations then some .gaveUp
          else passes k ⟨g, [], c.nonEscaped, n, c.iterations + 1⟩
      else some (.finished { c with iterations := c.iterations + 1 })
    else some (.finished c)

/-- The search for fields with unknown values. -/
def findFieldValues (w : Walk) : Walk :=
  W.oopFields.foldl
    (fun w field => if (w.graph field).edges.length = 0 then findFieldValue w field else w) w

/-- The outer `do` loop. -/
def completionLoop : ℕ → Completion → Option (Ended Completion)
  | 0, _ => none
  | k + 1, c =>
    match passes fuel clock W fuel c with
    | none => none
    | some .gaveUp => some .gaveUp
    | some (.finished c) =>
      if c.iterations < cgBuildIterLimit then
        let w := findFieldValues W ⟨c.graph, c.worklist, c.newEdges⟩
        if clock.afterFields c.iterations then some .gaveUp
        else if w.newEdges > 0 then
          completionLoop k
            { c with graph := w.graph, worklist := w.worklist, newEdges := w.newEdges }
        else some (.finished { c with graph := w.graph, worklist := w.worklist, newEdges := 0 })
      -- Bailout if passed limits.
      else some .gaveUp

/-- The last loop: null values of one object. -/
def addNullValues (I : InitInfo) (g : Nodes) (pta : ℕ) : Option Nodes :=
  if (g pta).escapeState = .noEscape then
    let w := findInitValuesNull I ⟨g, [], 0⟩ pta
    if w.newEdges > 0 then
      (addJavaObjectEdges fuel w.graph w.worklist nullObj false).map Prod.fst
    else some w.graph
  else some g

/-- The last loop. -/
def addAllNullValues (I : InitInfo) : List ℕ → Nodes → Option Nodes
  | [], g => some g
  | pta :: rest, g =>
    match addNullValues fuel I g pta with
    | none => none
    | some g' => addAllNullValues I rest g'

/-- `complete_connection_graph`: the result is true when it is `finished`. -/
def completeConnectionGraph (I : InitInfo) (g : Nodes) (nonEscaped : List ℕ) :
    Option (Ended (Nodes × List ℕ)) :=
  match findNonEscapedObjects fuel g [] W.ptnodes nonEscaped with
  | none => none
  | some (g, wl, nonEscaped) =>
    if nonEscaped.length = 0 then some .gaveUp
    else
      match completionLoop fuel clock W fuel ⟨g, wl, nonEscaped, 1, 0⟩ with
      | none => none
      | some .gaveUp => some .gaveUp
      | some (.finished c) =>
        (addAllNullValues fuel I c.nonEscaped c.graph).map fun g => .finished (g, c.nonEscaped)

end

end StackAllocation
